/-
# Tags of a declared pin

A node type says of each pin which way values flow and what type they have, by a text tag.
Few tags are known.  One that is not known is kept as it was written, so that it can be
reported, and written again.

* `Direction.tag_ofTag`, `PinType.tag_ofTag`: reading a tag loses nothing;
* `Direction.ofTag_tag_iff`, `PinType.ofTag_tag_iff`: a value reads back from its tag unless
  it keeps a known tag as an unknown one.
-/
namespace Patchbay

/-! ## 1. Directions -/

/-- Which way values flow through a declared pin. -/
inductive Direction where
  | input
  | output
  /-- A tag that is neither. -/
  | other (tag : String)
  deriving DecidableEq, Repr

namespace Direction

/-- The tag that a direction is written as. -/
def tag : Direction → String
  | input => "input"
  | output => "output"
  | other tag => tag

/-- The direction that a tag stands for. -/
def ofTag (tag : String) : Direction :=
  if tag = "input" then input else if tag = "output" then output else other tag

/-- The direction is the reading of its own tag. -/
def Proper : Direction → Prop
  | input | output => True
  | other tag => tag ≠ "input" ∧ tag ≠ "output"

@[simp] theorem tag_ofTag (t : String) : (ofTag t).tag = t := by
  unfold ofTag
  split
  case isTrue h => exact h.symm
  case isFalse =>
    split
    case isTrue h => exact h.symm
    case isFalse => rfl

theorem proper_ofTag (t : String) : (ofTag t).Proper := by
  unfold ofTag
  split
  case isTrue => trivial
  case isFalse hi =>
    split
    case isTrue => trivial
    case isFalse ho => exact ⟨hi, ho⟩

theorem ofTag_tag_iff (d : Direction) : ofTag d.tag = d ↔ d.Proper := by
  constructor
  · intro h
    exact h ▸ proper_ofTag d.tag
  · intro h
    match d, h with
    | input, _ => rfl
    | output, _ => rfl
    | other t, h => simp [ofTag, tag, h.1, h.2]

end Direction

/-! ## 2. Pin types -/

/-- The type of the values at a declared pin. -/
inductive PinType where
  /-- A trigger. -/
  | pulse
  | boolean
  | number
  | string
  /-- A tag outside the known ones. -/
  | other (tag : String)
  deriving DecidableEq, Repr

namespace PinType

/-- The tag that a type is written as. -/
def tag : PinType → String
  | pulse => "pulse"
  | boolean => "boolean"
  | number => "number"
  | string => "string"
  | other tag => tag

/-- The type that a tag stands for. -/
def ofTag (tag : String) : PinType :=
  if tag = "pulse" then pulse
  else if tag = "boolean" then boolean
  else if tag = "number" then number
  else if tag = "string" then string
  else other tag

/-- The type is the reading of its own tag. -/
def Proper : PinType → Prop
  | pulse | boolean | number | string => True
  | other tag => tag ≠ "pulse" ∧ tag ≠ "boolean" ∧ tag ≠ "number" ∧ tag ≠ "string"

@[simp] theorem tag_ofTag (t : String) : (ofTag t).tag = t := by
  unfold ofTag
  repeat' split
  all_goals simp_all [tag]

theorem proper_ofTag (t : String) : (ofTag t).Proper := by
  unfold ofTag
  repeat' split
  all_goals simp_all [Proper]

theorem ofTag_tag_iff (p : PinType) : ofTag p.tag = p ↔ p.Proper := by
  constructor
  · intro h
    exact h ▸ proper_ofTag p.tag
  · intro h
    match p, h with
    | pulse, _ | boolean, _ | number, _ | string, _ => rfl
    | other t, h => simp [ofTag, tag, h.1, h.2.1, h.2.2.1, h.2.2.2]

end PinType
end Patchbay
