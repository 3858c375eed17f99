/-
# Nesting: how deep the containers of a value go

The reader opens only so many containers at once, so what it gives is no deeper than that
(`depth_of_readTree?`).  Settling repeated members takes whole values out and deepens none
(`depth_normalize_le`), and with that the bound holds of everything that is read from a text
(`depth_of_read?`).

A property of the items of a series is shown of the reader of one (`of_series`).
-/
import Mathlib.Order.MinMax
import Patchbay.Proofs.Derivation

namespace Patchbay
namespace Json

/-! ## 1. Depth -/

mutual
/-- The number of containers that are open at the deepest place of a value. -/
def depth : Json → Nat
  | array items => depthItems items + 1
  | object members => depthMembers members + 1
  | null | bool _ | number _ | string _ => 0

/-- The depth of the deepest item. -/
def depthItems : List Json → Nat
  | [] => 0
  | v :: vs => max (depth v) (depthItems vs)

/-- The depth of the deepest member's value. -/
def depthMembers : List (String × Json) → Nat
  | [] => 0
  | (_, v) :: rest => max (depth v) (depthMembers rest)
end

theorem depthItems_le_iff {items : List Json} {d : Nat} :
    depthItems items ≤ d ↔ ∀ v ∈ items, v.depth ≤ d := by
  induction items with
  | nil => simp [depthItems]
  | cons v vs ih => simp [depthItems, ih]

theorem depthMembers_le_iff {members : List (String × Json)} {d : Nat} :
    depthMembers members ≤ d ↔ ∀ m ∈ members, m.2.depth ≤ d := by
  induction members with
  | nil => simp [depthMembers]
  | cons m rest ih => simp [depthMembers, ih]

theorem depth_array_le_iff {items : List Json} {d : Nat} :
    (array items).depth ≤ d + 1 ↔ ∀ v ∈ items, v.depth ≤ d := by
  rw [depth, Nat.add_le_add_iff_right, depthItems_le_iff]

theorem depth_object_le_iff {members : List (String × Json)} {d : Nat} :
    (object members).depth ≤ d + 1 ↔ ∀ m ∈ members, m.2.depth ≤ d := by
  rw [depth, Nat.add_le_add_iff_right, depthMembers_le_iff]

/-! ## 2. Settling repeated members -/

/-- Every value of a settled object stood in the object. -/
theorem depthMembers_placeAll_le (members : List (String × Json)) :
    depthMembers (Entries.placeAll [] members) ≤ depthMembers members := by
  refine depthMembers_le_iff.mpr fun m hm => ?_
  rcases Entries.mem_placeAll hm with hm | hm
  · exact absurd hm List.not_mem_nil
  · exact depthMembers_le_iff.mp (Nat.le_refl _) m hm

mutual
theorem depth_normalize_le : ∀ v : Json, (normalize v).depth ≤ v.depth
  | null | bool _ | number _ | string _ => Nat.le_refl 0
  | array items => Nat.succ_le_succ (depthItems_normalize_le items)
  | object members =>
    Nat.succ_le_succ
      (Nat.le_trans (depthMembers_placeAll_le _) (depthMembers_normalize_le members))

theorem depthItems_normalize_le :
    ∀ vs : List Json, depthItems (normalizeItems vs) ≤ depthItems vs
  | [] => Nat.le_refl 0
  | v :: vs => max_le_max (depth_normalize_le v) (depthItems_normalize_le vs)

theorem depthMembers_normalize_le :
    ∀ ms : List (String × Json), depthMembers (normalizeMembers ms) ≤ depthMembers ms
  | [] => Nat.le_refl 0
  | (_, v) :: rest => max_le_max (depth_normalize_le v) (depthMembers_normalize_le rest)
end

/-! ## 3. What is read -/

section Series

variable {α : Type} {P : α → Prop} {close : Char} {item : Reader α}

theorem of_readsFurther (h : ∀ cs a rest, item cs = .ok (a, rest) → P a)
    {turns cs rest : List Char} {as : List α} (hread : ReadsFurther close item rest turns cs as) :
    ∀ a ∈ as, P a := by
  induction hread with
  | close => exact fun a ha => absurd ha List.not_mem_nil
  | comma _ _ hitem _ ih => exact List.forall_mem_cons.mpr ⟨h _ _ _ hitem, ih⟩

/-- What holds of all that the reader of one item gives holds of every item of a series. -/
theorem of_series (h : ∀ cs a rest, item cs = .ok (a, rest) → P a) {cs : List Char}
    {as : List α} {rest : List Char} (hread : series close item cs = .ok (as, rest)) :
    ∀ a ∈ as, P a := by
  cases series_eq_ok_iff.mp hread with
  | empty => exact fun a ha => absurd ha List.not_mem_nil
  | items _ _ hitem hmore =>
    exact List.forall_mem_cons.mpr ⟨h _ _ _ hitem, of_readsFurther h hmore⟩

end Series

theorem depth_of_numberToken {care : Care} {cs rest : List Char} {v : Json}
    (h : numberToken care cs = .ok (v, rest)) : v.depth = 0 := by
  cases care with
  | skipped =>
    obtain ⟨rfl, -⟩ := numberToken_skipped_eq_ok_iff.mp h
    rfl
  | kept =>
    obtain ⟨_, _, -, -, rfl⟩ := numberToken_kept_eq_ok_iff.mp h
    rfl

/-- A value that is no container is not deep at all. -/
theorem depth_of_scalar {care : Care} {c : Char} {cs rest : List Char} {v : Json}
    (h : scalar care c cs = .ok (v, rest)) : v.depth = 0 := by
  cases scalar_eq_ok_iff.mp h with
  | null | true | false | string => rfl
  | number _ htoken => exact depth_of_numberToken htoken

/-- **What is read is no deeper than the containers that may be opened.** -/
theorem depth_of_value {care : Care} (d : Nat) {cs rest : List Char} {v : Json}
    (h : value care d cs = .ok (v, rest)) : v.depth ≤ d := by
  induction d generalizing cs rest v with
  | zero =>
    cases value_eq_ok_iff.mp h with
    | scalar _ _ hscalar => exact Nat.le_of_eq (depth_of_scalar hscalar)
  | succ d ih =>
    cases value_eq_ok_iff.mp h with
    | array _ hitems => exact depth_array_le_iff.mpr (of_series (fun _ _ _ => ih) hitems)
    | object _ hmembers =>
      have hmember : ∀ cs m rest, member care (value care d) cs = .ok (m, rest) →
          m.2.depth ≤ d := by
        intro cs m rest hm
        obtain ⟨_, _, -, -, hvalue⟩ := member_eq_ok_iff.mp hm
        exact ih hvalue
      exact depth_object_le_iff.mpr (of_series hmember hmembers)
    | scalar _ _ hscalar =>
      exact Nat.le_trans (Nat.le_of_eq (depth_of_scalar hscalar)) (Nat.zero_le _)

theorem depth_of_readTree? {text : String} {v : Json} (h : readTree? text = .ok v) :
    v.depth ≤ deepest := by
  obtain ⟨⟨w, rest⟩, hw, h⟩ := bind_eq_ok_iff.mp h
  obtain ⟨_, -, h⟩ := bind_eq_ok_iff.mp h
  obtain rfl : w = v := Except.ok.inj h
  exact depth_of_value deepest hw

theorem depth_of_read? {text : String} {v : Json} (h : read? text = .ok v) :
    v.depth ≤ deepest := by
  obtain ⟨w, hw, h⟩ := bind_eq_ok_iff.mp h
  obtain rfl : w.normalize = v := Except.ok.inj h
  exact Nat.le_trans (depth_normalize_le w) (depth_of_readTree? hw)

end Json
end Patchbay
