/-
# Reading settings

Settings are read straight off a text, without making a tree of it first.  So a fault of shape
(a switch that is not a boolean, or given twice) counts from the place where it is met, and
what stands behind it is not looked at.  Two forms are accepted:

* an object, in which each switch may stand once, beside any other members;
* an array of at most two booleans, the switches in order.

A switch that is not given has its default.  The value of any other member is skipped, which
is less strict than reading it.
-/
import Patchbay.Settings
import Patchbay.Json.Reader

namespace Patchbay
namespace Settings

/-- Why a text holds no settings. -/
inductive Fault where
  /-- The text is not JSON. -/
  | text (fault : Json.Fault)
  /-- It goes on with JSON of another shape. -/
  | shape
  deriving DecidableEq, Repr

/-- A fault of the text as a fault of the settings. -/
def lift {α : Type} : Except Json.Fault α → Except Fault α
  | .ok a => .ok a
  | .error fault => .error (.text fault)

/-! ## 1. Switches -/

/-- A value of another shape.  Containers are rejected unseen; anything else is read first, and
a fault in it counts. -/
def otherShape {α : Type} (c : Char) (rest : List Char) : Except Fault α := do
  if c = '[' ∨ c = '{' then .error .shape
  else do
    let _ ← lift (Json.scalar .kept c rest)
    .error .shape

/-- The position of a switch. -/
def switch (cs : List Char) : Except Fault (Bool × List Char) :=
  match Json.skipBlanks cs with
  | [] => .error (.text .unfinished)
  | c :: rest =>
    if c = 't' then do
      let rest ← lift (Json.expect ['r', 'u', 'e'] rest)
      return (true, rest)
    else if c = 'f' then do
      let rest ← lift (Json.expect ['a', 'l', 's', 'e'] rest)
      return (false, rest)
    else otherShape c rest

/-! ## 2. The array form -/

/-- What comes in front of the next item of an array. -/
inductive Separator where
  /-- The closing bracket. -/
  | close
  /-- A comma. -/
  | comma

/-- Takes the closing bracket or the next comma. -/
def separator (cs : List Char) : Except Fault (Separator × List Char) :=
  match Json.skipBlanks cs with
  | [] => .error (.text .unfinished)
  | c :: rest =>
    if c = ']' then .ok (.close, rest)
    else if c = ',' then .ok (.comma, rest)
    else .error (.text .malformed)

/-- An array behind its opening bracket. -/
def arrayBody (cs : List Char) : Except Fault (Settings × List Char) := do
  match Json.skipBlanks cs with
  | ']' :: rest => return ({}, rest)
  | _ => do
    let (logDiagnostics, cs) ← switch cs
    match ← separator cs with
    | (.close, cs) => return ({ logDiagnostics }, cs)
    | (.comma, cs) => do
      let (strict, cs) ← switch cs
      match ← separator cs with
      | (.close, cs) => return ({ logDiagnostics, strict }, cs)
      | (.comma, _) => .error (.text .malformed)

/-! ## 3. The object form -/

/-- The switches given so far. -/
structure Draft where
  logDiagnostics : Option Bool := none
  strict : Option Bool := none
  deriving DecidableEq, Repr

/-- The settings of a draft. -/
def Draft.finish (d : Draft) : Settings where
  logDiagnostics := d.logDiagnostics.getD true
  strict := d.strict.getD false

/-- The value of a member that is no switch, let pass. -/
def skipMember (cs : List Char) : Except Fault (List Char) := do
  let (_, cs) ← lift (Json.value .skipped cs.length cs)
  return cs

/-- The value of a switch that was not given before. -/
def newSwitch (given : Option Bool) (cs : List Char) : Except Fault (Bool × List Char) := do
  if given.isSome then .error .shape
  let cs ← lift (Json.expectMark ':' cs)
  switch cs

/-- One member taken into a draft. -/
def member (d : Draft) (cs : List Char) : Except Fault (Draft × List Char) := do
  let (key, cs) ← lift (Json.memberName .kept cs)
  if key = "logDiagnostics" then
    let (b, cs) ← newSwitch d.logDiagnostics cs
    return ({ d with logDiagnostics := some b }, cs)
  else if key = "strict" then
    let (b, cs) ← newSwitch d.strict cs
    return ({ d with strict := some b }, cs)
  else
    let cs ← lift (Json.expectMark ':' cs)
    let cs ← skipMember cs
    return (d, cs)

/-- The members behind the first one, in one turn each. -/
def furtherMembers : (turns : List Char) → Draft → List Char → Except Fault (Draft × List Char)
  | [], _, _ => .error (.text .unfinished)
  | _ :: turns, d, cs => match Json.skipBlanks cs with
    | [] => .error (.text .unfinished)
    | c :: rest =>
      if c = '}' then .ok (d, rest)
      else if c = ',' then do
        let (d, rest) ← member d rest
        furtherMembers turns d rest
      else .error (.text .malformed)

/-- An object behind its opening brace. -/
def objectBody (cs : List Char) : Except Fault (Settings × List Char) := do
  match Json.skipBlanks cs with
  | '}' :: rest => return ({}, rest)
  | _ => do
    let (d, cs) ← member {} cs
    let (d, cs) ← furtherMembers cs d cs
    return (d.finish, cs)

/-! ## 4. Whole texts -/

/-- The settings of a whole text. -/
def ofText (text : String) : Except Fault Settings := do
  match Json.skipBlanks text.toList with
  | [] => .error (.text .unfinished)
  | c :: rest =>
    let (settings, rest) ←
      if c = '[' then arrayBody rest
      else if c = '{' then objectBody rest
      else otherShape c rest
    lift (Json.finish rest)
    return settings

example : ofText "[false,true]" = .ok { logDiagnostics := false, strict := true } := by
  cbv
example : ofText "\x7b\"x\":[\"\\ud800\"],\"strict\":true\x7d" = .ok { strict := true } := by
  cbv
example : ofText "\x7b\"strict\":1" = .error .shape := by cbv
example : ofText "\x7b\"strict\":true,\"strict\"" = .error .shape := by cbv
example : ofText "\x7b\"strict\":-" = .error (.text .unfinished) := by cbv
example : ofText "\x7b\"x\":-" = .error (.text .malformed) := by cbv

end Settings
end Patchbay
