/-
# Switches: which texts hold settings

Settings are read straight off a text, and a fault of shape counts from where it is met.  Yet of
a text that is JSON at all, what comes out depends on its tree alone, whatever the values of
other members are and however they are written.  It is settled in two steps.

First the tree: wherever the reader of JSON takes a value off a text, the reader of settings goes
on at the same place, or stops with a fault that the value itself is the reason for.  A value that
is no switch is skipped there instead of read (`Skipping`).

* `switch_of_value`, `member_of_member`: one switch, one member;
* `arrayBody_of_series`, `objectBody_of_series`: the two forms of settings;
* `ofText_eq_ofTree`: a whole text.

Then the settings of a tree are described without a loop over its members: a switch is taken from
the members of its name, which have to be one boolean or none (`Taken`).

* `ofItems_eq_ok_iff`, `ofItems_error`: arrays, in which a third item is a fault of the text;
* `foldlM_take_eq_ok_iff`, `ofMembers_eq_ok_iff`: objects, in which any fault is one of shape;
* `exists_givenBy`: a tree that fits leaves no switch open;
* `ofText_accepts`: which texts hold settings, and which settings they hold.
-/
import Patchbay.Proofs.Skipping
import Patchbay.Report

namespace Patchbay
namespace Settings

/-! ## 1. The settings of a tree -/

/-- A switch is a boolean. -/
def switchOf : Json → Except Fault Bool
  | .bool b => .ok b
  | _ => .error .shape

/-- Takes one member into a draft. -/
def Draft.take (d : Draft) (m : String × Json) : Except Fault Draft :=
  if m.1 = "logDiagnostics" then
    if d.logDiagnostics.isSome then .error .shape
    else do return { d with logDiagnostics := some (← switchOf m.2) }
  else if m.1 = "strict" then
    if d.strict.isSome then .error .shape
    else do return { d with strict := some (← switchOf m.2) }
  else .ok d

/-- The settings of an array. -/
def ofItems : List Json → Except Fault Settings
  | [] => .ok {}
  | [v] => do return { logDiagnostics := ← switchOf v }
  | v :: w :: more => do
    let logDiagnostics ← switchOf v
    let strict ← switchOf w
    if more = [] then return { logDiagnostics, strict } else .error (.text .malformed)

/-- The settings of an object. -/
def ofMembers (members : List (String × Json)) : Except Fault Settings := do
  return (← members.foldlM Draft.take {}).finish

/-- The settings of a tree. -/
def ofTree : Json → Except Fault Settings
  | .array items => ofItems items
  | .object members => ofMembers members
  | _ => .error .shape

/-! ## 2. The settings of a text are those of its tree -/

variable {depth : Nat} {cs rest : List Char}

theorem otherShape_container {α : Type} {c : Char} (h : c = '[' ∨ c = '{') (cs : List Char) :
    (otherShape c cs : Except Fault α) = .error .shape :=
  if_pos h

theorem otherShape_of_scalar {α : Type} {c : Char} {v : Json}
    (h : Json.scalar .kept c cs = .ok (v, rest)) :
    (otherShape c cs : Except Fault α) = .error .shape := by
  unfold otherShape
  rw [h]
  split <;> rfl

/-- Where a value stands, a switch is read if it is one, and nothing else. -/
theorem switch_of_value {v : Json} (h : Json.value .kept depth cs = .ok (v, rest)) :
    switch cs = do return (← switchOf v, rest) := by
  unfold switch
  cases Json.value_eq_ok_iff.mp h with
  | @array _ _ cs₁ _ hfirst _ =>
    rw [hfirst]
    exact otherShape_container (Or.inl rfl) cs₁
  | @object _ _ cs₁ _ hfirst _ =>
    rw [hfirst]
    exact otherShape_container (Or.inr rfl) cs₁
  | scalar hcontainer hfirst hscalar =>
    rw [hfirst]
    cases Json.scalar_eq_ok_iff.mp hscalar with
    | true hword => rw [hword]; rfl
    | false hword => rw [hword]; rfl
    | null _ => exact otherShape_of_scalar hscalar
    | string _ => exact otherShape_of_scalar hscalar
    | number hnumeral htoken =>
      obtain ⟨_, _, -, -, rfl⟩ := Json.numberToken_kept_eq_ok_iff.mp htoken
      simp only [Json.ne_of_numeral hnumeral (show 't' ≠ '-' ∧ _ by decide),
        Json.ne_of_numeral hnumeral (show 'f' ≠ '-' ∧ _ by decide), if_false]
      exact otherShape_of_scalar hscalar

/-- What can be read is skipped where nobody asks for it. -/
theorem skipMember_of_value {v : Json} (h : Json.value .kept depth cs = .ok (v, rest)) :
    skipMember cs = .ok rest := by
  obtain ⟨-, w, hw⟩ := Json.passes_value depth cs.length (Nat.le_refl _) h
  unfold skipMember
  rw [hw]
  rfl

/-- Where a member stands, it is taken into the draft. -/
theorem member_of_member {m : String × Json} (d : Draft)
    (h : Json.member .kept (Json.value .kept depth) cs = .ok (m, rest)) :
    member d cs = do return (← d.take m, rest) := by
  obtain ⟨cs₁, cs₂, hname, hcolon, hvalue⟩ := Json.member_eq_ok_iff.mp h
  have hmark := Json.expectMark_eq_ok_iff.mpr hcolon
  have hnew : ∀ given : Option Bool, newSwitch given cs₁ =
      if given.isSome then .error .shape else do return (← switchOf m.2, rest) := by
    intro given
    unfold newSwitch
    rw [hmark]
    cases given with
    | none => exact switch_of_value hvalue
    | some b => rfl
  unfold member Draft.take
  rw [hname]
  simp only [lift, bind, Except.bind, hnew, hmark, skipMember_of_value hvalue]
  split_ifs
  · rfl
  · cases switchOf m.2 <;> rfl
  · rfl
  · cases switchOf m.2 <;> rfl
  · rfl

/-- The members behind the first one are taken into the draft one by one. -/
theorem furtherMembers_of_readsFurther {turns : List Char} {members : List (String × Json)}
    (h : Json.ReadsFurther '}' (Json.member .kept (Json.value .kept depth)) rest turns cs members)
    (d : Draft) : furtherMembers turns d cs = do return (← members.foldlM Draft.take d, rest) := by
  induction h generalizing d with
  | close hmark =>
    simp only [furtherMembers, hmark]
    rfl
  | comma _ hmark hitem _ ih =>
    simp only [furtherMembers, hmark, member_of_member d hitem, List.foldlM_cons]
    cases d.take _ with
    | error fault => rfl
    | ok d => exact ih d

theorem objectBody_of_series {members : List (String × Json)}
    (h : Json.series '}' (Json.member .kept (Json.value .kept depth)) cs = .ok (members, rest)) :
    objectBody cs = do return (← ofMembers members, rest) := by
  unfold objectBody ofMembers
  cases Json.series_eq_ok_iff.mp h with
  | empty hmark =>
    rw [hmark]
    rfl
  | @items _ _ _ cs₁ m more hclose hfirst hitem hmore =>
    rw [← hfirst, Json.member_skipBlanks] at hitem
    split
    case h_1 heq => exact absurd (List.cons.inj (hfirst.symm.trans heq)).1 hclose
    case h_2 =>
      rw [member_of_member {} hitem, List.foldlM_cons]
      cases Draft.take {} m with
      | error fault => rfl
      | ok d =>
        show (furtherMembers cs₁ d cs₁ >>= _) = ((more.foldlM Draft.take d >>= _) >>= _)
        rw [furtherMembers_of_readsFurther hmore d]
        cases more.foldlM Draft.take d <;> rfl

theorem separator_close (h : Json.skipBlanks cs = ']' :: rest) :
    separator cs = .ok (.close, rest) := by
  simp [separator, h]

theorem separator_comma (h : Json.skipBlanks cs = ',' :: rest) :
    separator cs = .ok (.comma, rest) := by
  simp [separator, h]

theorem arrayBody_of_series {items : List Json}
    (h : Json.series ']' (Json.value .kept depth) cs = .ok (items, rest)) :
    arrayBody cs = do return (← ofItems items, rest) := by
  unfold arrayBody
  cases Json.series_eq_ok_iff.mp h with
  | empty hmark =>
    rw [hmark]
    rfl
  | @items _ _ _ cs₁ v more hclose hfirst hitem hmore =>
    rw [← hfirst, Json.value_skipBlanks] at hitem
    split
    case h_1 heq => exact absurd (List.cons.inj (hfirst.symm.trans heq)).1 hclose
    case h_2 =>
      rw [switch_of_value hitem]
      -- how many turns were left for the other items does not matter
      replace hmore : ∃ turns, Json.ReadsFurther ']' (Json.value .kept depth) rest turns cs₁ more :=
        ⟨cs₁, hmore⟩
      obtain ⟨turns, hmore⟩ := hmore
      cases hmore with
      | close hmark =>
        rw [ofItems]
        cases switchOf v with
        | error fault => rfl
        | ok logDiagnostics =>
          show (separator cs₁ >>= _) = _
          rw [separator_close hmark]
          rfl
      | @comma _ _ _ _ cs₃ w _ _ hmark hitem hmore =>
        rw [ofItems]
        cases switchOf v with
        | error fault => rfl
        | ok logDiagnostics =>
          show (separator cs₁ >>= _) = _
          rw [separator_comma hmark]
          show (switch _ >>= _) = _
          rw [switch_of_value hitem]
          cases switchOf w with
          | error fault => rfl
          | ok strict =>
            show (separator cs₃ >>= _) = _
            cases hmore with
            | close hmark =>
              rw [separator_close hmark]
              rfl
            | comma _ hmark _ _ =>
              rw [separator_comma hmark]
              rfl

/-- **The settings of a text are those of its tree.** -/
theorem ofText_eq_ofTree {text : String} {tree : Json} (h : Json.readTree? text = .ok tree) :
    ofText text = ofTree tree := by
  obtain ⟨⟨v, rest⟩, hvalue, h⟩ := Json.bind_eq_ok_iff.mp h
  obtain ⟨⟨⟩, hfinish, h⟩ := Json.bind_eq_ok_iff.mp h
  obtain rfl : v = tree := Except.ok.inj h
  unfold ofText
  cases Json.value_eq_ok_iff.mp hvalue with
  | @array _ _ cs₁ items hfirst hitems =>
    rw [hfirst]
    show (arrayBody cs₁ >>= _) = ofItems items
    rw [arrayBody_of_series hitems]
    cases ofItems items with
    | error fault => rfl
    | ok s =>
      show (lift (Json.finish rest) >>= _) = _
      rw [hfinish]
      rfl
  | @object _ _ cs₁ members hfirst hmembers =>
    rw [hfirst]
    show (objectBody cs₁ >>= _) = ofMembers members
    rw [objectBody_of_series hmembers]
    cases ofMembers members with
    | error fault => rfl
    | ok s =>
      show (lift (Json.finish rest) >>= _) = _
      rw [hfinish]
      rfl
  | scalar hcontainer hfirst hscalar =>
    rw [hfirst]
    simp only [hcontainer, otherShape_of_scalar hscalar, if_false]
    cases Json.scalar_eq_ok_iff.mp hscalar with
    | null _ | true _ | false _ | string _ => rfl
    | number _ htoken =>
      obtain ⟨_, _, -, -, rfl⟩ := Json.numberToken_kept_eq_ok_iff.mp htoken
      rfl

/-! ## 3. Which trees hold settings -/

/-- The tree gives each switch at most once, and by a boolean: an object by a member of its name,
beside any other members, and an array by the item at its place, with no further item. -/
def Fits : Json → Prop
  | .object members => ∀ name ∈ ["logDiagnostics", "strict"],
      (Entries.keys members).count name ≤ 1 ∧ ∀ m ∈ members, m.1 = name → ∃ b, m.2 = .bool b
  | .array items => items.length ≤ 2 ∧ ∀ v ∈ items, ∃ b, v = .bool b
  | _ => False

/-- What a tree gives for the switch of a name, whose place in an array is fixed. -/
def given? (name : String) (place : Nat) : Json → Option Json
  | .object members => (members.find? fun m => m.1 = name).map Prod.snd
  | .array items => items[place]?
  | _ => none

/-- The fault of a tree that holds no settings.  Behind two booleans of an array the closing
bracket is missed; otherwise a value has another shape. -/
def faultOf : Json → Fault
  | .array (.bool _ :: .bool _ :: _) => .text .malformed
  | _ => .shape

/-- The settings are what the tree gives, and where it gives nothing what goes without saying. -/
def GivenBy (s : Settings) (tree : Json) : Prop :=
  (given? "logDiagnostics" 0 tree).getD (.bool true) = .bool s.logDiagnostics ∧
    (given? "strict" 1 tree).getD (.bool false) = .bool s.strict

@[simp] theorem switchOf_eq_ok_iff {v : Json} {b : Bool} : switchOf v = .ok b ↔ v = .bool b := by
  cases v <;> simp [switchOf]

/-- The only fault of a value that was read is one of shape. -/
theorem bind_switchOf_error {α : Type} {v : Json} {f : Bool → α} {fault : Fault}
    (h : (do return f (← switchOf v)) = (Except.error fault : Except Fault α)) :
    fault = .shape := by
  cases v <;> cases h <;> rfl

/-! ### Arrays -/

theorem ofItems_eq_ok_iff {items : List Json} {s : Settings} :
    ofItems items = .ok s ↔ Fits (.array items) ∧ s.GivenBy (.array items) := by
  obtain ⟨logDiagnostics, strict⟩ := s
  unfold GivenBy given? Fits
  match items with
  | [] => simp [ofItems]
  | [v] =>
    simp only [ofItems, Json.bind_eq_ok_iff, switchOf_eq_ok_iff, pure, Except.pure]
    grind
  | [v, w] =>
    simp only [ofItems, Json.bind_eq_ok_iff, switchOf_eq_ok_iff, pure, Except.pure]
    grind
  | v :: w :: x :: more => simp [ofItems, Json.bind_eq_ok_iff]

theorem ofItems_error {items : List Json} {fault : Fault} (h : ofItems items = .error fault) :
    fault = faultOf (.array items) := by
  match items with
  | [] => cases h
  | [v] => cases v <;> cases h <;> rfl
  | v :: w :: more =>
    cases v with
    | bool a =>
      cases w with
      | bool b => cases more <;> cases h; rfl
      | _ => cases h; rfl
    | _ => cases h; rfl

/-! ### Objects -/

/-- Of the members of the name there is none, and the switch stays as it is, or there is just
one, which gives a switch that was not given before. -/
def Taken (name : String) (members : List (String × Json)) (before after : Option Bool) : Prop :=
  (members.filter (fun m => m.1 = name) = [] ∧ after = before) ∨
    before = none ∧ ∃ b, members.filter (fun m => m.1 = name) = [(name, .bool b)] ∧ after = some b

variable {name : String} {m : String × Json} {members : List (String × Json)}

theorem taken_cons_of_ne (h : m.1 ≠ name) (before after : Option Bool) :
    Taken name (m :: members) before after ↔ Taken name members before after := by
  simp [Taken, h]

theorem taken_cons_of_eq (h : m.1 = name) (before after : Option Bool) :
    Taken name (m :: members) before after ↔
      before = none ∧ ∃ b, m.2 = .bool b ∧ Taken name members (some b) after := by
  obtain ⟨key, v⟩ := m
  subst h
  simp [Taken, and_assoc, -Bool.exists_bool]

theorem take_logDiagnostics_eq_ok_iff (h : m.1 = "logDiagnostics") {d e : Draft} :
    d.take m = .ok e ↔ d.logDiagnostics = none ∧
      ∃ b, m.2 = .bool b ∧ e = { d with logDiagnostics := some b } := by
  obtain ⟨_ | given, strict⟩ := d
  · simp [Draft.take, h, Json.bind_eq_ok_iff, switchOf_eq_ok_iff, pure, Except.pure,
      @eq_comm _ _ e]
  · simp [Draft.take, h]

theorem take_strict_eq_ok_iff (h : m.1 = "strict") {d e : Draft} :
    d.take m = .ok e ↔ d.strict = none ∧ ∃ b, m.2 = .bool b ∧ e = { d with strict := some b } := by
  obtain ⟨logDiagnostics, _ | given⟩ := d
  · simp [Draft.take, h, Json.bind_eq_ok_iff, switchOf_eq_ok_iff, pure, Except.pure,
      @eq_comm _ _ e]
  · simp [Draft.take, h]

/-- **What the members of an object come to**: each switch is taken from the members of its name,
with no regard to the others. -/
theorem foldlM_take_eq_ok_iff {d e : Draft} :
    members.foldlM Draft.take d = .ok e ↔
      Taken "logDiagnostics" members d.logDiagnostics e.logDiagnostics ∧
        Taken "strict" members d.strict e.strict := by
  induction members generalizing d with
  | nil =>
    obtain ⟨l, t⟩ := d
    obtain ⟨l', t'⟩ := e
    simp [Taken, pure, Except.pure, eq_comm]
  | cons m members ih =>
    rw [List.foldlM_cons, Json.bind_eq_ok_iff]
    by_cases hlog : m.1 = "logDiagnostics"
    · have hstrict : m.1 ≠ "strict" := by simp [hlog]
      -- the draft behind `m` differs in this one switch
      simp only [take_logDiagnostics_eq_ok_iff hlog, ih, taken_cons_of_eq hlog,
        taken_cons_of_ne hstrict]
      grind
    · by_cases hstrict : m.1 = "strict"
      · simp only [take_strict_eq_ok_iff hstrict, ih, taken_cons_of_eq hstrict,
          taken_cons_of_ne hlog]
        grind
      · have hstays : d.take m = .ok d := by simp [Draft.take, hlog, hstrict]
        simp [hstays, ih, taken_cons_of_ne hlog, taken_cons_of_ne hstrict]

/-- A switch is taken from the members if there is at most one of its name, which gives a boolean;
it is that boolean, or what goes without saying. -/
theorem exists_taken_iff {unsaid b : Bool} :
    (∃ after, Taken name members none after ∧ after.getD unsaid = b) ↔
      ((Entries.keys members).count name ≤ 1 ∧
        ∀ m ∈ members, m.1 = name → ∃ b, m.2 = .bool b) ∧
      ((members.find? fun m => m.1 = name).map Prod.snd).getD (.bool unsaid) = .bool b := by
  have hcount : (Entries.keys members).count name =
      (members.filter fun m => m.1 = name).length := by
    rw [Entries.keys, List.count_eq_countP, List.countP_map, List.countP_eq_length_filter]
    rfl
  have hmem : (∀ m ∈ members, m.1 = name → ∃ b, m.2 = .bool b) ↔
      ∀ m ∈ members.filter (fun m => m.1 = name), ∃ b, m.2 = .bool b := by
    simp [List.mem_filter]
  have hname : ∀ m ∈ members.filter (fun m => m.1 = name), m.1 = name := by simp
  -- all three speak of the members of the name alone, and there the case of one is the whole proof
  rw [hcount, hmem, ← List.head?_filter]
  unfold Taken
  generalize members.filter (fun m => m.1 = name) = found at hname
  rcases found with _ | ⟨⟨key, v⟩, _ | ⟨m, more⟩⟩
  · simp
  · obtain rfl : key = name := hname _ List.mem_cons_self
    constructor
    · rintro ⟨_, ⟨hnone, -⟩ | ⟨-, a, hone, rfl⟩, rfl⟩
      · cases hnone
      · cases hone
        simp
    · rintro ⟨-, hb⟩
      obtain rfl : v = .bool b := hb
      exact ⟨some b, by simp⟩
  · simp

theorem ofMembers_eq_ok_iff {s : Settings} :
    ofMembers members = .ok s ↔ Fits (.object members) ∧ s.GivenBy (.object members) := by
  obtain ⟨logDiagnostics, strict⟩ := s
  have hdraft : ofMembers members = .ok ⟨logDiagnostics, strict⟩ ↔
      (∃ l, Taken "logDiagnostics" members none l ∧ l.getD true = logDiagnostics) ∧
        ∃ t, Taken "strict" members none t ∧ t.getD false = strict := by
    unfold ofMembers
    simp only [Json.bind_eq_ok_iff, foldlM_take_eq_ok_iff, Draft.finish, pure, Except.pure,
      Except.ok.injEq, Settings.mk.injEq]
    constructor
    · rintro ⟨d, ⟨hlog, hstrict⟩, rfl, rfl⟩
      exact ⟨⟨_, hlog, rfl⟩, _, hstrict, rfl⟩
    · rintro ⟨⟨l, hlog, rfl⟩, t, hstrict, rfl⟩
      exact ⟨⟨l, t⟩, ⟨hlog, hstrict⟩, rfl, rfl⟩
  rw [hdraft, exists_taken_iff, exists_taken_iff, and_and_and_comm]
  simp [Fits, GivenBy, given?]

theorem take_error {d : Draft} {fault : Fault} (h : d.take m = .error fault) : fault = .shape := by
  unfold Draft.take at h
  split_ifs at h
  · exact (Except.error.inj h).symm
  · exact bind_switchOf_error h
  · exact (Except.error.inj h).symm
  · exact bind_switchOf_error h

/-- The only fault of members that were read is one of shape. -/
theorem ofMembers_error {fault : Fault} (h : ofMembers members = .error fault) :
    fault = .shape := by
  unfold ofMembers at h
  generalize ({} : Draft) = d at h
  induction members generalizing d with
  | nil => cases h
  | cons m members ih =>
    rw [List.foldlM_cons] at h
    cases htake : d.take m with
    | error fault' =>
      rw [htake] at h
      obtain rfl : fault' = fault := Except.error.inj h
      exact take_error htake
    | ok d' =>
      rw [htake] at h
      exact ih d' h

/-! ### The whole tree -/

variable {tree : Json}

theorem ofTree_eq_ok_iff {s : Settings} : ofTree tree = .ok s ↔ Fits tree ∧ s.GivenBy tree := by
  cases tree with
  | array items => exact ofItems_eq_ok_iff
  | object members => exact ofMembers_eq_ok_iff
  | _ => simp [ofTree, Fits]

theorem ofTree_error {fault : Fault} (h : ofTree tree = .error fault) : fault = faultOf tree := by
  cases tree with
  | array items => exact ofItems_error h
  | object members => exact ofMembers_error h
  | _ => exact (Except.error.inj h).symm

/-- What a tree that fits gives is a boolean. -/
theorem bool_of_given? {place : Nat} {v : Json} (hfits : Fits tree)
    (hname : name ∈ ["logDiagnostics", "strict"]) (h : given? name place tree = some v) :
    ∃ b, v = .bool b := by
  cases tree with
  | array items => exact hfits.2 v (List.mem_of_getElem? h)
  | object members =>
    obtain ⟨m, hm, rfl⟩ := Option.map_eq_some_iff.mp h
    exact (hfits name hname).2 m (List.mem_of_find?_eq_some hm) (by simpa using List.find?_some hm)
  | _ => exact hfits.elim

/-- What a tree that fits comes to for one switch. -/
theorem exists_switch (place : Nat) (unsaid : Bool) (hfits : Fits tree)
    (hname : name ∈ ["logDiagnostics", "strict"]) :
    ∃ b, (given? name place tree).getD (.bool unsaid) = .bool b := by
  cases hgiven : given? name place tree with
  | none => exact ⟨unsaid, rfl⟩
  | some v => exact bool_of_given? hfits hname hgiven

/-- A tree that fits leaves nothing open. -/
theorem exists_givenBy (hfits : Fits tree) : ∃ s : Settings, s.GivenBy tree := by
  obtain ⟨logDiagnostics, hlog⟩ := exists_switch 0 true hfits List.mem_cons_self
  obtain ⟨strict, hstrict⟩ :=
    exists_switch 1 false hfits (List.mem_cons_of_mem _ List.mem_cons_self)
  exact ⟨⟨logDiagnostics, strict⟩, hlog, hstrict⟩

/-- **Of the texts that are JSON, just those whose tree fits hold settings**; they hold what the
tree gives, and what goes without saying where it gives nothing.  Any other text of this kind is
answered by the error for settings. -/
theorem ofText_accepts {text : String} (h : Json.readTree? text = .ok tree) :
    let answer := (ofText text).mapError TransformError.settings
    ((∃ s, answer = .ok s) ↔ Fits tree) ∧ (∀ s, answer = .ok s → s.GivenBy tree) ∧
      (¬ Fits tree → answer = .error (.settings (faultOf tree))) := by
  intro answer
  have hok : ∀ s, answer = .ok s ↔ Fits tree ∧ s.GivenBy tree := by
    intro s
    rw [← ofTree_eq_ok_iff, ← ofText_eq_ofTree h]
    cases hanswer : ofText text <;> simp [answer, hanswer, Except.mapError]
  refine ⟨?_, fun s hs => ((hok s).mp hs).2, ?_⟩
  · constructor
    · rintro ⟨s, hs⟩
      exact ((hok s).mp hs).1
    · intro hfits
      obtain ⟨s, hgiven⟩ := exists_givenBy hfits
      exact ⟨s, (hok s).mpr ⟨hfits, hgiven⟩⟩
  · intro hfits
    cases hanswer : ofText text with
    | ok s => exact absurd (ofTree_eq_ok_iff.mp (ofText_eq_ofTree h ▸ hanswer)).1 hfits
    | error fault =>
      rw [← ofTree_error (ofText_eq_ofTree h ▸ hanswer)]
      simp [answer, hanswer, Except.mapError]

end Settings

namespace Example

/-- One switch, its name spelled with an escape, between two members of another name; in the
first of them stands the name of the switch again, with null. -/
def guarded : String :=
  "\x7b\"x\":[\x7b\"strict\":null\x7d],\"s\\u0074rict\":true,\"x\":\"\"\x7d"

/-- The tree of that text. -/
def guardedTree : Json :=
  .object [("x", .array [.object [("strict", .null)]]), ("strict", .bool true), ("x", .string "")]

/-- The text holds settings: those with the switch that it gives. -/
theorem guarded_accepted : Json.readTree? guarded = .ok guardedTree ∧
    ∃ s, (Settings.ofText guarded).mapError TransformError.settings = .ok s ∧
      s.GivenBy guardedTree ∧ s.strict = true ∧ s.logDiagnostics = true := by
  have htree : Json.readTree? guarded = .ok guardedTree := by decide +kernel
  have hfits : Settings.Fits guardedTree := by
    simp [Settings.Fits, guardedTree, Entries.keys]
  obtain ⟨hiff, hgiven, -⟩ := Settings.ofText_accepts htree
  obtain ⟨s, hs⟩ := hiff.mpr hfits
  obtain ⟨hlog, hstrict⟩ := hgiven s hs
  exact ⟨htree, s, hs, ⟨hlog, hstrict⟩, (Json.bool.inj hstrict).symm, (Json.bool.inj hlog).symm⟩

end Example
end Patchbay
