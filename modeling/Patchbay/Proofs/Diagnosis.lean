/-
# Diagnosis: what a run has to say, and nothing else

A run leaves its diagnostics while it resolves, each where it goes on with an empty value.
Here they are listed from the project alone (`Project.remarks`), by filters over its entries:

* for each type, each declared input that has no type or one that is not known;
* for each node, that its type is missing, and otherwise for each output of the type, that no
  pin stands for it, and otherwise each link of the first pin that does, if the link dangles.

The shape of the second item is what a run must get right: a missing type silences the outputs
of its nodes, and a missing pin silences the links.

* `typeDiagnostics_eq`, `trace_resolveOutput_eq`, `trace_resolveNode_eq`: each stage of a run
  leaves what is listed for it;
* `diagnostics_run`: a run leaves the whole list, whatever the settings, and a strict run is
  withheld exactly if something but a missing pin is on it.
-/
import Mathlib.Data.List.Basic
import Patchbay.Proofs.Routes

namespace Patchbay

/-! ## 1. The list -/

/-- The diagnostic is about a pin that was never placed on its node. -/
def Diagnostic.IsNote (d : Diagnostic) : Prop :=
  ∃ node pinKey, d = .missingPinInstance node pinKey

theorem Diagnostic.isNote_iff (d : Diagnostic) : d.IsNote ↔ d.isWarning = false := by
  cases d <;> simp [IsNote, isWarning, severity]

instance (d : Diagnostic) : Decidable d.IsNote := decidable_of_iff _ d.isNote_iff.symm

namespace Blueprint

/-- What is to be said about one output of a node. -/
def outputRemarks (b : Blueprint) (n : Node) (key : String) (declared : DeclaredPin) :
    List Diagnostic :=
  match b.graph.pins.values.filter fun p => p.nodeId = n.id ∧ p.key = declared.key with
  | [] => [.missingPinInstance (n.id.getD "") key]
  | p :: _ =>
    (b.graph.links.values.filter fun l =>
      p.id ≠ none ∧ l.source = p.id ∧ b.graph.Dangles l).map fun l =>
        .danglingLink (l.id.getD "") l.destination

/-- What is to be said about a node. -/
def nodeRemarks (b : Blueprint) (n : Node) : List Diagnostic :=
  match b.nodeTypes.entries.find? fun t => n.typeId = some t.1 with
  | none => [.missingNodeType (n.id.getD "") n.typeId]
  | some t =>
    (t.2.pins.entries.filter fun e => e.2.direction = some .output).flatMap fun e =>
      b.outputRemarks n e.1 e.2

end Blueprint

namespace Project

/-- What is to be said about the declared inputs of all types. -/
def inputRemarks (p : Project) : List Diagnostic :=
  p.nodeTypes.entries.flatMap fun t =>
    (t.2.pins.entries.filter fun e => e.2.direction = some .input).flatMap fun e =>
      match e.2.type with
      | none => [.undeclaredPinType t.1 e.1]
      | some (.other tag) => [.unrecognizedPinType t.1 e.1 tag]
      | some .pulse | some .boolean | some .number | some .string => []

/-- What is to be said about a project: first its types, then the nodes of its graph. -/
def remarks (p : Project) : List Diagnostic :=
  let b := p.blueprint
  p.inputRemarks ++ b.graph.nodes.values.flatMap b.nodeRemarks

end Project

/-! ## 2. Each stage leaves what is listed for it -/

namespace Blueprint

/-- Visiting the items that pass a test is visiting all of them, the others for nothing. -/
theorem flatMap_filter {α β : Type} (p : α → Bool) (f : α → List β) :
    ∀ xs : List α, (xs.filter p).flatMap f = xs.flatMap fun x => if p x then f x else []
  | [] => rfl
  | x :: xs => by
    rw [List.flatMap_cons, ← flatMap_filter p f xs, List.filter_cons]
    split <;> simp

theorem toList_check? (typeId key : String) (d : DeclaredPin) :
    (d.check? typeId key).toList =
      if d.direction = some .input then
        match d.type with
        | none => [.undeclaredPinType typeId key]
        | some (.other tag) => [.unrecognizedPinType typeId key tag]
        | some .pulse | some .boolean | some .number | some .string => []
      else [] := by
  unfold DeclaredPin.check? DeclaredPin.hasDirection
  by_cases h : d.direction = some .input
  · simp only [h, decide_true, if_true]
    cases d.type with
    | none => rfl
    | some type => cases type <;> rfl
  · simp [h]

theorem typeDiagnostics_eq (p : Project) : p.blueprint.typeDiagnostics = p.inputRemarks := by
  have htypes : p.blueprint.nodeTypes = p.nodeTypes := rfl
  unfold typeDiagnostics NodeType.check Project.inputRemarks
  rw [htypes]
  refine List.flatMap_congr fun t _ => ?_
  rw [flatMap_filter, List.filterMap_eq_flatMap_toList]
  refine List.flatMap_congr fun e _ => ?_
  rw [toList_check?]
  simp

/-- The pin for an output is the first of those that stand for it. -/
theorem pinFor?_eq_head? (b : Blueprint) (n : Node) (d : DeclaredPin) :
    b.pinFor? n d =
      (b.graph.pins.values.filter fun p => p.nodeId = n.id ∧ p.key = d.key).head? := by
  rw [List.head?_filter]
  rfl

theorem trace_resolveOutput_eq (b : Blueprint) (n : Node) (key : String) (d : DeclaredPin) :
    (b.resolveOutput n key d).trace = b.outputRemarks n key d := by
  rw [trace_resolveOutput]
  unfold outputRemarks routes
  rw [pinFor?_eq_head?]
  cases b.graph.pins.values.filter fun p => p.nodeId = n.id ∧ p.key = d.key with
  | nil => rfl
  | cons p _ =>
    simp only [List.head?_cons, reduceCtorEq, if_false]
    unfold linksFrom
    cases p.id with
    | none => simp
    | some id =>
      show ((b.graph.links.values.filter fun l => l.source = some id).filter fun l =>
        b.graph.Dangles l).map dangling = _
      rw [List.filter_filter]
      refine congrArg (List.map dangling) (List.filter_congr fun l _ => ?_)
      simp [Bool.and_comm]

/-- A type is looked up by searching the entries for its id. -/
theorem nodeType?_eq_find? (b : Blueprint) (n : Node) :
    b.nodeType? n = (b.nodeTypes.entries.find? fun t => n.typeId = some t.1).map Prod.snd := by
  unfold nodeType?
  cases hfind : b.nodeTypes.entries.find? fun t => n.typeId = some t.1 with
  | none =>
    refine Option.bind_eq_none_iff.mpr fun typeId hid => OrderedMap.get?_eq_none_iff.mpr ?_
    intro hmem
    obtain ⟨t, ht, rfl⟩ := List.mem_map.mp hmem
    exact List.find?_eq_none.mp hfind t ht (by simpa using hid)
  | some t =>
    have hid : n.typeId = some t.1 := by simpa using List.find?_some hfind
    have hget : b.nodeTypes.get? t.1 = some t.2 :=
      OrderedMap.get?_eq_some_iff.mpr (List.mem_of_find?_eq_some hfind)
    rw [hid, Option.bind_some, hget, Option.map_some]

theorem trace_resolveNode_eq (b : Blueprint) (n : Node) :
    (b.resolveNode n).trace = b.nodeRemarks n := by
  rw [trace_resolveNode, trace_resolveNodeType]
  unfold nodeRemarks nodeType
  rw [nodeType?_eq_find?]
  cases b.nodeTypes.entries.find? fun t => n.typeId = some t.1 with
  | none => rfl
  | some t =>
    simp only [Option.map_some, reduceCtorEq, if_false, List.nil_append, Option.getD_some,
      trace_resolveOutput_eq]
    rfl

theorem diagnostics_report_eq (p : Project) : p.blueprint.report.diagnostics = p.remarks := by
  rw [diagnostics_report, typeDiagnostics_eq, Project.remarks]
  simp only [trace_resolveNode_eq]

end Blueprint

/-! ## 3. The run -/

/-- The warnings of a report are the diagnostics that are no notes. -/
theorem Report.warnings_eq (r : Report) :
    r.warnings = r.diagnostics.filter fun d => ¬ d.IsNote := by
  refine List.filter_congr fun d _ => ?_
  simp [Diagnostic.isNote_iff]

namespace Blueprint

theorem value_tryRun_of_not_strict (b : Blueprint) {s : Settings} (h : s.strict = false) :
    (b.tryRun s).value = .ok b.report := by
  simp only [tryRun, Traced.value_bind, value_run, h]
  rfl

theorem value_tryRun_of_nil (b : Blueprint) (s : Settings) (h : b.report.warnings = []) :
    (b.tryRun s).value = .ok b.report := by
  simp only [tryRun, Traced.value_bind, value_run, h]
  cases s.strict <;> rfl

theorem value_tryRun_of_cons (b : Blueprint) {s : Settings} {first : Diagnostic}
    {rest : List Diagnostic} (hs : s.strict = true) (h : b.report.warnings = first :: rest) :
    (b.tryRun s).value = .error ⟨rest.length + 1, first⟩ := by
  simp only [tryRun, Traced.value_bind, value_run, hs, h]
  rfl

/-- A run gives a report if it is not strict or has no warnings. -/
theorem tryRun_eq_ok_iff {b : Blueprint} {s : Settings} {r : Report} :
    (b.tryRun s).value = .ok r ↔ r = b.report ∧ (s.strict = true → b.report.warnings = []) := by
  have hok : (Except.ok b.report : Except Degraded Report) = .ok r ↔ r = b.report :=
    ⟨fun h => (Except.ok.inj h).symm, fun h => congrArg Except.ok h.symm⟩
  cases hs : s.strict with
  | false =>
    rw [value_tryRun_of_not_strict b hs, hok]
    simp
  | true =>
    cases hw : b.report.warnings with
    | nil =>
      rw [value_tryRun_of_nil b s hw, hok]
      simp
    | cons first rest =>
      rw [value_tryRun_of_cons b hs hw]
      simp

end Blueprint

/-- **The diagnostics of a run are exact.**  A run leaves the remarks that its project calls
for, in their order and nothing else, whatever the settings.  A run that may be withheld gives
the same report, unless it is strict and some remark is not a note; then it gives their number
and the first. -/
theorem diagnostics_run (p : Project) (s : Settings) :
    let b := p.blueprint
    let warnings := p.remarks.filter fun d => ¬ d.IsNote
    (b.run s).value.diagnostics = p.remarks ∧
    match (b.tryRun s).value with
    | .ok r => r = (b.run s).value ∧ (s.strict = true → ∀ d ∈ p.remarks, d.IsNote)
    | .error e =>
      s.strict = true ∧ e.warnings = warnings.length ∧ warnings.head? = some e.first := by
  intro b warnings
  have hwarnings : b.report.warnings = warnings := by
    rw [Report.warnings_eq, Blueprint.diagnostics_report_eq]
  rw [Blueprint.value_run]
  refine ⟨Blueprint.diagnostics_report_eq p, ?_⟩
  cases hs : s.strict with
  | false =>
    rw [Blueprint.value_tryRun_of_not_strict b hs]
    exact ⟨rfl, fun h => absurd h (by simp)⟩
  | true =>
    cases hw : warnings with
    | nil =>
      rw [Blueprint.value_tryRun_of_nil b s (hwarnings.trans hw)]
      refine ⟨rfl, fun _ d hd => ?_⟩
      by_contra hnote
      exact List.filter_eq_nil_iff.mp hw d hd (by simpa using hnote)
    | cons first rest =>
      rw [Blueprint.value_tryRun_of_cons b hs (hwarnings.trans hw)]
      exact ⟨rfl, rfl, rfl⟩

namespace Example

/-- A project with a fallback of each kind.  Of its two mixers only `a` has a pin for the output,
and one of the links from there ends at no pin; `c` is of a type that is not there, and so its pin
is not asked for. -/
def sketch : Project :=
  let graph := (Patch.named "graph")
    |>.addNode (.ofType "a" "mixer") |>.addNode (.ofType "b" "mixer")
    |>.addNode (.ofType "c" "lost") |>.addPin (.onNode "a.out" "a" "out")
    |>.addPin (.onNode "c.in" "c" "in") |>.addLink (.between "l1" "a.out" "c.in")
    |>.addLink (.between "l2" "a.out" "gone")
  let mixer := ({} : NodeType)
    |>.declare { key := some "mix", direction := some .input }
    |>.declare (.input "hue" (.other "color")) |>.declare (.output "out" .number)
  (({} : Project).addPatch graph).addNodeType "mixer" mixer

/-- A run speaks of all five, and a strict one is withheld for the four that are no notes. -/
theorem sketch_is_diagnosed :
    let b := sketch.blueprint
    (b.run {}).value.diagnostics =
      [.undeclaredPinType "mixer" "mix", .unrecognizedPinType "mixer" "hue" "color",
        .danglingLink "l2" (some "gone"), .missingPinInstance "b" "out",
        .missingNodeType "c" (some "lost")] ∧
      (b.tryRun (Settings.makeStrict {})).value =
        .error ⟨4, .undeclaredPinType "mixer" "mix"⟩ := by
  intro b
  refine ⟨(diagnostics_run sketch {}).1.trans (by decide +kernel), ?_⟩
  have hstrict := (diagnostics_run sketch (Settings.makeStrict {})).2
  cases h : (b.tryRun (Settings.makeStrict {})).value with
  | ok r =>
    rw [h] at hstrict
    exact absurd (hstrict.2 rfl) (by decide +kernel)
  | error e =>
    rw [h] at hstrict
    have hcount : e.warnings = 4 := hstrict.2.1.trans (by decide +kernel)
    have hfirst : e.first = .undeclaredPinType "mixer" "mix" :=
      Option.some.inj (hstrict.2.2.symm.trans (by decide +kernel))
    rw [← hcount, ← hfirst]

end Example

end Patchbay
