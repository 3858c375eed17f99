/-
# Input types: the check of a type and the types of its inputs

A run says of each declared input whose type the runtime does not know that it is so, and it
gives the runtime a type for each input all the same.  These are two passes over the declared
pins: the check skips what is no input and takes the tags apart (`DeclaredPin.check?`), while the
other selects the inputs and then maps their types (`NodeType.inputTypes`).  The one must warn
exactly where the other has nothing better than `unmapped` or `undeclared`:

* `check?_eq`: pin by pin, the check is the warning that the runtime's type calls for
  (`RuntimeType.warning?`);
* `check_eq`: type by type, it runs through the input types in their order;
* `filter_isAbout_diagnostics`, `warning_mem_diagnostics_iff`: the diagnostics of a run that name a
  type are those of its check, and each says which input has which type;
* `inputTypes_agree`: so what the runtime is told of an input and what the report says of it are
  the same.
-/
import Patchbay.Proofs.Delivery
import Patchbay.Proofs.Diagnosis

namespace Patchbay

/-! ## 1. One type -/

/-- The warning that an input of this type calls for. -/
def RuntimeType.warning? (typeId key : String) : RuntimeType → Option Diagnostic
  | .undeclared => some (.undeclaredPinType typeId key)
  | .unmapped tag => some (.unrecognizedPinType typeId key tag)
  | .boolean | .number | .string => none

/-- Of an input the check says what its runtime type calls for, and of any other pin nothing. -/
theorem DeclaredPin.check?_eq (typeId key : String) (d : DeclaredPin) :
    d.check? typeId key =
      if d.hasDirection .input then d.runtimeType.warning? typeId key else none := by
  unfold check? runtimeType
  split
  case isTrue =>
    cases d.type with
    | none => rfl
    | some type => cases type <;> rfl
  case isFalse => rfl

namespace NodeType

/-- The inputs are the pins whose direction is input, in declaration order. -/
theorem entries_inputTypes (t : NodeType) : t.inputTypes.entries =
    (t.pins.entries.filter fun e => e.2.direction = some .input).map fun e =>
      (e.1, e.2.runtimeType) := rfl

/-- **The check of a type runs through its input types.** -/
theorem check_eq (typeId : String) (t : NodeType) :
    t.check typeId = t.inputTypes.entries.filterMap fun e => e.2.warning? typeId e.1 := by
  rw [check, entries_inputTypes, List.filterMap_map, List.filterMap_filter]
  refine List.filterMap_congr fun e _ => ?_
  rw [DeclaredPin.check?_eq]
  rfl

end NodeType

/-! ## 2. The diagnostics of a run -/

/-- The diagnostic is about an input that the type declares. -/
def Diagnostic.isAbout (typeId : String) : Diagnostic → Bool
  | .undeclaredPinType t _ | .unrecognizedPinType t _ _ => t = typeId
  | .missingNodeType .. | .missingPinInstance .. | .danglingLink .. => false

theorem RuntimeType.isAbout_of_warning? {typeId key : String} {type : RuntimeType}
    {d : Diagnostic} (h : type.warning? typeId key = some d) (other : String) :
    d.isAbout other = decide (typeId = other) := by
  cases type with
  | undeclared | unmapped _ =>
    obtain rfl := Option.some.inj h
    rfl
  | boolean | number | string => exact absurd h (by simp [warning?])

/-- A warning says which input it is about and what the type of that input is. -/
theorem RuntimeType.warning?_inj {typeId key other : String} {type u : RuntimeType}
    {d : Diagnostic} (h : type.warning? typeId key = some d)
    (hu : u.warning? typeId other = some d) : key = other ∧ type = u := by
  cases type with
  | undeclared | unmapped _ =>
    obtain rfl := Option.some.inj h
    cases u with
    | undeclared | unmapped _ => simp_all [warning?]
    | boolean | number | string => exact absurd hu (by simp [warning?])
  | boolean | number | string => exact absurd h (by simp [warning?])

theorem NodeType.isAbout_of_mem_check {typeId : String} {t : NodeType} {d : Diagnostic}
    (h : d ∈ t.check typeId) (other : String) : d.isAbout other = decide (typeId = other) := by
  rw [check_eq] at h
  obtain ⟨e, -, he⟩ := List.mem_filterMap.mp h
  exact RuntimeType.isAbout_of_warning? he other

namespace Blueprint

/-- What is said of a node is about no declared input. -/
theorem isAbout_of_mem_nodeRemarks {b : Blueprint} {n : Node} {d : Diagnostic}
    (h : d ∈ b.nodeRemarks n) (typeId : String) : d.isAbout typeId = false := by
  unfold nodeRemarks at h
  split at h
  · rw [List.mem_singleton.mp h]
    rfl
  · obtain ⟨e, -, he⟩ := List.mem_flatMap.mp h
    unfold outputRemarks at he
    split at he
    · rw [List.mem_singleton.mp he]
      rfl
    · obtain ⟨l, -, rfl⟩ := List.mem_map.mp he
      rfl

/-- **The diagnostics that name a type are those of its check.** -/
theorem filter_isAbout_diagnostics {b : Blueprint} {typeId : String} {t : NodeType}
    (h : (typeId, t) ∈ b.nodeTypes.entries) :
    b.report.diagnostics.filter (Diagnostic.isAbout typeId) = t.check typeId := by
  have hnodes : (b.graph.nodes.values.flatMap fun n => (b.resolveNode n).trace).filter
      (Diagnostic.isAbout typeId) = [] := by
    refine List.filter_eq_nil_iff.mpr fun d hd => ?_
    obtain ⟨n, -, hn⟩ := List.mem_flatMap.mp hd
    rw [trace_resolveNode_eq] at hn
    simp [isAbout_of_mem_nodeRemarks hn]
  rw [diagnostics_report, List.filter_append, hnodes, List.append_nil]
  exact filter_rows_of_mem (fun e _ d hd => NodeType.isAbout_of_mem_check hd typeId)
    b.nodeTypes.nodup h

/-- The warning that an input type calls for is left by a run exactly if the input has it. -/
theorem warning_mem_diagnostics_iff {b : Blueprint} {typeId key : String} {t : NodeType}
    {type : RuntimeType} {d : Diagnostic} (h : (typeId, t) ∈ b.nodeTypes.entries)
    (hd : type.warning? typeId key = some d) :
    d ∈ b.report.diagnostics ↔ t.inputTypes.get? key = some type := by
  have habout : d.isAbout typeId = true := by
    rw [RuntimeType.isAbout_of_warning? hd]
    simp
  have hmem : d ∈ b.report.diagnostics ↔ d ∈ t.check typeId := by
    rw [← filter_isAbout_diagnostics h, List.mem_filter, habout]
    simp
  rw [hmem, NodeType.check_eq, List.mem_filterMap]
  constructor
  · rintro ⟨e, he, hwarning⟩
    obtain ⟨rfl, rfl⟩ := RuntimeType.warning?_inj hd hwarning
    exact OrderedMap.get?_eq_some_iff.mpr he
  · intro hget
    exact ⟨(key, type), OrderedMap.get?_eq_some_iff.mp hget, hd⟩

end Blueprint

/-- **The report warns of an input exactly where the runtime is given no type for it.**  For each
type of a project: its input types are those of its pins that are inputs, in declaration order,
and the diagnostics that name it are those that its input types call for, in their order.  So the
input types that a node of a run has from its type say `undeclared` or `unmapped` at a key exactly
if the report says so of its type and the key. -/
theorem inputTypes_agree (p : Project) (s : Settings) :
    let b := p.blueprint
    let r := (b.run s).value
    (∀ e ∈ p.nodeTypes.entries,
      e.2.inputTypes.keys =
        Entries.keys (e.2.pins.entries.filter fun d => d.2.direction = some .input) ∧
      r.diagnostics.filter (Diagnostic.isAbout e.1) =
        e.2.inputTypes.entries.filterMap fun i => i.2.warning? e.1 i.1) ∧
    ∀ e ∈ r.nodes.entries, ∃ n, b.graph.nodes.get? e.1 = some n ∧
      ∀ typeId, n.typeId = some typeId → typeId ∈ p.nodeTypes.keys → ∀ key,
        (e.2.behavior.inputTypes.get? key = some .undeclared ↔
          .undeclaredPinType typeId key ∈ r.diagnostics) ∧
        ∀ tag, e.2.behavior.inputTypes.get? key = some (.unmapped tag) ↔
          .unrecognizedPinType typeId key tag ∈ r.diagnostics := by
  intro b r
  have hr : r = b.report := b.value_run s
  rw [hr]
  refine ⟨fun e he => ⟨?_, ?_⟩, fun e he => ?_⟩
  · rw [OrderedMap.keys, NodeType.entries_inputTypes, Entries.keys, List.map_map]
    rfl
  · rw [Blueprint.filter_isAbout_diagnostics (b := b) he, NodeType.check_eq]
  · rw [b.entries_nodes_report] at he
    obtain ⟨⟨key, n⟩, hn, rfl⟩ := List.mem_map.mp he
    refine ⟨n, OrderedMap.get?_eq_some_iff.mpr hn, fun typeId hid hkey pinKey => ?_⟩
    obtain ⟨⟨typeId, t⟩, ht, rfl⟩ := List.mem_map.mp hkey
    have htype : b.nodeType n = t := by
      have hget : b.nodeTypes.get? typeId = some t := OrderedMap.get?_eq_some_iff.mpr ht
      simp [Blueprint.nodeType, Blueprint.nodeType?, hid, hget]
    have hbehavior : (b.runtimeNode n).behavior.inputTypes = t.inputTypes := by
      rw [b.behavior_runtimeNode, htype]
      rfl
    rw [hbehavior]
    exact ⟨(Blueprint.warning_mem_diagnostics_iff ht rfl).symm,
      fun tag => (Blueprint.warning_mem_diagnostics_iff ht rfl).symm⟩

namespace Example

/-- A type with an input of each kind: declared without a type, with one that the runtime does not
know, and with one that it does. -/
def paint : NodeType := ({} : NodeType)
  |>.declare { key := some "mix", direction := some .input }
  |>.declare (.input "hue" (.other "color"))
  |>.declare (.input "size" .number)
  |>.declare (.output "out" .number)

/-- A project with one node, which is of that type. -/
def painted : Project :=
  (({} : Project).addPatch ((Patch.named "graph").addNode (.ofType "p" "paint"))).addNodeType
    "paint" paint

/-- The report warns of the first two inputs, and it is these two for which the node has no
type. -/
theorem painted_is_warned_of :
    let b := painted.blueprint
    let r := (b.run {}).value
    paint.inputTypes.keys = ["mix", "hue", "size"] ∧
    r.diagnostics.filter (Diagnostic.isAbout "paint") =
      [.undeclaredPinType "paint" "mix", .unrecognizedPinType "paint" "hue" "color"] ∧
    ∃ e ∈ r.nodes.entries, e.1 = "p" ∧
      e.2.behavior.inputTypes.get? "mix" = some .undeclared ∧
      e.2.behavior.inputTypes.get? "hue" = some (.unmapped "color") := by
  intro b r
  obtain ⟨htypes, hnodes⟩ := inputTypes_agree painted {}
  obtain ⟨hkeys, hwarnings⟩ := htypes ("paint", paint) (by decide +kernel)
  have hwarned : r.diagnostics.filter (Diagnostic.isAbout "paint") =
      [.undeclaredPinType "paint" "mix", .unrecognizedPinType "paint" "hue" "color"] :=
    hwarnings.trans (by decide +kernel)
  have hentry : ("p", b.runtimeNode (.ofType "p" "paint")) ∈ r.nodes.entries := by
    decide +kernel
  obtain ⟨n, hn, hagree⟩ := hnodes _ hentry
  have hnode : b.graph.nodes.get? "p" = some (.ofType "p" "paint") := by decide +kernel
  obtain rfl : n = .ofType "p" "paint" := Option.some.inj (hn.symm.trans hnode)
  have hagree := hagree "paint" rfl (by decide +kernel)
  have hmem : ∀ d ∈ r.diagnostics.filter (Diagnostic.isAbout "paint"), d ∈ r.diagnostics :=
    fun d hd => (List.mem_filter.mp hd).1
  refine ⟨hkeys.trans (by decide +kernel), hwarned, _, hentry, rfl, ?_, ?_⟩
  · exact (hagree "mix").1.mpr (hmem _ (by rw [hwarned]; simp))
  · exact ((hagree "hue").2 "color").mpr (hmem _ (by rw [hwarned]; simp))

end Example
end Patchbay
