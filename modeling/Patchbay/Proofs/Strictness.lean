/-
# Strictness: what a strict run lets through

A strict run is there to refuse tables with destinations that could not be resolved.  An out
link shows that by its empty destination (`Destination.isEmpty`), and a run reports it by the
diagnostic of a dangling link.  The two are not the same: a pin may be there and say neither
its node nor its key, and a link to such a pin arrives at the empty destination without a
word (`Graph.EndsBlank`).

This file counts both over a whole run, link by link (`Blueprint.deliveries`):

* `destinations_report`, `danglingLinks_report`: the destinations of the table and the
  diagnostics of dangling links, both read off the deliveries;
* `empties_eq_danglings_iff`: there are as many empty destinations as dangling links exactly if
  no delivery ends at a blank pin, and exactly then what a strict run lets through is resolved;
* `Example.blank_pin_passes`: a strict run lets an empty destination through.
-/
import Patchbay.Proofs.Diagnosis

namespace Patchbay

/-! ## 1. Empty arrivals -/

namespace Graph

/-- The link ends at a pin that says neither its node nor its key. -/
def EndsBlank (g : Graph) (l : Link) : Prop :=
  ∃ p, g.pinNamed? l.destination = some p ∧ p.nodeId = none ∧ p.key = none

instance (g : Graph) (l : Link) : Decidable (g.EndsBlank l) :=
  decidable_of_iff ((g.pinNamed? l.destination).any fun p => p.nodeId = none ∧ p.key = none)
    (by simp [EndsBlank, Option.any_eq_true])

/-- A link arrives at the empty destination if it dangles or ends at a blank pin. -/
theorem isEmpty_arrival_iff {g : Graph} {l : Link} :
    (g.arrival l).isEmpty = true ↔ g.Dangles l ∨ g.EndsBlank l := by
  rw [dangles_iff]
  unfold arrival EndsBlank
  cases g.pinNamed? l.destination with
  | none => simp [Destination.isEmpty]
  | some p => simp [Destination.isEmpty]

theorem EndsBlank.not_dangles {g : Graph} {l : Link} (h : g.EndsBlank l) : ¬ g.Dangles l := by
  obtain ⟨p, hp, -, -⟩ := h
  rw [dangles_iff, hp]
  simp

/-- Of some links, those with an empty arrival are those that dangle and those that end
blank. -/
theorem countP_isEmpty_arrival (g : Graph) (ls : List Link) :
    ls.countP (fun l => (g.arrival l).isEmpty) =
      ls.countP (fun l => g.Dangles l) + ls.countP (fun l => g.EndsBlank l) := by
  induction ls with
  | nil => rfl
  | cons l rest ih =>
    simp only [List.countP_cons, ih]
    -- a link is counted once, since one that dangles does not end blank
    by_cases hd : g.Dangles l
    · have hb : ¬ g.EndsBlank l := fun hb => hb.not_dangles hd
      have he : (g.arrival l).isEmpty = true := isEmpty_arrival_iff.mpr (Or.inl hd)
      simp only [hd, hb, he, decide_true, decide_false, if_true, Bool.false_eq_true, if_false]
      omega
    · by_cases hb : g.EndsBlank l
      · have he : (g.arrival l).isEmpty = true := isEmpty_arrival_iff.mpr (Or.inr hb)
        simp only [hd, hb, he, decide_true, decide_false, if_true, Bool.false_eq_true, if_false]
        omega
      · have he : ¬ (g.arrival l).isEmpty = true := fun he =>
          (isEmpty_arrival_iff.mp he).elim hd hb
        simp only [hd, hb, he, decide_false, Bool.false_eq_true, if_false]
        omega

end Graph

/-! ## 2. Deliveries -/

/-- The number of out links with an empty destination. -/
def Report.empties (r : Report) : Nat := r.outLinks.countP fun l => l.destination.isEmpty

/-- The diagnostic is about a link that ends at no pin. -/
def Diagnostic.isDangling : Diagnostic → Bool
  | .danglingLink _ _ => true
  | .missingNodeType .. | .missingPinInstance .. | .unrecognizedPinType ..
  | .undeclaredPinType .. => false

/-- The number of dangling links that a report has diagnostics of. -/
def Report.danglings (r : Report) : Nat := r.diagnostics.countP Diagnostic.isDangling

namespace Blueprint

/-- The links that a run delivers: node by node, output by output, link by link. -/
def deliveries (b : Blueprint) : List Link :=
  b.graph.nodes.values.flatMap fun n =>
    (b.nodeType n).outputs.entries.flatMap fun e => b.routes n e.2

theorem destinations_report (b : Blueprint) :
    b.report.outLinks.map OutLink.destination = b.deliveries.map b.graph.arrival := by
  rw [Report.outLinks, nodes_report, OrderedMap.values_map, List.flatMap_map, List.map_flatMap,
    deliveries, List.map_flatMap]
  refine List.flatMap_congr fun n _ => ?_
  rw [outLinks_runtimeNode, List.map_flatMap, List.map_flatMap]
  refine List.flatMap_congr fun e _ => ?_
  rw [List.map_map]
  exact List.map_id _

theorem filter_isDangling_check (typeId : String) (t : NodeType) :
    (t.check typeId).filter Diagnostic.isDangling = [] := by
  refine List.filter_eq_nil_iff.mpr fun d hd => ?_
  obtain ⟨e, -, he⟩ := List.mem_filterMap.mp hd
  have hd : d ∈ (e.2.check? typeId e.1).toList := Option.mem_toList.mpr he
  rw [toList_check?] at hd
  split at hd
  · split at hd
    all_goals simp_all [Diagnostic.isDangling]
  · simp at hd

theorem filter_isDangling_resolveOutput (b : Blueprint) (n : Node) (key : String)
    (d : DeclaredPin) :
    (b.resolveOutput n key d).trace.filter Diagnostic.isDangling =
      ((b.routes n d).filter fun l => b.graph.Dangles l).map dangling := by
  rw [trace_resolveOutput]
  split
  case isTrue h =>
    simp [routes, h, Diagnostic.isDangling]
  case isFalse =>
    refine List.filter_eq_self.mpr fun d hd => ?_
    obtain ⟨l, -, rfl⟩ := List.mem_map.mp hd
    rfl

theorem filter_isDangling_resolveNode (b : Blueprint) (n : Node) :
    (b.resolveNode n).trace.filter Diagnostic.isDangling =
      (b.nodeType n).outputs.entries.flatMap fun e =>
        ((b.routes n e.2).filter fun l => b.graph.Dangles l).map dangling := by
  have htype : (b.resolveNodeType n).trace.filter Diagnostic.isDangling = [] := by
    rw [trace_resolveNodeType]
    split <;> rfl
  rw [trace_resolveNode, List.filter_append, htype, List.nil_append, List.filter_flatMap]
  exact List.flatMap_congr fun e _ => b.filter_isDangling_resolveOutput n e.1 e.2

/-- The diagnostics of dangling links are those of the deliveries that dangle. -/
theorem danglingLinks_report (b : Blueprint) :
    b.report.diagnostics.filter Diagnostic.isDangling =
      (b.deliveries.filter fun l => b.graph.Dangles l).map dangling := by
  have htypes : b.typeDiagnostics.filter Diagnostic.isDangling = [] := by
    rw [typeDiagnostics, List.filter_flatMap]
    exact List.flatMap_eq_nil_iff.mpr fun t _ => filter_isDangling_check t.1 t.2
  rw [diagnostics_report, List.filter_append, htypes, List.nil_append, List.filter_flatMap,
    deliveries, List.filter_flatMap, List.map_flatMap]
  refine List.flatMap_congr fun n _ => ?_
  rw [filter_isDangling_resolveNode, List.filter_flatMap, List.map_flatMap]

/-! ## 3. Counting -/

theorem empties_report (b : Blueprint) :
    b.report.empties = b.deliveries.countP fun l => (b.graph.arrival l).isEmpty := by
  have h := congrArg (List.countP Destination.isEmpty) b.destinations_report
  rw [List.countP_map, List.countP_map] at h
  exact h

theorem danglings_report (b : Blueprint) :
    b.report.danglings = b.deliveries.countP fun l => b.graph.Dangles l := by
  rw [Report.danglings, List.countP_eq_length_filter, danglingLinks_report, List.length_map,
    List.countP_eq_length_filter]

/-- The empty destinations that no diagnostic speaks of are those at blank pins. -/
theorem empties_eq (b : Blueprint) :
    b.report.empties = b.report.danglings + b.deliveries.countP fun l => b.graph.EndsBlank l := by
  rw [empties_report, danglings_report, Graph.countP_isEmpty_arrival]

theorem danglings_report_of_nil {b : Blueprint} (h : b.report.warnings = []) :
    b.report.danglings = 0 := by
  refine List.countP_eq_zero.mpr fun d hd hdangling => ?_
  have hwarning : d.isWarning = true := by
    cases d with
    | danglingLink => rfl
    | missingNodeType | missingPinInstance | unrecognizedPinType | undeclaredPinType =>
      exact absurd hdangling (by simp [Diagnostic.isDangling])
  exact List.filter_eq_nil_iff.mp h d hd hwarning

end Blueprint

/-! ## 4. Strict runs -/

theorem Report.empties_eq_zero_iff (r : Report) :
    r.empties = 0 ↔ ∀ n ∈ r.nodes.values, ∀ l ∈ n.outLinks, l.destination.isEmpty = false := by
  simp only [empties, outLinks, List.countP_eq_zero, List.mem_flatMap, forall_exists_index,
    and_imp, Bool.not_eq_true]
  exact ⟨fun h n hn l hl => h l n hn hl, fun h l n hn hl => h n hn l hl⟩

/-- **What is empty without a word ends at a blank pin.**  The empty destinations of a run are
its dangling links and the deliveries that end at a blank pin.  So there are as many of them as
diagnostics of dangling links exactly if no delivery ends so, and exactly then the report that a
strict run gives has no empty destination. -/
theorem empties_eq_danglings_iff (p : Project) (s : Settings) :
    let b := p.blueprint
    let r := (b.run s).value
    r.empties = r.danglings + b.deliveries.countP (fun l => b.graph.EndsBlank l) ∧
    (r.empties = r.danglings ↔ ∀ l ∈ b.deliveries, ¬ b.graph.EndsBlank l) ∧
    ∀ r', s.strict = true → (b.tryRun s).value = .ok r' →
      ((∀ n ∈ r'.nodes.values, ∀ l ∈ n.outLinks, l.destination.isEmpty = false) ↔
        ∀ l ∈ b.deliveries, ¬ b.graph.EndsBlank l) := by
  intro b r
  have hr : r = b.report := Blueprint.value_run b s
  have hcount := b.empties_eq
  have hblank : b.deliveries.countP (fun l => b.graph.EndsBlank l) = 0 ↔
      ∀ l ∈ b.deliveries, ¬ b.graph.EndsBlank l := by
    simp [List.countP_eq_zero]
  rw [hr]
  refine ⟨hcount, ?_, fun r' hs hok => ?_⟩
  · rw [← hblank]
    omega
  · obtain ⟨rfl, hwarnings⟩ := Blueprint.tryRun_eq_ok_iff.mp hok
    have hdanglings := Blueprint.danglings_report_of_nil (hwarnings hs)
    rw [← Report.empties_eq_zero_iff, ← hblank]
    omega

namespace Example

/-- The output of `a` feeds a pin that is there but says neither its node nor its key. -/
def blankPin : Project :=
  let graph := (Patch.named "graph")
    |>.addNode (.ofType "a" "source") |>.addPin (.onNode "a.out" "a" "out")
    |>.addPin { id := some "blank" } |>.addLink (.between "l1" "a.out" "blank")
  (({} : Project).addPatch graph)
    |>.addNodeType "source" (({} : NodeType).declare (.output "out" .number))

/-- A strict run gives the report of `blankPin`, which has an empty destination and no
diagnostic of it. -/
theorem blank_pin_passes :
    let b := blankPin.blueprint
    let r := (b.run { strict := true }).value
    r.empties = 1 ∧ r.danglings = 0 ∧ (b.tryRun { strict := true }).value = .ok r ∧
      (r.nodes.get? "a").map (RuntimeNode.outLinks) = some [⟨"out", {}⟩] := by
  decide +kernel

end Example

end Patchbay
