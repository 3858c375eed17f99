/-
# Entry points: a node by itself, and all of them in a run

What a node, its out links or one of its outputs is resolved to can be asked for by itself, and
a run asks for it node by node.  Each time the answer is the same, whoever asks and whatever
was asked before.

Here a step gives its diagnostics back beside its value, so nothing that was left before is in
its sight.  There is another way to write the same steps: one list goes from step to step
through all the loops, each step could look at it, and adds to it what it has to say
(`Recording`).  Section 2 writes them so, down from a whole run to a single link, and section 3
shows step by step that the list is never looked at: each of them puts out its value and the
list with its own diagnostics at the end (`Traced.onto`).

* `onto_bind`, `mapM_onto`: steps that only add to the list do so when they are run in a row or
  in a loop;
* `resolveOutputOnto_eq`, `resolveNodeOnto_eq`, `run_reportOnto`: the steps of a run only add;
* `outLinks_eq_flatMap`: the out links of a node, from the destinations of its outputs;
* `entry_points_agree`: all of it together.
-/
import Patchbay.Proofs.Diagnosis

namespace Patchbay

/-! ## 1. Adding to a shared list -/

namespace Traced

variable {ε α β : Type}

/-- The step that adds the remarks to the end of a list, whatever is in it. -/
def onto (x : Traced ε α) : StateM (List ε) α := fun es => pure (x.value, es ++ x.trace)

@[simp] theorem run_onto (x : Traced ε α) (es : List ε) :
    x.onto.run es = (x.value, es ++ x.trace) := rfl

theorem onto_pure (a : α) : (pure a : Traced ε α).onto = pure a := by
  funext es
  show (a, es ++ []) = (a, es)
  rw [List.append_nil]

theorem onto_note (e : ε) : (note e).onto = modify (· ++ [e]) := rfl

/-- Two steps that only add, one after the other, only add. -/
theorem onto_bind (x : Traced ε α) (f : α → Traced ε β) :
    (x >>= f).onto = x.onto >>= fun a => (f a).onto := by
  funext es
  show ((f x.value).value, es ++ (x.trace ++ (f x.value).trace)) =
    ((f x.value).value, (es ++ x.trace) ++ (f x.value).trace)
  rw [List.append_assoc]

theorem each_nil (f : α → Traced ε β) : each f [] = pure [] := rfl

theorem each_cons (f : α → Traced ε β) (a : α) (as : List α) :
    each f (a :: as) = f a >>= fun b => each f as >>= fun bs => pure (b :: bs) := by
  refine ext ?_ ?_
  · simp
  · simp

/-- A loop over steps that only add only adds. -/
theorem mapM_onto (f : α → Traced ε β) (as : List α) :
    as.mapM (fun a => (f a).onto) = (each f as).onto := by
  induction as with
  | nil => rw [List.mapM_nil, each_nil, onto_pure]
  | cons a as ih =>
    rw [List.mapM_cons, ih, each_cons, onto_bind]
    simp only [onto_bind, onto_pure]

end Traced

/-! ## 2. A run over one shared list -/

/-- A step that has the diagnostics left so far at hand, and leaves its own with them. -/
abbrev Recording (α : Type) := StateM (List Diagnostic) α

/-- Adds a diagnostic to the list. -/
def Recording.push (d : Diagnostic) : Recording Unit := modify (· ++ [d])

namespace Blueprint

variable (b : Blueprint)

/-- Where a link leads, or the empty destination. -/
def deliverOnto (l : Link) : Recording Destination :=
  match b.destination? l with
  | some d => return d
  | none => do
    Recording.push (.danglingLink (l.id.getD "") l.destination)
    return {}

/-- The destinations of one output of a node, link by link. -/
def resolveOutputOnto (owner : Node) (pinKey : String) (declared : DeclaredPin) :
    Recording (List Destination) :=
  match b.pinFor? owner declared with
  | some p => (b.linksFrom p).mapM b.deliverOnto
  | none => do
    Recording.push (.missingPinInstance owner.label pinKey)
    return []

/-- The out links of a node that is taken to be of type `t`, output by output. -/
def resolveOutLinksOnto (n : Node) (t : NodeType) : Recording (List OutLink) := do
  let perOutput ← t.outputs.entries.mapM fun output => do
    let destinations ← b.resolveOutputOnto n output.1 output.2
    return destinations.map fun d => OutLink.mk output.1 d
  return perOutput.flatten

/-- The type of a node, or the empty one. -/
def resolveNodeTypeOnto (n : Node) : Recording NodeType :=
  match b.nodeType? n with
  | some t => return t
  | none => do
    Recording.push (.missingNodeType n.label n.typeId)
    return b.nodeType n

/-- A node for the runtime. -/
def resolveNodeOnto (n : Node) : Recording RuntimeNode := do
  let t ← b.resolveNodeTypeOnto n
  let outLinks ← b.resolveOutLinksOnto n t
  return { id := n.id, behavior := t.behavior, outLinks }

/-- An entry of the table. -/
def resolveEntryOnto (e : String × Node) : Recording (String × RuntimeNode) := do
  let node ← b.resolveNodeOnto e.2
  return (e.1, node)

/-- The entries of the table: the declared inputs are checked first, then the nodes are
resolved. -/
def reportOnto : Recording (List (String × RuntimeNode)) := do
  b.typeDiagnostics.forM Recording.push
  b.graph.nodes.entries.mapM b.resolveEntryOnto

/-! ## 3. The list is never looked at -/

theorem deliverOnto_eq (l : Link) : b.deliverOnto l = (b.deliver l).onto := by
  unfold deliverOnto deliver
  cases b.destination? l with
  | some d => exact (Traced.onto_pure d).symm
  | none =>
    simp only [Traced.onto_bind, Traced.onto_note, Traced.onto_pure]
    rfl

theorem resolveOutputOnto_eq (n : Node) (pinKey : String) (d : DeclaredPin) :
    b.resolveOutputOnto n pinKey d = (b.resolveOutput n pinKey d).onto := by
  unfold resolveOutputOnto resolveOutput
  cases b.pinFor? n d with
  | some p =>
    have hstep : b.deliverOnto = fun l => (b.deliver l).onto := funext b.deliverOnto_eq
    show (b.linksFrom p).mapM b.deliverOnto = (Traced.each b.deliver (b.linksFrom p)).onto
    rw [hstep, Traced.mapM_onto]
  | none =>
    simp only [Traced.onto_bind, Traced.onto_note, Traced.onto_pure]
    rfl

theorem resolveOutLinksOnto_eq (n : Node) (t : NodeType) :
    b.resolveOutLinksOnto n t = (b.resolveOutLinks n t).onto := by
  unfold resolveOutLinksOnto resolveOutLinks
  rw [Traced.onto_bind, ← Traced.mapM_onto]
  simp only [Traced.onto_bind, Traced.onto_pure, resolveOutputOnto_eq]

theorem resolveNodeTypeOnto_eq (n : Node) :
    b.resolveNodeTypeOnto n = (b.resolveNodeType n).onto := by
  unfold resolveNodeTypeOnto resolveNodeType nodeType
  cases b.nodeType? n with
  | some t => exact (Traced.onto_pure t).symm
  | none =>
    simp only [Traced.onto_bind, Traced.onto_note, Traced.onto_pure]
    rfl

theorem resolveNodeOnto_eq (n : Node) : b.resolveNodeOnto n = (b.resolveNode n).onto := by
  unfold resolveNodeOnto resolveNode
  simp only [Traced.onto_bind, Traced.onto_pure, resolveNodeTypeOnto_eq, resolveOutLinksOnto_eq]

/-- Adding diagnostics one by one is adding them all. -/
theorem run_forM_push (new old : List Diagnostic) :
    (new.forM Recording.push).run old = ((), old ++ new) := by
  induction new generalizing old with
  | nil => rw [List.append_nil]; rfl
  | cons d rest ih =>
    show (rest.forM Recording.push).run (old ++ [d]) = _
    rw [ih, List.append_assoc]
    rfl

theorem resolveEntryOnto_eq (e : String × Node) : b.resolveEntryOnto e =
    (b.resolveNode e.2 >>= fun node => (pure (e.1, node) : Resolved _)).onto := by
  unfold resolveEntryOnto
  simp only [Traced.onto_bind, Traced.onto_pure, resolveNodeOnto_eq]

/-- A run adds its diagnostics to the list and puts out the entries of its table. -/
theorem run_reportOnto (recorded : List Diagnostic) : b.reportOnto.run recorded =
    (b.report.nodes.entries, recorded ++ b.report.diagnostics) := by
  have hrun : b.reportOnto.run recorded = (b.graph.nodes.entries.mapM b.resolveEntryOnto).run
      ((b.typeDiagnostics.forM Recording.push).run recorded).2 := rfl
  have hstep : b.resolveEntryOnto =
      fun e => (b.resolveNode e.2 >>= fun node => (pure (e.1, node) : Resolved _)).onto :=
    funext b.resolveEntryOnto_eq
  rw [hrun, run_forM_push, hstep, Traced.mapM_onto, Traced.run_onto, entries_nodes_report,
    diagnostics_report, OrderedMap.values, List.flatMap_map]
  refine Prod.ext ?_ ?_
  · simp [runtimeNode]
  · simp

/-! ## 4. One answer at every entry point -/

/-- Under which key an output is asked for does not matter to its destinations. -/
theorem value_resolveOutput_eq_destinations (n : Node) (pinKey : String) (d : DeclaredPin) :
    (b.resolveOutput n pinKey d).value = b.destinations n d := by
  rw [destinations, value_resolveOutput, value_resolveOutput]

/-- The out links of a node are the destinations of its outputs, each beside its output's
key. -/
theorem outLinks_eq_flatMap (n : Node) :
    b.outLinks n = (b.nodeType n).outputs.entries.flatMap fun e =>
      (b.destinations n e.2).map (OutLink.mk e.1) := by
  rw [outLinks, value_resolveOutLinks]
  simp only [value_resolveOutput_eq_destinations]

/-- A node that is resolved whole has the out links that it has by themselves. -/
theorem outLinks_runtimeNode_eq (n : Node) : (b.runtimeNode n).outLinks = b.outLinks n := by
  show (b.resolveOutLinks n (b.resolveNodeType n).value).value = _
  rw [value_resolveNodeType]
  rfl

theorem resolveOutputAfter_eq (recorded : List Diagnostic) (n : Node) (pinKey : String)
    (d : DeclaredPin) : b.resolveOutputAfter recorded n pinKey d =
      ⟨b.destinations n d, recorded ++ b.outputRemarks n pinKey d⟩ := by
  refine Traced.ext ?_ ?_
  · exact b.value_resolveOutput_eq_destinations n pinKey d
  · show recorded ++ (b.resolveOutput n pinKey d).trace = _
    rw [trace_resolveOutput_eq]

end Blueprint

/-- **A node is resolved to the same, by itself or in a run, whatever was recorded before.**
The out links of any node are those it has when they are asked for alone, and the destinations
of its outputs, each beside its output's key.  The table of a run has the keys of the graph,
each with the record that its node has by itself.  What resolving one output, one node or all
of them leaves on a list is the list with something at its end that does not depend on it: the
remarks on the output, on the node, or on the types and then on each node. -/
theorem entry_points_agree (p : Project) (s : Settings) :
    let b := p.blueprint
    let r := (b.run s).value
    (∀ n, (b.runtimeNode n).outLinks = b.outLinks n ∧
      b.outLinks n = (b.nodeType n).outputs.entries.flatMap fun e =>
        (b.destinations n e.2).map (OutLink.mk e.1)) ∧
    r.nodes.entries = b.graph.nodes.entries.map (fun e => (e.1, b.runtimeNode e.2)) ∧
    (∀ recorded n pinKey d,
      b.resolveOutputAfter recorded n pinKey d =
        ⟨b.destinations n d, recorded ++ b.outputRemarks n pinKey d⟩ ∧
      (b.resolveOutputOnto n pinKey d).run recorded =
        (b.destinations n d, recorded ++ b.outputRemarks n pinKey d)) ∧
    (∀ recorded n,
      (b.resolveNodeOnto n).run recorded = (b.runtimeNode n, recorded ++ b.nodeRemarks n)) ∧
    r.diagnostics = b.typeDiagnostics ++ b.graph.nodes.values.flatMap b.nodeRemarks ∧
    ∀ recorded, b.reportOnto.run recorded = (r.nodes.entries, recorded ++ r.diagnostics) := by
  intro b r
  have hr : r = b.report := Blueprint.value_run b s
  rw [hr]
  refine ⟨fun n => ⟨b.outLinks_runtimeNode_eq n, b.outLinks_eq_flatMap n⟩,
    b.entries_nodes_report, fun recorded n pinKey d => ⟨?_, ?_⟩, fun recorded n => ?_, ?_,
    b.run_reportOnto⟩
  · exact b.resolveOutputAfter_eq recorded n pinKey d
  · rw [b.resolveOutputOnto_eq, Traced.run_onto, b.value_resolveOutput_eq_destinations,
      b.trace_resolveOutput_eq]
  · rw [b.resolveNodeOnto_eq, Traced.run_onto, b.trace_resolveNode_eq]
    rfl
  · rw [b.diagnostics_report]
    simp only [b.trace_resolveNode_eq]

namespace Example

/-- The one output of `a` that is wired has the same two destinations at every entry point, and
what is said of them comes behind a diagnostic that was there before. -/
theorem sketch_agrees :
    let b := sketch.blueprint
    let a := Node.ofType "a" "mixer"
    let out := DeclaredPin.output "out" .number
    let destinations : List Destination := [.inputOf "c" "in", {}]
    let earlier := Diagnostic.missingPinInstance "z" "out"
    let dangling := Diagnostic.danglingLink "l2" (some "gone")
    b.destinations a out = destinations ∧
      b.outLinks a = destinations.map (OutLink.mk "out") ∧
      (b.runtimeNode a).outLinks = b.outLinks a ∧
      (b.run {}).value.nodes.entries.head? = some ("a", b.runtimeNode a) ∧
      (b.resolveOutputOnto a "out" out).run [earlier] = (destinations, [earlier, dangling]) ∧
      (b.resolveNodeOnto a).run [earlier] = (b.runtimeNode a, [earlier, dangling]) ∧
      (b.reportOnto.run [earlier]).2 = earlier :: (b.run {}).value.diagnostics := by
  intro b a out destinations earlier dangling
  obtain ⟨hlinks, htable, houtput, hnode, -, hwhole⟩ := entry_points_agree sketch {}
  have hdestinations : b.destinations a out = destinations := by decide +kernel
  refine ⟨hdestinations, (hlinks a).2.trans (by decide +kernel), (hlinks a).1, ?_, ?_, ?_, ?_⟩
  · rw [htable]
    rfl
  · rw [(houtput [earlier] a "out" out).2, hdestinations]
    exact congrArg (Prod.mk destinations) (by decide +kernel)
  · rw [hnode [earlier] a]
    exact congrArg (Prod.mk (b.runtimeNode a)) (by decide +kernel)
  · rw [hwhole]
    rfl

end Example

end Patchbay
