/-
# Overrides: what the log of a merge says, and what it adds up to

A patch overrides a record when a patch before it filed one of the same sort under the same key.
Whether it does is settled by all the patches before it, not only by the last; the merge decides
it by looking at the graph that they made.  Both are the same because the graph has just the keys
of its patches (`mem_keysOf_addPatches`).

The maps of the three sorts go through a merge in lock step, and nothing here depends on what is
filed in them.  So a patch and a graph are looked at as three lists of keys (`keysOf`), and each
fact is stated once for any sort:

* `trace_addPatches_concat`: one more patch logs what it overrides, and nothing else;
* `length_keysOf_addPatch`: it adds as many keys as it has, less those that it overrides;
* `log_ofProject`: the whole log of a merge, the wording of its entries, and the balance of its
  counts.
-/
import Mathlib.Algebra.GroupWithZero.Nat
import Patchbay.Proofs.Layers

namespace Patchbay

/-! ## 1. Sorts of record -/

/-- The sorts of record, in the order in which the maps of a patch are laid. -/
def Entity.sorts : List Entity := [.node, .pin, .link]

/-- The keys under which a patch has records of a sort. -/
def Patch.keysOf (p : Patch) : Entity → List String
  | .node => p.nodes.keys
  | .pin => p.pins.keys
  | .link => p.links.keys

/-- The keys under which a graph has records of a sort. -/
def Graph.keysOf (g : Graph) : Entity → List String
  | .node => g.nodes.keys
  | .pin => g.pins.keys
  | .link => g.links.keys

/-- The log entry says that a record of this sort was overridden. -/
def LogEntry.overrides (sort : Entity) : LogEntry → Bool
  | overridden _ entity _ => entity = sort
  | _ => false

/-- The records that a patch overrides: sort by sort, each key of the patch that a patch before
it has, too. -/
def Patch.overridden (earlier : List Patch) (p : Patch) : List (Entity × String) :=
  Entity.sorts.flatMap fun sort =>
    ((p.keysOf sort).filter fun key => ∃ q ∈ earlier, key ∈ q.keysOf sort).map fun key =>
      (sort, key)

theorem Patch.nodup_keysOf (p : Patch) (sort : Entity) : (p.keysOf sort).Nodup := by
  cases sort with
  | node => exact p.nodes.nodup
  | pin => exact p.pins.nodup
  | link => exact p.links.nodup

theorem Graph.nodup_keysOf (g : Graph) (sort : Entity) : (g.keysOf sort).Nodup := by
  cases sort with
  | node => exact g.nodes.nodup
  | pin => exact g.pins.nodup
  | link => exact g.links.nodup

/-! ## 2. One patch -/

namespace Graph

theorem keysOf_addPatch (g : Graph) (p : Patch) (sort : Entity) :
    (g.addPatch p).value.keysOf sort = (g.keysOf sort ++ p.keysOf sort).eraseDups := by
  cases sort with
  | node => exact OrderedMap.keys_insertAll g.nodes p.nodes.entries
  | pin => exact OrderedMap.keys_insertAll g.pins p.pins.entries
  | link => exact OrderedMap.keys_insertAll g.links p.links.entries

theorem trace_addPatches_concat (g : Graph) (ps : List Patch) (p : Patch) :
    (g.addPatches (ps ++ [p])).trace =
      (g.addPatches ps).trace ++ ((g.addPatches ps).value.addPatch p).trace := by
  rw [addPatches_append, Traced.trace_bind, addPatches, Traced.trace_bind, addPatches,
    Traced.trace_pure, List.append_nil]

theorem trace_addPatch (g : Graph) (p : Patch) :
    (g.addPatch p).trace = Entity.sorts.flatMap fun sort =>
      ((p.keysOf sort).filter (g.keysOf sort).contains).map (.overridden p.id sort) := by
  simp [addPatch, Entity.sorts, Patch.keysOf, keysOf]
  rfl

/-- The overrides of one sort in the log of one patch are its keys of that sort that the graph
has. -/
theorem countP_trace_addPatch (g : Graph) (p : Patch) (sort : Entity) :
    (g.addPatch p).trace.countP (LogEntry.overrides sort) =
      ((p.keysOf sort).filter (g.keysOf sort).contains).length := by
  have hpart : ∀ (other : Entity) (keys : List String),
      (keys.map (LogEntry.overridden p.id other)).countP (LogEntry.overrides sort) =
        if other = sort then keys.length else 0 := by
    intro other keys
    rw [List.countP_map]
    by_cases h : other = sort
    · simp [h, Function.comp_def, LogEntry.overrides]
    · simp [h, Function.comp_def, LogEntry.overrides]
  rw [trace_addPatch]
  simp only [Entity.sorts, List.flatMap_cons, List.flatMap_nil, List.append_nil,
    List.countP_append, hpart]
  cases sort <;> simp

/-- A patch adds as many keys as it has, less those that it overrides. -/
theorem length_keysOf_addPatch (g : Graph) (p : Patch) (sort : Entity) :
    ((g.addPatch p).value.keysOf sort).length +
        (g.addPatch p).trace.countP (LogEntry.overrides sort) =
      (g.keysOf sort).length + (p.keysOf sort).length := by
  rw [keysOf_addPatch, countP_trace_addPatch]
  exact length_eraseDups_append (g.nodup_keysOf sort) (p.nodup_keysOf sort)

/-! ## 3. Patches in a row -/

/-- The graph has just the keys of its patches. -/
theorem mem_keysOf_addPatches {ps : List Patch} {sort : Entity} {key : String} :
    key ∈ ((addPatches {} ps).value).keysOf sort ↔ ∃ q ∈ ps, key ∈ q.keysOf sort := by
  induction ps using List.reverseRecOn with
  | nil => cases sort <;> simp [addPatches, keysOf]
  | append_singleton ps p ih =>
    rw [addPatches_concat, keysOf_addPatch, List.mem_eraseDups, List.mem_append, ih]
    simp [or_and_right, exists_or]

/-- A patch logs what it overrides of the patches before it. -/
theorem trace_addPatch_addPatches (ps : List Patch) (p : Patch) :
    ((addPatches {} ps).value.addPatch p).trace =
      (p.overridden ps).map fun o => .overridden p.id o.1 o.2 := by
  rw [trace_addPatch, Patch.overridden, List.map_flatMap]
  refine List.flatMap_congr fun sort _ => ?_
  rw [List.map_map]
  refine congrArg (List.map _) (List.filter_congr fun key _ => ?_)
  rw [List.contains_eq_mem]
  exact decide_eq_decide.mpr mem_keysOf_addPatches

/-- Patches log what each overrides of those before it. -/
theorem trace_addPatches (ps : List Patch) :
    (addPatches {} ps).trace = (ps.mapIdx fun i p =>
      (p.overridden (ps.take i)).map fun o => .overridden p.id o.1 o.2).flatten := by
  induction ps using List.reverseRecOn with
  | nil => rfl
  | append_singleton ps p ih =>
    -- the patches before one of `ps` are the same with another patch at the end
    have hbefore : (ps.mapIdx fun i q => (q.overridden ((ps ++ [p]).take i)).map fun o =>
        LogEntry.overridden q.id o.1 o.2) =
          ps.mapIdx fun i q => (q.overridden (ps.take i)).map fun o =>
            LogEntry.overridden q.id o.1 o.2 := by
      refine List.ext_getElem (by simp) fun i hi _ => ?_
      have hi : i ≤ ps.length := by
        rw [List.length_mapIdx] at hi
        exact Nat.le_of_lt hi
      simp only [List.getElem_mapIdx, List.take_append_of_le_length hi]
    have hlast : (ps ++ [p]).take ps.length = ps := List.take_left
    rw [trace_addPatches_concat, ih, List.mapIdx_concat, hbefore, hlast, List.flatten_concat,
      trace_addPatch_addPatches]

/-- Patches make as many keys as they have together, less those that are overridden. -/
theorem length_keysOf_addPatches (ps : List Patch) (sort : Entity) :
    ((addPatches {} ps).value.keysOf sort).length +
        (addPatches {} ps).trace.countP (LogEntry.overrides sort) =
      (ps.map fun p => (p.keysOf sort).length).sum := by
  induction ps using List.reverseRecOn with
  | nil => cases sort <;> rfl
  | append_singleton ps p ih =>
    have hstep := length_keysOf_addPatch (addPatches {} ps).value p sort
    rw [addPatches_concat, trace_addPatches_concat, List.countP_append, List.map_append,
      List.sum_append, List.map_singleton, List.sum_singleton]
    omega

/-! ## 4. The log of a merge -/

/-- **Every override is logged once, and the counts balance.**  The log of a merge has one entry
for each record that a patch overrides, in the order of the patches and within a patch sort by
sort, and at its end one entry with the number of patches and of what they made.  An override
names the later patch by its id, the sort and the key.  Of each sort the patches hold as many
records together as the graph does and as overrides were logged. -/
theorem log_ofProject (p : Project) :
    let ps := p.patches.values
    let g := (ofProject p).value
    let log := (ofProject p).trace
    log = (ps.mapIdx fun i q =>
        (q.overridden (ps.take i)).map fun o => LogEntry.overridden q.id o.1 o.2).flatten ++
          [.merged ps.length g.nodes.size g.pins.size g.links.size] ∧
      (∀ q ∈ ps, ∀ sort key words, (LogEntry.overridden q.id sort key).message words =
        "Patch '" ++ q.id.getD "<anonymous>" ++ "' overrides " ++ sort.name ++ " '" ++ key ++ "'") ∧
      ∀ sort, (ps.map fun q => (q.keysOf sort).length).sum =
        (g.keysOf sort).length + log.countP (LogEntry.overrides sort) := by
  intro ps g log
  have hsize : ps.length = p.patches.size := List.length_map _
  have hlog : log = (addPatches {} ps).trace ++
      [.merged ps.length g.nodes.size g.pins.size g.links.size] := by
    rw [hsize]
    simp only [log, ofProject, Traced.trace_bind, Traced.trace_note, Traced.trace_pure,
      List.append_nil]
    rfl
  refine ⟨?_, ?_, ?_⟩
  · rw [hlog, trace_addPatches]
  · intro q _ sort key words
    rfl
  · intro sort
    rw [hlog, List.countP_append, ← length_keysOf_addPatches]
    rfl

/-- The second patch overrides a node of the first, and the third, which has no id, a node of
both and a pin of the first. -/
example :
    let patches := [
      (Patch.named "one").addNode (.ofType "a" "x") |>.addPin (.onNode "a.out" "a" "out"),
      (Patch.named "two").addNode (.ofType "a" "y"),
      ({} : Patch).addNode (.ofType "a" "z") |>.addPin (.onNode "a.out" "a" "end")]
    (ofProject (patches.foldl Project.addPatch {})).trace.map (LogEntry.message fun _ => "") =
      ["Patch 'two' overrides node 'a'", "Patch '<anonymous>' overrides node 'a'",
        "Patch '<anonymous>' overrides pin 'a.out'",
        "Merged 3 patches: 1 nodes, 1 pins, 0 links"] := by
  decide +kernel

end Graph
end Patchbay
