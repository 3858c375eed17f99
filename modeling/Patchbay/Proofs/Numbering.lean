/-
# Numbering: the keys of patches without an id

A patch is added to a project under its own id, and one without an id under the number of the
patches that are there.  Authors choose ids from the same texts.  Nothing keeps them from
choosing a number that a patch without an id gets, and then the later of the two takes the
place of the earlier one, whose nodes, pins and links are gone.

So a project that was built patch by patch holds every patch exactly if no number is taken:

* `size_ofPatches_le`: there are never more entries than patches;
* `entries_ofPatches`: if the keys are distinct then each patch is filed under its own;
* `nodup_of_size_ofPatches`: if there are as many entries as patches then they are distinct;
* `nodup_keys_filing_iff`: they are distinct exactly if no number is taken, provided that the
  ids are;
* `ofPatches_keeps_iff`: the four together.
-/
import Mathlib.Data.List.Induction
import Mathlib.Data.List.Nodup
import Patchbay.Graph

namespace Patchbay

/-! ## 1. Filing -/

namespace OrderedMap

variable {α : Type}

theorem entries_insert_of_not_mem {m : OrderedMap α} {key : String} (h : key ∉ m.keys)
    (value : α) : (m.insert key value).entries = m.entries ++ [(key, value)] :=
  Entries.place_of_not_mem h

theorem size_insert (m : OrderedMap α) (key : String) (value : α) :
    (m.insert key value).size = if key ∈ m.keys then m.size else m.size + 1 := by
  have hsize : ∀ n : OrderedMap α, n.size = n.keys.length := fun n => (List.length_map _).symm
  rw [hsize, hsize, keys_insert]
  split
  case isTrue => rfl
  case isFalse => exact List.length_append

end OrderedMap

namespace Project

/-- The project that patches make which are added one by one. -/
def ofPatches (ps : List Patch) : Project := ps.foldl addPatch {}

theorem ofPatches_concat (ps : List Patch) (q : Patch) :
    ofPatches (ps ++ [q]) = (ofPatches ps).addPatch q := by
  rw [ofPatches, List.foldl_append]
  rfl

/-- Patches with the keys that they are filed under as long as none is lost: the id of each, or
the number of those before it. -/
def filing (ps : List Patch) : List (String × Patch) :=
  ps.mapIdx fun i q => (q.id.getD (toString i), q)

theorem filing_concat (ps : List Patch) (q : Patch) :
    filing (ps ++ [q]) = filing ps ++ [(q.id.getD (toString ps.length), q)] :=
  List.mapIdx_concat

theorem nodup_keys_filing_concat {ps : List Patch} {q : Patch} :
    (Entries.keys (filing (ps ++ [q]))).Nodup ↔
      q.id.getD (toString ps.length) ∉ Entries.keys (filing ps) ∧
        (Entries.keys (filing ps)).Nodup := by
  rw [filing_concat, Entries.keys, List.map_append, List.map_singleton, ← List.concat_eq_append]
  exact List.nodup_concat _ _

/-- If the keys are distinct then each patch is filed under its own. -/
theorem entries_ofPatches {ps : List Patch} (h : (Entries.keys (filing ps)).Nodup) :
    (ofPatches ps).patches.entries = filing ps := by
  induction ps using List.reverseRecOn with
  | nil => rfl
  | append_singleton ps q ih =>
    obtain ⟨hnew, hrest⟩ := nodup_keys_filing_concat.mp h
    have hentries := ih hrest
    have hsize : (ofPatches ps).patches.size = ps.length := by
      rw [OrderedMap.size, hentries, filing, List.length_mapIdx]
    have hkeys : (ofPatches ps).patches.keys = Entries.keys (filing ps) := by
      rw [OrderedMap.keys, hentries]
    rw [ofPatches_concat, filing_concat, ← hentries]
    simp only [addPatch, hsize]
    exact OrderedMap.entries_insert_of_not_mem (hkeys ▸ hnew) q

/-! ## 2. What is lost -/

/-- There are never more entries than patches. -/
theorem size_ofPatches_le (ps : List Patch) : (ofPatches ps).patches.size ≤ ps.length := by
  induction ps using List.reverseRecOn with
  | nil => exact Nat.le_refl 0
  | append_singleton ps q ih =>
    rw [ofPatches_concat, List.length_append, List.length_singleton, addPatch,
      OrderedMap.size_insert]
    split
    case isTrue => exact Nat.le_succ_of_le ih
    case isFalse => exact Nat.succ_le_succ ih

/-- If there are as many entries as patches then the keys are distinct: an entry that was
replaced would be missing to the end. -/
theorem nodup_of_size_ofPatches {ps : List Patch}
    (h : (ofPatches ps).patches.size = ps.length) : (Entries.keys (filing ps)).Nodup := by
  induction ps using List.reverseRecOn with
  | nil => exact List.nodup_nil
  | append_singleton ps q ih =>
    have hle := size_ofPatches_le ps
    rw [ofPatches_concat, List.length_append, List.length_singleton, addPatch,
      OrderedMap.size_insert] at h
    split at h
    case isTrue => omega
    case isFalse hnew =>
      have hsize : (ofPatches ps).patches.size = ps.length := by omega
      have hrest := ih hsize
      have hkeys : (ofPatches ps).patches.keys = Entries.keys (filing ps) := by
        rw [OrderedMap.keys, entries_ofPatches hrest]
      rw [hsize, hkeys] at hnew
      exact nodup_keys_filing_concat.mpr ⟨hnew, hrest⟩

/-- A patch has no id, and the number of the patches before it is the id of some patch. -/
def NumberTaken (ps : List Patch) (i : Nat) : Prop :=
  (∃ q, ps[i]? = some q ∧ q.id = none) ∧ ∃ r ∈ ps, r.id = some (toString i)

/-- Different numbers have different texts. -/
theorem toString_nat_injective : Function.Injective (toString : Nat → String) := by
  intro m n h
  have hdigits : Nat.toDigits 10 m = Nat.toDigits 10 n := by
    have htexts := congrArg String.toList h
    simpa only [Nat.toString_eq_repr, Nat.toList_repr] using htexts
  calc
    m = Nat.ofDigitChars 10 (Nat.toDigits 10 m) 0 := Nat.ofDigitChars_ten_toDigits.symm
    _ = Nat.ofDigitChars 10 (Nat.toDigits 10 n) 0 := by rw [hdigits]
    _ = n := Nat.ofDigitChars_ten_toDigits

theorem getElem?_keys_filing (ps : List Patch) (i : Nat) :
    (Entries.keys (filing ps))[i]? = ps[i]?.map fun q => q.id.getD (toString i) := by
  rw [Entries.keys, filing, List.getElem?_map, List.getElem?_mapIdx, Option.map_map]
  rfl

/-- With distinct ids, keys repeat only where a number is taken. -/
theorem nodup_keys_filing_iff {ps : List Patch} (hids : (ps.filterMap Patch.id).Nodup) :
    (Entries.keys (filing ps)).Nodup ↔ ∀ i, ¬ NumberTaken ps i := by
  have hlength : (Entries.keys (filing ps)).length = ps.length := by simp [filing]
  constructor
  · rintro hnd i ⟨⟨q, hq, hnone⟩, r, hr, hid⟩
    obtain ⟨j, hj⟩ := List.mem_iff_getElem?.mp hr
    have hi : i < (Entries.keys (filing ps)).length :=
      hlength ▸ (List.getElem?_eq_some_iff.mp hq).1
    have hkey : (Entries.keys (filing ps))[i]? = (Entries.keys (filing ps))[j]? := by
      rw [getElem?_keys_filing, getElem?_keys_filing, hq, hj, Option.map_some, Option.map_some,
        hnone, hid]
      rfl
    obtain rfl : i = j := (List.getElem?_inj hi hnd).mp hkey
    obtain rfl : q = r := Option.some.inj (hq.symm.trans hj)
    exact absurd (hnone.symm.trans hid) (by simp)
  · intro hfree
    have hdistinct := List.pairwise_iff_getElem.mp (List.pairwise_filterMap.mp hids)
    refine List.nodup_iff_getElem?_ne_getElem?.mpr fun i j hlt hj heq => ?_
    rw [hlength] at hj
    have hi : i < ps.length := Nat.lt_trans hlt hj
    have hqi := List.getElem?_eq_getElem hi
    have hqj := List.getElem?_eq_getElem hj
    rw [getElem?_keys_filing, getElem?_keys_filing, hqi, hqj, Option.map_some, Option.map_some,
      Option.some.injEq] at heq
    -- an id, or a number: two of one kind differ, and one of each would be a number taken
    cases hidi : ps[i].id with
    | none =>
      cases hidj : ps[j].id with
      | none =>
        rw [hidi, hidj] at heq
        exact absurd (toString_nat_injective heq) (by omega)
      | some l =>
        rw [hidi, hidj] at heq
        have htaken : ps[j].id = some (toString i) := hidj.trans (congrArg some heq.symm)
        exact hfree i ⟨⟨ps[i], hqi, hidi⟩, ps[j], List.getElem_mem hj, htaken⟩
    | some k =>
      cases hidj : ps[j].id with
      | none =>
        rw [hidi, hidj] at heq
        have htaken : ps[i].id = some (toString j) := hidi.trans (congrArg some heq)
        exact hfree j ⟨⟨ps[j], hqj, hidj⟩, ps[i], List.getElem_mem hi, htaken⟩
      | some l =>
        rw [hidi, hidj] at heq
        exact hdistinct i j hi hj hlt k hidi l hidj heq

/-! ## 3. Projects that hold all their patches -/

theorem values_ofPatches {ps : List Patch} (h : (Entries.keys (filing ps)).Nodup) :
    (ofPatches ps).patches.values = ps := by
  rw [OrderedMap.values, entries_ofPatches h]
  exact List.ext_getElem (by simp [filing]) fun i _ _ => by simp [filing]

/-- **A project holds the patches it was built of unless a number is taken.**  For patches with
distinct ids, of which any may have none: the project has one entry for each of them, or has them
all in order, exactly if no patch without an id gets a number that is an id; and then each stands
under its own key, and the graph of the project is that of the patches. -/
theorem ofPatches_keeps_iff (ps : List Patch) (hids : (ps.filterMap Patch.id).Nodup) :
    let p := ofPatches ps
    p.patches.size ≤ ps.length ∧
      (p.patches.size = ps.length ↔ ∀ i, ¬ NumberTaken ps i) ∧
      (p.patches.values = ps ↔ ∀ i, ¬ NumberTaken ps i) ∧
      ((∀ i, ¬ NumberTaken ps i) →
        p.patches.entries = ps.mapIdx (fun i q => (q.id.getD (toString i), q)) ∧
          (Graph.ofProject p).value = (Graph.addPatches {} ps).value) := by
  intro p
  have hnodup := nodup_keys_filing_iff hids
  have hsize : p.patches.values = ps → p.patches.size = ps.length := fun h => by
    rw [OrderedMap.size, ← List.length_map Prod.snd]
    exact congrArg List.length h
  refine ⟨size_ofPatches_le ps, ⟨fun h => ?_, fun h => ?_⟩, ⟨fun h => ?_, fun h => ?_⟩, fun h => ?_⟩
  · exact hnodup.mp (nodup_of_size_ofPatches h)
  · exact hsize (values_ofPatches (hnodup.mpr h))
  · exact hnodup.mp (nodup_of_size_ofPatches (hsize h))
  · exact values_ofPatches (hnodup.mpr h)
  · refine ⟨entries_ofPatches (hnodup.mpr h), ?_⟩
    have hgraph : (Graph.ofProject p).value = (Graph.addPatches {} p.patches.values).value := rfl
    rw [hgraph, values_ofPatches (hnodup.mpr h)]

end Project

namespace Example

/-- A patch of one node. -/
def lone (id : Option String) (node : String) : Patch :=
  { id, nodes := .ofList [(node, .ofType node "source")] }

/-- Ids and numbers that keep clear of each other. -/
theorem numbers_keep_clear :
    let ps := [lone (some "main") "a", lone none "b", lone (some "0") "c", lone none "d"]
    (ps.filterMap Patch.id).Nodup ∧ (∀ i, ¬ Project.NumberTaken ps i) ∧
      (Project.ofPatches ps).patches.keys = ["main", "1", "0", "3"] ∧
      (Graph.ofProject (Project.ofPatches ps)).value = (Graph.addPatches {} ps).value := by
  intro ps
  have hids : (ps.filterMap Patch.id).Nodup := by decide
  have h := Project.ofPatches_keeps_iff ps hids
  have hfree := h.2.1.mp (by decide)
  exact ⟨hids, hfree, by decide, (h.2.2.2 hfree).2⟩

/-- A patch that its author called `1` is replaced by one that comes second and has no id: its
node is gone from the project and from the graph. -/
theorem number_is_taken :
    let ps := [lone (some "1") "a", lone none "b"]
    (ps.filterMap Patch.id).Nodup ∧
      (Project.ofPatches ps).patches.values = [lone none "b"] ∧
      (Graph.ofProject (Project.ofPatches ps)).value.nodes.keys = ["b"] ∧
      (Graph.addPatches {} ps).value.nodes.keys = ["a", "b"] := by
  decide

end Example
end Patchbay
