/-
# Grouping: the out links of a node, output by output

The groups of `RuntimeNode.outLinksByPin` stand in the order in which their outputs occur first
among the out links (`keys_outLinksByPin`).  The out links of a node of a run are listed output
by output, so there its groups are the outputs that feed something (`Blueprint.liveOutputs`), in
declaration order (`keys_outLinksByPin_runtimeNode`).
-/
import Patchbay.Proofs.Layers
import Patchbay.Proofs.Routes

namespace Patchbay

/-! ## 1. The keys of the groups -/

/-- Groups stand in the order in which their outputs occur first. -/
theorem keys_outLinksByPin (n : RuntimeNode) :
    n.outLinksByPin.keys = (n.outLinks.map OutLink.pinKey).eraseDups :=
  OrderedMap.keys_foldl_insert OutLink.pinKey _ .empty n.outLinks

/-- A run of one item leaves it once, if it does not come again. -/
theorem eraseDups_replicate_append {α : Type} [BEq α] [LawfulBEq α] {a : α} {l : List α}
    (h : a ∉ l) (n : Nat) : (List.replicate (n + 1) a ++ l).eraseDups = a :: l.eraseDups := by
  have hrun : (List.replicate n a).filter (fun b => !b == a) = [] := by simp
  have hrest : l.filter (fun b => !b == a) = l :=
    List.filter_eq_self.mpr fun b hb => by
      have hne : b ≠ a := fun he => h (he ▸ hb)
      simpa using hne
  rw [List.replicate_succ, List.cons_append, List.eraseDups_cons, List.filter_append, hrun, hrest,
    List.nil_append]

/-- Of rows that are listed one after another, each under its own key, those that are not empty
leave their keys. -/
theorem eraseDups_keys_rows {δ : Type} (row : String × δ → List Destination) :
    ∀ {es : List (String × δ)}, (Entries.keys es).Nodup →
      ((es.flatMap fun e => (row e).map (OutLink.mk e.1)).map OutLink.pinKey).eraseDups =
        Entries.keys (es.filter fun e => row e ≠ [])
  | [], _ => rfl
  | e :: rest, h => by
    have hnd := List.nodup_cons.mp h
    have ih := eraseDups_keys_rows row hnd.2
    rw [List.flatMap_cons, List.map_append, List.filter_cons]
    cases hrow : row e with
    | nil => simpa using ih
    | cons d ds =>
      have hnew : e.1 ∉ (rest.flatMap fun e => (row e).map (OutLink.mk e.1)).map OutLink.pinKey := by
        intro hmem
        obtain ⟨l, hl, hkey⟩ := List.mem_map.mp hmem
        obtain ⟨f, hf, hl⟩ := List.mem_flatMap.mp hl
        obtain ⟨_, -, rfl⟩ := List.mem_map.mp hl
        exact hnd.1 (List.mem_map.mpr ⟨f, hf, hkey⟩)
      have hkeys : ((d :: ds).map (OutLink.mk e.1)).map OutLink.pinKey =
          List.replicate (ds.length + 1) e.1 := by
        simp [Function.comp_def, List.replicate_succ]
      rw [hkeys, eraseDups_replicate_append hnew, ih]
      simp

namespace Blueprint

/-- The outputs of a node that feed something, in declaration order. -/
def liveOutputs (b : Blueprint) (n : Node) : List String :=
  Entries.keys ((b.nodeType n).outputs.entries.filter fun e => b.routes n e.2 ≠ [])

/-- The groups of a node of a run are its outputs that feed something. -/
theorem keys_outLinksByPin_runtimeNode (b : Blueprint) (n : Node) :
    (b.runtimeNode n).outLinksByPin.keys = b.liveOutputs n := by
  rw [keys_outLinksByPin, outLinks_runtimeNode,
    eraseDups_keys_rows (fun e => (b.routes n e.2).map b.graph.arrival)
      (b.nodeType n).outputs.nodup, liveOutputs]
  simp

end Blueprint
end Patchbay
