/-
# A value beside its trace

Reading a document and resolving a graph never stop at an odd place: they go on with a
stand-in and leave a remark.  `Traced ε α` holds what came out beside the remarks that were
left, in the order in which they arose.  It is used with two kinds of remark: log entries
(`Logged`) and diagnostics (`Resolved`).

* `value_bind`, `trace_bind`: running one step after another chains the values and
  concatenates the traces;
* `value_each`, `trace_each`: the same for a step run on every item of a list.

A step cannot see the remarks left before it, so a trace only ever grows at its end.
-/
namespace Patchbay

/-- A result and the remarks left on the way to it, first to last. -/
structure Traced (ε α : Type) where
  value : α
  trace : List ε
  deriving DecidableEq, Repr

namespace Traced

variable {ε α β γ : Type}

/-! ## 1. Running steps in order -/

instance : Monad (Traced ε) where
  pure a := ⟨a, []⟩
  bind x f :=
    let y := f x.value
    ⟨y.value, x.trace ++ y.trace⟩

/-- A step that leaves one remark. -/
def note (e : ε) : Traced ε Unit := ⟨(), [e]⟩

/-- A step that leaves these remarks. -/
def notes (es : List ε) : Traced ε Unit := ⟨(), es⟩

@[simp] theorem value_pure (a : α) : (pure a : Traced ε α).value = a := rfl

@[simp] theorem trace_pure (a : α) : (pure a : Traced ε α).trace = [] := rfl

@[simp] theorem value_bind (x : Traced ε α) (f : α → Traced ε β) :
    (x >>= f).value = (f x.value).value := rfl

@[simp] theorem trace_bind (x : Traced ε α) (f : α → Traced ε β) :
    (x >>= f).trace = x.trace ++ (f x.value).trace := rfl

@[simp] theorem value_note (e : ε) : (note e).value = () := rfl

@[simp] theorem trace_note (e : ε) : (note e).trace = [e] := rfl

@[simp] theorem trace_notes (es : List ε) : (notes es).trace = es := rfl

theorem ext {x y : Traced ε α} (hv : x.value = y.value) (ht : x.trace = y.trace) : x = y := by
  cases x; cases y; simp_all

instance : LawfulMonad (Traced ε) :=
  LawfulMonad.mk' (Traced ε) (fun x => ext rfl (by simp [Functor.map]))
    (fun a f => ext rfl (by simp)) (fun x f g => ext rfl (by simp))

@[simp] theorem value_map (f : α → β) (x : Traced ε α) : (f <$> x).value = f x.value := rfl

@[simp] theorem trace_map (f : α → β) (x : Traced ε α) : (f <$> x).trace = x.trace := by
  simp [Functor.map]

/-! ## 2. Running a step on every item -/

/-- Runs `f` on every item in order. -/
def each (f : α → Traced ε β) (xs : List α) : Traced ε (List β) :=
  let results := xs.map f
  ⟨results.map value, results.flatMap trace⟩

@[simp] theorem value_each (f : α → Traced ε β) (xs : List α) :
    (each f xs).value = xs.map fun a => (f a).value := by
  simp [each]

@[simp] theorem trace_each (f : α → Traced ε β) (xs : List α) :
    (each f xs).trace = xs.flatMap fun a => (f a).trace := by
  simp [each, List.flatMap_map]

end Traced
end Patchbay
