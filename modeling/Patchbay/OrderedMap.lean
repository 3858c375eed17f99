/-
# Maps that remember the order of their keys

A document lists its records by key, and the order in which it lists them is kept through
every later stage: it decides which pin instance is found first, how the links of an output
are listed, and how the runtime's table is written.  `OrderedMap α` is a list of entries
whose keys are distinct.

Writing to a key that is there replaces the value and keeps the position; writing to a new
key appends.  So of several writes to one key the first gives the position and the last the
value:

* `keys_insert`: the keys after a write;
* `get?_insert`: the values after a write;
* `entries_ofList`: a list of entries with distinct keys is kept as it stands;
* `get?_eq_some_iff`: looking a key up finds the entry that bears it.

The same rule on bare entry lists (`Entries.place`) serves lists that may repeat a key.
-/
namespace Patchbay

/-! ## 1. Entry lists -/

namespace Entries

variable {α β : Type}

/-- Writes `value` at `key`: in place of the first entry with that key, else at the end. -/
def place (key : String) (value : α) : List (String × α) → List (String × α)
  | [] => [(key, value)]
  | (k, v) :: rest => if k = key then (key, value) :: rest else (k, v) :: place key value rest

/-- Writes every entry of `incoming`, first to last. -/
def placeAll (target incoming : List (String × α)) : List (String × α) :=
  incoming.foldl (fun es e => place e.1 e.2 es) target

/-- The keys, in order. -/
abbrev keys (es : List (String × α)) : List String := es.map Prod.fst

theorem keys_place_of_mem {key : String} {value : α} :
    ∀ {es : List (String × α)}, key ∈ keys es → keys (place key value es) = keys es
  | [], h => by simp at h
  | (k, v) :: rest, h => by
    by_cases hk : k = key
    · simp [place, hk]
    · have hrest : key ∈ keys rest := by
        rcases List.mem_cons.mp h with h | h
        · exact absurd h.symm hk
        · exact h
      simpa [place, hk] using keys_place_of_mem hrest

theorem place_of_not_mem {key : String} {value : α} :
    ∀ {es : List (String × α)}, key ∉ keys es → place key value es = es ++ [(key, value)]
  | [], _ => rfl
  | (k, v) :: rest, h => by
    have hk : k ≠ key := fun e => h (by simp [e])
    have hrest : key ∉ keys rest := fun e => h (List.mem_cons_of_mem _ e)
    simp [place, hk, place_of_not_mem hrest]

theorem keys_place (key : String) (value : α) (es : List (String × α)) :
    keys (place key value es) = if key ∈ keys es then keys es else keys es ++ [key] := by
  split
  case isTrue h => exact keys_place_of_mem h
  case isFalse h => simp [place_of_not_mem h]

theorem nodup_keys_place {key : String} {value : α} {es : List (String × α)}
    (h : (keys es).Nodup) : (keys (place key value es)).Nodup := by
  rw [keys_place]
  split
  case isTrue => exact h
  case isFalse hk =>
    rw [List.nodup_append]
    refine ⟨h, by simp, fun a ha b hb => ?_⟩
    rw [List.mem_singleton.mp hb]
    exact fun e => hk (e ▸ ha)

theorem lookup_cons_of_ne {key other : String} (h : other ≠ key) (value : α)
    (es : List (String × α)) : ((key, value) :: es).lookup other = es.lookup other := by
  rw [List.lookup_cons, beq_eq_false_iff_ne.mpr h]

theorem lookup_place (key other : String) (value : α) :
    ∀ es : List (String × α),
      (place key value es).lookup other = if other = key then some value else es.lookup other
  | [] => by
    by_cases h : other = key
    · simp [place, h]
    · simp [place, h, lookup_cons_of_ne h]
  | (k, v) :: rest => by
    have ih := lookup_place key other value rest
    by_cases hk : k = key
    · subst hk
      by_cases h : other = k
      · simp [place, h]
      · simp [place, h, lookup_cons_of_ne h]
    · by_cases h : other = k
      · subst h
        simp [place, hk]
      · simp [place, hk, lookup_cons_of_ne h, ih]

/-- With distinct keys, looking a key up finds the one entry that bears it. -/
theorem lookup_eq_some_iff {key : String} {value : α} :
    ∀ {es : List (String × α)}, (keys es).Nodup →
      (es.lookup key = some value ↔ (key, value) ∈ es)
  | [], _ => by simp
  | (k, v) :: rest, h => by
    have hnd := List.nodup_cons.mp h
    by_cases hk : key = k
    · subst hk
      have hrest : (key, value) ∉ rest := fun hm => hnd.1 (List.mem_map.mpr ⟨_, hm, rfl⟩)
      simp [hrest, eq_comm]
    · rw [lookup_cons_of_ne hk, lookup_eq_some_iff hnd.2]
      simp [hk]

theorem lookup_eq_none_iff {key : String} :
    ∀ {es : List (String × α)}, es.lookup key = none ↔ key ∉ keys es
  | [] => by simp
  | (k, v) :: rest => by
    by_cases hk : key = k
    · simp [hk]
    · rw [lookup_cons_of_ne hk, lookup_eq_none_iff]
      simp [hk]

theorem mem_place {key : String} {value : α} {e : String × α} :
    ∀ {es : List (String × α)}, e ∈ place key value es → e = (key, value) ∨ e ∈ es
  | [], h => by simpa [place] using h
  | (k, v) :: rest, h => by
    rw [place] at h
    split at h
    · rcases List.mem_cons.mp h with h | h
      · exact Or.inl h
      · exact Or.inr (List.mem_cons_of_mem _ h)
    · rcases List.mem_cons.mp h with h | h
      · exact Or.inr (h ▸ List.mem_cons_self)
      · exact (mem_place h).imp_right (List.mem_cons_of_mem _)

theorem mem_placeAll {incoming : List (String × α)} {e : String × α} :
    ∀ {target : List (String × α)}, e ∈ placeAll target incoming → e ∈ target ∨ e ∈ incoming := by
  induction incoming with
  | nil => intro target h; exact Or.inl h
  | cons i rest ih =>
    intro target h
    rcases ih h with h | h
    · rcases mem_place h with h | h
      · exact Or.inr (h ▸ List.mem_cons_self)
      · exact Or.inl h
    · exact Or.inr (List.mem_cons_of_mem _ h)

theorem nodup_keys_placeAll {incoming : List (String × α)} :
    ∀ {target : List (String × α)}, (keys target).Nodup →
      (keys (placeAll target incoming)).Nodup := by
  induction incoming with
  | nil => intro target h; exact h
  | cons e rest ih => intro target h; exact ih (nodup_keys_place h)

/-- Entries under new and distinct keys are appended as they stand. -/
theorem placeAll_of_nodup {incoming : List (String × α)} :
    ∀ {target : List (String × α)}, (keys (target ++ incoming)).Nodup →
      placeAll target incoming = target ++ incoming := by
  induction incoming with
  | nil => intro target _; simp [placeAll]
  | cons e rest ih =>
    intro target h
    have hnew : e.1 ∉ keys target := by
      intro hm
      rw [keys, List.map_append, List.nodup_append] at h
      exact h.2.2 e.1 hm e.1 (by simp) rfl
    have hstep : placeAll target (e :: rest) = placeAll (target ++ [e]) rest := by
      show placeAll (place e.1 e.2 target) rest = _
      rw [place_of_not_mem hnew]
    rw [hstep, ih (by simpa using h)]
    simp

end Entries

/-! ## 2. The map -/

/-- Entries in the order in which their keys were first written. -/
structure OrderedMap (α : Type) where
  entries : List (String × α)
  nodup : (Entries.keys entries).Nodup
  deriving DecidableEq

namespace OrderedMap

variable {α β : Type}

theorem ext {m n : OrderedMap α} (h : m.entries = n.entries) : m = n := by
  cases m; cases n; simp_all

/-- The map without entries. -/
def empty : OrderedMap α := ⟨[], List.nodup_nil⟩

instance : Inhabited (OrderedMap α) := ⟨empty⟩

instance [Repr α] : Repr (OrderedMap α) := ⟨fun m p => reprPrec m.entries p⟩

/-- The keys, in order of first writing. -/
def keys (m : OrderedMap α) : List String := Entries.keys m.entries

/-- The values, in the order of their keys. -/
def values (m : OrderedMap α) : List α := m.entries.map Prod.snd

/-- The number of entries. -/
def size (m : OrderedMap α) : Nat := m.entries.length

/-- The value at `key`. -/
def get? (m : OrderedMap α) (key : String) : Option α := m.entries.lookup key

/-- Whether `key` has a value. -/
def contains (m : OrderedMap α) (key : String) : Bool := m.keys.contains key

/-- Writes a value: a key that is there keeps its position, a new one is appended. -/
def insert (m : OrderedMap α) (key : String) (value : α) : OrderedMap α :=
  ⟨Entries.place key value m.entries, Entries.nodup_keys_place m.nodup⟩

/-- Writes every entry of a list, first to last. -/
def insertAll (m : OrderedMap α) (incoming : List (String × α)) : OrderedMap α :=
  ⟨Entries.placeAll m.entries incoming, Entries.nodup_keys_placeAll m.nodup⟩

/-- The map of a list of entries; of a repeated key the last value stays, at the first
position. -/
def ofList (incoming : List (String × α)) : OrderedMap α := empty.insertAll incoming

/-- Every value replaced by its image. -/
def map (f : α → β) (m : OrderedMap α) : OrderedMap β :=
  ⟨m.entries.map fun e => (e.1, f e.2), by simpa [Entries.keys, Function.comp_def] using m.nodup⟩

/-- The entries whose value passes the test, in order. -/
def filter (p : α → Bool) (m : OrderedMap α) : OrderedMap α :=
  ⟨m.entries.filter fun e => p e.2, m.nodup.sublist (List.filter_sublist.map _)⟩

@[simp] theorem entries_empty : (empty : OrderedMap α).entries = [] := rfl

@[simp] theorem keys_empty : (empty : OrderedMap α).keys = [] := rfl

@[simp] theorem values_empty : (empty : OrderedMap α).values = [] := rfl

@[simp] theorem get?_empty (key : String) : (empty : OrderedMap α).get? key = none := rfl

theorem keys_insert (m : OrderedMap α) (key : String) (value : α) :
    (m.insert key value).keys = if key ∈ m.keys then m.keys else m.keys ++ [key] :=
  Entries.keys_place key value m.entries

theorem get?_insert (m : OrderedMap α) (key other : String) (value : α) :
    (m.insert key value).get? other = if other = key then some value else m.get? other :=
  Entries.lookup_place key other value m.entries

@[simp] theorem insertAll_nil (m : OrderedMap α) : m.insertAll [] = m := rfl

@[simp] theorem insertAll_cons (m : OrderedMap α) (e : String × α) (es : List (String × α)) :
    m.insertAll (e :: es) = (m.insert e.1 e.2).insertAll es := rfl

theorem entries_ofList {es : List (String × α)} (h : (Entries.keys es).Nodup) :
    (ofList es).entries = es := by
  have hall : Entries.placeAll [] es = [] ++ es := Entries.placeAll_of_nodup (by simpa using h)
  simpa [ofList, insertAll] using hall

@[simp] theorem ofList_entries (m : OrderedMap α) : ofList m.entries = m :=
  ext (entries_ofList m.nodup)

theorem mem_of_mem_ofList {es : List (String × α)} {e : String × α}
    (h : e ∈ (ofList es).entries) : e ∈ es := by
  rcases Entries.mem_placeAll h with h | h
  · exact absurd h (by simp)
  · exact h

theorem get?_eq_some_iff {m : OrderedMap α} {key : String} {value : α} :
    m.get? key = some value ↔ (key, value) ∈ m.entries :=
  Entries.lookup_eq_some_iff m.nodup

theorem get?_eq_none_iff {m : OrderedMap α} {key : String} :
    m.get? key = none ↔ key ∉ m.keys :=
  Entries.lookup_eq_none_iff

theorem mem_values_iff {m : OrderedMap α} {value : α} :
    value ∈ m.values ↔ ∃ key, (key, value) ∈ m.entries := by
  simp [values]

@[simp] theorem entries_map (f : α → β) (m : OrderedMap α) :
    (m.map f).entries = m.entries.map fun e => (e.1, f e.2) := rfl

@[simp] theorem entries_filter (p : α → Bool) (m : OrderedMap α) :
    (m.filter p).entries = m.entries.filter fun e => p e.2 := rfl

@[simp] theorem keys_map (f : α → β) (m : OrderedMap α) : (m.map f).keys = m.keys := by
  simp [keys, map, Entries.keys, Function.comp_def]

@[simp] theorem get?_map (f : α → β) (m : OrderedMap α) (key : String) :
    (m.map f).get? key = (m.get? key).map f := by
  refine Option.ext fun value => ?_
  rw [get?_eq_some_iff, entries_map, List.mem_map, Option.map_eq_some_iff]
  constructor
  · rintro ⟨⟨_, v⟩, hv, heq⟩
    obtain ⟨rfl, rfl⟩ := Prod.mk.inj heq
    exact ⟨v, get?_eq_some_iff.mpr hv, rfl⟩
  · rintro ⟨v, hv, rfl⟩
    exact ⟨(key, v), get?_eq_some_iff.mp hv, rfl⟩

@[simp] theorem values_map (f : α → β) (m : OrderedMap α) :
    (m.map f).values = m.values.map f := by
  simp [values, map, Function.comp_def]

end OrderedMap
end Patchbay
