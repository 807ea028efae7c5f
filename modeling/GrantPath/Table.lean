/-! # Keyed tables

A `Table α β` is a finite map kept as a list of entries in which no key occurs twice.
Looking a key up is the only way the rest of the library reads a table, so each
operation below comes with the equation that says what it does to a lookup:

* `get?_insert`, `get?_erase` and `get?_filter` describe one operation each;
* `mem_entries_iff` says that the entries are exactly the pairs a lookup finds;
* `size_insert` and `size_erase` count entries.
-/

namespace GrantPath

/-- A finite map from `α` to `β`: entries with pairwise different keys. -/
structure Table (α β : Type) where
  entries : List (α × β)
  nodup : (entries.map Prod.fst).Nodup

namespace Table

variable {α β : Type}

theorem ext {s t : Table α β} (h : s.entries = t.entries) : s = t := by
  cases s; cases t; cases h; rfl

instance [DecidableEq α] [DecidableEq β] : DecidableEq (Table α β) := fun s t =>
  if h : s.entries = t.entries then .isTrue (ext h)
  else .isFalse fun e => h (congrArg entries e)

/-- The table without entries. -/
def empty : Table α β := ⟨[], .nil⟩

instance : Inhabited (Table α β) := ⟨empty⟩

/-- The number of entries. -/
def size (t : Table α β) : Nat :=
  t.entries.length

/-- The stored values. -/
def values (t : Table α β) : List β :=
  t.entries.map Prod.snd

/-- Keeps the entries that satisfy a condition on key and value. -/
def filter (t : Table α β) (p : α → β → Bool) : Table α β :=
  ⟨t.entries.filter fun e => p e.1 e.2, t.nodup.sublist (List.filter_sublist.map _)⟩

@[simp] theorem size_empty : (empty : Table α β).size = 0 := rfl

theorem size_filter_le (t : Table α β) (p : α → β → Bool) : (t.filter p).size ≤ t.size :=
  List.length_filter_le ..

variable [DecidableEq α]

/-- The value stored under a key. -/
def get? (t : Table α β) (k : α) : Option β :=
  (t.entries.find? fun e => decide (e.1 = k)).map Prod.snd

/-- Drops the entry of a key, if there is one. -/
def erase (t : Table α β) (k : α) : Table α β :=
  t.filter fun x _ => !decide (x = k)

/-- Stores a value under a key, replacing what was there. -/
def insert (t : Table α β) (k : α) (v : β) : Table α β :=
  ⟨(k, v) :: (t.erase k).entries, by
    refine List.nodup_cons.2 ⟨fun h => ?_, (t.erase k).nodup⟩
    obtain ⟨e, he, hk⟩ := List.mem_map.1 h
    have := (List.mem_filter.1 he).2
    simp [hk] at this⟩

/-- Whether a key has an entry. -/
def contains (t : Table α β) (k : α) : Bool :=
  (t.get? k).isSome

/-! ### Lookups -/

theorem mem_entries_iff (t : Table α β) (k : α) (v : β) :
    (k, v) ∈ t.entries ↔ t.get? k = some v := by
  obtain ⟨l, hl⟩ := t
  simp only [get?]
  induction l with
  | nil => simp
  | cons e l ih =>
    obtain ⟨x, w⟩ := e
    have hx := (List.nodup_cons.1 hl).1
    have ih := ih (List.nodup_cons.1 hl).2
    by_cases h : x = k
    · subst h
      simp only [List.mem_cons, Prod.mk.injEq, true_and, decide_true, List.find?_cons_of_pos,
        Option.map_some, Option.some.injEq]
      constructor
      · rintro (h | h)
        · exact h.symm
        · exact absurd (List.mem_map_of_mem h) hx
      · exact fun h => Or.inl h.symm
    · have h' : ¬ k = x := fun e => h e.symm
      simp only [List.mem_cons, Prod.mk.injEq, h', false_and, false_or, h, decide_false,
        Bool.false_eq_true, not_false_eq_true, List.find?_cons_of_neg]
      exact ih

theorem get?_eq_none_iff (t : Table α β) (k : α) :
    t.get? k = none ↔ ∀ v, (k, v) ∉ t.entries := by
  constructor
  · intro h v hv
    rw [mem_entries_iff, h] at hv
    exact absurd hv (by simp)
  · intro h
    cases hk : t.get? k with
    | none => rfl
    | some v => exact absurd ((t.mem_entries_iff k v).2 hk) (h v)

@[simp] theorem get?_empty (k : α) : (empty : Table α β).get? k = none := rfl

theorem get?_filter (t : Table α β) (p : α → β → Bool) (k : α) :
    (t.filter p).get? k = (t.get? k).filter (p k) := by
  have key : ∀ v, (t.filter p).get? k = some v ↔ (t.get? k).filter (p k) = some v := by
    intro v
    rw [← mem_entries_iff, Option.filter_eq_some_iff, ← mem_entries_iff]
    simp [filter]
  cases h : (t.get? k).filter (p k) with
  | some v => exact (key v).2 h
  | none =>
    cases h' : (t.filter p).get? k with
    | none => rfl
    | some v => rw [(key v).1 h'] at h; exact absurd h (by simp)

theorem get?_erase (t : Table α β) (k x : α) :
    (t.erase k).get? x = if x = k then none else t.get? x := by
  rw [erase, get?_filter]
  by_cases h : x = k
  · cases t.get? k <;> simp [h]
  · cases hx : t.get? x <;> simp [h]

theorem get?_insert (t : Table α β) (k x : α) (v : β) :
    (t.insert k v).get? x = if x = k then some v else t.get? x := by
  by_cases h : x = k
  · simp [get?, insert, h]
  · have h' : ¬ k = x := fun e => h e.symm
    have : (t.insert k v).get? x = (t.erase k).get? x := by
      simp [get?, insert, h']
    rw [this, get?_erase, if_neg h, if_neg h]

@[simp] theorem get?_insert_self (t : Table α β) (k : α) (v : β) :
    (t.insert k v).get? k = some v := by
  rw [get?_insert, if_pos rfl]

theorem contains_iff (t : Table α β) (k : α) : t.contains k = true ↔ ∃ v, t.get? k = some v := by
  simp [contains, Option.isSome_iff_exists]

/-! ### Sizes -/

theorem size_erase (t : Table α β) (k : α) :
    (t.erase k).size = if t.contains k then t.size - 1 else t.size := by
  obtain ⟨l, hl⟩ := t
  simp only [size, erase, filter, contains, get?, Option.isSome_map]
  induction l with
  | nil => simp
  | cons e l ih =>
    have hx := (List.nodup_cons.1 hl).1
    have ih := ih (List.nodup_cons.1 hl).2
    by_cases h : e.1 = k
    · have hk : l.filter (fun y => !decide (y.1 = k)) = l := by
        refine List.filter_eq_self.2 fun y hy => ?_
        have : y.1 ≠ k := fun hyk => hx (by rw [h, ← hyk]; exact List.mem_map_of_mem hy)
        simp [this]
      simp [h, hk]
    · simp only [h, decide_false, Bool.not_false, List.filter_cons_of_pos, List.length_cons, ih,
        Bool.false_eq_true, not_false_eq_true, List.find?_cons_of_neg]
      split
      · rename_i hc
        have : 0 < l.length := by
          cases l with
          | nil => simp at hc
          | cons => simp
        omega
      · rfl

theorem size_insert (t : Table α β) (k : α) (v : β) :
    (t.insert k v).size = if t.contains k then t.size else t.size + 1 := by
  have h : (t.insert k v).size = (t.erase k).size + 1 := rfl
  rw [h, size_erase]
  split
  · rename_i hc
    have : 0 < t.size := by
      cases h0 : t.entries with
      | nil => simp [contains, get?, h0] at hc
      | cons => simp [size, h0]
    omega
  · rfl

end Table

end GrantPath
