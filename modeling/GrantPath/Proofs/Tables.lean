import GrantPath.Table
import Mathlib.Data.List.Dedup
import Mathlib.Data.List.Nodup

/-! # Tables filled one entry after the other

What is stored last under a key is what a lookup finds. `getLast?_foldl` says so once, for any
state and any way of looking into it, so that it holds of a table (`Table.get?_fill`) as well as
of a table of tables (`Table.within?_fillWithin`).

A table is counted by its keys (`Table.size_eq_length_dedup`), a table of collections by the pairs
of a key and what is collected under it (`Table.sum_eq_length_dedup`). In both cases the count is
that of a list without its repetitions, whatever the order in which the table keeps its entries. -/

namespace GrantPath

/-- If every step stores a value under a key, the last step with that key decides what a look-up
finds. -/
theorem getLast?_foldl {σ ι κ β : Type} [DecidableEq κ] {step : σ → ι → σ}
    {look : σ → κ → Option β} {key : ι → κ} {val : ι → β}
    (h : ∀ s x k, look (step s x) k = if key x = k then some (val x) else look s k)
    (xs : List ι) (s : σ) (k : κ) :
    look (xs.foldl step s) k = ((xs.filter (key · = k)).getLast?.map val).or (look s k) := by
  induction xs generalizing s with
  | nil => rfl
  | cons x xs ih =>
      rw [List.foldl_cons, ih, h]
      by_cases hx : key x = k
      · -- the first item counts only where no later one has the key
        cases hrest : (xs.filter (key · = k)).getLast? with
        | none => simp [hx, List.getLast?_eq_none_iff.mp hrest]
        | some y => simp [hx, List.getLast?_cons, hrest]
      · simp [hx]

namespace Table

variable {α β γ ι : Type} [DecidableEq α]

/-! ### Filling -/

/-- Stores items one after the other, each under its key. -/
def fill (key : ι → α) (val : ι → β) (t : Table α β) (xs : List ι) : Table α β :=
  xs.foldl (fun t x => t.insert (key x) (val x)) t

theorem get?_fill (key : ι → α) (val : ι → β) (t : Table α β) (xs : List ι) (k : α) :
    (fill key val t xs).get? k = ((xs.filter (key · = k)).getLast?.map val).or (t.get? k) := by
  apply getLast?_foldl
  intro t x k
  simp only [get?_insert, eq_comm]

section within

variable [DecidableEq β]

/-- What a table of tables holds under two keys. -/
def within? (t : Table α (Table β γ)) (k : α × β) : Option γ :=
  (t.get? k.1).bind (·.get? k.2)

/-- Stores a value in the table under the first key, which is made if there is none. -/
def insertWithin (t : Table α (Table β γ)) (a : α) (b : β) (c : γ) : Table α (Table β γ) :=
  t.insert a (((t.get? a).getD .empty).insert b c)

theorem within?_insertWithin (t : Table α (Table β γ)) (a : α) (b : β) (c : γ) (k : α × β) :
    (t.insertWithin a b c).within? k = if (a, b) = k then some c else t.within? k := by
  obtain ⟨x, y⟩ := k
  unfold within? insertWithin
  rw [get?_insert]
  by_cases hx : x = a
  · subst hx
    simp only [if_true, Option.bind_some, get?_insert, Prod.mk.injEq, true_and, eq_comm]
    split
    · rfl
    · cases t.get? x <;> rfl
  · have hx' : ¬ a = x := fun h => hx h.symm
    simp [hx, hx']

/-- Stores items one after the other, each under its two keys. -/
def fillWithin (key : ι → α × β) (val : ι → γ) (t : Table α (Table β γ)) (xs : List ι) :
    Table α (Table β γ) :=
  xs.foldl (fun t x => t.insertWithin (key x).1 (key x).2 (val x)) t

theorem within?_fillWithin (key : ι → α × β) (val : ι → γ) (t : Table α (Table β γ)) (xs : List ι)
    (k : α × β) : (fillWithin key val t xs).within? k =
      ((xs.filter (key · = k)).getLast?.map val).or (t.within? k) := by
  apply getLast?_foldl
  intro t x k
  exact within?_insertWithin ..

/-- A first key is known as soon as an item has it. -/
theorem contains_fillWithin (key : ι → α × β) (val : ι → γ) (t : Table α (Table β γ))
    (xs : List ι) (a : α) :
    (fillWithin key val t xs).contains a = true ↔
      a ∈ xs.map (fun x => (key x).1) ∨ t.contains a = true := by
  unfold fillWithin
  induction xs generalizing t with
  | nil => simp
  | cons x xs ih =>
      rw [List.foldl_cons, ih]
      have hx : (t.insertWithin (key x).1 (key x).2 (val x)).contains a = true ↔
          a = (key x).1 ∨ t.contains a = true := by
        unfold contains insertWithin
        rw [get?_insert]
        split <;> simp_all
      rw [hx, List.map_cons, List.mem_cons]
      tauto

end within

/-! ### Counting -/

theorem size_eq_length_dedup {t : Table α β} {ks : List α}
    (h : ∀ k, k ∈ ks ↔ ∃ v, t.get? k = some v) : t.size = ks.dedup.length := by
  have hperm : (t.entries.map Prod.fst).Perm ks.dedup := by
    rw [List.perm_ext_iff_of_nodup t.nodup ks.nodup_dedup]
    intro k
    simp [h, ← mem_entries_iff]
  rw [← hperm.length_eq, List.length_map]
  rfl

theorem size_fill (key : ι → α) (val : ι → β) (xs : List ι) :
    (fill key val .empty xs).size = (xs.map key).dedup.length := by
  apply size_eq_length_dedup
  intro k
  rw [get?_fill, get?_empty, Option.or_none, ← Option.isSome_iff_exists, Option.isSome_map,
    List.getLast?_isSome, Ne, List.filter_eq_nil_iff]
  simp

variable [DecidableEq β]

/-- Collections without repetitions, each under its key, have together as many items as there are
different pairs of a key and an item. -/
theorem sum_eq_length_dedup {δ : Type} {t : Table α δ} {f : δ → List β} {pairs : List (α × β)}
    (hf : ∀ k v, t.get? k = some v → (f v).Nodup)
    (h : ∀ k b, (k, b) ∈ pairs ↔ ∃ v, t.get? k = some v ∧ b ∈ f v) :
    t.values.foldl (fun n v => n + (f v).length) 0 = pairs.dedup.length := by
  have hnodup : (t.entries.flatMap fun e => (f e.2).map (e.1, ·)).Nodup := by
    rw [List.nodup_flatMap]
    constructor
    · rintro ⟨k, v⟩ he
      have hv := hf k v ((mem_entries_iff ..).mp he)
      exact hv.map fun _ _ hb => (Prod.mk.inj hb).2
    · have hkeys : t.entries.Pairwise fun e e' => e.1 ≠ e'.1 := List.pairwise_map.mp t.nodup
      apply hkeys.imp
      intro e e' hne pair hpair hpair'
      simp only [List.mem_map] at hpair hpair'
      obtain ⟨b, -, rfl⟩ := hpair
      obtain ⟨b', -, hb'⟩ := hpair'
      exact hne (congrArg Prod.fst hb').symm
  have hperm : (t.entries.flatMap fun e => (f e.2).map (e.1, ·)).Perm pairs.dedup := by
    rw [List.perm_ext_iff_of_nodup hnodup pairs.nodup_dedup]
    rintro ⟨k, b⟩
    simp only [List.mem_dedup, h, List.mem_flatMap, List.mem_map, Prod.mk.injEq, Prod.exists,
      ← mem_entries_iff]
    constructor
    · rintro ⟨k', v, he, b', hb, rfl, rfl⟩
      exact ⟨v, he, hb⟩
    · rintro ⟨v, he, hb⟩
      exact ⟨k, v, he, b, hb, rfl, rfl⟩
  rw [← hperm.length_eq]
  unfold values
  rw [List.length_flatMap, List.sum_eq_foldl, List.foldl_map, List.foldl_map]
  simp only [List.length_map]

/-- A table of tables has as many items as there are different pairs of keys among what was
stored. -/
theorem sum_size_fillWithin (key : ι → α × β) (val : ι → γ) (xs : List ι) :
    (fillWithin key val .empty xs).values.foldl (fun n t => n + t.size) 0 =
      (xs.map key).dedup.length := by
  have hkeys : ∀ t : Table β γ, t.size = (t.entries.map Prod.fst).length := by
    intro t
    rw [List.length_map]
    rfl
  simp only [hkeys]
  apply sum_eq_length_dedup
  · intro a t _
    exact t.nodup
  · intro a b
    have hfound : (a, b) ∈ xs.map key ↔
        ∃ c, (fillWithin key val .empty xs).within? (a, b) = some c := by
      rw [within?_fillWithin, ← Option.isSome_iff_exists]
      unfold within?
      rw [get?_empty, Option.bind_none, Option.or_none, Option.isSome_map, List.getLast?_isSome, Ne,
        List.filter_eq_nil_iff]
      simp
    rw [hfound]
    unfold within?
    simp only [Option.bind_eq_some_iff, List.mem_map, Prod.exists, mem_entries_iff]
    constructor
    · rintro ⟨c, t, ht, hc⟩
      exact ⟨t, ht, b, c, hc, rfl⟩
    · rintro ⟨t, ht, b', c, hc, rfl⟩
      exact ⟨c, t, ht, hc⟩

end Table

end GrantPath
