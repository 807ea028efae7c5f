import GrantPath.Proofs.CacheLookups

/-! # What becomes of a cache

`Cache.Change` lists what can happen to a cache: a read that finds something or nothing, a write
for which the clock can show the expiry, the room made for one, a removal, a purge, and time that
passes. What each of them does to the decisions is told by marks.

* `PutLast` says that the last write of a key is still in effect, and what was marked since.
* `marked` is the ideal map: what the marks say about a key if nothing expires and nothing is
  given up. `marked_eq_some_iff` describes it by `PutLast`.
* `Cache.Follows` compares a cache with the ideal map: what is remembered, the ideal map has, and
  without a bound what the ideal map has is remembered unless it has expired. Every change keeps
  this (`Cache.Follows.change`), hence any number of them (`Cache.Follows.changes`). -/

namespace GrantPath

/-- Something that was done to the decisions of a cache. -/
inductive Mark where
  | put (key : DecisionKey) (allowed : Bool) (instant : Nat)
  /-- A read that found a decision. -/
  | read (key : DecisionKey)
  | remove (key : DecisionKey)
  | invalidate (principal : String)
  | clear
deriving DecidableEq, Repr

namespace Mark

/-- What was put under the key before is in effect no more. -/
def Ends (key : DecisionKey) : Mark → Prop
  | put k _ _ => k = key
  | read _ => False
  | remove k => k = key
  | invalidate principal => key.principal = principal
  | clear => True

instance (key : DecisionKey) : (m : Mark) → Decidable (m.Ends key)
  | put k _ _ => inferInstanceAs (Decidable (k = key))
  | read _ => .isFalse id
  | remove k => inferInstanceAs (Decidable (k = key))
  | invalidate principal => inferInstanceAs (Decidable (key.principal = principal))
  | clear => .isTrue True.intro

/-- Whether the clock can show when the decision expires, if one is put. -/
def isShown (ttl : Nat) : Mark → Bool
  | put _ _ instant => instant + ttl < Clock.horizon
  | _ => true

/-- What is under the key afterwards if nothing expires. -/
def effect (ttl : Nat) (key : DecisionKey) : Mark → Option Decision → Option Decision
  | put k allowed instant, d => if key = k then some ⟨allowed, instant + ttl, 0⟩ else d
  | read k, d => if key = k then d.map fun d => { d with hits := d.hits + 1 } else d
  | remove k, d => if key = k then none else d
  | invalidate principal, d => if key.principal = principal then none else d
  | clear, _ => none

variable {ttl : Nat} {key : DecisionKey} {d d₀ : Decision}

/-- What appears where nothing was appears whatever was there. -/
theorem effect_of_none (m : Mark) (h : m.effect ttl key none = some d) (x : Option Decision) :
    m.effect ttl key x = some d := by
  cases m with
  | put k allowed instant =>
      simp only [effect] at h ⊢
      split at h
      · rename_i hk
        rw [if_pos hk, h]
      · cases h
  | read k => simp [effect] at h
  | remove k => simp [effect] at h
  | invalidate principal => simp [effect] at h
  | clear => cases h

/-- What is there afterwards was put there now or expires when it did before. -/
theorem effect_of_some (m : Mark) (h : m.effect ttl key (some d₀) = some d) :
    m.effect ttl key none = some d ∨ d.expiresAt = d₀.expiresAt := by
  cases m with
  | put k allowed instant =>
      simp only [effect] at h ⊢
      split
      · rename_i hk
        rw [if_pos hk] at h
        exact .inl h
      · rename_i hk
        rw [if_neg hk] at h
        cases h
        exact .inr rfl
  | read k =>
      simp only [effect] at h
      split at h
      · cases h
        exact .inr rfl
      · cases h
        exact .inr rfl
  | remove k =>
      simp only [effect] at h
      split at h
      · cases h
      · cases h
        exact .inr rfl
  | invalidate principal =>
      simp only [effect] at h
      split at h
      · cases h
      · cases h
        exact .inr rfl
  | clear => cases h

end Mark

/-! ### The ideal map -/

/-- What the marks, the latest first, say is under a key if nothing expires. -/
def marked (ttl : Nat) (key : DecisionKey) : List Mark → Option Decision
  | [] => none
  | m :: ms => m.effect ttl key (marked ttl key ms)

/-- The last write of the key put this answer there at this instant, and of the later marks none
ends it. -/
def PutLast (ms : List Mark) (key : DecisionKey) (allowed : Bool) (instant : Nat)
    (later : List Mark) : Prop :=
  ∃ earlier, ms = later ++ .put key allowed instant :: earlier ∧ ∀ m ∈ later, ¬ m.Ends key

section marked

variable {ttl instant : Nat} {key : DecisionKey} {allowed : Bool} {ms later : List Mark}
  {m : Mark} {d : Decision}

theorem putLast_cons_iff : PutLast (m :: ms) key allowed instant later ↔
    later = [] ∧ m = .put key allowed instant ∨
      ∃ rest, later = m :: rest ∧ ¬ m.Ends key ∧ PutLast ms key allowed instant rest := by
  constructor
  · rintro ⟨earlier, hms, hlater⟩
    cases later with
    | nil =>
        obtain ⟨rfl, -⟩ := List.cons.inj hms
        exact .inl ⟨rfl, rfl⟩
    | cons m' rest =>
        obtain ⟨rfl, rfl⟩ := List.cons.inj hms
        refine .inr ⟨rest, rfl, hlater m (List.mem_cons_self ..), earlier, rfl, ?_⟩
        intro m' hm'
        exact hlater m' (List.mem_cons_of_mem _ hm')
  · rintro (⟨rfl, rfl⟩ | ⟨rest, rfl, hm, earlier, rfl, hrest⟩)
    · exact ⟨ms, rfl, by simp⟩
    · refine ⟨earlier, rfl, ?_⟩
      intro m' hm'
      rcases List.mem_cons.mp hm' with rfl | hm'
      · exact hm
      · exact hrest m' hm'

/-- A mark that ends what was there leaves nothing or what it puts there itself. -/
theorem effect_of_ends (h : m.Ends key) {x : Option Decision} :
    m.effect ttl key x = some d ↔
      ∃ allowed instant, m = .put key allowed instant ∧ d = ⟨allowed, instant + ttl, 0⟩ := by
  cases m with
  | put k allowed instant =>
      obtain rfl : k = key := h
      simp only [Mark.effect, if_true, Option.some.injEq, Mark.put.injEq, true_and]
      constructor
      · rintro rfl
        exact ⟨allowed, instant, ⟨rfl, rfl⟩, rfl⟩
      · rintro ⟨_, _, ⟨rfl, rfl⟩, rfl⟩
        rfl
  | read k => exact absurd h id
  | remove k =>
      obtain rfl : k = key := h
      simp [Mark.effect]
  | invalidate principal =>
      obtain rfl : key.principal = principal := h
      simp [Mark.effect]
  | clear => simp [Mark.effect]

/-- A mark that ends nothing counts a read of its key. -/
theorem effect_of_not_ends (h : ¬ m.Ends key) {x : Option Decision} :
    m.effect ttl key x = x.map fun d =>
      { d with hits := d.hits + if m = .read key then 1 else 0 } := by
  have hid : ∀ x : Option Decision, x = x.map fun d => { d with hits := d.hits + 0 } := by
    intro x
    cases x <;> rfl
  cases m with
  | put k allowed instant =>
      have hk : ¬ key = k := fun e => h e.symm
      simp only [Mark.effect, if_neg hk, reduceCtorEq, if_false]
      exact hid x
  | read k =>
      by_cases hk : key = k
      · subst hk
        simp only [Mark.effect, if_true]
      · have hk' : ¬ k = key := fun e => hk e.symm
        simp only [Mark.effect, if_neg hk, Mark.read.injEq, hk', if_false]
        exact hid x
  | remove k =>
      have hk : ¬ key = k := fun e => h e.symm
      simp only [Mark.effect, if_neg hk, reduceCtorEq, if_false]
      exact hid x
  | invalidate principal =>
      have hk : ¬ key.principal = principal := h
      simp only [Mark.effect, if_neg hk, reduceCtorEq, if_false]
      exact hid x
  | clear => exact absurd True.intro h

/-- The ideal map has the last write that is still in effect, and counts the reads since. -/
theorem marked_eq_some_iff : marked ttl key ms = some d ↔
    ∃ instant later, PutLast ms key d.allowed instant later ∧ d.expiresAt = instant + ttl ∧
      d.hits = later.count (.read key) := by
  induction ms generalizing d with
  | nil =>
      constructor
      · intro h
        cases h
      · rintro ⟨instant, later, ⟨earlier, hms, -⟩, -, -⟩
        simp at hms
  | cons m ms ih =>
      show m.effect ttl key (marked ttl key ms) = some d ↔ _
      by_cases hm : m.Ends key
      · rw [effect_of_ends hm]
        constructor
        · rintro ⟨allowed, instant, rfl, rfl⟩
          exact ⟨instant, [], putLast_cons_iff.mpr (.inl ⟨rfl, rfl⟩), rfl, rfl⟩
        · rintro ⟨instant, later, hput, hx, hhits⟩
          rcases putLast_cons_iff.mp hput with ⟨rfl, rfl⟩ | ⟨rest, -, hm', -⟩
          · obtain ⟨allowed, expiresAt, hits⟩ := d
            simp only [List.count_nil] at hx hhits
            exact ⟨allowed, instant, rfl, by rw [hx, hhits]⟩
          · exact absurd hm hm'
      · rw [effect_of_not_ends hm, Option.map_eq_some_iff]
        constructor
        · rintro ⟨d₀, hd₀, rfl⟩
          obtain ⟨instant, later, hput, hx, hhits⟩ := ih.mp hd₀
          refine ⟨instant, m :: later, putLast_cons_iff.mpr (.inr ⟨later, rfl, hm, hput⟩), hx, ?_⟩
          rw [List.count_cons, ← hhits]
          simp only [beq_iff_eq]
        · rintro ⟨instant, later, hput, hx, hhits⟩
          rcases putLast_cons_iff.mp hput with ⟨-, rfl⟩ | ⟨rest, rfl, -, hput⟩
          · exact absurd rfl hm
          · refine ⟨{ d with hits := rest.count (.read key) },
              ih.mpr ⟨instant, rest, hput, hx, rfl⟩, ?_⟩
            rw [List.count_cons] at hhits
            simp only [beq_iff_eq] at hhits
            rw [← hhits]

end marked

namespace Cache

/-! ### Changes -/

/-- What happens to a cache from one reading of the clock to another, with what is marked of it. -/
inductive Change : Cache → Nat → List Mark → Cache → Nat → Prop
  | wait {c now} (nanos : Nat) : Change c now [] c (now + nanos)
  | hit {c now} {key : DecisionKey} {allowed : Bool} (h : c.peek key now = .live allowed) :
      Change c now [.read key] (c.get key now).2 now
  | miss {c now} {key : DecisionKey} (h : ∀ allowed, c.peek key now ≠ .live allowed) :
      Change c now [] (c.get key now).2 now
  | makeRoom {c now} (key : DecisionKey) : Change c now [] (c.makeRoomFor key now).2 now
  | write {c now} (key : DecisionKey) (allowed : Bool) (h : c.outlivesClock now = false) :
      Change c now [.put key allowed now] (c.written key allowed now) now
  | remove {c now} (key : DecisionKey) : Change c now [.remove key] (c.remove key).2 now
  | invalidate {c now} (principal : String) :
      Change c now [.invalidate principal] (c.invalidate principal).2 now
  | purge {c now} : Change c now [] (c.purge now).2 now
  | clear {c now} : Change c now [.clear] c.clear now

/-- Any number of changes one after the other, with their marks, the latest first. -/
inductive Changes : Cache → Nat → List Mark → Cache → Nat → Prop
  | refl {c now} : Changes c now [] c now
  | tail {c c' c'' now now' now'' ms ms'}
      (h : Changes c now ms c' now') (h' : Change c' now' ms' c'' now'') :
      Changes c now (ms' ++ ms) c'' now''

section changes

variable {c c' c'' : Cache} {now now' now'' : Nat} {ms ms' : List Mark}

theorem Change.once (h : Change c now ms c' now') : Changes c now ms c' now' := by
  have hchanges := Changes.refl.tail h
  rwa [List.append_nil] at hchanges

theorem Changes.trans (h : Changes c now ms c' now') (h' : Changes c' now' ms' c'' now'') :
    Changes c now (ms' ++ ms) c'' now'' := by
  induction h' with
  | refl => exact h
  | tail _ hlast ih =>
      rw [List.append_assoc]
      exact (ih h).tail hlast

theorem Change.limits_eq (h : Change c now ms c' now') : c'.limits = c.limits := by
  cases h with
  | wait => rfl
  | hit h => exact limits_get ..
  | miss h => exact limits_get ..
  | makeRoom key => exact limits_makeRoomFor ..
  | write key allowed h => exact limits_written ..
  | remove key => exact limits_remove ..
  | invalidate principal => exact limits_invalidate ..
  | purge => exact limits_purge ..
  | clear => exact limits_clear ..

theorem Changes.limits_eq (h : Changes c now ms c' now') : c'.limits = c.limits := by
  induction h with
  | refl => rfl
  | tail _ hlast ih => exact hlast.limits_eq.trans ih

end changes

/-! ### The cache and the ideal map -/

/-- What the cache remembers the ideal map has, and without a bound it remembers what the ideal
map has and has not expired. -/
structure Follows (ttl capacity : Nat) (ms : List Mark) (c : Cache) (now : Nat) : Prop where
  limits : c.limits = some (ttl, capacity)
  honest : ∀ key d, c.find? key = some d → marked ttl key ms = some d
  kept : capacity = 0 → ∀ key d, marked ttl key ms = some d → now < d.expiresAt →
    c.find? key = some d

namespace Follows

variable {ttl capacity now now' : Nat} {ms ms' : List Mark} {c c' : Cache}

/-- An empty cache and no marks agree. -/
theorem of_size_eq_zero (hl : c.limits = some (ttl, capacity)) (hs : c.size = 0) (now : Nat) :
    c.Follows ttl capacity [] now where
  limits := hl
  honest key d hd := by
    rw [find?_eq_none_of_size_eq_zero hs] at hd
    cases hd
  kept _ key d hd _ := by
    cases hd

/-- Without a mark nothing new may be remembered, and without a bound only what has expired may
be lost. -/
theorem forget (h : c.Follows ttl capacity ms now) (hl : c'.limits = c.limits)
    (ht : now ≤ now') (hin : ∀ key d, c'.find? key = some d → c.find? key = some d)
    (hout : capacity = 0 → ∀ key d, c.find? key = some d → now' < d.expiresAt →
      c'.find? key = some d) : c'.Follows ttl capacity ms now' where
  limits := hl.trans h.limits
  honest key d hd := h.honest key d (hin key d hd)
  kept hc key d hd hlt := hout hc key d (h.kept hc key d hd (by omega)) hlt

/-- With a mark nothing may be remembered but what it says, and without a bound nothing of that
may be missing. -/
theorem mark (h : c.Follows ttl capacity ms now) (m : Mark) (hl : c'.limits = c.limits)
    (hin : ∀ key d, c'.find? key = some d → m.effect ttl key (c.find? key) = some d)
    (hout : capacity = 0 → ∀ key d, m.effect ttl key (c.find? key) = some d →
      c'.find? key = some d) : c'.Follows ttl capacity (m :: ms) now where
  limits := hl.trans h.limits
  honest key d hd := by
    show m.effect ttl key (marked ttl key ms) = some d
    have hd := hin key d hd
    cases hfound : c.find? key with
    | none =>
        rw [hfound] at hd
        exact m.effect_of_none hd _
    | some d₀ =>
        rw [hfound] at hd
        rw [h.honest key d₀ hfound]
        exact hd
  kept hc key d hd hlt := by
    apply hout hc
    have hd : m.effect ttl key (marked ttl key ms) = some d := hd
    cases hfound : c.find? key with
    | some d₀ =>
        rw [h.honest key d₀ hfound] at hd
        exact hd
    | none =>
        cases hmarked : marked ttl key ms with
        | none =>
            rw [hmarked] at hd
            exact hd
        | some d₀ =>
            -- what the ideal map has and the cache has not is expired, and stays so
            rw [hmarked] at hd
            rcases m.effect_of_some hd with hd | hx
            · exact hd
            · have := h.kept hc key d₀ hmarked (by omega)
              rw [hfound] at this
              cases this

/-- An operation whose effect is that of the mark. -/
theorem of_effect (h : c.Follows ttl capacity ms now) (m : Mark) (hl : c'.limits = c.limits)
    (heffect : ∀ key, c'.find? key = m.effect ttl key (c.find? key)) :
    c'.Follows ttl capacity (m :: ms) now := by
  refine h.mark m hl ?_ ?_
  · intro key d hd
    rw [← heffect]
    exact hd
  · intro _ key d hd
    rw [heffect]
    exact hd

/-! ### One change at a time -/

theorem wait (h : c.Follows ttl capacity ms now) (nanos : Nat) :
    c.Follows ttl capacity ms (now + nanos) :=
  h.forget rfl (Nat.le_add_right ..) (fun _ _ hd => hd) (fun _ _ _ hd _ => hd)

theorem hit (h : c.Follows ttl capacity ms now) {key : DecisionKey} {allowed : Bool}
    (hlive : c.peek key now = .live allowed) :
    (c.get key now).2.Follows ttl capacity (.read key :: ms) now := by
  obtain ⟨d₀, hd₀, -, hlt⟩ := peek_eq_live_iff.mp hlive
  have heffect : ∀ k, (c.get key now).2.find? k =
      (Mark.read key).effect ttl k (c.find? k) := by
    intro k
    rw [find?_get]
    simp only [Mark.effect]
    split
    · rename_i hk
      rw [hk, hd₀]
      exact Decision.read_eq_some_iff.mpr ⟨hlt, rfl⟩
    · rfl
  exact h.of_effect _ (limits_get ..) heffect

theorem miss (h : c.Follows ttl capacity ms now) {key : DecisionKey}
    (hdead : ∀ allowed, c.peek key now ≠ .live allowed) :
    (c.get key now).2.Follows ttl capacity ms now := by
  have hexpired : ∀ d, c.find? key = some d → ¬ now < d.expiresAt := by
    intro d hd hlt
    exact hdead d.allowed (peek_eq_live_iff.mpr ⟨d, hd, rfl, hlt⟩)
  refine h.forget (limits_get ..) (Nat.le_refl now) ?_ ?_
  · intro k d hd
    rw [find?_get] at hd
    split at hd
    · obtain ⟨d₀, hd₀, hread⟩ := Option.bind_eq_some_iff.mp hd
      exact absurd (Decision.read_eq_some_iff.mp hread).1 (hexpired d₀ hd₀)
    · exact hd
  · intro _ k d hd hlt
    rw [find?_get]
    split
    · rename_i hk
      subst hk
      exact absurd hlt (hexpired d hd)
    · exact hd

theorem makeRoom (h : c.Follows ttl capacity ms now) (key : DecisionKey) :
    (c.makeRoomFor key now).2.Follows ttl capacity ms now := by
  refine h.forget (limits_makeRoomFor ..) (Nat.le_refl now) ?_ ?_
  · intro k d hd
    exact find?_of_makeRoomFor hd
  · rintro rfl k d hd _
    rw [makeRoomFor_of_unbounded (unbounded_of_limits h.limits)]
    exact hd

theorem write (h : c.Follows ttl capacity ms now) (key : DecisionKey) (allowed : Bool) :
    (c.written key allowed now).Follows ttl capacity (.put key allowed now :: ms) now := by
  have hself := find?_written_self key allowed now c
  rw [ttl?_of_limits h.limits] at hself
  refine h.mark _ (limits_written ..) ?_ ?_
  · intro k d hd
    simp only [Mark.effect]
    split
    · rename_i hk
      subst hk
      rw [hself] at hd
      exact hd
    · rename_i hk
      exact find?_of_written hk hd
  · rintro rfl k d hd
    simp only [Mark.effect] at hd
    split at hd
    · rename_i hk
      subst hk
      rw [hself]
      exact hd
    · rename_i hk
      rw [find?_written_of_unbounded (unbounded_of_limits h.limits) hk]
      exact hd

theorem purge (h : c.Follows ttl capacity ms now) :
    (c.purge now).2.Follows ttl capacity ms now := by
  refine h.forget (limits_purge ..) (Nat.le_refl now) ?_ ?_
  · intro key d hd
    rw [find?_purge] at hd
    exact (Option.filter_eq_some_iff.mp hd).1
  · intro _ key d hd hlt
    have hlive : (!d.isExpired now) = true := by
      rw [Bool.not_eq_true', ← Bool.not_eq_true, Decision.isExpired_iff]
      omega
    rw [find?_purge, hd]
    exact Option.filter_eq_some_iff.mpr ⟨rfl, hlive⟩

/-- Every change leaves what its marks say. -/
theorem change (h : c.Follows ttl capacity ms now) (hchange : c.Change now ms' c' now') :
    c'.Follows ttl capacity (ms' ++ ms) now' := by
  cases hchange with
  | wait nanos => exact h.wait nanos
  | hit hlive => exact h.hit hlive
  | miss hdead => exact h.miss hdead
  | makeRoom key => exact h.makeRoom key
  | write key allowed _ => exact h.write key allowed
  | remove key => exact h.of_effect _ (limits_remove ..) fun k => find?_remove key k c
  | invalidate principal =>
      exact h.of_effect _ (limits_invalidate ..) fun k => find?_invalidate k c principal
  | purge => exact h.purge
  | clear => exact h.of_effect _ (limits_clear ..) fun k => find?_clear k c

theorem changes (h : c.Follows ttl capacity ms now) (hchanges : c.Changes now ms' c' now') :
    c'.Follows ttl capacity (ms' ++ ms) now' := by
  induction hchanges with
  | refl => exact h
  | tail _ hlast ih =>
      rw [List.append_assoc]
      exact (ih h).change hlast

end Follows

end Cache

end GrantPath
