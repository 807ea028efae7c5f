import GrantPath.Proofs.CacheLaws
import Mathlib.Data.List.Basic

/-! # What is found after an operation on a cache

Each operation of a cache comes with the equation that says what is found under every key
afterwards.

* A read changes only the key that is read (`Cache.find?_get`): the decision counts the read, or
  is gone if it has expired (`Decision.read`).
* `Cache.find?_remove`, `Cache.find?_invalidate`, `Cache.find?_purge` and `Cache.find?_clear`
  say what is dropped.
* A write leaves a new decision under its key (`Cache.find?_written_self`). Under any other key
  nothing appears (`Cache.find?_of_written`), and without a bound nothing is lost either
  (`Cache.find?_written_of_unbounded`).

`Cache.entries` lists what is found, split into what has expired and what is live. No operation
changes the `Cache.limits`, the time to live and the greatest number of decisions. -/

namespace GrantPath

/-- What a read leaves of a decision: nothing if it has expired, or else the decision with one
more read. -/
def Decision.read (d : Decision) (now : Nat) : Option Decision :=
  if d.isExpired now then none else some { d with hits := d.hits + 1 }

theorem Decision.isExpired_iff {d : Decision} {now : Nat} :
    d.isExpired now = true ↔ d.expiresAt ≤ now := by
  unfold isExpired
  exact decide_eq_true_iff

theorem Decision.read_eq_some_iff {d d' : Decision} {now : Nat} :
    d.read now = some d' ↔ now < d.expiresAt ∧ { d with hits := d.hits + 1 } = d' := by
  unfold read
  split
  · rename_i he
    rw [isExpired_iff] at he
    simp only [reduceCtorEq, false_iff]
    omega
  · rename_i he
    rw [isExpired_iff] at he
    rw [Option.some.injEq]
    exact ⟨fun h => ⟨by omega, h⟩, fun h => h.2⟩

namespace Store

variable (s : Store) (key k : DecisionKey) (now : Nat)

theorem find?_get : (s.get key now).2.find? k =
    if k = key then (s.find? key).bind (·.read now) else s.find? k := by
  unfold get
  cases hd : s.find? key with
  | none =>
      show s.find? k = _
      split
      · rename_i hk
        rw [hk, hd]
        rfl
      · rfl
  | some d =>
      rw [Option.bind_some]
      unfold Decision.read
      by_cases he : d.isExpired now
      · simp only [if_pos he]
        exact Table.get?_erase ..
      · simp only [if_neg he]
        exact Table.get?_insert ..

theorem find?_invalidate (principal : String) : (s.invalidate principal).2.find? k =
    if k.principal = principal then none else s.find? k := by
  show (s.decisions.filter _).get? k = _
  rw [Table.get?_filter]
  show (s.find? k).filter _ = _
  cases s.find? k with
  | none => simp
  | some d => by_cases hk : k.principal = principal <;> simp [hk]

theorem find?_of_evict {k : DecisionKey} {d : Decision} (h : s.evict.find? k = some d) :
    s.find? k = some d := by
  unfold evict at h
  simp only at h
  split at h
  · exact h
  · simp only [find?, Table.get?_erase] at h
    split at h
    · cases h
    · exact h

theorem find?_of_purge {k : DecisionKey} {d : Decision} (h : (s.purge now).2.find? k = some d) :
    s.find? k = some d := by
  have h : (s.decisions.filter _).get? k = some d := h
  rw [Table.get?_filter] at h
  exact (Option.filter_eq_some_iff.mp h).1

theorem find?_of_makeRoomFor {k : DecisionKey} {d : Decision}
    (h : (s.makeRoomFor key now).2.find? k = some d) : s.find? k = some d := by
  unfold makeRoomFor at h
  split at h
  · exact h
  unfold makeRoom at h
  split at h
  · exact h
  simp only at h
  split at h
  · exact s.find?_of_purge now h
  · exact s.find?_of_purge now (find?_of_evict _ h)

end Store

namespace Cache

variable {c : Cache} (key k : DecisionKey) (allowed : Bool) (now : Nat)

theorem find?_get (c : Cache) : (c.get key now).2.find? k =
    if k = key then (c.find? key).bind (·.read now) else c.find? k := by
  cases c with
  | disabled => exact (ite_self none).symm
  | timed s => exact s.find?_get key k now

/-- A read that finds no live decision leaves the cache alone or drops the expired decision. -/
theorem get_of_not_live {c : Cache} {key : DecisionKey} {now : Nat}
    (h : ∀ allowed, c.peek key now ≠ .live allowed) :
    (c.get key now).2 = c ∨
      c.peek key now = .expired ∧ (c.get key now).2 = (c.remove key).2 := by
  cases c with
  | disabled => exact .inl rfl
  | timed s =>
      have h : ∀ allowed, s.peek key now ≠ .live allowed := h
      show timed (s.get key now).2 = _ ∨ s.peek key now = _ ∧ timed (s.get key now).2 = _
      unfold Store.peek at h ⊢
      unfold Store.get
      cases hd : s.find? key with
      | none => exact .inl rfl
      | some d =>
          rw [hd] at h
          by_cases he : d.isExpired now
          · simp only [if_pos he]
            exact .inr ⟨trivial, rfl⟩
          · exact absurd (if_neg he) (h d.allowed)

theorem find?_remove (c : Cache) :
    (c.remove key).2.find? k = if k = key then none else c.find? k := by
  cases c with
  | disabled => exact (ite_self none).symm
  | timed s => exact Table.get?_erase ..

theorem find?_invalidate (c : Cache) (principal : String) : (c.invalidate principal).2.find? k =
    if k.principal = principal then none else c.find? k := by
  cases c with
  | disabled => exact (ite_self none).symm
  | timed s => exact s.find?_invalidate k principal

theorem find?_purge (c : Cache) :
    (c.purge now).2.find? k = (c.find? k).filter (!·.isExpired now) := by
  cases c with
  | disabled => rfl
  | timed s => exact Table.get?_filter ..

/-- A purge keeps what is not expired. -/
theorem Holds.purge {c : Cache} {key : DecisionKey} {allowed : Bool} {now expiry : Nat}
    (h : c.Holds key allowed expiry) (hlive : now < expiry) :
    (c.purge now).2.Holds key allowed expiry := by
  obtain ⟨d, hd, hallowed, hexpiry⟩ := h
  refine ⟨d, ?_, hallowed, hexpiry⟩
  have hkept : ¬ d.isExpired now = true := by
    rw [Decision.isExpired_iff]
    omega
  rw [find?_purge, hd]
  exact Option.filter_some_pos (by simpa using hkept)

@[simp] theorem find?_clear (c : Cache) : c.clear.find? k = none := by
  cases c <;> rfl

/-! ### Writes -/

/-- What is found when room has been made was found before. -/
theorem find?_of_makeRoomFor {c : Cache} {key k : DecisionKey} {now : Nat} {d : Decision}
    (h : (c.makeRoomFor key now).2.find? k = some d) : c.find? k = some d := by
  cases c with
  | disabled => cases h
  | timed s => exact s.find?_of_makeRoomFor key now h

theorem find?_written_self (c : Cache) : (c.written key allowed now).find? key =
    c.ttl?.map fun ttl => ⟨allowed, now + ttl, 0⟩ := by
  rw [← (c.makeRoomFor_within key now).1]
  show ((c.makeRoomFor key now).2.insert key allowed now).find? key = _
  cases (c.makeRoomFor key now).2 with
  | disabled => rfl
  | timed s =>
      show (s.insert key allowed now).find? key = _
      rw [Store.find?_insert, if_pos rfl]
      rfl

variable {key k allowed now}

/-- What is found under another key after a write was found before. -/
theorem find?_of_written {d : Decision} (hne : k ≠ key)
    (h : (c.written key allowed now).find? k = some d) : c.find? k = some d := by
  cases c with
  | disabled => cases h
  | timed s =>
      have h : ((s.makeRoomFor key now).2.insert key allowed now).find? k = some d := h
      rw [Store.find?_insert, if_neg hne] at h
      exact s.find?_of_makeRoomFor key now h

/-- Without a bound a write leaves the other keys alone. -/
theorem find?_written_of_unbounded (hc : c.Unbounded) (hne : k ≠ key) :
    (c.written key allowed now).find? k = c.find? k := by
  simp only [Cache.written, makeRoomFor_of_unbounded hc]
  cases c with
  | disabled => rfl
  | timed s =>
      show (s.insert key allowed now).find? k = s.find? k
      rw [Store.find?_insert, if_neg hne]

/-- What a read finds depends only on what is remembered. -/
theorem peek_congr {c' : Cache} (h : c.find? key = c'.find? key) :
    c.peek key now = c'.peek key now := by
  have hpeek : ∀ c : Cache, c.peek key now = (c.find? key).elim .absent
      fun d => if d.isExpired now then .expired else .live d.allowed := by
    intro c
    cases c with
    | disabled => rfl
    | timed s =>
        simp only [peek, find?, Store.peek]
        cases s.find? key with
        | none => rfl
        | some d => rfl
  rw [hpeek, hpeek, h]

/-! ### Entries -/

/-- The remembered decisions with their keys, expired or not. -/
def entries : Cache → List (DecisionKey × Decision)
  | disabled => []
  | timed s => s.decisions.entries

theorem mem_entries_iff {d : Decision} : (k, d) ∈ c.entries ↔ c.find? k = some d := by
  cases c with
  | disabled => simp [entries, find?]
  | timed s => exact s.decisions.mem_entries_iff k d

theorem length_entries (c : Cache) : c.entries.length = c.size := by
  cases c <;> rfl

/-- The entries that have expired. -/
def expired (c : Cache) (now : Nat) : List (DecisionKey × Decision) :=
  c.entries.filter fun e => e.2.isExpired now

/-- The entries that a read would find. -/
def live (c : Cache) (now : Nat) : List (DecisionKey × Decision) :=
  c.entries.filter fun e => !e.2.isExpired now

theorem length_expired_add_length_live (c : Cache) (now : Nat) :
    (c.expired now).length + (c.live now).length = c.size := by
  rw [← c.length_entries]
  exact (List.length_eq_length_filter_add _).symm

@[simp] theorem entries_purge (c : Cache) (now : Nat) : (c.purge now).2.entries = c.live now := by
  cases c <;> rfl

/-- A purge tells how many decisions have expired. -/
theorem purge_fst (c : Cache) (now : Nat) : (c.purge now).1 = (c.expired now).length := by
  have hsizes := c.length_expired_add_length_live now
  cases c with
  | disabled => rfl
  | timed s =>
      have hcount : ((timed s).purge now).1 = s.decisions.size - ((timed s).live now).length := rfl
      have hsize : (timed s).size = s.decisions.size := rfl
      omega

/-! ### Limits -/

/-- The time to live in nanoseconds and the greatest number of decisions, where 0 means any
number; a disabled cache has neither. -/
def limits : Cache → Option (Nat × Nat)
  | disabled => none
  | timed s => some (s.ttl, s.capacity)

theorem ttl?_of_limits {ttl capacity : Nat} (h : c.limits = some (ttl, capacity)) :
    c.ttl? = some ttl := by
  cases c with
  | disabled => cases h
  | timed s => exact congrArg (Option.map Prod.fst) h

theorem ttl?_congr {c' : Cache} (h : c.limits = c'.limits) : c.ttl? = c'.ttl? := by
  have httl : ∀ c : Cache, c.ttl? = c.limits.map Prod.fst := by
    intro c
    cases c <;> rfl
  rw [httl, httl, h]

theorem unbounded_congr {c' : Cache} (h : c.limits = c'.limits) :
    c.Unbounded ↔ c'.Unbounded := by
  have hunbounded : ∀ c : Cache, c.Unbounded ↔ ∀ l, c.limits = some l → l.2 = 0 := by
    intro c
    cases c <;> simp [Unbounded, limits]
  rw [hunbounded, hunbounded, h]

theorem unbounded_of_limits {ttl : Nat} (h : c.limits = some (ttl, 0)) : c.Unbounded := by
  cases c with
  | disabled => exact True.intro
  | timed s => exact congrArg Prod.snd (Option.some.inj h)

@[simp] theorem limits_get (c : Cache) (key : DecisionKey) (now : Nat) :
    (c.get key now).2.limits = c.limits := by
  cases c with
  | disabled => rfl
  | timed s =>
      show (timed (s.get key now).2).limits = _
      unfold Store.get
      cases s.find? key with
      | none => rfl
      | some d => by_cases he : d.isExpired now <;> simp only [he] <;> rfl

@[simp] theorem limits_evict (s : Store) : (timed s.evict).limits = (timed s).limits := by
  unfold Store.evict
  simp only
  split <;> rfl

@[simp] theorem limits_makeRoomFor (c : Cache) (key : DecisionKey) (now : Nat) :
    (c.makeRoomFor key now).2.limits = c.limits := by
  cases c with
  | disabled => rfl
  | timed s =>
      show (timed (s.makeRoomFor key now).2).limits = _
      unfold Store.makeRoomFor
      split
      · rfl
      unfold Store.makeRoom
      split
      · rfl
      simp only
      split
      · rfl
      · exact limits_evict _

@[simp] theorem limits_written (c : Cache) (key : DecisionKey) (allowed : Bool) (now : Nat) :
    (c.written key allowed now).limits = c.limits := by
  rw [← c.limits_makeRoomFor key now]
  show ((c.makeRoomFor key now).2.insert key allowed now).limits = _
  cases (c.makeRoomFor key now).2 <;> rfl

@[simp] theorem limits_remove (c : Cache) (key : DecisionKey) :
    (c.remove key).2.limits = c.limits := by
  cases c <;> rfl

@[simp] theorem limits_invalidate (c : Cache) (principal : String) :
    (c.invalidate principal).2.limits = c.limits := by
  cases c <;> rfl

@[simp] theorem limits_purge (c : Cache) (now : Nat) : (c.purge now).2.limits = c.limits := by
  cases c <;> rfl

@[simp] theorem limits_clear (c : Cache) : c.clear.limits = c.limits := by
  cases c <;> rfl

theorem outlivesClock_of_limits {c : Cache} {ttl capacity : Nat}
    (h : c.limits = some (ttl, capacity)) (now : Nat) :
    c.outlivesClock now = decide (Clock.horizon ≤ now + ttl) := by
  cases c with
  | disabled => cases h
  | timed s =>
      cases h
      rfl

end Cache

end GrantPath
