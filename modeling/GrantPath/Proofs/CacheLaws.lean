import GrantPath.Decision.Cache

/-! # What the operations of a cache leave

Every operation of a cache but `Cache.insert` only forgets: what is remembered afterwards was
remembered before, with the same answer and the same expiry (`Cache.Within`). `Cache.insert`
adds one decision, which expires a time to live later (`Cache.find?_insert`). A write makes room
and inserts (`Cache.written`). No operation changes the time to live.

A `Cache.Unbounded` one forgets nothing that is not expired: reads and writes keep what it holds
of other keys (`Cache.Holds.get`, `Cache.Holds.written`). -/

namespace GrantPath

/-- Every decision of `t` is one of `s`, up to how often it was read. -/
def Store.Within (t s : Store) : Prop :=
  t.ttl = s.ttl ∧ ∀ key d, t.find? key = some d →
    ∃ d₀, s.find? key = some d₀ ∧ d₀.allowed = d.allowed ∧ d₀.expiresAt = d.expiresAt

namespace Store

theorem Within.refl (s : Store) : s.Within s := by
  refine ⟨rfl, ?_⟩
  intro key d hd
  exact ⟨d, hd, rfl, rfl⟩

theorem Within.trans {r s t : Store} (h : r.Within s) (h' : s.Within t) : r.Within t := by
  refine ⟨h.1.trans h'.1, ?_⟩
  intro key d hd
  obtain ⟨d₁, h₁, ha, he⟩ := h.2 key d hd
  obtain ⟨d₂, h₂, ha', he'⟩ := h'.2 key d₁ h₁
  exact ⟨d₂, h₂, ha'.trans ha, he'.trans he⟩

/-- A store whose lookups all come from another one with the same time to live is within it. -/
theorem Within.of_find? {t s : Store} (ht : t.ttl = s.ttl)
    (h : ∀ key d, t.find? key = some d → s.find? key = some d) : t.Within s := by
  refine ⟨ht, ?_⟩
  intro key d hd
  exact ⟨d, h key d hd, rfl, rfl⟩

theorem erase_within (s : Store) (key : DecisionKey) :
    { s with decisions := s.decisions.erase key }.Within s := by
  refine .of_find? rfl ?_
  intro k d h
  simp only [find?, Table.get?_erase] at h
  split at h
  · cases h
  · exact h

theorem filter_within (s : Store) (p : DecisionKey → Decision → Bool) :
    { s with decisions := s.decisions.filter p }.Within s := by
  refine .of_find? rfl ?_
  intro k d h
  simp only [find?, Table.get?_filter] at h
  exact (Option.filter_eq_some_iff.mp h).1

theorem get_within (s : Store) (key : DecisionKey) (now : Nat) : (s.get key now).2.Within s := by
  unfold get
  cases hk : s.find? key with
  | none => exact .refl s
  | some d₀ =>
      by_cases he : d₀.isExpired now
      · simp only [if_pos he]
        exact s.erase_within key
      · simp only [if_neg he]
        refine ⟨rfl, ?_⟩
        intro k d h
        simp only [find?, Table.get?_insert] at h
        split at h
        · rename_i hkey
          cases h
          exact ⟨d₀, hkey ▸ hk, rfl, rfl⟩
        · exact ⟨d, h, rfl, rfl⟩

theorem purge_within (s : Store) (now : Nat) : (s.purge now).2.Within s :=
  s.filter_within _

theorem evict_within (s : Store) : s.evict.Within s := by
  unfold evict
  simp only
  split
  · exact .refl s
  · exact s.erase_within _

theorem makeRoom_within (s : Store) (now : Nat) : (s.makeRoom now).2.Within s := by
  unfold makeRoom
  split
  · exact .refl s
  · simp only
    split
    · exact s.purge_within now
    · exact (evict_within _).trans (s.purge_within now)

theorem makeRoomFor_within (s : Store) (key : DecisionKey) (now : Nat) :
    (s.makeRoomFor key now).2.Within s := by
  unfold makeRoomFor
  split
  · exact .refl s
  · exact s.makeRoom_within now

theorem find?_insert (s : Store) (key k : DecisionKey) (allowed : Bool) (now : Nat) :
    (s.insert key allowed now).find? k =
      if k = key then some ⟨allowed, now + s.ttl, 0⟩ else s.find? k :=
  Table.get?_insert ..

end Store

namespace Cache

/-- The time to live of a decision in nanoseconds; a disabled cache has none. -/
def ttl? : Cache → Option Nat
  | disabled => none
  | timed s => some s.ttl

/-- The time to live of a decision in nanoseconds. -/
def ttl (c : Cache) : Nat := c.ttl?.getD 0

theorem outlivesClock_congr {c c' : Cache} (h : c.ttl? = c'.ttl?) (now : Nat) :
    c.outlivesClock now = c'.outlivesClock now := by
  cases c <;> cases c' <;> simp_all [ttl?, outlivesClock]

theorem outlivesClock_mono {c : Cache} {now later : Nat} (h : c.outlivesClock now = true)
    (hle : now ≤ later) : c.outlivesClock later = true := by
  cases c with
  | disabled => cases h
  | timed s =>
      simp only [outlivesClock, decide_eq_true_eq] at h ⊢
      omega

/-- Every decision of `t` is one of `s`, up to how often it was read. -/
def Within (t s : Cache) : Prop :=
  t.ttl? = s.ttl? ∧ ∀ key d, t.find? key = some d →
    ∃ d₀, s.find? key = some d₀ ∧ d₀.allowed = d.allowed ∧ d₀.expiresAt = d.expiresAt

theorem Within.refl (s : Cache) : s.Within s := by
  refine ⟨rfl, ?_⟩
  intro key d hd
  exact ⟨d, hd, rfl, rfl⟩

theorem Within.trans {r s t : Cache} (h : r.Within s) (h' : s.Within t) : r.Within t := by
  refine ⟨h.1.trans h'.1, ?_⟩
  intro key d hd
  obtain ⟨d₁, hd₁, ha, he⟩ := h.2 key d hd
  obtain ⟨d₂, hd₂, ha', he'⟩ := h'.2 key d₁ hd₁
  exact ⟨d₂, hd₂, ha'.trans ha, he'.trans he⟩

theorem Within.ttl_eq {t s : Cache} (h : t.Within s) : t.ttl = s.ttl := by
  rw [ttl, ttl, h.1]

theorem Within.of_store {t s : Store} (h : t.Within s) : (timed t).Within (timed s) :=
  ⟨congrArg some h.1, h.2⟩

theorem get_within (c : Cache) (key : DecisionKey) (now : Nat) : (c.get key now).2.Within c := by
  cases c with
  | disabled => exact .refl _
  | timed s => exact .of_store (s.get_within key now)

theorem makeRoomFor_within (c : Cache) (key : DecisionKey) (now : Nat) :
    (c.makeRoomFor key now).2.Within c := by
  cases c with
  | disabled => exact .refl _
  | timed s => exact .of_store (s.makeRoomFor_within key now)

theorem remove_within (c : Cache) (key : DecisionKey) : (c.remove key).2.Within c := by
  cases c with
  | disabled => exact .refl _
  | timed s => exact .of_store (s.erase_within key)

theorem invalidate_within (c : Cache) (principal : String) :
    (c.invalidate principal).2.Within c := by
  cases c with
  | disabled => exact .refl _
  | timed s => exact .of_store (s.filter_within _)

theorem purge_within (c : Cache) (now : Nat) : (c.purge now).2.Within c := by
  cases c with
  | disabled => exact .refl _
  | timed s => exact .of_store (s.purge_within now)

theorem clear_within (c : Cache) : c.clear.Within c := by
  cases c with
  | disabled => exact .refl _
  | timed s =>
      refine ⟨rfl, ?_⟩
      intro key d h
      cases h

@[simp] theorem ttl?_insert (c : Cache) (key : DecisionKey) (allowed : Bool) (now : Nat) :
    (c.insert key allowed now).ttl? = c.ttl? := by
  cases c <;> rfl

/-- What is remembered after an insertion is the new decision or was remembered before. -/
theorem find?_insert {c : Cache} {key k : DecisionKey} {allowed : Bool} {now : Nat}
    {d : Decision} (h : (c.insert key allowed now).find? k = some d) :
    k = key ∧ d.allowed = allowed ∧ d.expiresAt = now + c.ttl ∨
      k ≠ key ∧ c.find? k = some d := by
  cases c with
  | disabled => cases h
  | timed s =>
      change (s.insert key allowed now).find? k = some d at h
      rw [Store.find?_insert] at h
      split at h
      · rename_i hk
        cases h
        exact .inl ⟨hk, rfl, rfl⟩
      · rename_i hk
        exact .inr ⟨hk, h⟩

/-- The cache when room is made for a decision and it is then inserted. A write leaves this if the
clock can show when the decision expires; if not, it leaves the room only. -/
def written (c : Cache) (key : DecisionKey) (allowed : Bool) (now : Nat) : Cache :=
  (c.makeRoomFor key now).2.insert key allowed now

/-- What is remembered after a write is the new decision or was remembered before. -/
theorem find?_written {c : Cache} {key k : DecisionKey} {allowed : Bool} {now : Nat} {d : Decision}
    (h : (c.written key allowed now).find? k = some d) :
    k = key ∧ d.allowed = allowed ∧ d.expiresAt = now + c.ttl ∨
      k ≠ key ∧ ∃ d₀, c.find? k = some d₀ ∧ d₀.allowed = d.allowed ∧
        d₀.expiresAt = d.expiresAt := by
  have hroom := c.makeRoomFor_within key now
  have h : ((c.makeRoomFor key now).2.insert key allowed now).find? k = some d := h
  rcases find?_insert h with ⟨hk, ha, he⟩ | ⟨hk, hd⟩
  · rw [hroom.ttl_eq] at he
    exact .inl ⟨hk, ha, he⟩
  · exact .inr ⟨hk, hroom.2 k d hd⟩

@[simp] theorem ttl?_written (c : Cache) (key : DecisionKey) (allowed : Bool) (now : Nat) :
    (c.written key allowed now).ttl? = c.ttl? :=
  (ttl?_insert ..).trans (c.makeRoomFor_within key now).1

theorem find?_eq_none_of_size_eq_zero {c : Cache} (h : c.size = 0) (key : DecisionKey) :
    c.find? key = none := by
  cases c with
  | disabled => rfl
  | timed s =>
      have hnil : s.decisions.entries = [] := List.length_eq_zero_iff.mp h
      show s.decisions.get? key = none
      rw [s.decisions.get?_eq_none_iff]
      intro d hd
      rw [hnil] at hd
      cases hd

theorem peek_eq_live_iff {c : Cache} {key : DecisionKey} {now : Nat} {allowed : Bool} :
    c.peek key now = .live allowed ↔
      ∃ d, c.find? key = some d ∧ d.allowed = allowed ∧ now < d.expiresAt := by
  cases c with
  | disabled => simp [peek, find?]
  | timed s =>
      simp only [peek, find?, Store.peek]
      cases hk : s.find? key with
      | none => simp
      | some d =>
          by_cases he : d.isExpired now
          · have : ¬ now < d.expiresAt := by simpa [Decision.isExpired] using he
            simp [he, this]
          · have : now < d.expiresAt := by simpa [Decision.isExpired] using he
            simp [he, this]

/-! ### What a cache without a bound keeps -/

/-- There is no greatest number of decisions. -/
def Unbounded : Cache → Prop
  | disabled => True
  | timed s => s.capacity = 0

/-- A decision with this answer and this expiry is remembered, expired or not. -/
def Holds (c : Cache) (key : DecisionKey) (allowed : Bool) (expiry : Nat) : Prop :=
  ∃ d, c.find? key = some d ∧ d.allowed = allowed ∧ d.expiresAt = expiry

variable {c : Cache} {key k : DecisionKey} {allowed a : Bool} {now expiry : Nat}

theorem makeRoomFor_of_unbounded (h : c.Unbounded) (key : DecisionKey) (now : Nat) :
    c.makeRoomFor key now = (0, c) := by
  cases c with
  | disabled => rfl
  | timed s =>
      have hcapacity : s.capacity = 0 := h
      have hroom : s.makeRoomFor key now = (0, s) := by
        simp [Store.makeRoomFor, Store.makeRoom, hcapacity]
      simp only [makeRoomFor, hroom]

theorem Unbounded.get (h : c.Unbounded) (key : DecisionKey) (now : Nat) :
    (c.get key now).2.Unbounded := by
  cases c with
  | disabled => exact h
  | timed s =>
      have hcapacity : s.capacity = 0 := h
      show (s.get key now).2.capacity = 0
      unfold Store.get
      cases s.find? key with
      | none => exact hcapacity
      | some d => by_cases he : d.isExpired now <;> simp [he, hcapacity]

theorem Unbounded.written (h : c.Unbounded) (key : DecisionKey) (allowed : Bool) (now : Nat) :
    (c.written key allowed now).Unbounded := by
  simp only [Cache.written, makeRoomFor_of_unbounded h]
  cases c with
  | disabled => exact h
  | timed s => exact h

/-- A read keeps what is not expired. -/
theorem Holds.get (h : c.Holds k a expiry) (hlive : now < expiry) (key : DecisionKey) :
    (c.get key now).2.Holds k a expiry := by
  obtain ⟨d, hd, ha, he⟩ := h
  cases c with
  | disabled => cases hd
  | timed s =>
      have hd : s.find? k = some d := hd
      show ∃ d, (s.get key now).2.find? k = some d ∧ _
      unfold Store.get
      cases hk : s.find? key with
      | none => exact ⟨d, hd, ha, he⟩
      | some d₀ =>
          by_cases heq : k = key
          · subst heq
            obtain rfl : d = d₀ := Option.some.inj (hd.symm.trans hk)
            have hexpired : ¬ d.isExpired now := by
              simp only [Decision.isExpired, decide_eq_true_eq]
              omega
            simp only [if_neg hexpired]
            exact ⟨_, Table.get?_insert_self .., ha, he⟩
          · by_cases hexpired : d₀.isExpired now
            · simp only [if_pos hexpired, Store.find?, Table.get?_erase, if_neg heq]
              exact ⟨d, hd, ha, he⟩
            · simp only [if_neg hexpired, Store.find?, Table.get?_insert, if_neg heq]
              exact ⟨d, hd, ha, he⟩

/-- A write of another key keeps what is held. -/
theorem Holds.written (h : c.Holds k a expiry) (hc : c.Unbounded) (hne : k ≠ key) (allowed : Bool)
    (now : Nat) : (c.written key allowed now).Holds k a expiry := by
  obtain ⟨d, hd, ha, he⟩ := h
  simp only [Cache.written, makeRoomFor_of_unbounded hc]
  cases c with
  | disabled => cases hd
  | timed s =>
      have hd : s.find? k = some d := hd
      refine ⟨d, ?_, ha, he⟩
      show (s.insert key allowed now).find? k = some d
      rw [Store.find?_insert, if_neg hne, hd]

/-- What was written last is held for a time to live. -/
theorem holds_written {ttl : Nat} (hc : c.ttl? = some ttl) (key : DecisionKey) (allowed : Bool)
    (now : Nat) : (c.written key allowed now).Holds key allowed (now + ttl) := by
  have hroom := c.makeRoomFor_within key now
  have httl : (c.makeRoomFor key now).2.ttl? = some ttl := hroom.1.trans hc
  show (((c.makeRoomFor key now).2).insert key allowed now).Holds key allowed (now + ttl)
  generalize (c.makeRoomFor key now).2 = c' at httl
  cases c' with
  | disabled => cases httl
  | timed s =>
      obtain rfl : s.ttl = ttl := Option.some.inj httl
      refine ⟨⟨allowed, now + s.ttl, 0⟩, ?_, rfl, rfl⟩
      show (s.insert key allowed now).find? key = _
      rw [Store.find?_insert, if_pos rfl]

theorem Holds.peek (h : c.Holds key allowed expiry) (hlive : now < expiry) :
    c.peek key now = .live allowed := by
  obtain ⟨d, hd, hallowed, rfl⟩ := h
  exact peek_eq_live_iff.mpr ⟨d, hd, hallowed, hlive⟩

end Cache

end GrantPath
