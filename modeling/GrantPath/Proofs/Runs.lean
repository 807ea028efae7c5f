import GrantPath.Proofs.CacheLaws
import GrantPath.Search
import Mathlib.Logic.Relation

/-! # What queries do to a run

`Run.Act` lists the things that a query does to a run, one at a time, and `Run.Reaches` any
number of them one after the other. What every act keeps, every query keeps:

* the journal only grows (`Reaches.journal_suffix`), the monotonic clock does not go back
  (`Reaches.elapsed_le`) and the time to live stays (`Reaches.ttl?_eq`);
* a run that is `Run.Recorded` stays so: every remembered decision was written, a decision
  that was read had been written less than a time to live before, and nothing happened later
  than now.

`Run.Throughout` says of two runs that everything that happened from one to the other has a
property, and `Run.Knows` what a read would find. -/

namespace GrantPath

variable {σ : Type}

/-- The clocks when something happened. -/
def Event.clock : Event → Clock
  | call _ _ clock => clock
  | read _ _ clock => clock
  | write _ _ clock => clock
  | search _ clock => clock

namespace Run

/-! ### One operation at a time -/

section operations

variable (svc : Service σ) (q : Request) (r : Run σ) (key : DecisionKey) (allowed : Bool)

@[simp] theorem ask_fst : (r.ask svc q).1 = (svc.reply q r.state).answer := rfl

@[simp] theorem ask_state : (r.ask svc q).2.state = (svc.reply q r.state).state := rfl

@[simp] theorem ask_clock :
    (r.ask svc q).2.clock = r.clock.advance (svc.reply q r.state).nanos := rfl

@[simp] theorem count_clock (o : Occurrence) : (r.count o).clock = r.clock := rfl

@[simp] theorem advance_clock (nanos : Nat) : (r.advance nanos).clock = r.clock.advance nanos := rfl

@[simp] theorem advance_overrun (nanos : Nat) : (r.advance nanos).overrun = r.overrun := rfl

@[simp] theorem see_state (m : GroupMember) : (r.see m).state = r.state := rfl

/-- A read finds what is live. -/
theorem readCache_eq_some_iff {r : Run σ} {key : DecisionKey} {allowed : Bool} :
    (r.readCache key).1 = some allowed ↔ r.cache.peek key r.clock.elapsed = .live allowed := by
  rw [← Cache.get_fst]
  simp only [readCache]
  split <;> simp_all

@[simp] theorem readCache_cache :
    (r.readCache key).2.cache = (r.cache.get key r.clock.elapsed).2 := by
  simp only [readCache]
  split <;> rfl

@[simp] theorem readCache_clock : (r.readCache key).2.clock = r.clock := by
  simp only [readCache]
  split <;> rfl

@[simp] theorem readCache_state : (r.readCache key).2.state = r.state := by
  simp only [readCache]
  split <;> rfl

@[simp] theorem readCache_journal :
    (r.readCache key).2.journal = .read key (r.readCache key).1 r.clock :: r.journal := by
  simp only [readCache]
  split <;> rfl

@[simp] theorem readCache_overrun : (r.readCache key).2.overrun = r.overrun := by
  simp only [readCache]
  split <;> rfl

/-- A write that overruns goes on as if the clock could show the decision's expiry. -/
theorem writeCache_cache :
    (r.writeCache key allowed).cache = r.cache.written key allowed r.clock.elapsed := by
  simp only [writeCache, makeRoomFor, countCleanup, overrunIf, Cache.written]
  split <;> rfl

@[simp] theorem writeCache_clock : (r.writeCache key allowed).clock = r.clock := by
  simp only [writeCache, makeRoomFor, countCleanup, overrunIf]
  split <;> rfl

@[simp] theorem writeCache_state : (r.writeCache key allowed).state = r.state := by
  simp only [writeCache, makeRoomFor, countCleanup, overrunIf]
  split <;> rfl

@[simp] theorem writeCache_journal :
    (r.writeCache key allowed).journal = .write key allowed r.clock :: r.journal := by
  simp only [writeCache, makeRoomFor, countCleanup, overrunIf]
  split <;> rfl

/-- What is remembered after a write is the new decision or was remembered before. -/
theorem find?_writeCache {r : Run σ} {key k : DecisionKey} {allowed : Bool} {d : Decision}
    (h : (r.writeCache key allowed).cache.find? k = some d) :
    k = key ∧ d.allowed = allowed ∧ d.expiresAt = r.clock.elapsed + r.cache.ttl ∨
      k ≠ key ∧ ∃ d₀, r.cache.find? k = some d₀ ∧ d₀.allowed = d.allowed ∧
        d₀.expiresAt = d.expiresAt := by
  rw [writeCache_cache] at h
  exact Cache.find?_written h

@[simp] theorem writeCache_ttl? : (r.writeCache key allowed).cache.ttl? = r.cache.ttl? := by
  rw [writeCache_cache, Cache.ttl?_written]

@[simp] theorem purge_cache : r.purge.2.cache = (r.cache.purge r.clock.elapsed).2 := rfl

@[simp] theorem purge_clock : r.purge.2.clock = r.clock := by
  simp only [purge, countCleanup]
  split <;> rfl

@[simp] theorem purge_state : r.purge.2.state = r.state := by
  simp only [purge, countCleanup]
  split <;> rfl

@[simp] theorem purge_overrun : r.purge.2.overrun = r.overrun := by
  simp only [purge, countCleanup]
  split <;> rfl

@[simp] theorem makeRoomFor_clock : (r.makeRoomFor key).clock = r.clock := by
  simp only [makeRoomFor, countCleanup]
  split <;> rfl

@[simp] theorem makeRoomFor_overrun : (r.makeRoomFor key).overrun = r.overrun := by
  simp only [makeRoomFor, countCleanup]
  split <;> rfl

theorem writeCache_overrun_eq :
    (r.writeCache key allowed).overrun =
      if r.cache.outlivesClock r.clock.elapsed then
        r.overrun <|> some (r.makeRoomFor key).toStanding
      else r.overrun := by
  rw [← r.makeRoomFor_overrun key]
  rfl

/-- Only a decision that outlives the clock makes a run overrun. -/
theorem writeCache_overrun (h : r.cache.outlivesClock r.clock.elapsed = false) :
    (r.writeCache key allowed).overrun = r.overrun := by
  simp [writeCache, overrunIf, h]

theorem writeCache_overrun_eq_none_iff :
    (r.writeCache key allowed).overrun = none ↔
      r.overrun = none ∧ r.cache.outlivesClock r.clock.elapsed = false := by
  rw [writeCache_overrun_eq]
  cases r.cache.outlivesClock r.clock.elapsed <;> simp

/-- There is room for what memory has room for. -/
theorem setAside_of_le {capacity : Nat} (h : capacity ≤ SeenGroups.maxCapacity) (r : Run σ) :
    r.setAside capacity = r := by
  have hroom : ¬ SeenGroups.maxCapacity < capacity := Nat.not_lt.mpr h
  simp only [setAside, overrunIf, hroom, decide_false, Bool.false_eq_true, if_false]

theorem overrunIf_ne_none {r : Run σ} {outOfReach : Bool}
    (h : outOfReach = true ∨ r.overrun ≠ none) : (r.overrunIf outOfReach).overrun ≠ none := by
  unfold overrunIf
  cases outOfReach with
  | true => cases r.overrun <;> simp
  | false => exact h.resolve_left nofun

end operations

/-! ### How far a machine gets -/

/-- How things stand as far as a machine gets: when the run first overran or, if it did not, in the
end. -/
def reached (r : Run σ) : Standing σ :=
  r.overrun.getD r.toStanding

theorem reached_of_none {r : Run σ} (h : r.overrun = none) : r.reached = r.toStanding := by
  unfold reached
  rw [h]
  rfl

theorem overrunIf_reached (r : Run σ) (outOfReach : Bool) :
    (r.overrunIf outOfReach).reached = r.reached := by
  unfold overrunIf reached
  cases outOfReach with
  | false => rfl
  | true => cases h : r.overrun <;> rfl

/-- A machine does not get past the room made for a decision that outlives the clock. -/
theorem writeCache_reached {r : Run σ} (h : r.overrun = none) (key : DecisionKey) (allowed : Bool) :
    (r.writeCache key allowed).reached =
      if r.cache.outlivesClock r.clock.elapsed then (r.makeRoomFor key).toStanding
      else (r.writeCache key allowed).toStanding := by
  have hoverrun := r.writeCache_overrun_eq key allowed
  rw [h] at hoverrun
  unfold reached
  rw [hoverrun]
  split <;> rfl

/-- An act that does not overrun is carried out to its end. -/
theorem withinReach_of_none {α : Type} {r : Run σ} {act : Run σ → α × Run σ}
    (h : (act { r with overrun := none }).2.overrun = none) :
    (r.withinReach act).toStanding = (act { r with overrun := none }).2.toStanding :=
  reached_of_none h

/-! ### What a read would find -/

/-- A read would find this decision. -/
def Knows (r : Run σ) (key : DecisionKey) (allowed : Bool) : Prop :=
  r.cache.peek key r.clock.elapsed = .live allowed

theorem knows_iff {r : Run σ} {key : DecisionKey} {allowed : Bool} :
    r.Knows key allowed ↔
      ∃ d, r.cache.find? key = some d ∧ d.allowed = allowed ∧ r.clock.elapsed < d.expiresAt :=
  Cache.peek_eq_live_iff

theorem readCache_of_knows {r : Run σ} {key : DecisionKey} {allowed : Bool}
    (h : r.Knows key allowed) : r.readCache key = (some allowed, (r.readCache key).2) :=
  Prod.ext (readCache_eq_some_iff.mpr h) rfl

theorem readCache_of_not_knows {r : Run σ} {key : DecisionKey}
    (h : ∀ allowed, ¬ r.Knows key allowed) : r.readCache key = (none, (r.readCache key).2) := by
  refine Prod.ext (Option.eq_none_iff_forall_ne_some.mpr fun allowed hsome => ?_) rfl
  exact h allowed (readCache_eq_some_iff.mp hsome)

/-- An operation that only forgets, while time may pass, leaves no new decision to be found. -/
theorem Knows.of_within {r r' : Run σ} (hc : r'.cache.Within r.cache)
    (ht : r.clock.elapsed ≤ r'.clock.elapsed) {key : DecisionKey} {allowed : Bool}
    (h : r'.Knows key allowed) : r.Knows key allowed := by
  obtain ⟨d, hd, ha, he⟩ := knows_iff.mp h
  obtain ⟨d₀, hd₀, ha₀, he₀⟩ := hc.2 key d hd
  exact knows_iff.mpr ⟨d₀, hd₀, ha₀.trans ha, by omega⟩

/-- After a write a read finds what was written or what it would have found before. -/
theorem Knows.of_writeCache {r : Run σ} {key k : DecisionKey} {allowed a : Bool}
    (h : (r.writeCache key allowed).Knows k a) : k = key ∧ a = allowed ∨ r.Knows k a := by
  obtain ⟨d, hd, ha, he⟩ := knows_iff.mp h
  rw [writeCache_clock] at he
  rcases find?_writeCache hd with ⟨hk, ha', -⟩ | ⟨-, d₀, hd₀, ha₀, he₀⟩
  · exact .inl ⟨hk, ha.symm.trans ha'⟩
  · exact .inr (knows_iff.mpr ⟨d₀, hd₀, ha₀.trans ha, by omega⟩)

/-- Every decision that a read would find has the property. -/
def Upholds (P : DecisionKey → Bool → Prop) (r : Run σ) : Prop :=
  ∀ key allowed, r.Knows key allowed → P key allowed

theorem upholds_of_empty {P : DecisionKey → Bool → Prop} {r : Run σ} (h : r.cache.size = 0) :
    r.Upholds P := by
  intro key allowed hknows
  obtain ⟨d, hd, -, -⟩ := knows_iff.mp hknows
  rw [Cache.find?_eq_none_of_size_eq_zero h key] at hd
  cases hd

theorem Upholds.imp {P Q : DecisionKey → Bool → Prop} {r : Run σ} (h : r.Upholds P)
    (hPQ : ∀ key allowed, P key allowed → Q key allowed) : r.Upholds Q :=
  fun key allowed hk => hPQ key allowed (h key allowed hk)

theorem Upholds.of_within {P : DecisionKey → Bool → Prop} {r r' : Run σ} (h : r.Upholds P)
    (hc : r'.cache.Within r.cache) (ht : r.clock.elapsed ≤ r'.clock.elapsed) : r'.Upholds P :=
  fun key allowed hk => h key allowed (hk.of_within hc ht)

theorem Upholds.writeCache {P : DecisionKey → Bool → Prop} {r : Run σ} (h : r.Upholds P)
    {key : DecisionKey} {allowed : Bool} (hP : P key allowed) :
    (r.writeCache key allowed).Upholds P := by
  intro k b hk
  rcases hk.of_writeCache with ⟨rfl, rfl⟩ | hk
  · exact hP
  · exact h k b hk

theorem Upholds.count {P : DecisionKey → Bool → Prop} {r : Run σ} (h : r.Upholds P)
    (o : Occurrence) : (r.count o).Upholds P := h

theorem Upholds.readCache {P : DecisionKey → Bool → Prop} {r : Run σ} (h : r.Upholds P)
    (key : DecisionKey) : (r.readCache key).2.Upholds P := by
  refine h.of_within ?_ (by simp)
  rw [readCache_cache]
  exact r.cache.get_within key r.clock.elapsed

/-! ### One act after the other -/

/-- Something that a query does to a run. -/
inductive Act (svc : Service σ) : Run σ → Run σ → Prop
  | ask (q : Request) (r : Run σ) : Act svc r (r.ask svc q).2
  | count (o : Occurrence) (r : Run σ) : Act svc r (r.count o)
  | see (m : GroupMember) (r : Run σ) : Act svc r (r.see m)
  | read (key : DecisionKey) (r : Run σ) : Act svc r (r.readCache key).2
  | write (key : DecisionKey) (allowed : Bool) (r : Run σ) : Act svc r (r.writeCache key allowed)
  | beginSearch (key : DecisionKey) (seen : SeenGroups) (r : Run σ) :
      Act svc r (r.beginSearch key seen)

/-- Any number of acts lead from one run to the other. -/
abbrev Reaches (svc : Service σ) : Run σ → Run σ → Prop :=
  Relation.ReflTransGen (Act svc)

variable {svc : Service σ} {r r' : Run σ}

theorem Act.reaches (h : Act svc r r') : Reaches svc r r' := .single h

theorem prewarm_reaches (key : DecisionKey) (allowed : Bool) (r : Run σ) :
    Reaches svc r ((r.writeCache key allowed).count .cachePrewarm) :=
  (Act.write key allowed r).reaches.tail (.count _ _)

/-- A refresh leaves what the computation left, with its decision written unless it failed. -/
theorem forceRefresh_cases (key : DecisionKey) (compute : Run σ → Except Error Bool × Run σ)
    (r : Run σ) :
    (∃ e r', compute r = (.error e, r') ∧ r.forceRefresh key compute = (.error e, r')) ∨
      ∃ allowed r', compute r = (.ok allowed, r') ∧ r.forceRefresh key compute =
        (.ok allowed, (r'.writeCache key allowed).count .cachePrewarm) := by
  unfold forceRefresh
  rcases compute r with ⟨e | allowed, r'⟩
  · exact .inl ⟨e, r', rfl, rfl⟩
  · exact .inr ⟨allowed, r', rfl, rfl⟩

/-- An act adds at most one event, and that event happens now. -/
theorem Act.journal (h : Act svc r r') :
    r'.journal = r.journal ∨ ∃ e, r'.journal = e :: r.journal ∧ e.clock = r'.clock := by
  cases h with
  | ask q r => exact .inr ⟨_, rfl, rfl⟩
  | count o r => exact .inl rfl
  | see m r => exact .inl rfl
  | read key r => exact .inr ⟨_, r.readCache_journal key, (r.readCache_clock key).symm⟩
  | write key allowed r =>
      exact .inr ⟨_, r.writeCache_journal key allowed, (r.writeCache_clock key allowed).symm⟩
  | beginSearch key seen r => exact .inr ⟨_, rfl, rfl⟩

theorem Act.elapsed_le (h : Act svc r r') : r.clock.elapsed ≤ r'.clock.elapsed := by
  cases h with
  | ask q r => simp
  | read key r => simp
  | write key allowed r => simp
  | _ => exact Nat.le_refl _

theorem Act.ttl?_eq (h : Act svc r r') : r'.cache.ttl? = r.cache.ttl? := by
  cases h with
  | read key r => rw [readCache_cache, (r.cache.get_within key r.clock.elapsed).1]
  | write key allowed r => exact r.writeCache_ttl? key allowed
  | _ => rfl

/-- Only a decision that outlives the clock makes a run overrun. -/
theorem Act.overrun_eq (h : Act svc r r') (hc : r.cache.outlivesClock r.clock.elapsed = false) :
    r'.overrun = r.overrun := by
  cases h with
  | read key r => exact r.readCache_overrun key
  | write key allowed r => exact r.writeCache_overrun key allowed hc
  | _ => rfl

theorem Reaches.journal_suffix (h : Reaches svc r r') : r.journal <:+ r'.journal := by
  induction h with
  | refl => exact List.suffix_refl _
  | tail _ h ih =>
      rcases h.journal with he | ⟨e, he, -⟩
      · rw [he]; exact ih
      · rw [he]; exact ih.trans (List.suffix_cons ..)

theorem Reaches.elapsed_le (h : Reaches svc r r') : r.clock.elapsed ≤ r'.clock.elapsed := by
  induction h with
  | refl => exact Nat.le_refl _
  | tail _ h ih => exact Nat.le_trans ih h.elapsed_le

theorem Reaches.ttl?_eq (h : Reaches svc r r') : r'.cache.ttl? = r.cache.ttl? := by
  induction h with
  | refl => rfl
  | tail _ h ih => exact h.ttl?_eq.trans ih

/-! ### What happened in between -/

/-- Everything that happened from one run to the other has the property. -/
def Throughout (P : Event → Prop) (r r' : Run σ) : Prop :=
  ∃ new, r'.journal = new ++ r.journal ∧ ∀ e ∈ new, P e

variable {P : Event → Prop} {m : Run σ}

theorem Throughout.refl (r : Run σ) : Throughout P r r := ⟨[], rfl, by simp⟩

theorem Throughout.trans (h : Throughout P r m) (h' : Throughout P m r') :
    Throughout P r r' := by
  obtain ⟨new, hj, hP⟩ := h
  obtain ⟨new', hj', hP'⟩ := h'
  have hboth : r'.journal = (new' ++ new) ++ r.journal := by
    rw [hj', hj, List.append_assoc]
  refine ⟨new' ++ new, hboth, ?_⟩
  intro e he
  rw [List.mem_append] at he
  rcases he with he | he
  · exact hP' e he
  · exact hP e he

theorem Throughout.of_forall (h : r.journal <:+ r'.journal) (hP : ∀ e, P e) :
    Throughout P r r' := by
  obtain ⟨new, hnew⟩ := h
  exact ⟨new, hnew.symm, fun e _ => hP e⟩

/-- What holds throughout holds throughout both parts. -/
theorem Throughout.split (h : Throughout P r r') (h₁ : r.journal <:+ m.journal)
    (h₂ : m.journal <:+ r'.journal) : Throughout P r m ∧ Throughout P m r' := by
  obtain ⟨new, hj, hP⟩ := h
  obtain ⟨a, ha⟩ := h₁
  obtain ⟨b, hb⟩ := h₂
  have hnew : new = b ++ a := by
    rw [← hb, ← ha, ← List.append_assoc] at hj
    exact (List.append_cancel_right hj).symm
  subst hnew
  constructor
  · refine ⟨a, ha.symm, ?_⟩
    intro e he
    exact hP e (List.mem_append_right _ he)
  · refine ⟨b, hb.symm, ?_⟩
    intro e he
    exact hP e (List.mem_append_left _ he)

/-- What happened from one run to the other, the latest first. -/
def since (r r' : Run σ) : List Event :=
  r'.journal.take (r'.journal.length - r.journal.length)

theorem since_eq {new : List Event} (h : r'.journal = new ++ r.journal) : r.since r' = new := by
  simp [since, h]

theorem since_append (h : r.journal <:+ r'.journal) : r.since r' ++ r.journal = r'.journal := by
  obtain ⟨new, hnew⟩ := h
  rw [since_eq hnew.symm, hnew]

theorem since_trans (h : r.journal <:+ m.journal) (h' : m.journal <:+ r'.journal) :
    r.since r' = m.since r' ++ r.since m := by
  apply since_eq
  rw [List.append_assoc, since_append h, since_append h']

theorem Throughout.of_mem_since (h : Throughout P r r') {e : Event} (he : e ∈ r.since r') :
    P e := by
  obtain ⟨new, hnew, hP⟩ := h
  rw [since_eq hnew] at he
  exact hP e he

/-! ### Records -/

/-- What is remembered was written, what was read had been written less than a time to live
before, and nothing happened later than now. -/
structure Recorded (r : Run σ) : Prop where
  stored : ∀ key d, r.cache.find? key = some d →
    ∃ clock, .write key d.allowed clock ∈ r.journal ∧ d.expiresAt = clock.elapsed + r.cache.ttl
  read : ∀ key allowed clock earlier, (.read key (some allowed) clock :: earlier) <:+ r.journal →
    ∃ written, .write key allowed written ∈ earlier ∧
      clock.elapsed < written.elapsed + r.cache.ttl
  past : ∀ e ∈ r.journal, e.clock.elapsed ≤ r.clock.elapsed

/-- Nothing is remembered and nothing has happened. -/
structure Fresh (r : Run σ) : Prop where
  cache : r.cache.size = 0
  journal : r.journal = []

theorem Fresh.find? (h : r.Fresh) (key : DecisionKey) : r.cache.find? key = none :=
  Cache.find?_eq_none_of_size_eq_zero h.cache key

theorem Fresh.recorded (h : r.Fresh) : r.Recorded where
  stored key d hd := by
    rw [h.find? key] at hd
    cases hd
  read key allowed clock earlier hs := by
    rw [h.journal] at hs
    exact absurd hs (by simp)
  past e he := by
    rw [h.journal] at he
    cases he

/-- Records stay right while the cache only forgets and nothing is recorded. -/
theorem Recorded.of_within (h : r.Recorded) (hc : r'.cache.Within r.cache)
    (ht : r.clock.elapsed ≤ r'.clock.elapsed) (hj : r'.journal = r.journal) : r'.Recorded where
  stored key d hd := by
    obtain ⟨d₀, hd₀, ha, he⟩ := hc.2 key d hd
    obtain ⟨clock, hw, hx⟩ := h.stored key d₀ hd₀
    rw [ha] at hw
    rw [hj, hc.ttl_eq, ← he]
    exact ⟨clock, hw, hx⟩
  read key allowed clock earlier hs := by
    rw [hj] at hs
    rw [hc.ttl_eq]
    exact h.read key allowed clock earlier hs
  past e he := by
    rw [hj] at he
    exact Nat.le_trans (h.past e he) ht

/-- Records stay right if besides something is recorded that happens now; a read has to find
what is there. -/
theorem Recorded.cons (h : r.Recorded) (hc : r'.cache.Within r.cache)
    (ht : r.clock.elapsed ≤ r'.clock.elapsed) {e : Event} (hj : r'.journal = e :: r.journal)
    (he : e.clock.elapsed = r'.clock.elapsed)
    (hread : ∀ key allowed clock, e = .read key (some allowed) clock →
      r.Knows key allowed ∧ clock = r.clock) : r'.Recorded where
  stored key d hd := by
    obtain ⟨d₀, hd₀, ha, hx⟩ := hc.2 key d hd
    obtain ⟨clock, hw, hx₀⟩ := h.stored key d₀ hd₀
    rw [ha] at hw
    rw [hj, hc.ttl_eq, ← hx]
    exact ⟨clock, List.mem_cons_of_mem _ hw, hx₀⟩
  read key allowed clock earlier hs := by
    rw [hj, List.suffix_cons_iff] at hs
    rw [hc.ttl_eq]
    rcases hs with hs | hs
    · obtain ⟨rfl, rfl⟩ := List.cons.inj hs
      obtain ⟨hk, rfl⟩ := hread key allowed clock rfl
      obtain ⟨d, hd, rfl, hlt⟩ := knows_iff.mp hk
      obtain ⟨written, hw, hx⟩ := h.stored key d hd
      exact ⟨written, hw, by omega⟩
    · exact h.read key allowed clock earlier hs
  past e' he' := by
    rw [hj, List.mem_cons] at he'
    rcases he' with rfl | he'
    · omega
    · exact Nat.le_trans (h.past e' he') ht

theorem Recorded.writeCache (h : r.Recorded) (key : DecisionKey) (allowed : Bool) :
    (r.writeCache key allowed).Recorded where
  stored k d hd := by
    rw [writeCache_journal, Cache.ttl, writeCache_ttl?]
    rcases find?_writeCache hd with ⟨rfl, rfl, hx⟩ | ⟨-, d₀, hd₀, ha, hx⟩
    · exact ⟨r.clock, List.mem_cons_self .., hx⟩
    · obtain ⟨clock, hw, hx₀⟩ := h.stored k d₀ hd₀
      rw [ha] at hw
      exact ⟨clock, List.mem_cons_of_mem _ hw, hx.symm.trans hx₀⟩
  read k a clock earlier hs := by
    rw [writeCache_journal, List.suffix_cons_iff] at hs
    rw [Cache.ttl, writeCache_ttl?]
    rcases hs with hs | hs
    · cases (List.cons.inj hs).1
    · exact h.read k a clock earlier hs
  past e he := by
    rw [writeCache_clock]
    rw [writeCache_journal, List.mem_cons] at he
    rcases he with rfl | he
    · exact Nat.le_refl _
    · exact h.past e he

theorem Recorded.readCache (h : r.Recorded) (key : DecisionKey) : (r.readCache key).2.Recorded := by
  refine h.cons ?_ (by simp) (r.readCache_journal key) (by simp [Event.clock]) ?_
  · rw [readCache_cache]
    exact r.cache.get_within key r.clock.elapsed
  · intro k a clock he
    obtain ⟨rfl, hfound, rfl⟩ := Event.read.inj he
    exact ⟨readCache_eq_some_iff.mp hfound, rfl⟩

theorem Recorded.act (h : r.Recorded) (ha : Act svc r r') : r'.Recorded := by
  have hle := ha.elapsed_le
  cases ha with
  | ask q r =>
      refine h.cons (.refl _) hle rfl rfl ?_
      intro key allowed clock he
      cases he
  | read key r => exact h.readCache key
  | write key allowed r => exact h.writeCache key allowed
  | beginSearch key seen r =>
      refine h.cons (.refl _) hle rfl rfl ?_
      intro key allowed clock he
      cases he
  | count o r => exact h.of_within (.refl _) hle rfl
  | see m r => exact h.of_within (.refl _) hle rfl

theorem Recorded.reaches (h : r.Recorded) (hr : Reaches svc r r') : r'.Recorded := by
  induction hr with
  | refl => exact h
  | tail _ ha ih => exact ih.act ha

/-- What always holds between a run and a later one: what happened stays recorded, what is
recorded since happened since, the time to live stays, and records stay right. -/
structure Passes (r r' : Run σ) : Prop where
  later : Throughout (fun e => r.clock.elapsed ≤ e.clock.elapsed) r r'
  elapsed : r.clock.elapsed ≤ r'.clock.elapsed
  ttl? : r'.cache.ttl? = r.cache.ttl?
  recorded : r.Recorded → r'.Recorded

theorem Throughout.journal_suffix (h : Throughout P r r') : r.journal <:+ r'.journal := by
  obtain ⟨new, hnew, -⟩ := h
  exact ⟨new, hnew.symm⟩

theorem Throughout.imp {Q : Event → Prop} (h : Throughout P r r') (hPQ : ∀ e, P e → Q e) :
    Throughout Q r r' := by
  obtain ⟨new, hnew, hP⟩ := h
  exact ⟨new, hnew, fun e he => hPQ e (hP e he)⟩

theorem Passes.journal (h : Passes r r') : r.journal <:+ r'.journal := h.later.journal_suffix

theorem Passes.refl (r : Run σ) : Passes r r :=
  ⟨.refl r, Nat.le_refl _, rfl, id⟩

theorem Passes.trans (h : Passes r m) (h' : Passes m r') : Passes r r' where
  later := h.later.trans (h'.later.imp fun _ he => Nat.le_trans h.elapsed he)
  elapsed := Nat.le_trans h.elapsed h'.elapsed
  ttl? := h'.ttl?.trans h.ttl?
  recorded hr := h'.recorded (h.recorded hr)

theorem Passes.ttl_eq (h : Passes r r') : r'.cache.ttl = r.cache.ttl := by
  rw [Cache.ttl, Cache.ttl, h.ttl?]

/-- Nothing happens, but time passes or something is forgotten. -/
theorem Passes.of_within (hc : r'.cache.Within r.cache) (ht : r.clock.elapsed ≤ r'.clock.elapsed)
    (hj : r'.journal = r.journal) : Passes r r' :=
  ⟨⟨[], hj, by simp⟩, ht, hc.1, fun hr => hr.of_within hc ht hj⟩

theorem Act.passes (h : Act svc r r') : Passes r r' where
  later := by
    rcases h.journal with hj | ⟨e, hj, he⟩
    · exact ⟨[], hj, by simp⟩
    · exact ⟨[e], hj, by simpa [he] using h.elapsed_le⟩
  elapsed := h.elapsed_le
  ttl? := h.ttl?_eq
  recorded hr := hr.act h

theorem Reaches.passes (h : Reaches svc r r') : Passes r r' := by
  induction h with
  | refl => exact .refl r
  | tail _ h ih => exact ih.trans h.passes

theorem writeCache_passes (key : DecisionKey) (allowed : Bool) (r : Run σ) :
    Passes r (r.writeCache key allowed) :=
  ⟨⟨[_], r.writeCache_journal key allowed, by simp [Event.clock]⟩, by simp, by simp,
    fun h => h.writeCache key allowed⟩

theorem readCache_passes (key : DecisionKey) (r : Run σ) : Passes r (r.readCache key).2 := by
  refine ⟨⟨[_], r.readCache_journal key, by simp [Event.clock]⟩, by simp, ?_,
    fun h => h.readCache key⟩
  rw [readCache_cache, (r.cache.get_within key r.clock.elapsed).1]

theorem count_passes (o : Occurrence) (r : Run σ) : Passes r (r.count o) :=
  .of_within (.refl _) (Nat.le_refl _) rfl

theorem advance_passes (nanos : Nat) (r : Run σ) : Passes r (r.advance nanos) :=
  .of_within (.refl _) (by simp [advance]) rfl

end Run

end GrantPath
