import GrantPath.Proofs.CacheLookups
import GrantPath.Proofs.Lockstep

/-! # Searches for different scopes do not interfere

A search reads and writes the cache only under keys of its scope (`Scope.Concerns`). Two things
follow when the cache has no bound.

* What is remembered for other scopes stays as it was: `Run.Confined` holds of every act of a
  search, and `Search.Cases.confined` puts the acts together.
* What is remembered for other scopes has no influence. Two runs whose caches agree on the scope
  are `Run.Twins`, and they stay so: `Twins.ask`, `Twins.readCache` and `Twins.writeCache` for
  single operations, and `Search.lockstep_twins` for searches. Twins answer alike and do the same
  things.

`Run.scopes_do_not_interfere` states both for searches through the cache and for decisions loaded
ahead of queries. -/

namespace GrantPath

variable {σ : Type}

/-- A key of a decision in this scope, whichever principal it is about. -/
def Scope.Concerns (s : Scope) (key : DecisionKey) : Prop :=
  key.owner = s.owner ∧ key.activity = s.activity ∧ key.target = s.target.getD ""

theorem Scope.concerns_key (s : Scope) (p : Principal) : s.Concerns (s.key p) :=
  ⟨rfl, rfl, rfl⟩

namespace Run

/-! ### Other scopes stay as they are -/

/-- Without a bound, what is remembered for other scopes stays, and no bound is set. -/
structure Confined (s : Scope) (r r' : Run σ) : Prop where
  unbounded : r.cache.Unbounded → r'.cache.Unbounded
  outside : r.cache.Unbounded → ∀ key, ¬ s.Concerns key →
    r'.cache.find? key = r.cache.find? key

namespace Confined

variable {s : Scope} {r m r' : Run σ} {key : DecisionKey}

theorem of_cache_eq (h : r'.cache = r.cache) : Confined s r r' := by
  refine ⟨?_, ?_⟩
  · intro hu
    rw [h]
    exact hu
  · intro _ key _
    rw [h]

theorem trans (h : Confined s r m) (h' : Confined s m r') : Confined s r r' where
  unbounded hu := h'.unbounded (h.unbounded hu)
  outside hu key hkey :=
    (h'.outside (h.unbounded hu) key hkey).trans (h.outside hu key hkey)

/-- Nothing was done to the cache before. -/
theorem of_before (h : Confined s m r') (hm : m.cache = r.cache) : Confined s r r' :=
  (of_cache_eq hm).trans h

theorem read (h : s.Concerns key) (r : Run σ) : Confined s r (r.readCache key).2 where
  unbounded hu := by
    rw [readCache_cache]
    exact hu.get key r.clock.elapsed
  outside _ k hk := by
    have hne : k ≠ key := fun e => hk (e ▸ h)
    rw [readCache_cache, Cache.find?_get, if_neg hne]

theorem write (h : s.Concerns key) (allowed : Bool) (r : Run σ) :
    Confined s r (r.writeCache key allowed) where
  unbounded hu := by
    rw [writeCache_cache]
    exact hu.written key allowed r.clock.elapsed
  outside hu k hk := by
    have hne : k ≠ key := fun e => hk (e ▸ h)
    rw [writeCache_cache, Cache.find?_written_of_unbounded hu hne]

end Confined

end Run

namespace Search

theorem missed_confined (s : Search σ) (p : Principal) (r : Run σ) :
    Run.Confined s.scope r (s.missed p r) :=
  (Run.Confined.read (s.scope.concerns_key p) r).trans (.of_cache_eq rfl)

/-- Every act of a search stays within its scope. -/
theorem Cases.confined (s : Search σ) :
    s.Cases (fun _ _ r out => Run.Confined s.scope r out.2)
      (fun _ _ r out => Run.Confined s.scope r out.2)
      (fun _ _ r out => Run.Confined s.scope r out.2) where
  lookUpFails _ := .of_cache_eq rfl
  decided _ := .of_cache_eq rfl
  noStepLeft _ := .of_cache_eq rfl
  memberFails _ _ := .of_cache_eq rfl
  metBefore _ _ _ := .of_cache_eq rfl
  groupsFail _ _ _ _ := .of_cache_eq rfl
  climbed _ _ _ _ _ htried := htried.of_before rfl
  noGroupLeft := .of_cache_eq rfl
  noPrincipal _ _ htried := htried.of_before rfl
  granted _ _ hconsulted := hconsulted.of_before rfl
  refused {n g gs q r r' outcome out} _ _ hconsulted _ _ htried := by
    have hpassed : Run.Confined s.scope r' (passedOver outcome r') := by
      cases outcome with
      | error e => exact .of_cache_eq rfl
      | ok granted => exact .of_cache_eq rfl
    exact (hconsulted.trans (hpassed.trans htried)).of_before rfl
  hit {n p r granted} _ :=
    (Run.Confined.read (s.scope.concerns_key p) r).trans (.of_cache_eq rfl)
  computed {n p r granted r'} _ _ hvisited :=
    ((s.missed_confined p r).trans hvisited).trans
      (.write (s.scope.concerns_key p) granted r')
  notComputed {n p r e r'} _ _ hvisited := (s.missed_confined p r).trans hvisited

variable (s : Search σ) (seen : SeenGroups) (p : Principal) (r : Run σ)

theorem run_confined : Run.Confined s.scope r (s.run seen p r).2 :=
  ((Cases.confined s).cached s.limit p (r.beginSearch (s.scope.key p) seen)).of_before rfl

theorem runAnew_confined : Run.Confined s.scope r (s.runAnew seen p r).2 :=
  ((Cases.confined s).resolve s.limit p (r.beginSearch (s.scope.key p) seen)).of_before rfl

end Search

/-! ### Other scopes have no influence -/

/-- Two caches with the same limits remember the same decisions in the scope. -/
structure Cache.AgreesOn (s : Scope) (c c' : Cache) : Prop where
  limits : c.limits = c'.limits
  find? : ∀ key, s.Concerns key → c.find? key = c'.find? key

namespace Cache.AgreesOn

variable {s : Scope} {c c' : Cache} {key : DecisionKey}

theorem get (h : AgreesOn s c c') (hkey : s.Concerns key) (now : Nat) :
    AgreesOn s (c.get key now).2 (c'.get key now).2 where
  limits := by simpa using h.limits
  find? k hk := by rw [find?_get, find?_get, h.find? key hkey, h.find? k hk]

theorem written (h : AgreesOn s c c') (hu : c.Unbounded) (key : DecisionKey) (allowed : Bool)
    (now : Nat) : AgreesOn s (c.written key allowed now) (c'.written key allowed now) where
  limits := by simpa using h.limits
  find? k hk := by
    by_cases hkey : k = key
    · subst hkey
      rw [find?_written_self, find?_written_self, ttl?_congr h.limits]
    · have hu' := (unbounded_congr h.limits).mp hu
      rw [find?_written_of_unbounded hu hkey, find?_written_of_unbounded hu' hkey, h.find? k hk]

end Cache.AgreesOn

namespace Run

/-- Two runs that differ only in what is remembered for other scopes, in their counters, and in
what had happened before `j` and `j'`. -/
structure Twins (s : Scope) (j j' : List Event) (r r' : Run σ) : Prop where
  state : r.state = r'.state
  clock : r.clock = r'.clock
  seen : r.seen = r'.seen
  unbounded : r.cache.Unbounded
  agree : r.cache.AgreesOn s r'.cache
  journal : ∃ new, r.journal = new ++ j ∧ r'.journal = new ++ j'

/-- Twins do the same: they come to the same result and are twins still. -/
def Twinned (s : Scope) (j j' : List Event) {α : Type} (out out' : α × Run σ) : Prop :=
  out.1 = out'.1 ∧ Twins s j j' out.2 out'.2

namespace Twins

variable {s : Scope} {j j' : List Event} {r r' : Run σ} (h : Twins s j j' r r')

include h

theorem count (o : Occurrence) : Twins s j j' (r.count o) (r'.count o) :=
  { h with }

theorem see (m : GroupMember) : Twins s j j' (r.see m) (r'.see m) :=
  { h with seen := congrArg (·.insert m) h.seen }

theorem cons {e e' : Event} (he : e = e') :
    ∃ new, e :: r.journal = new ++ j ∧ e' :: r'.journal = new ++ j' := by
  obtain ⟨new, hj, hj'⟩ := h.journal
  exact ⟨e :: new, by rw [hj]; rfl, by rw [hj', he]; rfl⟩

theorem beginSearch (key : DecisionKey) (seen : SeenGroups) :
    Twins s j j' (r.beginSearch key seen) (r'.beginSearch key seen) :=
  { h with
    seen := rfl
    journal := h.cons (by rw [h.clock]) }

theorem ask (svc : Service σ) (q : Request) : Twinned s j j' (r.ask svc q) (r'.ask svc q) := by
  have hreply : svc.reply q r.state = svc.reply q r'.state := by rw [h.state]
  refine ⟨congrArg Reply.answer hreply, ?_⟩
  have hclock : (r.ask svc q).2.clock = (r'.ask svc q).2.clock := by
    rw [ask_clock, ask_clock, hreply, h.clock]
  have hevent : Event.call q (svc.reply q r.state).answer (r.ask svc q).2.clock =
      .call q (svc.reply q r'.state).answer (r'.ask svc q).2.clock := by rw [hreply, hclock]
  exact ⟨congrArg Reply.state hreply, hclock, h.seen, h.unbounded, h.agree, h.cons hevent⟩

theorem readCache {key : DecisionKey} (hkey : s.Concerns key) :
    Twinned s j j' (r.readCache key) (r'.readCache key) := by
  have hfound : (r.readCache key).1 = (r'.readCache key).1 := by
    apply Option.ext
    intro allowed
    rw [readCache_eq_some_iff, readCache_eq_some_iff, h.clock,
      Cache.peek_congr (h.agree.find? key hkey)]
  refine ⟨hfound, ?_⟩
  constructor
  · simpa using h.state
  · simpa using h.clock
  · simpa using h.seen
  · simpa using h.unbounded.get key r.clock.elapsed
  · simpa [h.clock] using h.agree.get hkey r'.clock.elapsed
  · rw [readCache_journal, readCache_journal]
    exact h.cons (by rw [hfound, h.clock])

theorem writeCache (key : DecisionKey) (allowed : Bool) :
    Twins s j j' (r.writeCache key allowed) (r'.writeCache key allowed) := by
  constructor
  · simpa using h.state
  · simpa using h.clock
  · simpa using h.seen
  · rw [writeCache_cache]
    exact h.unbounded.written key allowed r.clock.elapsed
  · rw [writeCache_cache, writeCache_cache, h.clock]
    exact h.agree.written h.unbounded key allowed r'.clock.elapsed
  · rw [writeCache_journal, writeCache_journal]
    exact h.cons (by rw [h.clock])

end Twins

/-- Computing with twins leaves twins and the same result. -/
def Blind (s : Scope) (j j' : List Event) {α : Type} (act : Run σ → α × Run σ) : Prop :=
  ∀ r r', Twins s j j' r r' → Twinned s j j' (act r) (act r')

theorem Blind.forceRefresh {s : Scope} {j j' : List Event}
    {compute : Run σ → Except Error Bool × Run σ} (h : Blind s j j' compute) (key : DecisionKey) :
    Blind s j j' (Run.forceRefresh key compute) := by
  intro r r' htwins
  obtain ⟨outcome, r₁, r₁', hc, hc', htwins₁⟩ := InStep.split h htwins
  simp only [Run.forceRefresh, hc, hc']
  cases outcome with
  | error e => exact ⟨rfl, htwins₁⟩
  | ok allowed => exact ⟨rfl, (htwins₁.writeCache key allowed).count .cachePrewarm⟩

end Run

namespace Search

variable (s : Search σ) {j j' : List Event}

/-- A search keeps twins: it reads and writes under keys of its scope only. -/
theorem lockstep_twins : Lockstep (Run.Twins s.scope j j') s s where
  limit := rfl
  key _ := rfl
  wall h := by rw [h.clock]
  seen h := h.seen
  count h o := h.count o
  see h m := h.see m
  beginSearch h p seen := h.beginSearch (s.scope.key p) seen
  readCache p r r' h := h.readCache (s.scope.concerns_key p)
  writeCache h p allowed := h.writeCache (s.scope.key p) allowed
  lookUp p r r' h := (h.count .nodeEvaluated).ask s.service _
  groupMember p r r' h := h.ask s.service (.groupMember p)
  parentGroups m r r' h := h.ask s.service (.parentGroups m)
  newPrincipal m r r' h := h.ask s.service (.newPrincipal m)

theorem run_blind (seen : SeenGroups) (p : Principal) : Run.Blind s.scope j j' (s.run seen p) :=
  s.lockstep_twins.run seen p

theorem runAnew_blind (seen : SeenGroups) (p : Principal) :
    Run.Blind s.scope j j' (s.runAnew seen p) :=
  s.lockstep_twins.runAnew seen p

end Search

/-! ### Decisions ahead of queries -/

namespace Policy

variable (policy : Policy) (svc : Service σ) (q : Query)

theorem loadInCache_confined (r : Run σ) :
    Run.Confined q.scope r (policy.loadInCache svc q r).2 := by
  have hsearched := (policy.search svc q).runAnew_confined .empty q.principal
    (r.setAside policy.seenCapacity)
  rcases policy.loadInCache_cases svc q r with
    ⟨e, r₁, hout, hloaded⟩ | ⟨allowed, r₁, hout, hloaded⟩
  · rw [hout] at hsearched
    rw [hloaded]
    exact hsearched.of_before rfl
  · rw [hout] at hsearched
    rw [hloaded]
    have hwritten : Run.Confined q.scope r₁
        ((r₁.writeCache q.key allowed).count .cachePrewarm) :=
      (Run.Confined.write (q.scope.concerns_key q.principal) allowed r₁).trans (.of_cache_eq rfl)
    exact (hsearched.trans hwritten).of_before rfl

theorem loadInCache_blind {j j' : List Event} :
    Run.Blind q.scope j j' (policy.loadInCache svc q) := by
  intro r r' htwins
  have hsearch : Run.Blind q.scope j j' ((policy.search svc q).runAnew .empty q.principal) :=
    (policy.search svc q).runAnew_blind .empty q.principal
  have haside : Run.Twins q.scope j j' (r.setAside policy.seenCapacity)
      (r'.setAside policy.seenCapacity) := { htwins with }
  obtain ⟨outcome, r₁, r₁', hc, hc', htwins₁⟩ :=
    Run.InStep.split (hsearch.forceRefresh q.key) haside
  simp only [loadInCache, hc, hc']
  cases outcome with
  | error e => exact ⟨rfl, htwins₁⟩
  | ok allowed => exact ⟨rfl, htwins₁⟩

end Policy

namespace Run

/-- Two computations come to the same result by the same events, and leave the same members as
expanded and caches that agree on the scope. -/
structure Coincide (s : Scope) (r r' : Run σ) {α : Type} (out out' : α × Run σ) : Prop where
  result : out.1 = out'.1
  events : r.since out.2 = r'.since out'.2
  seen : out.2.seen = out'.2.seen
  caches : out.2.cache.AgreesOn s out'.2.cache

theorem Blind.coincide {s : Scope} {r : Run σ} {cache : Cache} {α : Type}
    {act : Run σ → α × Run σ} (h : Blind s r.journal r.journal act) (hu : r.cache.Unbounded)
    (hagree : r.cache.AgreesOn s cache) :
    Coincide s r { r with cache } (act r) (act { r with cache }) := by
  have htwins : Twins s r.journal r.journal r { r with cache } :=
    ⟨rfl, rfl, rfl, hu, hagree, [], rfl, rfl⟩
  obtain ⟨hresult, hafter⟩ := h _ _ htwins
  obtain ⟨new, hj, hj'⟩ := hafter.journal
  refine ⟨hresult, ?_, hafter.seen, hafter.agree⟩
  rw [since_eq hj]
  exact Eq.symm (since_eq hj')

/-- A search for a query, through the cache or to load its decision ahead of it, leaves what is
remembered for other scopes as it was, and what is remembered for other scopes makes no
difference to it: with a cache that agrees on the query's scope it comes to the same result by the
same events, and leaves the same members as expanded and a cache that agrees again. -/
theorem scopes_do_not_interfere (svc : Service σ) (q : Query) {r : Run σ}
    (hu : r.cache.Unbounded) :
    (∀ (limit : Nat) (seen : SeenGroups),
      let search : Search σ := ⟨svc, q.scope, limit⟩
      (∀ key, ¬ q.scope.Concerns key →
        (search.run seen q.principal r).2.cache.find? key = r.cache.find? key) ∧
      ∀ cache, r.cache.AgreesOn q.scope cache →
        Coincide q.scope r { r with cache } (search.run seen q.principal r)
          (search.run seen q.principal { r with cache })) ∧
    ∀ policy : Policy,
      (∀ key, ¬ q.scope.Concerns key →
        (policy.loadInCache svc q r).2.cache.find? key = r.cache.find? key) ∧
      ∀ cache, r.cache.AgreesOn q.scope cache →
        Coincide q.scope r { r with cache } (policy.loadInCache svc q r)
          (policy.loadInCache svc q { r with cache }) := by
  constructor
  · intro limit seen search
    refine ⟨(search.run_confined seen q.principal r).outside hu, ?_⟩
    intro cache hagree
    exact (search.run_blind seen q.principal).coincide hu hagree
  · intro policy
    refine ⟨(policy.loadInCache_confined svc q r).outside hu, ?_⟩
    intro cache hagree
    exact (policy.loadInCache_blind svc q).coincide hu hagree

/-- A run with the staff directory and room for any number of decisions. -/
def staffRun : Run StagedDirectory where
  state := Session.staffDirectory
  clock := .startingAt 0 100
  cache := .timed { ttl := 60, capacity := 0 }

/-- The key of a decision on another activity. -/
def otherKey : DecisionKey := ⟨"person.alice", "O", "OTHER", "T"⟩

/-- A cache in which a refusal of that activity has expired. -/
def otherCache : Cache :=
  .timed { ttl := 60, capacity := 0, decisions := Table.empty.insert otherKey ⟨false, 50, 7⟩ }

/-- The refusal stays where it is, expired, and makes no difference to the search. -/
theorem scopes_do_not_interfere_in_staff :
    let q := Session.staffQuery ⟨.person, "alice"⟩
    let search : Search StagedDirectory := ⟨StagedDirectory.service, q.scope, 4⟩
    let other := { staffRun with cache := otherCache }
    (search.run .empty q.principal staffRun).1 = (search.run .empty q.principal other).1 ∧
      staffRun.since (search.run .empty q.principal staffRun).2 =
        other.since (search.run .empty q.principal other).2 ∧
      (Session.staffSession.policy.loadInCache StagedDirectory.service q other).2.cache.find?
        otherKey = some ⟨false, 50, 7⟩ := by
  intro q search other
  have hother : ¬ q.scope.Concerns otherKey := by
    rintro ⟨-, hactivity, -⟩
    exact absurd hactivity (by decide)
  have hagree : staffRun.cache.AgreesOn q.scope otherCache := by
    refine ⟨rfl, ?_⟩
    intro key hkey
    have hne : key ≠ otherKey := by
      rintro rfl
      exact hother hkey
    show none = (Table.empty.insert otherKey _).get? key
    rw [Table.get?_insert, if_neg hne]
    rfl
  obtain ⟨hsearch, -⟩ := scopes_do_not_interfere StagedDirectory.service q (r := staffRun) rfl
  obtain ⟨-, hload⟩ := scopes_do_not_interfere StagedDirectory.service q (r := other) rfl
  have htwo := (hsearch 4 .empty).2 otherCache hagree
  exact ⟨htwo.result, htwo.events, ((hload _).1 _ hother).trans (by decide +kernel)⟩

end Run

end GrantPath
