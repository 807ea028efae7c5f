import GrantPath.Proofs.Provenance

/-! # Queries keep live decisions

A query never overwrites a live decision: a search computes, and writes, only what a read did not
find. So in a cache without a bound a decision that is still live afterwards has been there all
the time, whatever the collaborators did meanwhile.

* `Run.Lasting` says this of two runs. Every search leads to a lasting run
  (`Search.Cases.lasting`), and so does every step that only makes queries
  (`Session.steps_lasting`).
* A search that begins where a yes or a no is live answers so (`Search.run_of_knows`), and a query
  that ends before a yes on it expires is answered yes (`Policy.hasPermission_of_holds`).
* So a decision loaded ahead of queries is served for a whole time to live
  (`Session.live_decisions_last`). -/

namespace GrantPath

open Relation

variable {σ : Type}

/-- If the event reads the key it finds the answer, and it does not write the key. -/
def Event.Heeds (key : DecisionKey) (allowed : Bool) : Event → Prop
  | .read k found _ => k = key → found = some allowed
  | .write k _ _ => k ≠ key
  | _ => True

namespace Run

variable {r m r' : Run σ} {key k : DecisionKey} {allowed a : Bool} {expiry : Nat}

/-- A read finds what is held and not expired. -/
theorem knows_iff_holds :
    r.Knows key allowed ↔
      ∃ expiry, r.cache.Holds key allowed expiry ∧ r.clock.elapsed < expiry := by
  rw [knows_iff]
  constructor
  · rintro ⟨d, hd, ha, he⟩
    exact ⟨d.expiresAt, ⟨d, hd, ha, rfl⟩, he⟩
  · rintro ⟨expiry, ⟨d, hd, ha, rfl⟩, he⟩
    exact ⟨d, hd, ha, he⟩

theorem knows_of_holds (h : r.cache.Holds key allowed expiry) (he : r.clock.elapsed < expiry) :
    r.Knows key allowed :=
  knows_iff_holds.mpr ⟨expiry, h, he⟩

/-- A read finds at most one answer. -/
theorem Knows.unique (h : r.Knows key allowed) (h' : r.Knows key a) : allowed = a := by
  have hboth : Lookup.live allowed = Lookup.live a := h.symm.trans h'
  exact Lookup.live.inj hboth

/-! ### Lasting decisions -/

/-- The cache has no bound, and what was held before and is not expired now is held now with the
same answer and the same expiry; in between it was never written, and every read of it found the
answer. -/
structure Lasting (r r' : Run σ) : Prop where
  elapsed : r.clock.elapsed ≤ r'.clock.elapsed
  unbounded : r'.cache.Unbounded
  holds : ∀ key allowed expiry, r.cache.Holds key allowed expiry → r'.clock.elapsed < expiry →
    r'.cache.Holds key allowed expiry
  heeds : ∀ key allowed expiry, r.cache.Holds key allowed expiry → r'.clock.elapsed < expiry →
    Throughout (Event.Heeds key allowed) r r'

/-- The cache stays, and what happens neither reads nor writes it. -/
theorem Lasting.of_cache_eq (hu : r.cache.Unbounded) (hc : r'.cache = r.cache)
    (ht : r.clock.elapsed ≤ r'.clock.elapsed)
    (hj : ∀ key allowed, Throughout (Event.Heeds key allowed) r r') : Lasting r r' where
  elapsed := ht
  unbounded := by rwa [hc]
  holds key allowed expiry h _ := by rwa [hc]
  heeds key allowed _ _ _ := hj key allowed

theorem Lasting.refl (hu : r.cache.Unbounded) : Lasting r r :=
  .of_cache_eq hu rfl (Nat.le_refl _) fun _ _ => .refl r

theorem Lasting.trans (h : Lasting r m) (h' : Lasting m r') : Lasting r r' where
  elapsed := Nat.le_trans h.elapsed h'.elapsed
  unbounded := h'.unbounded
  holds key allowed expiry hr he := by
    have hm := h.holds key allowed expiry hr (Nat.lt_of_le_of_lt h'.elapsed he)
    exact h'.holds key allowed expiry hm he
  heeds key allowed expiry hr he := by
    have hlive := Nat.lt_of_le_of_lt h'.elapsed he
    have hm := h.holds key allowed expiry hr hlive
    exact (h.heeds key allowed expiry hr hlive).trans (h'.heeds key allowed expiry hm he)

/-- Nothing happens, though time may pass, and the cache stays. -/
structure Idles (r r' : Run σ) : Prop where
  cache : r'.cache = r.cache
  elapsed : r.clock.elapsed ≤ r'.clock.elapsed
  journal : r'.journal = r.journal

theorem advance_idles (nanos : Nat) (r : Run σ) : Idles r (r.advance nanos) :=
  ⟨rfl, (r.advance_passes nanos).elapsed, rfl⟩

theorem Idles.lasting (h : Idles r r') (hu : r.cache.Unbounded) : Lasting r r' :=
  .of_cache_eq hu h.cache h.elapsed fun _ _ => ⟨[], h.journal, by simp⟩

theorem lasting_ask (svc : Service σ) (q : Request) (hu : r.cache.Unbounded) :
    Lasting r (r.ask svc q).2 :=
  .of_cache_eq hu rfl (by simp) fun _ _ => ⟨[_], rfl, by simp [Event.Heeds]⟩

theorem lasting_count (o : Occurrence) (hu : r.cache.Unbounded) : Lasting r (r.count o) :=
  Idles.lasting ⟨rfl, Nat.le_refl _, rfl⟩ hu

theorem lasting_see (m : GroupMember) (hu : r.cache.Unbounded) : Lasting r (r.see m) :=
  Idles.lasting ⟨rfl, Nat.le_refl _, rfl⟩ hu

theorem lasting_setAside (capacity : Nat) (hu : r.cache.Unbounded) :
    Lasting r (r.setAside capacity) :=
  Idles.lasting ⟨rfl, Nat.le_refl _, rfl⟩ hu

theorem lasting_beginSearch (key : DecisionKey) (seen : SeenGroups) (hu : r.cache.Unbounded) :
    Lasting r (r.beginSearch key seen) :=
  .of_cache_eq hu rfl (Nat.le_refl _) fun _ _ => ⟨[_], rfl, by simp [Event.Heeds]⟩

/-- A read finds what is live and drops only what is expired. -/
theorem lasting_read (key : DecisionKey) (hu : r.cache.Unbounded) :
    Lasting r (r.readCache key).2 where
  elapsed := by simp
  unbounded := by
    rw [readCache_cache]
    exact hu.get key _
  holds k a expiry h he := by
    rw [readCache_clock] at he
    rw [readCache_cache]
    exact h.get he key
  heeds k a expiry h he := by
    rw [readCache_clock] at he
    refine ⟨[_], r.readCache_journal key, ?_⟩
    intro e hmem
    rw [List.mem_singleton.mp hmem]
    rintro rfl
    exact readCache_eq_some_iff.mpr (knows_of_holds h he)

/-- What a read did not find at first may be written in the end. -/
theorem Lasting.write (h : Lasting r r') (hmiss : ∀ allowed, ¬ r.Knows key allowed)
    (allowed : Bool) : Lasting r (r'.writeCache key allowed) := by
  have hne : ∀ {k a expiry}, r.cache.Holds k a expiry → r'.clock.elapsed < expiry → k ≠ key := by
    rintro k a expiry hk he rfl
    exact hmiss a (knows_of_holds hk (Nat.lt_of_le_of_lt h.elapsed he))
  constructor
  · rw [writeCache_clock]
    exact h.elapsed
  · rw [writeCache_cache]
    exact h.unbounded.written key allowed _
  · intro k a expiry hk he
    rw [writeCache_clock] at he
    rw [writeCache_cache]
    exact (h.holds k a expiry hk he).written h.unbounded (hne hk he) allowed _
  · intro k a expiry hk he
    rw [writeCache_clock] at he
    refine (h.heeds k a expiry hk he).trans ⟨[_], r'.writeCache_journal key allowed, ?_⟩
    intro e hmem
    rw [List.mem_singleton.mp hmem]
    exact (hne hk he).symm

/-- What a read would find before, it finds later unless it is expired by then. -/
theorem Lasting.knows (h : Lasting r r') (hk : r.cache.Holds key allowed expiry)
    (he : r'.clock.elapsed < expiry) : r'.Knows key allowed :=
  knows_of_holds (h.holds key allowed expiry hk he) he

end Run

/-! ### Searches -/

namespace Search

open Run (Lasting)

variable {s : Search σ} {p : Principal} {m g : GroupMember} {r r' : Run σ}

section stages

variable (hu : r.cache.Unbounded)

include hu

theorem lasting_looked : Lasting r (s.looked p r) :=
  (Run.lasting_count .nodeEvaluated hu).trans (Run.lasting_ask s.service _ hu)

theorem lasting_named : Lasting r (s.named p r) :=
  (lasting_looked hu).trans (Run.lasting_ask s.service _ (lasting_looked hu).unbounded)

theorem lasting_expanded : Lasting r (s.expanded p m r) := by
  have hnamed : Lasting r (s.named p r) := lasting_named hu
  have hsee := hnamed.trans (Run.lasting_see m hnamed.unbounded)
  exact hsee.trans (Run.lasting_ask s.service _ hsee.unbounded)

theorem lasting_addressed : Lasting r (s.addressed r g) := Run.lasting_ask s.service _ hu

theorem lasting_passedOver (outcome : Except Error Bool) : Lasting r (passedOver outcome r) := by
  cases outcome with
  | error e => exact Run.lasting_count .branchFailure hu
  | ok granted => exact .refl hu

theorem lasting_missed : Lasting r (s.missed p r) := by
  have hread := Run.lasting_read (s.scope.key p) hu
  exact hread.trans (Run.lasting_count .cacheMiss hread.unbounded)

end stages

/-- A search writes only what a read did not find. -/
theorem Cases.lasting (s : Search σ) :
    s.Cases (fun _ _ r out => r.cache.Unbounded → Lasting r out.2)
      (fun _ _ r out => r.cache.Unbounded → Lasting r out.2)
      (fun _ _ r out => r.cache.Unbounded → Lasting r out.2) where
  lookUpFails _ := lasting_looked
  decided _ := lasting_looked
  noStepLeft _ := lasting_looked
  memberFails _ _ := lasting_named
  metBefore _ _ _ hu :=
    (lasting_named hu).trans (Run.lasting_count .cycleGuardHit (lasting_named hu).unbounded)
  groupsFail _ _ _ _ := lasting_expanded
  climbed _ _ _ _ _ htried hu :=
    (lasting_expanded hu).trans (htried (lasting_expanded hu).unbounded)
  noGroupLeft := .refl
  noPrincipal {n g gs r e out} _ _ htried hu := by
    have haddressed : Lasting r (s.addressed r g) := lasting_addressed hu
    have hfailed := haddressed.trans (Run.lasting_count .branchFailure haddressed.unbounded)
    exact hfailed.trans (htried hfailed.unbounded)
  granted _ _ hcons hu := (lasting_addressed hu).trans (hcons (lasting_addressed hu).unbounded)
  refused {n g gs q r r' outcome out} _ _ hcons _ _ htried hu := by
    have hleft := (lasting_addressed hu).trans (hcons (lasting_addressed hu).unbounded)
    have hpassed := hleft.trans (lasting_passedOver hleft.unbounded outcome)
    exact hpassed.trans (htried hpassed.unbounded)
  hit {n p r granted} _ hu := by
    have hread := Run.lasting_read (s.scope.key p) hu
    exact hread.trans (Run.lasting_count .cacheHit hread.unbounded)
  computed {n p r granted r'} hmiss _ hv hu := by
    have hvisited := (lasting_missed hu).trans (hv (lasting_missed hu).unbounded)
    exact hvisited.write hmiss granted
  notComputed _ _ hv hu := (lasting_missed hu).trans (hv (lasting_missed hu).unbounded)

theorem run_lasting (s : Search σ) (seen : SeenGroups) (p : Principal)
    (hu : r.cache.Unbounded) : Lasting r (s.run seen p r).2 :=
  (Run.lasting_beginSearch _ seen hu).trans ((Cases.lasting s).cached s.limit p _ hu)

theorem runAnew_lasting (s : Search σ) (seen : SeenGroups) (p : Principal)
    (hu : r.cache.Unbounded) : Lasting r (s.runAnew seen p r).2 :=
  (Run.lasting_beginSearch _ seen hu).trans ((Cases.lasting s).resolve s.limit p _ hu)

/-- A consultation that finds a decision or fails leaves the cache alone; any other writes its
answer. -/
theorem Cases.writes (s : Search σ) :
    s.Cases (fun _ _ r out => ∀ e, out.1 = .error e → out.2.cache = r.cache)
      (fun _ p r out =>
        (∀ allowed, r.Knows (s.scope.key p) allowed →
          out.1 = .ok allowed ∧ out.2.cache.Within r.cache) ∧
        (∀ e, out.1 = .error e → out.2.cache.Within r.cache) ∧
        ((∀ allowed, ¬ r.Knows (s.scope.key p) allowed) → ∀ allowed ttl, out.1 = .ok allowed →
          out.2.cache.ttl? = some ttl →
            out.2.cache.Holds (s.scope.key p) allowed (out.2.clock.elapsed + ttl)))
      (fun _ _ _ _ => True) where
  lookUpFails _ _ _ := rfl
  decided _ _ he := nomatch he
  noStepLeft _ _ _ := rfl
  memberFails _ _ _ _ := rfl
  metBefore _ _ _ _ he := nomatch he
  groupsFail _ _ _ _ _ _ := rfl
  climbed _ _ _ _ _ _ _ he := nomatch he
  noGroupLeft := True.intro
  noPrincipal _ _ _ := True.intro
  granted _ _ _ := True.intro
  refused _ _ _ _ _ _ := True.intro
  hit {n p r granted} hk := by
    have hwithin : ((r.readCache (s.scope.key p)).2.count .cacheHit).cache.Within r.cache := by
      rw [Run.count_cache, Run.readCache_cache]
      exact r.cache.get_within _ _
    refine ⟨?_, fun _ _ => hwithin, fun hmiss => absurd hk (hmiss granted)⟩
    intro allowed hk'
    rw [hk.unique hk']
    exact ⟨rfl, hwithin⟩
  computed {n p r granted r'} hmiss _ _ := by
    refine ⟨fun allowed hk => absurd hk (hmiss allowed), nofun, ?_⟩
    rintro - allowed ttl ⟨⟩ httl
    rw [Run.writeCache_ttl?] at httl
    rw [Run.writeCache_cache, Run.writeCache_clock]
    exact Cache.holds_written httl _ granted _
  notComputed {n p r e r'} hmiss _ hv := by
    refine ⟨fun allowed hk => absurd hk (hmiss allowed), ?_, nofun⟩
    rintro e ⟨⟩
    rw [hv e rfl]
    show ((r.readCache (s.scope.key p)).2).cache.Within r.cache
    rw [Run.readCache_cache]
    exact r.cache.get_within _ _

section runs

variable {allowed : Bool} (seen : SeenGroups)

/-- A search answers what is live. -/
theorem run_of_knows (h : r.Knows (s.scope.key p) allowed) : (s.run seen p r).1 = .ok allowed :=
  (((Cases.writes s).cached s.limit p (r.beginSearch (s.scope.key p) seen)).1 allowed h).1

/-- A search for what is live leaves the cache alone. -/
theorem run_within_of_knows (h : r.Knows (s.scope.key p) allowed) :
    (s.run seen p r).2.cache.Within r.cache :=
  (((Cases.writes s).cached s.limit p (r.beginSearch (s.scope.key p) seen)).1 allowed h).2

/-- A search that fails leaves the cache alone. -/
theorem run_within_of_error {e : Error} (h : (s.run seen p r).1 = .error e) :
    (s.run seen p r).2.cache.Within r.cache :=
  ((Cases.writes s).cached s.limit p (r.beginSearch (s.scope.key p) seen)).2.1 e h

/-- What a search finds out is held for a time to live. -/
theorem run_holds {ttl : Nat} (hmiss : ∀ allowed, ¬ r.Knows (s.scope.key p) allowed)
    (httl : r.cache.ttl? = some ttl) (h : (s.run seen p r).1 = .ok allowed) :
    (s.run seen p r).2.cache.Holds (s.scope.key p) allowed
      ((s.run seen p r).2.clock.elapsed + ttl) := by
  have httl' : (s.run seen p r).2.cache.ttl? = some ttl :=
    (s.run_reaches seen p r).ttl?_eq.trans httl
  exact ((Cases.writes s).cached s.limit p (r.beginSearch (s.scope.key p) seen)).2.2 hmiss allowed
    ttl h httl'

end runs

end Search

/-! ### Queries -/

namespace Policy

open Run (Lasting)

variable {policy : Policy} {svc : Service σ} {r r' : Run σ} {q : Query}

theorem QueryMove.lasting (h : policy.QueryMove svc r r') (hu : r.cache.Unbounded) :
    Lasting r r' := by
  cases h with
  | ask q r => exact Run.lasting_ask svc q hu
  | count o r => exact Run.lasting_count o hu
  | setAside capacity r => exact Run.lasting_setAside capacity hu
  | search q r => exact (policy.search svc q).run_lasting .empty q.principal hu

theorem QueryMoves.lasting (h : policy.QueryMoves svc r r') (hu : r.cache.Unbounded) :
    Lasting r r' := by
  induction h with
  | refl => exact .refl hu
  | tail _ h ih => exact ih.trans (h.lasting ih.unbounded)

/-- An evaluation says yes if a yes on the query is held and does not expire before the end. -/
theorem Cases.yes_of_holds (policy : Policy) (svc : Service σ) (expiry : Nat) :
    policy.Cases svc (fun depth q r out => policy.QueryMoves svc r out.2 ∧
      (r.cache.Unbounded → r.cache.Holds q.key true expiry → out.2.clock.elapsed < expiry →
        0 < depth → out.1 = .ok true)) where
  tooDeep := ⟨.refl, fun _ _ _ hdepth => absurd hdepth (Nat.lt_irrefl 0)⟩
  superUser ha :=
    ⟨(ha.queryMoves superUserQuery_asks fun _ _ _ h => h.1).tail (.count _ _), fun _ _ _ _ => rfl⟩
  collective hs _ hc _ :=
    ⟨((hs.queryMoves superUserQuery_asks fun _ _ _ h => h.1).trans
      (hc.queryMoves collectiveQuery_asks fun _ _ _ h => h.1)).tail (.count _ _),
      fun _ _ _ _ => rfl⟩
  searched {depth q r r₁ r₂} hs _ hc _ := by
    have hbroader : policy.QueryMoves svc r r₂ :=
      (hs.queryMoves superUserQuery_asks fun _ _ _ h => h.1).trans
        (hc.queryMoves collectiveQuery_asks fun _ _ _ h => h.1)
    have haside : policy.QueryMoves svc r (r₂.setAside policy.seenCapacity) :=
      hbroader.tail (.setAside policy.seenCapacity r₂)
    refine ⟨haside.tail (.search q _), ?_⟩
    intro hu hheld hlive _
    have hlasting := haside.lasting hu
    have hsearch := (policy.search svc q).run_lasting .empty q.principal hlasting.unbounded
    have hbegun := Nat.lt_of_le_of_lt hsearch.elapsed hlive
    exact Search.run_of_knows (s := policy.search svc q) .empty (hlasting.knows hheld hbegun)

theorem hasPermission_of_holds {expiry : Nat} (hu : r.cache.Unbounded)
    (h : r.cache.Holds q.key true expiry)
    (he : (policy.hasPermission svc q r).2.clock.elapsed < expiry) :
    (policy.hasPermission svc q r).1 = true := by
  obtain ⟨hmoves, hyes⟩ :=
    (Cases.yes_of_holds policy svc expiry).evaluate generalizationDepth q r
  have hcounts := (hasPermission_counts q r).queryMoves.lasting (hmoves.lasting hu).unbounded
  rw [hasPermission_fst_eq_true_iff]
  exact hyes hu h (Nat.lt_of_le_of_lt hcounts.elapsed he) (by decide)

/-- A decision that is loaded is held for a time to live. -/
theorem loadInCache_holds {ttl : Nat} (httl : r.cache.ttl? = some ttl) (hu : r.cache.Unbounded)
    (h : (policy.loadInCache svc q r).1 = true) :
    let loaded := (policy.loadInCache svc q r).2
    loaded.cache.Unbounded ∧ loaded.cache.Holds q.key true (loaded.clock.elapsed + ttl) := by
  have hanew : Lasting (r.setAside policy.seenCapacity) _ :=
    (policy.search svc q).runAnew_lasting .empty q.principal hu
  have hpasses := ((policy.search svc q).runAnew_reaches .empty q.principal
    (r.setAside policy.seenCapacity)).passes
  rcases policy.loadInCache_cases svc q r with
    ⟨e, r₁, hout, hloaded⟩ | ⟨granted, r₁, hout, hloaded⟩
  · rw [hloaded] at h
    cases h
  · rw [hout] at hanew hpasses
    rw [hloaded] at h ⊢
    obtain rfl : granted = true := h
    have hwritten : r₁.cache.ttl? = some ttl := hpasses.ttl?.trans httl
    simp only [Run.count_cache, Run.writeCache_cache]
    refine ⟨hanew.unbounded.written q.key true _, ?_⟩
    have hclock : ((r₁.writeCache q.key true).count .cachePrewarm).clock = r₁.clock :=
      r₁.writeCache_clock q.key true
    rw [hclock]
    exact Cache.holds_written hwritten q.key true _

end Policy

/-! ### Sessions -/

/-- Whether the step leaves the cache to queries: it asks, searches by hand, lets time pass or
lets the collaborators change. -/
def Step.isQuerying : Step σ → Bool
  | .loadInCache _ | .cache _ | .refresh => false
  | _ => true

namespace Session

open Run (Lasting)

variable {s : Session σ}

/-- A querying step does parts of queries, searches by hand, or idles. -/
theorem step_queries {step : Step σ} (hstep : step.isQuerying = true) :
    s.policy.QueryParts s.service s.run (s.step step).2.run ∨ (∃ m, step = .search m) ∨
      s.run.Idles (s.step step).2.run := by
  cases step with
  | check query => exact .inl (Policy.check_queryParts query s.run)
  | evaluateBatch principal owner activity targets =>
      exact .inl (Policy.evaluateBatch_queryParts principal owner activity targets s.run)
  | checkByName principal owner activity target =>
      exact .inl (Policy.checkByName_queryParts principal owner activity target s.run)
  | resolveNames owner activity target =>
      have h : s.policy.QueryParts s.service s.run
          (Policy.resolveNames s.service owner activity target s.run).2 :=
        (Policy.resolveNames_resolves owner activity target s.run).queryParts
      simp only [step]
      generalize Policy.resolveNames s.service owner activity target s.run = out at h ⊢
      rcases out with ⟨_ | ⟨o, a, t⟩, r⟩ <;> exact .inl h
  | search m => exact .inr (.inl ⟨m, rfl⟩)
  | register query => exact .inr (.inr ⟨rfl, Nat.le_refl _, rfl⟩)
  | unregister query => exact .inr (.inr ⟨rfl, Nat.le_refl _, rfl⟩)
  | registrySize => exact .inr (.inr ⟨rfl, Nat.le_refl _, rfl⟩)
  | metrics => exact .inr (.inr ⟨rfl, Nat.le_refl _, rfl⟩)
  | advance ms => exact .inr (.inr (s.run.advance_idles _))
  | setWall ms => exact .inr (.inr ⟨rfl, Nat.le_refl _, rfl⟩)
  | alter change => exact .inr (.inr ⟨rfl, Nat.le_refl _, rfl⟩)
  | loadInCache query => cases hstep
  | cache command => cases hstep
  | refresh => cases hstep

theorem step_lasting {step : Step σ} (hstep : step.isQuerying = true)
    (hu : s.run.cache.Unbounded) : Lasting s.run (s.step step).2.run := by
  rcases step_queries hstep with hparts | ⟨m, rfl⟩ | hidles
  · exact hparts.queryMoves.lasting hu
  · show Lasting s.run (m.perform s.service s.run).2
    unfold ManualSearch.perform
    cases m.cached with
    | true => exact Search.run_lasting _ _ _ hu
    | false => exact Search.runAnew_lasting _ _ _ hu
  · exact hidles.lasting hu

theorem steps_lasting {steps : List (Step σ)} (hsteps : ∀ step ∈ steps, step.isQuerying = true)
    (hu : s.run.cache.Unbounded) : Lasting s.run (s.steps steps).run := by
  induction steps generalizing s with
  | nil => exact .refl hu
  | cons step steps ih =>
      obtain ⟨hstep, hrest⟩ := List.forall_mem_cons.mp hsteps
      have hfirst := step_lasting hstep hu
      exact hfirst.trans (ih hrest hfirst.unbounded)

/-- While steps make queries, let time pass and let the collaborators change in any way, a decision
in a cache without a bound stays as it is until it expires: at any point between two moves of a
query it is held with its answer and its expiry, it has not been written, every read of it has
found its answer, and a search for it gives that answer. So after a yes was loaded, every query
for it that ends before the yes expires is answered yes. -/
theorem live_decisions_last {store : Store} (hcache : s.run.cache = .timed store)
    (hunbounded : store.capacity = 0) {steps : List (Step σ)}
    (hsteps : ∀ step ∈ steps, step.isQuerying = true) :
    (∀ r, s.policy.QueryMoves s.service (s.steps steps).run r →
      ∀ key d, store.find? key = some d → r.clock.elapsed < d.expiresAt →
        r.cache.Holds key d.allowed d.expiresAt ∧
        Run.Throughout (Event.Heeds key d.allowed) s.run r ∧
        ∀ (search : Search σ) (seen : SeenGroups) (p : Principal), search.scope.key p = key →
          (search.run seen p r).1 = .ok d.allowed) ∧
    ∀ q, (s.policy.loadInCache s.service q s.run).1 = true →
      let loaded := (s.step (.loadInCache q)).2
      let out := s.policy.hasPermission s.service q (loaded.steps steps).run
      out.2.clock.elapsed < loaded.run.clock.elapsed + store.ttl → out.1 = true := by
  have hu : s.run.cache.Unbounded := by rwa [hcache]
  constructor
  · intro r hmoves key d hd hlive
    have hsession : Lasting s.run (s.steps steps).run := steps_lasting hsteps hu
    have hlasting := hsession.trans (hmoves.lasting hsession.unbounded)
    have hheld : s.run.cache.Holds key d.allowed d.expiresAt := by
      rw [hcache]
      exact ⟨d, hd, rfl, rfl⟩
    refine ⟨hlasting.holds key _ _ hheld hlive, hlasting.heeds key _ _ hheld hlive, ?_⟩
    rintro search seen p rfl
    exact Search.run_of_knows seen (hlasting.knows hheld hlive)
  · intro q hyes loaded out hlive
    have httl : s.run.cache.ttl? = some store.ttl := by rw [hcache]; rfl
    obtain ⟨hu', hheld⟩ : loaded.run.cache.Unbounded ∧
        loaded.run.cache.Holds q.key true (loaded.run.clock.elapsed + store.ttl) :=
      Policy.loadInCache_holds httl hu hyes
    have hlasting : Lasting loaded.run (loaded.steps steps).run := steps_lasting hsteps hu'
    have hmoves : s.policy.QueryMoves s.service (loaded.steps steps).run out.2 :=
      Policy.hasPermission_queryMoves q _
    have hbegun := Nat.lt_of_le_of_lt (hmoves.lasting hlasting.unbounded).elapsed hlive
    exact Policy.hasPermission_of_holds hlasting.unbounded (hlasting.holds _ _ _ hheld hbegun) hlive

/-- The staff session with room for any number of decisions, and a yes on the group in its cache. -/
def warmSession : Session StagedDirectory :=
  let store : Store :=
    { ttl := 60000000000, capacity := 0
      decisions := Table.empty.insert (staffQuery ⟨.group, "staff"⟩).key ⟨true, 60000000000, 0⟩ }
  { staffSession with run := { staffSession.run with cache := .timed store } }

/-- All records are dropped, the person cannot be looked up any more, its group is asked about,
and nearly a time to live passes. -/
def outage : List (Step StagedDirectory) :=
  [.alter (·.change (.directory .clearPermissions)),
    .alter (·.change (.fail ⟨"permissions", "person.alice"⟩)),
    staffCheck ⟨.group, "staff"⟩, .advance 59999]

/-- The yes on the group is held through the outage, and a yes loaded for the person is served
after it. -/
theorem live_decisions_last_through_outage :
    let q := staffQuery ⟨.person, "alice"⟩
    let loaded := (warmSession.step (.loadInCache q)).2
    (warmSession.steps outage).run.cache.Holds (staffQuery ⟨.group, "staff"⟩).key true 60000000000 ∧
      (warmSession.policy.hasPermission warmSession.service q (loaded.steps outage).run).1 =
        true := by
  intro q loaded
  have hsteps : ∀ step ∈ outage, step.isQuerying = true := by decide
  obtain ⟨hheld, hserved⟩ := live_decisions_last (s := warmSession) rfl rfl hsteps
  constructor
  · exact (hheld _ .refl _ _ (Table.get?_insert_self ..) (by decide +kernel)).1
  · exact hserved q (by decide +kernel) (by decide +kernel)

end Session

end GrantPath
