import GrantPath.Proofs.ColdQueries
import GrantPath.Proofs.PlainSearch
import GrantPath.Proofs.Repetition

/-! # Queries for one principal do not depend on each other

A search from `p` leaves decisions about other principals, and around a cycle it writes provisional
decisions about `p` itself. Later searches from other principals may see the difference. Searches
from `p` do not, as long as all searches begin there and the clocks stand still: in every scope of
which anything is known the outcome of a cold search from `p` is known too, as it was written last
(`Run.Led`).

* What a search from an empty cache finds out is told by the answers alone (`Answers.outcome`), and
  a search from `p` in a run that is led by `p` finds the same and keeps it led (`Search.run_led`).
* So queries for `p` are answered as their cold searches tell them (`Policy.told_by_outcome`), by
  themselves, one after the other and in batches, whatever was asked for `p` before
  (`Session.queries_for_one_principal`). -/

namespace GrantPath

open Relation

variable {σ : Type} {a : Answers} {now : Instant} {limit : Nat} {s s' : Scope} {p : Principal}

/-! ### The outcome of a cold search -/

namespace Answers

/-- What a search with so many steps finds out where nothing is remembered. -/
def outcome (a : Answers) (s : Scope) (now : Instant) (limit : Nat) (p : Principal) :
    Except Error Bool :=
  (a.explore s now limit limit p ⟨.empty, 0⟩).1

/-- An exploration depends on the scope only by its verdicts. -/
theorem explore_eq_of_verdict (h : ∀ q, a.verdict s now q = a.verdict s' now q) (n : Nat) :
    a.explore s now limit n = a.explore s' now limit n := by
  induction n with
  | zero =>
      funext q w
      simp only [explore, exploreFrom, h]
  | succ n ih =>
      funext q w
      simp only [explore, exploreFrom, h, ih]

/-- Scopes with the same key have the same outcomes. -/
theorem Keyed.outcome_eq (hk : a.Keyed) (h : s.Alike s') (p : Principal) :
    a.outcome s now limit p = a.outcome s' now limit p := by
  rw [outcome, outcome, explore_eq_of_verdict fun q => hk.verdict_eq h]

end Answers

/-! ### What a principal leads -/

namespace Run

variable {svc : Service σ} {r r' : Run σ}

/-- Nothing that is held expires later than what is written now. -/
def Timely (r : Run σ) : Prop :=
  ∀ key d, r.cache.find? key = some d → d.expiresAt ≤ r.clock.elapsed + r.cache.ttl

theorem Timely.of_within (h : r.Timely) (hc : r'.cache.Within r.cache)
    (ht : r.clock.elapsed ≤ r'.clock.elapsed) : r'.Timely := by
  intro key d hd
  obtain ⟨d₀, hd₀, -, he⟩ := hc.2 key d hd
  have hle := h key d₀ hd₀
  rw [hc.ttl_eq]
  omega

theorem Timely.act (h : r.Timely) (ha : Act svc r r') : r'.Timely := by
  have helapsed := ha.elapsed_le
  cases ha with
  | read key r =>
      apply h.of_within _ helapsed
      rw [readCache_cache]
      exact r.cache.get_within key _
  | write key allowed r =>
      intro k d hd
      rw [Cache.ttl, writeCache_ttl?, writeCache_clock]
      rcases find?_writeCache hd with ⟨-, -, he⟩ | ⟨-, d₀, hd₀, -, he⟩
      · exact Nat.le_of_eq he
      · rw [← he]
        exact h k d₀ hd₀
  | ask q r => exact h.of_within (.refl _) helapsed
  | count o r => exact h.of_within (.refl _) helapsed
  | see m r => exact h.of_within (.refl _) helapsed
  | beginSearch key seen r => exact h.of_within (.refl _) helapsed

theorem Timely.reaches (h : r.Timely) (hr : Reaches svc r r') : r'.Timely := by
  induction hr with
  | refl => exact h
  | tail _ ha ih => exact ih.act ha

/-- What is written now is known now if anything is. -/
theorem Timely.knows_of_holds (h : r.Timely) {key k : DecisionKey} {allowed found : Bool}
    (hknown : r.Knows key found)
    (hheld : ∀ ttl, r.cache.ttl? = some ttl → r.cache.Holds k allowed (r.clock.elapsed + ttl)) :
    r.Knows k allowed := by
  obtain ⟨d, hd, -, hlive⟩ := knows_iff.mp hknown
  have hle := h key d hd
  cases httl : r.cache.ttl? with
  | none => exact absurd httl hknown.ttl?_ne_none
  | some ttl =>
      rw [Cache.ttl, httl, Option.getD_some] at hle
      exact Run.knows_of_holds (hheld ttl httl) (by omega)

/-- In every scope of which anything is known, the outcome of a cold search from the principal is
known for it; and the cache has no bound. -/
structure Led (a : Answers) (limit : Nat) (p : Principal) (r : Run σ) : Prop where
  unbounded : r.cache.Unbounded
  timely : r.Timely
  knows : ∀ (s : Scope) q found, r.Knows (s.key q) found →
    ∃ allowed, r.Knows (s.key p) allowed ∧ a.outcome s r.clock.wall limit p = .ok allowed

theorem led_of_empty (hu : r.cache.Unbounded) (h : r.cache.size = 0) : r.Led a limit p where
  unbounded := hu
  timely key d hd := by
    rw [Cache.find?_eq_none_of_size_eq_zero h key] at hd
    cases hd
  knows s q found hk := by
    obtain ⟨d, hd, -⟩ := knows_iff.mp hk
    rw [Cache.find?_eq_none_of_size_eq_zero h (s.key q)] at hd
    cases hd

theorem Led.of_eq (h : r.Led a limit p) (hc : r'.cache = r.cache) (ht : r'.clock = r.clock) :
    r'.Led a limit p := by
  obtain ⟨hu, htimely, hknows⟩ := h
  constructor
  · rwa [hc]
  · rwa [Timely, hc, ht]
  · unfold Knows at hknows ⊢
    rwa [hc, ht]

/-- While the clocks stand still, a run stays led if of every scope of which anything is known now
the same was known before. -/
theorem Led.of_lasting (h : r.Led a limit p) (hreach : Reaches svc r r')
    (hclock : r'.clock = r.clock) (hlasting : Lasting r r')
    (hknown : ∀ (s : Scope) q found, r'.Knows (s.key q) found →
      (∃ found', r.Knows (s.key q) found') ∨
        ∃ allowed, r'.Knows (s.key p) allowed ∧ a.outcome s r'.clock.wall limit p = .ok allowed) :
    r'.Led a limit p where
  unbounded := hlasting.unbounded
  timely := h.timely.reaches hreach
  knows s q found hk := by
    rcases hknown s q found hk with ⟨found', hbefore⟩ | hled
    · obtain ⟨allowed, hp, hout⟩ := h.knows s q found' hbefore
      obtain ⟨expiry, hheld, hlive⟩ := knows_iff_holds.mp hp
      refine ⟨allowed, hlasting.knows hheld (by rwa [hclock]), ?_⟩
      rwa [hclock]
    · exact hled

end Run

namespace Search

variable {s : Search σ} {st : σ} {r : Run σ}

section still

variable (hs : s.service.Still st a) (hst : r.state = st)

include hs hst

/-- A search that starts cold finds out what the answers tell. -/
theorem run_eq_outcome (hcold : ∀ q found, ¬ r.Knows (s.scope.key q) found) :
    (s.run .empty p r).1 = a.outcome s.scope r.clock.wall s.limit p := by
  rw [(run_eq_explore hs hst hcold .empty).1]
  exact (Answers.explore_congr s.limit p ⟨.empty, r.lookUps⟩ ⟨.empty, 0⟩ rfl).1

/-- In a run that is led by the principal a search from it has the outcome of a cold one, and the
run stays led. -/
theorem run_led (hk : a.Keyed) (h : r.Led a s.limit p) :
    (s.run .empty p r).1 = a.outcome s.scope r.clock.wall s.limit p ∧
      (s.run .empty p r).2.Led a s.limit p := by
  have hreach := s.run_reaches .empty p r
  have hclock := hreach.clock_eq hs hst
  have hlasting := s.run_lasting .empty p h.unbounded
  -- A search that leaves the cache alone keeps the run led.
  have hkept (hwithin : (s.run .empty p r).2.cache.Within r.cache) :
      (s.run .empty p r).2.Led a s.limit p := by
    apply h.of_lasting hreach hclock hlasting
    intro s' q found hknown
    exact .inl ⟨found, hknown.of_within hwithin hreach.elapsed_le⟩
  by_cases hknown : ∃ found, r.Knows (s.scope.key p) found
  · obtain ⟨found, hfound⟩ := hknown
    obtain ⟨allowed, hp, hout⟩ := h.knows s.scope p found hfound
    exact ⟨(run_of_knows .empty hp).trans hout.symm, hkept (run_within_of_knows .empty hp)⟩
  · have hcold : ∀ q found, ¬ r.Knows (s.scope.key q) found := by
      intro q found hfound
      obtain ⟨allowed, hp, -⟩ := h.knows s.scope q found hfound
      exact hknown ⟨allowed, hp⟩
    have hout := run_eq_outcome (p := p) hs hst hcold
    refine ⟨hout, ?_⟩
    cases hrun : (s.run .empty p r).1 with
    | error e => exact hkept (run_within_of_error .empty hrun)
    | ok allowed =>
        apply h.of_lasting hreach hclock hlasting
        intro s' q found hfound
        have hscoped : (s.run .empty p r).2.Upholds
            fun key allowed => (∃ q, key = s.scope.key q) ∨ r.Knows key allowed :=
          run_scoped (fun q _ => .inl ⟨q, rfl⟩) .empty fun key allowed hknows => .inr hknows
        rcases hscoped _ _ hfound with ⟨q', hkey⟩ | hbefore
        · obtain ⟨-, halike⟩ := Scope.key_eq_key_iff.mp hkey
          have hp : s'.key p = s.scope.key p := Scope.key_eq_key_iff.mpr ⟨rfl, halike⟩
          refine .inr ⟨allowed, ?_, ?_⟩
          · rw [hp]
            apply (h.timely.reaches hreach).knows_of_holds hfound
            intro ttl httl
            exact run_holds .empty (hcold p) (hreach.ttl?_eq.symm.trans httl) hrun
          · rw [hk.outcome_eq halike, hclock, ← hout, hrun]
        · exact .inl ⟨found, hbefore⟩

end still

end Search

/-! ### Queries -/

namespace Policy

variable {policy : Policy} {svc : Service σ} {st : σ} {clock : Clock} {r r' : Run σ} {q : Query}

/-- Nothing has moved, and the run is led by the principal. -/
structure Rests (policy : Policy) (st : σ) (a : Answers) (clock : Clock) (p : Principal)
    (r : Run σ) : Prop where
  state : r.state = st
  clock : r.clock = clock
  led : r.Led a policy.maxDepth p

theorem Rests.of_eq (h : Rests policy st a clock p r) (hst : r'.state = r.state)
    (ht : r'.clock = r.clock) (hc : r'.cache = r.cache) : Rests policy st a clock p r' :=
  ⟨hst.trans h.state, ht.trans h.clock, h.led.of_eq hc ht⟩

theorem Rests.asks (hs : svc.Still st a) (h : Rests policy st a clock p r) (hasks : Asks svc r r') :
    Rests policy st a clock p r' := by
  induction hasks with
  | refl => exact h
  | @tail m r' _ hask ih =>
      obtain ⟨request, rfl⟩ := hask
      have hreach : Run.Reaches svc m (m.ask svc request).2 := .single (.ask request m)
      have hst := hreach.state_eq hs.1 ih.state
      exact ih.of_eq (hst.trans ih.state.symm) (hreach.clock_eq hs ih.state) rfl

/-- Where nothing moves, searches from the principal say what the answers tell. -/
theorem told_by_outcome (hs : svc.Still st a) (hk : a.Keyed) (clock : Clock) (p : Principal) :
    policy.Told svc st p (fun r _ => r.state = st ∧ r.clock = clock) (Rests policy st a clock p)
      (Rests policy st a clock p)
      fun q => a.outcome q.scope clock.wall policy.maxDepth q.principal = .ok true where
  state hd := hd.1
  split {r m r'} hd h₁ _ := by
    have hmoves := QueryMoves.moves h₁
    exact ⟨hd, Moves.state_eq hs.1 hmoves hd.1, (Moves.clock_eq hs hmoves hd.1).1.trans hd.2⟩
  asks hr h := hr.asks hs h
  setAside capacity hr := hr.of_eq rfl rfl rfl
  count o hr := hr.of_eq rfl rfl rfl
  search {q r} hp hd hr := by
    subst hp
    obtain ⟨hout, hled⟩ := Search.run_led (s := policy.search svc q) hs hr.state hk hr.led
    have hreach := (policy.search svc q).run_reaches .empty q.principal r
    have hrests : Rests policy st a clock q.principal
        ((policy.search svc q).run .empty q.principal r).2 :=
      ⟨hreach.state_eq hs.1 hr.state, (hreach.clock_eq hs hr.state).trans hr.clock, hled⟩
    refine ⟨?_, fun _ => hrests, fun _ => hrests⟩
    rw [hout, hr.clock]
    exact Iff.rfl

section rests

variable (hs : svc.Still st a) (hk : a.Keyed) (h : Rests policy st a clock p r)

include hs hk h

theorem Rests.hasPermission_iff (hp : q.principal = p) :
    (policy.hasPermission svc q r).1 = true ↔ policy.Grants a
      (fun q => a.outcome q.scope clock.wall policy.maxDepth q.principal = .ok true)
      generalizationDepth q :=
  (told_by_outcome hs hk clock p).hasPermission_iff hs.1 hp ⟨h.state, h.clock⟩ h

theorem Rests.hasPermission (hp : q.principal = p) :
    Rests policy st a clock p (policy.hasPermission svc q r).2 :=
  (told_by_outcome hs hk clock p).hasPermission_keeps hs.1 hp ⟨h.state, h.clock⟩ h

theorem Rests.check {query : PartialQuery} (hp : query.principal = some p) :
    Rests policy st a clock p (policy.check svc query r).2 := by
  unfold Policy.check
  cases hq : query.complete? with
  | none => exact h.of_eq rfl rfl rfl
  | some q =>
      apply h.hasPermission hs hk
      exact Option.some.inj ((PartialQuery.parts_of_complete? hq).1.symm.trans hp)

theorem Rests.evaluateBatch (owner : Owner) (activity : Activity) (targets : List Target) :
    Rests policy st a clock p (policy.evaluateBatch svc p owner activity targets r).2 :=
  ((told_by_outcome hs hk clock p).evaluateBatch hs.1 owner activity targets r
    ⟨h.state, h.clock⟩ h).2

/-! ### Two runs at rest -/

variable {clock' : Clock} (h' : Rests policy st a clock' p r') (hwall : clock.wall = clock'.wall)

include h' hwall

/-- Two runs at rest at the same wall clock answer a query for the principal alike. -/
theorem Rests.hasPermission_eq (hp : q.principal = p) :
    (policy.hasPermission svc q r).1 = (policy.hasPermission svc q r').1 := by
  rw [Bool.eq_iff_iff, h.hasPermission_iff hs hk hp, h'.hasPermission_iff hs hk hp, hwall]

theorem Rests.check_eq {query : PartialQuery} (hp : query.principal = some p) :
    (policy.check svc query r).1 = (policy.check svc query r').1 := by
  unfold Policy.check
  cases hq : query.complete? with
  | none => rfl
  | some q =>
      apply h.hasPermission_eq hs hk h' hwall
      exact Option.some.inj ((PartialQuery.parts_of_complete? hq).1.symm.trans hp)

/-- A batch in one run is answered as single queries in the other. -/
theorem Rests.evaluateBatch_eq (owner : Owner) (activity : Activity) (targets : List Target) :
    (policy.evaluateBatch svc p owner activity targets r).1 = targets.map fun target =>
      (policy.check svc ⟨true, some p, some owner, some activity, some target⟩ r').1 := by
  obtain ⟨hanswers, -⟩ := (told_by_outcome hs hk clock p).evaluateBatch hs.1 owner activity targets
    r ⟨h.state, h.clock⟩ h
  symm
  rw [← List.forall₂_eq_eq_eq, List.forall₂_map_left_iff]
  apply hanswers.imp
  intro target granted hgranted
  have hiff := h'.hasPermission_iff (q := ⟨p, owner, activity, some target⟩) hs hk rfl
  rw [← hwall, ← hgranted, ← Bool.eq_iff_iff] at hiff
  exact hiff

end rests

end Policy

/-! ### Sessions -/

/-- Whether the step asks queries for the principal, one or a batch. -/
def Step.isFor (p : Principal) : Step σ → Bool
  | .check q => q.principal = some p
  | .evaluateBatch principal .. => principal = p
  | _ => false

theorem Step.querying_of_isFor {step : Step σ} (h : step.isFor p = true) :
    step.isQuerying = true ∧ step.isOrdinary = true := by
  cases step with
  | check q => exact ⟨rfl, rfl⟩
  | evaluateBatch principal owner activity targets => exact ⟨rfl, rfl⟩
  | _ => cases h

/-- The queries that a targeted step asks have targets. -/
theorem Step.target_of_asked {step : Step σ} {q : PartialQuery} (h : .asked q ∈ step.questions)
    (ht : step.isTargeted = true) : q.target.isSome = true := by
  cases step with
  | check query =>
      obtain rfl : q = query := Question.asked.inj (List.mem_singleton.mp h)
      exact ht
  | evaluateBatch principal owner activity targets =>
      obtain ⟨target, -, heq⟩ := List.mem_map.mp h
      cases heq
      rfl
  | checkByName => cases List.mem_singleton.mp h
  | _ => cases h

namespace Session

open Policy (Rests)

variable {s : Session σ} {st : σ} {clock : Clock}

theorem step_rests (hs : s.service.Still st a) (hk : a.Keyed)
    (h : Rests s.policy st a clock p s.run) {step : Step σ} (hstep : step.isFor p = true) :
    Rests s.policy st a clock p (s.step step).2.run := by
  cases step with
  | check query => exact h.check hs hk (of_decide_eq_true hstep)
  | evaluateBatch principal owner activity targets =>
      obtain rfl : principal = p := of_decide_eq_true hstep
      exact h.evaluateBatch hs hk owner activity targets
  | _ => cases hstep

theorem steps_rests (hs : s.service.Still st a) (hk : a.Keyed)
    (h : Rests s.policy st a clock p s.run) {steps : List (Step σ)}
    (hsteps : ∀ step ∈ steps, step.isFor p = true) :
    Rests s.policy st a clock p (s.steps steps).run := by
  induction steps generalizing s with
  | nil => exact h
  | cons step steps ih =>
      obtain ⟨hstep, hrest⟩ := List.forall_mem_cons.mp hsteps
      have hs' : (s.step step).2.service.Still st a := by rwa [step_service]
      have hfirst := step_rests hs hk h hstep
      rw [← s.step_policy step] at hfirst ⊢
      exact ih hs' hfirst hrest

/-- What is answered was asked by one of the steps. -/
theorem asked_of_answered {steps : List (Step σ)} {x : Question} {b : Bool}
    (hx : (x, b) ∈ s.answered steps) : ∃ step ∈ steps, x ∈ step.questions := by
  induction steps generalizing s with
  | nil => cases hx
  | cons step steps ih =>
      rw [answered, List.mem_append] at hx
      rcases hx with hx | hx
      · refine ⟨step, List.mem_cons_self, ?_⟩
        cases hreport : (s.step step).1 with
        | error e =>
            rw [hreport] at hx
            cases hx
        | ok report =>
            rw [hreport] at hx
            exact (List.of_mem_zip hx).1
      · obtain ⟨step', hmem, hasked⟩ := ih hx
        exact ⟨step', List.mem_cons_of_mem step hmem, hasked⟩

section cold

variable {clock' : Clock} {cold : Run σ} (hs : s.service.Still st a) (hk : a.Keyed)
  (hcold : Rests s.policy st a clock' p cold) (hwall : clock.wall = clock'.wall)
  (h : Rests s.policy st a clock p s.run)

include hs hk hcold hwall h

theorem step_answered_cold {step : Step σ} (hstep : step.isFor p = true) {report : Report}
    (hreport : (s.step step).1 = .ok report) {q : PartialQuery} {b : Bool}
    (hx : (.asked q, b) ∈ step.questions.zip report.answers) :
    b = (s.policy.check s.service q cold).1 := by
  cases step with
  | check query =>
      cases hreport
      obtain ⟨rfl, rfl⟩ : q = query ∧ b = (s.policy.check s.service query s.run).1 := by
        simpa [Step.questions, Report.answers] using hx
      exact h.check_eq hs hk hcold hwall (of_decide_eq_true hstep)
  | evaluateBatch principal owner activity targets =>
      obtain rfl : principal = p := of_decide_eq_true hstep
      cases hreport
      have hbatch := h.evaluateBatch_eq hs hk hcold hwall owner activity targets
      simp only [Step.questions, Report.answers, hbatch, List.zip_map', List.mem_map] at hx
      obtain ⟨target, -, heq⟩ := hx
      cases heq
      rfl
  | _ => cases hstep

theorem answered_cold {steps : List (Step σ)} (hsteps : ∀ step ∈ steps, step.isFor p = true)
    {q : PartialQuery} {b : Bool} (hx : (.asked q, b) ∈ s.answered steps) :
    b = (s.policy.check s.service q cold).1 := by
  induction steps generalizing s with
  | nil => cases hx
  | cons step steps ih =>
      obtain ⟨hstep, hrest⟩ := List.forall_mem_cons.mp hsteps
      rw [answered, List.mem_append] at hx
      rcases hx with hx | hx
      · cases hreport : (s.step step).1 with
        | error e =>
            rw [hreport] at hx
            cases hx
        | ok report =>
            rw [hreport] at hx
            exact step_answered_cold hs hk hcold hwall h hstep hreport hx
      · have hs' : (s.step step).2.service.Still st a := by rwa [step_service]
        have hfirst := step_rests hs hk h hstep
        rw [← s.step_policy step] at hcold hfirst
        rw [← s.step_policy step, ← s.step_service step]
        exact ih hs' hcold hfirst hrest hx

end cold

section agree

variable (hunbounded : s.run.cache.Unbounded) (hempty : s.run.cache.size = 0)
  {steps : List (Step σ)} (hsteps : ∀ step ∈ steps, step.isFor p = true) {cold : Run σ}
  (hstate : cold.state = s.run.state) (hwall : s.run.clock.wall = cold.clock.wall)
  (hunbounded' : cold.cache.Unbounded) (hempty' : cold.cache.size = 0)

include hunbounded hempty hsteps hstate hwall hunbounded' hempty'

theorem queries_as_cold_of_keyed (hs : s.service.Still s.run.state a) (hk : a.Keyed) :
    (∀ q b, (.asked q, b) ∈ s.answered steps → b = (s.policy.check s.service q cold).1) ∧
      ∀ owner activity targets,
        (s.policy.evaluateBatch s.service p owner activity targets (s.steps steps).run).1 =
          targets.map fun target =>
            (s.policy.check s.service ⟨true, some p, some owner, some activity, some target⟩
              cold).1 := by
  have hfirst : Rests s.policy s.run.state a s.run.clock p s.run :=
    ⟨rfl, rfl, Run.led_of_empty hunbounded hempty⟩
  have hcold : Rests s.policy s.run.state a cold.clock p cold :=
    ⟨hstate, rfl, Run.led_of_empty hunbounded' hempty'⟩
  constructor
  · intro q b hx
    exact answered_cold hs hk hcold hwall hfirst hsteps hx
  · exact (steps_rests hs hk hfirst hsteps).evaluateBatch_eq hs hk hcold hwall

theorem queries_as_cold (hs : s.service.Still s.run.state a)
    (hk : a.Keyed ∨ ∀ step ∈ steps, step.isTargeted = true) :
    (∀ q b, (.asked q, b) ∈ s.answered steps → b = (s.policy.check s.service q cold).1) ∧
      ∀ owner activity targets,
        (s.policy.evaluateBatch s.service p owner activity targets (s.steps steps).run).1 =
          targets.map fun target =>
            (s.policy.check s.service ⟨true, some p, some owner, some activity, some target⟩
              cold).1 := by
  rcases hk with hk | htargets
  · exact queries_as_cold_of_keyed hunbounded hempty hsteps hstate hwall hunbounded' hempty' hs hk
  · have hagrees := s.service.agrees_keyed
    have hquerying : ∀ step ∈ steps, step.isQuerying = true ∧ step.isOrdinary = true :=
      fun step hmem => Step.querying_of_isFor (hsteps step hmem)
    have hrun := congrArg Session.run (steps_congr hagrees hquerying htargets)
    obtain ⟨hanswers, hbatch⟩ :=
      queries_as_cold_of_keyed (s := { s with service := s.service.keyed }) hunbounded hempty
        hsteps hstate hwall hunbounded' hempty' hs.keyed a.keyed_keyed
    rw [answered_congr hagrees hquerying htargets] at hanswers
    rw [hrun] at hbatch
    constructor
    · intro q b hx
      obtain ⟨step, hmem, hasked⟩ := asked_of_answered hx
      rw [← Policy.check_congr hagrees (Step.target_of_asked hasked (htargets step hmem))]
      exact hanswers q b hx
    · intro owner activity targets
      have hsame := hbatch owner activity targets
      simpa only [Policy.evaluateBatch_congr hagrees,
        Policy.check_congr hagrees (q := ⟨_, _, _, _, some _⟩) rfl] using hsame

/-- While nothing changes and the clocks stand still, in a session with a cache that was empty at
first and has no bound, or without a cache, queries for one principal do not depend on each other:
each is answered as with an empty cache. So a batch is answered at any time as single queries with
an empty cache are, and permuting its targets permutes its answers. Where a query has no target, its
decision is that of the query with the empty target key, so either no query is without a target, or
lookups without a target are those with the empty key. This is about the answers of the session: a
machine gives them as long as the clock can show when decisions expire and there is room. -/
theorem queries_for_one_principal (hs : s.service.Still s.run.state a)
    (hk : a.Keyed ∨ ∀ step ∈ steps, step.isTargeted = true) :
    let batch (owner : Owner) (activity : Activity) (targets : List Target) : List Bool :=
      (s.policy.evaluateBatch s.service p owner activity targets (s.steps steps).run).1
    (∀ q b, (.asked q, b) ∈ s.answered steps → b = (s.policy.check s.service q cold).1) ∧
    ∀ owner activity targets,
      batch owner activity targets = (targets.map fun target =>
        (s.policy.check s.service ⟨true, some p, some owner, some activity, some target⟩ cold).1) ∧
      ∀ permuted : List Target, permuted.Perm targets →
        (permuted.zip (batch owner activity permuted)).Perm
          (targets.zip (batch owner activity targets)) := by
  intro batch
  obtain ⟨hanswers, hbatch⟩ :=
    queries_as_cold hunbounded hempty hsteps hstate hwall hunbounded' hempty' hs hk
  refine ⟨hanswers, ?_⟩
  intro owner activity targets
  refine ⟨hbatch owner activity targets, ?_⟩
  intro permuted hperm
  simp only [batch, hbatch, ← List.map_prod_left_eq_zip]
  exact hperm.map _

end agree

/-- A group in two groups, of which the first is in it again and the second has a grant. -/
def loopDirectory : StagedDirectory where
  directory := (((({} : Directory).addMembership ⟨.group, "a"⟩ "b").addMembership
    ⟨.group, "a"⟩ "c").addMembership ⟨.group, "b"⟩ "a").addPermission
      (.assign ⟨.group, "c"⟩ "O" "ACT" "T" .grant)

/-- A session with that directory and room for any number of decisions. -/
def loopSession : Session StagedDirectory :=
  .start { cache := { maxEntries := 0 } } StagedDirectory.service loopDirectory (.startingAt 0 0)

/-- The group is asked about by itself and then in a batch, after another target. -/
def loopSteps : List (Step StagedDirectory) :=
  let q := staffQuery ⟨.group, "a"⟩
  [staffCheck q.principal, .evaluateBatch q.principal q.owner q.activity
    [⟨"U", "Other", .other⟩, ⟨"T", "Target", .other⟩]]

/-- With a refusal known for the group on the way around the loop, the query of the group is
answered yes every time, and so are both targets of the same key in a later batch. -/
theorem queries_for_one_principal_in_loop :
    let q := staffQuery ⟨.group, "a"⟩
    let x : PartialQuery := ⟨true, some q.principal, some q.owner, some q.activity, q.target⟩
    let s := loopSession.steps loopSteps
    s.run.Knows (staffQuery ⟨.group, "b"⟩).key false ∧
      (∀ b, (.asked x, b) ∈ loopSession.answered loopSteps → b = true) ∧
      (s.policy.evaluateBatch s.service q.principal q.owner q.activity
        [⟨"U", "Other", .other⟩, ⟨"T", "Target", .other⟩, ⟨"T", "Portlet", .portlet⟩] s.run).1 =
          [false, true, true] := by
  intro q x s
  have hsteps : ∀ step ∈ loopSteps, step.isFor ⟨.group, "a"⟩ = true := by decide
  have hstill : loopSession.service.Still loopDirectory loopDirectory.answers :=
    StagedDirectory.still rfl
  have hknown : s.run.Knows (staffQuery ⟨.group, "b"⟩).key false := by
    rw [Run.Knows]
    decide +kernel
  have hstate : loopSession.run.state = loopDirectory := rfl
  obtain ⟨hanswers, hbatch⟩ := queries_for_one_principal (s := loopSession) rfl rfl hsteps hstate
    rfl rfl rfl hstill (.inl loopDirectory.keyed)
  refine ⟨hknown, ?_, ?_⟩
  · intro b hx
    exact (hanswers x b hx).trans (by decide +kernel)
  · exact (hbatch q.owner q.activity _).1.trans (by decide +kernel)

/-- If a service looks records up differently without a target and with the empty target key, a
query without a target is answered yes once the other one has been, while with an empty cache it
is answered no. -/
theorem query_without_target_not_as_cold :
    let s := targetsOnlySession
    s.service.Still s.run.state targetsOnly ∧ s.run.cache.size = 0 ∧
      s.answered [.check (askAlice (some emptyTarget)), .check (askAlice none)] =
        [(.asked (askAlice (some emptyTarget)), true), (.asked (askAlice none), true)] ∧
      (s.policy.check s.service (askAlice none) s.run).1 = false :=
  ⟨targetsOnlySession_still, rfl, by decide +kernel, by decide +kernel⟩

end Session

end GrantPath
