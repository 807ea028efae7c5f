import GrantPath.Proofs.Queries
import GrantPath.Session

/-! # What a step does to the run of a session

`Session.Happens` lists what a step can do to the run of a session: it makes moves of the
policy, searches by hand, reads the cache, lets the collaborators change, writes decisions
that no search made, or nothing more than letting time pass and forgetting decisions. Every
step is one of these (`Session.step_happens`), and after every step the run has passed on
(`Session.steps_passes`). -/

namespace GrantPath

open Relation

variable {σ : Type}

namespace Policy

variable {policy : Policy} {svc : Service σ} {r r' : Run σ}

theorem Move.passes (h : policy.Move svc r r') : Run.Passes r r' := by
  rcases h.reaches with h | ⟨capacity, rfl⟩
  · exact h.passes
  · exact .of_within (.refl _) (Nat.le_refl _) rfl

theorem Moves.passes (h : policy.Moves svc r r') : Run.Passes r r' := by
  induction h with
  | refl => exact .refl r
  | tail _ h ih => exact ih.trans h.passes

end Policy

/-- Whether the step writes a decision that no search made. -/
def Step.writesDirectly : Step σ → Bool
  | .cache (.put ..) | .cache (.getOrCompute ..) | .cache (.forceRefresh ..) => true
  | _ => false

namespace Session

/-- What a step does to a run. -/
inductive Happens (policy : Policy) (svc : Service σ) : Step σ → Run σ → Run σ → Prop
  | moved {step : Step σ} {r r' : Run σ} : policy.Moves svc r r' → Happens policy svc step r r'
  | searched (m : ManualSearch) (r : Run σ) :
      Happens policy svc (.search m) r (m.perform svc r).2
  | read (key : DecisionKey) (r : Run σ) :
      Happens policy svc (.cache (.get key)) r (r.readCache key).2
  | altered (change : σ → σ) (r : Run σ) : Happens policy svc (.alter change) r (r.alter change)
  | lapsed {step : Step σ} {r r' : Run σ} : r'.state = r.state → r'.cache.Within r.cache →
      r.clock.elapsed ≤ r'.clock.elapsed → r'.journal = r.journal →
      Happens policy svc step r r'
  | written {step : Step σ} {r r' : Run σ} : step.writesDirectly = true → Run.Passes r r' →
      Happens policy svc step r r'

variable {policy : Policy} {svc : Service σ} {step : Step σ} {r r' : Run σ}

theorem perform_reaches (m : ManualSearch) (r : Run σ) :
    Run.Reaches svc r (m.perform svc r).2 := by
  unfold ManualSearch.perform
  cases m.cached with
  | true => exact Search.run_reaches ⟨svc, m.scope, m.limit⟩ _ _ _
  | false => exact Search.runAnew_reaches ⟨svc, m.scope, m.limit⟩ _ _ _

theorem Happens.passes (h : Happens policy svc step r r') : Run.Passes r r' := by
  cases h with
  | moved h => exact h.passes
  | searched m r => exact (perform_reaches m r).passes
  | read key r => exact r.readCache_passes key
  | altered change r => exact .of_within (.refl _) (Nat.le_refl _) rfl
  | lapsed _ hc ht hj => exact .of_within hc ht hj
  | written _ h => exact h

/-! ### Each step -/

theorem lapsed_of_within {cache : Cache} (hc : cache.Within r.cache) :
    Happens policy svc step r { r with cache } :=
  .lapsed rfl hc (Nat.le_refl _) rfl

theorem purge_happens (r : Run σ) : Happens policy svc step r r.purge.2 := by
  have hc := r.cache.purge_within r.clock.elapsed
  unfold Run.purge Run.countCleanup
  generalize r.cache.purge r.clock.elapsed = out at hc ⊢
  obtain ⟨dropped, cache⟩ := out
  by_cases hd : dropped = 0
  · simp only [if_pos hd]
    exact lapsed_of_within hc
  · simp only [if_neg hd]
    exact .lapsed rfl hc (Nat.le_refl _) rfl

theorem advance_happens (nanos : Nat) (r : Run σ) :
    Happens policy svc step r (r.advance nanos) :=
  .lapsed rfl (.refl _) (r.advance_passes nanos).elapsed rfl

theorem getOrCompute_passes (key : DecisionKey) (c : Computation) (r : Run σ) :
    Run.Passes r (r.getOrCompute key c.perform).2 := by
  have hread := r.readCache_passes key
  unfold Run.getOrCompute
  rcases hout : r.readCache key with ⟨_ | allowed, r₁⟩
  · rw [hout] at hread
    have hcomp := (hread.trans (r₁.count_passes .cacheMiss)).trans
      ((r₁.count .cacheMiss).advance_passes (c.ms * Clock.nanosPerMilli))
    simp only [Computation.perform]
    cases c.outcome with
    | error e => exact hcomp
    | ok allowed => exact hcomp.trans (Run.writeCache_passes key allowed _)
  · rw [hout] at hread
    exact hread.trans (r₁.count_passes .cacheHit)

theorem forceRefresh_passes (key : DecisionKey) (c : Computation) (r : Run σ) :
    Run.Passes r (r.forceRefresh key c.perform).2 := by
  have hcomp := r.advance_passes (c.ms * Clock.nanosPerMilli)
  simp only [Run.forceRefresh, Computation.perform]
  cases c.outcome with
  | error e => exact hcomp
  | ok allowed =>
      exact (hcomp.trans (Run.writeCache_passes key allowed _)).trans
        (Run.count_passes .cachePrewarm _)

theorem cache_happens (c : CacheCommand) (r : Run σ) :
    Happens policy svc (.cache c) r (c.perform r).2 := by
  cases c with
  | get key => exact .read key r
  | put key allowed =>
      exact .written rfl (r.writeCache_passes key allowed)
  | remove key => exact lapsed_of_within (r.cache.remove_within key)
  | getOrCompute key computation =>
      exact .written rfl (getOrCompute_passes key computation r)
  | forceRefresh key computation =>
      exact .written rfl (forceRefresh_passes key computation r)
  | invalidate principal => exact lapsed_of_within (r.cache.invalidate_within principal)
  | purge => exact purge_happens r
  | clear => exact lapsed_of_within r.cache.clear_within
  | size => exact lapsed_of_within (.refl _)
  | stats => exact lapsed_of_within (.refl _)

theorem step_happens (s : Session σ) (step : Step σ) :
    Happens s.policy s.service step s.run (s.step step).2.run := by
  cases step with
  | check query => exact .moved (Policy.check_moves query s.run)
  | evaluateBatch principal owner activity targets =>
      exact .moved (Policy.evaluateBatch_moves principal owner activity targets s.run)
  | checkByName principal owner activity target =>
      exact .moved (Policy.checkByName_moves principal owner activity target s.run)
  | resolveNames owner activity target =>
      have h : s.policy.Moves s.service s.run
          (Policy.resolveNames s.service owner activity target s.run).2 :=
        Policy.resolveNames_moves owner activity target s.run
      simp only [step]
      generalize Policy.resolveNames s.service owner activity target s.run = out at h ⊢
      rcases out with ⟨_ | ⟨o, a, t⟩, r⟩ <;> exact .moved h
  | loadInCache query => exact .moved (Policy.loadInCache_moves query s.run)
  | search m => exact .searched m s.run
  | cache command => exact cache_happens command s.run
  | register query => exact lapsed_of_within (.refl _)
  | unregister query => exact lapsed_of_within (.refl _)
  | registrySize => exact lapsed_of_within (.refl _)
  | refresh => exact .moved (Policy.refreshAll_moves s.registry s.run)
  | metrics => exact lapsed_of_within (.refl _)
  | advance ms => exact advance_happens _ s.run
  | setWall ms => exact .lapsed rfl (.refl _) (Nat.le_refl _) rfl
  | alter change => exact .altered change s.run

/-! ### Many steps -/

/-- A step only changes the run and the registry. -/
theorem step_eq (s : Session σ) (step : Step σ) :
    ∃ run registry, (s.step step).2 = ⟨s.policy, s.service, run, registry⟩ := by
  cases step with
  | resolveNames owner activity target =>
      simp only [step]
      split
      · exact ⟨_, _, rfl⟩
      · exact ⟨_, _, rfl⟩
  | _ => exact ⟨_, _, rfl⟩

@[simp] theorem step_policy (s : Session σ) (step : Step σ) :
    (s.step step).2.policy = s.policy := by
  obtain ⟨run, registry, h⟩ := s.step_eq step
  rw [h]

@[simp] theorem step_service (s : Session σ) (step : Step σ) :
    (s.step step).2.service = s.service := by
  obtain ⟨run, registry, h⟩ := s.step_eq step
  rw [h]

@[simp] theorem steps_service (s : Session σ) (steps : List (Step σ)) :
    (s.steps steps).service = s.service := by
  induction steps generalizing s with
  | nil => rfl
  | cons step steps ih => rw [steps_cons, ih, step_service]

theorem step_passes (s : Session σ) (step : Step σ) : Run.Passes s.run (s.step step).2.run :=
  (s.step_happens step).passes

theorem steps_passes (s : Session σ) (steps : List (Step σ)) :
    Run.Passes s.run (s.steps steps).run := by
  induction steps generalizing s with
  | nil => exact .refl s.run
  | cons step steps ih => exact (s.step_passes step).trans (ih _)

end Session

end GrantPath
