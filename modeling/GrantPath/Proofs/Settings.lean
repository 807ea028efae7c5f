import GrantPath.Proofs.ColdQueries
import GrantPath.Proofs.Warming

/-! # What valid settings are good for

A valid configuration bounds neither the time to live nor the room that a search sets aside from
above, so it does not see to it that a query can be carried out. `Config.carried_out_iff` says when
a query, an evaluation ahead of queries and a pass over the registry are; with the longest time to
live none is that remembers its decision (`Config.longest_ttl_overruns`). The intervals of the
background tasks are not zero. -/

namespace GrantPath

variable {σ : Type}

namespace Config

variable {c : Config} {room : Prop} {r r' : Run σ}

/-- If decisions are remembered, the clock can show when one expires that is written at this reading
of it. -/
def ShowsExpiry (c : Config) (elapsed : Nat) : Prop :=
  c.cache.enabled = true → elapsed + c.ttl < Clock.horizon

/-- The clock can show when each decision expires that is written from one run to the other. -/
def ShowsExpiries (c : Config) (r r' : Run σ) : Prop :=
  ∀ key allowed clock, .write key allowed clock ∈ r.since r' → c.ShowsExpiry clock.elapsed

theorem outlivesClock_eq_false_iff {cache : Cache} (h : cache.limits = c.emptyCache.limits)
    {elapsed : Nat} : cache.outlivesClock elapsed = false ↔ c.ShowsExpiry elapsed := by
  rw [Cache.outlivesClock_congr (Cache.ttl?_congr h), emptyCache, ShowsExpiry]
  cases c.cache.enabled with
  | false => simp [Cache.outlivesClock]
  | true => simp [Cache.outlivesClock, ttl]

/-- What a machine affords with a cache as configured. -/
theorem overrun_iff_of_affords (h : Run.Affords room r r')
    (hlimits : r.cache.limits = c.emptyCache.limits) (hstart : r.overrun = none) :
    r'.overrun = none ↔ room ∧ c.ShowsExpiries r r' := by
  rw [h.overrun_eq_none_iff, Run.throughout_shown_iff h.passes.journal]
  simp only [hstart, true_and, outlivesClock_eq_false_iff hlimits]
  rfl

/-- With a valid configuration, a decision is stored exactly if the clock can show when it expires.
A query, an evaluation ahead of queries and a pass over the registry are carried out exactly if this
is so of all that they store and there is room for what their searches expect. Every background task
has an interval that is not zero. -/
theorem carried_out_iff (hvalid : c.validate = .ok ()) :
    (∀ {σ : Type} (svc : Service σ) (r : Run σ), r.cache.limits = c.emptyCache.limits →
      r.overrun = none →
        (∀ key allowed, (r.writeCache key allowed).overrun = none ↔
          c.ShowsExpiry r.clock.elapsed) ∧
        (∀ q, let after := (c.toPolicy.check svc q r).2
          after.overrun = none ↔
            (q.complete? = none ∨ c.toPolicy.HasRoom) ∧ c.ShowsExpiries r after) ∧
        (∀ q, let after := (c.toPolicy.loadInCache svc q r).2
          after.overrun = none ↔ c.toPolicy.HasRoom ∧ c.ShowsExpiries r after) ∧
        ∀ g, let after := (c.toPolicy.refreshAll svc g r).2
          after.overrun = none ↔ (g = [] ∨ c.toPolicy.HasRoom) ∧ c.ShowsExpiries r after) ∧
      ∀ hasRegistry interval, let b := Background.ofConfig c hasRegistry
        b.sweeper = some interval ∨ b.warmer = some interval → 0 < interval := by
  constructor
  · intro σ svc r hlimits hstart
    refine ⟨?_, ?_, ?_, ?_⟩
    · intro key allowed
      rw [Run.writeCache_overrun_eq_none_iff, outlivesClock_eq_false_iff hlimits]
      exact and_iff_right hstart
    · intro q after
      exact overrun_iff_of_affords (Policy.check_affords q r) hlimits hstart
    · intro q after
      exact overrun_iff_of_affords (Policy.loadInCache_affords q r) hlimits hstart
    · intro g after
      exact overrun_iff_of_affords (Policy.refreshAll_affords g r) hlimits hstart
  · obtain ⟨-, hsweep, -, hwarm⟩ := pos_of_validate hvalid
    intro hasRegistry interval b hinterval
    rcases hinterval with h | h
    · obtain ⟨-, hsome⟩ := Option.ite_none_right_eq_some.mp h
      cases hsome
      exact hsweep
    · obtain ⟨-, hsome⟩ := Option.ite_none_right_eq_some.mp h
      cases hsome
      exact hwarm

/-- With decisions that live for five seconds everything about the person in the group is carried
out. -/
theorem carried_out_in_ward :
    let c := Background.wardConfig 5
    let s := Background.wardSession 5
    let q := Session.staffQuery ⟨.person, "alice"⟩
    (s.run.writeCache q.key true).overrun = none ∧
      (c.toPolicy.check s.service ⟨true, q.principal, q.owner, q.activity, q.target⟩
        s.run).2.overrun = none ∧
      (c.toPolicy.loadInCache s.service q s.run).2.overrun = none ∧
      (c.toPolicy.refreshAll s.service s.registry s.run).2.overrun = none ∧
      0 < c.cache.cleanupIntervalSeconds ∧ 0 < c.warmer.intervalSeconds := by
  intro c s q
  have hvalid : c.validate = .ok () := by decide +kernel
  obtain ⟨hall, hintervals⟩ := carried_out_iff hvalid
  obtain ⟨hwrite, hcheck, hload, hpass⟩ := hall s.service s.run rfl rfl
  have hshown : c.ShowsExpiry s.run.clock.elapsed := fun _ => by decide
  have hroom : c.toPolicy.HasRoom := by unfold Policy.HasRoom; decide
  have hwritten : ∀ {after : Run StagedDirectory}, c.toPolicy.Moves s.service s.run after →
      c.ShowsExpiries s.run after := by
    intro after hmoves key allowed clock he
    have hstill : s.service.Still s.run.state _ := StagedDirectory.still rfl
    have hclock : clock = s.run.clock :=
      (Policy.Moves.clock_eq hstill hmoves rfl).2.of_mem_since he
    rw [hclock]
    exact hshown
  refine ⟨(hwrite q.key true).mpr hshown, ?_, ?_, ?_, ?_, ?_⟩
  · exact (hcheck _).mpr ⟨.inr hroom, hwritten (Policy.check_moves _ _)⟩
  · exact (hload q).mpr ⟨hroom, hwritten (Policy.loadInCache_moves q s.run)⟩
  · exact (hpass s.registry).mpr ⟨.inr hroom, hwritten (Policy.refreshAll_moves s.registry s.run)⟩
  · exact hintervals true _ (.inl rfl)
  · exact hintervals true _ (.inr rfl)

/-- With a time to live of `2 ^ 63 - 1` seconds, which is valid, a second after the machine was
started neither a query nor an evaluation ahead of it is carried out. -/
theorem longest_ttl_overruns :
    let c := Background.wardConfig 9223372036854775807
    let s := Background.wardSession 9223372036854775807
    let q := Session.staffQuery ⟨.person, "alice"⟩
    c.validate = .ok () ∧ s.run.overrun.isSome = false ∧
      (s.policy.check s.service ⟨true, q.principal, q.owner, q.activity, q.target⟩
        s.run).2.overrun.isSome = true ∧
      (s.policy.loadInCache s.service q s.run).2.overrun.isSome = true ∧
      (s.run.writeCache q.key true).overrun.isSome = true := by
  decide +kernel

end Config

end GrantPath
