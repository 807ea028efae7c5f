import GrantPath.Background
import GrantPath.Proofs.CacheLookups
import GrantPath.Proofs.LiveDecisions
import GrantPath.Proofs.Repetition

/-! # Warmed decisions stay warm

A pass over the registry evaluates every registered query anew and writes its answer. If passes
come more often than decisions expire, and the cache has no bound, every registered query has a
live decision from the first pass on, whenever the sweeper acts.

* `Policy.evaluations` lists the answers of a pass, and `Background.evaluated` those of all passes
  up to a second.
* An evaluation leaves its answer for a time to live and touches no other live decision
  (`Policy.loadInCache_warms`). So a pass makes all registered keys warm
  (`Policy.refreshAll_warms`), and at a second without a pass they stay so
  (`Background.Warm.tick_idle`).
* By induction on the seconds every registered key is warm until a time to live after the latest
  pass (`Background.Tended.warm_sessionAt`), and by then the next one has come
  (`Background.next_second_lt_expiry`).
* A machine carries a pass out only if it is `Config.InReach`. A pass that is not is given up
  before it writes anything (`Policy.refreshAll_stalls`), and so are all later ones
  (`Background.sessionAt_stalls`).

`Background.warmed_decisions_last` has both. -/

namespace GrantPath

variable {σ : Type}

/-! ### What is evaluated -/

/-- The answers of a pass over the registry that is carried out to its end, each with its key, the
latest first, before those of earlier passes. -/
def Policy.evaluations (policy : Policy) (svc : Service σ) :
    Registry → Run σ → List (DecisionKey × Bool) → List (DecisionKey × Bool)
  | [], _, earlier => earlier
  | q :: qs, r, earlier =>
    let (granted, r) := policy.loadInCache svc q r
    evaluations policy svc qs r ((q.key, granted) :: earlier)

namespace Background

variable (b : Background) (s : Session σ)

/-- The session when the sweeper has acted at a second, if it is due. -/
def swept (second : Nat) : Session σ :=
  if isDue b.sweeper second then sweep s else s

/-- The answers of the pass at a second, if one is due, before those of earlier passes. -/
def evaluations (second : Nat) (earlier : List (DecisionKey × Bool)) : List (DecisionKey × Bool) :=
  if isDue b.warmer second then
    let s := b.swept s second
    s.policy.evaluations s.service s.registry { s.run with overrun := none } earlier
  else earlier

/-- The session at a second, once the tasks have acted. They act on `s` at second 0. -/
def sessionAt : Nat → Session σ
  | 0 => b.tick 0 s
  | second + 1 => b.tick (second + 1) (nextSecond (sessionAt second))

/-- The answers of all passes up to a second, the latest first. -/
def evaluated : Nat → List (DecisionKey × Bool)
  | 0 => b.evaluations s 0 []
  | second + 1 => b.evaluations (nextSecond (b.sessionAt s second)) (second + 1) (evaluated second)

theorem running_eq (second n : Nat) : b.running second (b.sessionAt s second) n =
    (List.range' second (n + 1)).map (b.sessionAt s) := by
  induction n generalizing second with
  | zero => rfl
  | succ n ih =>
      rw [running, List.range'_succ, List.map_cons]
      exact congrArg _ (ih (second + 1))

theorem getElem?_running {seconds second : Nat} (h : second ≤ seconds) :
    (b.running 0 (b.tick 0 s) seconds)[second]? = some (b.sessionAt s second) := by
  have hrunning := b.running_eq s 0 seconds
  rw [sessionAt] at hrunning
  rw [hrunning, List.getElem?_map, List.getElem?_range' (by omega)]
  simp

end Background

/-! ### One evaluation -/

/-- The lookups about the principal of the query itself succeed. -/
structure Answers.LooksUp (a : Answers) (q : Query) : Prop where
  records : ∃ records, a (.permissions q.principal q.scope.owner q.scope.activity
    q.scope.target) = .ok records
  groups : ∃ m groups, a (.groupMember q.principal) = .ok m ∧ a (.parentGroups m) = .ok groups

theorem Answers.LooksUp.not_hopeless {a : Answers} {q : Query} {limit : Nat} (h : a.LooksUp q)
    (now : Instant) (hlimit : 0 < limit) : ¬ a.Hopeless now limit q.scope q.principal := by
  obtain ⟨records, hrecords⟩ := h.records
  obtain ⟨m, groups, hm, hg⟩ := h.groups
  have hverdict : a.verdict q.scope now q.principal = .ok (Permission.verdict records now) :=
    Answers.verdict_of_ok hrecords
  cases hdecided : Permission.verdict records now with
  | none => exact Answers.not_hopeless_of_groups hlimit hm hg (hverdict.trans (by rw [hdecided]))
  | some granted => exact Answers.not_hopeless_of_some (hverdict.trans (by rw [hdecided]))

namespace Run

variable {svc : Service σ} {r r' : Run σ}

/-- The latest answer for the key is held until the expiry. -/
def IsWarm (r : Run σ) (log : List (DecisionKey × Bool)) (expiry : Nat) (key : DecisionKey) :
    Prop :=
  ∃ granted, log.lookup key = some granted ∧ r.cache.Holds key granted expiry

theorem Act.limits_eq (h : Act svc r r') : r'.cache.limits = r.cache.limits := by
  cases h with
  | read key r => rw [readCache_cache, Cache.limits_get]
  | write key allowed r => rw [writeCache_cache, Cache.limits_written]
  | _ => rfl

theorem Reaches.limits_eq (h : Reaches svc r r') : r'.cache.limits = r.cache.limits := by
  induction h with
  | refl => rfl
  | tail _ h ih => exact h.limits_eq.trans ih

end Run

namespace Policy

open Run (Reaches IsWarm)

variable {policy : Policy} {svc : Service σ} {st : σ} {a : Answers} {r : Run σ} {q : Query}

/-- An evaluation of a query whose principal can be looked up writes its answer in the end. -/
theorem loadInCache_writes (hs : svc.Still st a) (hst : r.state = st) (hdepth : 0 < policy.maxDepth)
    (hroom : policy.seenCapacity ≤ SeenGroups.maxCapacity) (hq : a.LooksUp q)
    (hu : r.cache.Unbounded) :
    ∃ granted r', Reaches svc r r' ∧ Run.Lasting r r' ∧ policy.loadInCache svc q r =
      (granted, (r'.writeCache q.key granted).count .cachePrewarm) := by
  let search := policy.search svc q
  have hreaches : Reaches svc r (search.runAnew .empty q.principal r).2 :=
    search.runAnew_reaches .empty q.principal r
  have hlasting := search.runAnew_lasting .empty q.principal hu
  have hfails := Search.SteadyCases.fails.runAnew hs.1 (.of_still hs hreaches hst) rfl
  have hafter := policy.loadInCache_cases svc q r
  rw [Run.setAside_of_le hroom] at hafter
  rcases hafter with ⟨e, r', hout, -⟩ | ⟨granted, r', hout, hloaded⟩
  · exact absurd (hfails e (congrArg Prod.fst hout)) (hq.not_hopeless _ hdepth)
  · rw [hout] at hreaches hlasting
    exact ⟨granted, r', hreaches, hlasting, hloaded⟩

/-- The evaluation makes the key of its query warm and keeps warm what is. -/
theorem loadInCache_warms {ttl : Nat} (hs : svc.Still st a) (hst : r.state = st)
    (hdepth : 0 < policy.maxDepth) (hroom : policy.seenCapacity ≤ SeenGroups.maxCapacity)
    (hq : a.LooksUp q) (hlimits : r.cache.limits = some (ttl, 0)) (httl : 0 < ttl)
    {log : List (DecisionKey × Bool)} {key : DecisionKey}
    (hkey : key = q.key ∨ r.IsWarm log (r.clock.elapsed + ttl) key) :
    (policy.loadInCache svc q r).2.IsWarm ((q.key, (policy.loadInCache svc q r).1) :: log)
      (r.clock.elapsed + ttl) key := by
  have hu : r.cache.Unbounded := Cache.unbounded_of_limits hlimits
  obtain ⟨granted, r', hreaches, hlasting, hloaded⟩ :=
    loadInCache_writes hs hst hdepth hroom hq hu
  have hclock : r'.clock = r.clock := hreaches.clock_eq hs hst
  have hwritten : r'.cache.ttl? = some ttl :=
    Cache.ttl?_of_limits (hreaches.limits_eq.trans hlimits)
  rw [hloaded]
  unfold Run.IsWarm
  rw [Run.count_cache, Run.writeCache_cache, hclock]
  by_cases heq : key = q.key
  · subst heq
    exact ⟨granted, List.lookup_cons_self, Cache.holds_written hwritten q.key granted _⟩
  · obtain ⟨held, hlookup, hholds⟩ := hkey.resolve_left heq
    have hlive : r'.clock.elapsed < r.clock.elapsed + ttl := by
      rw [hclock]
      omega
    have hlater := hlasting.holds key held _ hholds hlive
    refine ⟨held, ?_, hlater.written hlasting.unbounded heq granted _⟩
    rw [List.lookup_cons, beq_false_of_ne heq]
    exact hlookup

theorem loadInCache_reaches_of_le (hroom : policy.seenCapacity ≤ SeenGroups.maxCapacity)
    (q : Query) (r : Run σ) : Reaches svc r (policy.loadInCache svc q r).2 := by
  have hreaches := policy.loadInCache_reaches svc q r
  rwa [Run.setAside_of_le hroom] at hreaches

theorem refreshAll_reaches (hroom : policy.seenCapacity ≤ SeenGroups.maxCapacity) :
    ∀ (g : Registry) (r : Run σ), Reaches svc r (policy.refreshAll svc g r).2
  | [], _ => .refl
  | q :: g, r => (loadInCache_reaches_of_le hroom q r).trans (refreshAll_reaches hroom g _)

/-- A pass makes all registered keys warm and keeps warm what is. -/
theorem refreshAll_warms {ttl : Nat} (hs : svc.Still st a) (hdepth : 0 < policy.maxDepth)
    (hroom : policy.seenCapacity ≤ SeenGroups.maxCapacity) (httl : 0 < ttl) :
    ∀ (g : Registry) (r : Run σ) (log : List (DecisionKey × Bool)), r.state = st →
      r.cache.limits = some (ttl, 0) → (∀ q ∈ g, a.LooksUp q) → ∀ key,
      key ∈ g.map Query.key ∨ r.IsWarm log (r.clock.elapsed + ttl) key →
        (policy.refreshAll svc g r).2.IsWarm (policy.evaluations svc g r log)
          (r.clock.elapsed + ttl) key
  | [], r, log, _, _, _, key, hkey => hkey.resolve_left List.not_mem_nil
  | q :: g, r, log, hst, hlimits, hg, key, hkey => by
      obtain ⟨hq, hrest⟩ := List.forall_mem_cons.mp hg
      have hreaches : Reaches svc r (policy.loadInCache svc q r).2 :=
        loadInCache_reaches_of_le hroom q r
      have hclock : (policy.loadInCache svc q r).2.clock = r.clock := hreaches.clock_eq hs hst
      have hpass := refreshAll_warms hs hdepth hroom httl g (policy.loadInCache svc q r).2
        ((q.key, (policy.loadInCache svc q r).1) :: log) (hreaches.state_eq hs.1 hst)
        (hreaches.limits_eq.trans hlimits) hrest key
      rw [hclock] at hpass
      apply hpass
      rw [List.map_cons, List.mem_cons, or_assoc] at hkey
      by_cases hlater : key ∈ g.map Query.key
      · exact .inl hlater
      · refine .inr (loadInCache_warms hs hst hdepth hroom hq hlimits httl ?_)
        exact hkey.imp_right fun h => h.resolve_left hlater

end Policy

/-! ### Settings -/

theorem ConfigFault.unless_eq_ok_iff {fault : ConfigFault} {ok : Bool} :
    fault.unless ok = .ok () ↔ ok = true := by
  cases ok <;> simp [ConfigFault.unless]

namespace Config

variable {c : Config}

/-- The time to live of a decision in nanoseconds. -/
def ttl (c : Config) : Nat :=
  c.cache.ttlSeconds * Instant.nanosPerSecond

/-- Whether a machine can carry a pass over the registry out at this reading of the monotonic
clock: it has room for the members that a search expects to expand, and the clock can show when a
decision expires that is written now. -/
def InReach (c : Config) (elapsed : Nat) : Prop :=
  c.policy.seenGroupsCapacity ≤ SeenGroups.maxCapacity ∧ elapsed + c.ttl < Clock.horizon

theorem InReach.of_le {elapsed earlier : Nat} (h : c.InReach elapsed) (hle : earlier ≤ elapsed) :
    c.InReach earlier :=
  ⟨h.1, by have := h.2; omega⟩

/-- The checks pass one after the other. -/
theorem bind_eq_ok_iff {x : Except Error Unit} {f : Unit → Except Error Unit} :
    (x >>= f) = .ok () ↔ x = .ok () ∧ f () = .ok () := by
  cases x with
  | error e => exact ⟨nofun, fun h => nomatch h.1⟩
  | ok u => exact ⟨fun h => ⟨rfl, h⟩, fun h => h.2⟩

/-- A valid configuration has positive settings wherever they are used. -/
theorem pos_of_validate (h : c.validate = .ok ()) :
    (c.cache.enabled = true → 0 < c.cache.ttlSeconds) ∧ 0 < c.cache.cleanupIntervalSeconds ∧
      0 < c.policy.maxTraversalDepth ∧ 0 < c.warmer.intervalSeconds := by
  simp only [validate, CacheConfig.validate, PolicyConfig.validate, WarmerConfig.validate,
    bind_eq_ok_iff, ConfigFault.unless_eq_ok_iff, Bool.or_eq_true, Bool.not_eq_true',
    bne_iff_ne] at h
  obtain ⟨⟨httl, hsweep⟩, hdepth, hwarm, -⟩ := h
  refine ⟨?_, by omega, by omega, by omega⟩
  intro henabled
  rw [henabled] at httl
  exact Nat.pos_of_ne_zero (httl.resolve_left (by simp))

end Config

/-! ### Second by second -/

namespace Run

variable {r : Run σ}

/-- A sweep keeps warm what is. -/
theorem IsWarm.purge {log : List (DecisionKey × Bool)} {expiry : Nat} {key : DecisionKey}
    (h : r.IsWarm log expiry key) (hlive : r.clock.elapsed < expiry) :
    r.purge.2.IsWarm log expiry key := by
  obtain ⟨granted, hlookup, hholds⟩ := h
  refine ⟨granted, hlookup, ?_⟩
  rw [purge_cache]
  exact hholds.purge hlive

end Run

namespace Background

variable {c : Config} {a : Answers} {start s : Session σ} {log : List (DecisionKey × Bool)}
  {expiry second : Nat}

/-- The session has the policy and the limits of the configuration, and the registry and the
collaborators of the start, which stay as they were. -/
structure Tended (c : Config) (a : Answers) (start s : Session σ) : Prop where
  policy : s.policy = c.toPolicy
  registry : s.registry = start.registry
  still : s.service.Still start.run.state a
  state : s.run.state = start.run.state
  limits : s.run.cache.limits = some (c.ttl, 0)

/-- Besides, the latest answer of every registered query is held until the expiry. -/
structure Warm (c : Config) (a : Answers) (start : Session σ) (log : List (DecisionKey × Bool))
    (expiry : Nat) (s : Session σ) : Prop extends Tended c a start s where
  isWarm : ∀ q ∈ start.registry, s.run.IsWarm log expiry q.key

theorem nextSecond_elapsed (s : Session σ) :
    (nextSecond s).run.clock.elapsed = s.run.clock.elapsed + Instant.nanosPerSecond :=
  Clock.elapsed_advance ..

theorem Tended.next (h : Tended c a start s) : Tended c a start (nextSecond s) :=
  ⟨h.policy, h.registry, h.still, h.state, h.limits⟩

theorem Warm.next (h : Warm c a start log expiry s) :
    Warm c a start log expiry (nextSecond s) :=
  ⟨h.toTended.next, h.isWarm⟩

theorem Tended.sweep (h : Tended c a start s) : Tended c a start (sweep s) where
  policy := h.policy
  registry := h.registry
  still := h.still
  state := by
    rw [← h.state]
    exact s.run.purge_state
  limits := by
    rw [← h.limits]
    exact (congrArg Cache.limits s.run.purge_cache).trans (Cache.limits_purge ..)

theorem Warm.sweep (h : Warm c a start log expiry s) (hlive : s.run.clock.elapsed < expiry) :
    Warm c a start log expiry (sweep s) :=
  ⟨h.toTended.sweep, fun q hq => (h.isWarm q hq).purge hlive⟩

variable (b : Background)

theorem swept_clock (second : Nat) : (b.swept s second).run.clock = s.run.clock := by
  unfold swept
  split
  · exact s.run.purge_clock
  · rfl

theorem Tended.swept (h : Tended c a start s) : Tended c a start (b.swept s second) := by
  unfold Background.swept
  split
  · exact h.sweep
  · exact h

theorem Warm.swept (h : Warm c a start log expiry s) (hlive : s.run.clock.elapsed < expiry) :
    Warm c a start log expiry (b.swept s second) := by
  unfold Background.swept
  split
  · exact h.sweep hlive
  · exact h

theorem Tended.room_for_seen {elapsed : Nat} (h : Tended c a start s) (hreach : c.InReach elapsed) :
    s.policy.seenCapacity ≤ SeenGroups.maxCapacity := by
  rw [h.policy]
  exact hreach.1

/-- A pass in reach is carried out to its end. -/
theorem Tended.pass_carried_out (h : Tended c a start s) (hreach : c.InReach s.run.clock.elapsed) :
    let begun : Run σ := { s.run with overrun := none }
    let after := (s.policy.refreshAll s.service s.registry begun).2
    Run.Reaches s.service begun after ∧ (warm s).run.toStanding = after.toStanding := by
  intro begun after
  have hshown : begun.cache.outlivesClock begun.clock.elapsed = false := by
    rw [Cache.outlivesClock_of_limits h.limits, decide_eq_false_iff_not]
    exact Nat.not_le.mpr hreach.2
  have hreaches : Run.Reaches s.service begun after :=
    Policy.refreshAll_reaches (h.room_for_seen hreach) s.registry begun
  exact ⟨hreaches, Run.withinReach_of_none (hreaches.overrun_eq h.still h.state hshown)⟩

/-- A pass in reach makes every registered query warm for a time to live. -/
theorem Tended.pass (h : Tended c a start s) (hvalid : c.validate = .ok ())
    (hcached : c.cache.enabled = true) (hlookups : ∀ q ∈ start.registry, a.LooksUp q)
    (hreach : c.InReach s.run.clock.elapsed) (log : List (DecisionKey × Bool)) :
    Warm c a start
      (s.policy.evaluations s.service s.registry { s.run with overrun := none } log)
      (s.run.clock.elapsed + c.ttl) (warm s) ∧ (warm s).run.clock = s.run.clock := by
  obtain ⟨hreaches, hcarried⟩ := h.pass_carried_out hreach
  have hcache := congrArg Standing.cache hcarried
  refine ⟨⟨⟨h.policy, h.registry, h.still, ?_, ?_⟩, ?_⟩, ?_⟩
  · rw [hcarried]
    exact hreaches.state_eq h.still.1 h.state
  · rw [hcache]
    exact hreaches.limits_eq.trans h.limits
  · obtain ⟨httl, -, hdepth, -⟩ := Config.pos_of_validate hvalid
    have hpos : 0 < c.ttl := Nat.mul_pos (httl hcached) (by decide)
    have hsteps : 0 < s.policy.maxDepth := by rwa [h.policy]
    have hwarms := Policy.refreshAll_warms h.still hsteps (h.room_for_seen hreach) hpos s.registry
      { s.run with overrun := none } log h.state h.limits (by rwa [h.registry])
    intro q hq
    unfold Run.IsWarm
    rw [hcache]
    refine hwarms q.key (.inl ?_)
    rw [h.registry]
    exact List.mem_map_of_mem hq
  · have hclock := hreaches.clock_eq h.still h.state
    rw [hcarried]
    exact hclock

theorem isDue_iff {interval second : Nat} (hpos : 0 < interval) :
    isDue (some interval) second = true ↔ interval ∣ second := by
  have hne : interval ≠ 0 := by omega
  simp [isDue, hne, Nat.dvd_iff_mod_eq_zero]

/-- The next pass would come within the interval, before what the latest one wrote expires. -/
theorem next_second_lt_expiry {interval : Nat} (hpos : 0 < interval)
    (hahead : interval < c.cache.ttlSeconds) (second : Nat) :
    (second + 1) * Instant.nanosPerSecond <
      second / interval * interval * Instant.nanosPerSecond + c.ttl := by
  have hsoon : second + 1 < second / interval * interval + c.cache.ttlSeconds := by
    have hsplit := Nat.div_add_mod' second interval
    have hrest := Nat.mod_lt second hpos
    omega
  have hnanos := Nat.mul_lt_mul_of_pos_right hsoon (by decide : 0 < Instant.nanosPerSecond)
  rwa [Nat.add_mul (second / interval * interval)] at hnanos

section validated

variable (hvalid : c.validate = .ok ()) (hcached : c.cache.enabled = true)
  (hlookups : ∀ q ∈ start.registry, a.LooksUp q)

include hvalid hcached hlookups

/-- When the warmer is due and in reach, the tasks leave every registered query warm for a time to
live. -/
theorem Tended.tick_due (h : Tended c a start s) (hdue : isDue b.warmer second = true)
    (hreach : c.InReach s.run.clock.elapsed) (log : List (DecisionKey × Bool)) :
    Warm c a start (b.evaluations s second log) (s.run.clock.elapsed + c.ttl)
      (b.tick second s) ∧ (b.tick second s).run.clock = s.run.clock := by
  have hclock := b.swept_clock (s := s) second
  rw [← hclock] at hreach ⊢
  have htick : b.tick second s = warm (b.swept s second) := if_pos hdue
  rw [htick, evaluations, if_pos hdue]
  exact (h.swept b).pass hvalid hcached hlookups hreach log

omit hvalid hcached hlookups in
/-- When the warmer is not due, the tasks keep warm what is. -/
theorem Warm.tick_idle (h : Warm c a start log expiry s) (hidle : isDue b.warmer second = false)
    (hlive : s.run.clock.elapsed < expiry) :
    Warm c a start (b.evaluations s second log) expiry (b.tick second s) ∧
      (b.tick second s).run.clock = s.run.clock := by
  have hdue : ¬ isDue b.warmer second = true := by simp [hidle]
  have htick : b.tick second s = b.swept s second := if_neg hdue
  rw [htick, evaluations, if_neg hdue]
  exact ⟨h.swept b hlive, b.swept_clock second⟩

/-- While the passes are in reach every registered query is warm until a time to live after the
latest of them. -/
theorem Tended.warm_sessionAt (h : Tended c a start start) {interval : Nat}
    (hb : b.warmer = some interval) (hpos : 0 < interval)
    (hahead : interval < c.cache.ttlSeconds) (second : Nat)
    (hreach : c.InReach
      (start.run.clock.elapsed + second / interval * interval * Instant.nanosPerSecond)) :
    Warm c a start (b.evaluated start second)
      (start.run.clock.elapsed + second / interval * interval * Instant.nanosPerSecond + c.ttl)
      (b.sessionAt start second) ∧
    (b.sessionAt start second).run.clock.elapsed =
      start.run.clock.elapsed + second * Instant.nanosPerSecond := by
  induction second with
  | zero =>
      have hdue : isDue b.warmer 0 = true := by
        rw [hb, isDue_iff hpos]
        exact Nat.dvd_zero interval
      simp only [Nat.zero_div, Nat.zero_mul, Nat.add_zero] at hreach ⊢
      obtain ⟨hwarm, hclock⟩ := h.tick_due b hvalid hcached hlookups hdue hreach []
      exact ⟨hwarm, congrArg Clock.elapsed hclock⟩
  | succ second ih =>
      have hmono : second / interval * interval ≤ (second + 1) / interval * interval :=
        Nat.mul_le_mul_right _ (Nat.div_le_div_right (Nat.le_succ second))
      have hlater := Nat.mul_le_mul_right Instant.nanosPerSecond hmono
      obtain ⟨hwarm, helapsed⟩ := ih (hreach.of_le (by omega))
      have hnext : (nextSecond (b.sessionAt start second)).run.clock.elapsed =
          start.run.clock.elapsed + (second + 1) * Instant.nanosPerSecond := by
        rw [nextSecond_elapsed, helapsed, Nat.succ_mul, Nat.add_assoc]
      cases hdue : isDue b.warmer (second + 1) with
      | true =>
          have hmultiple : (second + 1) / interval * interval = second + 1 := by
            rw [hb, isDue_iff hpos] at hdue
            exact Nat.div_mul_cancel hdue
          rw [hmultiple, ← hnext] at hreach ⊢
          obtain ⟨hwarm', hclock⟩ := hwarm.toTended.next.tick_due b hvalid hcached hlookups
            hdue hreach (b.evaluated start second)
          exact ⟨hwarm', congrArg Clock.elapsed hclock⟩
      | false =>
          have hsame : (second + 1) / interval = second / interval := by
            apply Nat.succ_div_of_not_dvd
            rw [← isDue_iff hpos, ← hb, hdue]
            decide
          have hlive : (nextSecond (b.sessionAt start second)).run.clock.elapsed <
              start.run.clock.elapsed + second / interval * interval * Instant.nanosPerSecond +
                c.ttl := by
            have hoverlap := next_second_lt_expiry hpos hahead second
            omega
          rw [hsame]
          obtain ⟨hwarm', hclock⟩ := hwarm.next.tick_idle b hdue hlive
          exact ⟨hwarm', (congrArg Clock.elapsed hclock).trans hnext⟩

end validated

end Background

/-! ### Passes out of reach -/

/-- Nothing is remembered that was not, and the clock does not go back. -/
structure Standing.Forgets (st st' : Standing σ) : Prop where
  cache : st'.cache.Within st.cache
  elapsed : st.clock.elapsed ≤ st'.clock.elapsed

namespace Standing.Forgets

variable {st st' st'' : Standing σ}

theorem refl (st : Standing σ) : st.Forgets st :=
  ⟨.refl _, Nat.le_refl _⟩

theorem trans (h : st.Forgets st') (h' : st'.Forgets st'') : st.Forgets st'' :=
  ⟨h'.cache.trans h.cache, Nat.le_trans h.elapsed h'.elapsed⟩

/-- What expires too late for the clock still does later. -/
theorem outlivesClock (h : st.Forgets st')
    (hlate : st.cache.outlivesClock st.clock.elapsed = true) :
    st'.cache.outlivesClock st'.clock.elapsed = true := by
  rw [Cache.outlivesClock_congr h.cache.1]
  exact Cache.outlivesClock_mono hlate h.elapsed

end Standing.Forgets

namespace Run

variable {svc : Service σ} {r r' : Run σ}

/-- A machine has stopped, or it will at the next write. -/
def Stalled (r : Run σ) : Prop :=
  r.overrun ≠ none ∨ r.cache.outlivesClock r.clock.elapsed = true

/-- An act writes, or it only forgets. -/
theorem Act.forgets (h : Act svc r r') : (∃ key allowed, r' = r.writeCache key allowed) ∨
    r'.overrun = r.overrun ∧ r.toStanding.Forgets r'.toStanding := by
  have helapsed := h.elapsed_le
  cases h with
  | write key allowed r => exact .inl ⟨key, allowed, rfl⟩
  | read key r =>
      refine .inr ⟨r.readCache_overrun key, ?_, helapsed⟩
      rw [readCache_cache]
      exact r.cache.get_within key _
  | _ => exact .inr ⟨rfl, .refl _, helapsed⟩

/-- The room for a decision is made before it is written. -/
theorem makeRoomFor_forgets (key : DecisionKey) (r : Run σ) :
    r.toStanding.Forgets (r.makeRoomFor key).toStanding := by
  have hclock := congrArg Clock.elapsed (r.makeRoomFor_clock key)
  exact ⟨r.cache.makeRoomFor_within key _, Nat.le_of_eq hclock.symm⟩

/-- A write that is not carried out leaves the room made for it, and the machine has stopped. -/
theorem writeCache_stalls (hr : r.Stalled) (key : DecisionKey) (allowed : Bool) :
    (r.writeCache key allowed).overrun ≠ none ∧
      r.reached.Forgets (r.writeCache key allowed).reached := by
  have hoverrun := r.writeCache_overrun_eq key allowed
  unfold reached
  cases hstopped : r.overrun with
  | none =>
      rw [if_pos (hr.resolve_left fun h => h hstopped), hstopped] at hoverrun
      rw [hoverrun]
      exact ⟨nofun, r.makeRoomFor_forgets key⟩
  | some st =>
      have hstays : (r.writeCache key allowed).overrun = some st := by
        rw [hoverrun, hstopped]
        exact ite_self _
      rw [hstays]
      exact ⟨nofun, .refl st⟩

/-- Whatever is done on a stalled run, a machine does not get to remember anything new. -/
theorem Act.stalls (h : Act svc r r') (hr : r.Stalled) :
    r'.Stalled ∧ r.reached.Forgets r'.reached := by
  rcases h.forgets with ⟨key, allowed, rfl⟩ | ⟨hoverrun, hforgets⟩
  · obtain ⟨hstopped, hreached⟩ := writeCache_stalls hr key allowed
    exact ⟨.inl hstopped, hreached⟩
  · constructor
    · exact hr.imp (by rw [hoverrun]; exact id) hforgets.outlivesClock
    · unfold reached
      rw [hoverrun]
      cases r.overrun with
      | none => exact hforgets
      | some st => exact .refl st

theorem Reaches.stalls (h : Reaches svc r r') (hr : r.Stalled) :
    r'.Stalled ∧ r.reached.Forgets r'.reached := by
  induction h with
  | refl => exact ⟨hr, .refl _⟩
  | tail _ h ih =>
      obtain ⟨hstalled, hreached⟩ := ih
      obtain ⟨hstalled', hreached'⟩ := h.stalls hstalled
      exact ⟨hstalled', hreached.trans hreached'⟩

theorem setAside_stalled {capacity : Nat} (h : SeenGroups.maxCapacity < capacity ∨ r.Stalled) :
    (r.setAside capacity).Stalled := by
  rcases h with hroom | hstopped | hlate
  · exact .inl (overrunIf_ne_none (.inl (decide_eq_true hroom)))
  · exact .inl (overrunIf_ne_none (.inr hstopped))
  · exact .inr hlate

end Run

namespace Policy

variable {policy : Policy} {svc : Service σ} {r : Run σ}

theorem loadInCache_stalls (policy : Policy) (svc : Service σ)
    (h : SeenGroups.maxCapacity < policy.seenCapacity ∨ r.Stalled) (q : Query) :
    (policy.loadInCache svc q r).2.Stalled ∧
      r.reached.Forgets (policy.loadInCache svc q r).2.reached := by
  have hloaded := (policy.loadInCache_reaches svc q r).stalls (Run.setAside_stalled h)
  rwa [Run.setAside, Run.overrunIf_reached] at hloaded

/-- A pass out of reach leaves nothing that was not remembered before. -/
theorem refreshAll_stalls : ∀ (g : Registry) (r : Run σ),
    SeenGroups.maxCapacity < policy.seenCapacity ∨ r.Stalled →
      r.reached.Forgets (policy.refreshAll svc g r).2.reached
  | [], _, _ => .refl _
  | q :: g, r, h => by
      have hloaded := policy.loadInCache_stalls svc h q
      exact hloaded.2.trans (refreshAll_stalls g _ (.inr hloaded.1))

end Policy

namespace Background

variable {c : Config} {start s : Session σ} {second : Nat} (b : Background)

/-- The policy is the same, and nothing is remembered that was not at the start. -/
structure Stalls (start s : Session σ) : Prop where
  policy : s.policy = start.policy
  forgets : start.run.toStanding.Forgets s.run.toStanding

/-- No pass can be carried out. -/
def OutOfReach (s : Session σ) : Prop :=
  SeenGroups.maxCapacity < s.policy.seenCapacity ∨
    s.run.cache.outlivesClock s.run.clock.elapsed = true

theorem Stalls.outOfReach (h : Stalls start s) (hout : OutOfReach start) : OutOfReach s := by
  unfold OutOfReach at hout ⊢
  rw [h.policy]
  exact hout.imp_right h.forgets.outlivesClock

theorem Stalls.trans {m : Session σ} (h : Stalls start m) (h' : Stalls m s) : Stalls start s :=
  ⟨h'.policy.trans h.policy, h.forgets.trans h'.forgets⟩

theorem nextSecond_stalls (s : Session σ) : Stalls s (nextSecond s) :=
  ⟨rfl, .refl _, by rw [nextSecond_elapsed]; exact Nat.le_add_right ..⟩

theorem swept_stalls (s : Session σ) (second : Nat) : Stalls s (b.swept s second) := by
  unfold swept
  split
  · refine ⟨rfl, ?_, Nat.le_of_eq (congrArg Clock.elapsed s.run.purge_clock.symm)⟩
    exact s.run.cache.purge_within _
  · exact ⟨rfl, .refl _⟩

theorem warm_stalls (hout : OutOfReach s) : Stalls s (warm s) := by
  refine ⟨rfl, ?_⟩
  exact Policy.refreshAll_stalls s.registry { s.run with overrun := none } (hout.imp_right .inr)

theorem tick_stalls (hout : OutOfReach s) (second : Nat) : Stalls s (b.tick second s) := by
  have hswept := b.swept_stalls s second
  show Stalls s (if isDue b.warmer second then warm (b.swept s second) else b.swept s second)
  split
  · exact hswept.trans (warm_stalls (hswept.outOfReach hout))
  · exact hswept

/-- If no pass can be carried out at the start, none ever can. -/
theorem sessionAt_stalls (hout : OutOfReach start) (second : Nat) :
    Stalls start (b.sessionAt start second) := by
  induction second with
  | zero => exact b.tick_stalls hout 0
  | succ second ih =>
      have hnext := ih.trans (nextSecond_stalls _)
      exact hnext.trans (b.tick_stalls (hnext.outOfReach hout) (second + 1))

/-! ### All seconds -/

theorem outOfReach_of_not_inReach (hpolicy : s.policy = c.toPolicy)
    (hlimits : s.run.cache.limits = some (c.ttl, 0)) (h : ¬ c.InReach s.run.clock.elapsed) :
    OutOfReach s := by
  unfold OutOfReach
  rw [hpolicy, Cache.outlivesClock_of_limits hlimits, decide_eq_true_eq]
  by_contra hboth
  obtain ⟨hroom, hshown⟩ := not_or.mp hboth
  exact h ⟨Nat.not_lt.mp hroom, Nat.not_le.mp hshown⟩

theorem limits_emptyCache (hcached : c.cache.enabled = true) (hunbounded : c.cache.maxEntries = 0) :
    c.emptyCache.limits = some (c.ttl, 0) := by
  rw [Config.emptyCache, if_pos hcached]
  show some (c.ttl, c.cache.maxEntries) = _
  rw [hunbounded]

/-- If decisions outlive the warmer's interval, in a cache without a bound, and the principals that
are registered can be looked up, then at every instant after a pass that is in reach, up to the next
time that the tasks may act, every registered query has a live decision, which a sweep leaves
alone; it is the answer of the latest evaluation for its key. If already the first pass is out of
reach, nothing is ever remembered that was not before. -/
theorem warmed_decisions_last {a : Answers} (hvalid : c.validate = .ok ())
    (hcached : c.cache.enabled = true) (hunbounded : c.cache.maxEntries = 0)
    (hwarmer : c.warmer.enabled = true)
    (hahead : c.warmer.intervalSeconds < c.cache.ttlSeconds) (hpolicy : s.policy = c.toPolicy)
    (hlimits : s.run.cache.limits = c.emptyCache.limits)
    (hstill : s.service.Still s.run.state a) (hlookups : ∀ q ∈ s.registry, a.LooksUp q) :
    let b := ofConfig c true
    let interval := c.warmer.intervalSeconds
    ∀ seconds second, second ≤ seconds →
      ∃ t, (b.running 0 (b.tick 0 s) seconds)[second]? = some t ∧
        (c.InReach (s.run.clock.elapsed + second / interval * interval * Instant.nanosPerSecond) →
          t.run.clock.elapsed = s.run.clock.elapsed + second * Instant.nanosPerSecond ∧
          ∀ q ∈ s.registry, ∃ granted, (b.evaluated s second).lookup q.key = some granted ∧
            ∀ now, t.run.clock.elapsed ≤ now →
              now ≤ t.run.clock.elapsed + Instant.nanosPerSecond →
                t.run.cache.peek q.key now = .live granted ∧
                (t.run.cache.purge now).2.peek q.key now = .live granted) ∧
        (¬ c.InReach s.run.clock.elapsed → t.run.cache.Within s.run.cache) := by
  intro b interval seconds second hsecond
  have hlimits : s.run.cache.limits = some (c.ttl, 0) :=
    hlimits.trans (limits_emptyCache hcached hunbounded)
  have hb : b.warmer = some interval := by
    show (if true && c.warmer.enabled then some c.warmer.intervalSeconds else none) = _
    rw [hwarmer]
    rfl
  have hpos : 0 < interval := (Config.pos_of_validate hvalid).2.2.2
  refine ⟨_, b.getElem?_running s hsecond, ?_, ?_⟩
  · intro hreach
    have htended : Tended c a s s := ⟨hpolicy, rfl, hstill, rfl, hlimits⟩
    obtain ⟨hwarm, helapsed⟩ :=
      htended.warm_sessionAt b hvalid hcached hlookups hb hpos hahead second hreach
    refine ⟨helapsed, ?_⟩
    intro q hq
    obtain ⟨granted, hlookup, hholds⟩ := hwarm.isWarm q hq
    refine ⟨granted, hlookup, ?_⟩
    intro now _ hnow
    have hlive : now < s.run.clock.elapsed + second / interval * interval *
        Instant.nanosPerSecond + c.ttl := by
      have hoverlap := next_second_lt_expiry hpos hahead second
      rw [Nat.succ_mul] at hoverlap
      omega
    exact ⟨hholds.peek hlive, (hholds.purge hlive).peek hlive⟩
  · intro hreach
    have hout := outOfReach_of_not_inReach hpolicy hlimits hreach
    exact (b.sessionAt_stalls hout second).forgets.cache

/-- A cache without a bound for decisions that live so long, sweeps every two seconds and passes
every three. -/
def wardConfig (ttlSeconds : Nat) : Config where
  cache := { ttlSeconds, cleanupIntervalSeconds := 2, maxEntries := 0 }
  policy := { superUserShortcut := false, collectiveTargets := false }
  warmer := { enabled := true, intervalSeconds := 3 }

/-- A session in which a person and its group are registered, a second after the machine was
started. -/
def wardSession (ttlSeconds : Nat) : Session StagedDirectory :=
  let s := Session.start (wardConfig ttlSeconds) StagedDirectory.service Session.staffDirectory
    (.startingAt 0 Instant.nanosPerSecond)
  { s with
    registry := [Session.staffQuery ⟨.person, "alice"⟩, Session.staffQuery ⟨.group, "staff"⟩] }

theorem wardSession_looksUp (ttlSeconds : Nat) :
    ∀ q ∈ (wardSession ttlSeconds).registry, Session.staffDirectory.answers.LooksUp q := by
  intro q hq
  rcases List.mem_cons.mp hq with rfl | hq
  · exact ⟨⟨_, rfl⟩, _, _, rfl, rfl⟩
  · obtain rfl := List.mem_singleton.mp hq
    exact ⟨⟨_, rfl⟩, _, _, rfl, rfl⟩

/-- Half a second before the pass at second 6 the yes for the person is still there. -/
theorem warmed_decisions_last_in_ward :
    let b := ofConfig (wardConfig 5) true
    let q := Session.staffQuery ⟨.person, "alice"⟩
    (b.running 0 (b.tick 0 (wardSession 5)) 9)[5]?.map (·.run.cache.peek q.key 6500000000) =
      some (.live true) := by
  intro b q
  obtain ⟨t, ht, hwarm, -⟩ := warmed_decisions_last (c := wardConfig 5) (s := wardSession 5) rfl rfl
    rfl rfl (by decide) rfl rfl (StagedDirectory.still rfl) (wardSession_looksUp 5) 9 5 (by decide)
  obtain ⟨helapsed, hall⟩ := hwarm ⟨by decide, by decide⟩
  obtain ⟨granted, hlookup, hlive⟩ := hall q (List.mem_cons_self ..)
  obtain rfl : granted = true := by
    have hlog : (b.evaluated (wardSession 5) 5).lookup q.key = some true := by decide +kernel
    rw [hlog] at hlookup
    exact (Option.some.inj hlookup).symm
  rw [ht]
  exact congrArg some (hlive 6500000000 (by rw [helapsed]; decide) (by rw [helapsed]; decide)).1

/-- With a time to live of `2 ^ 63 - 1` seconds no decision is ever warm, although all settings are
valid and everything can be looked up. -/
theorem nothing_warm_with_longest_ttl :
    let c := wardConfig 9223372036854775807
    let s := wardSession 9223372036854775807
    let b := ofConfig c true
    let q := Session.staffQuery ⟨.person, "alice"⟩
    c.validate = .ok () ∧ c.cache.enabled = true ∧ c.cache.maxEntries = 0 ∧
      c.warmer.enabled = true ∧ c.warmer.intervalSeconds < c.cache.ttlSeconds ∧
      s.service.Still s.run.state Session.staffDirectory.answers ∧ q ∈ s.registry ∧
      (∀ q ∈ s.registry, Session.staffDirectory.answers.LooksUp q) ∧
      (b.running 0 (b.tick 0 s) 4).map (fun t => t.run.cache.peek q.key t.run.clock.elapsed) =
        [.absent, .absent, .absent, .absent, .absent] := by
  intro c s b q
  exact ⟨by decide +kernel, rfl, rfl, rfl, by decide, StagedDirectory.still rfl,
    List.mem_cons_self .., wardSession_looksUp _, by decide +kernel⟩

end Background

end GrantPath
