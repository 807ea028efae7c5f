import GrantPath.CacheCommand
import GrantPath.Proofs.CacheHistory
import GrantPath.Proofs.Runs

/-! # What deeds do to a cache

`Run.after` carries deeds out one after the other: commands on the cache, and waiting. What a
command is to do to the decisions is told by marks (`CacheCommand.intends`), from what a read finds
and the outcome of the computation, never from what is done. A machine carries a command out unless
it puts a decision that expires too late for the clock. That one is given up where it overruns: it
reports nothing, and of its put there is the room made for it (`CacheCommand.attempt`).

* A command is carried out exactly if the clock can show what it puts
  (`CacheCommand.attempt_isSome_iff`), and then it reports what `CacheCommand.perform` says
  (`CacheCommand.attempt_fst`).
* As far as it is carried out it changes the cache as its marks say (`CacheCommand.perform_does`,
  one case for each command).
* By induction on the deeds so do all of them together (`Run.after_changes`). -/

namespace GrantPath

variable {σ : Type}

/-- Something done with a cache at hand. -/
inductive CacheDeed where
  | command (command : CacheCommand)
  | wait (nanos : Nat)

/-- What a read of the key would find. -/
def Run.finds (r : Run σ) (key : DecisionKey) : Option Bool :=
  match r.cache.peek key r.clock.elapsed with
  | .live allowed => some allowed
  | _ => none

namespace Computation

variable {c : Computation} {key : DecisionKey} {instant : Nat}

/-- How long the computation takes. -/
def nanos (c : Computation) : Nat :=
  c.ms * Clock.nanosPerMilli

/-- What is put when the computation is done. -/
def puts (c : Computation) (key : DecisionKey) (instant : Nat) : List Mark :=
  match c.outcome with
  | .ok allowed => [.put key allowed instant]
  | .error _ => []

theorem puts_of_ok {allowed : Bool} (h : c.outcome = .ok allowed) :
    c.puts key instant = [.put key allowed instant] := by
  unfold puts
  rw [h]

theorem puts_of_error {e : String} (h : c.outcome = .error e) : c.puts key instant = [] := by
  unfold puts
  rw [h]

end Computation

namespace CacheCommand

/-- How long a command takes: as long as its computation, if that is run. -/
def nanos : CacheCommand → Run σ → Nat
  | getOrCompute key computation, r => if (r.finds key).isSome then 0 else computation.nanos
  | forceRefresh _ computation, _ => computation.nanos
  | _, _ => 0

/-- What a command is to do to the decisions. -/
def intends : CacheCommand → Run σ → List Mark
  | get key, r => if (r.finds key).isSome then [.read key] else []
  | put key allowed, r => [.put key allowed r.clock.elapsed]
  | remove key, _ => [.remove key]
  | getOrCompute key computation, r =>
    if (r.finds key).isSome then [.read key]
    else computation.puts key (r.clock.elapsed + computation.nanos)
  | forceRefresh key computation, r => computation.puts key (r.clock.elapsed + computation.nanos)
  | invalidate principal, _ => [.invalidate principal]
  | clear, _ => [.clear]
  | purge, _ | size, _ | stats, _ => []

/-- Carries a command out as far as a machine goes. One that overruns is given up there and reports
nothing. -/
def attempt (c : CacheCommand) (r : Run σ) : Option CacheReport × Run σ :=
  let (report, after) := c.perform { r with overrun := none }
  (if after.overrun.isNone then some report else none, r.withinReach c.perform)

end CacheCommand

namespace CacheDeed

/-- The run after a deed. -/
def perform : CacheDeed → Run σ → Run σ
  | command c, r => (c.attempt r).2
  | wait nanos, r => r.advance nanos

/-- What a deed is to do to the decisions. -/
def intends : CacheDeed → Run σ → List Mark
  | command c, r => c.intends r
  | wait _, _ => []

end CacheDeed

namespace Run

/-- The run after deeds. -/
def after (r : Run σ) (deeds : List CacheDeed) : Run σ :=
  deeds.foldl (fun r d => d.perform r) r

/-- What the deeds are to do to the decisions, the latest first. -/
def intends (r : Run σ) : List CacheDeed → List Mark
  | [] => []
  | d :: ds => (d.perform r).intends ds ++ d.intends r

/-- What the deeds did to the decisions, the latest first: all that they were to do, but for the
decisions whose expiry the clock cannot show. -/
def marks (ttl : Nat) (r : Run σ) (deeds : List CacheDeed) : List Mark :=
  (r.intends deeds).filter (·.isShown ttl)

theorem finds_eq_some_iff {r : Run σ} {key : DecisionKey} {allowed : Bool} :
    r.finds key = some allowed ↔ r.cache.peek key r.clock.elapsed = .live allowed := by
  unfold finds
  cases r.cache.peek key r.clock.elapsed <;> simp

theorem readCache_fst (r : Run σ) (key : DecisionKey) : (r.readCache key).1 = r.finds key := by
  apply Option.ext
  intro allowed
  rw [readCache_eq_some_iff, finds_eq_some_iff]

theorem finds_eq_none_iff {r : Run σ} {key : DecisionKey} :
    r.finds key = none ↔ ∀ allowed, r.cache.peek key r.clock.elapsed ≠ .live allowed := by
  rw [Option.eq_none_iff_forall_ne_some]
  exact forall_congr' fun allowed => not_congr finds_eq_some_iff

end Run

namespace CacheCommand

variable {r m after : Run σ} {key : DecisionKey} {allowed : Bool} {ttl capacity : Nat}

/-! ### What each command performs -/

theorem perform_get (key : DecisionKey) (r : Run σ) :
    (get key).perform r = (.found (r.finds key), (r.readCache key).2) := by
  rw [← r.readCache_fst]
  rfl

/-- What is found is not computed. -/
theorem perform_getOrCompute_of_hit (c : Computation) (hfound : r.finds key = some allowed) :
    (getOrCompute key c).perform r =
      (.computed (.ok allowed) 0, (r.readCache key).2.count .cacheHit) := by
  have hread := (r.readCache_fst key).trans hfound
  have hlive := Run.finds_eq_some_iff.mp hfound
  obtain ⟨found, r₁, hr⟩ : ∃ found r₁, r.readCache key = (found, r₁) := ⟨_, _, rfl⟩
  rw [hr] at hread
  obtain rfl : found = some allowed := hread
  simp only [perform, Run.getOrCompute, hlive, hr]

/-- The run when a read has found nothing and the computation has taken its time. -/
def missed (key : DecisionKey) (c : Computation) (r : Run σ) : Run σ :=
  ((r.readCache key).2.count .cacheMiss).advance c.nanos

/-- What is not found is computed and, unless that fails, written. -/
theorem perform_getOrCompute_of_miss (c : Computation) (hfound : r.finds key = none) :
    (getOrCompute key c).perform r = match c.outcome with
      | .error e => (.computed (.error (.permissionStore e)) 1, missed key c r)
      | .ok allowed => (.computed (.ok allowed) 1, (missed key c r).writeCache key allowed) := by
  have hread := (r.readCache_fst key).trans hfound
  unfold missed
  obtain ⟨found, r₁, hr⟩ : ∃ found r₁, r.readCache key = (found, r₁) := ⟨_, _, rfl⟩
  rw [hr] at hread
  obtain rfl : found = none := hread
  cases hpeek : r.cache.peek key r.clock.elapsed with
  | live allowed => exact absurd hpeek (Run.finds_eq_none_iff.mp hfound allowed)
  | expired | absent =>
      simp only [perform, Run.getOrCompute, hpeek, hr, Computation.perform]
      cases c.outcome <;> rfl

/-- What is computed anew is written unless the computation fails. -/
theorem perform_forceRefresh (key : DecisionKey) (c : Computation) (r : Run σ) :
    (forceRefresh key c).perform r =
      let waited := r.advance c.nanos
      match c.outcome with
      | .error e => (.computed (.error (.permissionStore e)) 1, waited)
      | .ok allowed =>
        (.computed (.ok allowed) 1, (waited.writeCache key allowed).count .cachePrewarm) := by
  simp only [perform, Run.forceRefresh, Computation.perform]
  cases c.outcome <;> rfl

/-! ### What each command does -/

/-- A command is carried out if the clock can show what it puts, and changes the cache as its marks
say as far as a machine gets. -/
structure Does (c : CacheCommand) (ttl : Nat) (r after : Run σ) : Prop where
  overrun : after.overrun = none ↔ ∀ m ∈ c.intends r, m.isShown ttl
  changes : r.cache.Changes r.clock.elapsed ((c.intends r).filter (·.isShown ttl))
    after.reached.cache after.reached.clock.elapsed
  elapsed : after.reached.clock.elapsed = r.clock.elapsed + c.nanos r

namespace Does

variable {c : CacheCommand}

theorem count (h : c.Does ttl r after) (o : Occurrence) : c.Does ttl r (after.count o) := by
  have hreached : (after.count o).reached.cache = after.reached.cache ∧
      (after.count o).reached.clock = after.reached.clock := by
    cases hoverrun : after.overrun <;> simp [Run.reached, Run.count, hoverrun]
  obtain ⟨hcache, hclock⟩ := hreached
  refine ⟨h.overrun, ?_, ?_⟩
  · rw [hcache, hclock]
    exact h.changes
  · rw [hclock]
    exact h.elapsed

/-- A command that puts nothing is carried out. -/
theorem of_changes (hafter : after.overrun = none) (hshown : ∀ m ∈ c.intends r, m.isShown ttl)
    (hchanges : r.cache.Changes r.clock.elapsed (c.intends r) after.cache after.clock.elapsed)
    (helapsed : after.clock.elapsed = r.clock.elapsed + c.nanos r) : c.Does ttl r after where
  overrun := iff_of_true hafter hshown
  changes := by
    rw [Run.reached_of_none hafter, List.filter_eq_self.mpr hshown]
    exact hchanges
  elapsed := by
    rw [Run.reached_of_none hafter]
    exact helapsed

/-- A command that puts a decision is carried out if the clock can show when it expires. -/
theorem of_write (hm : m.overrun = none) (hl : m.cache.limits = some (ttl, capacity))
    (hchanges : r.cache.Changes r.clock.elapsed [] m.cache m.clock.elapsed)
    (helapsed : m.clock.elapsed = r.clock.elapsed + c.nanos r)
    (hintends : c.intends r = [.put key allowed m.clock.elapsed]) :
    c.Does ttl r (m.writeCache key allowed) := by
  have hreached := Run.writeCache_reached hm key allowed
  have hoverrun := m.writeCache_overrun_eq_none_iff key allowed
  have hlate := Cache.outlivesClock_of_limits hl m.clock.elapsed
  have hshown : (Mark.put key allowed m.clock.elapsed).isShown ttl =
      !m.cache.outlivesClock m.clock.elapsed := by
    rw [hlate]
    simp only [Mark.isShown, ← decide_not, Nat.not_le]
  refine ⟨?_, ?_, ?_⟩
  · rw [hoverrun, hintends, List.forall_mem_singleton, hshown, Bool.not_eq_true']
    exact and_iff_right hm
  · rw [hintends, hreached]
    cases hcase : m.cache.outlivesClock m.clock.elapsed with
    | true =>
        rw [hcase] at hshown
        rw [List.filter_cons_of_neg (by rw [hshown]; decide), if_pos rfl]
        rw [m.makeRoomFor_clock key]
        exact hchanges.tail (.makeRoom key)
    | false =>
        rw [hcase] at hshown
        rw [List.filter_cons_of_pos hshown, if_neg Bool.false_ne_true]
        rw [Run.writeCache_cache, m.writeCache_clock key allowed]
        exact hchanges.tail (.write key allowed hcase)
  · rw [hreached, ← helapsed]
    split
    · exact congrArg Clock.elapsed (m.makeRoomFor_clock key)
    · exact congrArg Clock.elapsed (m.writeCache_clock key allowed)

section computed

variable {computation : Computation} (hm : m.overrun = none)
  (hchanges : r.cache.Changes r.clock.elapsed [] m.cache m.clock.elapsed)
  (helapsed : m.clock.elapsed = r.clock.elapsed + c.nanos r)
  (hintends : c.intends r = computation.puts key m.clock.elapsed)

include hm hchanges helapsed hintends

/-- A computation that fails puts nothing. -/
theorem of_failed {e : String} (hout : computation.outcome = .error e) : c.Does ttl r m := by
  rw [Computation.puts_of_error hout] at hintends
  refine .of_changes hm ?_ ?_ helapsed
  · rw [hintends]
    exact List.forall_mem_nil _
  · rw [hintends]
    exact hchanges

/-- A computation that succeeds puts its answer when it is done. -/
theorem of_computed (hl : m.cache.limits = some (ttl, capacity))
    (hout : computation.outcome = .ok allowed) : c.Does ttl r (m.writeCache key allowed) := by
  rw [Computation.puts_of_ok hout] at hintends
  exact .of_write hm hl hchanges helapsed hintends

end computed

end Does

/-- A read that finds something is marked, one that finds nothing is not. -/
theorem readCache_changes (key : DecisionKey) (r : Run σ) :
    r.cache.Changes r.clock.elapsed (if (r.finds key).isSome then [.read key] else [])
      (r.readCache key).2.cache (r.readCache key).2.clock.elapsed := by
  rw [Run.readCache_cache, Run.readCache_clock]
  cases hfound : r.finds key with
  | none => exact (Cache.Change.miss (Run.finds_eq_none_iff.mp hfound)).once
  | some allowed => exact (Cache.Change.hit (Run.finds_eq_some_iff.mp hfound)).once

theorem advance_changes (r : Run σ) (nanos : Nat) :
    r.cache.Changes r.clock.elapsed [] (r.advance nanos).cache (r.advance nanos).clock.elapsed := by
  rw [Run.advance_clock, Clock.elapsed_advance]
  exact (Cache.Change.wait nanos).once

theorem missed_changes (c : Computation) (hfound : r.finds key = none) :
    r.cache.Changes r.clock.elapsed [] (missed key c r).cache (missed key c r).clock.elapsed := by
  have hread := readCache_changes key r
  rw [hfound] at hread
  exact hread.trans (advance_changes ((r.readCache key).2.count .cacheMiss) _)

theorem missed_elapsed (key : DecisionKey) (c : Computation) (r : Run σ) :
    (missed key c r).clock.elapsed = r.clock.elapsed + c.nanos := by
  unfold missed
  rw [Run.advance_clock, Clock.elapsed_advance, Run.count_clock, Run.readCache_clock]

theorem missed_overrun (key : DecisionKey) (c : Computation) (r : Run σ) :
    (missed key c r).overrun = r.overrun := by
  unfold missed
  rw [Run.advance_overrun]
  exact r.readCache_overrun key

theorem getOrCompute_does (hr : r.overrun = none) (hl : r.cache.limits = some (ttl, capacity))
    (key : DecisionKey) (c : Computation) :
    (getOrCompute key c).Does ttl r ((getOrCompute key c).perform r).2 := by
  cases hfound : r.finds key with
  | some allowed =>
      have hintends : (getOrCompute key c).intends r = [.read key] := by
        simp only [intends, hfound, Option.isSome_some, if_true]
      have hnanos : (getOrCompute key c).nanos r = 0 := by
        simp only [nanos, hfound, Option.isSome_some, if_true]
      have hread := readCache_changes key r
      rw [hfound] at hread
      rw [perform_getOrCompute_of_hit c hfound]
      apply Does.count
      refine .of_changes ((r.readCache_overrun key).trans hr) ?_ ?_ ?_
      · rw [hintends]
        exact List.forall_mem_singleton.mpr rfl
      · rw [hintends]
        exact hread
      · rw [hnanos, Run.readCache_clock, Nat.add_zero]
  | none =>
      have hintends : (getOrCompute key c).intends r = c.puts key (r.clock.elapsed + c.nanos) := by
        simp only [intends, hfound, Option.isSome_none, Bool.false_eq_true, if_false]
      have hnanos : (getOrCompute key c).nanos r = c.nanos := by
        simp only [nanos, hfound, Option.isSome_none, Bool.false_eq_true, if_false]
      have hmissed := missed_changes c hfound
      have hoverrun := (missed_overrun key c r).trans hr
      have helapsed := missed_elapsed key c r
      rw [← helapsed] at hintends
      rw [← hnanos] at helapsed
      rw [perform_getOrCompute_of_miss c hfound]
      cases hout : c.outcome with
      | error e => exact .of_failed hoverrun hmissed helapsed hintends hout
      | ok allowed =>
          exact .of_computed hoverrun hmissed helapsed hintends (hmissed.limits_eq.trans hl) hout

theorem forceRefresh_does (hr : r.overrun = none) (hl : r.cache.limits = some (ttl, capacity))
    (key : DecisionKey) (c : Computation) :
    (forceRefresh key c).Does ttl r ((forceRefresh key c).perform r).2 := by
  have hintends : (forceRefresh key c).intends r = c.puts key (r.clock.elapsed + c.nanos) := rfl
  have hwaited := advance_changes r c.nanos
  have hoverrun := (r.advance_overrun c.nanos).trans hr
  have helapsed : (r.advance c.nanos).clock.elapsed = r.clock.elapsed + c.nanos :=
    Clock.elapsed_advance ..
  rw [← helapsed] at hintends
  rw [perform_forceRefresh]
  cases hout : c.outcome with
  | error e => exact .of_failed hoverrun hwaited helapsed hintends hout
  | ok allowed =>
      apply Does.count
      exact .of_computed hoverrun hwaited helapsed hintends (hwaited.limits_eq.trans hl) hout

theorem perform_does (hr : r.overrun = none) (hl : r.cache.limits = some (ttl, capacity))
    (c : CacheCommand) : c.Does ttl r (c.perform r).2 := by
  cases c with
  | get key =>
      rw [perform_get]
      refine .of_changes ((r.readCache_overrun key).trans hr) ?_ (readCache_changes key r) ?_
      · simp only [intends]
        split <;> simp [Mark.isShown]
      · rw [Run.readCache_clock]
        rfl
  | put key allowed => exact .of_write hr hl .refl rfl rfl
  | remove key =>
      exact .of_changes hr (List.forall_mem_singleton.mpr rfl) (Cache.Change.remove key).once rfl
  | getOrCompute key computation => exact getOrCompute_does hr hl key computation
  | forceRefresh key computation => exact forceRefresh_does hr hl key computation
  | invalidate principal =>
      exact .of_changes hr (List.forall_mem_singleton.mpr rfl)
        (Cache.Change.invalidate principal).once rfl
  | purge =>
      have hclock : (purge.perform r).2.clock = r.clock := r.purge_clock
      refine .of_changes (r.purge_overrun.trans hr) (List.forall_mem_nil _) ?_ ?_
      · rw [hclock]
        exact Cache.Change.purge.once
      · rw [hclock]
        rfl
  | clear => exact .of_changes hr (List.forall_mem_singleton.mpr rfl) Cache.Change.clear.once rfl
  | size => exact .of_changes hr (List.forall_mem_nil _) .refl rfl
  | stats => exact .of_changes hr (List.forall_mem_nil _) .refl rfl

/-! ### As far as a machine goes -/

section congr

variable {r' : Run σ} (hfinds : r.finds = r'.finds)

include hfinds

theorem nanos_congr (c : CacheCommand) : c.nanos r = c.nanos r' := by
  cases c <;> simp only [nanos, hfinds]

theorem intends_congr (ht : r.clock.elapsed = r'.clock.elapsed) (c : CacheCommand) :
    c.intends r = c.intends r' := by
  cases c <;> simp only [intends, hfinds, ht]

end congr

section attempt

variable (hl : r.cache.limits = some (ttl, capacity)) (c : CacheCommand)

include hl

theorem begun_does : c.Does ttl r (c.perform { r with overrun := none }).2 := by
  let begun : Run σ := { r with overrun := none }
  have hfinds : begun.finds = r.finds := rfl
  have hintends : c.intends begun = c.intends r := intends_congr hfinds rfl c
  have hnanos : c.nanos begun = c.nanos r := nanos_congr hfinds c
  have hbegun : begun.cache.limits = some (ttl, capacity) := hl
  have hdoes : c.Does ttl begun (c.perform begun).2 := perform_does rfl hbegun c
  refine ⟨?_, ?_, ?_⟩
  · rw [← hintends]
    exact hdoes.overrun
  · rw [← hintends]
    exact hdoes.changes
  · rw [← hnanos]
    exact hdoes.elapsed

theorem attempt_fst : (c.attempt r).1 =
    if ∀ m ∈ c.intends r, m.isShown ttl then some (c.perform { r with overrun := none }).1
    else none := by
  have hoverrun := (begun_does hl c).overrun
  rw [← Option.isNone_iff_eq_none] at hoverrun
  exact ite_congr (propext hoverrun) (fun _ => rfl) (fun _ => rfl)

/-- A command is carried out if the clock can show what it puts, and not otherwise. -/
theorem attempt_isSome_iff : (c.attempt r).1.isSome ↔ ∀ m ∈ c.intends r, m.isShown ttl := by
  rw [attempt_fst hl c]
  split
  · rename_i hshown
    exact iff_of_true rfl hshown
  · rename_i hlate
    exact iff_of_false Bool.false_ne_true hlate

theorem attempt_changes : r.cache.Changes r.clock.elapsed
    ((c.intends r).filter (·.isShown ttl)) (c.attempt r).2.cache (c.attempt r).2.clock.elapsed :=
  (begun_does hl c).changes

theorem attempt_elapsed : (c.attempt r).2.clock.elapsed = r.clock.elapsed + c.nanos r :=
  (begun_does hl c).elapsed

end attempt

end CacheCommand

/-! ### Deeds one after the other -/

namespace Run

variable {r : Run σ} {ttl capacity : Nat}

theorem deed_changes (hl : r.cache.limits = some (ttl, capacity)) (d : CacheDeed) :
    r.cache.Changes r.clock.elapsed ((d.intends r).filter (·.isShown ttl)) (d.perform r).cache
      (d.perform r).clock.elapsed := by
  cases d with
  | command c => exact CacheCommand.attempt_changes hl c
  | wait nanos => exact CacheCommand.advance_changes r nanos

/-- Deeds change the cache as their marks say. -/
theorem after_changes (hl : r.cache.limits = some (ttl, capacity)) (deeds : List CacheDeed) :
    r.cache.Changes r.clock.elapsed (r.marks ttl deeds) (r.after deeds).cache
      (r.after deeds).clock.elapsed := by
  induction deeds generalizing r with
  | nil => exact .refl
  | cons d ds ih =>
      have hfirst := deed_changes hl d
      have hmarks : r.marks ttl (d :: ds) =
          (d.perform r).marks ttl ds ++ (d.intends r).filter (·.isShown ttl) :=
        List.filter_append ..
      rw [hmarks]
      exact hfirst.trans (ih (hfirst.limits_eq.trans hl))

end Run

end GrantPath
