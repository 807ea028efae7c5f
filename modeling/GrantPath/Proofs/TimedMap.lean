import GrantPath.Proofs.CacheDeeds

/-! # A store without a bound is a timed map

Without a bound the cache after any deeds is known from their marks alone (`Cache.Follows`), and
this is what an ideal timed map would be.

* A read finds an answer exactly if the last write of the key gave it, is still in effect, and is
  younger than a time to live (`Cache.Follows.peek_eq_live_iff`).
* Two runs that follow the same marks at the same time find alike, and so a command is carried out
  in both or in neither, takes equally long and does the same to the decisions
  (`Run.Follows.deed_alike`). A purge leaves no mark, so purges change nothing that is read
  (`Run.Follows.readings_eq`).

`Run.timed_map` puts this together. A put is a mark only if it is carried out, and it is if the
clock can show when its decision expires; `Run.put_out_of_reach_is_lost` is about one that is not. -/

namespace GrantPath

variable {σ : Type}

/-- Whether a command reads the cache for an answer. -/
def CacheCommand.isReading : CacheCommand → Bool
  | get _ | getOrCompute _ _ => true
  | _ => false

/-- A command that reads the cache reports the same if it finds the same. -/
theorem CacheCommand.perform_fst_congr {c : CacheCommand} {r r' : Run σ}
    (hreading : c.isReading = true) (hfinds : r.finds = r'.finds) :
    (c.perform r).1 = (c.perform r').1 := by
  cases c with
  | get key => rw [perform_get, perform_get, hfinds]
  | getOrCompute key computation =>
      cases hfound : r.finds key with
      | some allowed =>
          have hfound' : r'.finds key = some allowed := by rw [← hfinds, hfound]
          rw [perform_getOrCompute_of_hit computation hfound,
            perform_getOrCompute_of_hit computation hfound']
      | none =>
          have hfound' : r'.finds key = none := by rw [← hfinds, hfound]
          rw [perform_getOrCompute_of_miss computation hfound,
            perform_getOrCompute_of_miss computation hfound']
          cases computation.outcome <;> rfl
  | _ => cases hreading

namespace CacheDeed

/-- Whether a deed is a purge. -/
def isPurge : CacheDeed → Bool
  | command .purge => true
  | _ => false

theorem eq_purge_of_isPurge {d : CacheDeed} (h : d.isPurge = true) : d = .command .purge := by
  unfold isPurge at h
  split at h
  · rfl
  · cases h

/-- What a deed reports if it reads the cache: nothing if it is given up. -/
def readings : CacheDeed → Run σ → List (Option CacheReport)
  | command c, r => if c.isReading then [(c.attempt r).1] else []
  | wait _, _ => []

end CacheDeed

namespace Run

/-- What the deeds that read the cache report, in order. -/
def readings (r : Run σ) : List CacheDeed → List (Option CacheReport)
  | [] => []
  | d :: ds => d.readings r ++ (d.perform r).readings ds

end Run

namespace Cache.Follows

variable {ttl now : Nat} {ms : List Mark} {c : Cache} {key : DecisionKey}

theorem find?_eq_some_iff (h : c.Follows ttl 0 ms now) {d : Decision} (hlt : now < d.expiresAt) :
    c.find? key = some d ↔ marked ttl key ms = some d :=
  ⟨h.honest key d, fun hd => h.kept rfl key d hd hlt⟩

theorem peek_eq_live_iff (h : c.Follows ttl 0 ms now) {allowed : Bool} :
    c.peek key now = .live allowed ↔
      ∃ instant later, PutLast ms key allowed instant later ∧ now < instant + ttl := by
  rw [Cache.peek_eq_live_iff]
  constructor
  · rintro ⟨d, hd, rfl, hlt⟩
    obtain ⟨instant, later, hput, hx, -⟩ :=
      marked_eq_some_iff.mp ((h.find?_eq_some_iff hlt).mp hd)
    exact ⟨instant, later, hput, by omega⟩
  · rintro ⟨instant, later, hput, hlt⟩
    let d : Decision := ⟨allowed, instant + ttl, later.count (.read key)⟩
    have hmarked : marked ttl key ms = some d :=
      marked_eq_some_iff.mpr ⟨instant, later, hput, rfl, rfl⟩
    exact ⟨d, (h.find?_eq_some_iff hlt).mpr hmarked, rfl, hlt⟩

end Cache.Follows

namespace Run

/-! ### Two runs with the same marks -/

/-- The cache is what the marks say it is now. -/
abbrev Follows (ttl : Nat) (ms : List Mark) (r : Run σ) : Prop :=
  r.cache.Follows ttl 0 ms r.clock.elapsed

/-- Two runs in which a deed takes until the same time, is to do the same to the decisions, and
reports the same if it reads the cache. -/
structure AlikeFor (d : CacheDeed) (r r' : Run σ) : Prop where
  elapsed : (d.perform r).clock.elapsed = (d.perform r').clock.elapsed
  intends : d.intends r = d.intends r'
  readings : d.readings r = d.readings r'

namespace Follows

variable {ttl : Nat} {ms : List Mark} {r r' : Run σ}

theorem deed (h : r.Follows ttl ms) (d : CacheDeed) :
    (d.perform r).Follows ttl ((d.intends r).filter (·.isShown ttl) ++ ms) :=
  Cache.Follows.changes h (deed_changes h.limits d)

section alike

variable (h : r.Follows ttl ms) (h' : r'.Follows ttl ms)
  (ht : r.clock.elapsed = r'.clock.elapsed)

include h h' ht

theorem finds_eq : r.finds = r'.finds := by
  funext key
  apply Option.ext
  intro allowed
  rw [finds_eq_some_iff, finds_eq_some_iff, h.peek_eq_live_iff, h'.peek_eq_live_iff, ht]

theorem deed_alike (d : CacheDeed) : AlikeFor d r r' := by
  have hfinds := finds_eq h h' ht
  cases d with
  | wait nanos =>
      refine ⟨?_, rfl, rfl⟩
      simp only [CacheDeed.perform, advance_clock, Clock.elapsed_advance, ht]
  | command c =>
      have hintends := CacheCommand.intends_congr hfinds ht c
      refine ⟨?_, hintends, ?_⟩
      · simp only [CacheDeed.perform, CacheCommand.attempt_elapsed h.limits,
          CacheCommand.attempt_elapsed h'.limits, CacheCommand.nanos_congr hfinds, ht]
      · simp only [CacheDeed.readings]
        split
        · rename_i hreading
          have hreport : (c.perform { r with overrun := none }).1 =
              (c.perform { r' with overrun := none }).1 :=
            CacheCommand.perform_fst_congr hreading hfinds
          simp only [CacheCommand.attempt_fst h.limits, CacheCommand.attempt_fst h'.limits,
            hintends, hreport]
        · rfl

end alike

/-- Purges change nothing that is read. -/
theorem readings_eq (h : r.Follows ttl ms) (h' : r'.Follows ttl ms)
    (ht : r.clock.elapsed = r'.clock.elapsed) (deeds : List CacheDeed) :
    r.readings deeds = r'.readings (deeds.filter (!·.isPurge)) := by
  induction deeds generalizing r r' ms with
  | nil => rfl
  | cons d ds ih =>
      by_cases hd : d.isPurge = true
      · -- the purge is carried out on one side only
        obtain rfl : d = .command .purge := CacheDeed.eq_purge_of_isPurge hd
        rw [List.filter_cons_of_neg (by simp [CacheDeed.isPurge])]
        have hclock := CacheCommand.attempt_elapsed h.limits .purge
        exact ih (h.deed (.command .purge)) h' (hclock.trans ht)
      · rw [List.filter_cons_of_pos (by simpa using hd)]
        have halike := deed_alike h h' ht d
        have hnext' := h'.deed d
        rw [← halike.intends] at hnext'
        simp only [readings, halike.readings, ih (h.deed d) hnext' halike.elapsed]

end Follows

/-! ### The timed map -/

/-- A store without a bound is a timed map, whatever is done with it. A read finds an answer
exactly if the last write of the key gave it, less than a time to live ago, and nothing ended it
since. The reads counted by a decision are those since it was written. A purge counts the expired
decisions, and purges change nothing that is read. A command is carried out exactly if the clock
can show when the decision expires that it puts, if it puts one; a put that is not carried out is
no write. -/
theorem timed_map {s : Store} {r : Run σ} (hcache : r.cache = .timed s)
    (hunbounded : s.capacity = 0) (hempty : s.size = 0) (deeds : List CacheDeed) :
    let now := (r.after deeds).clock.elapsed
    let marks := r.marks s.ttl deeds
    (∀ key allowed, ((r.after deeds).readCache key).1 = some allowed ↔
      ∃ instant later, PutLast marks key allowed instant later ∧ now < instant + s.ttl) ∧
    (∀ key d, (r.after deeds).cache.find? key = some d →
      ∃ instant later, PutLast marks key d.allowed instant later ∧
        d.expiresAt = instant + s.ttl ∧ d.hits = later.count (.read key)) ∧
    (r.after deeds).purge.1 = ((r.after deeds).cache.expired now).length ∧
    (∀ purged : List CacheDeed, purged.filter (!·.isPurge) = deeds.filter (!·.isPurge) →
      r.readings purged = r.readings deeds) ∧
    ∀ command : CacheCommand, (command.attempt (r.after deeds)).1.isSome ↔
      ∀ m ∈ command.intends (r.after deeds), m.isShown s.ttl := by
  intro now marks
  have hlimits : r.cache.limits = some (s.ttl, 0) := by rw [hcache, ← hunbounded]; rfl
  have hstart : r.Follows s.ttl [] := .of_size_eq_zero hlimits (by rw [hcache]; exact hempty) _
  have hfollows : (r.after deeds).Follows s.ttl marks := by
    have hchanges := Cache.Follows.changes hstart (after_changes hlimits deeds)
    rwa [List.append_nil] at hchanges
  refine ⟨?_, ?_, ?_, ?_, ?_⟩
  · intro key allowed
    rw [readCache_eq_some_iff]
    exact hfollows.peek_eq_live_iff
  · intro key d hd
    exact marked_eq_some_iff.mp (hfollows.honest key d hd)
  · exact Cache.purge_fst _ now
  · intro purged hsame
    rw [hstart.readings_eq hstart rfl purged, hsame, ← hstart.readings_eq hstart rfl deeds]
  · exact CacheCommand.attempt_isSome_iff hfollows.limits

/-- A run with an empty cache without a bound, in which a decision lives for ten nanoseconds. -/
def shortLived : Run Unit where
  state := ()
  clock := .startingAt 0 0
  cache := .timed { ttl := 10, capacity := 0 }

/-- The key of a decision about a person. -/
def personKey (name : String) : DecisionKey :=
  (⟨"O", "ACT", some "T"⟩ : Scope).key ⟨.person, name⟩

/-- One decision is written and read, and four nanoseconds later another one is written; the
first one expires while they wait for a computation that fails. -/
def lapse : List CacheDeed :=
  [.command (.put (personKey "alice") true), .command (.get (personKey "alice")), .wait 4,
    .command (.put (personKey "bob") false), .wait 6,
    .command (.getOrCompute (personKey "carol") ⟨.error "down", 0⟩),
    .command (.get (personKey "alice")), .command (.get (personKey "bob"))]

/-- At the very instant at which the first decision expires it is not read any more, and the
second one is; purges in between change neither. Another put would be carried out. -/
theorem timed_map_at_expiry :
    ((shortLived.after lapse).readCache (personKey "bob")).1 = some false ∧
      ((shortLived.after lapse).readCache (personKey "alice")).1 = none ∧
      (shortLived.after (lapse.take 5)).purge.1 = 1 ∧
      shortLived.readings (lapse.take 5 ++ .command .purge :: lapse.drop 5) =
        shortLived.readings lapse ∧
      ((CacheCommand.put (personKey "carol") true).attempt (shortLived.after lapse)).1.isSome := by
  obtain ⟨hread, -, -, hpurges, hcarried⟩ := timed_map (r := shortLived) rfl rfl rfl lapse
  obtain ⟨-, -, hcount, -, -⟩ := timed_map (r := shortLived) rfl rfl rfl (lapse.take 5)
  refine ⟨?_, ?_, ?_, ?_, ?_⟩
  · exact (hread _ _).mpr ⟨4, [.read (personKey "bob")], ⟨_, rfl, by decide⟩, by decide⟩
  · decide +kernel
  · exact hcount.trans (by decide +kernel)
  · exact hpurges _ rfl
  · exact (hcarried _).mpr (by decide +kernel)

/-- A run with an empty cache without a bound when the clock shows one second. Decisions are to
live for the greatest number of seconds that the clock can show. -/
def longestLived : Run Unit where
  state := ()
  clock := .startingAt 0 Instant.nanosPerSecond
  cache := .timed { ttl := Clock.horizon - Instant.nanosPerSecond, capacity := 0 }

/-- The clock cannot show when the decision would expire that is put here. It is given up, and a
read at once finds nothing. -/
theorem put_out_of_reach_is_lost :
    let deeds := [.command (.put (personKey "alice") true)]
    let r := longestLived.after deeds
    ¬ ((r.readCache (personKey "alice")).1 = some true ↔
      ∃ instant later, PutLast (longestLived.intends deeds) (personKey "alice") true instant later ∧
        r.clock.elapsed < instant + longestLived.cache.ttl) := by
  intro deeds r hread
  have hlost : (r.readCache (personKey "alice")).1 = none := by decide +kernel
  have hput : PutLast (longestLived.intends deeds) (personKey "alice") true
      Instant.nanosPerSecond [] := ⟨[], rfl, List.forall_mem_nil _⟩
  have hfound := hread.mpr ⟨_, _, hput, by decide +kernel⟩
  rw [hlost] at hfound
  cases hfound

end Run

end GrantPath
