import GrantPath.Proofs.CacheDeeds
import Mathlib.Data.List.Nodup

/-! # A store of bounded capacity

A store that holds a bounded number of decisions makes room for a new key, and for that it may
drop decisions. `Store.makeRoom_cases` tells its three ways: there is room already, dropping what
has expired makes room, or all decisions are live and one of them is given up.

* The store stays within its capacity at every change (`Cache.Fits.change`).
* A write of a stored key loses nothing else (`Cache.find?_makeRoomFor_of_stored`).
* A write of a new key loses a live decision exactly if the live ones fill the store, and then one
  (`Cache.length_lost`). It does so as well if it is then given up because the clock cannot show
  when its decision expires: the room has been made by then (`CacheCommand.attempt_put_cache`).

`Run.bounded_store` adds to this that an answer is always that of the last write, which comes from
`Cache.Follows` and does not depend on what is given up. -/

namespace GrantPath

variable {σ : Type}

namespace Store

variable (s : Store) (now : Nat)

/-- Giving a decision up drops one that is there, if there is any. -/
theorem evict_cases (h : s.size ≠ 0) : ∃ victim ∈ s.decisions.entries,
    s.evict = { s with decisions := s.decisions.erase victim.1, evictions := s.evictions + 1 } := by
  have hpos : 0 < s.decisions.entries.length := Nat.pos_of_ne_zero h
  have hlt := Nat.mod_lt (s.eviction s.evictions s.decisions.entries) hpos
  refine ⟨_, List.getElem_mem hlt, ?_⟩
  unfold evict
  simp only [List.getElem?_eq_getElem hlt]

/-- There is room, or dropping what has expired makes room, or one live decision is given up. -/
theorem makeRoom_cases (hbounded : 0 < s.capacity) :
    s.size < s.capacity ∧ (s.makeRoom now).2 = s ∨
    s.capacity ≤ s.size ∧ ((Cache.timed s).live now).length < s.capacity ∧
      (s.makeRoom now).2 = (s.purge now).2 ∨
    s.capacity ≤ ((Cache.timed s).live now).length ∧ ∃ victim ∈ (Cache.timed s).live now,
      (s.makeRoom now).2.decisions = (s.purge now).2.decisions.erase victim.1 := by
  have hzero : s.capacity ≠ 0 := by omega
  have hsize : (s.purge now).2.size = ((Cache.timed s).live now).length := rfl
  unfold makeRoom
  by_cases hroom : s.size < s.capacity
  · rw [if_pos (.inr hroom)]
    exact .inl ⟨hroom, rfl⟩
  rw [if_neg (by omega)]
  simp only
  by_cases hpurged : (s.purge now).2.size < (s.purge now).2.capacity
  · rw [if_pos hpurged]
    exact .inr (.inl ⟨by omega, hpurged, rfl⟩)
  · rw [if_neg hpurged]
    have hfull : s.capacity ≤ ((Cache.timed s).live now).length := Nat.le_of_not_lt hpurged
    obtain ⟨victim, hvictim, hevict⟩ := (s.purge now).2.evict_cases (by omega)
    refine .inr (.inr ⟨hfull, victim, hvictim, ?_⟩)
    rw [hevict]

variable {s now} {key k : DecisionKey} {allowed : Bool}

theorem size_makeRoom_lt (hbounded : 0 < s.capacity) (hs : s.size ≤ s.capacity) :
    (s.makeRoom now).2.size < s.capacity := by
  rcases s.makeRoom_cases now hbounded with ⟨hlt, hroom⟩ | ⟨-, hlt, hroom⟩ | ⟨-, victim, hv, hroom⟩
  · rw [hroom]
    exact hlt
  · rw [hroom]
    exact hlt
  · have hcontains : (s.purge now).2.decisions.contains victim.1 = true :=
      (Table.contains_iff ..).mpr ⟨victim.2, ((s.purge now).2.decisions.mem_entries_iff ..).mp hv⟩
    have hpurged : (s.purge now).2.decisions.size ≤ s.decisions.size :=
      s.decisions.size_filter_le _
    have hsize : s.decisions.size ≤ s.capacity := hs
    show (s.makeRoom now).2.decisions.size < s.capacity
    rw [hroom, Table.size_erase, if_pos hcontains]
    omega

theorem makeRoomFor_of_stored (h : s.find? key ≠ none) : s.makeRoomFor key now = (0, s) := by
  have hcontains : s.decisions.contains key = true := Option.isSome_iff_ne_none.mpr h
  unfold makeRoomFor
  rw [if_pos hcontains]

theorem makeRoomFor_of_new (h : s.find? key = none) :
    s.makeRoomFor key now = s.makeRoom now := by
  have hcontains : ¬ s.decisions.contains key = true := by
    show ¬ (s.find? key).isSome = true
    rw [h]
    exact Bool.false_ne_true
  unfold makeRoomFor
  rw [if_neg hcontains]

theorem size_makeRoomFor_le (hbounded : 0 < s.capacity) :
    (s.makeRoomFor key now).2.size ≤ s.size := by
  by_cases hkey : s.find? key = none
  · rw [makeRoomFor_of_new hkey]
    rcases s.makeRoom_cases now hbounded with ⟨-, hroom⟩ | ⟨-, -, hroom⟩ | ⟨-, victim, -, hroom⟩
    · exact Nat.le_of_eq (congrArg size hroom)
    · rw [hroom]
      exact s.decisions.size_filter_le _
    · show (s.makeRoom now).2.decisions.size ≤ _
      rw [hroom]
      exact Nat.le_trans ((s.purge now).2.decisions.size_filter_le _) (s.decisions.size_filter_le _)
  · exact Nat.le_of_eq (congrArg (·.2.size) (makeRoomFor_of_stored hkey))

theorem size_insert_makeRoomFor_le (hbounded : 0 < s.capacity) (hs : s.size ≤ s.capacity) :
    ((s.makeRoomFor key now).2.insert key allowed now).size ≤ s.capacity := by
  show ((s.makeRoomFor key now).2.decisions.insert key _).size ≤ _
  rw [Table.size_insert]
  by_cases hkey : s.find? key = none
  · have hlt : (s.makeRoomFor key now).2.decisions.size < s.capacity := by
      rw [makeRoomFor_of_new hkey]
      exact size_makeRoom_lt hbounded hs
    split
    · omega
    · omega
  · have hcontains : s.decisions.contains key = true := Option.isSome_iff_ne_none.mpr hkey
    rw [makeRoomFor_of_stored hkey]
    simp only [hcontains, if_true]
    exact hs

theorem size_get_le (s : Store) (key : DecisionKey) (now : Nat) :
    (s.get key now).2.size ≤ s.size := by
  unfold get
  cases hd : s.find? key with
  | none => exact Nat.le_refl _
  | some d =>
      have hcontains : s.decisions.contains key = true := (Table.contains_iff ..).mpr ⟨d, hd⟩
      by_cases he : d.isExpired now
      · simp only [if_pos he]
        exact s.decisions.size_filter_le _
      · simp only [if_neg he]
        show (s.decisions.insert key _).size ≤ _
        rw [Table.size_insert, if_pos hcontains]
        exact Nat.le_refl _

end Store

namespace Cache

variable {c c' : Cache} {key k : DecisionKey} {allowed : Bool} {now now' ttl capacity : Nat}

/-! ### Within the capacity -/

theorem size_get_le (c : Cache) (key : DecisionKey) (now : Nat) :
    (c.get key now).2.size ≤ c.size := by
  cases c with
  | disabled => exact Nat.le_refl _
  | timed s => exact s.size_get_le key now

theorem size_remove_le (c : Cache) (key : DecisionKey) : (c.remove key).2.size ≤ c.size := by
  cases c with
  | disabled => exact Nat.le_refl _
  | timed s => exact s.decisions.size_filter_le _

theorem size_invalidate_le (c : Cache) (principal : String) :
    (c.invalidate principal).2.size ≤ c.size := by
  cases c with
  | disabled => exact Nat.le_refl _
  | timed s => exact s.decisions.size_filter_le _

theorem size_purge_le (c : Cache) (now : Nat) : (c.purge now).2.size ≤ c.size := by
  cases c with
  | disabled => exact Nat.le_refl _
  | timed s => exact s.decisions.size_filter_le _

theorem size_clear_le (c : Cache) : c.clear.size ≤ c.size := by
  cases c with
  | disabled => exact Nat.le_refl _
  | timed s => exact Nat.zero_le _

/-- The store holds no more decisions than it may. -/
structure Fits (ttl capacity : Nat) (c : Cache) : Prop where
  limits : c.limits = some (ttl, capacity)
  size : c.size ≤ capacity

namespace Fits

theorem makeRoom (h : c.Fits ttl capacity) (hbounded : 0 < capacity) (key : DecisionKey)
    (now : Nat) : (c.makeRoomFor key now).2.Fits ttl capacity := by
  refine ⟨(limits_makeRoomFor ..).trans h.limits, Nat.le_trans ?_ h.size⟩
  cases c with
  | disabled => exact Nat.le_refl _
  | timed s =>
      obtain ⟨rfl, rfl⟩ := Prod.mk.inj (Option.some.inj h.limits)
      exact Store.size_makeRoomFor_le hbounded

theorem write (h : c.Fits ttl capacity) (hbounded : 0 < capacity) (key : DecisionKey)
    (allowed : Bool) (now : Nat) : (c.written key allowed now).Fits ttl capacity := by
  refine ⟨(limits_written ..).trans h.limits, ?_⟩
  cases c with
  | disabled => exact absurd h.limits nofun
  | timed s =>
      have hs := h.size
      obtain ⟨rfl, rfl⟩ := Prod.mk.inj (Option.some.inj h.limits)
      exact Store.size_insert_makeRoomFor_le hbounded hs

theorem change {ms : List Mark} (h : c.Fits ttl capacity) (hbounded : 0 < capacity)
    (hchange : c.Change now ms c' now') : c'.Fits ttl capacity := by
  have hlimits := hchange.limits_eq.trans h.limits
  cases hchange with
  | wait nanos => exact h
  | hit _ => exact ⟨hlimits, Nat.le_trans (c.size_get_le ..) h.size⟩
  | miss _ => exact ⟨hlimits, Nat.le_trans (c.size_get_le ..) h.size⟩
  | makeRoom key => exact h.makeRoom hbounded key now
  | write key allowed _ => exact h.write hbounded key allowed now
  | remove key => exact ⟨hlimits, Nat.le_trans (c.size_remove_le key) h.size⟩
  | invalidate principal => exact ⟨hlimits, Nat.le_trans (c.size_invalidate_le principal) h.size⟩
  | purge => exact ⟨hlimits, Nat.le_trans (c.size_purge_le now) h.size⟩
  | clear => exact ⟨hlimits, Nat.le_trans c.size_clear_le h.size⟩

theorem changes {ms : List Mark} (h : c.Fits ttl capacity) (hbounded : 0 < capacity)
    (hchanges : c.Changes now ms c' now') : c'.Fits ttl capacity := by
  induction hchanges with
  | refl => exact h
  | tail _ hlast ih => exact ih.change hbounded hlast

end Fits

/-- The room for a stored key, expired or not, is there. -/
theorem find?_makeRoomFor_of_stored (h : c.find? key ≠ none) :
    (c.makeRoomFor key now).2.find? k = c.find? k := by
  cases c with
  | disabled => rfl
  | timed s =>
      show (s.makeRoomFor key now).2.find? k = s.find? k
      rw [Store.makeRoomFor_of_stored h]

/-- The room made for a key leaves alone what is under it. -/
theorem find?_makeRoomFor_self (c : Cache) (key : DecisionKey) (now : Nat) :
    (c.makeRoomFor key now).2.find? key = c.find? key := by
  by_cases hkey : c.find? key = none
  · rw [hkey, Option.eq_none_iff_forall_ne_some]
    intro d hd
    rw [find?_of_makeRoomFor hd] at hkey
    cases hkey
  · exact find?_makeRoomFor_of_stored hkey

/-- Under other keys a write leaves what the room made for it left. -/
theorem find?_written_of_ne (hne : k ≠ key) :
    (c.written key allowed now).find? k = (c.makeRoomFor key now).2.find? k := by
  cases c with
  | disabled => rfl
  | timed s =>
      show ((s.makeRoomFor key now).2.insert key allowed now).find? k = _
      rw [Store.find?_insert, if_neg hne]
      rfl

/-! ### What a write of a new key loses -/

/-- The entries that were live and are not found any more. -/
def lost (c c' : Cache) (now : Nat) : List (DecisionKey × Decision) :=
  (c.live now).filter fun e => (c'.find? e.1).isNone

theorem mem_live_iff {d : Decision} :
    (k, d) ∈ c.live now ↔ c.find? k = some d ∧ now < d.expiresAt := by
  unfold live
  rw [List.mem_filter, mem_entries_iff, Bool.not_eq_true', ← Bool.not_eq_true,
    Decision.isExpired_iff, Nat.not_le]

theorem nodup_live (c : Cache) (now : Nat) : ((c.live now).map Prod.fst).Nodup := by
  cases c with
  | disabled => exact .nil
  | timed s => exact s.decisions.nodup.sublist (List.filter_sublist.map _)

/-- Only one live entry has the key of a live entry. -/
theorem length_filter_key {victim : DecisionKey × Decision} (h : victim ∈ c.live now) :
    ((c.live now).filter fun e => decide (e.1 = victim.1)).length = 1 := by
  have hcount := List.count_eq_one_of_mem (c.nodup_live now) (List.mem_map_of_mem h)
  rw [List.count_eq_countP, List.countP_map, List.countP_eq_length_filter] at hcount
  rw [← hcount]
  congr 2

theorem lost_eq_nil (h : ∀ k d, (k, d) ∈ c.live now → c'.find? k = some d) :
    c.lost c' now = [] := by
  apply List.filter_eq_nil_iff.mpr
  rintro ⟨k, d⟩ he
  rw [h k d he]
  exact Bool.false_ne_true

/-- The room for a new key costs no live decision unless the live ones fill the store, and then
it costs one. -/
theorem length_lost (h : c.Fits ttl capacity) (hbounded : 0 < capacity) (hnew : c.find? key = none)
    (hroom : ∀ k, k ≠ key → c'.find? k = (c.makeRoomFor key now).2.find? k) :
    (c.lost c' now).length = if (c.live now).length = capacity then 1 else 0 := by
  cases c with
  | disabled => cases h.limits
  | timed s =>
      have hs := h.size
      obtain ⟨rfl, rfl⟩ := Prod.mk.inj (Option.some.inj h.limits)
      have hlive := (timed s).length_expired_add_length_live now
      have hsize : (timed s).size = s.size := rfl
      have hleft : ∀ k d, (k, d) ∈ (timed s).live now →
          c'.find? k = (s.makeRoom now).2.find? k := by
        intro k d he
        have hne : k ≠ key := by
          rintro rfl
          rw [(mem_live_iff.mp he).1] at hnew
          cases hnew
        rw [hroom k hne, ← Store.makeRoomFor_of_new hnew]
        rfl
      have hpurge : ∀ k d, (k, d) ∈ (timed s).live now → (s.purge now).2.find? k = some d := by
        intro k d he
        have hkept : (k, d) ∈ ((timed s).purge now).2.entries := by rwa [entries_purge]
        exact mem_entries_iff.mp hkept
      rcases s.makeRoom_cases now hbounded with
        ⟨hlt, hroom⟩ | ⟨-, hlt, hroom⟩ | ⟨hfull, victim, hvictim, hroom⟩
      · rw [if_neg (by omega), lost_eq_nil, List.length_nil]
        intro k d he
        rw [hleft k d he, hroom]
        exact (mem_live_iff.mp he).1
      · rw [if_neg (by omega), lost_eq_nil, List.length_nil]
        intro k d he
        rw [hleft k d he, hroom, hpurge k d he]
      · rw [if_pos (by omega), ← length_filter_key hvictim]
        congr 1
        apply List.filter_congr
        rintro ⟨k, d⟩ he
        have hfound : (s.makeRoom now).2.find? k =
            if k = victim.1 then none else (s.purge now).2.find? k := by
          show (s.makeRoom now).2.decisions.get? k = _
          rw [hroom]
          exact Table.get?_erase ..
        rw [hleft k d he, hfound, hpurge k d he]
        by_cases hk : k = victim.1 <;> simp [hk]

end Cache

/-! ### A put as far as it is carried out -/

namespace CacheCommand

variable {r : Run σ} {key k : DecisionKey} {allowed : Bool} {ttl capacity : Nat}

/-- A put is carried out if the clock can show when its decision expires. If not, the room made
for it is left. -/
theorem attempt_put_cache (key : DecisionKey) (allowed : Bool) (r : Run σ) :
    ((put key allowed).attempt r).2.cache =
      if r.cache.outlivesClock r.clock.elapsed then (r.cache.makeRoomFor key r.clock.elapsed).2
      else r.cache.written key allowed r.clock.elapsed := by
  let begun : Run σ := { r with overrun := none }
  have hreached : (begun.writeCache key allowed).reached =
      if r.cache.outlivesClock r.clock.elapsed then (begun.makeRoomFor key).toStanding
      else (begun.writeCache key allowed).toStanding := Run.writeCache_reached rfl key allowed
  show (begun.writeCache key allowed).reached.cache = _
  rw [hreached]
  split
  · rfl
  · exact begun.writeCache_cache key allowed

theorem attempt_put_isSome_iff (hl : r.cache.limits = some (ttl, capacity)) :
    ((put key allowed).attempt r).1.isSome ↔ r.clock.elapsed + ttl < Clock.horizon := by
  rw [attempt_isSome_iff hl]
  exact List.forall_mem_singleton.trans decide_eq_true_iff

/-- A put that is carried out is read at once if decisions live at all. -/
theorem peek_attempt_put (hl : r.cache.limits = some (ttl, capacity))
    (hshown : r.clock.elapsed + ttl < Clock.horizon) (httl : 0 < ttl) :
    ((put key allowed).attempt r).2.cache.peek key r.clock.elapsed = .live allowed := by
  have hcache := attempt_put_cache key allowed r
  rw [Cache.outlivesClock_of_limits hl, decide_eq_false (Nat.not_le.mpr hshown),
    if_neg Bool.false_ne_true] at hcache
  have hfound := Cache.find?_written_self key allowed r.clock.elapsed r.cache
  rw [Cache.ttl?_of_limits hl, ← hcache] at hfound
  exact Cache.peek_eq_live_iff.mpr ⟨_, hfound, rfl, Nat.lt_add_of_pos_right httl⟩

/-- A put that is given up leaves its key alone. -/
theorem find?_attempt_put_self (hl : r.cache.limits = some (ttl, capacity))
    (hlate : Clock.horizon ≤ r.clock.elapsed + ttl) :
    ((put key allowed).attempt r).2.cache.find? key = r.cache.find? key := by
  rw [attempt_put_cache, Cache.outlivesClock_of_limits hl, decide_eq_true hlate, if_pos rfl]
  exact r.cache.find?_makeRoomFor_self key r.clock.elapsed

/-- Under other keys a put leaves what the room made for it left, carried out or not. -/
theorem find?_attempt_put_of_ne (hne : k ≠ key) :
    ((put key allowed).attempt r).2.cache.find? k =
      (r.cache.makeRoomFor key r.clock.elapsed).2.find? k := by
  rw [attempt_put_cache]
  split
  · rfl
  · exact Cache.find?_written_of_ne hne

end CacheCommand

namespace Run

/-- A store of bounded capacity stays within it, and what it answers is right, whatever is done
with it and whichever decisions it gives up. An answer is that of the last write of the key, made
less than a time to live ago and ended by nothing since.

A put is carried out exactly if the clock can show when its decision expires. Then it is read at
once if decisions live at all; otherwise it leaves its key alone. Either way it leaves under other
keys only what was there. Over a stored key it loses nothing, and for a new key it loses a live
decision exactly if live ones fill the store, and then one. -/
theorem bounded_store {s : Store} {r : Run σ} (hcache : r.cache = .timed s)
    (hbounded : 0 < s.capacity) (hempty : s.size = 0) (deeds : List CacheDeed) :
    let c := (r.after deeds).cache
    let now := (r.after deeds).clock.elapsed
    c.size ≤ s.capacity ∧
    (∀ key allowed, (c.get key now).1 = .live allowed →
      ∃ instant later, PutLast (r.marks s.ttl deeds) key allowed instant later ∧
        now < instant + s.ttl) ∧
    ∀ key allowed,
      let put := (CacheCommand.put key allowed).attempt (r.after deeds)
      let written := put.2.cache
      (put.1.isSome ↔ now + s.ttl < Clock.horizon) ∧
      (put.1.isSome → 0 < s.ttl → (written.get key now).1 = .live allowed) ∧
      (put.1 = none → written.find? key = c.find? key) ∧
      (∀ k, k ≠ key → ∀ d, written.find? k = some d → c.find? k = some d) ∧
      (c.find? key ≠ none → ∀ k, k ≠ key → written.find? k = c.find? k) ∧
      (c.find? key = none →
        (c.lost written now).length = if (c.live now).length = s.capacity then 1 else 0) := by
  intro c now
  have hlimits : r.cache.limits = some (s.ttl, s.capacity) := by rw [hcache]; rfl
  have hsize : r.cache.size = 0 := by rw [hcache]; exact hempty
  have hchanges := after_changes hlimits deeds
  have hfits : c.Fits s.ttl s.capacity := Cache.Fits.changes ⟨hlimits, by omega⟩ hbounded hchanges
  have hfollows : c.Follows s.ttl s.capacity (r.marks s.ttl deeds) now := by
    have hstart := Cache.Follows.of_size_eq_zero hlimits hsize r.clock.elapsed
    simpa using hstart.changes hchanges
  refine ⟨hfits.size, ?_, ?_⟩
  · intro key allowed hread
    rw [Cache.get_fst, Cache.peek_eq_live_iff] at hread
    obtain ⟨d, hd, rfl, hlt⟩ := hread
    obtain ⟨instant, later, hput, hx, -⟩ := marked_eq_some_iff.mp (hfollows.honest key d hd)
    exact ⟨instant, later, hput, by omega⟩
  · intro key allowed put written
    have hcarried : put.1.isSome ↔ now + s.ttl < Clock.horizon :=
      CacheCommand.attempt_put_isSome_iff hfits.limits
    have hroom : ∀ k, k ≠ key → written.find? k = (c.makeRoomFor key now).2.find? k :=
      fun k hne => CacheCommand.find?_attempt_put_of_ne hne
    refine ⟨hcarried, ?_, ?_, ?_, ?_, ?_⟩
    · intro hsome httl
      rw [Cache.get_fst]
      exact CacheCommand.peek_attempt_put hfits.limits (hcarried.mp hsome) httl
    · intro hnone
      rw [hnone] at hcarried
      have hlate : Clock.horizon ≤ now + s.ttl :=
        Nat.not_lt.mp fun hshown => Bool.false_ne_true (hcarried.mpr hshown)
      exact CacheCommand.find?_attempt_put_self hfits.limits hlate
    · intro k hne d hd
      rw [hroom k hne] at hd
      exact Cache.find?_of_makeRoomFor hd
    · intro hstored k hne
      rw [hroom k hne]
      exact Cache.find?_makeRoomFor_of_stored hstored
    · intro hnew
      exact Cache.length_lost hfits hbounded hnew hroom

/-- A run with room for two decisions, which live for ten nanoseconds. -/
def twoPlaces : Run Unit where
  state := ()
  clock := .startingAt 0 0
  cache := .timed { ttl := 10, capacity := 2 }

/-- The key of a decision about a group. -/
def groupKey (name : String) : DecisionKey :=
  (⟨"O", "ACT", some "T"⟩ : Scope).key ⟨.group, name⟩

/-- One decision is written and has expired when another one has still time to live. -/
def halfExpired : List CacheDeed :=
  [.command (.put (groupKey "a") true), .wait 4, .command (.put (groupKey "b") false), .wait 6]

/-- A third decision takes the place of the expired one and loses no live one. A fourth one finds
the places taken by live decisions and loses one of them, and is read at once. -/
theorem bounded_store_when_full :
    let half := twoPlaces.after halfExpired
    let third := (CacheCommand.put (groupKey "c") true).attempt half
    let full := twoPlaces.after (halfExpired ++ [.command (.put (groupKey "c") true)])
    let fourth := (CacheCommand.put (groupKey "d") true).attempt full
    (half.cache.lost third.2.cache 10).length = 0 ∧ full.cache.size ≤ 2 ∧
      (full.cache.lost fourth.2.cache 10).length = 1 ∧ fourth.1.isSome ∧
      (fourth.2.cache.get (groupKey "d") 10).1 = .live true := by
  intro half third full fourth
  obtain ⟨-, -, hput⟩ := bounded_store (r := twoPlaces) rfl (by decide) rfl halfExpired
  obtain ⟨hsize, -, hput'⟩ := bounded_store (r := twoPlaces) rfl (by decide) rfl
    (halfExpired ++ [.command (.put (groupKey "c") true)])
  have hthird := (hput (groupKey "c") true).2.2.2.2.2 (by decide +kernel)
  obtain ⟨hcarried, hread, -, -, -, hfourth⟩ := hput' (groupKey "d") true
  have hsome := hcarried.mpr (by decide +kernel)
  refine ⟨?_, hsize, ?_, hsome, hread hsome (by decide)⟩
  · exact hthird.trans (by decide +kernel)
  · exact (hfourth (by decide +kernel)).trans (by decide +kernel)

/-- A run with room for one decision when the clock shows one second. Decisions are to live for
the greatest number of seconds that the clock can show. -/
def onePlace : Run Unit where
  state := ()
  clock := .startingAt 0 Instant.nanosPerSecond
  cache := .timed { ttl := Clock.horizon - Instant.nanosPerSecond, capacity := 1 }

/-- The clock cannot show when the decision would expire that is put here, and it is not read
afterwards, though decisions are to live. -/
theorem put_out_of_reach_is_not_read :
    let r := onePlace.after [.command (.put (groupKey "a") true)]
    0 < onePlace.cache.ttl ∧ r.clock = onePlace.clock ∧
      (r.cache.get (groupKey "a") r.clock.elapsed).1 = .absent := by
  decide +kernel

end Run

end GrantPath
