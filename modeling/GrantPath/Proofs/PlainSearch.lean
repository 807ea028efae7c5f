import GrantPath.Proofs.Exactness

/-! # The search without a cache

What a search does where nothing is remembered is said here by the answers alone
(`Answers.explore`): the outcome, the members expanded and the number of look-ups.

A search from a cache that holds nothing of its scope keeps up with it
(`Search.SteadyCases.keepsUp`), however few steps there are, whatever fails, whatever counted as
expanded at first and whatever the cache gives up in between. The two part where a principal is
come by again: the one may find a decision where the other looks further. But what is found is a
no about a handled principal, and exploring such a principal grants nothing and expands nothing
(`Answers.Explores.of_handled`).

So a search that starts cold has the same outcome and expands the same members with a cache as
without, and looks up records no more often (`Search.run_eq_uncached`). -/

namespace GrantPath

variable {σ : Type} {a : Answers} {s : Scope} {now : Instant} {limit : Nat}

/-! ### Look-ups -/

/-- Whether records about a principal were looked up. -/
def Event.isLookUp : Event → Bool
  | call (.permissions ..) _ _ => true
  | _ => false

/-- How often records about principals were looked up. -/
def Run.lookUps (r : Run σ) : Nat :=
  (r.journal.filter (·.isLookUp)).length

/-- The same run without a cache. -/
def Run.uncached (r : Run σ) : Run σ :=
  { r with cache := .disabled }

/-! ### Exploring -/

/-- How far an exploration has come. -/
structure Progress where
  /-- The members expanded so far. -/
  seen : SeenGroups
  /-- How often records were looked up. -/
  lookUps : Nat

/-- Explores a principal. -/
abbrev Exploration := Principal → Progress → Except Error Bool × Progress

namespace Progress

def lookUp (w : Progress) : Progress :=
  { w with lookUps := w.lookUps + 1 }

def expand (w : Progress) (m : GroupMember) : Progress :=
  { w with seen := w.seen.insert m }

/-- Everything expanded stays so. -/
def Grows (w w' : Progress) : Prop :=
  ∀ m ∈ w.seen, m ∈ w'.seen

theorem Grows.refl (w : Progress) : w.Grows w := fun _ hm => hm

theorem Grows.trans {w w' w'' : Progress} (h : w.Grows w') (h' : w'.Grows w'') : w.Grows w'' :=
  fun m hm => h' m (h m hm)

theorem grows_expand (w : Progress) (m : GroupMember) : w.Grows (w.expand m) :=
  fun _ hm => SeenGroups.mem_insert_of_mem hm

end Progress

namespace Answers

section definitions

variable (a : Answers) (s : Scope) (now : Instant) (limit : Nat)

/-- Whether one of the groups answers yes; a group that fails is passed over. -/
def exploreAny (explore : Exploration) : List GroupMember → Progress → Bool × Progress
  | [], w => (false, w)
  | g :: gs, w =>
    match a (.newPrincipal g) with
    | .error _ => exploreAny explore gs w
    | .ok q =>
      match explore q w with
      | (.ok true, w) => (true, w)
      | (_, w) => exploreAny explore gs w

/-- Explores a principal; without an exploration of its groups there is no step left. -/
def exploreFrom (groups? : Option Exploration) : Exploration := fun p w =>
  match a.verdict s now p with
  | .error e => (.error e, w.lookUp)
  | .ok (some granted) => (.ok granted, w.lookUp)
  | .ok none =>
    match groups? with
    | none => (.error (.traversalDepthExceeded p limit), w.lookUp)
    | some explore =>
      match a (.groupMember p) with
      | .error e => (.error e, w.lookUp)
      | .ok m =>
        if m ∈ w.seen then (.ok false, w.lookUp)
        else
          match a (.parentGroups m) with
          | .error e => (.error e, w.lookUp.expand m)
          | .ok groups =>
            let (granted, w) := a.exploreAny explore groups (w.lookUp.expand m)
            (.ok granted, w)

/-- Explores a principal with so many steps left. -/
def explore : Nat → Exploration
  | 0 => a.exploreFrom s now limit none
  | steps + 1 => a.exploreFrom s now limit (some (explore steps))

end definitions

variable {p q : Principal} {m g : GroupMember} {gs groups : List GroupMember} {w : Progress}
  {n : Nat}

/-! #### Each way an exploration can go -/

theorem explore_of_error {e : Error} (h : a.verdict s now p = .error e) :
    a.explore s now limit n p w = (.error e, w.lookUp) := by
  cases n <;> simp only [explore, exploreFrom, h]

theorem explore_of_some {granted : Bool} (h : a.verdict s now p = .ok (some granted)) :
    a.explore s now limit n p w = (.ok granted, w.lookUp) := by
  cases n <;> simp only [explore, exploreFrom, h]

theorem explore_zero (h : a.verdict s now p = .ok none) :
    a.explore s now limit 0 p w = (.error (.traversalDepthExceeded p limit), w.lookUp) := by
  simp only [explore, exploreFrom, h]

section silent

variable (h : a.verdict s now p = .ok none)

include h

theorem explore_of_memberFails {e : Error} (hm : a (.groupMember p) = .error e) :
    a.explore s now limit (n + 1) p w = (.error e, w.lookUp) := by
  simp only [explore, exploreFrom, h, hm]

variable (hm : a (.groupMember p) = .ok m)

include hm

theorem explore_of_mem (hmem : m ∈ w.seen) :
    a.explore s now limit (n + 1) p w = (.ok false, w.lookUp) := by
  simp only [explore, exploreFrom, h, hm, if_pos hmem]

theorem explore_of_groupsFail {e : Error} (hmem : m ∉ w.seen)
    (hg : a (.parentGroups m) = .error e) :
    a.explore s now limit (n + 1) p w = (.error e, w.lookUp.expand m) := by
  simp only [explore, exploreFrom, h, hm, if_neg hmem, hg]

theorem explore_of_groups (hmem : m ∉ w.seen) (hg : a (.parentGroups m) = .ok groups) :
    a.explore s now limit (n + 1) p w =
      (.ok (a.exploreAny (a.explore s now limit n) groups (w.lookUp.expand m)).1,
        (a.exploreAny (a.explore s now limit n) groups (w.lookUp.expand m)).2) := by
  simp only [explore, exploreFrom, h, hm, if_neg hmem, hg]

end silent

variable {explore : Exploration}

theorem exploreAny_of_error {e : Error} (h : a (.newPrincipal g) = .error e) :
    a.exploreAny explore (g :: gs) w = a.exploreAny explore gs w := by
  simp only [exploreAny, h]

theorem exploreAny_of_granted (h : a (.newPrincipal g) = .ok q)
    (hq : (explore q w).1 = .ok true) :
    a.exploreAny explore (g :: gs) w = (true, (explore q w).2) := by
  rcases hout : explore q w with ⟨_ | _ | _, w'⟩
  · simp [hout] at hq
  · simp [hout] at hq
  · simp only [exploreAny, h, hout]

theorem exploreAny_of_refused (h : a (.newPrincipal g) = .ok q)
    (hq : (explore q w).1 ≠ .ok true) :
    a.exploreAny explore (g :: gs) w = a.exploreAny explore gs (explore q w).2 := by
  rcases hout : explore q w with ⟨_ | _ | _, w'⟩
  · simp only [exploreAny, h, hout]
  · simp only [exploreAny, h, hout]
  · simp [hout] at hq

/-! #### What explorations leave -/

/-- What can happen in an exploration. -/
inductive Explores (a : Answers) (s : Scope) (now : Instant) (limit : Nat) (p : Principal)
    (w : Progress) : Nat → Except Error Bool × Progress → Prop
  | lookUpFails {n : Nat} {e : Error} : a.verdict s now p = .error e →
      Explores a s now limit p w n (.error e, w.lookUp)
  | decided {n : Nat} {granted : Bool} : a.verdict s now p = .ok (some granted) →
      Explores a s now limit p w n (.ok granted, w.lookUp)
  | noStepLeft : a.verdict s now p = .ok none →
      Explores a s now limit p w 0 (.error (.traversalDepthExceeded p limit), w.lookUp)
  | memberFails {n : Nat} {e : Error} : a.verdict s now p = .ok none →
      a (.groupMember p) = .error e → Explores a s now limit p w (n + 1) (.error e, w.lookUp)
  | metBefore {n : Nat} {m : GroupMember} : a.verdict s now p = .ok none →
      a (.groupMember p) = .ok m → m ∈ w.seen →
      Explores a s now limit p w (n + 1) (.ok false, w.lookUp)
  | groupsFail {n : Nat} {m : GroupMember} {e : Error} : a.verdict s now p = .ok none →
      a (.groupMember p) = .ok m → m ∉ w.seen → a (.parentGroups m) = .error e →
      Explores a s now limit p w (n + 1) (.error e, w.lookUp.expand m)
  | climbed {n : Nat} {m : GroupMember} {groups : List GroupMember} :
      a.verdict s now p = .ok none → a (.groupMember p) = .ok m → m ∉ w.seen →
      a (.parentGroups m) = .ok groups →
      Explores a s now limit p w (n + 1)
        (.ok (a.exploreAny (a.explore s now limit n) groups (w.lookUp.expand m)).1,
          (a.exploreAny (a.explore s now limit n) groups (w.lookUp.expand m)).2)

theorem explores (n : Nat) (p : Principal) (w : Progress) :
    a.Explores s now limit p w n (a.explore s now limit n p w) := by
  rcases hv : a.verdict s now p with e | _ | granted
  · rw [explore_of_error hv]
    exact .lookUpFails hv
  · cases n with
    | zero =>
        rw [explore_zero hv]
        exact .noStepLeft hv
    | succ n =>
        cases hm : a (.groupMember p) with
        | error e =>
            rw [explore_of_memberFails hv hm]
            exact .memberFails hv hm
        | ok m =>
            by_cases hmem : m ∈ w.seen
            · rw [explore_of_mem hv hm hmem]
              exact .metBefore hv hm hmem
            · cases hg : a (.parentGroups m) with
              | error e =>
                  rw [explore_of_groupsFail hv hm hmem hg]
                  exact .groupsFail hv hm hmem hg
              | ok groups =>
                  rw [explore_of_groups hv hm hmem hg]
                  exact .climbed hv hm hmem hg
  · rw [explore_of_some hv]
    exact .decided hv

theorem exploreAny_grows (h : ∀ (q : Principal) (w : Progress), w.Grows (explore q w).2) :
    ∀ (gs : List GroupMember) (w : Progress), w.Grows (a.exploreAny explore gs w).2
  | [], w => .refl w
  | g :: gs, w => by
      cases hg : a (.newPrincipal g) with
      | error e =>
          rw [exploreAny_of_error hg]
          exact exploreAny_grows h gs w
      | ok q =>
          by_cases hq : (explore q w).1 = .ok true
          · rw [exploreAny_of_granted hg hq]
            exact h q w
          · rw [exploreAny_of_refused hg hq]
            exact (h q w).trans (exploreAny_grows h gs _)

theorem Explores.grows {out : Except Error Bool × Progress} (h : a.Explores s now limit p w n out)
    (hn : ∀ k < n, ∀ (q : Principal) (w : Progress), w.Grows (a.explore s now limit k q w).2) :
    w.Grows out.2 := by
  cases h with
  | groupsFail _ _ _ _ => exact w.lookUp.grows_expand _
  | @climbed k m groups _ _ _ _ =>
      have hexpand : w.Grows (w.lookUp.expand m) := w.lookUp.grows_expand m
      exact hexpand.trans (exploreAny_grows (hn k (Nat.lt_succ_self k)) groups _)
  | _ => exact .refl w

theorem explore_grows (n : Nat) (p : Principal) (w : Progress) :
    w.Grows (a.explore s now limit n p w).2 := by
  induction n using Nat.strong_induction_on generalizing p w with
  | _ n ih => exact (explores n p w).grows ih

/-- What an exploration says no about is handled. -/
theorem Explores.handled {out : Except Error Bool × Progress}
    (h : a.Explores s now limit p w n out) (hno : out.1 = .ok false) :
    a.Handled s now out.2.seen p := by
  cases h with
  | @decided _ granted hv =>
      obtain rfl : granted = false := Except.ok.inj hno
      exact handled_of_verdict hv (by simp) (by simp)
  | metBefore hv hm hmem => exact handled_of_named hv hm hmem
  | @climbed k m groups hv hm _ _ =>
      apply handled_of_named hv hm
      exact exploreAny_grows (explore_grows k) groups _ m (SeenGroups.mem_insert_self ..)
  | _ => cases hno

/-- Exploring what is handled grants nothing and expands nothing. -/
theorem Explores.of_handled {out : Except Error Bool × Progress}
    (h : a.Explores s now limit p w n out) (hp : a.Handled s now w.seen p) :
    out.1 ≠ .ok true ∧ out.2 = w.lookUp := by
  have hmember : ∀ m, a.verdict s now p = .ok none → a (.groupMember p) = .ok m → m ∈ w.seen :=
    fun m hv hm => hp.2 (silent_iff.mpr hv) m hm
  cases h with
  | @decided _ granted hv =>
      refine ⟨?_, rfl⟩
      intro hyes
      obtain rfl : granted = true := Except.ok.inj hyes
      exact hp.1 (granted_iff.mpr hv)
  | groupsFail hv hm hmem _ => exact absurd (hmember _ hv hm) hmem
  | climbed hv hm hmem _ => exact absurd (hmember _ hv hm) hmem
  | _ => exact ⟨nofun, rfl⟩

/-! #### What explorations depend on -/

theorem exploreAny_congr (h : ∀ (q : Principal) (w w' : Progress), w.seen = w'.seen →
      (explore q w).1 = (explore q w').1 ∧ (explore q w).2.seen = (explore q w').2.seen) :
    ∀ (gs : List GroupMember) (w w' : Progress), w.seen = w'.seen →
      (a.exploreAny explore gs w).1 = (a.exploreAny explore gs w').1 ∧
        (a.exploreAny explore gs w).2.seen = (a.exploreAny explore gs w').2.seen
  | [], _, _, hw => ⟨rfl, hw⟩
  | g :: gs, w, w', hw => by
      cases hg : a (.newPrincipal g) with
      | error e =>
          rw [exploreAny_of_error hg, exploreAny_of_error hg]
          exact exploreAny_congr h gs w w' hw
      | ok q =>
          obtain ⟨hout, hseen⟩ := h q w w' hw
          by_cases hq : (explore q w).1 = .ok true
          · rw [exploreAny_of_granted hg hq, exploreAny_of_granted hg (hout ▸ hq)]
            exact ⟨rfl, hseen⟩
          · rw [exploreAny_of_refused hg hq, exploreAny_of_refused hg (hout ▸ hq)]
            exact exploreAny_congr h gs _ _ hseen

/-- What an exploration finds depends on what is expanded, not on how often records were looked
up. -/
theorem explore_congr (n : Nat) (p : Principal) (w w' : Progress) (hw : w.seen = w'.seen) :
    (a.explore s now limit n p w).1 = (a.explore s now limit n p w').1 ∧
      (a.explore s now limit n p w).2.seen = (a.explore s now limit n p w').2.seen := by
  induction n using Nat.strong_induction_on generalizing p w w' with
  | _ n ih =>
      have hexplores : a.Explores s now limit p w n _ := explores n p w
      generalize a.explore s now limit n p w = out at hexplores ⊢
      cases hexplores with
      | lookUpFails hv =>
          rw [explore_of_error hv]
          exact ⟨rfl, hw⟩
      | decided hv =>
          rw [explore_of_some hv]
          exact ⟨rfl, hw⟩
      | noStepLeft hv =>
          rw [explore_zero hv]
          exact ⟨rfl, hw⟩
      | memberFails hv hm =>
          rw [explore_of_memberFails hv hm]
          exact ⟨rfl, hw⟩
      | metBefore hv hm hmem =>
          rw [explore_of_mem hv hm (hw ▸ hmem)]
          exact ⟨rfl, hw⟩
      | @groupsFail k m e hv hm hmem hg =>
          rw [explore_of_groupsFail hv hm (hw ▸ hmem) hg]
          exact ⟨rfl, congrArg (·.insert m) hw⟩
      | @climbed k m groups hv hm hmem hg =>
          rw [explore_of_groups hv hm (hw ▸ hmem) hg]
          have hexpanded : (w.lookUp.expand m).seen = (w'.lookUp.expand m).seen :=
            congrArg (·.insert m) hw
          obtain ⟨hout, hseen⟩ :=
            exploreAny_congr (ih k (Nat.lt_succ_self k)) groups _ _ hexpanded
          exact ⟨congrArg Except.ok hout, hseen⟩

end Answers

/-! ### Keeping up -/

namespace Run

variable {r r' : Run σ} {w : Progress} {p : Principal}

/-- The run has expanded the same members as the exploration and has not looked up records more
often; without a cache it has as often. -/
structure Abreast (r : Run σ) (w : Progress) : Prop where
  seen : r.seen = w.seen
  lookUps_le : r.lookUps ≤ w.lookUps
  lookUps_eq : r.cache.ttl? = none → r.lookUps = w.lookUps

theorem Abreast.of_eq (h : r.Abreast w) (hseen : r'.seen = r.seen)
    (hlookUps : r'.lookUps = r.lookUps) (httl : r'.cache.ttl? = r.cache.ttl?) : r'.Abreast w where
  seen := hseen.trans h.seen
  lookUps_le := hlookUps ▸ h.lookUps_le
  lookUps_eq hno := hlookUps.trans (h.lookUps_eq (httl ▸ hno))

/-- A read about this scope finds only a no, about what is handled. -/
def Refuses (a : Answers) (s : Scope) (now : Instant) (r : Run σ) : Prop :=
  r.Upholds fun key allowed => ∀ p, key = s.key p → allowed = false ∧ a.Handled s now r.seen p

theorem Refuses.of_upholds {seen : SeenGroups} (h : r.Upholds fun key allowed =>
      ∀ p, key = s.key p → allowed = false ∧ a.Handled s now seen p)
    (hsub : ∀ m ∈ seen, m ∈ r.seen) : r.Refuses a s now :=
  h.imp fun _ _ hk p hp => ⟨(hk p hp).1, (hk p hp).2.mono hsub⟩

theorem refuses_of_cold (h : ∀ q allowed, ¬ r.Knows (s.key q) allowed) : r.Refuses a s now := by
  rintro key allowed hk p rfl
  exact absurd hk (h p allowed)

theorem Knows.ttl?_ne_none {key : DecisionKey} {allowed : Bool} (h : r.Knows key allowed) :
    r.cache.ttl? ≠ none := by
  intro hno
  unfold Knows at h
  cases hc : r.cache with
  | disabled => simp [hc, Cache.peek] at h
  | timed store => simp [hc, Cache.ttl?] at hno

end Run

/-- A part of a search that ends in `out` has kept up with an exploration that ends in `plain`:
both say yes or neither does, and if not, a read goes on to find only a no about what is handled. -/
structure KeepsUp (a : Answers) (s : Scope) (now : Instant) {α : Type} (yes : α)
    (out : α × Run σ) (plain : α × Progress) : Prop where
  yes_iff : out.1 = yes ↔ plain.1 = yes
  abreast : out.2.Abreast plain.2
  refuses : out.1 ≠ yes → out.2.Refuses a s now

theorem KeepsUp.of_eq {α : Type} {yes : α} {out : α × Run σ} {plain : α × Progress}
    (h : out.1 = plain.1) (hw : out.2.Abreast plain.2) (hr : out.1 ≠ yes → out.2.Refuses a s now) :
    KeepsUp a s now yes out plain :=
  ⟨by rw [h], hw, hr⟩

namespace Search

variable {s : Search σ} {p : Principal} {m g : GroupMember} {r : Run σ} {w : Progress}

section stages

variable (h : r.Abreast w)

include h

theorem abreast_looked : (s.looked p r).Abreast w.lookUp where
  seen := h.seen
  lookUps_le := Nat.succ_le_succ h.lookUps_le
  lookUps_eq hno := congrArg Nat.succ (h.lookUps_eq hno)

theorem abreast_named : (s.named p r).Abreast w.lookUp :=
  (abreast_looked (s := s) (p := p) h).of_eq rfl rfl rfl

theorem abreast_expanded : (s.expanded p m r).Abreast (w.lookUp.expand m) where
  seen := congrArg (·.insert m) h.seen
  lookUps_le := (abreast_named (s := s) (p := p) h).lookUps_le
  lookUps_eq := (abreast_named (s := s) (p := p) h).lookUps_eq

theorem abreast_readCache (key : DecisionKey) : (r.readCache key).2.Abreast w := by
  refine h.of_eq (r.readCache_seen key) ?_ ?_
  · rw [Run.lookUps, Run.readCache_journal]
    rfl
  · rw [Run.readCache_cache, (r.cache.get_within key r.clock.elapsed).1]

theorem abreast_writeCache (key : DecisionKey) (allowed : Bool) :
    (r.writeCache key allowed).Abreast w := by
  refine h.of_eq (r.writeCache_seen key allowed) ?_ (r.writeCache_ttl? key allowed)
  rw [Run.lookUps, Run.writeCache_journal]
  rfl

theorem abreast_missed : (s.missed p r).Abreast w :=
  (abreast_readCache h _).of_eq rfl rfl rfl

theorem abreast_addressed : (s.addressed r g).Abreast w := h.of_eq rfl rfl rfl

theorem abreast_passedOver (outcome : Except Error Bool) : (passedOver outcome r).Abreast w := by
  cases outcome with
  | error e => exact h.of_eq rfl rfl rfl
  | ok granted => exact h

/-- Where a decision is found, nothing is looked up. -/
theorem abreast_hit {key : DecisionKey} {allowed : Bool} (hk : r.Knows key allowed) :
    ((r.readCache key).2.count .cacheHit).Abreast w.lookUp where
  seen := (abreast_readCache h key).seen
  lookUps_le := Nat.le_succ_of_le (abreast_readCache h key).lookUps_le
  lookUps_eq hno := by
    have hno : (r.readCache key).2.cache.ttl? = none := hno
    rw [Run.readCache_cache, (r.cache.get_within key r.clock.elapsed).1] at hno
    exact absurd hno hk.ttl?_ne_none

end stages

section refusals

variable {a : Answers} {now : Instant} (h : r.Refuses a s.scope now)

include h

theorem refuses_looked : (s.looked p r).Refuses a s.scope now := upholds_looked h

theorem refuses_named : (s.named p r).Refuses a s.scope now := upholds_named h

theorem refuses_expanded : (s.expanded p m r).Refuses a s.scope now :=
  .of_upholds (upholds_expanded h) fun _ hm => SeenGroups.mem_insert_of_mem hm

theorem refuses_missed : (s.missed p r).Refuses a s.scope now :=
  .of_upholds (upholds_missed h) (by simp)

theorem refuses_addressed : (s.addressed r g).Refuses a s.scope now := upholds_addressed h

theorem refuses_passedOver (outcome : Except Error Bool) :
    (passedOver outcome r).Refuses a s.scope now :=
  .of_upholds (upholds_passedOver h outcome) (by simp)

theorem refuses_hit : ((r.readCache (s.scope.key p)).2.count .cacheHit).Refuses a s.scope now :=
  .of_upholds ((Run.Upholds.readCache h _).count _) (by simp)

theorem refuses_writeCache (hp : a.Handled s.scope now r.seen p) :
    (r.writeCache (s.scope.key p) false).Refuses a s.scope now := by
  refine .of_upholds (Run.Upholds.writeCache h ?_) (by simp)
  intro q hq
  obtain rfl : p = q := s.scope.key_injective hq
  exact ⟨rfl, hp⟩

end refusals

/-- While things are steady, a search that finds no decision of its scope but a no about what is
handled keeps up with an exploration. -/
theorem SteadyCases.keepsUp {a : Answers} {now : Instant} :
    s.SteadyCases a now
      (fun n p r out => ∀ w, r.Abreast w → r.Refuses a s.scope now →
        out.1 = (a.explore s.scope now s.limit n p w).1 ∧
          KeepsUp a s.scope now (.ok true) out (a.explore s.scope now s.limit n p w))
      (fun n p r out => ∀ w, r.Abreast w → r.Refuses a s.scope now →
        ((∀ allowed, ¬ r.Knows (s.scope.key p) allowed) →
          out.1 = (a.explore s.scope now s.limit n p w).1) ∧
          KeepsUp a s.scope now (.ok true) out (a.explore s.scope now s.limit n p w))
      (fun n gs r out => ∀ w, r.Abreast w → r.Refuses a s.scope now →
        KeepsUp a s.scope now true out
          (a.exploreAny (a.explore s.scope now s.limit n) gs w)) where
  lookUpFails hv w hw hr := by
    rw [Answers.explore_of_error hv]
    exact ⟨rfl, .of_eq rfl (abreast_looked hw) fun _ => refuses_looked hr⟩
  decided hv w hw hr := by
    rw [Answers.explore_of_some hv]
    exact ⟨rfl, .of_eq rfl (abreast_looked hw) fun _ => refuses_looked hr⟩
  noStepLeft hv w hw hr := by
    rw [Answers.explore_zero hv]
    exact ⟨rfl, .of_eq rfl (abreast_looked hw) fun _ => refuses_looked hr⟩
  memberFails hv hm w hw hr := by
    rw [Answers.explore_of_memberFails hv hm]
    exact ⟨rfl, .of_eq rfl (abreast_named hw) fun _ => refuses_named hr⟩
  metBefore hv hm hmem w hw hr := by
    rw [hw.seen] at hmem
    rw [Answers.explore_of_mem hv hm hmem]
    exact ⟨rfl, .of_eq rfl ((abreast_named hw).of_eq rfl rfl rfl) fun _ => refuses_named hr⟩
  groupsFail hv hm hmem hg w hw hr := by
    rw [hw.seen] at hmem
    rw [Answers.explore_of_groupsFail hv hm hmem hg]
    exact ⟨rfl, .of_eq rfl (abreast_expanded hw) fun _ => refuses_expanded hr⟩
  climbed {n p r m groups out} hv hm hmem hg _ htried w hw hr := by
    rw [hw.seen] at hmem
    rw [Answers.explore_of_groups hv hm hmem hg]
    obtain ⟨hyes, habreast, hrefuses⟩ := htried _ (abreast_expanded hw) (refuses_expanded hr)
    have heq : out.1 = _ := Bool.eq_iff_iff.mpr hyes
    exact ⟨congrArg Except.ok heq, .of_eq (congrArg Except.ok heq) habreast
      fun hno => hrefuses fun h => hno (congrArg Except.ok h)⟩
  noGroupLeft w hw hr := .of_eq rfl hw fun _ => hr
  noPrincipal hq _ htried w hw hr := by
    rw [Answers.exploreAny_of_error hq]
    exact htried w ((abreast_addressed hw).of_eq rfl rfl rfl) (refuses_addressed hr)
  granted hq _ hcons w hw hr := by
    obtain ⟨-, hyes, habreast, -⟩ := hcons w (abreast_addressed hw) (refuses_addressed hr)
    rw [Answers.exploreAny_of_granted hq (hyes.mp rfl)]
    exact .of_eq rfl habreast fun hno => absurd rfl hno
  refused {n g gs q r r' outcome out} hq _ hcons hno _ htried w hw hr := by
    obtain ⟨-, hyes, habreast, hrefuses⟩ := hcons w (abreast_addressed hw) (refuses_addressed hr)
    rw [Answers.exploreAny_of_refused hq fun h => hno (hyes.mpr h)]
    exact htried _ (abreast_passedOver habreast outcome) (refuses_passedOver (hrefuses hno) outcome)
  hit {n p r granted} hk w hw hr := by
    obtain ⟨hno, hhandled⟩ := hr _ _ hk p rfl
    rw [hw.seen] at hhandled
    have hplain : (a.explore s.scope now s.limit n p w).1 ≠ .ok true ∧
        (a.explore s.scope now s.limit n p w).2 = w.lookUp :=
      (Answers.explores n p w).of_handled hhandled
    refine ⟨fun hcold => absurd hk (hcold granted), ⟨?_, ?_, fun _ => refuses_hit hr⟩⟩
    · simp [hno, hplain.1]
    · rw [hplain.2]
      exact abreast_hit hw hk
  computed {n p r granted r'} _ _ hv w hw hr := by
    obtain ⟨heq, -, habreast, hrefuses⟩ := hv w (abreast_missed hw) (refuses_missed hr)
    refine ⟨fun _ => heq, .of_eq heq (abreast_writeCache habreast _ _) ?_⟩
    intro hno
    obtain rfl : granted = false := by simpa using hno
    have hhandled := (Answers.explores n p w).handled heq.symm
    have hseen : r'.seen = _ := habreast.seen
    rw [← hseen] at hhandled
    exact refuses_writeCache (hrefuses hno) hhandled
  notComputed _ _ hv w hw hr := by
    obtain ⟨heq, hkeeps⟩ := hv w (abreast_missed hw) (refuses_missed hr)
    exact ⟨fun _ => heq, hkeeps⟩

section still

variable {st : σ} {a : Answers} (hs : s.service.Still st a) (hst : r.state = st)

include hs hst

/-- A search that starts cold has the outcome of the exploration and expands the same members. -/
theorem run_eq_explore (hcold : ∀ q allowed, ¬ r.Knows (s.scope.key q) allowed)
    (seen : SeenGroups) :
    (s.run seen p r).1 =
        (a.explore s.scope r.clock.wall s.limit s.limit p ⟨seen, r.lookUps⟩).1 ∧
      (s.run seen p r).2.Abreast
        (a.explore s.scope r.clock.wall s.limit s.limit p ⟨seen, r.lookUps⟩).2 := by
  have hsteady : Run.Steady st a r.clock.wall r (s.run seen p r).2 :=
    .of_still hs (s.run_reaches seen p r) hst
  have habreast : (r.beginSearch (s.scope.key p) seen).Abreast ⟨seen, r.lookUps⟩ :=
    ⟨rfl, Nat.le_refl _, fun _ => rfl⟩
  have hcold' : ∀ q allowed, ¬ (r.beginSearch (s.scope.key p) seen).Knows (s.scope.key q) allowed :=
    hcold
  obtain ⟨heq, hkeeps⟩ :=
    SteadyCases.keepsUp.run hs.1 hsteady _ habreast (Run.refuses_of_cold hcold')
  exact ⟨heq (hcold' p), hkeeps.abreast⟩

/-- A search from a cache that holds no live decision of its scope has the same outcome as without
a cache, be it an answer or an error, expands the same members and looks up records no more often,
whatever counts as expanded at first and however few steps there are. It can only overrun if what
it writes outlives the clock. -/
theorem run_eq_uncached (hcold : ∀ q allowed, ¬ r.Knows (s.scope.key q) allowed)
    (seen : SeenGroups) :
    (s.run seen p r).1 = (s.run seen p r.uncached).1 ∧
    (s.run seen p r).2.seen = (s.run seen p r.uncached).2.seen ∧
    (s.run seen p r).2.lookUps ≤ (s.run seen p r.uncached).2.lookUps ∧
    (r.cache.outlivesClock r.clock.elapsed = false →
      (s.run seen p r).2.overrun = r.overrun) := by
  have hcold₀ : ∀ q allowed, ¬ r.uncached.Knows (s.scope.key q) allowed := by
    intro q allowed h
    exact h.ttl?_ne_none rfl
  have hno : (s.run seen p r.uncached).2.cache.ttl? = none :=
    (s.run_reaches seen p r.uncached).ttl?_eq
  obtain ⟨heq, habreast⟩ := run_eq_explore (p := p) hs hst hcold seen
  obtain ⟨heq₀, habreast₀⟩ := run_eq_explore (r := r.uncached) (p := p) hs hst hcold₀ seen
  refine ⟨heq.trans heq₀.symm, habreast.seen.trans habreast₀.seen.symm, ?_, ?_⟩
  · calc
      (s.run seen p r).2.lookUps
          ≤ (a.explore s.scope r.clock.wall s.limit s.limit p ⟨seen, r.lookUps⟩).2.lookUps :=
        habreast.lookUps_le
      _ = (s.run seen p r.uncached).2.lookUps := (habreast₀.lookUps_eq hno).symm
  · exact fun hc => (s.run_reaches seen p r).overrun_eq hs hst hc

end still

/-- A person in two groups that share a third, which is in one of the two again; the groups of the
person's last group cannot be looked up. -/
def sharedDirectory : StagedDirectory where
  directory := ({} : Directory).changes
    [.addMembership ⟨.person, "alice"⟩ "a", .addMembership ⟨.person, "alice"⟩ "b",
      .addMembership ⟨.person, "alice"⟩ "d", .addMembership ⟨.group, "a"⟩ "c",
      .addMembership ⟨.group, "b"⟩ "c", .addMembership ⟨.group, "c"⟩ "a"]
  faults := [⟨"parent_groups", "group.d"⟩]

/-- A search from the person with room for two decisions. -/
def sharedRun : Run StagedDirectory where
  state := sharedDirectory
  clock := .startingAt 0 0
  cache := .timed { ttl := 60, capacity := 2 }

/-- Three steps are too few to go around the cycle. The cache saves one look-up, of the group that
two others share, and the outcome is the same. -/
theorem run_eq_uncached_on_shared_group :
    let s : Search StagedDirectory := ⟨StagedDirectory.service, ⟨"O", "ACT", some "T"⟩, 3⟩
    let p : Principal := ⟨.person, "alice"⟩
    let seen := SeenGroups.ofList [⟨.group, "elsewhere"⟩]
    (s.run seen p sharedRun).1 = (s.run seen p sharedRun.uncached).1 ∧
      (s.run seen p sharedRun).2.seen = (s.run seen p sharedRun.uncached).2.seen ∧
      (s.run seen p sharedRun).2.lookUps = 6 ∧ (s.run seen p sharedRun.uncached).2.lookUps = 7 := by
  intro s p seen
  have hcold : ∀ q allowed, ¬ sharedRun.Knows (s.scope.key q) allowed := by
    intro q allowed h
    cases h
  have hstill : s.service.Still sharedDirectory sharedDirectory.answers := StagedDirectory.still rfl
  have hstate : sharedRun.state = sharedDirectory := rfl
  have h := run_eq_uncached (p := p) hstill hstate hcold seen
  exact ⟨h.1, h.2.1, by decide +kernel, by decide +kernel⟩

end Search

end GrantPath
