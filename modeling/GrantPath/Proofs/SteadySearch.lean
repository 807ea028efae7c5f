import GrantPath.Proofs.Directories
import GrantPath.Proofs.SearchCases

/-! # Searches while nothing changes

A service is `Service.Settled` in a state if it gives the same answers there and keeps the
state, and `Service.Still` if besides it answers at once; a staged directory is settled in every
state and still where it delays nothing.

From one run to another things are `Run.Steady` if the service is in such a state and the
same records are in force whenever something happens. `Search.SteadyCases` are the cases of a
search while things are steady: what is looked up is then told by the answers alone. -/

namespace GrantPath

variable {σ : Type}

namespace Service

/-- In this state the service gives these answers and stays as it is. -/
def Settled (svc : Service σ) (st : σ) (a : Answers) : Prop :=
  ∀ q, (svc.reply q st).answer = a q ∧ (svc.reply q st).state = st

/-- In this state the service gives these answers at once and stays as it is. -/
def Still (svc : Service σ) (st : σ) (a : Answers) : Prop :=
  svc.Settled st a ∧ ∀ q, (svc.reply q st).nanos = 0

end Service

namespace StagedDirectory

theorem settled (st : StagedDirectory) : service.Settled st st.answers :=
  fun _ => ⟨rfl, rfl⟩

theorem still {st : StagedDirectory} (h : st.delays = .empty) :
    service.Still st st.answers := by
  refine ⟨st.settled, ?_⟩
  intro q
  show st.nanos q = 0
  cases q with
  | permissions p owner activity target => simp [nanos, h]
  | _ => rfl

end StagedDirectory

namespace Run

variable {svc : Service σ} {st : σ} {a : Answers} {r r' : Run σ}

/-- A settled service stays in its state. -/
theorem Reaches.state_eq (hs : svc.Settled st a) (h : Reaches svc r r') (hst : r.state = st) :
    r'.state = st := by
  induction h with
  | refl => exact hst
  | tail _ h ih =>
      cases h with
      | ask q r => rw [ask_state, ih, (hs q).2]
      | read key r => rw [readCache_state, ih]
      | write key allowed r => rw [writeCache_state, ih]
      | _ => exact ih

/-- While a service is still the clocks do not move. -/
theorem Reaches.clock_eq (hs : svc.Still st a) (h : Reaches svc r r') (hst : r.state = st) :
    r'.clock = r.clock := by
  induction h with
  | refl => rfl
  | tail hr h ih =>
      have hst' := Reaches.state_eq hs.1 hr hst
      cases h with
      | ask q r => rw [ask_clock, hst', hs.2 q, Clock.advance_zero, ih]
      | read key r => rw [readCache_clock, ih]
      | write key allowed r => rw [writeCache_clock, ih]
      | _ => exact ih

theorem Reaches.throughout_clock (hs : svc.Still st a) (h : Reaches svc r r')
    (hst : r.state = st) : Throughout (fun e => e.clock = r.clock) r r' := by
  induction h with
  | refl => exact .refl r
  | tail hr h ih =>
      apply ih.trans
      have hclock := Reaches.clock_eq hs (hr.tail h) hst
      rcases h.journal with hj | ⟨e, hj, he⟩
      · exact ⟨[], hj, by simp⟩
      · exact ⟨[e], hj, by simp [he, hclock]⟩

/-- While a service is still only a decision that outlives the clock makes a run overrun. -/
theorem Reaches.overrun_eq (hs : svc.Still st a) (h : Reaches svc r r') (hst : r.state = st)
    (hc : r.cache.outlivesClock r.clock.elapsed = false) : r'.overrun = r.overrun := by
  induction h with
  | refl => rfl
  | tail hr h ih =>
      rw [← ih]
      apply h.overrun_eq
      rw [Reaches.clock_eq hs hr hst, Cache.outlivesClock_congr (Reaches.ttl?_eq hr), hc]

/-! ### Steady stretches of a run -/

variable {now : Instant} {m : Run σ}

/-- The service is in the state, and whenever something happens from one run to the other the
same records are in force as at the instant. -/
def Steady (st : σ) (a : Answers) (now : Instant) (r r' : Run σ) : Prop :=
  r.state = st ∧ Throughout (fun e => a.InForceAlike e.clock.wall now) r r'

theorem Steady.split_of (h : Steady st a now r r') (h₁ : Passes r m) (hst : m.state = st)
    (h₂ : Passes m r') : Steady st a now r m ∧ Steady st a now m r' := by
  obtain ⟨hl, hr⟩ := h.2.split h₁.journal h₂.journal
  exact ⟨⟨h.1, hl⟩, ⟨hst, hr⟩⟩

theorem Steady.split (hs : svc.Settled st a) (h : Steady st a now r r')
    (h₁ : Reaches svc r m) (h₂ : Reaches svc m r') :
    Steady st a now r m ∧ Steady st a now m r' :=
  h.split_of h₁.passes (h₁.state_eq hs h.1) h₂.passes

theorem Steady.of_still (hs : svc.Still st a) (h : Reaches svc r r') (hst : r.state = st) :
    Steady st a r.clock.wall r r' := by
  obtain ⟨new, hj, hall⟩ := h.throughout_clock hs hst
  refine ⟨hst, new, hj, ?_⟩
  intro e he
  have hclock : e.clock = r.clock := hall e he
  show a.InForceAlike e.clock.wall r.clock.wall
  rw [hclock]
  exact .refl _

/-- What was recorded last holds throughout. -/
theorem Throughout.last {P : Event → Prop} {e : Event} (h : Throughout P r r')
    (hj : r'.journal = e :: r.journal) : P e := by
  obtain ⟨new, hj', hP⟩ := h
  have hnew : new = [e] := by
    rw [hj] at hj'
    exact List.append_cancel_right (hj'.symm.trans (List.singleton_append ..).symm)
  exact hP e (by simp [hnew])

end Run

/-! ### The cases of a search in a steady stretch -/

namespace Search

variable {st : σ} {a : Answers} {now : Instant} {s : Search σ}

section stages

variable {p : Principal} {r : Run σ} (hs : s.service.Settled st a) (hst : r.state = st)

include hs hst

theorem lookUp_fst :
    (s.lookUp p r).1 = a (.permissions p s.scope.owner s.scope.activity s.scope.target) := by
  subst hst
  exact (hs _).1

theorem Finds.verdict {records : List Permission} {v : Option Bool} (h : s.Finds p r records v)
    (ht : Run.Steady st a now r (s.looked p r)) : a.verdict s.scope now p = .ok v := by
  have hr : a (.permissions p s.scope.owner s.scope.activity s.scope.target) = .ok records :=
    (lookUp_fst hs hst).symm.trans h.1
  have halike : a.InForceAlike (s.looked p r).clock.wall now := ht.2.last rfl
  rw [Answers.verdict_of_ok hr, ← halike.verdict_eq hr, h.2]

theorem looked_state : (s.looked p r).state = st := (s.looked_reaches p r).state_eq hs hst

theorem named_state : (s.named p r).state = st := (s.named_reaches p r).state_eq hs hst

theorem member_fst :
    ((s.looked p r).ask s.service (.groupMember p)).1 = a (.groupMember p) := by
  rw [Run.ask_fst, looked_state hs hst, (hs _).1]

theorem Names.member {m : GroupMember} (h : s.Names p m r) : a (.groupMember p) = .ok m := by
  rw [← member_fst hs hst]
  exact h

theorem groups_fst (m : GroupMember) :
    (((s.named p r).see m).ask s.service (.parentGroups m)).1 = a (.parentGroups m) := by
  rw [Run.ask_fst, Run.see_state, named_state hs hst, (hs _).1]

theorem principal_fst (g : GroupMember) :
    (r.ask s.service (.newPrincipal g)).1 = a (.newPrincipal g) := by
  rw [Run.ask_fst, hst, (hs _).1]

end stages

/-- The cases of a search while things are steady. -/
structure SteadyCases (s : Search σ) (a : Answers) (now : Instant)
    (visited consulted : Nat → Principal → Run σ → Except Error Bool × Run σ → Prop)
    (tried : Nat → List GroupMember → Run σ → Bool × Run σ → Prop) : Prop where
  lookUpFails {n p r e} : a.verdict s.scope now p = .error e →
    visited n p r (.error e, s.looked p r)
  decided {n p r granted} : a.verdict s.scope now p = .ok (some granted) →
    visited n p r (.ok granted, s.looked p r)
  noStepLeft {p r} : a.verdict s.scope now p = .ok none →
    visited 0 p r (.error (.traversalDepthExceeded p s.limit), s.looked p r)
  memberFails {n p r e} : a.verdict s.scope now p = .ok none → a (.groupMember p) = .error e →
    visited (n + 1) p r (.error e, s.named p r)
  metBefore {n p r m} : a.verdict s.scope now p = .ok none → a (.groupMember p) = .ok m →
    m ∈ r.seen → visited (n + 1) p r (.ok false, (s.named p r).count .cycleGuardHit)
  groupsFail {n p r m e} : a.verdict s.scope now p = .ok none → a (.groupMember p) = .ok m →
    m ∉ r.seen → a (.parentGroups m) = .error e →
    visited (n + 1) p r (.error e, s.expanded p m r)
  climbed {n p r m groups out} : a.verdict s.scope now p = .ok none →
    a (.groupMember p) = .ok m → m ∉ r.seen → a (.parentGroups m) = .ok groups →
    Run.Reaches s.service (s.expanded p m r) out.2 → tried n groups (s.expanded p m r) out →
    visited (n + 1) p r (.ok out.1, out.2)
  noGroupLeft {n r} : tried n [] r (false, r)
  noPrincipal {n g gs r e out} : a (.newPrincipal g) = .error e →
    Run.Reaches s.service ((s.addressed r g).count .branchFailure) out.2 →
    tried n gs ((s.addressed r g).count .branchFailure) out → tried n (g :: gs) r out
  granted {n g gs q r r'} : a (.newPrincipal g) = .ok q →
    Run.Reaches s.service (s.addressed r g) r' →
    consulted n q (s.addressed r g) (.ok true, r') → tried n (g :: gs) r (true, r')
  refused {n g gs q r r' outcome out} : a (.newPrincipal g) = .ok q →
    Run.Reaches s.service (s.addressed r g) r' →
    consulted n q (s.addressed r g) (outcome, r') → outcome ≠ .ok true →
    Run.Reaches s.service (passedOver outcome r') out.2 → tried n gs (passedOver outcome r') out →
    tried n (g :: gs) r out
  hit {n p r granted} : r.Knows (s.scope.key p) granted →
    consulted n p r (.ok granted, (r.readCache (s.scope.key p)).2.count .cacheHit)
  computed {n p r granted r'} : (∀ allowed, ¬ r.Knows (s.scope.key p) allowed) →
    Run.Reaches s.service (s.missed p r) r' → visited n p (s.missed p r) (.ok granted, r') →
    consulted n p r (.ok granted, r'.writeCache (s.scope.key p) granted)
  notComputed {n p r e r'} : (∀ allowed, ¬ r.Knows (s.scope.key p) allowed) →
    Run.Reaches s.service (s.missed p r) r' → visited n p (s.missed p r) (.error e, r') →
    consulted n p r (.error e, r')

variable {visited consulted : Nat → Principal → Run σ → Except Error Bool × Run σ → Prop}
  {tried : Nat → List GroupMember → Run σ → Bool × Run σ → Prop}

/-- While things are steady the cases of a search are told by the answers. -/
theorem SteadyCases.cases (h : s.SteadyCases a now visited consulted tried)
    (hs : s.service.Settled st a) :
    s.Cases (fun n p r out => Run.Steady st a now r out.2 → visited n p r out)
      (fun n p r out => Run.Steady st a now r out.2 → consulted n p r out)
      (fun n gs r out => Run.Steady st a now r out.2 → tried n gs r out) where
  lookUpFails {n p r e} hl ht := by
    have hans : a (.permissions p s.scope.owner s.scope.activity s.scope.target) = .error e := by
      rw [← lookUp_fst hs ht.1]
      exact hl
    exact h.lookUpFails (Answers.verdict_of_error hans)
  decided hf ht := h.decided (hf.verdict hs ht.1 ht)
  noStepLeft hf ht := h.noStepLeft (hf.verdict hs ht.1 ht)
  memberFails {n p r records e} hf hm ht := by
    obtain ⟨hlooked, -⟩ := ht.split hs (s.looked_reaches p r) (.single (.ask _ _))
    rw [member_fst hs ht.1] at hm
    exact h.memberFails (hf.verdict hs ht.1 hlooked) hm
  metBefore {n p r records m} hf hm hseen ht := by
    have hrest : Run.Reaches s.service (s.looked p r) ((s.named p r).count .cycleGuardHit) :=
      (Run.Act.ask _ _).reaches.tail (.count _ _)
    obtain ⟨hlooked, -⟩ := ht.split hs (s.looked_reaches p r) hrest
    exact h.metBefore (hf.verdict hs ht.1 hlooked) (hm.member hs ht.1) hseen
  groupsFail {n p r records m e} hf hm hseen hg ht := by
    obtain ⟨hlooked, -⟩ := ht.split hs (s.looked_reaches p r) (s.looked_expanded p m r)
    rw [groups_fst hs ht.1] at hg
    exact h.groupsFail (hf.verdict hs ht.1 hlooked) (hm.member hs ht.1) hseen hg
  climbed {n p r records m groups out} hf hm hseen hg hreach htried ht := by
    have hrest : Run.Reaches s.service (s.looked p r) out.2 :=
      (s.looked_expanded p m r).trans hreach
    obtain ⟨hlooked, -⟩ := ht.split hs (s.looked_reaches p r) hrest
    obtain ⟨-, hclimb⟩ := ht.split hs (s.expanded_reaches p m r) hreach
    rw [groups_fst hs ht.1] at hg
    exact h.climbed (hf.verdict hs ht.1 hlooked) (hm.member hs ht.1) hseen hg hreach (htried hclimb)
  noGroupLeft _ := h.noGroupLeft
  noPrincipal {n g gs r e out} hq hreach htried ht := by
    rw [principal_fst hs ht.1] at hq
    have hfirst := (s.addressed_reaches g r).tail (.count .branchFailure _)
    obtain ⟨-, hrest⟩ := ht.split hs hfirst hreach
    exact h.noPrincipal hq hreach (htried hrest)
  granted {n g gs q r r'} hq hreach hcons ht := by
    rw [principal_fst hs ht.1] at hq
    obtain ⟨-, hsteady⟩ := ht.split hs (s.addressed_reaches g r) hreach
    exact h.granted hq hreach (hcons hsteady)
  refused {n g gs q r r' outcome out} hq hreach hcons hne hreach' htried ht := by
    rw [principal_fst hs ht.1] at hq
    have hpass := s.passedOver_reaches r' outcome
    obtain ⟨-, hsteady⟩ :=
      ht.split hs (s.addressed_reaches g r) ((hreach.trans hpass).trans hreach')
    obtain ⟨hleft, hright⟩ := hsteady.split hs hreach (hpass.trans hreach')
    obtain ⟨-, hrest⟩ := hright.split hs hpass hreach'
    exact h.refused hq hreach (hcons hleft) hne hreach' (htried hrest)
  hit hk _ := h.hit hk
  computed {n p r granted r'} hmiss hreach hv ht := by
    have hwrite : Run.Reaches s.service r' (r'.writeCache (s.scope.key p) granted) :=
      .single (.write _ _ _)
    obtain ⟨-, hsteady⟩ := ht.split hs (s.missed_reaches p r) (hreach.trans hwrite)
    obtain ⟨hleft, -⟩ := hsteady.split hs hreach hwrite
    exact h.computed hmiss hreach (hv hleft)
  notComputed {n p r e r'} hmiss hreach hv ht := by
    obtain ⟨-, hsteady⟩ := ht.split hs (s.missed_reaches p r) hreach
    exact h.notComputed hmiss hreach (hv hsteady)

/-- A search is a consultation once it has begun. -/
theorem SteadyCases.run (h : s.SteadyCases a now visited consulted tried)
    (hs : s.service.Settled st a) {seen : SeenGroups} {p : Principal} {r : Run σ}
    (ht : Run.Steady st a now r (s.run seen p r).2) :
    consulted s.limit p (r.beginSearch (s.scope.key p) seen) (s.run seen p r) := by
  obtain ⟨-, hbegun⟩ :=
    ht.split hs (Run.Act.beginSearch _ seen r).reaches (s.cached_reaches s.limit p _)
  exact (h.cases hs).cached s.limit p _ hbegun

/-- A search that evaluates its principal anew is a visit once it has begun. -/
theorem SteadyCases.runAnew (h : s.SteadyCases a now visited consulted tried)
    (hs : s.service.Settled st a) {seen : SeenGroups} {p : Principal} {r : Run σ}
    (ht : Run.Steady st a now r (s.runAnew seen p r).2) :
    visited s.limit p (r.beginSearch (s.scope.key p) seen) (s.runAnew seen p r) := by
  obtain ⟨-, hbegun⟩ :=
    ht.split hs (Run.Act.beginSearch _ seen r).reaches (s.resolve_reaches s.limit p _)
  exact (h.cases hs).resolve s.limit p _ hbegun

end Search

end GrantPath
