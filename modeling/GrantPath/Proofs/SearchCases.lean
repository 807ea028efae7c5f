import GrantPath.Proofs.Runs

/-! # The cases of a search

A search is a recursion through three functions: a visit of a principal, the consultation of
the cache about a principal, and the trial of one group after the other. `Search.Cases` lists
what can happen in each of them, one field for each way it can go, and `Search.Cases.resolve`
is the induction: three properties that hold in every case hold of every visit, every
consultation and every trial. Each case says which acts lead from one run to the other, and a
case with a search inside says of it that it was reached by acts.

A first use is that every search is a sequence of acts (`Search.run_reaches`). -/

namespace GrantPath

variable {σ : Type}

namespace Search

variable (s : Search σ) (p : Principal) (m : GroupMember) (r : Run σ)

/-! ### The stages of a visit -/

/-- The run in which the records about a principal have been looked up. -/
def looked : Run σ := (s.lookUp p r).2

/-- The run in which, after that, the principal's member has been asked for. -/
def named : Run σ := ((s.looked p r).ask s.service (.groupMember p)).2

/-- The run in which, after that, the member's groups have been asked for. -/
def expanded : Run σ := (((s.named p r).see m).ask s.service (.parentGroups m)).2

/-- The run in which the cache was read in vain. -/
def missed : Run σ := (r.readCache (s.scope.key p)).2.count .cacheMiss

/-- The run in which a group's principal has been asked for. -/
def addressed (g : GroupMember) : Run σ := (r.ask s.service (.newPrincipal g)).2

/-- The run in which a group that did not answer yes is passed over; a failure is counted. -/
def passedOver (outcome : Except Error Bool) (r : Run σ) : Run σ :=
  match outcome with
  | .ok _ => r
  | .error _ => r.count .branchFailure

/-- The records about a principal are looked up and lead to a verdict. -/
def Finds (records : List Permission) (verdict : Option Bool) : Prop :=
  (s.lookUp p r).1 = .ok records ∧
    Permission.verdict records (s.looked p r).clock.wall = verdict

/-- The member of a principal without a verdict is asked for and found. -/
def Names : Prop := ((s.looked p r).ask s.service (.groupMember p)).1 = .ok m

@[simp] theorem expanded_seen : (s.expanded p m r).seen = r.seen.insert m := rfl
@[simp] theorem passedOver_seen (outcome : Except Error Bool) :
    (passedOver outcome r).seen = r.seen := by cases outcome <;> rfl
@[simp] theorem passedOver_journal (outcome : Except Error Bool) :
    (passedOver outcome r).journal = r.journal := by cases outcome <;> rfl
@[simp] theorem missed_seen : (s.missed p r).seen = r.seen := r.readCache_seen _

section journal

variable {p m r}

theorem looked_journal {answer : Except Error (List Permission)} (h : (s.lookUp p r).1 = answer) :
    (s.looked p r).journal =
      .call (.permissions p s.scope.owner s.scope.activity s.scope.target) answer
        (s.looked p r).clock :: r.journal := by
  subst h
  rfl

theorem named_journal {answer : Except Error GroupMember}
    (h : ((s.looked p r).ask s.service (.groupMember p)).1 = answer) : (s.named p r).journal =
      .call (.groupMember p) answer (s.named p r).clock :: (s.looked p r).journal := by
  subst h
  rfl

theorem expanded_journal {answer : Except Error (List GroupMember)}
    (h : (((s.named p r).see m).ask s.service (.parentGroups m)).1 = answer) :
    (s.expanded p m r).journal =
      .call (.parentGroups m) answer (s.expanded p m r).clock :: (s.named p r).journal := by
  subst h
  rfl

theorem missed_journal (h : ∀ allowed, ¬ r.Knows (s.scope.key p) allowed) :
    (s.missed p r).journal = .read (s.scope.key p) none r.clock :: r.journal := by
  rw [missed, Run.count_journal, Run.readCache_journal, Run.readCache_of_not_knows h]

theorem hit_journal {granted : Bool} (h : r.Knows (s.scope.key p) granted) :
    ((r.readCache (s.scope.key p)).2.count .cacheHit).journal =
      .read (s.scope.key p) (some granted) r.clock :: r.journal := by
  rw [Run.count_journal, Run.readCache_journal, Run.readCache_of_knows h]

end journal

theorem looked_reaches : Run.Reaches s.service r (s.looked p r) :=
  (Run.Act.count _ r).reaches.tail (.ask _ _)

theorem named_reaches : Run.Reaches s.service r (s.named p r) :=
  (s.looked_reaches p r).tail (.ask _ _)

theorem expanded_reaches : Run.Reaches s.service r (s.expanded p m r) :=
  ((s.named_reaches p r).tail (.see m _)).tail (.ask _ _)

theorem looked_expanded : Run.Reaches s.service (s.looked p r) (s.expanded p m r) :=
  ((Run.Act.ask _ _).reaches.tail (.see m _)).tail (.ask _ _)

theorem missed_reaches : Run.Reaches s.service r (s.missed p r) :=
  (Run.Act.read _ r).reaches.tail (.count _ _)

theorem addressed_reaches : Run.Reaches s.service r (s.addressed r m) :=
  (Run.Act.ask _ r).reaches

theorem passedOver_reaches (outcome : Except Error Bool) :
    Run.Reaches s.service r (passedOver outcome r) := by
  cases outcome with
  | error e => exact (Run.Act.count _ r).reaches
  | ok granted => exact .refl

section upholds

variable {s p m r} {P : DecisionKey → Bool → Prop} (h : r.Upholds P)

include h

theorem upholds_looked : (s.looked p r).Upholds P :=
  h.of_within (.refl _) (s.looked_reaches p r).elapsed_le

theorem upholds_named : (s.named p r).Upholds P :=
  h.of_within (.refl _) (s.named_reaches p r).elapsed_le

theorem upholds_expanded : (s.expanded p m r).Upholds P :=
  h.of_within (.refl _) (s.expanded_reaches p m r).elapsed_le

theorem upholds_missed : (s.missed p r).Upholds P :=
  (h.readCache _).count _

theorem upholds_addressed : (s.addressed r m).Upholds P :=
  h.of_within (.refl _) (s.addressed_reaches m r).elapsed_le

theorem upholds_passedOver (outcome : Except Error Bool) : (passedOver outcome r).Upholds P := by
  cases outcome with
  | error e => exact h.count _
  | ok granted => exact h

end upholds

/-! ### The induction -/

/-- What can happen in a search whose visits, consultations and trials have the three
properties, which take the steps left, what is visited, the run before, and the outcome. -/
structure Cases
    (visited consulted : Nat → Principal → Run σ → Except Error Bool × Run σ → Prop)
    (tried : Nat → List GroupMember → Run σ → Bool × Run σ → Prop) : Prop where
  lookUpFails {n p r e} : (s.lookUp p r).1 = .error e → visited n p r (.error e, s.looked p r)
  decided {n p r records granted} : s.Finds p r records (some granted) →
    visited n p r (.ok granted, s.looked p r)
  noStepLeft {p r records} : s.Finds p r records none →
    visited 0 p r (.error (.traversalDepthExceeded p s.limit), s.looked p r)
  memberFails {n p r records e} : s.Finds p r records none →
    ((s.looked p r).ask s.service (.groupMember p)).1 = .error e →
    visited (n + 1) p r (.error e, s.named p r)
  metBefore {n p r records m} : s.Finds p r records none → s.Names p m r → m ∈ r.seen →
    visited (n + 1) p r (.ok false, (s.named p r).count .cycleGuardHit)
  groupsFail {n p r records m e} : s.Finds p r records none → s.Names p m r → m ∉ r.seen →
    (((s.named p r).see m).ask s.service (.parentGroups m)).1 = .error e →
    visited (n + 1) p r (.error e, s.expanded p m r)
  climbed {n p r records m groups out} : s.Finds p r records none → s.Names p m r →
    m ∉ r.seen → (((s.named p r).see m).ask s.service (.parentGroups m)).1 = .ok groups →
    Run.Reaches s.service (s.expanded p m r) out.2 → tried n groups (s.expanded p m r) out →
    visited (n + 1) p r (.ok out.1, out.2)
  noGroupLeft {n r} : tried n [] r (false, r)
  noPrincipal {n g gs r e out} : (r.ask s.service (.newPrincipal g)).1 = .error e →
    Run.Reaches s.service ((s.addressed r g).count .branchFailure) out.2 →
    tried n gs ((s.addressed r g).count .branchFailure) out → tried n (g :: gs) r out
  granted {n g gs q r r'} : (r.ask s.service (.newPrincipal g)).1 = .ok q →
    Run.Reaches s.service (s.addressed r g) r' →
    consulted n q (s.addressed r g) (.ok true, r') → tried n (g :: gs) r (true, r')
  refused {n g gs q r r' outcome out} : (r.ask s.service (.newPrincipal g)).1 = .ok q →
    Run.Reaches s.service (s.addressed r g) r' →
    consulted n q (s.addressed r g) (outcome, r') → outcome ≠ .ok true →
    Run.Reaches s.service (passedOver outcome r') out.2 → tried n gs (passedOver outcome r') out →
    tried n (g :: gs) r out
  hit {n p r granted} : r.Knows (s.scope.key p) granted →
    consulted n p r (.ok granted, (r.readCache (s.scope.key p)).2.count .cacheHit)
  computed {n p r granted r'} : (∀ allowed, ¬ r.Knows (s.scope.key p) allowed) →
    Run.Reaches s.service (s.missed p r) r' → visited n p (s.missed p r) (.ok granted, r') →
    consulted n p r (.ok granted, r'.writeCache (s.scope.key p) granted)
  notComputed {n p r e r'} : (∀ allowed, ¬ r.Knows (s.scope.key p) allowed) →
    Run.Reaches s.service (s.missed p r) r' → visited n p (s.missed p r) (.error e, r') →
    consulted n p r (.error e, r')

namespace Cases

variable {s : Search σ}
  {visited consulted : Nat → Principal → Run σ → Except Error Bool × Run σ → Prop}
  {tried : Nat → List GroupMember → Run σ → Bool × Run σ → Prop}
  (h : s.Cases visited consulted tried)

include h

/-- A consultation, given what a visit does. -/
theorem consult {n : Nat} {evaluate : Evaluation σ}
    (hv : ∀ p r, visited n p r (evaluate p r) ∧ Run.Reaches s.service r (evaluate p r).2)
    (p : Principal) (r : Run σ) :
    consulted n p r (s.cached evaluate p r) ∧
      Run.Reaches s.service r (s.cached evaluate p r).2 := by
  unfold cached Run.getOrCompute
  rcases hread : r.readCache (s.scope.key p) with ⟨_ | granted, r₁⟩
  · have hmiss : ∀ allowed, ¬ r.Knows (s.scope.key p) allowed := by
      intro allowed hk
      have := Run.readCache_eq_some_iff.mpr hk
      rw [hread] at this
      cases this
    obtain rfl : (r.readCache (s.scope.key p)).2 = r₁ := congrArg Prod.snd hread
    obtain ⟨hvis, hreach⟩ := hv p (s.missed p r)
    have hr := (s.missed_reaches p r).trans hreach
    rcases hev : evaluate p (s.missed p r) with ⟨e | granted, r₂⟩
    · rw [hev] at hvis hreach hr
      have hev' : evaluate p ((r.readCache (s.scope.key p)).2.count .cacheMiss) =
        (.error e, r₂) := hev
      simp only [hev']
      exact ⟨h.notComputed hmiss hreach hvis, hr⟩
    · rw [hev] at hvis hreach hr
      have hev' : evaluate p ((r.readCache (s.scope.key p)).2.count .cacheMiss) =
        (.ok granted, r₂) := hev
      simp only [hev']
      exact ⟨h.computed hmiss hreach hvis, hr.tail (.write _ _ _)⟩
  · have hknows : r.Knows (s.scope.key p) granted :=
      Run.readCache_eq_some_iff.mp (congrArg Prod.fst hread)
    obtain rfl : (r.readCache (s.scope.key p)).2 = r₁ := congrArg Prod.snd hread
    exact ⟨h.hit hknows, (Run.Act.read _ r).reaches.tail (.count _ _)⟩

/-- A trial of groups, given what a consultation does. -/
theorem tryAll {n : Nat} {evaluate : Evaluation σ}
    (hc : ∀ p r, consulted n p r (evaluate p r) ∧ Run.Reaches s.service r (evaluate p r).2) :
    ∀ (groups : List GroupMember) (r : Run σ),
      tried n groups r (s.anyGroup evaluate groups r) ∧
        Run.Reaches s.service r (s.anyGroup evaluate groups r).2
  | [], r => ⟨h.noGroupLeft, .refl⟩
  | g :: gs, r => by
      unfold anyGroup evaluateGroup
      rcases hask : r.ask s.service (.newPrincipal g) with ⟨e | q, r₁⟩
      · obtain rfl : s.addressed r g = r₁ := congrArg Prod.snd hask
        obtain ⟨ht, hr⟩ := tryAll hc gs ((s.addressed r g).count .branchFailure)
        exact ⟨h.noPrincipal (congrArg Prod.fst hask) hr ht,
          ((s.addressed_reaches g r).tail (.count _ _)).trans hr⟩
      · obtain rfl : s.addressed r g = r₁ := congrArg Prod.snd hask
        have hq : (r.ask s.service (.newPrincipal g)).1 = .ok q := congrArg Prod.fst hask
        obtain ⟨hcons, hreach⟩ := hc q (s.addressed r g)
        have hr := (s.addressed_reaches g r).trans hreach
        rcases hev : evaluate q (s.addressed r g) with ⟨e | ⟨_ | _⟩, r₂⟩
        · rw [hev] at hcons hreach hr
          simp only [hev]
          obtain ⟨ht, hr'⟩ := tryAll hc gs (passedOver (.error e) r₂)
          refine ⟨h.refused hq hreach hcons (by simp) hr' ht, ?_⟩
          exact (hr.trans (s.passedOver_reaches r₂ (.error e))).trans hr'
        · rw [hev] at hcons hreach hr
          simp only [hev]
          obtain ⟨ht, hr'⟩ := tryAll hc gs (passedOver (.ok false) r₂)
          exact ⟨h.refused hq hreach hcons (by simp) hr' ht, hr.trans hr'⟩
        · rw [hev] at hcons hreach hr
          simp only [hev]
          exact ⟨h.granted hq hreach hcons, hr⟩

/-- A visit with a step left, given what a consultation does. -/
theorem visit {n : Nat} {evaluate : Evaluation σ}
    (hc : ∀ p r, consulted n p r (evaluate p r) ∧ Run.Reaches s.service r (evaluate p r).2)
    (p : Principal) (r : Run σ) :
    visited (n + 1) p r (s.visit (some evaluate) p r) ∧
      Run.Reaches s.service r (s.visit (some evaluate) p r).2 := by
  unfold Search.visit
  rcases hl : s.lookUp p r with ⟨e | records, r₁⟩
  · obtain rfl : s.looked p r = r₁ := congrArg Prod.snd hl
    exact ⟨h.lookUpFails (congrArg Prod.fst hl), s.looked_reaches p r⟩
  obtain rfl : s.looked p r = r₁ := congrArg Prod.snd hl
  have hrec : (s.lookUp p r).1 = .ok records := congrArg Prod.fst hl
  cases hv : Permission.verdict records (s.looked p r).clock.wall with
  | some granted =>
      simp only [hv]
      exact ⟨h.decided ⟨hrec, hv⟩, s.looked_reaches p r⟩
  | none =>
      simp only [hv]
      unfold climb Run.enter
      rcases hm : (s.looked p r).ask s.service (.groupMember p) with ⟨e | m, r₂⟩
      · obtain rfl : s.named p r = r₂ := congrArg Prod.snd hm
        exact ⟨h.memberFails ⟨hrec, hv⟩ (congrArg Prod.fst hm), s.named_reaches p r⟩
      obtain rfl : s.named p r = r₂ := congrArg Prod.snd hm
      have hnames : s.Names p m r := congrArg Prod.fst hm
      by_cases hseen : m ∈ (s.named p r).seen
      · simp only [if_pos hseen]
        exact ⟨h.metBefore ⟨hrec, hv⟩ hnames hseen, (s.named_reaches p r).tail (.count _ _)⟩
      · simp only [if_neg hseen]
        rcases hg : ((s.named p r).see m).ask s.service (.parentGroups m) with ⟨e | groups, r₃⟩
        · obtain rfl : s.expanded p m r = r₃ := congrArg Prod.snd hg
          exact ⟨h.groupsFail ⟨hrec, hv⟩ hnames hseen (congrArg Prod.fst hg),
            s.expanded_reaches p m r⟩
        · obtain rfl : s.expanded p m r = r₃ := congrArg Prod.snd hg
          obtain ⟨ht, hreach⟩ := h.tryAll hc groups (s.expanded p m r)
          exact ⟨h.climbed ⟨hrec, hv⟩ hnames hseen (congrArg Prod.fst hg) hreach ht,
            (s.expanded_reaches p m r).trans hreach⟩

/-- A visit without a step left. -/
theorem visitLast (p : Principal) (r : Run σ) :
    visited 0 p r (s.visit none p r) ∧ Run.Reaches s.service r (s.visit none p r).2 := by
  unfold Search.visit
  rcases hl : s.lookUp p r with ⟨e | records, r₁⟩
  · obtain rfl : s.looked p r = r₁ := congrArg Prod.snd hl
    exact ⟨h.lookUpFails (congrArg Prod.fst hl), s.looked_reaches p r⟩
  obtain rfl : s.looked p r = r₁ := congrArg Prod.snd hl
  have hrec : (s.lookUp p r).1 = .ok records := congrArg Prod.fst hl
  cases hv : Permission.verdict records (s.looked p r).clock.wall with
  | some granted =>
      simp only [hv]
      exact ⟨h.decided ⟨hrec, hv⟩, s.looked_reaches p r⟩
  | none =>
      simp only [hv]
      exact ⟨h.noStepLeft ⟨hrec, hv⟩, s.looked_reaches p r⟩

theorem visits : ∀ (n : Nat) (p : Principal) (r : Run σ),
    visited n p r (s.resolve n p r) ∧ Run.Reaches s.service r (s.resolve n p r).2
  | 0 => h.visitLast
  | n + 1 => h.visit (h.consult (visits n))

theorem consults (n : Nat) (p : Principal) (r : Run σ) :
    consulted n p r (s.cached (s.resolve n) p r) ∧
      Run.Reaches s.service r (s.cached (s.resolve n) p r).2 :=
  h.consult (h.visits n) p r

/-- Every visit with so many steps left has the property of visits. -/
theorem resolve (n : Nat) (p : Principal) (r : Run σ) : visited n p r (s.resolve n p r) :=
  (h.visits n p r).1

/-- Every consultation has the property of consultations. -/
theorem cached (n : Nat) (p : Principal) (r : Run σ) :
    consulted n p r (s.cached (s.resolve n) p r) :=
  (h.consults n p r).1

end Cases

/-! ### Searches are acts -/

/-- Nothing has to be shown for properties that always hold. -/
theorem Cases.trivial (s : Search σ) :
    s.Cases (fun _ _ _ _ => True) (fun _ _ _ _ => True) (fun _ _ _ _ => True) := by
  constructor <;> intros <;> exact True.intro

variable (s : Search σ)

theorem resolve_reaches (n : Nat) (p : Principal) (r : Run σ) :
    Run.Reaches s.service r (s.resolve n p r).2 :=
  ((Cases.trivial s).visits n p r).2

theorem cached_reaches (n : Nat) (p : Principal) (r : Run σ) :
    Run.Reaches s.service r (s.cached (s.resolve n) p r).2 :=
  ((Cases.trivial s).consults n p r).2

theorem run_reaches (seen : SeenGroups) (p : Principal) (r : Run σ) :
    Run.Reaches s.service r (s.run seen p r).2 :=
  (Run.Act.beginSearch _ seen r).reaches.trans (s.cached_reaches s.limit p _)

theorem runAnew_reaches (seen : SeenGroups) (p : Principal) (r : Run σ) :
    Run.Reaches s.service r (s.runAnew seen p r).2 :=
  (Run.Act.beginSearch _ seen r).reaches.trans (s.resolve_reaches s.limit p _)

end Search

end GrantPath
