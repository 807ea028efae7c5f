import GrantPath.Proofs.DirectoryQueries
import GrantPath.Proofs.Lockstep

/-! # Queries by name

A query made by name is answered as the query for what the names stand for
(`Policy.checkByName_by_reference`). In a directory the names stand for the owner and the activity
that are defined under them, and a target's name for the target that the activity's provider has
under it, or for a plain target of that name (`Directory.targetNamed`).

* Looking names up leaves nothing in the run that a query looks at (`Directory.resolveNames_eq`), so
  the two queries are in lockstep from there.
* A provider that is not registered at all is an error, which is not the same as a target that is
  not known: the query is then denied, although the query for the plain target may be granted
  (`Policy.checkByName_misses_grant`).
* From an empty cache whoever is granted by its own records is answered yes, however few steps the
  search has (`Policy.hasPermission_of_granted`): no search leaves a decision that contradicts the
  records of the principal that it is about (`Answers.HeedsGrants`). -/

namespace GrantPath

variable {σ : Type}

/-! ### Grants of the principal itself -/

namespace Answers

/-- The decision is a yes if it is about a principal that is granted by itself. -/
def HeedsGrants (a : Answers) (now : Instant) (key : DecisionKey) (allowed : Bool) : Prop :=
  ∀ s p, key = Scope.key s p → a.Granted s now p → allowed = true

variable {a : Answers} {now : Instant} {s s' : Scope} {p : Principal} {allowed : Bool}

/-- Scopes with the same key have the same grants. -/
theorem Keyed.granted_iff (hk : a.Keyed) (h : s.Alike s') :
    a.Granted s now p ↔ a.Granted s' now p := by
  rw [Answers.granted_iff, Answers.granted_iff, hk.verdict_eq h]

theorem heedsGrants_key (hk : a.Keyed) (h : a.Granted s now p → allowed = true) :
    a.HeedsGrants now (s.key p) allowed := by
  intro s' q hkey hg
  obtain ⟨rfl, halike⟩ := Scope.key_eq_key_iff.mp hkey
  exact h ((hk.granted_iff halike).mpr hg)

end Answers

namespace Search

variable {a : Answers} {now : Instant} {s : Search σ} {st : σ} {p : Principal} {r : Run σ}

/-- A search heeds the grants of the principals that it visits and leaves only decisions that do. -/
theorem SteadyCases.heedsGrants (hk : a.Keyed) :
    s.SteadyCases a now
      (fun _ p r out => r.Upholds (a.HeedsGrants now) →
        (a.Granted s.scope now p → out.1 = .ok true) ∧ out.2.Upholds (a.HeedsGrants now))
      (fun _ p r out => r.Upholds (a.HeedsGrants now) →
        (a.Granted s.scope now p → out.1 = .ok true) ∧ out.2.Upholds (a.HeedsGrants now))
      (fun _ _ r out => r.Upholds (a.HeedsGrants now) → out.2.Upholds (a.HeedsGrants now)) where
  lookUpFails hv hr := by
    refine ⟨?_, upholds_looked hr⟩
    intro hg
    rw [Answers.granted_iff, hv] at hg
    cases hg
  decided hv hr := by
    refine ⟨?_, upholds_looked hr⟩
    intro hg
    rw [Answers.granted_iff, hv] at hg
    rw [Option.some.inj (Except.ok.inj hg)]
  noStepLeft hv hr :=
    ⟨fun hg => absurd hg (Answers.not_granted_of_none hv), upholds_looked hr⟩
  memberFails hv _ hr :=
    ⟨fun hg => absurd hg (Answers.not_granted_of_none hv), upholds_named hr⟩
  metBefore hv _ _ hr :=
    ⟨fun hg => absurd hg (Answers.not_granted_of_none hv), (upholds_named hr).count _⟩
  groupsFail hv _ _ _ hr :=
    ⟨fun hg => absurd hg (Answers.not_granted_of_none hv), upholds_expanded hr⟩
  climbed hv _ _ _ _ htried hr :=
    ⟨fun hg => absurd hg (Answers.not_granted_of_none hv), htried (upholds_expanded hr)⟩
  noGroupLeft hr := hr
  noPrincipal _ _ htried hr := htried ((upholds_addressed hr).count _)
  granted _ _ hcons hr := (hcons (upholds_addressed hr)).2
  refused _ _ hcons _ _ htried hr :=
    htried (upholds_passedOver (hcons (upholds_addressed hr)).2 _)
  hit hknows hr := by
    refine ⟨?_, (hr.readCache _).count _⟩
    intro hg
    rw [hr _ _ hknows s.scope _ rfl hg]
  computed {n p r granted r'} _ _ hv hr := by
    obtain ⟨hyes, hr'⟩ := hv (upholds_missed hr)
    refine ⟨hyes, hr'.writeCache (Answers.heedsGrants_key hk ?_)⟩
    intro hg
    exact Except.ok.inj (hyes hg)
  notComputed _ _ hv hr := hv (upholds_missed hr)

end Search

namespace Policy

variable {policy : Policy} {svc : Service σ} {st : σ} {a : Answers} {now : Instant}
  {r r' : Run σ} {q : Query}

section grants

variable (hs : svc.Settled st a) (hk : a.Keyed)

include hs hk

theorem Move.heedsGrants (h : policy.Move svc r r') (ht : Run.Steady st a now r r')
    (hr : r.Upholds (a.HeedsGrants now)) : r'.Upholds (a.HeedsGrants now) := by
  have helapsed := h.passes.elapsed
  cases h with
  | ask q r => exact hr.of_within (.refl _) helapsed
  | count o r => exact hr
  | setAside capacity r => exact hr
  | search q r =>
      exact ((Search.SteadyCases.heedsGrants (s := policy.search svc q) hk).run hs ht hr).2
  | refresh q r =>
      have hreach := (policy.search svc q).runAnew_reaches .empty q.principal r
      have hheeds : Run.Steady st a now r ((policy.search svc q).runAnew .empty q.principal r).2 →
          _ := fun ht =>
        (Search.SteadyCases.heedsGrants (s := policy.search svc q) hk).runAnew hs ht hr
      rcases r.forceRefresh_cases q.key ((policy.search svc q).runAnew .empty q.principal) with
        ⟨e, r₁, hout, hafter⟩ | ⟨granted, r₁, hout, hafter⟩
      · rw [hout] at hheeds
        rw [hafter] at ht ⊢
        exact (hheeds ht).2
      · rw [hout] at hreach hheeds
        rw [hafter] at ht ⊢
        obtain ⟨hbefore, -⟩ := ht.split hs hreach (r₁.prewarm_reaches q.key granted)
        obtain ⟨hyes, hr₁⟩ := hheeds hbefore
        have hkey : a.HeedsGrants now q.key granted :=
          Answers.heedsGrants_key hk fun hg => Except.ok.inj (hyes hg)
        exact (hr₁.writeCache hkey).count _

theorem Moves.heedsGrants (h : policy.Moves svc r r') (ht : Run.Steady st a now r r')
    (hr : r.Upholds (a.HeedsGrants now)) : r'.Upholds (a.HeedsGrants now) := by
  induction h with
  | refl => exact hr
  | tail hm h ih =>
      obtain ⟨hl, hlast⟩ := Moves.split hs hm (.single h) ht
      exact h.heedsGrants hs hk hlast (ih hl)

/-- Whatever the generalizations come to, a principal that is granted by itself is answered yes. -/
theorem Cases.heedsGrants :
    policy.Cases svc (fun depth q r out => 0 < depth → Run.Steady st a now r out.2 →
      r.Upholds (a.HeedsGrants now) → a.Granted q.scope now q.principal → out.1 = .ok true) where
  tooDeep h := absurd h (Nat.lt_irrefl 0)
  superUser _ _ _ _ _ := rfl
  collective _ _ _ _ _ _ _ _ := rfl
  searched {depth q r r₁ r₂} _ hm₁ _ hm₂ _ ht hr hg := by
    have haside : policy.Moves svc r (r₂.setAside policy.seenCapacity) :=
      (hm₁.trans hm₂).tail (.setAside _ r₂)
    obtain ⟨hbefore, hsearch⟩ := Moves.split hs haside (.single (.search q _)) ht
    have hr₂ := Moves.heedsGrants hs hk haside hbefore hr
    have hheeds : a.Granted q.scope now q.principal → _ :=
      ((Search.SteadyCases.heedsGrants hk).run hs hsearch hr₂).1
    exact hheeds hg

end grants

/-- From an empty cache a principal that is granted by itself is answered yes. -/
theorem hasPermission_of_granted (hs : svc.Still st a) (hk : a.Keyed) (hst : r.state = st)
    (hempty : r.cache.size = 0) (hg : a.Granted q.scope r.clock.wall q.principal) :
    (policy.hasPermission svc q r).1 = true := by
  rw [hasPermission_fst_eq_true_iff]
  apply (Cases.heedsGrants hs.1 hk).evaluate generalizationDepth q r
  · decide
  · exact Moves.steady_of_still hs (evaluate_moves generalizationDepth q r) hst
  · exact Run.upholds_of_empty hempty
  · exact hg

end Policy

/-! ### What names stand for -/

namespace Directory

/-- The target that a provider has under a key, or a plain target of that name. -/
def targetNamed (d : Directory) (provider key : String) : Target :=
  ((d.targets.get? provider).bind (·.get? key)).getD ⟨key, key, .other⟩

/-- The provider has a target registered. -/
def IsRegistered (d : Directory) (provider : String) : Prop :=
  d.targets.contains provider = true

instance (d : Directory) (provider : String) : Decidable (d.IsRegistered provider) :=
  inferInstanceAs (Decidable (_ = true))

/-- What the names of an owner, an activity and a target stand for. -/
def named (d : Directory) (owner activity key : String) :
    Except Error (Owner × Activity × Option Target) :=
  match d.owners.get? owner, d.activities.get? (owner, activity) with
  | none, _ => .error (.unknownOwner owner)
  | some _, none => .error (.unknownActivity owner activity)
  | some o, some act =>
    if d.IsRegistered act.targetProvider then
      .ok (o, act, some (d.targetNamed act.targetProvider key))
    else .error (.unknownTargetProvider act.targetProvider)

variable {d : Directory}

theorem named_eq (d : Directory) {owner activity : String} {o : Owner} {act : Activity}
    (ho : d.owners.get? owner = some o) (hact : d.activities.get? (owner, activity) = some act)
    (key : String) : d.named owner activity key =
      if d.IsRegistered act.targetProvider then
        .ok (o, act, some (d.targetNamed act.targetProvider key))
      else .error (.unknownTargetProvider act.targetProvider) := by
  unfold named
  rw [ho, hact]

theorem named_eq_error (d : Directory) {owner activity : String}
    (h : d.resolveOwner owner = .ok none ∨ d.resolveActivity owner activity = .ok none)
    (key : String) : ∃ e, d.named owner activity key = .error e := by
  unfold named
  cases ho : d.owners.get? owner with
  | none => exact ⟨_, rfl⟩
  | some o =>
      have hact : d.activities.get? (owner, activity) = none := by
        cases h with
        | inl h => exact absurd (Except.ok.inj h) (by simp [ho])
        | inr h => exact Except.ok.inj h
      rw [hact]
      exact ⟨_, rfl⟩

/-- What a target's name stands for has it as its key. -/
theorem Named.targetNamed_key (h : d.Named) (provider key : String) :
    (d.targetNamed provider key).key = key := by
  unfold targetNamed
  cases hknown : d.targets.get? provider with
  | none => rfl
  | some known =>
      rw [Option.bind_some]
      cases htarget : known.get? key with
      | none => rfl
      | some target => exact h.target provider known key target hknown htarget

/-- A directory answers out of what it holds, and nothing that a query looks at changes. -/
theorem ask_eq (q : Request) (r : Run Directory) :
    ∃ r', r.ask service q = (r.state.answers q, r') ∧ r'.SameSight r :=
  ⟨(r.ask service q).2, rfl, rfl, rfl, rfl, rfl⟩

theorem resolveTarget_eq (d : Directory) (provider key : String) : d.resolveTarget provider key =
    if d.IsRegistered provider then .ok ((d.targets.get? provider).bind (·.get? key))
    else .error (.unknownTargetProvider provider) := by
  unfold resolveTarget
  by_cases hknown : d.IsRegistered provider
  · obtain ⟨known, hget⟩ := (d.targets.contains_iff provider).mp hknown
    rw [if_pos hknown, hget]
    rfl
  · have hget : d.targets.get? provider = none := by
      apply Option.eq_none_iff_forall_ne_some.mpr
      intro known hget
      exact hknown ((d.targets.contains_iff provider).mpr ⟨known, hget⟩)
    rw [if_neg hknown, hget]

theorem resolveTargetName_eq (provider key : String) (r : Run Directory) :
    ∃ r', r'.SameSight r ∧ Policy.resolveTargetName service provider (some key) r =
      (if r.state.IsRegistered provider then .ok (some (r.state.targetNamed provider key))
        else .error (.unknownTargetProvider provider), r') := by
  obtain ⟨r', hask, hsame⟩ := ask_eq (.resolveTarget provider key) r
  refine ⟨r', hsame, ?_⟩
  have hanswer : r.state.answers (.resolveTarget provider key) = _ :=
    r.state.resolveTarget_eq provider key
  simp only [Policy.resolveTargetName, hask, hanswer]
  by_cases hknown : r.state.IsRegistered provider
  · simp only [if_pos hknown, targetNamed]
  · simp only [if_neg hknown]

theorem resolveNames_eq (owner activity key : String) (r : Run Directory) :
    ∃ r', r'.SameSight r ∧ Policy.resolveNames service owner activity (some key) r =
      (r.state.named owner activity key, r') := by
  obtain ⟨r₁, hask₁, hsame₁⟩ := ask_eq (.resolveOwner owner) r
  simp only [Policy.resolveNames, hask₁, answers, resolveOwner, named]
  cases r.state.owners.get? owner with
  | none => exact ⟨r₁, hsame₁, rfl⟩
  | some o =>
      obtain ⟨r₂, hask₂, hsame₂⟩ := ask_eq (.resolveActivity owner activity) r₁
      simp only [hask₂, answers, resolveActivity, hsame₁.state]
      cases r.state.activities.get? (owner, activity) with
      | none => exact ⟨r₂, hsame₂.trans hsame₁, rfl⟩
      | some act =>
          have hsame := hsame₂.trans hsame₁
          obtain ⟨r₃, hsame₃, hname⟩ := resolveTargetName_eq act.targetProvider key r₂
          refine ⟨r₃, hsame₃.trans hsame, ?_⟩
          simp only [hname, hsame.state]
          by_cases hknown : r.state.IsRegistered act.targetProvider
          · simp only [if_pos hknown]
          · simp only [if_neg hknown]

end Directory

namespace Policy

variable {policy : Policy} {r : Run Directory} {p : Principal} {owner activity key : String}

variable (policy) in
theorem checkByName_of_named (q : Query)
    (h : r.state.named owner activity key = .ok (q.owner, q.activity, q.target)) :
    (policy.checkByName Directory.service q.principal owner activity (some key) r).1 =
      (policy.hasPermission Directory.service q r).1 := by
  obtain ⟨r', hsame, hnames⟩ := Directory.resolveNames_eq owner activity key r
  simp only [checkByName, hnames, h]
  exact policy.hasPermission_fst_of_sameSight Directory.service hsame q

theorem checkByName_of_not_named {e : Error} (h : r.state.named owner activity key = .error e) :
    (policy.checkByName Directory.service p owner activity (some key) r).1 = false := by
  obtain ⟨r', -, hnames⟩ := Directory.resolveNames_eq owner activity key r
  simp only [checkByName, hnames, h]

/-- In a directory a query by name is answered as the query for the owner, the activity and the
target that the names stand for, and granted from an empty cache to whoever is granted it by its own
records, provided that the activity's target provider is registered. Where the provider is not
registered, or the owner or the activity is not defined, it is denied. -/
theorem checkByName_by_reference {changes : List DirectoryChange}
    (hd : r.state = ({} : Directory).changes changes) (policy : Policy) (p : Principal)
    (owner activity key : String) :
    (∀ o act, r.state.resolveOwner owner = .ok (some o) →
      r.state.resolveActivity owner activity = .ok (some act) →
      (r.state.IsRegistered act.targetProvider →
        (policy.checkByName Directory.service p owner activity (some key) r).1 =
          (policy.hasPermission Directory.service
            ⟨p, o, act, some (r.state.targetNamed act.targetProvider key)⟩ r).1 ∧
        (r.cache.size = 0 →
          r.state.answers.Granted ⟨owner, activity, some key⟩ r.clock.wall p →
          (policy.checkByName Directory.service p owner activity (some key) r).1 = true)) ∧
      (¬ r.state.IsRegistered act.targetProvider →
        (policy.checkByName Directory.service p owner activity (some key) r).1 = false)) ∧
    (r.state.resolveOwner owner = .ok none ∨ r.state.resolveActivity owner activity = .ok none →
      (policy.checkByName Directory.service p owner activity (some key) r).1 = false) := by
  constructor
  · intro o act ho hact
    have ho : r.state.owners.get? owner = some o := Except.ok.inj ho
    have hact : r.state.activities.get? (owner, activity) = some act := Except.ok.inj hact
    have hnames := r.state.named_eq ho hact key
    constructor
    · intro hknown
      rw [if_pos hknown] at hnames
      have heq := policy.checkByName_of_named
        ⟨p, o, act, some (r.state.targetNamed act.targetProvider key)⟩ hnames
      refine ⟨heq, ?_⟩
      intro hempty hg
      have hdefined : r.state.Named := by rw [hd]; exact Directory.changes_named changes
      have hscope : Scope.of o act (some (r.state.targetNamed act.targetProvider key)) =
          ⟨owner, activity, some key⟩ := by
        simp only [Scope.of, Option.map_some, hdefined.owner owner o ho,
          hdefined.activity owner activity act hact, hdefined.targetNamed_key]
      rw [heq]
      apply hasPermission_of_granted r.state.still r.state.keyed rfl hempty
      rwa [Query.scope, hscope]
    · intro hunknown
      rw [if_neg hunknown] at hnames
      exact checkByName_of_not_named hnames
  · intro h
    obtain ⟨e, he⟩ := r.state.named_eq_error h key
    exact checkByName_of_not_named he

/-- An activity whose targets `shelves` has, and a grant of it on one of them. -/
def bareShelves : List DirectoryChange :=
  [.addOwner ⟨"O", "Owner"⟩, .addActivity "O" ⟨"ACT", "Activity", "shelves"⟩,
    .addPermission (.assign ⟨.person, "alice"⟩ "O" "ACT" "T" .grant)]

/-- A run with the directory that these changes lead to. -/
def shelfRun (changes : List DirectoryChange) : Run Directory where
  state := ({} : Directory).changes changes
  clock := .startingAt 0 0
  cache := .timed { ttl := 60, capacity := 0 }

/-- With one target on the shelves, the name of another stands for a plain target. -/
theorem checkByName_by_reference_on_shelf :
    let policy : Policy := ⟨true, true, 1, 100⟩
    let r := shelfRun (.addTarget "shelves" ⟨"S", "Shelf", .other⟩ :: bareShelves)
    (policy.checkByName Directory.service ⟨.person, "alice"⟩ "O" "ACT" (some "T") r).1 = true ∧
      (policy.checkByName Directory.service ⟨.person, "bob"⟩ "O" "ACT" (some "T") r).1 =
        (policy.hasPermission Directory.service ⟨⟨.person, "bob"⟩, ⟨"O", "Owner"⟩,
          ⟨"ACT", "Activity", "shelves"⟩, some ⟨"T", "T", .other⟩⟩ r).1 ∧
      (policy.checkByName Directory.service ⟨.person, "alice"⟩ "O" "READ" (some "T") r).1 =
        false := by
  intro policy r
  have hreference (p : Principal) (activity : String) :=
    checkByName_by_reference (r := r) rfl policy p "O" activity "T"
  have hdefined := fun p => (hreference p "ACT").1 ⟨"O", "Owner"⟩ ⟨"ACT", "Activity", "shelves"⟩
    (by decide +kernel) (by decide +kernel)
  have hknown : r.state.IsRegistered "shelves" := by decide +kernel
  have hgranted : r.state.answers.Granted ⟨"O", "ACT", some "T"⟩ r.clock.wall
      ⟨.person, "alice"⟩ := by
    rw [Answers.granted_iff]
    decide +kernel
  refine ⟨((hdefined _).1 hknown).2 rfl hgranted, ((hdefined _).1 hknown).1, ?_⟩
  exact (hreference _ "READ").2 (.inr (by decide +kernel))

/-- With nothing on the shelves a query by name is denied, although the query for the plain target
is granted. -/
theorem checkByName_misses_grant :
    let policy : Policy := ⟨false, false, 1, 100⟩
    let r := shelfRun bareShelves
    let act : Activity := ⟨"ACT", "Activity", "shelves"⟩
    r.state.resolveOwner "O" = .ok (some ⟨"O", "Owner"⟩) ∧
      r.state.resolveActivity "O" "ACT" = .ok (some act) ∧
      r.state.targetNamed act.targetProvider "T" = ⟨"T", "T", .other⟩ ∧
      (policy.hasPermission Directory.service
        ⟨⟨.person, "alice"⟩, ⟨"O", "Owner"⟩, act, some ⟨"T", "T", .other⟩⟩ r).1 = true ∧
      (policy.checkByName Directory.service ⟨.person, "alice"⟩ "O" "ACT" (some "T") r).1 =
        false := by
  decide +kernel

end Policy

end GrantPath
