import GrantPath.Proofs.ColdQueries

/-! # What a directory permits

In a directory every definition is kept under its own name (`Directory.Named`); no change takes
that away (`Directory.changes_named`). So the activity that implies all others is not generalized
further, nor is a collective target, and what is permitted comes down to three paths
(`Policy.permits_iff`).

`Policy.hasPermission_iff_paths` says what a query of a directory means: from an empty cache it is
granted exactly if there is an unblocked path for all permissions, for all targets of the type,
or for the query itself, each under the conditions under which the policy looks for it. -/

namespace GrantPath

open Relation

namespace Answers

/-- What is found under a name or a key has that name or key. -/
structure Named (a : Answers) : Prop where
  owner : ∀ fname owner, a (.resolveOwner fname) = .ok (some owner) → owner.fname = fname
  activity : ∀ owner fname activity, a (.resolveActivity owner fname) = .ok (some activity) →
    activity.fname = fname
  target : ∀ provider key target, a (.resolveTarget provider key) = .ok (some target) →
    target.key = key

variable {a : Answers} {now : Instant} {q q' : Query}

/-- The query for all permissions is not generalized to itself. -/
theorem superUserQuery_superUserQuery (h : a.superUserQuery q = some q') :
    a.superUserQuery q' = none := by
  obtain ⟨everything, owner, target, heverything, -, -, -, rfl⟩ :=
    superUserQuery_eq_some_iff.mp h
  simp [superUserQuery, heverything]

/-- Whether there is a query for all permissions hangs on principal and activity. -/
theorem superUserQuery_congr (hp : q.principal = q'.principal) (ha : q.activity = q'.activity) :
    a.superUserQuery q = a.superUserQuery q' := by
  unfold superUserQuery
  rw [hp, ha]

theorem collectiveQuery_eq_none {target : Target} (hq : q.target = some target)
    (hc : target.isCollective = true) : a.collectiveQuery q = none := by
  simp [collectiveQuery, hq, hc]

theorem isCollective_of_collectiveKey? {type : TargetType} {key : String} {target : Target}
    (hkey : type.collectiveKey? = some key) (ht : target.key = key) :
    target.isCollective = true := by
  cases type <;> simp_all [TargetType.collectiveKey?, Target.isCollective]

theorem collectiveQuery_superUserQuery (hn : a.Named) (h : a.superUserQuery q = some q') :
    a.collectiveQuery q' = none := by
  obtain ⟨everything, owner, target, -, -, -, htarget, rfl⟩ := superUserQuery_eq_some_iff.mp h
  have hkey : target.key = allTarget := hn.target _ _ _ htarget
  have hcollective : target.isCollective = true := by
    simp [Target.isCollective, hkey]
  exact collectiveQuery_eq_none rfl hcollective

/-- A query for all targets of a type is not generalized to many targets again. -/
theorem collectiveQuery_collectiveQuery (hn : a.Named) (h : a.collectiveQuery q = some q') :
    a.collectiveQuery q' = none := by
  obtain ⟨target, key, collective, -, -, hkey, hcollective, rfl⟩ :=
    collectiveQuery_eq_some_iff.mp h
  have hname : collective.key = key := hn.target _ _ _ hcollective
  exact collectiveQuery_eq_none rfl (isCollective_of_collectiveKey? hkey hname)

end Answers

namespace Policy

variable {policy : Policy} {a : Answers} {now : Instant} {q q' : Query}

/-- The query for all permissions is permitted if there is a path for it. -/
theorem exists_permits_superUser (hn : a.Named) (n : Nat) :
    (∃ q', a.superUserQuery q = some q' ∧ policy.Permits a now (n + 1) q') ↔
      ∃ q', a.superUserQuery q = some q' ∧ a.Path q'.scope now q'.principal := by
  apply exists_congr
  intro q'
  apply and_congr_right
  intro hq'
  simp [Permits, Answers.superUserQuery_superUserQuery hq',
    Answers.collectiveQuery_superUserQuery hn hq']

/-- A query that is not generalized to many targets is permitted if there is a path for it or for
all permissions. -/
theorem permits_of_collectiveQuery_eq_none (hn : a.Named) (h : a.collectiveQuery q = none)
    (n : Nat) :
    policy.Permits a now (n + 2) q ↔
      (policy.superUserShortcut = true ∧
        ∃ q', a.superUserQuery q = some q' ∧ a.Path q'.scope now q'.principal) ∨
      a.Path q.scope now q.principal := by
  rw [Permits, exists_permits_superUser hn, h]
  simp

/-- Where definitions are found under their names, what is permitted comes down to three paths. -/
theorem permits_iff (hn : a.Named) (n : Nat) :
    policy.Permits a now (n + 3) q ↔
      (policy.superUserShortcut = true ∧
        ∃ q', a.superUserQuery q = some q' ∧ a.Path q'.scope now q'.principal) ∨
      (policy.collectiveTargets = true ∧
        ∃ q', a.collectiveQuery q = some q' ∧ a.Path q'.scope now q'.principal) ∨
      a.Path q.scope now q.principal := by
  cases hq : a.collectiveQuery q with
  | none =>
      rw [permits_of_collectiveQuery_eq_none hn hq (n + 1)]
      simp
  | some broader =>
      have hnone := Answers.collectiveQuery_collectiveQuery hn hq
      have hsame : a.superUserQuery broader = a.superUserQuery q := by
        obtain ⟨target, key, collective, -, -, -, -, rfl⟩ :=
          Answers.collectiveQuery_eq_some_iff.mp hq
        exact Answers.superUserQuery_congr rfl rfl
      have hbroader : policy.Permits a now (n + 2) broader ↔ _ :=
        permits_of_collectiveQuery_eq_none hn hnone n
      rw [hsame] at hbroader
      have hone : ∀ P : Query → Prop, (∃ q', some broader = some q' ∧ P q') ↔ P broader := by
        simp
      rw [Permits, exists_permits_superUser hn, hq, hone, hone, hbroader]
      -- What the broader query owes to all permissions the query has itself.
      generalize (policy.superUserShortcut = true ∧
        ∃ q', a.superUserQuery q = some q' ∧ a.Path q'.scope now q'.principal) = all
      tauto

end Policy

/-! ### Directories -/

/-- Where no groups are replaced, a list that has all listed members and groups bounds the graph. -/
theorem StagedDirectory.encard_linked_le {st : StagedDirectory} {l : List Principal}
    (hp : st.parents = .empty) (hl : ∀ e ∈ st.directory.parents.entries,
      Principal.ofMember e.1 ∈ l ∧ ∀ k ∈ e.2, ⟨.group, k⟩ ∈ l) :
    st.answers.Linked.encard ≤ l.length := by
  apply Answers.encard_linked_le
  intro p q hparent
  obtain ⟨keys, hkeys, k, hk, rfl⟩ := StagedDirectory.parent_listed hp hparent
  have hlisted := hl _ hkeys
  exact ⟨hlisted.1, hlisted.2 k hk⟩

namespace Directory

/-- Definitions are kept under their own names, and targets under their own keys. -/
structure Named (d : Directory) : Prop where
  owner : ∀ fname owner, d.owners.get? fname = some owner → owner.fname = fname
  activity : ∀ owner fname activity, d.activities.get? (owner, fname) = some activity →
    activity.fname = fname
  target : ∀ provider known key target, d.targets.get? provider = some known →
    known.get? key = some target → target.key = key

variable {d : Directory}

theorem named_empty : ({} : Directory).Named where
  owner _ _ h := by cases h
  activity _ _ _ h := by cases h
  target _ _ _ _ h := by cases h

theorem Named.addOwner (h : d.Named) (owner : Owner) : (d.addOwner owner).Named where
  owner fname o ho := by
    simp only [Directory.addOwner, Table.get?_insert] at ho
    split at ho
    · rename_i hf
      cases ho
      exact hf.symm
    · exact h.owner fname o ho
  activity := h.activity
  target := h.target

theorem Named.addActivity (h : d.Named) (owner : String) (activity : Activity) :
    (d.addActivity owner activity).Named where
  owner := h.owner
  activity o fname a ha := by
    simp only [Directory.addActivity, Table.get?_insert] at ha
    split at ha
    · rename_i hf
      cases ha
      exact (Prod.mk.inj hf).2.symm
    · exact h.activity o fname a ha
  target := h.target

theorem Named.addTarget (h : d.Named) (provider : String) (target : Target) :
    (d.addTarget provider target).Named where
  owner := h.owner
  activity := h.activity
  target p known key t hknown ht := by
    have hold : ∀ k t, ((d.targets.get? provider).getD .empty).get? k = some t → t.key = k := by
      intro k t hk
      cases hp : d.targets.get? provider with
      | none => simp [hp] at hk
      | some before =>
          rw [hp] at hk
          exact h.target provider before k t hp hk
    simp only [Directory.addTarget, Table.get?_insert] at hknown
    split at hknown
    · cases hknown
      rw [Table.get?_insert] at ht
      split at ht
      · rename_i hk
        cases ht
        exact hk.symm
      · exact hold key t ht
    · exact h.target p known key t hknown ht

theorem Named.registerCollectiveTargets (h : d.Named) (provider : String) :
    (d.registerCollectiveTargets provider).Named := by
  unfold Directory.registerCollectiveTargets
  generalize collectiveTargets = targets
  induction targets generalizing d with
  | nil => exact h
  | cons target targets ih => exact ih (h.addTarget provider target)

theorem Named.change (h : d.Named) (c : DirectoryChange) : (d.change c).Named := by
  cases c with
  | addOwner owner => exact h.addOwner owner
  | addActivity owner activity => exact h.addActivity owner activity
  | addTarget provider target => exact h.addTarget provider target
  | registerCollectiveTargets provider => exact h.registerCollectiveTargets provider
  | _ => exact ⟨h.owner, h.activity, h.target⟩

/-- Whatever changes lead to a directory, its definitions are kept under their names. -/
theorem changes_named (cs : List DirectoryChange) : (({} : Directory).changes cs).Named := by
  have hall : ∀ d : Directory, d.Named → (d.changes cs).Named := by
    induction cs with
    | nil => exact fun d h => h
    | cons c cs ih => exact fun d h => ih (d.change c) (h.change c)
  exact hall {} named_empty

theorem Named.answers (h : d.Named) : d.answers.Named where
  owner fname owner ho := h.owner fname owner (Except.ok.inj ho)
  activity owner fname activity ha := h.activity owner fname activity (Except.ok.inj ha)
  target provider key target ht := by
    have ht : d.resolveTarget provider key = .ok (some target) := ht
    unfold resolveTarget at ht
    cases hp : d.targets.get? provider with
    | none => simp [hp] at ht
    | some known =>
        simp only [hp, Except.ok.injEq] at ht
        exact h.target provider known key target hp ht

/-- No stage hides the names of what is defined. -/
theorem Named.staged {st : StagedDirectory} (h : st.directory.Named) : st.answers.Named where
  owner fname owner ho := h.answers.owner fname owner (StagedDirectory.answers_of_ok ho)
  activity owner fname activity ha :=
    h.answers.activity owner fname activity (StagedDirectory.answers_of_ok ha)
  target provider key target ht :=
    h.answers.target provider key target (StagedDirectory.answers_of_ok ht)

/-- A stage on which nothing was set up answers as the directory does. -/
theorem answers_unstaged (d : Directory) :
    ({ directory := d } : StagedDirectory).answers = d.answers := by
  funext q
  cases q <;> simp [StagedDirectory.answers, StagedDirectory.answersWithParents]

/-- A list that has all listed members and groups bounds the graph. -/
theorem encard_linked_le {l : List Principal}
    (hl : ∀ e ∈ d.parents.entries, Principal.ofMember e.1 ∈ l ∧ ∀ k ∈ e.2, ⟨.group, k⟩ ∈ l) :
    d.answers.Linked.encard ≤ l.length := by
  rw [← d.answers_unstaged]
  exact StagedDirectory.encard_linked_le rfl hl

theorem keyed (d : Directory) : d.answers.Keyed := by
  intro p owner activity target
  rfl

theorem still (d : Directory) : service.Still d d.answers :=
  ⟨fun _ => ⟨rfl, rfl⟩, fun _ => rfl⟩

end Directory

namespace Policy

variable {policy : Policy} {a : Answers} {now : Instant} {q : Query}

/-- The path for all permissions, and when it is looked for. -/
theorem exists_superUserQuery_path_iff (hn : a.Named) :
    (∃ q', a.superUserQuery q = some q' ∧ a.Path q'.scope now q'.principal) ↔
      ∃ everything owner target,
        a (.resolveActivity systemOwner allPermissions) = .ok (some everything) ∧
        a (.resolveOwner systemOwner) = .ok (some owner) ∧
        a (.resolveTarget everything.targetProvider allTarget) = .ok (some target) ∧
        q.activity ≠ everything ∧
        a.Path ⟨systemOwner, allPermissions, some allTarget⟩ now q.principal := by
  have hscope : ∀ {everything : Activity} {owner : Owner} {target : Target},
      a (.resolveActivity systemOwner allPermissions) = .ok (some everything) →
      a (.resolveOwner systemOwner) = .ok (some owner) →
      a (.resolveTarget everything.targetProvider allTarget) = .ok (some target) →
      Scope.of owner everything (some target) =
        ⟨systemOwner, allPermissions, some allTarget⟩ := by
    intro everything owner target heverything howner htarget
    simp only [Scope.of, Option.map_some, hn.owner _ _ howner, hn.activity _ _ _ heverything,
      hn.target _ _ _ htarget]
  constructor
  · rintro ⟨q', hq', hpath⟩
    obtain ⟨everything, owner, target, heverything, hne, howner, htarget, rfl⟩ :=
      Answers.superUserQuery_eq_some_iff.mp hq'
    have hpath : a.Path (Scope.of owner everything (some target)) now q.principal := hpath
    rw [hscope heverything howner htarget] at hpath
    exact ⟨everything, owner, target, heverything, howner, htarget, hne, hpath⟩
  · rintro ⟨everything, owner, target, heverything, howner, htarget, hne, hpath⟩
    rw [← hscope heverything howner htarget] at hpath
    exact ⟨_, Answers.superUserQuery_eq_some_iff.mpr
      ⟨everything, owner, target, heverything, hne, howner, htarget, rfl⟩, hpath⟩

theorem isCollective_eq_false_iff {target : Target} :
    target.isCollective = false ↔
      target.key ∉ [allPortlets, allCategories, allGroups, allTarget] := by
  simp [Target.isCollective, and_assoc]

/-- The path for all targets of the type, and when it is looked for. -/
theorem exists_collectiveQuery_path_iff (hn : a.Named) :
    (∃ q', a.collectiveQuery q = some q' ∧ a.Path q'.scope now q'.principal) ↔
      ∃ target key collective, q.target = some target ∧
        target.key ∉ [allPortlets, allCategories, allGroups, allTarget] ∧
        target.type.collectiveKey? = some key ∧
        a (.resolveTarget q.activity.targetProvider key) = .ok (some collective) ∧
        a.Path ⟨q.owner.fname, q.activity.fname, some key⟩ now q.principal := by
  have hscope : ∀ {key : String} {collective : Target},
      a (.resolveTarget q.activity.targetProvider key) = .ok (some collective) →
      Scope.of q.owner q.activity (some collective) =
        ⟨q.owner.fname, q.activity.fname, some key⟩ := by
    intro key collective hcollective
    simp only [Scope.of, Option.map_some, hn.target _ _ _ hcollective]
  constructor
  · rintro ⟨q', hq', hpath⟩
    obtain ⟨target, key, collective, htarget, hsentinel, hkey, hcollective, rfl⟩ :=
      Answers.collectiveQuery_eq_some_iff.mp hq'
    have hpath : a.Path (Scope.of q.owner q.activity (some collective)) now q.principal := hpath
    rw [hscope hcollective] at hpath
    exact ⟨target, key, collective, htarget, isCollective_eq_false_iff.mp hsentinel, hkey,
      hcollective, hpath⟩
  · rintro ⟨target, key, collective, htarget, hsentinel, hkey, hcollective, hpath⟩
    rw [← hscope hcollective] at hpath
    exact ⟨_, Answers.collectiveQuery_eq_some_iff.mpr ⟨target, key, collective, htarget,
      isCollective_eq_false_iff.mpr hsentinel, hkey, hcollective, rfl⟩, hpath⟩

/-- From an empty cache, and if a chain may follow a membership for each principal in the graph, a
query of a directory is granted exactly if there is an unblocked path

* for all permissions, where the shortcut is on, all permissions are defined and the query is for
  another activity,
* for all targets of the type, where collective targets are on and the query is for a target that
  does not stand for many itself, or
* for the query itself, where no target counts as the empty key.

It does not overrun if decisions expire at instants that the clock can show and there is room for
the members that a search expects. -/
theorem hasPermission_iff_paths {r : Run Directory} {changes : List DirectoryChange}
    (hstate : r.state = ({} : Directory).changes changes) (hempty : r.cache.size = 0)
    (hlimit : r.state.answers.Linked.encard ≤ policy.maxDepth) :
    ((policy.hasPermission Directory.service q r).1 = true ↔
      (policy.superUserShortcut = true ∧ ∃ everything owner target,
        r.state.resolveActivity systemOwner allPermissions = .ok (some everything) ∧
        r.state.resolveOwner systemOwner = .ok (some owner) ∧
        r.state.resolveTarget everything.targetProvider allTarget = .ok (some target) ∧
        q.activity ≠ everything ∧
        r.state.answers.Path ⟨systemOwner, allPermissions, some allTarget⟩ r.clock.wall
          q.principal) ∨
      (policy.collectiveTargets = true ∧ ∃ target key collective, q.target = some target ∧
        target.key ∉ [allPortlets, allCategories, allGroups, allTarget] ∧
        target.type.collectiveKey? = some key ∧
        r.state.resolveTarget q.activity.targetProvider key = .ok (some collective) ∧
        r.state.answers.Path ⟨q.owner.fname, q.activity.fname, some key⟩ r.clock.wall
          q.principal) ∨
      r.state.answers.Path ⟨q.owner.fname, q.activity.fname, some ((q.target.map (·.key)).getD "")⟩
        r.clock.wall q.principal) ∧
    (r.cache.outlivesClock r.clock.elapsed = false →
      policy.seenCapacity ≤ SeenGroups.maxCapacity →
        (policy.hasPermission Directory.service q r).2.overrun = r.overrun) := by
  have hn : r.state.answers.Named := by
    rw [hstate]
    exact (Directory.changes_named changes).answers
  have hstill := r.state.still
  constructor
  · have hsteady : Run.Steady r.state r.state.answers r.clock.wall r
        (policy.hasPermission Directory.service q r).2 :=
      hasPermission_steady hstill rfl
    have hdepth : generalizationDepth = 5 + 3 := rfl
    have halike : q.scope.Alike
        ⟨q.owner.fname, q.activity.fname, some ((q.target.map (·.key)).getD "")⟩ :=
      ⟨rfl, rfl, rfl⟩
    rw [hasPermission_iff_of_empty hstill.1 r.state.keyed hlimit hempty hsteady, hdepth,
      permits_iff hn, exists_superUserQuery_path_iff hn, exists_collectiveQuery_path_iff hn,
      r.state.keyed.path_iff halike]
    rfl
  · exact hasPermission_overrun hstill rfl

/-- A person in a cycle of two groups, one of which has all permissions; a record denies the
person the activity on the target. -/
def administration : List DirectoryChange :=
  [.addOwner ⟨systemOwner, "System"⟩,
    .addActivity systemOwner ⟨allPermissions, "All permissions", "everything"⟩,
    .addTarget "everything" ⟨allTarget, "All", .other⟩,
    .addMembership ⟨.person, "alice"⟩ "staff", .addMembership ⟨.group, "staff"⟩ "admins",
    .addMembership ⟨.group, "admins"⟩ "staff",
    .addPermission (.assign ⟨.group, "admins"⟩ systemOwner allPermissions allTarget .grant),
    .addPermission (.assign ⟨.person, "alice"⟩ "O" "ACT" "T" .deny)]

/-- A query of the administration's directory with room for one decision. -/
def administrationRun : Run Directory where
  state := ({} : Directory).changes administration
  clock := .startingAt 0 0
  cache := .timed { ttl := 60, capacity := 1 }

/-- Three memberships suffice to find that the person has all permissions. -/
theorem hasPermission_iff_paths_around_cycle :
    let policy : Policy := ⟨true, true, 3, 100⟩
    administrationRun.cache.size = 0 ∧ administrationRun.state.answers.Linked.encard ≤ 3 ∧
      (policy.hasPermission Directory.service ⟨⟨.person, "alice"⟩, ⟨"O", "Owner"⟩,
        ⟨"ACT", "Activity", "provider"⟩, some ⟨"T", "Target", .portlet⟩⟩ administrationRun).1 =
          true := by
  intro policy
  have hlimit : administrationRun.state.answers.Linked.encard ≤ 3 :=
    Directory.encard_linked_le
      (l := [⟨.person, "alice"⟩, ⟨.group, "staff"⟩, ⟨.group, "admins"⟩]) (by decide)
  have hpath : administrationRun.state.answers.Path ⟨systemOwner, allPermissions, some allTarget⟩
      administrationRun.clock.wall ⟨.person, "alice"⟩ := by
    have hadmins : administrationRun.state.answers.Path
        ⟨systemOwner, allPermissions, some allTarget⟩ administrationRun.clock.wall
        ⟨.group, "admins"⟩ :=
      (Answers.granted_iff.mpr (by decide +kernel)).path
    have hstaff : administrationRun.state.answers.Path
        ⟨systemOwner, allPermissions, some allTarget⟩ administrationRun.clock.wall
        ⟨.group, "staff"⟩ :=
      hadmins.climb (Answers.silent_iff.mpr (by decide +kernel)) (by decide +kernel)
    exact hstaff.climb (Answers.silent_iff.mpr (by decide +kernel)) (by decide +kernel)
  refine ⟨rfl, hlimit, ?_⟩
  exact (hasPermission_iff_paths rfl rfl hlimit).1.mpr
    (.inl ⟨rfl, _, _, _, rfl, rfl, rfl, by decide, hpath⟩)

end Policy

end GrantPath
