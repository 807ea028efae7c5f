import GrantPath.Proofs.DirectoryQueries

/-! # Failures only take grants away

Answers extend others (`Answers.Extends`) if they repeat every one of them that is no failure.
Everything that leads to a grant is made of lookups that succeed, a denial included, so parents,
unblocked paths, generalizations and what is permitted carry over to the extension
(`Policy.Permits.mono`).

Two queries of services that differ in failures visit different principals, in another order, and
leave different caches. But from an empty cache each is answered as it is permitted, so they need
not be compared step by step (`Policy.hasPermission_mono`). With more faults injected a directory
grants no more (`Policy.hasPermission_of_more_faults`). -/

namespace GrantPath

open Relation

namespace Answers

/-- Every answer of `a'` that is no failure is also given by `a`. -/
def Extends (a a' : Answers) : Prop :=
  ∀ (q : Request) (answer : q.Answer), a' q = .ok answer → a q = .ok answer

section extension

variable {a a' : Answers} {s : Scope} {now : Instant} {p q : Principal} {query query' : Query}
  (h : a.Extends a')

include h

theorem Parent.mono (hp : a'.Parent p q) : a.Parent p q := by
  obtain ⟨m, groups, g, hm, hg, hmem, hq⟩ := hp
  exact ⟨m, groups, g, h _ _ hm, h _ _ hg, hmem, h _ _ hq⟩

theorem Silent.mono (hs : a'.Silent s now p) : a.Silent s now p := by
  obtain ⟨records, hr, hnone⟩ := hs
  exact ⟨records, h _ _ hr, hnone⟩

/-- What denies a principal is looked up together with what grants it. -/
theorem Granted.mono (hg : a'.Granted s now p) : a.Granted s now p := by
  obtain ⟨records, hr, hgrant, hdeny⟩ := hg
  exact ⟨records, h _ _ hr, hgrant, hdeny⟩

theorem Path.mono (hp : a'.Path s now p) : a.Path s now p := by
  obtain ⟨q, hq, hg⟩ := hp
  refine ⟨q, ?_, hg.mono h⟩
  exact ReflTransGen.mono (fun x y hxy => ⟨hxy.1.mono h, hxy.2.mono h⟩) p q hq

theorem linked_subset : a'.Linked ⊆ a.Linked := by
  rintro p ⟨q, hq | hq⟩
  · exact ⟨q, .inl (hq.mono h)⟩
  · exact ⟨q, .inr (hq.mono h)⟩

theorem superUserQuery_mono (hq : a'.superUserQuery query = some query') :
    a.superUserQuery query = some query' := by
  obtain ⟨everything, owner, target, heverything, hne, howner, htarget, rfl⟩ :=
    superUserQuery_eq_some_iff.mp hq
  exact superUserQuery_eq_some_iff.mpr
    ⟨everything, owner, target, h _ _ heverything, hne, h _ _ howner, h _ _ htarget, rfl⟩

theorem collectiveQuery_mono (hq : a'.collectiveQuery query = some query') :
    a.collectiveQuery query = some query' := by
  obtain ⟨target, key, collective, htarget, hmany, hkey, hcollective, rfl⟩ :=
    collectiveQuery_eq_some_iff.mp hq
  exact collectiveQuery_eq_some_iff.mpr
    ⟨target, key, collective, htarget, hmany, hkey, h _ _ hcollective, rfl⟩

end extension

end Answers

namespace Policy

variable {policy : Policy} {a a' : Answers} {now : Instant}

/-- What is permitted carries over to an extension. -/
theorem Permits.mono (h : a.Extends a') {depth : Nat} {q : Query}
    (hp : policy.Permits a' now depth q) : policy.Permits a now depth q := by
  induction depth generalizing q with
  | zero => exact hp
  | succ depth ih =>
      rw [Permits] at hp ⊢
      rcases hp with ⟨hon, q', hq', hp'⟩ | ⟨hon, q', hq', hp'⟩ | hpath
      · exact .inl ⟨hon, q', Answers.superUserQuery_mono h hq', ih hp'⟩
      · exact .inr (.inl ⟨hon, q', Answers.collectiveQuery_mono h hq', ih hp'⟩)
      · exact .inr (.inr (hpath.mono h))

section services

variable {σ τ : Type} {svc : Service σ} {svc' : Service τ} {st : σ} {st' : τ} {r : Run σ}
  {r' : Run τ} {q : Query}

/-- From empty caches, a service whose answers extend those of another grants whatever the other
grants. -/
theorem hasPermission_mono (h : a.Extends a') (hs : svc.Settled st a) (hs' : svc'.Settled st' a')
    (hk : a.Keyed) (hk' : a'.Keyed) (hlimit : a.Linked.encard ≤ policy.maxDepth)
    (hempty : r.cache.size = 0) (hempty' : r'.cache.size = 0)
    (ht : Run.Steady st a now r (policy.hasPermission svc q r).2)
    (ht' : Run.Steady st' a' now r' (policy.hasPermission svc' q r').2)
    (hgranted : (policy.hasPermission svc' q r').1 = true) :
    (policy.hasPermission svc q r).1 = true := by
  have hlimit' : a'.Linked.encard ≤ policy.maxDepth :=
    (Set.encard_le_encard (Answers.linked_subset h)).trans hlimit
  rw [hasPermission_iff_of_empty hs' hk' hlimit' hempty' ht'] at hgranted
  rw [hasPermission_iff_of_empty hs hk hlimit hempty ht]
  exact hgranted.mono h

end services

end Policy

/-! ### Faults in a directory -/

namespace StagedDirectory

/-- With more faults a directory gives no answer that it does not give with fewer. -/
theorem answers_extends (d : Directory) (parents : Table GroupMember (List GroupMember))
    {faults faults' : List Fault} (h : faults ⊆ faults') :
    ({ directory := d, faults := faults, parents := parents } : StagedDirectory).answers.Extends
      ({ directory := d, faults := faults', parents := parents } : StagedDirectory).answers := by
  intro q answer hq
  unfold answers at hq ⊢
  split at hq
  · cases hq
  · rename_i hfault
    rw [if_neg fun hmem => hfault (h hmem)]
    exact hq

end StagedDirectory

namespace Policy

variable {policy : Policy} {q : Query}

/-- Whatever faults are injected besides, in lookups of records, members, groups and definitions
alike, a query of a directory that is granted with them is granted without them, if both begin
with an empty cache and a chain may follow a membership for each principal in the graph.

It does not overrun if decisions expire at instants that the clock can show and there is room for
the members that a search expects. -/
theorem hasPermission_of_more_faults {d : Directory}
    {parents : Table GroupMember (List GroupMember)} {faults faults' : List Fault}
    {r r' : Run StagedDirectory} (hfaults : faults ⊆ faults')
    (hstate : r.state = { directory := d, faults := faults, parents := parents })
    (hstate' : r'.state = { directory := d, faults := faults', parents := parents })
    (hwall : r'.clock.wall = r.clock.wall) (hempty : r.cache.size = 0)
    (hempty' : r'.cache.size = 0) (hlimit : r.state.answers.Linked.encard ≤ policy.maxDepth) :
    ((policy.hasPermission StagedDirectory.service q r').1 = true →
      (policy.hasPermission StagedDirectory.service q r).1 = true) ∧
    (r.cache.outlivesClock r.clock.elapsed = false →
      policy.seenCapacity ≤ SeenGroups.maxCapacity →
        (policy.hasPermission StagedDirectory.service q r).2.overrun = r.overrun) := by
  have hextends : r.state.answers.Extends r'.state.answers := by
    rw [hstate, hstate']
    exact StagedDirectory.answers_extends d parents hfaults
  have hdelays : r.state.delays = .empty := by rw [hstate]
  have hdelays' : r'.state.delays = .empty := by rw [hstate']
  have hstill := StagedDirectory.still hdelays
  have hstill' := StagedDirectory.still hdelays'
  constructor
  · have hsteady : Run.Steady r.state r.state.answers r.clock.wall r
        (policy.hasPermission StagedDirectory.service q r).2 :=
      hasPermission_steady hstill rfl
    have hsteady' : Run.Steady r'.state r'.state.answers r'.clock.wall r'
        (policy.hasPermission StagedDirectory.service q r').2 :=
      hasPermission_steady hstill' rfl
    rw [hwall] at hsteady'
    exact hasPermission_mono hextends hstill.1 hstill'.1 r.state.keyed r'.state.keyed hlimit
      hempty hempty' hsteady hsteady'
  · exact hasPermission_overrun hstill rfl

/-- A person in a denied group and, below a cycle of two groups, in one with a grant. -/
def membership : Directory :=
  ({} : Directory).changes
    [.addMembership ⟨.person, "alice"⟩ "barred", .addMembership ⟨.person, "alice"⟩ "staff",
      .addMembership ⟨.group, "staff"⟩ "admins", .addMembership ⟨.group, "admins"⟩ "staff",
      .addPermission (.assign ⟨.group, "barred"⟩ "O" "ACT" "T" .deny),
      .addPermission (.assign ⟨.group, "admins"⟩ "O" "ACT" "T" .grant)]

/-- A query of the membership's directory with faults injected. -/
def faultyRun (faults : List Fault) : Run StagedDirectory where
  state := { directory := membership, faults }
  clock := .startingAt 0 0
  cache := .timed { ttl := 60, capacity := 1 }

/-- The person has the grant although the denial and all permissions cannot be looked up, and so
has it without these two faults. -/
theorem hasPermission_of_more_faults_past_denial :
    let policy : Policy := ⟨true, true, 4, 100⟩
    let query : Query := ⟨⟨.person, "alice"⟩, ⟨"O", "Owner"⟩, ⟨"ACT", "Activity", "provider"⟩,
      some ⟨"T", "Target", .portlet⟩⟩
    let faults : List Fault := [⟨"parent_groups", "group.barred"⟩]
    let faults' : List Fault := [⟨"permissions", "group.barred"⟩,
      ⟨"resolve_activity", systemOwner ++ "/" ++ allPermissions⟩, ⟨"parent_groups", "group.barred"⟩]
    faults ⊆ faults' ∧ (faultyRun faults).state.answers.Linked.encard ≤ policy.maxDepth ∧
      (policy.hasPermission StagedDirectory.service query (faultyRun faults')).1 = true ∧
      (policy.hasPermission StagedDirectory.service query (faultyRun faults)).1 = true := by
  intro policy query faults faults'
  have hfaults : faults ⊆ faults' := by decide
  have hlimit : (faultyRun faults).state.answers.Linked.encard ≤ policy.maxDepth :=
    StagedDirectory.encard_linked_le rfl (l := [⟨.person, "alice"⟩, ⟨.group, "barred"⟩,
      ⟨.group, "staff"⟩, ⟨.group, "admins"⟩]) (by decide)
  have hgranted : (policy.hasPermission StagedDirectory.service query (faultyRun faults')).1 =
      true := by decide +kernel
  have hstate : ∀ faults, (faultyRun faults).state = { directory := membership, faults } :=
    fun _ => rfl
  have hempty : ∀ faults, (faultyRun faults).cache.size = 0 := fun _ => rfl
  refine ⟨hfaults, hlimit, hgranted, ?_⟩
  exact (hasPermission_of_more_faults hfaults (hstate _) (hstate _) rfl (hempty _) (hempty _)
    hlimit).1 hgranted

end Policy

end GrantPath
