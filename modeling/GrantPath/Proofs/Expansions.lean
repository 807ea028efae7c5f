import GrantPath.Proofs.Accounting
import GrantPath.Proofs.Overruns

/-! # What a search expands

A search marks a member as expanded before it asks for the member's groups, and it does not ask for
the groups of a marked member. So the marks and the requests for groups are the same list, on every
way through the search (`Run.Expands.members`).

* Each member is expanded once at most, and none that was marked to begin with.
* What a search does is paid for by the groups that it was named. A visit makes three requests at
  most, and besides that only tries the groups it was named, each of which costs a bounded number of
  events. So cycles and groups with many ways to them make no search long (`Run.Expands.nodes`,
  `Run.Expands.events`).

`Search.Cases.expands` proves this for every visit, every consultation and every trial of groups,
and `Search.expands_once` says it of a search. -/

namespace GrantPath

variable {σ : Type}

/-! ### Expansions in a journal -/

namespace Event

/-- The member whose groups were asked for. -/
def expanded? : Event → Option GroupMember
  | call (.parentGroups m) _ _ => some m
  | _ => none

/-- How many groups were named in answer to a request for the groups of a member. -/
def groupsNamed : Event → Nat
  | call (.parentGroups _) (.ok groups) _ => groups.length
  | _ => 0

end Event

/-- The members whose groups were asked for, in the order of the events. -/
def expansions (events : List Event) : List GroupMember :=
  events.filterMap (·.expanded?)

/-- How many groups were named, each as often as it was. -/
def groupsNamed (events : List Event) : Nat :=
  (events.map (·.groupsNamed)).sum

@[simp] theorem expansions_append (later earlier : List Event) :
    expansions (later ++ earlier) = expansions later ++ expansions earlier :=
  List.filterMap_append

@[simp] theorem groupsNamed_append (later earlier : List Event) :
    groupsNamed (later ++ earlier) = groupsNamed later + groupsNamed earlier := by
  simp [groupsNamed]

/-- Every member that was expanded was asked for its groups. -/
theorem mem_expansions {events : List Event} {m : GroupMember} :
    m ∈ expansions events ↔
      ∃ answer clock, Event.call (.parentGroups m) answer clock ∈ events := by
  unfold expansions
  rw [List.mem_filterMap]
  constructor
  · rintro ⟨e, he, hm⟩
    cases e with
    | call request answer clock =>
        cases request with
        | parentGroups m' =>
            obtain rfl : m' = m := Option.some.inj hm
            exact ⟨answer, clock, he⟩
        | _ => cases hm
    | _ => cases hm
  · rintro ⟨answer, clock, he⟩
    exact ⟨_, he, rfl⟩

/-! ### From one run to another -/

namespace Run

/-- From one run to the other exactly those members were marked whose groups were asked for. Besides
the groups that were named, so many nodes were evaluated at most, and, with six events for each of
those groups, so many things happened. -/
structure Expands (nodes events : Nat) (r r' : Run σ) : Prop where
  journal : r.journal <:+ r'.journal
  members : r'.seen.members = expansions (r.since r') ++ r.seen.members
  nodes : r'.counters.nodesEvaluated ≤
    r.counters.nodesEvaluated + nodes + groupsNamed (r.since r')
  events : (r.since r').length ≤ events + 6 * groupsNamed (r.since r')

namespace Expands

variable {n n' k k' : Nat} {r m r' : Run σ}

theorem trans (h : Expands n k r m) (h' : Expands n' k' m r') :
    Expands (n + n') (k + k') r r' := by
  have hsince : r.since r' = m.since r' ++ r.since m := since_trans h.journal h'.journal
  have hnodes := h.nodes
  have hnodes' := h'.nodes
  have hevents := h.events
  have hevents' := h'.events
  constructor
  · exact h.journal.trans h'.journal
  · rw [h'.members, h.members, hsince, expansions_append, List.append_assoc]
  · rw [hsince, groupsNamed_append]
    omega
  · rw [hsince, groupsNamed_append, List.length_append]
    omega

theorem mono (h : Expands n k r r') (hn : n ≤ n') (hk : k ≤ k') : Expands n' k' r r' where
  journal := h.journal
  members := h.members
  nodes := by
    have := h.nodes
    omega
  events := by
    have := h.events
    omega

/-- Nothing happens. -/
theorem of_journal_eq (hj : r'.journal = r.journal) (hs : r'.seen = r.seen)
    (hn : r'.counters.nodesEvaluated = r.counters.nodesEvaluated) : Expands 0 0 r r' := by
  have hsince : r.since r' = [] := since_eq hj
  refine ⟨hj ▸ List.suffix_refl _, ?_, ?_, ?_⟩
  · rw [hs, hsince]
    rfl
  · rw [hn]
    omega
  · rw [hsince]
    exact Nat.le_refl 0

/-- Something happens that is no request for groups. -/
theorem of_event {e : Event} (hj : r'.journal = e :: r.journal) (he : e.expanded? = none)
    (hs : r'.seen = r.seen) (hn : r'.counters.nodesEvaluated ≤ r.counters.nodesEvaluated + n) :
    Expands n 1 r r' := by
  have hsince : r.since r' = [e] := since_eq hj
  refine ⟨hj ▸ List.suffix_cons .., ?_, ?_, ?_⟩
  · rw [hs, hsince, expansions, List.filterMap_cons_none he]
    rfl
  · omega
  · rw [hsince]
    exact Nat.le_add_right 1 _

theorem count (h : Expands n k r r') {o : Occurrence}
    (ho : (r'.counters.record o).nodesEvaluated = r'.counters.nodesEvaluated) :
    Expands n k r (r'.count o) :=
  h.trans (of_journal_eq (r'.count_journal o) rfl ho)

end Expands

end Run

namespace Search

open Run (Expands)

variable (s : Search σ) (p : Principal) (m : GroupMember) (r : Run σ)

/-! ### The stages of a visit -/

theorem expands_ask {q : Request}
    (hq : ∀ answer clock, (Event.call q answer clock).expanded? = none) :
    Expands 0 1 r (r.ask s.service q).2 :=
  .of_event rfl (hq _ _) rfl (Nat.le_refl _)

theorem expands_looked : Expands 1 1 r (s.looked p r) :=
  .of_event rfl rfl rfl (Nat.le_refl _)

theorem expands_named : Expands 1 2 r (s.named p r) :=
  (s.expands_looked p r).trans (s.expands_ask _ fun _ _ => rfl)

theorem expands_readCache (key : DecisionKey) : Expands 0 1 r (r.readCache key).2 :=
  .of_event (r.readCache_journal key) rfl (r.readCache_seen key)
    (r.nodesEvaluated_readCache key).le

theorem expands_missed : Expands 0 1 r (s.missed p r) :=
  (expands_readCache r (s.scope.key p)).count rfl

theorem expands_addressed : Expands 0 1 r (s.addressed r m) :=
  s.expands_ask r fun _ _ => rfl

theorem expands_passedOver (outcome : Except Error Bool) :
    Expands 0 0 r (passedOver outcome r) := by
  cases outcome with
  | error e => exact .of_journal_eq rfl rfl rfl
  | ok granted => exact .of_journal_eq rfl rfl rfl

theorem expands_writeCache (key : DecisionKey) (allowed : Bool) :
    Expands 0 1 r (r.writeCache key allowed) :=
  .of_event (r.writeCache_journal key allowed) rfl (r.writeCache_seen key allowed)
    (r.nodesEvaluated_writeCache key allowed).le

variable {p m r}

/-- The request for the groups of a member that was not marked marks it; the groups that are named
pay for their own trial. -/
theorem expands_expanded (hm : m ∉ r.seen) {answer : Except Error (List GroupMember)}
    (hg : (((s.named p r).see m).ask s.service (.parentGroups m)).1 = answer) {r' : Run σ}
    {groups : List GroupMember} (hgroups : answer.toOption.getD [] = groups)
    (htried : Expands groups.length (6 * groups.length) (s.expanded p m r) r') :
    Expands 1 3 r r' := by
  let asked : Event := .call (.parentGroups m) answer (s.expanded p m r).clock
  have hj : (s.expanded p m r).journal = asked :: (s.named p r).journal := s.expanded_journal hg
  have hnamed := s.expands_named p r
  have hsuffix : (s.named p r).journal <:+ (s.expanded p m r).journal :=
    hj ▸ List.suffix_cons ..
  have hlast : (s.named p r).since (s.expanded p m r) = [asked] := Run.since_eq hj
  have hsince : r.since r' = (s.expanded p m r).since r' ++ ([asked] ++ r.since (s.named p r)) := by
    rw [← hlast, ← Run.since_trans hnamed.journal hsuffix,
      ← Run.since_trans (hnamed.journal.trans hsuffix) htried.journal]
  have hlength : groupsNamed [asked] = groups.length := by
    subst hgroups
    cases answer <;> rfl
  have hexpanded : expansions [asked] = [m] := rfl
  have hmembers : (s.expanded p m r).seen.members = m :: r.seen.members :=
    SeenGroups.members_insert hm
  have hnodes : (s.expanded p m r).counters.nodesEvaluated =
    (s.named p r).counters.nodesEvaluated := rfl
  have hstart := hnamed.nodes
  have hbegun := hnamed.events
  have htriedNodes := htried.nodes
  have htriedEvents := htried.events
  constructor
  · exact (hnamed.journal.trans hsuffix).trans htried.journal
  · have hsame : r.seen.members = expansions (r.since (s.named p r)) ++ r.seen.members :=
      hnamed.members
    rw [hsince, expansions_append, expansions_append, hexpanded, htried.members, hmembers,
      List.append_assoc, List.append_assoc, ← hsame]
    rfl
  · rw [hsince, groupsNamed_append, groupsNamed_append, hlength]
    omega
  · rw [hsince, groupsNamed_append, groupsNamed_append, hlength, List.length_append,
      List.length_append, List.length_singleton]
    omega

/-! ### The whole search -/

variable (p r)

/-- A visit evaluates one node besides those that it was named, and a consultation does too; a trial
may evaluate each of its groups. -/
theorem Cases.expands : s.Cases (fun _ _ r out => Expands 1 3 r out.2)
    (fun _ _ r out => Expands 1 5 r out.2)
    (fun _ gs r out => Expands gs.length (6 * gs.length) r out.2) where
  lookUpFails _ := (s.expands_looked _ _).mono (Nat.le_refl _) (by omega)
  decided _ := (s.expands_looked _ _).mono (Nat.le_refl _) (by omega)
  noStepLeft _ := (s.expands_looked _ _).mono (Nat.le_refl _) (by omega)
  memberFails _ _ := (s.expands_named _ _).mono (Nat.le_refl _) (by omega)
  metBefore _ _ _ := ((s.expands_named _ _).count rfl).mono (Nat.le_refl _) (by omega)
  groupsFail _ _ hm hg := s.expands_expanded hm hg rfl (.of_journal_eq rfl rfl rfl)
  climbed _ _ hm hg _ htried := s.expands_expanded hm hg rfl htried
  noGroupLeft := .of_journal_eq rfl rfl rfl
  noPrincipal {n g gs r e out} _ _ htried := by
    have haddressed : Expands 0 1 r ((s.addressed r g).count .branchFailure) :=
      (s.expands_addressed g r).count rfl
    refine (haddressed.trans htried).mono ?_ ?_ <;> rw [List.length_cons] <;> omega
  granted {n g gs q r r'} _ _ hconsulted := by
    refine ((s.expands_addressed g r).trans hconsulted).mono ?_ ?_ <;> rw [List.length_cons] <;>
      omega
  refused {n g gs q r r' outcome out} _ _ hconsulted _ _ htried := by
    have hpassed : Expands 1 6 r (passedOver outcome r') :=
      ((s.expands_addressed g r).trans hconsulted).trans (expands_passedOver r' outcome)
    refine (hpassed.trans htried).mono ?_ ?_ <;> rw [List.length_cons] <;> omega
  hit {n p r granted} _ :=
    ((expands_readCache r (s.scope.key p)).count rfl).mono (by omega) (by omega)
  computed {n p r granted r'} _ _ hvisited := by
    have hwritten := ((s.expands_missed p r).trans hvisited).trans
      (expands_writeCache r' (s.scope.key p) granted)
    exact hwritten.mono (by omega) (by omega)
  notComputed {n p r e r'} _ _ hvisited :=
    ((s.expands_missed p r).trans hvisited).mono (by omega) (by omega)

/-- What a search that began with the members `seen` has done from one run to the other. -/
structure ExpandsOnce (seen : SeenGroups) (r r' : Run σ) : Prop where
  /-- The groups of a member were asked for once at most, -/
  once : ∀ m, (expansions (r.since r')).count m ≤ 1
  /-- and never those of a member that was marked to begin with. -/
  fresh : ∀ m answer clock, .call (.parentGroups m) answer clock ∈ r.since r' → m ∉ seen
  /-- Besides those exactly the members are marked whose groups were asked for. -/
  seen : ∀ m, m ∈ r'.seen ↔
    m ∈ seen ∨ ∃ answer clock, .call (.parentGroups m) answer clock ∈ r.since r'
  /-- No more nodes were evaluated than one and one for each group that was named, -/
  nodes : r'.counters.nodesEvaluated ≤
    r.counters.nodesEvaluated + 1 + groupsNamed (r.since r')
  /-- and for each of these no more than six things happened before the search came to its end. -/
  events : (r.since r').length ≤ 6 * (1 + groupsNamed (r.since r'))
  /-- It has overrun nothing as long as the clock can show when decisions expire. -/
  overrun : r'.cache.outlivesClock r'.clock.elapsed = false → r'.overrun = r.overrun

theorem ExpandsOnce.of_begun {key : DecisionKey} {seen : SeenGroups} {r' : Run σ}
    (h : Expands 1 5 (r.beginSearch key seen) r')
    (hreach : Run.Reaches s.service r r') : ExpandsOnce seen r r' := by
  let begun := r.beginSearch key seen
  have hbegun : r.since begun = [.search key r.clock] := Run.since_eq rfl
  have hsince : r.since r' = begun.since r' ++ [.search key r.clock] := by
    rw [← hbegun]
    exact Run.since_trans (List.suffix_cons ..) h.journal
  have hexpansions : expansions (r.since r') = expansions (begun.since r') := by
    rw [hsince, expansions_append]
    exact List.append_nil _
  have hgroups : groupsNamed (r.since r') = groupsNamed (begun.since r') := by
    rw [hsince, groupsNamed_append]
    rfl
  have hmembers : r'.seen.members = expansions (r.since r') ++ seen.members :=
    hexpansions ▸ h.members
  have hnodup := r'.seen.nodup
  rw [hmembers, List.nodup_append] at hnodup
  obtain ⟨honce, -, hfresh⟩ := hnodup
  constructor
  · exact fun m => List.nodup_iff_count_le_one.mp honce m
  · intro m answer clock hcall hseen
    exact hfresh m (mem_expansions.mpr ⟨answer, clock, hcall⟩) m hseen rfl
  · intro m
    rw [SeenGroups.mem_def, hmembers, List.mem_append, mem_expansions, Or.comm]
    rfl
  · rw [hgroups]
    exact h.nodes
  · have hevents : (begun.since r').length ≤ 5 + 6 * groupsNamed (begun.since r') := h.events
    rw [hgroups, hsince, List.length_append, List.length_singleton]
    omega
  · exact hreach.overrun_eq_of_last

/-- A search from any principal, through the cache or not, with any cache, any members that are
marked to begin with and any number of steps comes to an end, however the collaborators answer. It
asks for the groups of each member once at most and never for those of a member that was marked to
begin with; in the end, whatever the outcome, exactly these members are marked besides; and it
evaluates no more nodes than one and the groups that it was named. -/
theorem expands_once (seen : SeenGroups) :
    ExpandsOnce seen r (s.run seen p r).2 ∧ ExpandsOnce seen r (s.runAnew seen p r).2 := by
  have hcases := Cases.expands s
  constructor
  · exact .of_begun s r (hcases.cached s.limit p _) (s.run_reaches seen p r)
  · have hvisit := (hcases.resolve s.limit p (r.beginSearch (s.scope.key p) seen)).mono
      (Nat.le_refl 1) (by omega : 3 ≤ 5)
    exact .of_begun s r hvisit (s.runAnew_reaches seen p r)

/-- Two of a person's groups share a third, which closes a cycle, and one more cannot be expanded.
Each is asked for its groups once all the same, and so is the person: six groups are named in all,
and six nodes are evaluated. -/
theorem expands_once_on_shared_group :
    let s : Search StagedDirectory := ⟨StagedDirectory.service, ⟨"O", "ACT", some "T"⟩, 4⟩
    let alice : Principal := ⟨.person, "alice"⟩
    let seen := SeenGroups.ofList [⟨.group, "elsewhere"⟩]
    let r' := (s.runAnew seen alice sharedRun).2
    ExpandsOnce seen sharedRun r' ∧
      expansions (sharedRun.since r') = [⟨.group, "d"⟩, ⟨.group, "b"⟩, ⟨.group, "c"⟩,
        ⟨.group, "a"⟩, ⟨.person, "alice"⟩] ∧
      r'.counters.nodesEvaluated = 6 ∧ groupsNamed (sharedRun.since r') = 6 := by
  intro s alice seen r'
  exact ⟨(s.expands_once alice sharedRun seen).2, by decide +kernel, by decide +kernel,
    by decide +kernel⟩

end Search

end GrantPath
