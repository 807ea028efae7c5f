import GrantPath.Proofs.Transparency

/-! # Groups whose own groups cannot be looked up

An evaluation that fails writes nothing. But a search counts a member as expanded before it asks
for the member's groups. If that fails, and another chain leads to the same principal, the search
takes the principal for one that it has dealt with and answers no, and this no is written.

So a principal without a record in force whose groups cannot be looked up (`Answers.Stuck`) does
not always stay without an entry in the cache (`Session.stuck_group_is_denied`). It does as long as
no search for the scope comes back to it (`ComesBack`), and an entry that it gets says no
(`Session.comes_back_of_stuck_entry`). -/

namespace GrantPath

open Relation
open scoped List

variable {σ : Type}

/-- Whether a search began. -/
def Event.isSearch : Event → Bool
  | search _ _ => true
  | _ => false

/-- A search for the scope came to `v` after it had asked for the groups of `m`. The latest event
stands first. -/
def ComesBack (scope : Scope) (v : Principal) (m : GroupMember) (events : List Event) : Prop :=
  ∃ later during earlier p clock,
    events = later ++ (during ++ .search (scope.key p) clock :: earlier) ∧
    (∀ e ∈ during, e.isSearch = false) ∧
    ∃ again c asked c',
      [.call (.groupMember v) again c, .call (.parentGroups m) asked c'] <+ during

/-- No record about the principal is in force for the scope, and the groups of its member cannot be
looked up. -/
structure Answers.Stuck (a : Answers) (scope : Scope) (now : Instant) (v : Principal)
    (m : GroupMember) : Prop where
  silent : ∀ s, s.Alike scope → a.Silent s now v
  member : a (.groupMember v) = .ok m
  groups : ∃ e, a (.parentGroups m) = .error e

variable {scope : Scope} {v p : Principal} {m : GroupMember} {events : List Event} {e : Event}

theorem ComesBack.append (h : ComesBack scope v m events) (later : List Event) :
    ComesBack scope v m (later ++ events) := by
  obtain ⟨later', during, earlier, p, clock, rfl, hduring, hagain⟩ := h
  refine ⟨later ++ later', during, earlier, p, clock, ?_, hduring, hagain⟩
  rw [List.append_assoc]

/-! ### What a run keeps -/

namespace Run

/-- If there is an entry for the principal, it says no and a search since the run `base` came back
to the principal. -/
structure Spared (scope : Scope) (v : Principal) (m : GroupMember) (base r : Run σ) : Prop where
  journal : base.journal <:+ r.journal
  entry : ∀ d, r.cache.find? (scope.key v) = some d →
    d.allowed = false ∧ ComesBack scope v m (base.since r)

/-- In the search that began in the run `begun`, members count as expanded only if their groups
were asked for. -/
structure Underway (m : GroupMember) (begun r : Run σ) : Prop where
  quiet : Throughout (fun e => e.isSearch = false) begun r
  asked : m ∈ r.seen → ∃ answer clock, .call (.parentGroups m) answer clock ∈ begun.since r

variable {base begun r r' : Run σ} {key : DecisionKey} {allowed : Bool}

namespace Spared

theorem comesBack (h : Spared scope v m base r) (hj : r.journal <:+ r'.journal)
    (hb : ComesBack scope v m (base.since r)) : ComesBack scope v m (base.since r') := by
  rw [since_trans h.journal hj]
  exact hb.append _

theorem of_within (h : Spared scope v m base r) (hc : r'.cache.Within r.cache)
    (hj : r.journal <:+ r'.journal) : Spared scope v m base r' where
  journal := h.journal.trans hj
  entry d hd := by
    obtain ⟨d₀, hd₀, hallowed, -⟩ := hc.2 _ d hd
    obtain ⟨hno, hb⟩ := h.entry d₀ hd₀
    exact ⟨hallowed.symm.trans hno, h.comesBack hj hb⟩

theorem writeCache (h : Spared scope v m base r)
    (hk : key = scope.key v → allowed = false ∧ ComesBack scope v m (base.since r)) :
    Spared scope v m base (r.writeCache key allowed) := by
  have hj : r.journal <:+ (r.writeCache key allowed).journal := by
    rw [writeCache_journal]
    exact List.suffix_cons ..
  refine ⟨h.journal.trans hj, ?_⟩
  intro d hd
  rcases find?_writeCache hd with ⟨hkey, hallowed, -⟩ | ⟨-, d₀, hd₀, hallowed, -⟩
  · obtain ⟨hno, hb⟩ := hk hkey.symm
    exact ⟨hallowed.trans hno, h.comesBack hj hb⟩
  · obtain ⟨hno, hb⟩ := h.entry d₀ hd₀
    exact ⟨hallowed.symm.trans hno, h.comesBack hj hb⟩

end Spared

namespace Underway

theorem of_journal_eq (h : Underway m begun r) (hj : r'.journal = r.journal)
    (hs : r'.seen = r.seen) : Underway m begun r' where
  quiet := h.quiet.trans ⟨[], hj, by simp⟩
  asked hmem := by
    rw [hs] at hmem
    rw [since, hj]
    exact h.asked hmem

theorem cons (h : Underway m begun r) (hj : r'.journal = e :: r.journal)
    (he : e.isSearch = false)
    (hs : m ∈ r'.seen → m ∈ r.seen ∨ ∃ answer clock, e = .call (.parentGroups m) answer clock) :
    Underway m begun r' := by
  have hquiet : Throughout (fun e => e.isSearch = false) r r' := ⟨[e], hj, by simpa using he⟩
  have hlast : r.since r' = [e] := since_eq hj
  have hsince : begun.since r' = e :: begun.since r := by
    rw [since_trans h.quiet.journal_suffix hquiet.journal_suffix, hlast, List.singleton_append]
  refine ⟨h.quiet.trans hquiet, ?_⟩
  intro hmem
  rw [hsince]
  rcases hs hmem with hbefore | ⟨answer, clock, rfl⟩
  · obtain ⟨answer, clock, hasked⟩ := h.asked hbefore
    exact ⟨answer, clock, List.mem_cons_of_mem _ hasked⟩
  · exact ⟨answer, clock, List.mem_cons_self ..⟩

end Underway

/-- What a run keeps in the midst of a search. -/
structure Watched (scope : Scope) (v : Principal) (m : GroupMember) (base begun r : Run σ) : Prop
    extends Spared scope v m base r, Underway m begun r

namespace Watched

variable {svc : Service σ}

theorem count (h : Watched scope v m base begun r) (o : Occurrence) :
    Watched scope v m base begun (r.count o) :=
  ⟨h.toSpared.of_within (.refl _) (List.suffix_refl _), h.toUnderway.of_journal_eq rfl rfl⟩

theorem ask (h : Watched scope v m base begun r) (q : Request) :
    Watched scope v m base begun (r.ask svc q).2 :=
  ⟨h.toSpared.of_within (.refl _) (List.suffix_cons ..), h.toUnderway.cons rfl rfl .inl⟩

theorem readCache (h : Watched scope v m base begun r) (key : DecisionKey) :
    Watched scope v m base begun (r.readCache key).2 := by
  have hj := r.readCache_journal key
  have hc : (r.readCache key).2.cache.Within r.cache := by
    rw [readCache_cache]
    exact r.cache.get_within key r.clock.elapsed
  refine ⟨h.toSpared.of_within hc (hj ▸ List.suffix_cons ..), h.toUnderway.cons hj rfl ?_⟩
  rw [readCache_seen]
  exact .inl

/-- Whoever counts as expanded has its groups asked for next. -/
theorem expand (h : Watched scope v m base begun r) (n : GroupMember) :
    Watched scope v m base begun ((r.see n).ask svc (.parentGroups n)).2 := by
  refine ⟨h.toSpared.of_within (.refl _) (List.suffix_cons ..), h.toUnderway.cons rfl rfl ?_⟩
  intro hmem
  rcases SeenGroups.mem_insert.mp hmem with rfl | hbefore
  · exact .inr ⟨_, _, rfl⟩
  · exact .inl hbefore

theorem writeCache (h : Watched scope v m base begun r)
    (hk : key = scope.key v → allowed = false ∧ ComesBack scope v m (base.since r)) :
    Watched scope v m base begun (r.writeCache key allowed) := by
  refine ⟨h.toSpared.writeCache hk, h.toUnderway.cons (r.writeCache_journal key allowed) rfl ?_⟩
  rw [writeCache_seen]
  exact .inl

/-- Where the member is asked for of a principal that counts as expanded, the search has come
back. -/
theorem comesBack {s : Search σ} {earlier : List Event} {clock : Clock} {q : Principal}
    (h : Watched scope v m base begun r)
    (hbegun : begun.journal = .search (s.scope.key q) clock :: earlier ++ base.journal)
    (halike : s.scope.Alike scope) (hmem : m ∈ r.seen) :
    ComesBack scope v m (base.since (s.named v r)) := by
  obtain ⟨asked, c, hasked⟩ := h.asked hmem
  have hnamed : Watched scope v m base begun (s.named v r) := ((h.count _).ask _).ask _
  have hfirst : base.journal <:+ begun.journal := by
    rw [hbegun]
    exact List.suffix_append ..
  have hsince : base.since begun = .search (scope.key q) clock :: earlier := by
    rw [since_eq hbegun, Scope.key_eq_key_iff.mpr ⟨rfl, halike⟩]
  refine ⟨[], begun.since (s.named v r), earlier, q, clock, ?_,
    fun e he => hnamed.quiet.of_mem_since he, ?_⟩
  · rw [List.nil_append, ← hsince, since_trans hfirst hnamed.quiet.journal_suffix]
  · have hlast := (s.named_reaches v r).journal_suffix
    rw [since_trans h.quiet.journal_suffix hlast]
    have hagain : r.since (s.named v r) = [.call (.groupMember v) _ _, .call _ _ _] :=
      since_eq rfl
    rw [hagain]
    refine ⟨_, _, asked, c, List.Sublist.cons_cons _ (.cons _ ?_)⟩
    exact List.singleton_sublist.mpr hasked

end Watched

end Run

/-! ### Searches -/

namespace Search

variable {s : Search σ} {a : Answers} {now : Instant} {base begun : Run σ}

/-- A search that has not counted the member as expanded writes an entry for a stuck principal only
if it comes back to it. -/
theorem SteadyCases.watched (hstuck : a.Stuck scope now v m) {earlier : List Event} {clock : Clock}
    {q : Principal}
    (hbegun : begun.journal = .search (s.scope.key q) clock :: earlier ++ base.journal) :
    s.SteadyCases a now
      (fun _ p r out => Run.Watched scope v m base begun r →
        Run.Watched scope v m base begun out.2 ∧ ∀ allowed, out.1 = .ok allowed →
          s.scope.key p = scope.key v → allowed = false ∧ ComesBack scope v m (base.since out.2))
      (fun _ _ r out =>
        Run.Watched scope v m base begun r → Run.Watched scope v m base begun out.2)
      (fun _ _ r out =>
        Run.Watched scope v m base begun r → Run.Watched scope v m base begun out.2) where
  lookUpFails _ hr := ⟨(hr.count _).ask _, nofun⟩
  decided hv hr := by
    refine ⟨(hr.count _).ask _, ?_⟩
    intro allowed _ hkey
    obtain ⟨rfl, halike⟩ := Scope.key_eq_key_iff.mp hkey
    have hsilent := Answers.silent_iff.mp (hstuck.silent _ halike)
    rw [hv] at hsilent
    cases hsilent
  noStepLeft _ hr := ⟨(hr.count _).ask _, nofun⟩
  memberFails _ _ hr := ⟨((hr.count _).ask _).ask _, nofun⟩
  metBefore {n p r m'} _ hm hmem hr := by
    refine ⟨(((hr.count _).ask _).ask _).count _, ?_⟩
    intro allowed hout hkey
    obtain ⟨rfl, halike⟩ := Scope.key_eq_key_iff.mp hkey
    obtain rfl : m = m' := Except.ok.inj (hstuck.member.symm.trans hm)
    exact ⟨(Except.ok.inj hout).symm, hr.comesBack hbegun halike hmem⟩
  groupsFail _ _ _ _ hr := ⟨(((hr.count _).ask _).ask _).expand _, nofun⟩
  climbed {n p r m' groups out} _ hm _ hg _ htried hr := by
    refine ⟨htried ((((hr.count _).ask _).ask _).expand _), ?_⟩
    intro allowed _ hkey
    obtain ⟨rfl, -⟩ := Scope.key_eq_key_iff.mp hkey
    obtain rfl : m = m' := Except.ok.inj (hstuck.member.symm.trans hm)
    obtain ⟨e, he⟩ := hstuck.groups
    rw [hg] at he
    cases he
  noGroupLeft hr := hr
  noPrincipal _ _ htried hr := htried ((hr.ask _).count _)
  granted _ _ hcons hr := hcons (hr.ask _)
  refused {n g gs q r r' outcome out} _ _ hcons _ _ htried hr := by
    have hr' := hcons (hr.ask _)
    apply htried
    cases outcome with
    | error e => exact hr'.count _
    | ok granted => exact hr'
  hit _ hr := (hr.readCache _).count _
  computed _ _ hv hr := by
    obtain ⟨hr', hentry⟩ := hv ((hr.readCache _).count _)
    exact hr'.writeCache (hentry _ rfl)
  notComputed _ _ hv hr := (hv ((hr.readCache _).count _)).1

variable {st : σ} {r : Run σ} {seen : SeenGroups}

theorem watched_begun (hr : Run.Spared scope v m base r) (hseen : m ∉ seen) (key : DecisionKey) :
    Run.Watched scope v m base (r.beginSearch key seen) (r.beginSearch key seen) where
  toSpared := hr.of_within (.refl _) (List.suffix_cons ..)
  quiet := .refl _
  asked hmem := absurd hmem hseen

theorem begun_journal (hr : Run.Spared scope v m base r) (key : DecisionKey) (seen : SeenGroups) :
    ∃ earlier, (r.beginSearch key seen).journal =
      .search key r.clock :: earlier ++ base.journal := by
  obtain ⟨earlier, hearlier⟩ := hr.journal
  exact ⟨earlier, congrArg (List.cons _) hearlier.symm⟩

section steady

variable (hs : s.service.Settled st a) (hstuck : a.Stuck scope now v m) (hseen : m ∉ seen)
  (hr : Run.Spared scope v m base r)

include hs hstuck hseen hr

theorem run_spared (ht : Run.Steady st a now r (s.run seen p r).2) :
    Run.Spared scope v m base (s.run seen p r).2 := by
  obtain ⟨earlier, hbegun⟩ := begun_journal hr (s.scope.key p) seen
  exact ((SteadyCases.watched hstuck hbegun).run hs ht (watched_begun hr hseen _)).toSpared

/-- A search that evaluates the principal itself anew tells besides whether its answer may be
written. -/
theorem runAnew_spared (ht : Run.Steady st a now r (s.runAnew seen p r).2) :
    Run.Spared scope v m base (s.runAnew seen p r).2 ∧
      ∀ allowed, (s.runAnew seen p r).1 = .ok allowed → s.scope.key p = scope.key v →
        allowed = false ∧ ComesBack scope v m (base.since (s.runAnew seen p r).2) := by
  obtain ⟨earlier, hbegun⟩ := begun_journal hr (s.scope.key p) seen
  obtain ⟨hout, hentry⟩ :=
    (SteadyCases.watched hstuck hbegun).runAnew hs ht (watched_begun hr hseen _)
  exact ⟨hout.toSpared, hentry⟩

end steady

end Search

/-! ### Queries and sessions -/

namespace Policy

variable {policy : Policy} {svc : Service σ} {st : σ} {a : Answers} {now : Instant}
  {base r r' : Run σ} (hs : svc.Settled st a) (hstuck : a.Stuck scope now v m)

include hs hstuck

theorem Move.spared (h : policy.Move svc r r') (ht : Run.Steady st a now r r')
    (hr : Run.Spared scope v m base r) : Run.Spared scope v m base r' := by
  cases h with
  | ask q r => exact hr.of_within (.refl _) (List.suffix_cons ..)
  | count o r => exact hr.of_within (.refl _) (List.suffix_refl _)
  | setAside capacity r => exact hr.of_within (.refl _) (List.suffix_refl _)
  | search q r =>
      exact Search.run_spared (s := policy.search svc q) hs hstuck (SeenGroups.not_mem_empty m)
        hr ht
  | refresh q r =>
      have hreach := (policy.search svc q).runAnew_reaches .empty q.principal r
      have hspared := Search.runAnew_spared (s := policy.search svc q) (p := q.principal) hs hstuck
        (SeenGroups.not_mem_empty m) hr
      rcases r.forceRefresh_cases q.key ((policy.search svc q).runAnew .empty q.principal) with
        ⟨e, r₁, hout, hafter⟩ | ⟨granted, r₁, hout, hafter⟩
      · rw [hout] at hspared
        rw [hafter] at ht ⊢
        exact (hspared ht).1
      · rw [hout] at hreach hspared
        rw [hafter] at ht ⊢
        obtain ⟨hbefore, -⟩ := ht.split hs hreach (r₁.prewarm_reaches q.key granted)
        obtain ⟨hr₁, hentry⟩ := hspared hbefore
        have hwritten : Run.Spared scope v m base (r₁.writeCache q.key granted) :=
          hr₁.writeCache (hentry granted rfl)
        exact hwritten.of_within (.refl _) (List.suffix_refl _)

theorem Moves.spared (h : policy.Moves svc r r') (ht : Run.Steady st a now r r')
    (hr : Run.Spared scope v m base r) : Run.Spared scope v m base r' := by
  induction h with
  | refl => exact hr
  | @tail m r' hm h ih =>
      obtain ⟨hl, hlast⟩ := Moves.split hs hm (.single h) ht
      exact h.spared hs hstuck hlast (ih hl)

end Policy

/-- Whether the step is ordinary or a search by hand that does not count the member as expanded to
begin with. -/
def Step.Evaluates (m : GroupMember) : Step σ → Prop
  | .search q => m ∉ q.seen
  | step => step.isOrdinary = true

namespace SeenGroups

theorem mem_ofList {ms : List GroupMember} : m ∈ ofList ms ↔ m ∈ ms := by
  have hfold : ∀ s : SeenGroups, m ∈ ms.foldl insert s ↔ m ∈ ms ∨ m ∈ s := by
    induction ms with
    | nil => simp
    | cons n ms ih =>
        intro s
        rw [List.foldl_cons, ih, mem_insert, List.mem_cons]
        tauto
  simp [ofList, hfold]

end SeenGroups

namespace Session

variable {policy : Policy} {svc : Service σ} {st : σ} {a : Answers} {now : Instant}
  {step : Step σ} {base r r' : Run σ}

/-- Such a step makes moves, searches by hand, or lets the cache forget. -/
theorem Happens.of_evaluates (h : Happens policy svc step r r') (hstep : step.Evaluates m) :
    policy.Moves svc r r' ∨ (∃ q : ManualSearch, m ∉ q.seen ∧ r' = (q.perform svc r).2) ∨
      r'.state = r.state ∧ r'.cache.Within r.cache := by
  have hordinary : step.isOrdinary = true → policy.Moves svc r r' ∨
      (∃ q : ManualSearch, m ∉ q.seen ∧ r' = (q.perform svc r).2) ∨
        r'.state = r.state ∧ r'.cache.Within r.cache := by
    intro ho
    rcases h.of_ordinary ho with hm | ⟨key, rfl⟩ | ⟨hst, hc, -⟩
    · exact .inl hm
    · refine .inr (.inr ⟨r.readCache_state key, ?_⟩)
      rw [Run.readCache_cache]
      exact r.cache.get_within key r.clock.elapsed
    · exact .inr (.inr ⟨hst, hc⟩)
  cases step with
  | search q =>
      cases h with
      | moved h => exact .inl h
      | searched q r => exact .inr (.inl ⟨q, hstep, rfl⟩)
      | lapsed hst hc _ _ => exact .inr (.inr ⟨hst, hc⟩)
      | written hw _ => cases hw
  | _ => exact hordinary hstep

theorem Happens.state_of_evaluates (hs : svc.Settled st a) (h : Happens policy svc step r r')
    (hstep : step.Evaluates m) (hst : r.state = st) : r'.state = st := by
  rcases h.of_evaluates hstep with hm | ⟨q, -, rfl⟩ | ⟨he, -⟩
  · exact Policy.Moves.state_eq hs hm hst
  · exact (perform_reaches q r).state_eq hs hst
  · exact he.trans hst

theorem Happens.spared (hs : svc.Settled st a) (hstuck : a.Stuck scope now v m)
    (h : Happens policy svc step r r') (hstep : step.Evaluates m) (ht : Run.Steady st a now r r')
    (hr : Run.Spared scope v m base r) : Run.Spared scope v m base r' := by
  rcases h.of_evaluates hstep with hm | ⟨q, hq, rfl⟩ | ⟨-, hc⟩
  · exact Policy.Moves.spared hs hstuck hm ht hr
  · have hseen : m ∉ SeenGroups.ofList q.seen := fun hmem => hq (SeenGroups.mem_ofList.mp hmem)
    unfold ManualSearch.perform at ht ⊢
    cases hcached : q.cached with
    | true =>
        simp only [hcached, if_true] at ht ⊢
        exact Search.run_spared (s := ⟨svc, q.scope, q.limit⟩) hs hstuck hseen hr ht
    | false =>
        simp only [hcached, Bool.false_eq_true, if_false] at ht ⊢
        exact (Search.runAnew_spared (s := ⟨svc, q.scope, q.limit⟩) hs hstuck hseen hr ht).1
  · exact hr.of_within hc h.passes.journal

theorem steps_spared {s : Session σ} (hs : s.service.Settled st a)
    (hstuck : a.Stuck scope now v m) {steps : List (Step σ)}
    (hsteps : ∀ step ∈ steps, step.Evaluates m)
    (ht : Run.Steady st a now s.run (s.steps steps).run)
    (hr : Run.Spared scope v m base s.run) : Run.Spared scope v m base (s.steps steps).run := by
  induction steps generalizing s with
  | nil => exact hr
  | cons step steps ih =>
      obtain ⟨hstep, hrest⟩ := List.forall_mem_cons.mp hsteps
      have hs' : (s.step step).2.service.Settled st a := by rwa [step_service]
      have hst := (s.step_happens step).state_of_evaluates hs hstep ht.1
      obtain ⟨hl, hlast⟩ :=
        ht.split_of (s.step_passes step) hst ((s.step step).2.steps_passes steps)
      exact ih hs' hrest hlast ((s.step_happens step).spared hs hstuck hstep hl hr)

/-- While a service gives the same answers and the same records are in force, a principal without
a record in force whose groups cannot be looked up gets an entry in the cache only if a search for
the scope comes back to it after it has asked for the groups, and the entry says no. This holds
for queries, decisions ahead of queries and searches by hand that do not count the principal's
member as expanded to begin with, and for any number of them. -/
theorem comes_back_of_stuck_entry {s : Session σ} (hs : s.service.Settled s.run.state a)
    (hstuck : a.Stuck scope now v m) {steps : List (Step σ)}
    (hsteps : ∀ step ∈ steps, step.Evaluates m)
    (hforce : Run.Throughout (fun e => a.InForceAlike e.clock.wall now) s.run
      (s.steps steps).run)
    (hno : s.run.cache.find? (scope.key v) = none) {d : Decision}
    (hd : (s.steps steps).run.cache.find? (scope.key v) = some d) :
    d.allowed = false ∧ ComesBack scope v m (s.run.since (s.steps steps).run) := by
  have hspared : Run.Spared scope v m s.run s.run := by
    refine ⟨List.suffix_refl _, ?_⟩
    intro d hd
    rw [hno] at hd
    cases hd
  exact (steps_spared hs hstuck hsteps ⟨rfl, hforce⟩ hspared).entry d hd

/-- A person in two groups that are both in a third, whose groups cannot be looked up. -/
def forkDirectory : StagedDirectory where
  directory := ({} : Directory).changes
    [.addMembership ⟨.person, "alice"⟩ "a", .addMembership ⟨.person, "alice"⟩ "b",
      .addMembership ⟨.group, "a"⟩ "shared", .addMembership ⟨.group, "b"⟩ "shared"]
  faults := [⟨"parent_groups", "group.shared"⟩]

def forkSession : Session StagedDirectory :=
  .start { cache := { ttlSeconds := 60 } } StagedDirectory.service forkDirectory
    (.startingAt 0 0)

def forkScope : Scope := ⟨"O", "ACT", some "T"⟩

/-- The query of a principal for the scope. -/
def forkCheck (p : Principal) : Step StagedDirectory :=
  .check
    { principal := some p
      owner := some ⟨"O", "Owner"⟩
      activity := some ⟨"ACT", "Activity", "provider"⟩
      target := some ⟨"T", "Target", .other⟩ }

/-- By way of the second group the query comes back to the group whose groups cannot be looked up,
and leaves a no about it. -/
theorem stuck_group_is_denied :
    forkSession.run.cache.size = 0 ∧ forkDirectory.directory.permissions = [] ∧
      (forkDirectory.answers (.parentGroups ⟨.group, "shared"⟩)).toOption = none ∧
      ((forkSession.steps [forkCheck ⟨.person, "alice"⟩]).run.cache.find?
        (forkScope.key ⟨.group, "shared"⟩)).map (·.allowed) = some false := by
  decide +kernel

theorem fork_stuck (now : Instant) :
    forkDirectory.answers.Stuck forkScope now ⟨.group, "shared"⟩ ⟨.group, "shared"⟩ where
  silent s _ := ⟨[], rfl, by simp⟩
  member := rfl
  groups := ⟨_, rfl⟩

theorem fork_inForceAlike (t t' : Instant) : forkDirectory.answers.InForceAlike t t' :=
  StagedDirectory.inForceAlike (by decide) t t'

/-- The entry that the query leaves comes from a search that came back. -/
theorem comes_back_of_stuck_entry_in_fork :
    ComesBack forkScope ⟨.group, "shared"⟩ ⟨.group, "shared"⟩
      (forkSession.run.since (forkSession.steps [forkCheck ⟨.person, "alice"⟩]).run) := by
  have hsteps : ∀ step ∈ [forkCheck ⟨.person, "alice"⟩],
      step.Evaluates (⟨.group, "shared"⟩ : GroupMember) := by
    simp [forkCheck, Step.Evaluates, Step.isOrdinary, Step.writesDirectly]
  have hforce : Run.Throughout
      (fun e => forkDirectory.answers.InForceAlike e.clock.wall (.ofMillis 0)) forkSession.run
      (forkSession.steps [forkCheck ⟨.person, "alice"⟩]).run :=
    .of_forall (forkSession.steps_passes _).journal fun e => fork_inForceAlike _ _
  have hentry : ((forkSession.steps [forkCheck ⟨.person, "alice"⟩]).run.cache.find?
      (forkScope.key ⟨.group, "shared"⟩)).isSome = true := by
    decide +kernel
  obtain ⟨d, hd⟩ := Option.isSome_iff_exists.mp hentry
  exact (comes_back_of_stuck_entry forkDirectory.settled (fork_stuck _) hsteps hforce rfl hd).2

end Session

end GrantPath
