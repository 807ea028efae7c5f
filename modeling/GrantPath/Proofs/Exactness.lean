import GrantPath.Proofs.SteadySearch
import Mathlib.Data.Set.Card

/-! # Searches find exactly the unblocked paths

While things are steady, a search that trusts only right decisions answers yes only if there
is an unblocked path (`Search.SteadyCases.sound`), whatever members count as expanded and
however few steps are left.

The converse needs a search that begins with no member expanded, has a step for each
principal within reach, and finds no decision of its own scope in the cache. The decisions
that it writes on the way may be wrong: below a cycle a group is answered no because a member
of the cycle was met before. What saves the search is that it says no for good only after it
has handled everything it came by.

* A principal is `Answers.Handled` if it grants nothing by itself and its member, should its
  groups matter, is expanded; a member is `Answers.Closed` if the principals of its groups are
  handled.
* `Run.Explored` is what a part of a search leaves that did not answer yes: the members it
  expanded are closed, and it remembers a no only about handled principals.
* `Answers.Unmet` are the principals within reach whose member is not expanded. Each step
  down meets one more of them, so the steps suffice.

Together `Search.run_eq_ok_true_iff`: a search from a cold cache answers yes exactly if there
is an unblocked path. -/

namespace GrantPath

open Relation

variable {σ : Type} {a : Answers} {now : Instant}

/-! ### A yes has a path -/

/-- Decisions that say yes have a property. -/
abbrev OnYes (Q : DecisionKey → Prop) (key : DecisionKey) (allowed : Bool) : Prop :=
  allowed = true → Q key

/-- Decisions that say no have a property. -/
abbrev OnNo (Q : DecisionKey → Prop) (key : DecisionKey) (allowed : Bool) : Prop :=
  allowed = false → Q key

/-- Searches that trust only yeses with a path say yes only if there is a path. -/
theorem Search.SteadyCases.sound {s : Search σ} {Q : DecisionKey → Prop}
    (hQ : ∀ p, Q (s.scope.key p) ↔ a.Path s.scope now p) :
    s.SteadyCases a now
      (fun _ p r out => r.Upholds (OnYes Q) →
        out.2.Upholds (OnYes Q) ∧ (out.1 = .ok true → a.Path s.scope now p))
      (fun _ p r out => r.Upholds (OnYes Q) →
        out.2.Upholds (OnYes Q) ∧ (out.1 = .ok true → a.Path s.scope now p))
      (fun _ gs r out => r.Upholds (OnYes Q) → out.2.Upholds (OnYes Q) ∧
        (out.1 = true → ∃ g ∈ gs, ∃ q, a (.newPrincipal g) = .ok q ∧ a.Path s.scope now q)) where
  lookUpFails _ hr := ⟨upholds_looked hr, by simp⟩
  decided hv hr := by
    refine ⟨upholds_looked hr, ?_⟩
    intro hyes
    rw [Answers.path_iff_of_some hv]
    exact Except.ok.inj hyes
  noStepLeft _ hr := ⟨upholds_looked hr, by simp⟩
  memberFails _ _ hr := ⟨upholds_named hr, by simp⟩
  metBefore _ _ _ hr := ⟨(upholds_named hr).count _, by simp⟩
  groupsFail _ _ _ _ hr := ⟨upholds_expanded hr, by simp⟩
  climbed {n p r m groups out} hv hm _ hg _ htried hr := by
    obtain ⟨hout, hpath⟩ := htried (upholds_expanded hr)
    refine ⟨hout, ?_⟩
    intro hyes
    obtain ⟨g, hmem, q, hq, hp⟩ := hpath (Except.ok.inj hyes)
    have hsilent : a.Silent s.scope now p := Answers.silent_iff.mpr hv
    have hparent : a.Parent p q := ⟨m, groups, g, hm, hg, hmem, hq⟩
    exact .climb hsilent hparent hp
  noGroupLeft hr := ⟨hr, by simp⟩
  noPrincipal _ _ htried hr := by
    obtain ⟨hout, hpath⟩ := htried ((upholds_addressed hr).count _)
    refine ⟨hout, ?_⟩
    intro hyes
    obtain ⟨g, hmem, hp⟩ := hpath hyes
    exact ⟨g, List.mem_cons_of_mem _ hmem, hp⟩
  granted {n g gs q r r'} hq _ hcons hr := by
    obtain ⟨hout, hpath⟩ := hcons (upholds_addressed hr)
    refine ⟨hout, ?_⟩
    intro _
    exact ⟨g, List.mem_cons_self .., q, hq, hpath rfl⟩
  refused {n g gs q r r' outcome out} _ _ hcons _ _ htried hr := by
    obtain ⟨hleft, -⟩ := hcons (upholds_addressed hr)
    obtain ⟨hout, hpath⟩ := htried (upholds_passedOver hleft outcome)
    refine ⟨hout, ?_⟩
    intro hyes
    obtain ⟨g, hmem, hp⟩ := hpath hyes
    exact ⟨g, List.mem_cons_of_mem _ hmem, hp⟩
  hit {n p r granted} hk hr := by
    refine ⟨(hr.readCache _).count _, ?_⟩
    intro hyes
    rw [← hQ p]
    exact hr _ _ hk (Except.ok.inj hyes)
  computed {n p r granted r'} _ _ hv hr := by
    obtain ⟨hout, hpath⟩ := hv (upholds_missed hr)
    have hwritten : granted = true → Q (s.scope.key p) := by
      intro hyes
      rw [hQ p]
      exact hpath (congrArg Except.ok hyes)
    exact ⟨hout.writeCache hwritten, hpath⟩
  notComputed _ _ hv hr := hv (upholds_missed hr)

/-! ### What is handled -/

namespace Answers

section definitions

variable (a : Answers) (s : Scope) (now : Instant) (seen : SeenGroups)

/-- The principal grants nothing by itself, and should its groups matter, its member is
expanded. -/
def Handled (p : Principal) : Prop :=
  ¬ a.Granted s now p ∧ (a.Silent s now p → ∀ m, a (.groupMember p) = .ok m → m ∈ seen)

/-- The principals of the member's groups are handled. -/
def Closed (m : GroupMember) : Prop :=
  ∀ groups g q, a (.parentGroups m) = .ok groups → g ∈ groups → a (.newPrincipal g) = .ok q →
    a.Handled s now seen q

/-- The principals within reach of `p` whose member is not expanded. -/
def Unmet (p : Principal) : Set Principal :=
  {q | ReflTransGen a.Parent p q ∧ ∀ m, a (.groupMember q) = .ok m → m ∉ seen}

end definitions

variable {s : Scope} {seen seen' : SeenGroups} {p q : Principal} {m : GroupMember}

theorem Handled.mono (h : a.Handled s now seen p) (hsub : ∀ m ∈ seen, m ∈ seen') :
    a.Handled s now seen' p :=
  ⟨h.1, fun hs m hm => hsub m (h.2 hs m hm)⟩

theorem Closed.mono (h : a.Closed s now seen m) (hsub : ∀ m ∈ seen, m ∈ seen') :
    a.Closed s now seen' m :=
  fun groups g q hg hmem hq => (h groups g q hg hmem hq).mono hsub

theorem handled_of_verdict {v : Except Error (Option Bool)} (h : a.verdict s now p = v)
    (ht : v ≠ .ok (some true)) (hn : v ≠ .ok none) : a.Handled s now seen p := by
  refine ⟨fun hg => ht ?_, fun hs => absurd ?_ hn⟩
  · rw [← h, granted_iff.mp hg]
  · rw [← h, silent_iff.mp hs]

theorem not_granted_of_none (h : a.verdict s now p = .ok none) : ¬ a.Granted s now p := by
  rw [granted_iff, h]
  simp

theorem handled_of_member (h : a.verdict s now p = .ok none)
    (hm : ∀ m, a (.groupMember p) = .ok m → m ∈ seen) : a.Handled s now seen p :=
  ⟨not_granted_of_none h, fun _ => hm⟩

theorem handled_of_named (h : a.verdict s now p = .ok none) (hm : a (.groupMember p) = .ok m)
    (hmem : m ∈ seen) : a.Handled s now seen p := by
  refine handled_of_member h ?_
  intro m' hm'
  rw [hm] at hm'
  cases hm'
  exact hmem

/-- A principal all of whose reach is met is met itself. -/
theorem handled_of_unmet_eq_empty (h : a.verdict s now p = .ok none)
    (hu : (a.Unmet seen p).encard ≤ 0) : a.Handled s now seen p := by
  have hempty : a.Unmet seen p = ∅ := Set.encard_eq_zero.mp (nonpos_iff_eq_zero.mp hu)
  refine handled_of_member h fun m hm => ?_
  by_contra hnot
  have hp : p ∈ a.Unmet seen p := by
    refine ⟨.refl, fun m' hm' => ?_⟩
    rw [hm] at hm'
    exact Except.ok.inj hm' ▸ hnot
  rw [hempty] at hp
  exact hp

theorem unmet_anti (hsub : ∀ m ∈ seen, m ∈ seen') : a.Unmet seen' p ⊆ a.Unmet seen p :=
  fun _ h => ⟨h.1, fun m hm hmem => h.2 m hm (hsub m hmem)⟩

/-- One step up there is one principal less to meet. -/
theorem encard_unmet_parent {n : Nat} (hm : a (.groupMember p) = .ok m) (hnot : m ∉ seen)
    (hq : a.Parent p q) (hn : (a.Unmet seen p).encard ≤ (n + 1 : Nat)) :
    (a.Unmet (seen.insert m) q).encard ≤ n := by
  have hp : p ∈ a.Unmet seen p := by
    refine ⟨.refl, fun m' hm' => ?_⟩
    rw [hm] at hm'
    exact Except.ok.inj hm' ▸ hnot
  have hsub : a.Unmet (seen.insert m) q ⊆ a.Unmet seen p \ {p} := by
    rintro x ⟨hx, hmet⟩
    refine ⟨⟨.head hq hx, fun m' hm' hmem => ?_⟩, ?_⟩
    · exact hmet m' hm' (SeenGroups.mem_insert_of_mem hmem)
    · rintro rfl
      exact hmet m hm (SeenGroups.mem_insert_self ..)
  have hcard : (a.Unmet seen p \ {p}).encard + 1 ≤ n + 1 := by
    rw [Set.encard_sdiff_singleton_add_one hp]
    exact_mod_cast hn
  have hle := Set.encard_le_encard hsub
  exact hle.trans ((ENat.add_le_add_iff_right ENat.one_ne_top).mp hcard)

/-- A list of principals bounds the number of those that are all on it. -/
theorem encard_le_length {principals : Set Principal} {l : List Principal}
    (h : ∀ x ∈ principals, x ∈ l) : principals.encard ≤ l.length := by
  have hsub : principals ⊆ (l.toFinset : Set Principal) := by
    rw [List.coe_toFinset]
    exact h
  refine (Set.encard_le_encard hsub).trans ?_
  rw [Set.encard_coe_eq_coe_finsetCard]
  exact_mod_cast l.toFinset_card_le

/-- A list of principals that has all their parents bounds the number within reach. -/
theorem encard_reach_le {l : List Principal} (hp : p ∈ l)
    (hl : ∀ x ∈ l, ∀ y ∈ a.parents x, y ∈ l) :
    {q | ReflTransGen a.Parent p q}.encard ≤ l.length := by
  apply encard_le_length
  intro q hq
  induction hq with
  | refl => exact hp
  | tail _ hstep ih => exact hl _ ih _ (mem_parents.mpr hstep)

/-- Where everything expanded is closed, all that lies on from what is handled is handled. -/
theorem Handled.of_climbs (h : a.Handled s now seen p)
    (hc : ∀ m ∈ seen, a.Closed s now seen m) (hq : ReflTransGen (a.Climb s now) p q) :
    a.Handled s now seen q := by
  induction hq with
  | refl => exact h
  | tail _ hstep ih =>
      obtain ⟨hs, m, groups, g, hm, hgroups, hmem, hx⟩ := hstep
      exact hc m (ih.2 hs m hm) groups g _ hgroups hmem hx

theorem Handled.not_path (h : a.Handled s now seen p)
    (hc : ∀ m ∈ seen, a.Closed s now seen m) : ¬ a.Path s now p := by
  rintro ⟨q, hq, hg⟩
  exact (h.of_climbs hc hq).1 hg

end Answers

/-! ### What a search without a yes leaves -/

namespace Run

/-- A read about this scope finds a no only about what is handled. -/
def Trusts (a : Answers) (s : Scope) (now : Instant) (r : Run σ) : Prop :=
  r.Upholds (OnNo fun key => ∀ p, key = s.key p → a.Handled s now r.seen p)

/-- From one run to the other members were expanded, all of which are closed, and reads still
find a no only about what is handled. -/
structure Explored (a : Answers) (s : Scope) (now : Instant) (r r' : Run σ) : Prop where
  kept : ∀ m ∈ r.seen, m ∈ r'.seen
  closed : ∀ m ∈ r'.seen, m ∉ r.seen → a.Closed s now r'.seen m
  trusts : r'.Trusts a s now

variable {s : Scope} {r r' r'' : Run σ}

theorem Trusts.of_upholds {seen : SeenGroups}
    (h : r.Upholds (OnNo fun key => ∀ p, key = s.key p → a.Handled s now seen p))
    (hsub : ∀ m ∈ seen, m ∈ r.seen) : r.Trusts a s now :=
  h.imp fun _ _ hk hno p hp => (hk hno p hp).mono hsub

theorem Explored.of_seen_eq (hs : r'.seen = r.seen) (h : r'.Trusts a s now) :
    Explored a s now r r' where
  kept _ hm := hs ▸ hm
  closed _ hm hnot := absurd (hs ▸ hm) hnot
  trusts := h

theorem Explored.trans (h : Explored a s now r r') (h' : Explored a s now r' r'') :
    Explored a s now r r'' where
  kept m hm := h'.kept m (h.kept m hm)
  closed m hm hnot := by
    by_cases hmem : m ∈ r'.seen
    · exact (h.closed m hmem hnot).mono h'.kept
    · exact h'.closed m hm hmem
  trusts := h'.trusts

/-- Expanding one more member, whose groups turn out to be closed. -/
theorem Explored.of_insert {m : GroupMember} (hs : r'.seen = r.seen.insert m)
    (h : Explored a s now r' r'') (hc : a.Closed s now r''.seen m) :
    Explored a s now r r'' where
  kept n hn := by
    have hn' : n ∈ r'.seen := by
      rw [hs]
      exact SeenGroups.mem_insert_of_mem hn
    exact h.kept n hn'
  closed n hn hnot := by
    by_cases hmem : n ∈ r'.seen
    · rw [hs, SeenGroups.mem_insert] at hmem
      rcases hmem with rfl | hmem
      · exact hc
      · exact absurd hmem hnot
    · exact h.closed n hn hmem
  trusts := h.trusts

theorem Trusts.writeCache {p : Principal} {allowed : Bool} (h : r.Trusts a s now)
    (hp : allowed = false → a.Handled s now r.seen p) :
    (r.writeCache (s.key p) allowed).Trusts a s now := by
  refine .of_upholds (Upholds.writeCache h fun hno q hq => ?_) (by simp)
  exact s.key_injective hq ▸ hp hno

end Run

namespace Search

variable {s : Search σ} {p : Principal} {m g : GroupMember} {r : Run σ}

/-! ### The search from a cold cache -/

theorem trusts_looked (h : r.Trusts a s.scope now) : (s.looked p r).Trusts a s.scope now :=
  upholds_looked h

theorem trusts_named (h : r.Trusts a s.scope now) : (s.named p r).Trusts a s.scope now :=
  upholds_named h

theorem trusts_expanded (h : r.Trusts a s.scope now) : (s.expanded p m r).Trusts a s.scope now :=
  .of_upholds (upholds_expanded h) fun _ hm => SeenGroups.mem_insert_of_mem hm

theorem trusts_missed (h : r.Trusts a s.scope now) : (s.missed p r).Trusts a s.scope now :=
  .of_upholds (upholds_missed h) (by simp)

theorem trusts_addressed (h : r.Trusts a s.scope now) :
    (s.addressed r g).Trusts a s.scope now :=
  upholds_addressed h

theorem explored_missed (h : r.Trusts a s.scope now) :
    Run.Explored a s.scope now r (s.missed p r) :=
  .of_seen_eq (by simp) (trusts_missed h)

theorem explored_addressed (h : r.Trusts a s.scope now) :
    Run.Explored a s.scope now r (s.addressed r g) :=
  .of_seen_eq rfl (trusts_addressed h)

theorem explored_count (o : Occurrence) (h : r.Trusts a s.scope now) :
    Run.Explored a s.scope now r (r.count o) :=
  .of_seen_eq rfl h

theorem explored_passedOver (outcome : Except Error Bool) (h : r.Trusts a s.scope now) :
    Run.Explored a s.scope now r (passedOver outcome r) := by
  cases outcome with
  | error e => exact explored_count _ h
  | ok granted => exact .of_seen_eq rfl h

/-- With a step for each principal that is left to meet, what a search does not answer with a
yes it has handled. -/
theorem SteadyCases.complete {s : Search σ} :
    s.SteadyCases a now
      (fun n p r out => r.Trusts a s.scope now → (a.Unmet r.seen p).encard ≤ n →
        out.1 ≠ .ok true →
          Run.Explored a s.scope now r out.2 ∧ a.Handled s.scope now out.2.seen p)
      (fun n p r out => r.Trusts a s.scope now → (a.Unmet r.seen p).encard ≤ n →
        out.1 ≠ .ok true →
          Run.Explored a s.scope now r out.2 ∧ a.Handled s.scope now out.2.seen p)
      (fun n gs r out => r.Trusts a s.scope now →
        (∀ g ∈ gs, ∀ q, a (.newPrincipal g) = .ok q → (a.Unmet r.seen q).encard ≤ n) →
        out.1 ≠ true → Run.Explored a s.scope now r out.2 ∧
          ∀ g ∈ gs, ∀ q, a (.newPrincipal g) = .ok q →
            a.Handled s.scope now out.2.seen q) where
  lookUpFails hv hr _ _ := by
    refine ⟨.of_seen_eq rfl (trusts_looked hr), ?_⟩
    exact Answers.handled_of_verdict hv (by simp) (by simp)
  decided hv hr _ hno := by
    refine ⟨.of_seen_eq rfl (trusts_looked hr), ?_⟩
    exact Answers.handled_of_verdict hv (by simpa using hno) (by simp)
  noStepLeft hv hr hu _ := by
    refine ⟨.of_seen_eq rfl (trusts_looked hr), ?_⟩
    exact Answers.handled_of_unmet_eq_empty hv hu
  memberFails hv hm hr _ _ := by
    refine ⟨.of_seen_eq rfl (trusts_named hr), ?_⟩
    exact Answers.handled_of_member hv (by simp [hm])
  metBefore hv hm hmem hr _ _ := by
    refine ⟨.of_seen_eq rfl (trusts_named hr), ?_⟩
    exact Answers.handled_of_named hv hm hmem
  groupsFail {n p r m e} hv hm _ hg hr _ _ := by
    have hclosed : a.Closed s.scope now (s.expanded p m r).seen m := by
      intro groups g q hgroups
      rw [hg] at hgroups
      cases hgroups
    refine ⟨.of_insert (s.expanded_seen p m r) (.of_seen_eq rfl (trusts_expanded hr)) hclosed, ?_⟩
    exact Answers.handled_of_named hv hm (SeenGroups.mem_insert_self ..)
  climbed {n p r m groups out} hv hm hmem hg _ htried hr hu hno := by
    have hless : ∀ g ∈ groups, ∀ q, a (.newPrincipal g) = .ok q →
        (a.Unmet (s.expanded p m r).seen q).encard ≤ n := by
      intro g hgs q hq
      have hparent : a.Parent p q := ⟨m, groups, g, hm, hg, hgs, hq⟩
      exact Answers.encard_unmet_parent hm hmem hparent hu
    obtain ⟨hexp, hall⟩ := htried (trusts_expanded hr) hless (by simpa using hno)
    have hclosed : a.Closed s.scope now out.2.seen m := by
      intro groups' g q hgroups hgs hq
      rw [hg] at hgroups
      cases hgroups
      exact hall g hgs q hq
    refine ⟨.of_insert (s.expanded_seen p m r) hexp hclosed, ?_⟩
    exact Answers.handled_of_named hv hm (hexp.kept m (SeenGroups.mem_insert_self ..))
  noGroupLeft hr _ _ := ⟨.of_seen_eq rfl hr, by simp⟩
  noPrincipal {n g gs r e out} hq _ htried hr hu hno := by
    have hcounted := explored_count (s := s) .branchFailure (trusts_addressed (g := g) hr)
    obtain ⟨hexp, hall⟩ := htried (trusts_addressed hr) (List.forall_mem_cons.mp hu).2 hno
    refine ⟨((explored_addressed hr).trans hcounted).trans hexp, ?_⟩
    rw [List.forall_mem_cons]
    refine ⟨?_, hall⟩
    intro q hq'
    rw [hq] at hq'
    cases hq'
  granted _ _ _ _ _ hno := absurd rfl hno
  refused {n g gs q r r' outcome out} hq _ hcons hne _ htried hr hu hno := by
    obtain ⟨hu, hus⟩ := List.forall_mem_cons.mp hu
    obtain ⟨hexp, hhandled⟩ := hcons (trusts_addressed hr) (hu q hq) hne
    have hpass := explored_passedOver (s := s) outcome hexp.trusts
    have hless : ∀ g ∈ gs, ∀ q, a (.newPrincipal g) = .ok q →
        (a.Unmet (passedOver outcome r').seen q).encard ≤ n := by
      intro g' hg' q' hq'
      have hsub := Answers.unmet_anti (a := a) (p := q') (hexp.trans hpass).kept
      exact (Set.encard_le_encard hsub).trans (hus g' hg' q' hq')
    obtain ⟨hexp', hall⟩ := htried hpass.trusts hless hno
    refine ⟨(((explored_addressed hr).trans hexp).trans hpass).trans hexp', ?_⟩
    rw [List.forall_mem_cons]
    refine ⟨?_, hall⟩
    intro q' hq'
    rw [hq] at hq'
    cases hq'
    exact hhandled.mono (hpass.trans hexp').kept
  hit {n p r granted} hk hr _ hno := by
    have hseen : ((r.readCache (s.scope.key p)).2.count .cacheHit).seen = r.seen :=
      r.readCache_seen _
    have htrusts : ((r.readCache (s.scope.key p)).2.count .cacheHit).Trusts a s.scope now :=
      .of_upholds ((Run.Upholds.readCache hr _).count _) (by simp)
    refine ⟨.of_seen_eq hseen htrusts, ?_⟩
    rw [hseen]
    exact hr _ _ hk (by simpa using hno) p rfl
  computed {n p r granted r'} _ _ hv hr hu hno := by
    obtain ⟨hexp, hhandled⟩ := hv (trusts_missed hr) (by simpa using hu) hno
    have hwrite : Run.Explored a s.scope now r' (r'.writeCache (s.scope.key p) granted) :=
      .of_seen_eq (by simp) (hexp.trusts.writeCache fun _ => hhandled)
    refine ⟨((explored_missed hr).trans hexp).trans hwrite, ?_⟩
    rw [Run.writeCache_seen]
    exact hhandled
  notComputed {n p r e r'} _ _ hv hr hu hno := by
    obtain ⟨hexp, hhandled⟩ := hv (trusts_missed hr) (by simpa using hu) hno
    exact ⟨(explored_missed hr).trans hexp, hhandled⟩

/-- A search from a cold cache, with no member expanded and a step for each principal within
reach, answers yes exactly if there is an unblocked path. It can only overrun if what it writes
outlives the clock. -/
theorem run_eq_ok_true_iff {st : σ} (hs : s.service.Still st a) (hst : r.state = st)
    (hcold : ∀ q allowed, ¬ r.Knows (s.scope.key q) allowed)
    (hlimit : {q | ReflTransGen a.Parent p q}.encard ≤ s.limit) :
    ((s.run .empty p r).1 = .ok true ↔ a.Path s.scope r.clock.wall p) ∧
      (r.cache.outlivesClock r.clock.elapsed = false →
        (s.run .empty p r).2.overrun = r.overrun) := by
  have hreach := s.run_reaches .empty p r
  have hcold' : ∀ key allowed, (r.beginSearch (s.scope.key p) .empty).Knows key allowed →
      ∀ q, key ≠ s.scope.key q := by
    rintro key allowed hk q rfl
    exact hcold q allowed hk
  have hsteady : Run.Steady st a r.clock.wall (r.beginSearch (s.scope.key p) .empty)
      (s.run .empty p r).2 :=
    .of_still hs (s.cached_reaches s.limit p _) hst
  refine ⟨⟨fun hyes => ?_, fun hpath => ?_⟩, fun hc => hreach.overrun_eq hs hst hc⟩
  · let Q : DecisionKey → Prop := fun key => ∀ q, key = s.scope.key q →
      a.Path s.scope r.clock.wall q
    have hQ : ∀ q, Q (s.scope.key q) ↔ a.Path s.scope r.clock.wall q :=
      fun q => ⟨fun h => h q rfl, fun h x hx => s.scope.key_injective hx ▸ h⟩
    have hsound := ((SteadyCases.sound hQ).cases hs.1).cached s.limit p _ hsteady
    exact (hsound fun key allowed hk _ q hq => absurd hq (hcold' key allowed hk q)).2 hyes
  · by_contra hno
    have hcomplete := (SteadyCases.complete.cases hs.1).cached s.limit p _ hsteady
    obtain ⟨hexp, hhandled⟩ := hcomplete
      (fun key allowed hk _ q hq => absurd hq (hcold' key allowed hk q))
      ((Set.encard_le_encard fun q hq => hq.1).trans hlimit) hno
    exact hhandled.not_path
      (fun m hm => hexp.closed m hm (SeenGroups.not_mem_empty m)) hpath

/-- A person below a cycle of two groups, one of which is in a third group with a grant. -/
def cyclicDirectory : StagedDirectory where
  directory := (((({} : Directory).addMembership ⟨.person, "alice"⟩ "a").addMembership
    ⟨.group, "a"⟩ "b").addMembership ⟨.group, "b"⟩ "a").addMembership ⟨.group, "b"⟩ "c"
    |>.addPermission (.assign ⟨.group, "c"⟩ "O" "ACT" "T" .grant)

/-- A search from the person with room for one decision. -/
def cyclicRun : Run StagedDirectory where
  state := cyclicDirectory
  clock := .startingAt 0 0
  cache := .timed { ttl := 60, capacity := 1 }

/-- Four steps find the grant off the cycle. -/
theorem run_eq_ok_true_iff_off_cycle :
    let s : Search StagedDirectory := ⟨StagedDirectory.service, ⟨"O", "ACT", some "T"⟩, 4⟩
    (s.run .empty ⟨.person, "alice"⟩ cyclicRun).1 = .ok true ∧
      cyclicDirectory.answers.Path s.scope cyclicRun.clock.wall ⟨.person, "alice"⟩ := by
  intro s
  have hyes : (s.run .empty ⟨.person, "alice"⟩ cyclicRun).1 = .ok true := by decide +kernel
  refine ⟨hyes, (run_eq_ok_true_iff (StagedDirectory.still rfl) rfl ?_ ?_).1.mp hyes⟩
  · intro q allowed h
    cases h
  · refine Answers.encard_reach_le
      (l := [⟨.person, "alice"⟩, ⟨.group, "a"⟩, ⟨.group, "b"⟩, ⟨.group, "c"⟩]) ?_ ?_
    · decide
    · decide

end Search

end GrantPath
