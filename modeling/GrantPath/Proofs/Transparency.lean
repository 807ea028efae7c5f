import GrantPath.Proofs.Acyclic
import GrantPath.Proofs.Generalizations

/-! # The cache is invisible in hierarchies without cycles

While things are steady and no chain of parents is as long as the limit, what the policy
answers can be said without a cache: a query is permitted (`Policy.Permits`) if a
generalization of it is, or if there is an unblocked path for it.

* Every move of the policy keeps the cache right (`Policy.Moves.right`), and from a run with a
  right cache every query is answered as it is permitted (`Policy.hasPermission_iff_permits`).
* So in a session with a directory all live decisions are right, and every query is answered as
  it would be with an empty cache (`Session.cache_invisible`), whatever cache there is and
  whatever was forgotten in between. -/

namespace GrantPath

open Relation

variable {σ : Type}

namespace Policy

variable {policy : Policy} {svc : Service σ} {st : σ} {a : Answers} {now : Instant}
  {r r' m : Run σ} {q : Query}

/-! ### Moves keep the cache right -/

theorem Moves.split (hs : svc.Settled st a) (h₁ : policy.Moves svc r m)
    (h₂ : policy.Moves svc m r') (ht : Run.Steady st a now r r') :
    Run.Steady st a now r m ∧ Run.Steady st a now m r' :=
  ht.split_of (Moves.passes h₁) (Moves.state_eq hs h₁ ht.1) (Moves.passes h₂)

section right

variable (hs : svc.Settled st a) (hk : a.Keyed) (hlow : ∀ p, ¬ a.Tall policy.maxDepth p)

include hs hk hlow

theorem Move.right (h : policy.Move svc r r') (ht : Run.Steady st a now r r')
    (hr : r.Upholds (a.Right now)) : r'.Upholds (a.Right now) := by
  have helapsed := h.passes.elapsed
  cases h with
  | ask q r => exact hr.of_within (.refl _) helapsed
  | count o r => exact hr
  | setAside capacity r => exact hr
  | search q r => exact (Search.run_right hs hk hlow ht hr).1
  | refresh q r =>
      have hreach := (policy.search svc q).runAnew_reaches .empty q.principal r
      have hright : Run.Steady st a now r ((policy.search svc q).runAnew .empty q.principal r).2 →
          _ := fun ht => Search.runAnew_right hs hk hlow ht hr
      rcases r.forceRefresh_cases q.key ((policy.search svc q).runAnew .empty q.principal) with
        ⟨e, r₁, hout, hafter⟩ | ⟨granted, r₁, hout, hafter⟩
      · rw [hout] at hright
        rw [hafter] at ht ⊢
        exact (hright ht).1
      · rw [hout] at hreach hright
        rw [hafter] at ht ⊢
        obtain ⟨hbefore, -⟩ := ht.split hs hreach (r₁.prewarm_reaches q.key granted)
        obtain ⟨hr₁, hyes⟩ := hright hbefore
        have hkey : a.Right now q.key granted :=
          ⟨(policy.search svc q).scope, q.principal, rfl, by simpa using hyes⟩
        exact (hr₁.writeCache hkey).count _

theorem Moves.right (h : policy.Moves svc r r') (ht : Run.Steady st a now r r')
    (hr : r.Upholds (a.Right now)) : r'.Upholds (a.Right now) := by
  induction h with
  | refl => exact hr
  | @tail m r' hm h ih =>
      obtain ⟨hl, hlast⟩ := Moves.split hs hm (.single h) ht
      exact h.right hs hk hlow hlast (ih hl)

end right

/-! ### What is answered is what is permitted -/

/-- A search for the principal that begins where `P` is upheld tells whether there is a path, and
if it does not say yes it leaves `P` upheld. -/
def Tells (policy : Policy) (svc : Service σ) (st : σ) (a : Answers) (now : Instant)
    (P : DecisionKey → Bool → Prop) (p : Principal) : Prop :=
  ∀ (q : Query) (r : Run σ), q.principal = p →
    Run.Steady st a now r ((policy.search svc q).run .empty q.principal r).2 → r.Upholds P →
      (((policy.search svc q).run .empty q.principal r).1 = .ok true ↔
        a.Path q.scope now q.principal) ∧
      (((policy.search svc q).run .empty q.principal r).1 ≠ .ok true →
        ((policy.search svc q).run .empty q.principal r).2.Upholds P)

section told

variable {P : DecisionKey → Bool → Prop} {p : Principal}

theorem Asks.upholds (h : Asks svc r r') (hr : r.Upholds P) : r'.Upholds P := by
  induction h with
  | refl => exact hr
  | tail _ h ih =>
      obtain ⟨request, rfl⟩ := h
      exact ih.of_within (.refl _) (Run.Act.ask request _).elapsed_le

theorem Tells.told (htells : policy.Tells svc st a now P p) (hs : svc.Settled st a) :
    policy.Told svc st p (Run.Steady st a now) (·.Upholds P) (fun _ => True)
      fun q => a.Path q.scope now q.principal where
  state ht := ht.1
  split ht h₁ h₂ := Moves.split hs (QueryMoves.moves h₁) (QueryMoves.moves h₂) ht
  asks hr h := h.upholds hr
  setAside _ hr := hr
  count _ _ := True.intro
  search hp ht hr := by
    obtain ⟨hiff, hupholds⟩ := htells _ _ hp ht hr
    exact ⟨hiff, hupholds, fun _ => True.intro⟩

/-- Where searches tell whether there is a path, queries are answered as they are permitted. -/
theorem Tells.hasPermission_iff (htells : policy.Tells svc st a now P q.principal)
    (hs : svc.Settled st a) (ht : Run.Steady st a now r (policy.hasPermission svc q r).2)
    (hr : r.Upholds P) :
    (policy.hasPermission svc q r).1 = true ↔ policy.Permits a now generalizationDepth q := by
  rw [permits_iff_grants]
  exact (htells.told hs).hasPermission_iff hs rfl ht hr

end told

/-- Without cycles searches tell whether there is a path, and keep the cache right. -/
theorem tells_right (hs : svc.Settled st a) (hk : a.Keyed)
    (hlow : ∀ p, ¬ a.Tall policy.maxDepth p) (p : Principal) :
    policy.Tells svc st a now (a.Right now) p := by
  intro q r _ ht hr
  obtain ⟨hright, hfound⟩ := Search.run_right (s := policy.search svc q) (p := q.principal) hs hk
    hlow ht hr
  exact ⟨hfound, fun _ => hright⟩

theorem hasPermission_iff_permits (hs : svc.Settled st a) (hk : a.Keyed)
    (hlow : ∀ p, ¬ a.Tall policy.maxDepth p)
    (ht : Run.Steady st a now r (policy.hasPermission svc q r).2)
    (hr : r.Upholds (a.Right now)) :
    (policy.hasPermission svc q r).1 = true ↔ policy.Permits a now generalizationDepth q :=
  (tells_right hs hk hlow q.principal).hasPermission_iff hs ht hr

end Policy

/-! ### Sessions -/

/-- Whether the step lets collaborators be and leaves searching and writing to the policy. -/
def Step.isOrdinary : Step σ → Bool
  | .alter _ | .search _ => false
  | step => !step.writesDirectly

namespace Session

variable {policy : Policy} {svc : Service σ} {st : σ} {a : Answers} {now : Instant}
  {step : Step σ} {r r' : Run σ}

/-- An ordinary step makes moves, reads, or lapses. -/
theorem Happens.of_ordinary (h : Happens policy svc step r r') (ho : step.isOrdinary = true) :
    policy.Moves svc r r' ∨ (∃ key, r' = (r.readCache key).2) ∨
      r'.state = r.state ∧ r'.cache.Within r.cache ∧ r.clock.elapsed ≤ r'.clock.elapsed := by
  cases h with
  | moved h => exact .inl h
  | searched m r => cases ho
  | read key r => exact .inr (.inl ⟨key, rfl⟩)
  | altered change r => cases ho
  | lapsed hst hc ht _ => exact .inr (.inr ⟨hst, hc, ht⟩)
  | written hw _ =>
      cases step with
      | cache command => simp [Step.isOrdinary, hw] at ho
      | _ => cases hw

theorem Happens.right (hs : svc.Settled st a) (hk : a.Keyed)
    (hlow : ∀ p, ¬ a.Tall policy.maxDepth p) (h : Happens policy svc step r r')
    (ho : step.isOrdinary = true) (ht : Run.Steady st a now r r')
    (hr : r.Upholds (a.Right now)) : r'.Upholds (a.Right now) := by
  rcases h.of_ordinary ho with hm | ⟨key, rfl⟩ | ⟨-, hc, he⟩
  · exact Policy.Moves.right hs hk hlow hm ht hr
  · exact hr.readCache key
  · exact hr.of_within hc he

theorem Happens.state_eq (hs : svc.Settled st a) (h : Happens policy svc step r r')
    (ho : step.isOrdinary = true) (hst : r.state = st) : r'.state = st := by
  rcases h.of_ordinary ho with hm | ⟨key, rfl⟩ | ⟨he, -, -⟩
  · exact Policy.Moves.state_eq hs hm hst
  · rw [Run.readCache_state, hst]
  · rw [he, hst]

theorem steps_state_eq {s : Session σ} (hs : s.service.Settled st a) {steps : List (Step σ)}
    (hsteps : ∀ step ∈ steps, step.isOrdinary = true) (hst : s.run.state = st) :
    (s.steps steps).run.state = st := by
  induction steps generalizing s with
  | nil => exact hst
  | cons step steps ih =>
      obtain ⟨hstep, hrest⟩ := List.forall_mem_cons.mp hsteps
      have hs' : (s.step step).2.service.Settled st a := by rwa [step_service]
      exact ih hs' hrest ((s.step_happens step).state_eq hs hstep hst)

theorem steps_right {s : Session σ} (hs : s.service.Settled st a) (hk : a.Keyed)
    (hlow : ∀ p, ¬ a.Tall s.policy.maxDepth p) {steps : List (Step σ)}
    (hsteps : ∀ step ∈ steps, step.isOrdinary = true)
    (ht : Run.Steady st a now s.run (s.steps steps).run) (hr : s.run.Upholds (a.Right now)) :
    (s.steps steps).run.Upholds (a.Right now) := by
  induction steps generalizing s with
  | nil => exact hr
  | cons step steps ih =>
      obtain ⟨hstep, hrest⟩ := List.forall_mem_cons.mp hsteps
      have hs' : (s.step step).2.service.Settled st a := by rwa [step_service]
      have hlow' : ∀ p, ¬ a.Tall (s.step step).2.policy.maxDepth p := by rwa [step_policy]
      obtain ⟨hl, hlast⟩ := ht.split_of (s.step_passes step)
        ((s.step_happens step).state_eq hs hstep ht.1) ((s.step step).2.steps_passes steps)
      exact ih hs' hlow' hrest hlast ((s.step_happens step).right hs hk hlow hstep hl hr)

theorem upholds_right_of_empty {r : Run σ} (h : r.cache.size = 0) : r.Upholds (a.Right now) :=
  Run.upholds_of_empty h

/-- In a session with a directory that does not change, and in which no chain of parents is as
long as the limit and the records in force stay the same, every live decision tells whether
there is an unblocked path, and every query is answered as it would be with an empty cache. This
holds between any two moves of the policy. It is about the answers of the runs: a machine gives them
as long as the clock can show when decisions expire and there is room (`Policy.check_affords`). -/
theorem cache_invisible {s : Session StagedDirectory} {now : Instant}
    (hservice : s.service = StagedDirectory.service) (hempty : s.run.cache.size = 0)
    (hlow : ∀ p, ¬ s.run.state.answers.Tall s.policy.maxDepth p)
    {steps : List (Step StagedDirectory)} (hsteps : ∀ step ∈ steps, step.isOrdinary = true)
    {r : Run StagedDirectory} (hmoves : s.policy.Moves s.service (s.steps steps).run r)
    (hforce : Run.Throughout (fun e => s.run.state.answers.InForceAlike e.clock.wall now) s.run r) :
    (∀ key allowed, r.Knows key allowed → ∃ scope p, key = Scope.key scope p ∧
      (allowed = true ↔ s.run.state.answers.Path scope now p)) ∧
    ∀ (q : Query) (fresh : Run StagedDirectory), fresh.cache.size = 0 →
      fresh.state = s.run.state →
      Run.Throughout (fun e => s.run.state.answers.InForceAlike e.clock.wall now) r
        (s.policy.hasPermission s.service q r).2 →
      Run.Throughout (fun e => s.run.state.answers.InForceAlike e.clock.wall now) fresh
        (s.policy.hasPermission s.service q fresh).2 →
      (s.policy.hasPermission s.service q r).1 =
        (s.policy.hasPermission s.service q fresh).1 := by
  have hs : s.service.Settled s.run.state s.run.state.answers :=
    hservice ▸ s.run.state.settled
  have hk : s.run.state.answers.Keyed := s.run.state.keyed
  have hst := steps_state_eq hs hsteps rfl
  have hpasses := Policy.Moves.passes hmoves
  have hst' := Policy.Moves.state_eq hs hmoves hst
  have ht : Run.Steady s.run.state s.run.state.answers now s.run r := ⟨rfl, hforce⟩
  obtain ⟨hl, hlast⟩ := ht.split_of (s.steps_passes steps) hst hpasses
  have hright := Policy.Moves.right hs hk hlow hmoves hlast
    (steps_right hs hk hlow hsteps hl (upholds_right_of_empty hempty))
  refine ⟨hright, ?_⟩
  intro q fresh hfresh hfst htq htf
  rw [Bool.eq_iff_iff, Policy.hasPermission_iff_permits hs hk hlow ⟨hst', htq⟩ hright,
    Policy.hasPermission_iff_permits hs hk hlow ⟨hfst, htf⟩ (upholds_right_of_empty hfresh)]

end Session

/-! ### A diamond -/

namespace Session

/-- A person in two groups that are both in a third; one of the two has a grant. -/
def diamondDirectory : StagedDirectory where
  directory := (((({} : Directory).addMembership ⟨.person, "alice"⟩ "a").addMembership
    ⟨.person, "alice"⟩ "b").addMembership ⟨.group, "a"⟩ "c").addMembership ⟨.group, "b"⟩ "c"
    |>.addPermission (.assign ⟨.group, "b"⟩ "O" "ACT" "T" .grant)

/-- How far a principal of the directory is from the top. -/
def diamondRank (p : Principal) : Nat :=
  if p = ⟨.person, "alice"⟩ then 2
  else if p = ⟨.group, "a"⟩ ∨ p = ⟨.group, "b"⟩ then 1
  else 0

theorem diamondRank_lt (p q : Principal) (h : diamondDirectory.answers.Parent p q) :
    diamondRank q < diamondRank p := by
  obtain ⟨keys, hkeys, k, hk, rfl⟩ := StagedDirectory.parent_listed rfl h
  have hall : ∀ e ∈ diamondDirectory.directory.parents.entries, ∀ k ∈ e.2,
      diamondRank ⟨.group, k⟩ < diamondRank (.ofMember e.1) := by decide
  exact hall _ hkeys k hk

theorem diamond_inForceAlike (t t' : Instant) : diamondDirectory.answers.InForceAlike t t' :=
  StagedDirectory.inForceAlike (by decide) t t'

def diamondSession : Session StagedDirectory :=
  .start { cache := { maxEntries := 1 }, policy := { maxTraversalDepth := 3 } }
    StagedDirectory.service diamondDirectory (.startingAt 0 0)

def diamondQuery (p : Principal) : Query :=
  ⟨p, ⟨"O", "Owner"⟩, ⟨"ACT", "Activity", "provider"⟩, some ⟨"T", "Target", .other⟩⟩

/-- With room for one decision only, a query, a wait and a new decision change no answer. -/
theorem cache_invisible_on_diamond :
    let steps : List (Step StagedDirectory) :=
      [.loadInCache (diamondQuery ⟨.person, "alice"⟩), .advance 1000,
        .loadInCache (diamondQuery ⟨.group, "a"⟩)]
    (diamondSession.policy.hasPermission diamondSession.service
      (diamondQuery ⟨.person, "alice"⟩) (diamondSession.steps steps).run).1 =
        (diamondSession.policy.hasPermission diamondSession.service
          (diamondQuery ⟨.person, "alice"⟩) diamondSession.run).1 := by
  intro steps
  have hsteps : ∀ step ∈ steps, step.isOrdinary = true := by decide
  have hlow : ∀ p, ¬ diamondDirectory.answers.Tall 3 p := by
    intro p htall
    have hrank := htall.le_rank diamondRank_lt
    have htop : diamondRank p ≤ 2 := by
      unfold diamondRank
      split
      · omega
      · split <;> omega
    omega
  have hforce : ∀ {r r' : Run StagedDirectory}, r.journal <:+ r'.journal →
      Run.Throughout
        (fun e => diamondDirectory.answers.InForceAlike e.clock.wall (.ofMillis 0)) r r' := by
    intro r r' h
    apply Run.Throughout.of_forall h
    intro e
    exact diamond_inForceAlike _ _
  refine (cache_invisible rfl rfl hlow hsteps .refl
    (hforce (diamondSession.steps_passes steps).journal)).2 _ diamondSession.run rfl rfl ?_ ?_
  · exact hforce (Policy.hasPermission_moves _ _).passes.journal
  · exact hforce (Policy.hasPermission_moves _ _).passes.journal

end Session

end GrantPath
