import GrantPath.Proofs.Overruns
import GrantPath.Proofs.Transparency

/-! # Queries from an empty cache

A query from an empty cache is answered as it is permitted, whatever cycles there are, as long
as a chain may follow a membership for each principal in the graph
(`Policy.hasPermission_iff_of_empty`).

The searches for a query and for its generalizations share the cache, and the decisions that one
of them leaves may be wrong for the next. What saves the query is that it goes on only while
every search for its principal has said no. So what a read finds is `Answers.Vain`: it is about
a scope in which the principal has no path. A search in a scope in which it has one begins cold.

`Policy.hasPermission_overrun` says when a query does not overrun. -/

namespace GrantPath

open Relation

variable {σ : Type} {a : Answers} {now : Instant}

namespace Answers

section definitions

variable (a : Answers) (now : Instant)

/-- The principals in the membership graph: those that have a parent or are one. -/
def Linked : Set Principal :=
  {p | ∃ q, a.Parent p q ∨ a.Parent q p}

/-- The decision is about a scope in which `p` has no path, and if it says yes there is one for
what it is the decision on. -/
def Vain (p : Principal) (key : DecisionKey) (allowed : Bool) : Prop :=
  (∃ s q, key = Scope.key s q ∧ ¬ a.Path s now p) ∧
    (allowed = true → ∃ s q, key = Scope.key s q ∧ a.Path s now q)

end definitions

variable {s : Scope} {p q : Principal}

theorem reach_subset_linked (h : p ∈ a.Linked) :
    {q | ReflTransGen a.Parent p q} ⊆ a.Linked := by
  intro q hq
  rcases hq.cases_tail with rfl | ⟨x, -, hx⟩
  · exact h
  · exact ⟨x, .inr hx⟩

/-- Outside of the graph a path needs a grant of the principal itself. -/
theorem Path.granted_of_not_linked (h : a.Path s now p) (hp : p ∉ a.Linked) :
    a.Granted s now p := by
  rcases path_iff.mp h with hg | ⟨-, q, hq, -⟩
  · exact hg
  · exact absurd ⟨q, .inl hq⟩ hp

/-- A list that has all parents and all principals with parents bounds the graph. -/
theorem encard_linked_le {l : List Principal} (hl : ∀ p q, a.Parent p q → p ∈ l ∧ q ∈ l) :
    a.Linked.encard ≤ l.length := by
  apply encard_le_length
  rintro p ⟨q, hq | hq⟩
  · exact (hl p q hq).1
  · exact (hl q p hq).2

end Answers

namespace Search

variable {s : Search σ} {st : σ} {p : Principal} {r : Run σ}

/-! ### Searches keep what holds of their scope -/

/-- A search writes decisions of its scope only. -/
theorem Cases.scoped {P : DecisionKey → Bool → Prop}
    (hP : ∀ q allowed, P (s.scope.key q) allowed) :
    s.Cases (fun _ _ r out => r.Upholds P → out.2.Upholds P)
      (fun _ _ r out => r.Upholds P → out.2.Upholds P)
      (fun _ _ r out => r.Upholds P → out.2.Upholds P) where
  lookUpFails _ := upholds_looked
  decided _ := upholds_looked
  noStepLeft _ := upholds_looked
  memberFails _ _ := upholds_named
  metBefore _ _ _ hr := (upholds_named hr).count _
  groupsFail _ _ _ _ := upholds_expanded
  climbed _ _ _ _ _ htried hr := htried (upholds_expanded hr)
  noGroupLeft hr := hr
  noPrincipal _ _ htried hr := htried ((upholds_addressed hr).count _)
  granted _ _ hcons hr := hcons (upholds_addressed hr)
  refused _ _ hcons _ _ htried hr := htried (upholds_passedOver (hcons (upholds_addressed hr)) _)
  hit _ hr := (hr.readCache _).count _
  computed _ _ hv hr := (hv (upholds_missed hr)).writeCache (hP _ _)
  notComputed _ _ hv hr := hv (upholds_missed hr)

theorem run_scoped {P : DecisionKey → Bool → Prop} (hP : ∀ q allowed, P (s.scope.key q) allowed)
    (seen : SeenGroups) (hr : r.Upholds P) : (s.run seen p r).2.Upholds P :=
  (Cases.scoped hP).cached s.limit p _ hr

/-! ### Searches for one principal -/

/-- A principal that is granted by itself is answered yes unless a read finds a decision, however
few steps are left. -/
theorem SteadyCases.yes_of_granted :
    s.SteadyCases a now (fun _ p _ out => a.Granted s.scope now p → out.1 = .ok true)
      (fun _ p r out => a.Granted s.scope now p →
        (∀ allowed, ¬ r.Knows (s.scope.key p) allowed) → out.1 = .ok true)
      (fun _ _ _ _ => True) where
  lookUpFails hv hg := by
    rw [Answers.granted_iff, hv] at hg
    cases hg
  decided hv hg := by
    rw [Answers.granted_iff, hv] at hg
    rw [Option.some.inj (Except.ok.inj hg)]
  noStepLeft hv hg := absurd hg (Answers.not_granted_of_none hv)
  memberFails hv _ hg := absurd hg (Answers.not_granted_of_none hv)
  metBefore hv _ _ hg := absurd hg (Answers.not_granted_of_none hv)
  groupsFail hv _ _ _ hg := absurd hg (Answers.not_granted_of_none hv)
  climbed hv _ _ _ _ _ hg := absurd hg (Answers.not_granted_of_none hv)
  noGroupLeft := True.intro
  noPrincipal _ _ _ := True.intro
  granted _ _ _ := True.intro
  refused _ _ _ _ _ _ := True.intro
  hit hk _ hcold := absurd hk (hcold _)
  computed _ _ hv hg _ := hv hg
  notComputed _ _ hv hg _ := hv hg

section steady

variable (hs : s.service.Settled st a) (ht : Run.Steady st a now r (s.run .empty p r).2)

include hs ht

/-- From a cold cache a path is found if a chain may follow a membership for each principal in
the graph. -/
theorem run_eq_true_of_path (hcold : ∀ q allowed, ¬ r.Knows (s.scope.key q) allowed)
    (hlimit : a.Linked.encard ≤ s.limit) (hpath : a.Path s.scope now p) :
    (s.run .empty p r).1 = .ok true := by
  by_cases hp : p ∈ a.Linked
  · by_contra hno
    have hreach : {q | ReflTransGen a.Parent p q}.encard ≤ s.limit :=
      (Set.encard_le_encard (Answers.reach_subset_linked hp)).trans hlimit
    have hunmet : (a.Unmet .empty p).encard ≤ s.limit :=
      (Set.encard_le_encard fun q hq => hq.1).trans hreach
    have htrusts : (r.beginSearch (s.scope.key p) .empty).Trusts a s.scope now := by
      rintro key allowed hk - q rfl
      exact absurd hk (hcold q allowed)
    obtain ⟨hexplored, hhandled⟩ :=
      SteadyCases.complete.run hs ht htrusts hunmet hno
    have hclosed : ∀ m ∈ (s.run .empty p r).2.seen,
        a.Closed s.scope now (s.run .empty p r).2.seen m :=
      fun m hm => hexplored.closed m hm (SeenGroups.not_mem_empty m)
    exact hhandled.not_path hclosed hpath
  · have hgranted := hpath.granted_of_not_linked hp
    exact SteadyCases.yes_of_granted.run hs ht hgranted (hcold p)

/-- A search that reads only vain decisions says yes only if there is a path, and leaves only vain
decisions if there is none. -/
theorem run_vain (hk : a.Keyed) (hr : r.Upholds (a.Vain now p)) :
    ((s.run .empty p r).1 = .ok true → a.Path s.scope now p) ∧
      (¬ a.Path s.scope now p → (s.run .empty p r).2.Upholds (a.Vain now p)) := by
  have hkey := exists_key_iff (P := fun s p => a.Path s now p)
    (fun _ _ _ ha => (hk.path_iff ha).mp) s.scope
  have hyes : (r.beginSearch (s.scope.key p) .empty).Upholds
      (OnYes fun key => ∃ s q, key = Scope.key s q ∧ a.Path s now q) :=
    fun key allowed hknows hallowed => (hr key allowed hknows).2 hallowed
  obtain ⟨hyes', hpath⟩ := (SteadyCases.sound hkey).run hs ht hyes
  refine ⟨hpath, ?_⟩
  intro hno
  have hscope : (s.run .empty p r).2.Upholds
      fun key _ => ∃ s q, key = Scope.key s q ∧ ¬ a.Path s now p :=
    run_scoped (fun q _ => ⟨s.scope, q, rfl, hno⟩) .empty
      (hr.imp fun key allowed h => h.1)
  exact fun key allowed hknows => ⟨hscope key allowed hknows, hyes' key allowed hknows⟩

end steady

end Search

namespace Policy

variable {policy : Policy} {svc : Service σ} {st : σ} {r r' : Run σ} {q : Query}

/-! ### Queries -/

/-- Where only vain decisions are read, searches tell whether there is a path. -/
theorem tells_vain (hs : svc.Settled st a) (hk : a.Keyed)
    (hlimit : a.Linked.encard ≤ policy.maxDepth) (p : Principal) :
    policy.Tells svc st a now (a.Vain now p) p := by
  rintro q r rfl ht hr
  have hsearch := Search.run_vain (s := policy.search svc q) hs ht hk hr
  have hfound : a.Path q.scope now q.principal →
      ((policy.search svc q).run .empty q.principal r).1 = .ok true := by
    intro hpath
    apply Search.run_eq_true_of_path (s := policy.search svc q) hs ht ?_ hlimit hpath
    intro x allowed hknows
    obtain ⟨⟨s, y, hkey, hno⟩, -⟩ := hr _ _ hknows
    obtain ⟨-, halike⟩ := Scope.key_eq_key_iff.mp hkey
    exact hno ((hk.path_iff halike).mp hpath)
  refine ⟨⟨hsearch.1, hfound⟩, ?_⟩
  intro hno
  exact hsearch.2 fun hpath => hno (hfound hpath)

/-- From an empty cache a query is answered as it is permitted. -/
theorem hasPermission_iff_of_empty (hs : svc.Settled st a) (hk : a.Keyed)
    (hlimit : a.Linked.encard ≤ policy.maxDepth) (hempty : r.cache.size = 0)
    (ht : Run.Steady st a now r (policy.hasPermission svc q r).2) :
    (policy.hasPermission svc q r).1 = true ↔ policy.Permits a now generalizationDepth q :=
  (tells_vain hs hk hlimit q.principal).hasPermission_iff hs ht (Run.upholds_of_empty hempty)

/-! ### Queries while the clocks stand still -/

/-- While a service is still the clocks stand throughout the moves of the policy. -/
theorem Moves.clock_eq (hs : svc.Still st a) (h : policy.Moves svc r r') (hst : r.state = st) :
    r'.clock = r.clock ∧ Run.Throughout (fun e => e.clock = r.clock) r r' := by
  induction h with
  | refl => exact ⟨rfl, .refl r⟩
  | @tail m r' hm h ih =>
      obtain ⟨hclock, hall⟩ := ih
      rcases h.reaches with h | ⟨capacity, rfl⟩
      · have hst' : m.state = st := Moves.state_eq hs.1 hm hst
        have hlast := h.throughout_clock hs hst'
        rw [hclock] at hlast
        exact ⟨(h.clock_eq hs hst').trans hclock, hall.trans hlast⟩
      · exact ⟨hclock, hall⟩

theorem Moves.steady_of_still (hs : svc.Still st a) (h : policy.Moves svc r r')
    (hst : r.state = st) : Run.Steady st a r.clock.wall r r' := by
  refine ⟨hst, (Moves.clock_eq hs h hst).2.imp ?_⟩
  intro e he
  rw [he]
  exact .refl _

theorem hasPermission_steady (hs : svc.Still st a) (hst : r.state = st) :
    Run.Steady st a r.clock.wall r (policy.hasPermission svc q r).2 :=
  Moves.steady_of_still hs (hasPermission_moves q r) hst

/-- While a service is still a query does not overrun if what it writes expires at an instant that
the clock can show and there is room for the members that a search expects. -/
theorem hasPermission_overrun (hs : svc.Still st a) (hst : r.state = st)
    (hc : r.cache.outlivesClock r.clock.elapsed = false)
    (hcapacity : policy.seenCapacity ≤ SeenGroups.maxCapacity) :
    (policy.hasPermission svc q r).2.overrun = r.overrun := by
  have hclock : Run.Throughout (fun e => e.clock = r.clock) r (policy.hasPermission svc q r).2 :=
    (Moves.clock_eq hs (hasPermission_moves q r) hst).2
  apply (hasPermission_affords q r).carriedOut hcapacity
  apply hclock.imp
  intro e he
  apply Event.shown_of
  rw [he]
  exact hc

end Policy

end GrantPath
