import GrantPath.Proofs.DirectoryQueries
import GrantPath.Proofs.OnePrincipal

/-! # What the bound on chains cuts off

A search follows at most as many memberships as its limit says, and it expands no member twice.
The two do not go together: a group that is first come to along a long chain is expanded there,
with few steps left, and where a shorter chain comes to it later it is not expanded again. So a
grant within the limit can be missed (`Search.depth_bound_misses_grant`).

What is true is told by the members that a search expands, each with the number of memberships
that were followed to it (`Answers.expansions`).

* Every expanded member is named once, at the end of a chain that is there
  (`Answers.expansions_members`, `Answers.expansions_chain`).
* A yes has a path whose members are expanded along the path itself (`Answers.explore_route`).
* Without a yes the groups of an expanded member are granted nothing, and they are dealt with
  unless the member was expanded at the very last step (`Answers.expansions_cut`).

So a search finds a grant exactly if a path within the limit leads to one on which no principal's
member is expanded at the end of a longer chain (`Search.run_depth_bound`). -/

namespace GrantPath

variable {σ : Type} {a : Answers} {s : Scope} {now : Instant} {limit : Nat}

namespace Answers

/-! ### Paths and expansions -/

section definitions

variable (a : Answers) (s : Scope) (now : Instant) (limit : Nat)

/-- Following `k` memberships, past principals about which no record is in force. -/
def Chain (k : Nat) (x : Nat → Principal) : Prop :=
  ∀ i < k, a.Climb s now (x i) (x (i + 1))

/-- An unblocked path of `k` memberships to a grant. -/
def Route (k : Nat) (x : Nat → Principal) : Prop :=
  a.Chain s now k x ∧ a.Granted s now (x k)

/-- The members expanded where one group is tried after the other, given how trying a group goes
and which members it expands. The latest stands first. -/
def expansionsAny (explore : Exploration)
    (expansions : Principal → Progress → List (GroupMember × Nat)) :
    List GroupMember → Progress → List (GroupMember × Nat)
  | [], _ => []
  | g :: gs, w =>
    match a (.newPrincipal g) with
    | .error _ => expansionsAny explore expansions gs w
    | .ok q =>
      match explore q w with
      | (.ok true, _) => expansions q w
      | (_, w') => expansionsAny explore expansions gs w' ++ expansions q w

/-- The members expanded in exploring a principal with so many steps left, each with the number of
memberships that were followed to it. -/
def expansions : Nat → Nat → Principal → Progress → List (GroupMember × Nat)
  | 0, _, _, _ => []
  | steps + 1, depth, p, w =>
    match a.verdict s now p, a (.groupMember p) with
    | .ok none, .ok m =>
      if m ∈ w.seen then []
      else
        match a (.parentGroups m) with
        | .error _ => [(m, depth)]
        | .ok groups =>
          a.expansionsAny (a.explore s now limit steps) (expansions steps (depth + 1)) groups
            (w.lookUp.expand m) ++ [(m, depth)]
    | _, _ => []

/-- The members that a search from a principal expands where nothing is remembered. -/
def expanded (p : Principal) : List (GroupMember × Nat) :=
  a.expansions s now limit limit 0 p ⟨.empty, 0⟩

/-- What an exploration comes to, and which members it expands at which depth. -/
inductive Expands (p : Principal) (w : Progress) (depth : Nat) :
    Nat → Except Error Bool × Progress → List (GroupMember × Nat) → Prop
  | stays {n : Nat} {out : Except Error Bool × Progress} : out.2.seen = w.seen →
      (out.1 = .ok true → a.Granted s now p) →
      (out.1 ≠ .ok true → ¬ a.Granted s now p ∧ (0 < n → a.Handled s now w.seen p)) →
      Expands p w depth n out []
  | groupsFail {n : Nat} {m : GroupMember} {e : Error} : a.Silent s now p →
      a (.groupMember p) = .ok m → m ∉ w.seen → a (.parentGroups m) = .error e →
      Expands p w depth (n + 1) (.error e, w.lookUp.expand m) [(m, depth)]
  | climbed {n : Nat} {m : GroupMember} {groups : List GroupMember} : a.Silent s now p →
      a (.groupMember p) = .ok m → m ∉ w.seen → a (.parentGroups m) = .ok groups →
      Expands p w depth (n + 1)
        (.ok (a.exploreAny (a.explore s now limit n) groups (w.lookUp.expand m)).1,
          (a.exploreAny (a.explore s now limit n) groups (w.lookUp.expand m)).2)
        (a.expansionsAny (a.explore s now limit n) (a.expansions s now limit n (depth + 1)) groups
          (w.lookUp.expand m) ++ [(m, depth)])

end definitions

variable {p q : Principal} {m g : GroupMember} {gs groups : List GroupMember} {w : Progress}
  {n d : Nat}

theorem expands (n d : Nat) (p : Principal) (w : Progress) :
    a.Expands s now limit p w d n (a.explore s now limit n p w)
      (a.expansions s now limit n d p w) := by
  have hexplores : a.Explores s now limit p w n _ := explores n p w
  generalize a.explore s now limit n p w = out at hexplores ⊢
  cases hexplores with
  | @lookUpFails _ e hv =>
      have hnil : a.expansions s now limit n d p w = [] := by
        cases n <;> simp only [expansions, hv]
      rw [hnil]
      refine .stays rfl nofun fun _ => ?_
      have hhandled : a.Handled s now w.seen p := handled_of_verdict hv (by simp) (by simp)
      exact ⟨hhandled.1, fun _ => hhandled⟩
  | @decided _ granted hv =>
      have hnil : a.expansions s now limit n d p w = [] := by
        cases n <;> simp only [expansions, hv]
      rw [hnil]
      refine .stays rfl ?_ fun hno => ?_
      · intro hyes
        obtain rfl : granted = true := Except.ok.inj hyes
        exact granted_iff.mpr hv
      · have hne : granted ≠ true := fun h => hno (congrArg Except.ok h)
        have hhandled : a.Handled s now w.seen p :=
          handled_of_verdict hv (by simpa using hne) (by simp)
        exact ⟨hhandled.1, fun _ => hhandled⟩
  | noStepLeft hv => exact .stays rfl nofun fun _ => ⟨not_granted_of_none hv, nofun⟩
  | @memberFails k e hv hm =>
      have hnil : a.expansions s now limit (k + 1) d p w = [] := by
        simp only [expansions, hv, hm]
      rw [hnil]
      refine .stays rfl nofun fun _ => ⟨not_granted_of_none hv, fun _ => ?_⟩
      exact handled_of_member hv fun m hm' => by rw [hm] at hm'; cases hm'
  | @metBefore k m hv hm hmem =>
      have hnil : a.expansions s now limit (k + 1) d p w = [] := by
        simp only [expansions, hv, hm, if_pos hmem]
      rw [hnil]
      exact .stays rfl nofun fun _ =>
        ⟨not_granted_of_none hv, fun _ => handled_of_named hv hm hmem⟩
  | @groupsFail k m e hv hm hmem hg =>
      have hone : a.expansions s now limit (k + 1) d p w = [(m, d)] := by
        simp only [expansions, hv, hm, if_neg hmem, hg]
      rw [hone]
      exact .groupsFail (silent_iff.mpr hv) hm hmem hg
  | @climbed k m groups hv hm hmem hg =>
      have hmore : a.expansions s now limit (k + 1) d p w =
          a.expansionsAny (a.explore s now limit k) (a.expansions s now limit k (d + 1)) groups
            (w.lookUp.expand m) ++ [(m, d)] := by
        simp only [expansions, hv, hm, if_neg hmem, hg]
      rw [hmore]
      exact .climbed (silent_iff.mpr hv) hm hmem hg

/-! #### Each way a trial of groups can go -/

section trials

variable {explore : Exploration} {expansions : Principal → Progress → List (GroupMember × Nat)}

theorem expansionsAny_of_error {e : Error} (h : a (.newPrincipal g) = .error e) :
    a.expansionsAny explore expansions (g :: gs) w = a.expansionsAny explore expansions gs w := by
  simp only [expansionsAny, h]

theorem expansionsAny_of_granted (h : a (.newPrincipal g) = .ok q)
    (hq : (explore q w).1 = .ok true) :
    a.expansionsAny explore expansions (g :: gs) w = expansions q w := by
  rcases hout : explore q w with ⟨_ | _ | _, w'⟩
  · simp [hout] at hq
  · simp [hout] at hq
  · simp only [expansionsAny, h, hout]

theorem expansionsAny_of_refused (h : a (.newPrincipal g) = .ok q)
    (hq : (explore q w).1 ≠ .ok true) :
    a.expansionsAny explore expansions (g :: gs) w =
      a.expansionsAny explore expansions gs (explore q w).2 ++ expansions q w := by
  rcases hout : explore q w with ⟨_ | _ | _, w'⟩
  · simp only [expansionsAny, h, hout]
  · simp only [expansionsAny, h, hout]
  · simp [hout] at hq

/-! ### Which members are expanded, and where -/

theorem expansionsAny_members (h : ∀ q w,
      (expansions q w).map Prod.fst ++ w.seen.members = (explore q w).2.seen.members) :
    ∀ gs w, (a.expansionsAny explore expansions gs w).map Prod.fst ++ w.seen.members =
      (a.exploreAny explore gs w).2.seen.members
  | [], _ => rfl
  | g :: gs, w => by
      cases hg : a (.newPrincipal g) with
      | error e =>
          rw [expansionsAny_of_error hg, exploreAny_of_error hg]
          exact expansionsAny_members h gs w
      | ok q =>
          by_cases hq : (explore q w).1 = .ok true
          · rw [expansionsAny_of_granted hg hq, exploreAny_of_granted hg hq]
            exact h q w
          · rw [expansionsAny_of_refused hg hq, exploreAny_of_refused hg hq, List.map_append,
              List.append_assoc, h q w]
            exact expansionsAny_members h gs _

/-- What is expanded where groups are tried is expanded in exploring one of them. -/
theorem mem_expansionsAny {x : GroupMember × Nat} : ∀ (gs : List GroupMember) (w : Progress),
    x ∈ a.expansionsAny explore expansions gs w →
      ∃ g ∈ gs, ∃ q w', a (.newPrincipal g) = .ok q ∧ x ∈ expansions q w'
  | [], _, hx => nomatch hx
  | g :: gs, w, hx => by
      have hrest : ∀ w', x ∈ a.expansionsAny explore expansions gs w' →
          ∃ g' ∈ g :: gs, ∃ q w', a (.newPrincipal g') = .ok q ∧ x ∈ expansions q w' := by
        intro w' hx
        obtain ⟨g', hg', hfound⟩ := mem_expansionsAny gs w' hx
        exact ⟨g', List.mem_cons_of_mem _ hg', hfound⟩
      cases hg : a (.newPrincipal g) with
      | error e =>
          rw [expansionsAny_of_error hg] at hx
          exact hrest w hx
      | ok q =>
          by_cases hq : (explore q w).1 = .ok true
          · rw [expansionsAny_of_granted hg hq] at hx
            exact ⟨g, List.mem_cons_self .., q, w, hg, hx⟩
          · rw [expansionsAny_of_refused hg hq, List.mem_append] at hx
            rcases hx with hx | hx
            · exact hrest _ hx
            · exact ⟨g, List.mem_cons_self .., q, w, hg, hx⟩

variable (expansions) in
/-- Where a group answers yes, what exploring it expands is expanded. -/
theorem exploreAny_granted : ∀ (gs : List GroupMember) (w : Progress),
    (a.exploreAny explore gs w).1 = true →
      ∃ g ∈ gs, ∃ q w', a (.newPrincipal g) = .ok q ∧ (explore q w').1 = .ok true ∧
        ∀ x ∈ expansions q w', x ∈ a.expansionsAny explore expansions gs w
  | [], _, hyes => nomatch hyes
  | g :: gs, w, hyes => by
      cases hg : a (.newPrincipal g) with
      | error e =>
          rw [exploreAny_of_error hg] at hyes
          rw [expansionsAny_of_error hg]
          obtain ⟨g', hg', hfound⟩ := exploreAny_granted gs w hyes
          exact ⟨g', List.mem_cons_of_mem _ hg', hfound⟩
      | ok q =>
          by_cases hq : (explore q w).1 = .ok true
          · rw [expansionsAny_of_granted hg hq]
            exact ⟨g, List.mem_cons_self .., q, w, hg, hq, fun _ hx => hx⟩
          · rw [exploreAny_of_refused hg hq] at hyes
            rw [expansionsAny_of_refused hg hq]
            obtain ⟨g', hg', q', w', hq', hyes', hsub⟩ := exploreAny_granted gs _ hyes
            exact ⟨g', List.mem_cons_of_mem _ hg', q', w', hq', hyes',
              fun x hx => List.mem_append_left _ (hsub x hx)⟩

end trials

/-- The members expanded are those that are in the end, but for those that were. -/
theorem expansions_members (n d : Nat) (p : Principal) (w : Progress) :
    (a.expansions s now limit n d p w).map Prod.fst ++ w.seen.members =
      (a.explore s now limit n p w).2.seen.members := by
  induction n using Nat.strong_induction_on generalizing d p w with
  | _ n ih =>
      have hexpands : a.Expands s now limit p w d n _ _ := expands n d p w
      generalize a.explore s now limit n p w = out at hexpands ⊢
      generalize a.expansions s now limit n d p w = found at hexpands ⊢
      cases hexpands with
      | stays hseen _ _ => exact congrArg SeenGroups.members hseen.symm
      | @groupsFail k m e _ _ hmem _ => exact (SeenGroups.members_insert hmem).symm
      | @climbed k m groups _ _ hmem _ =>
          have hany := expansionsAny_members (a := a)
            (fun q w => ih k (Nat.lt_succ_self k) (d + 1) q w) groups (w.lookUp.expand m)
          have hhere : (w.lookUp.expand m).seen.members = m :: w.seen.members :=
            SeenGroups.members_insert hmem
          rw [hhere] at hany
          rw [List.map_append, List.append_assoc]
          exact hany

/-- The principals that come after `p`, one after the other. -/
def after (p : Principal) (x : Nat → Principal) : Nat → Principal
  | 0 => p
  | i + 1 => x i

theorem Chain.after {k : Nat} {x : Nat → Principal} (h : a.Chain s now k x)
    (hp : a.Climb s now p (x 0)) : a.Chain s now (k + 1) (after p x) := by
  intro i hi
  cases i with
  | zero => exact hp
  | succ i => exact h i (Nat.lt_of_succ_lt_succ hi)

theorem climb_of_group (hp : a.Silent s now p) (hm : a (.groupMember p) = .ok m)
    (hg : a (.parentGroups m) = .ok groups) (hmem : g ∈ groups)
    (hq : a (.newPrincipal g) = .ok q) : a.Climb s now p q :=
  ⟨hp, m, groups, g, hm, hg, hmem, hq⟩

/-- A member is expanded at the end of a chain as long as it is said to be. -/
theorem expansions_chain {e : Nat} (n d : Nat) (p : Principal) (w : Progress)
    (hx : (m, e) ∈ a.expansions s now limit n d p w) :
    ∃ k x, e = d + k ∧ k < n ∧ x 0 = p ∧ a.Chain s now k x ∧ a (.groupMember (x k)) = .ok m := by
  induction n using Nat.strong_induction_on generalizing d p w with
  | _ n ih =>
      have hexpands : a.Expands s now limit p w d n _ _ := expands n d p w
      generalize a.explore s now limit n p w = out at hexpands
      generalize a.expansions s now limit n d p w = found at hexpands hx
      have hhere : ∀ {m'}, a (.groupMember p) = .ok m' → (m, e) ∈ [(m', d)] → 0 < n →
          ∃ k x, e = d + k ∧ k < n ∧ x 0 = p ∧ a.Chain s now k x ∧
            a (.groupMember (x k)) = .ok m := by
        intro m' hm hx hn
        obtain ⟨rfl, rfl⟩ := Prod.mk.inj (List.mem_singleton.mp hx)
        exact ⟨0, fun _ => p, rfl, hn, rfl, nofun, hm⟩
      cases hexpands with
      | stays _ _ _ => cases hx
      | groupsFail _ hm _ _ => exact hhere hm hx (Nat.succ_pos _)
      | @climbed j m' groups hp hm _ hg =>
          rcases List.mem_append.mp hx with hx | hx
          · obtain ⟨g, hmem, q, w', hq, hx⟩ := mem_expansionsAny groups _ hx
            obtain ⟨k, x, rfl, hk, rfl, hchain, hmember⟩ :=
              ih j (Nat.lt_succ_self j) (d + 1) q w' hx
            refine ⟨k + 1, after p x, by omega, by omega, rfl, ?_, hmember⟩
            exact hchain.after (climb_of_group hp hm hg hmem hq)
          · exact hhere hm hx (Nat.succ_pos _)

/-- What is found is found along a path whose members are expanded on the path. -/
theorem explore_route (n d : Nat) (p : Principal) (w : Progress)
    (hyes : (a.explore s now limit n p w).1 = .ok true) :
    ∃ k x, k ≤ n ∧ x 0 = p ∧ a.Route s now k x ∧
      ∀ i < k, ∃ m, a (.groupMember (x i)) = .ok m ∧
        (m, d + i) ∈ a.expansions s now limit n d p w := by
  induction n using Nat.strong_induction_on generalizing d p w with
  | _ n ih =>
      have hexpands : a.Expands s now limit p w d n _ _ := expands n d p w
      generalize a.explore s now limit n p w = out at hexpands hyes
      generalize a.expansions s now limit n d p w = found at hexpands ⊢
      cases hexpands with
      | stays _ hgranted _ =>
          exact ⟨0, fun _ => p, Nat.zero_le _, rfl, ⟨nofun, hgranted hyes⟩, nofun⟩
      | groupsFail _ _ _ _ => cases hyes
      | @climbed j m groups hp hm _ hg =>
          obtain ⟨g, hmem, q, w', hq, hyes', hsub⟩ :=
            exploreAny_granted (a.expansions s now limit j (d + 1)) groups _ (Except.ok.inj hyes)
          obtain ⟨k, x, hk, rfl, ⟨hchain, hgranted⟩, hfound⟩ :=
            ih j (Nat.lt_succ_self j) (d + 1) q w' hyes'
          refine ⟨k + 1, after p x, by omega, rfl,
            ⟨hchain.after (climb_of_group hp hm hg hmem hq), hgranted⟩, ?_⟩
          intro i hi
          cases i with
          | zero => exact ⟨m, hm, List.mem_append_right _ (List.mem_singleton_self _)⟩
          | succ i =>
              obtain ⟨m', hm', hx⟩ := hfound i (Nat.lt_of_succ_lt_succ hi)
              refine ⟨m', hm', List.mem_append_left _ (hsub _ ?_)⟩
              rwa [Nat.add_right_comm, Nat.add_assoc] at hx

/-! ### What is cut off -/

/-- The principals of the member's groups are granted nothing, and where a step was left for them
they are handled. -/
def Cut (a : Answers) (s : Scope) (now : Instant) (seen : SeenGroups) (left : Prop)
    (m : GroupMember) : Prop :=
  ∀ groups g q, a (.parentGroups m) = .ok groups → g ∈ groups → a (.newPrincipal g) = .ok q →
    ¬ a.Granted s now q ∧ (left → a.Handled s now seen q)

theorem Cut.mono {seen seen' : SeenGroups} {left : Prop} (h : a.Cut s now seen left m)
    (hsub : ∀ m ∈ seen, m ∈ seen') : a.Cut s now seen' left m := by
  intro groups g q hg hmem hq
  obtain ⟨hgranted, hhandled⟩ := h groups g q hg hmem hq
  exact ⟨hgranted, fun hleft => (hhandled hleft).mono hsub⟩

/-- What is explored without a yes is granted nothing, and with a step left it is handled. -/
theorem explore_handled (n : Nat) (p : Principal) (w : Progress)
    (hno : (a.explore s now limit n p w).1 ≠ .ok true) :
    ¬ a.Granted s now p ∧ (0 < n → a.Handled s now (a.explore s now limit n p w).2.seen p) := by
  have hexpands : a.Expands s now limit p w 0 n _ _ := expands n 0 p w
  generalize a.explore s now limit n p w = out at hexpands hno ⊢
  generalize a.expansions s now limit n 0 p w = found at hexpands
  cases hexpands with
  | stays hseen _ hhandled =>
      rw [hseen]
      exact hhandled hno
  | groupsFail hp hm _ _ =>
      have hhandled := handled_of_named (silent_iff.mp hp) hm
        (SeenGroups.mem_insert_self w.seen _)
      exact ⟨hhandled.1, fun _ => hhandled⟩
  | @climbed j m groups hp hm _ _ =>
      have hgrown :
          m ∈ (a.exploreAny (a.explore s now limit j) groups (w.lookUp.expand m)).2.seen :=
        exploreAny_grows (explore_grows j) groups _ m (SeenGroups.mem_insert_self ..)
      have hhandled := handled_of_named (silent_iff.mp hp) hm hgrown
      exact ⟨hhandled.1, fun _ => hhandled⟩

/-- Where no group answers yes, all of them are granted nothing, and what is expanded with them is
cut as far as it is in exploring them. -/
theorem expansionsAny_cut {explore : Exploration}
    {expansions : Principal → Progress → List (GroupMember × Nat)} {left : Prop}
    {bound : Nat} (hgrows : ∀ (q : Principal) (w : Progress), w.Grows (explore q w).2)
    (hhandled : ∀ q w, (explore q w).1 ≠ .ok true →
      ¬ a.Granted s now q ∧ (left → a.Handled s now (explore q w).2.seen q))
    (hcut : ∀ q w, (explore q w).1 ≠ .ok true → ∀ m e, (m, e) ∈ expansions q w →
      a.Cut s now (explore q w).2.seen (e + 1 < bound) m) :
    ∀ (gs : List GroupMember) (w : Progress), (a.exploreAny explore gs w).1 = false →
      (∀ g ∈ gs, ∀ q, a (.newPrincipal g) = .ok q → ¬ a.Granted s now q ∧
        (left → a.Handled s now (a.exploreAny explore gs w).2.seen q)) ∧
      ∀ m e, (m, e) ∈ a.expansionsAny explore expansions gs w →
        a.Cut s now (a.exploreAny explore gs w).2.seen (e + 1 < bound) m
  | [], _, _ => ⟨nofun, nofun⟩
  | g :: gs, w, hno => by
      cases hg : a (.newPrincipal g) with
      | error e =>
          rw [exploreAny_of_error hg] at hno ⊢
          rw [expansionsAny_of_error hg]
          obtain ⟨hall, hcuts⟩ := expansionsAny_cut hgrows hhandled hcut gs w hno
          refine ⟨?_, hcuts⟩
          intro g' hg' q hq
          rcases List.mem_cons.mp hg' with rfl | hg'
          · rw [hg] at hq
            cases hq
          · exact hall g' hg' q hq
      | ok q =>
          by_cases hq : (explore q w).1 = .ok true
          · rw [exploreAny_of_granted hg hq] at hno
            cases hno
          · rw [exploreAny_of_refused hg hq] at hno ⊢
            rw [expansionsAny_of_refused hg hq]
            obtain ⟨hall, hcuts⟩ := expansionsAny_cut hgrows hhandled hcut gs _ hno
            have hlater := exploreAny_grows (a := a) hgrows gs (explore q w).2
            constructor
            · intro g' hg' q' hq'
              rcases List.mem_cons.mp hg' with rfl | hg'
              · obtain rfl : q = q' := Except.ok.inj (hg.symm.trans hq')
                obtain ⟨hgranted, hdone⟩ := hhandled q w hq
                exact ⟨hgranted, fun hleft => (hdone hleft).mono hlater⟩
              · exact hall g' hg' q' hq'
            · intro m e hx
              rcases List.mem_append.mp hx with hx | hx
              · exact hcuts m e hx
              · exact (hcut q w hq m e hx).mono hlater

/-- Without a yes, the groups of a member that was expanded are granted nothing, and they are
handled unless the member was expanded with the last step. -/
theorem expansions_cut {e : Nat} (n d : Nat) (p : Principal) (w : Progress)
    (hno : (a.explore s now limit n p w).1 ≠ .ok true)
    (hx : (m, e) ∈ a.expansions s now limit n d p w) :
    a.Cut s now (a.explore s now limit n p w).2.seen (e + 1 < d + n) m := by
  induction n using Nat.strong_induction_on generalizing d p w m e with
  | _ n ih =>
      have hexpands : a.Expands s now limit p w d n _ _ := expands n d p w
      generalize a.explore s now limit n p w = out at hexpands hno ⊢
      generalize a.expansions s now limit n d p w = found at hexpands hx
      cases hexpands with
      | stays _ _ _ => cases hx
      | groupsFail _ _ _ hg =>
          obtain ⟨rfl, rfl⟩ := Prod.mk.inj (List.mem_singleton.mp hx)
          intro groups g q hg' _ _
          rw [hg] at hg'
          cases hg'
      | @climbed j m' groups _ _ _ hg =>
          have hfalse : (a.exploreAny (a.explore s now limit j) groups (w.lookUp.expand m')).1 =
              false := by
            rw [← Bool.not_eq_true]
            exact fun h => hno (congrArg Except.ok h)
          obtain ⟨hall, hcuts⟩ := expansionsAny_cut (explore_grows j) (explore_handled j)
            (fun q w hq m e hx => ih j (Nat.lt_succ_self j) (d + 1) q w hq hx) groups
            (w.lookUp.expand m') hfalse
          rcases List.mem_append.mp hx with hx | hx
          · have hbound : d + 1 + j = d + (j + 1) := by omega
            rw [← hbound]
            exact hcuts m e hx
          · obtain ⟨rfl, rfl⟩ := Prod.mk.inj (List.mem_singleton.mp hx)
            intro groups' g q hg' hmem hq
            obtain rfl : groups = groups' := Except.ok.inj (hg.symm.trans hg')
            obtain ⟨hgranted, hhandled⟩ := hall g hmem q hq
            exact ⟨hgranted, fun hleft => hhandled (by omega)⟩

/-! ### Cold searches -/

/-- No principal on the way has a member that is expanded at the end of a longer chain. -/
def Timely (a : Answers) (found : List (GroupMember × Nat)) (k : Nat) (x : Nat → Principal) :
    Prop :=
  ∀ i < k, ∀ m e, a (.groupMember (x i)) = .ok m → (m, e) ∈ found → e ≤ i

variable (p) in
theorem expanded_members :
    (a.expanded s now limit p).map Prod.fst =
      (a.explore s now limit limit p ⟨.empty, 0⟩).2.seen.members := by
  rw [← expansions_members limit 0 p]
  exact (List.append_nil _).symm

/-- A member is expanded once. -/
theorem expanded_unique {e e' : Nat} (h : (m, e) ∈ a.expanded s now limit p)
    (h' : (m, e') ∈ a.expanded s now limit p) : e = e' := by
  have hnodup : ((a.expanded s now limit p).map Prod.fst).Nodup := by
    rw [expanded_members p]
    exact SeenGroups.nodup _
  exact congrArg Prod.snd (List.inj_on_of_nodup_map hnodup h h' rfl)

/-- A yes means a timely path. -/
theorem outcome_route (h : a.outcome s now limit p = .ok true) :
    ∃ k x, k ≤ limit ∧ x 0 = p ∧ a.Route s now k x ∧
      a.Timely (a.expanded s now limit p) k x := by
  obtain ⟨k, x, hk, hp, hroute, hfound⟩ := explore_route limit 0 p ⟨.empty, 0⟩ h
  refine ⟨k, x, hk, hp, hroute, ?_⟩
  intro i hi m e hm hx
  obtain ⟨m', hm', hx'⟩ := hfound i hi
  obtain rfl : m = m' := Except.ok.inj (hm.symm.trans hm')
  have he := expanded_unique hx hx'
  omega

/-- Without a yes, a timely path is followed to its end: what comes next on it is granted
nothing, and if the path goes on it is expanded in time. -/
theorem outcome_cut (h : a.outcome s now limit p ≠ .ok true) {k : Nat} {x : Nat → Principal}
    (hk : k ≤ limit) (hp : x 0 = p) (hchain : a.Chain s now k x)
    (htimely : a.Timely (a.expanded s now limit p) k x) :
    ∀ i ≤ k, ¬ a.Granted s now (x i) ∧ (i < k → ∃ m e, a (.groupMember (x i)) = .ok m ∧
      (m, e) ∈ a.expanded s now limit p ∧ e ≤ i) := by
  subst hp
  -- Whoever the path goes on from has a member; if it is dealt with, it is expanded.
  have hexpanded (i : Nat) (hi : i < k) (hhandled : a.Handled s now
      (a.explore s now limit limit (x 0) ⟨.empty, 0⟩).2.seen (x i)) :
      ∃ m e, a (.groupMember (x i)) = .ok m ∧ (m, e) ∈ a.expanded s now limit (x 0) ∧ e ≤ i := by
    obtain ⟨hsilent, m, groups, g, hm, -, -, -⟩ := hchain i hi
    have hmem : m ∈ (a.expanded s now limit (x 0)).map Prod.fst := by
      rw [expanded_members]
      exact hhandled.2 hsilent m hm
    obtain ⟨⟨m', e⟩, hx, rfl⟩ := List.mem_map.mp hmem
    exact ⟨m', e, hm, hx, htimely i hi m' e hm hx⟩
  intro i
  induction i with
  | zero =>
      intro _
      obtain ⟨hgranted, hhandled⟩ := explore_handled limit (x 0) ⟨.empty, 0⟩ h
      exact ⟨hgranted, fun hlt => hexpanded 0 hlt (hhandled (by omega))⟩
  | succ i ih =>
      intro hi
      obtain ⟨-, hbefore⟩ := ih (Nat.le_of_succ_le hi)
      obtain ⟨m, e, hm, hx, he⟩ := hbefore hi
      obtain ⟨-, m', groups, g, hm', hg, hmem, hq⟩ := hchain i hi
      obtain rfl : m = m' := Except.ok.inj (hm.symm.trans hm')
      obtain ⟨hgranted, hhandled⟩ :=
        expansions_cut limit 0 (x 0) ⟨.empty, 0⟩ h hx groups g (x (i + 1)) hg hmem hq
      exact ⟨hgranted, fun hlt => hexpanded (i + 1) hlt (hhandled (by omega))⟩

end Answers

namespace Search

variable {s : Search σ} {st : σ} {r : Run σ}

/-- Where nothing changes and no time passes, a search that starts cold says yes exactly if a path
of as many memberships as the limit allows, or fewer, leads to a grant and no principal on the way
has a member that the search expands at the end of a longer chain. The members told of are the ones
that the search expands, and each of them is expanded at the end of a chain shorter than the limit.
The search can only overrun if what it writes outlives the clock. -/
theorem run_depth_bound (hs : s.service.Still st a) (hst : r.state = st)
    (hcold : ∀ q allowed, ¬ r.Knows (s.scope.key q) allowed) (p : Principal) :
    let now := r.clock.wall
    let expanded := a.expanded s.scope now s.limit p
    let out := s.run .empty p r
    (out.1 = .ok true ↔ ∃ k x, k ≤ s.limit ∧ x 0 = p ∧ a.Route s.scope now k x ∧
      a.Timely expanded k x) ∧
    expanded.map Prod.fst = out.2.seen.members ∧
    (∀ m e, (m, e) ∈ expanded → e < s.limit ∧
      ∃ x, x 0 = p ∧ a.Chain s.scope now e x ∧ a (.groupMember (x e)) = .ok m) ∧
    (r.cache.outlivesClock r.clock.elapsed = false → out.2.overrun = r.overrun) := by
  intro now expanded out
  refine ⟨?_, ?_, ?_, fun hc => (s.run_reaches .empty p r).overrun_eq hs hst hc⟩
  · have hout : out.1 = a.outcome s.scope now s.limit p := run_eq_outcome hs hst hcold
    rw [hout]
    refine ⟨Answers.outcome_route, ?_⟩
    rintro ⟨k, x, hk, hp, ⟨hchain, hgranted⟩, htimely⟩
    by_contra hno
    exact (Answers.outcome_cut hno hk hp hchain htimely k (Nat.le_refl k)).1 hgranted
  · have hseen : out.2.seen =
        (a.explore s.scope now s.limit s.limit p ⟨.empty, r.lookUps⟩).2.seen :=
      (run_eq_explore hs hst hcold .empty).2.seen
    rw [hseen, (Answers.explore_congr s.limit p ⟨.empty, r.lookUps⟩ ⟨.empty, 0⟩ rfl).2]
    exact Answers.expanded_members p
  · intro m e hx
    obtain ⟨k, x, rfl, hk, hp, hchain, hm⟩ := Answers.expansions_chain s.limit 0 p _ hx
    rw [Nat.zero_add]
    exact ⟨hk, x, hp, hchain, hm⟩

/-! ### A grant within the limit that is missed -/

/-- A person in two groups of which the first is in the second, which is in a third, which is in a
group with a grant. -/
def detourDirectory : Directory :=
  ({} : Directory).changes
    [.addMembership ⟨.person, "alice"⟩ "a", .addMembership ⟨.person, "alice"⟩ "s",
      .addMembership ⟨.group, "a"⟩ "s", .addMembership ⟨.group, "s"⟩ "t",
      .addMembership ⟨.group, "t"⟩ "g",
      .addPermission (.assign ⟨.group, "g"⟩ "O" "ACT" "T" .grant)]

/-- A search that follows three memberships. -/
def detourSearch : Search Directory := ⟨Directory.service, ⟨"O", "ACT", some "T"⟩, 3⟩

/-- Nothing is remembered. -/
def detourRun : Run Directory where
  state := detourDirectory
  clock := .startingAt 0 0
  cache := .timed { ttl := 60, capacity := 0 }

/-- The short way to the grant. -/
def shortWay : Nat → Principal
  | 0 => ⟨.person, "alice"⟩
  | 1 => ⟨.group, "s"⟩
  | 2 => ⟨.group, "t"⟩
  | _ => ⟨.group, "g"⟩

theorem detour_cold (q : Principal) (allowed : Bool) :
    ¬ detourRun.Knows (detourSearch.scope.key q) allowed := by
  intro h
  cases h

theorem shortWay_route :
    detourDirectory.answers.Route detourSearch.scope detourRun.clock.wall 3 shortWay := by
  have hsilent : ∀ i < 3, detourDirectory.answers.verdict detourSearch.scope detourRun.clock.wall
      (shortWay i) = .ok none
    | 0, _ | 1, _ | 2, _ => rfl
  have hparent : ∀ i < 3, detourDirectory.answers.Parent (shortWay i) (shortWay (i + 1)) := by
    decide +kernel
  exact ⟨fun i hi => ⟨Answers.silent_iff.mpr (hsilent i hi), hparent i hi⟩,
    Answers.granted_iff.mpr rfl⟩

/-- The group that the long way and the short way share is expanded on the long way, after two
memberships, so the short way is not timely. -/
theorem run_depth_bound_on_detour :
    let a := detourDirectory.answers
    let expanded := a.expanded detourSearch.scope detourRun.clock.wall 3 ⟨.person, "alice"⟩
    expanded = [(⟨.group, "s"⟩, 2), (⟨.group, "a"⟩, 1), (⟨.person, "alice"⟩, 0)] ∧
      (¬ ∃ k x, k ≤ 3 ∧ x 0 = ⟨.person, "alice"⟩ ∧
        a.Route detourSearch.scope detourRun.clock.wall k x ∧ a.Timely expanded k x) ∧
      (detourSearch.run .empty ⟨.person, "alice"⟩ detourRun).2.seen.members =
        [⟨.group, "s"⟩, ⟨.group, "a"⟩, ⟨.person, "alice"⟩] := by
  intro a expanded
  have hexpanded : expanded =
      [(⟨.group, "s"⟩, 2), (⟨.group, "a"⟩, 1), (⟨.person, "alice"⟩, 0)] := by decide +kernel
  obtain ⟨hyes, hmembers, -⟩ :=
    run_depth_bound detourDirectory.still rfl detour_cold ⟨.person, "alice"⟩
  change expanded.map Prod.fst = _ at hmembers
  rw [hexpanded] at hmembers
  refine ⟨hexpanded, ?_, hmembers.symm⟩
  intro hpath
  have hno : (detourSearch.run .empty ⟨.person, "alice"⟩ detourRun).1 = .ok false := by
    decide +kernel
  have hfound := hyes.mpr hpath
  rw [hno] at hfound
  cases hfound

/-- Three memberships lead to a grant, the search may follow three, and it says no. -/
theorem depth_bound_misses_grant :
    ¬ ((detourSearch.run .empty ⟨.person, "alice"⟩ detourRun).1 = .ok true ↔
      ∃ k x, k ≤ detourSearch.limit ∧ x 0 = ⟨.person, "alice"⟩ ∧
        detourDirectory.answers.Route detourSearch.scope detourRun.clock.wall k x) := by
  have hno : (detourSearch.run .empty ⟨.person, "alice"⟩ detourRun).1 = .ok false := by
    decide +kernel
  rw [hno]
  intro h
  exact nomatch h.mpr ⟨3, shortWay, Nat.le_refl 3, rfl, shortWay_route⟩

end Search

end GrantPath
