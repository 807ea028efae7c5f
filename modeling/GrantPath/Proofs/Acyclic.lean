import GrantPath.Proofs.Exactness
import GrantPath.Proofs.Sessions

/-! # Hierarchies without cycles

Below a cycle of groups a search may write a wrong no. Without cycles it cannot: when it meets
a member again it has either tried all the member's groups in vain (`Answers.Dead`), or it is
still below the member, which would be a cycle (`Answers.Below`). So in a hierarchy whose chains of
parents are shorter than the limit every decision that is written is right, whatever was
forgotten in between.

* `Search.SteadyCases.no_is_right`: a search that trusts only right noes says and writes only
  right noes.
* `Search.run_right` and `Search.runAnew_right`: with the soundness of yeses, searches keep the
  cache `Answers.Right` and answer yes exactly if there is a path. -/

namespace GrantPath

open Relation

variable {σ : Type}

namespace Answers

section definitions

variable (a : Answers) (s : Scope) (now : Instant)

/-- A chain of so many parents begins at the principal. -/
def Tall : Nat → Principal → Prop
  | 0, _ => True
  | n + 1, p => ∃ q, a.Parent p q ∧ Tall n q

/-- No principal of the member's groups has a path. -/
def Dead (m : GroupMember) : Prop :=
  ∀ groups g q, a (.parentGroups m) = .ok groups → g ∈ groups → a (.newPrincipal g) = .ok q →
    ¬ a.Path s now q

/-- The member is the member of a principal below `p`. -/
def Below (p : Principal) (m : GroupMember) : Prop :=
  ∃ x, a (.groupMember x) = .ok m ∧ TransGen a.Parent x p

/-- What counts as expanded when `p` is visited has no path or lies below `p`. -/
def Settles (seen : SeenGroups) (p : Principal) : Prop :=
  ∀ m ∈ seen, a.Dead s now m ∨ a.Below p m

/-- What counts as expanded afterwards did so before or has no path. -/
def Spent (seen seen' : SeenGroups) : Prop :=
  ∀ m ∈ seen', m ∈ seen ∨ a.Dead s now m

/-- The decision is right about what it is the decision on. -/
def Right (key : DecisionKey) (allowed : Bool) : Prop :=
  ∃ s p, key = Scope.key s p ∧ (allowed = true ↔ a.Path s now p)

end definitions

variable {a : Answers} {s : Scope} {now : Instant} {p q : Principal} {m : GroupMember}

/-- Chains of parents that begin on a cycle never end. -/
theorem tall_of_cycle {x : Principal} (hx : TransGen a.Parent x x) (n : Nat) : a.Tall n x := by
  have hall : ∀ y, TransGen a.Parent y x → a.Tall n y := by
    induction n with
    | zero => exact fun _ _ => True.intro
    | succ n ih =>
        intro y hy
        obtain ⟨z, hyz, hz⟩ := TransGen.head'_iff.mp hy
        rcases reflTransGen_iff_eq_or_transGen.mp hz with rfl | hz
        · exact ⟨x, hyz, ih x hx⟩
        · exact ⟨z, hyz, ih z hz⟩
  exact hall x hx

/-- A principal that lies above its own member lies on a cycle. -/
theorem Below.cycle (h : a.Below p m) (hm : a (.groupMember p) = .ok m) :
    TransGen a.Parent p p := by
  obtain ⟨x, hx, hp⟩ := h
  obtain ⟨y, hxy, hy⟩ := TransGen.head'_iff.mp hp
  have hpy : a.Parent p y := by
    unfold Parent at hxy ⊢
    rw [hm, ← hx]
    exact hxy
  exact TransGen.head' hpy hy

/-- A ranking that falls from each principal to its parents bounds the chains. -/
theorem Tall.le_rank {rank : Principal → Nat} (hrank : ∀ p q, a.Parent p q → rank q < rank p) :
    ∀ {n : Nat} {p : Principal}, a.Tall n p → n ≤ rank p
  | 0, _, _ => Nat.zero_le _
  | _ + 1, p, ⟨q, hq, h⟩ => Nat.lt_of_le_of_lt (Tall.le_rank hrank h) (hrank p q hq)

theorem Dead.not_path (h : a.Dead s now m) (hm : a (.groupMember p) = .ok m)
    (hv : a.verdict s now p = .ok none) : ¬ a.Path s now p := by
  rw [path_iff_of_none hv]
  rintro ⟨q, ⟨m', groups, g, hm', hgroups, hg, hq⟩, hpath⟩
  rw [hm] at hm'
  cases hm'
  exact h groups g q hgroups hg hq hpath

variable {seen seen' seen'' : SeenGroups} {n : Nat}

theorem Settles.of_spent (h : a.Settles s now seen p) (hs : a.Spent s now seen seen') :
    a.Settles s now seen' p := by
  intro m hm
  rcases hs m hm with hm | hm
  · exact h m hm
  · exact .inl hm

/-- One step up what is being expanded lies below. -/
theorem Settles.insert (h : a.Settles s now seen p) (hm : a (.groupMember p) = .ok m)
    (hq : a.Parent p q) : a.Settles s now (seen.insert m) q := by
  intro m' hm'
  rcases SeenGroups.mem_insert.mp hm' with rfl | hm'
  · exact .inr ⟨p, hm, .single hq⟩
  · rcases h m' hm' with hd | ⟨x, hx, hp⟩
    · exact .inl hd
    · exact .inr ⟨x, hx, hp.tail hq⟩

theorem Spent.refl (seen : SeenGroups) : a.Spent s now seen seen := by
  intro m hm
  exact .inl hm

theorem Spent.trans (h : a.Spent s now seen seen') (h' : a.Spent s now seen' seen'') :
    a.Spent s now seen seen'' := by
  intro m hm
  rcases h' m hm with hm | hm
  · exact h m hm
  · exact .inr hm

theorem Spent.of_insert (h : a.Spent s now (seen.insert m) seen') (hd : a.Dead s now m) :
    a.Spent s now seen seen' := by
  intro m' hm'
  rcases h m' hm' with hm' | hm'
  · rcases SeenGroups.mem_insert.mp hm' with rfl | hm'
    · exact .inr hd
    · exact .inl hm'
  · exact .inr hm'

theorem not_path_of_member_error {e : Error} (hv : a.verdict s now p = .ok none)
    (hm : a (.groupMember p) = .error e) : ¬ a.Path s now p := by
  rw [path_iff_of_none hv]
  rintro ⟨q, ⟨m, groups, g, hm', -⟩, -⟩
  rw [hm] at hm'
  cases hm'

theorem dead_of_error {e : Error} (h : a (.parentGroups m) = .error e) : a.Dead s now m := by
  intro groups g q hgroups
  rw [h] at hgroups
  cases hgroups

/-- A member that was met before leads to no path, since there are no cycles. -/
theorem Settles.not_path (h : a.Settles s now seen p) (hcycle : ∀ x, ¬ TransGen a.Parent x x)
    (hm : a (.groupMember p) = .ok m) (hv : a.verdict s now p = .ok none) (hmem : m ∈ seen) :
    ¬ a.Path s now p := by
  rcases h m hmem with hd | hb
  · exact hd.not_path hm hv
  · exact absurd (hb.cycle hm) (hcycle p)

end Answers

namespace Search

/-! ### Noes are right -/

/-- Without cycles a search with enough steps that trusts only right noes says and writes only
right noes. -/
theorem SteadyCases.no_is_right {s : Search σ} {a : Answers} {now : Instant}
    {Q : DecisionKey → Prop} (hQ : ∀ p, Q (s.scope.key p) ↔ ¬ a.Path s.scope now p)
    (hcycle : ∀ x, ¬ TransGen a.Parent x x) :
    s.SteadyCases a now
      (fun n p r out => r.Upholds (OnNo Q) → ¬ a.Tall n p → a.Settles s.scope now r.seen p →
        out.2.Upholds (OnNo Q) ∧ (out.1 ≠ .ok true →
          ¬ a.Path s.scope now p ∧ a.Spent s.scope now r.seen out.2.seen))
      (fun n p r out => r.Upholds (OnNo Q) → ¬ a.Tall n p → a.Settles s.scope now r.seen p →
        out.2.Upholds (OnNo Q) ∧ (out.1 ≠ .ok true →
          ¬ a.Path s.scope now p ∧ a.Spent s.scope now r.seen out.2.seen))
      (fun n gs r out => r.Upholds (OnNo Q) →
        (∀ g ∈ gs, ∀ q, a (.newPrincipal g) = .ok q →
          ¬ a.Tall n q ∧ a.Settles s.scope now r.seen q) →
        out.2.Upholds (OnNo Q) ∧ (out.1 ≠ true →
          (∀ g ∈ gs, ∀ q, a (.newPrincipal g) = .ok q → ¬ a.Path s.scope now q) ∧
            a.Spent s.scope now r.seen out.2.seen)) where
  lookUpFails hv hr _ _ := by
    refine ⟨upholds_looked hr, ?_⟩
    intro _
    exact ⟨Answers.not_path_of_error hv, .refl _⟩
  decided {n p r granted} hv hr _ _ := by
    refine ⟨upholds_looked hr, ?_⟩
    intro hno
    have hpath : ¬ a.Path s.scope now p := by
      rw [Answers.path_iff_of_some hv]
      intro hyes
      exact hno (congrArg Except.ok hyes)
    exact ⟨hpath, .refl _⟩
  noStepLeft _ _ hn _ := absurd True.intro hn
  memberFails {n p r e} hv hm hr _ _ := by
    refine ⟨upholds_named hr, ?_⟩
    intro _
    exact ⟨Answers.not_path_of_member_error hv hm, .refl _⟩
  metBefore hv hm hmem hr _ hs := by
    refine ⟨(upholds_named hr).count _, ?_⟩
    intro _
    exact ⟨hs.not_path hcycle hm hv hmem, .refl _⟩
  groupsFail {n p r m e} hv hm _ hg hr _ _ := by
    have hdead : a.Dead s.scope now m := Answers.dead_of_error hg
    refine ⟨upholds_expanded hr, ?_⟩
    intro _
    exact ⟨hdead.not_path hm hv, Answers.Spent.of_insert (.refl _) hdead⟩
  climbed {n p r m groups out} hv hm _ hg _ htried hr hn hs := by
    have hgroups : ∀ g ∈ groups, ∀ q, a (.newPrincipal g) = .ok q →
        ¬ a.Tall n q ∧ a.Settles s.scope now (s.expanded p m r).seen q := by
      intro g hmem q hq
      have hparent : a.Parent p q := ⟨m, groups, g, hm, hg, hmem, hq⟩
      refine ⟨?_, hs.insert hm hparent⟩
      intro htall
      exact hn ⟨q, hparent, htall⟩
    obtain ⟨hout, hall⟩ := htried (upholds_expanded hr) hgroups
    refine ⟨hout, ?_⟩
    intro hno
    obtain ⟨hpaths, hspent⟩ := hall fun hyes => hno (congrArg Except.ok hyes)
    have hdead : a.Dead s.scope now m := by
      intro groups' g q hgroups hmem hq
      rw [hg] at hgroups
      cases hgroups
      exact hpaths g hmem q hq
    exact ⟨hdead.not_path hm hv, hspent.of_insert hdead⟩
  noGroupLeft hr _ := by
    refine ⟨hr, ?_⟩
    intro _
    exact ⟨by simp, .refl _⟩
  noPrincipal {n g gs r e out} hq _ htried hr hgs := by
    obtain ⟨hout, hall⟩ := htried ((upholds_addressed hr).count _) (List.forall_mem_cons.mp hgs).2
    refine ⟨hout, ?_⟩
    intro hno
    obtain ⟨hpaths, hspent⟩ := hall hno
    rw [List.forall_mem_cons]
    refine ⟨⟨?_, hpaths⟩, hspent⟩
    intro q hq'
    rw [hq] at hq'
    cases hq'
  granted {n g gs q r r'} hq _ hcons hr hgs := by
    obtain ⟨hn, hs⟩ := (List.forall_mem_cons.mp hgs).1 q hq
    obtain ⟨hout, -⟩ := hcons (upholds_addressed hr) hn hs
    refine ⟨hout, ?_⟩
    intro hno
    exact absurd rfl hno
  refused {n g gs q r r' outcome out} hq _ hcons hne _ htried hr hgs := by
    obtain ⟨hg, hgs⟩ := List.forall_mem_cons.mp hgs
    obtain ⟨hn, hs⟩ := hg q hq
    obtain ⟨hr', hno'⟩ := hcons (upholds_addressed hr) hn hs
    obtain ⟨hpath, hspent⟩ := hno' hne
    rw [← passedOver_seen r' outcome] at hspent
    have hrest : ∀ g ∈ gs, ∀ q, a (.newPrincipal g) = .ok q →
        ¬ a.Tall n q ∧ a.Settles s.scope now (passedOver outcome r').seen q := by
      intro g' hmem q' hq'
      obtain ⟨hn', hs'⟩ := hgs g' hmem q' hq'
      exact ⟨hn', hs'.of_spent hspent⟩
    obtain ⟨hout, hall⟩ := htried (upholds_passedOver hr' outcome) hrest
    refine ⟨hout, ?_⟩
    intro hno
    obtain ⟨hpaths, hspent'⟩ := hall hno
    rw [List.forall_mem_cons]
    refine ⟨⟨?_, hpaths⟩, hspent.trans hspent'⟩
    intro q' hq'
    rw [hq] at hq'
    cases hq'
    exact hpath
  hit {n p r granted} hk hr _ _ := by
    refine ⟨(hr.readCache _).count _, ?_⟩
    intro hno
    rw [Run.count_seen, Run.readCache_seen, ← hQ p]
    exact ⟨hr _ _ hk (by simpa using hno), .refl _⟩
  computed {n p r granted r'} _ _ hv hr hn hs := by
    obtain ⟨hr', hno'⟩ := hv (upholds_missed hr) hn (by simpa using hs)
    have hwritten : granted = false → Q (s.scope.key p) := by
      intro hno
      rw [hQ p]
      exact (hno' (by simp [hno])).1
    refine ⟨hr'.writeCache hwritten, ?_⟩
    intro hno
    obtain ⟨hpath, hspent⟩ := hno' hno
    rw [Run.writeCache_seen]
    exact ⟨hpath, by simpa using hspent⟩
  notComputed {n p r e r'} _ _ hv hr hn hs := by
    obtain ⟨hr', hno'⟩ := hv (upholds_missed hr) hn (by simpa using hs)
    refine ⟨hr', ?_⟩
    intro hno
    obtain ⟨hpath, hspent⟩ := hno' hno
    exact ⟨hpath, by simpa using hspent⟩

/-! ### Searches keep the cache right -/

section right

variable {s : Search σ} {st : σ} {a : Answers} {now : Instant} {p : Principal}
  {r : Run σ} {out : Except Error Bool × Run σ}

theorem upholds_right_iff : r.Upholds (a.Right now) ↔
    r.Upholds (OnYes fun key => ∃ s p, key = Scope.key s p ∧ a.Path s now p) ∧
      r.Upholds (OnNo fun key => ∃ s p, key = Scope.key s p ∧ ¬ a.Path s now p) := by
  constructor
  · intro h
    constructor
    · rintro key allowed hk rfl
      obtain ⟨s, p, hkey, hp⟩ := h key true hk
      exact ⟨s, p, hkey, hp.mp rfl⟩
    · rintro key allowed hk rfl
      obtain ⟨s, p, hkey, hp⟩ := h key false hk
      exact ⟨s, p, hkey, fun hpath => absurd (hp.mpr hpath) (by simp)⟩
  · rintro ⟨hyes, hno⟩ key allowed hk
    cases allowed with
    | true =>
        obtain ⟨s, p, hkey, hp⟩ := hyes key true hk rfl
        exact ⟨s, p, hkey, by simp [hp]⟩
    | false =>
        obtain ⟨s, p, hkey, hp⟩ := hno key false hk rfl
        exact ⟨s, p, hkey, by simp [hp]⟩

theorem exists_key_iff {P : Scope → Principal → Prop} (hP : ∀ s s' p, s.Alike s' → P s p → P s' p)
    (s : Scope) (p : Principal) : (∃ s' p', s.key p = Scope.key s' p' ∧ P s' p') ↔ P s p := by
  constructor
  · rintro ⟨s', p', hkey, hp⟩
    obtain ⟨rfl, ha⟩ := Scope.key_eq_key_iff.mp hkey
    exact hP s' s p ha.symm hp
  · exact fun hp => ⟨s, p, rfl, hp⟩

/-- What searches and visits do that begin with no member expanded. -/
theorem right_of_cases (hk : a.Keyed) (hlow : ∀ p, ¬ a.Tall s.limit p)
    (hsound : ∀ {Q : DecisionKey → Prop}, (∀ p, Q (s.scope.key p) ↔ a.Path s.scope now p) →
      r.Upholds (OnYes Q) → out.2.Upholds (OnYes Q) ∧ (out.1 = .ok true → a.Path s.scope now p))
    (hno : ∀ {Q : DecisionKey → Prop}, (∀ p, Q (s.scope.key p) ↔ ¬ a.Path s.scope now p) →
      (∀ x, ¬ TransGen a.Parent x x) → r.Upholds (OnNo Q) → ¬ a.Tall s.limit p →
      a.Settles s.scope now .empty p → out.2.Upholds (OnNo Q) ∧ (out.1 ≠ .ok true →
        ¬ a.Path s.scope now p ∧ a.Spent s.scope now .empty out.2.seen))
    (hr : r.Upholds (a.Right now)) :
    out.2.Upholds (a.Right now) ∧ (out.1 = .ok true ↔ a.Path s.scope now p) := by
  have hcycle : ∀ x, ¬ TransGen a.Parent x x := by
    intro x hx
    exact hlow x (Answers.tall_of_cycle hx s.limit)
  obtain ⟨hyes, hnos⟩ := upholds_right_iff.mp hr
  have hyesKey := exists_key_iff (P := fun s p => a.Path s now p)
    (fun _ _ _ ha => (hk.path_iff ha).mp) s.scope
  have hnoKey := exists_key_iff (P := fun s p => ¬ a.Path s now p)
    (fun _ _ _ ha => mt (hk.path_iff ha).mpr) s.scope
  obtain ⟨hyes', hpath⟩ := hsound hyesKey hyes
  have hbegin : a.Settles s.scope now .empty p := by
    intro m hm
    exact absurd hm (SeenGroups.not_mem_empty m)
  obtain ⟨hnos', hnopath⟩ := hno hnoKey hcycle hnos (hlow p) hbegin
  refine ⟨upholds_right_iff.mpr ⟨hyes', hnos'⟩, hpath, ?_⟩
  intro hp
  by_contra h
  exact (hnopath h).1 hp

theorem run_right (hs : s.service.Settled st a) (hk : a.Keyed) (hlow : ∀ p, ¬ a.Tall s.limit p)
    (ht : Run.Steady st a now r (s.run .empty p r).2) (hr : r.Upholds (a.Right now)) :
    (s.run .empty p r).2.Upholds (a.Right now) ∧
      ((s.run .empty p r).1 = .ok true ↔ a.Path s.scope now p) := by
  have hbegun : (r.beginSearch (s.scope.key p) .empty).Upholds (a.Right now) := hr
  apply right_of_cases hk hlow ?_ ?_ hbegun
  · intro Q hQ
    exact (SteadyCases.sound hQ).run hs ht
  · intro Q hQ hcycle
    exact (SteadyCases.no_is_right hQ hcycle).run hs ht

theorem runAnew_right (hs : s.service.Settled st a) (hk : a.Keyed)
    (hlow : ∀ p, ¬ a.Tall s.limit p) (ht : Run.Steady st a now r (s.runAnew .empty p r).2)
    (hr : r.Upholds (a.Right now)) :
    (s.runAnew .empty p r).2.Upholds (a.Right now) ∧
      ((s.runAnew .empty p r).1 = .ok true ↔ a.Path s.scope now p) := by
  have hbegun : (r.beginSearch (s.scope.key p) .empty).Upholds (a.Right now) := hr
  apply right_of_cases hk hlow ?_ ?_ hbegun
  · intro Q hQ
    exact (SteadyCases.sound hQ).runAnew hs ht
  · intro Q hQ hcycle
    exact (SteadyCases.no_is_right hQ hcycle).runAnew hs ht

end right

end Search

end GrantPath
