import GrantPath.Proofs.Queries
import GrantPath.Proofs.SteadySearch
import Mathlib.Data.List.Forall2

/-! # Queries and their generalizations

While a service is settled, its answers alone tell which generalizations a query has
(`Answers.superUserQuery`, `Answers.collectiveQuery`). So the answer to a query is known once it is
known which queries the searches say yes to.

* `Policy.Grants` says what the policy grants if searches are told what to say yes to, and
  `Policy.Permits` is the case in which they are told to say yes where there is a path.
* `Policy.Told` says that the searches for one principal are told so as long as some condition on
  the run holds, and that they keep it. Then every query for the principal is answered
  accordingly (`Policy.Told.hasPermission_iff`), and so is a batch of them
  (`Policy.Told.evaluateBatch`). -/

namespace GrantPath

open Relation

variable {σ : Type}

/-! ### What is permitted -/

namespace Answers

variable (a : Answers)

/-- The query for the activity that implies all others, unless the query is for that. -/
def superUserQuery (q : Query) : Option Query :=
  match a (.resolveActivity systemOwner allPermissions) with
  | .error _ | .ok none => none
  | .ok (some everything) =>
    if q.activity = everything then none
    else
      match a (.resolveOwner systemOwner),
        a (.resolveTarget everything.targetProvider allTarget) with
      | .ok (some owner), .ok (some target) =>
        some ⟨q.principal, owner, everything, some target⟩
      | _, _ => none

/-- The query for all targets of the type, unless the query is for many targets. -/
def collectiveQuery (q : Query) : Option Query :=
  match q.target with
  | none => none
  | some target =>
    if target.isCollective then none
    else
      match target.type.collectiveKey? with
      | none => none
      | some key =>
        match a (.resolveTarget q.activity.targetProvider key) with
        | .ok (some collective) => some { q with target := some collective }
        | _ => none

variable {a} {q q' : Query}

theorem superUserQuery_eq_some_iff :
    a.superUserQuery q = some q' ↔ ∃ everything owner target,
      a (.resolveActivity systemOwner allPermissions) = .ok (some everything) ∧
      q.activity ≠ everything ∧ a (.resolveOwner systemOwner) = .ok (some owner) ∧
      a (.resolveTarget everything.targetProvider allTarget) = .ok (some target) ∧
      q' = ⟨q.principal, owner, everything, some target⟩ := by
  unfold superUserQuery
  rcases a (.resolveActivity systemOwner allPermissions) with _ | _ | everything
  · simp
  · simp
  · by_cases hne : q.activity = everything
    · simp [hne]
    · rcases a (.resolveOwner systemOwner) with _ | _ | owner
      · simp
      · simp
      · rcases ht : a (.resolveTarget everything.targetProvider allTarget) with _ | _ | target
        · simp [hne, ht]
        · simp [hne, ht]
        · simp only [if_neg hne, ht, Option.some.injEq]
          constructor
          · rintro rfl
            exact ⟨everything, owner, target, rfl, hne, rfl, ht, rfl⟩
          · rintro ⟨_, _, _, heverything, -, howner, htarget, rfl⟩
            cases heverything
            cases howner
            rw [ht] at htarget
            cases htarget
            rfl

theorem collectiveQuery_eq_some_iff :
    a.collectiveQuery q = some q' ↔ ∃ target key collective, q.target = some target ∧
      target.isCollective = false ∧ target.type.collectiveKey? = some key ∧
      a (.resolveTarget q.activity.targetProvider key) = .ok (some collective) ∧
      q' = { q with target := some collective } := by
  unfold collectiveQuery
  cases q.target with
  | none => simp
  | some target =>
      cases hc : target.isCollective with
      | true => simp [hc]
      | false =>
          cases hk : target.type.collectiveKey? with
          | none => simp [hc, hk]
          | some key =>
              rcases ht : a (.resolveTarget q.activity.targetProvider key) with _ | _ | collective
              · simp [hc, hk, ht]
              · simp [hc, hk, ht]
              · simp only [hc, hk, ht, Bool.false_eq_true, if_false, Option.some.injEq]
                constructor
                · rintro rfl
                  exact ⟨target, key, collective, rfl, hc, hk, ht, rfl⟩
                · rintro ⟨_, _, _, htarget, -, hkey, hcollective, rfl⟩
                  cases htarget
                  rw [hk] at hkey
                  cases hkey
                  rw [ht] at hcollective
                  cases hcollective
                  rfl

theorem superUserQuery_principal (h : a.superUserQuery q = some q') :
    q'.principal = q.principal := by
  obtain ⟨everything, owner, target, -, -, -, -, rfl⟩ := superUserQuery_eq_some_iff.mp h
  rfl

theorem collectiveQuery_principal (h : a.collectiveQuery q = some q') :
    q'.principal = q.principal := by
  obtain ⟨target, key, collective, -, -, -, -, rfl⟩ := collectiveQuery_eq_some_iff.mp h
  rfl

end Answers

namespace Policy

/-- What the policy permits, in terms of paths alone; generalizations may nest so deep. -/
def Permits (policy : Policy) (a : Answers) (now : Instant) : Nat → Query → Prop
  | 0, _ => False
  | depth + 1, q =>
    (policy.superUserShortcut = true ∧
      ∃ q', a.superUserQuery q = some q' ∧ Permits policy a now depth q') ∨
    (policy.collectiveTargets = true ∧
      ∃ q', a.collectiveQuery q = some q' ∧ Permits policy a now depth q') ∨
    a.Path q.scope now q.principal

end Policy

/-- A settled service gives its answer and stays settled. -/
theorem Service.Settled.ask {svc : Service σ} {st : σ} {a : Answers} (hs : svc.Settled st a)
    {r : Run σ} (hst : r.state = st) (q : Request) :
    ∃ r', r.ask svc q = (a q, r') ∧ r'.state = st := by
  have hanswer : (r.ask svc q).1 = a q := by
    rw [Run.ask_fst, hst, (hs q).1]
  refine ⟨(r.ask svc q).2, ?_, ?_⟩
  · rw [← hanswer]
  · rw [Run.ask_state, hst, (hs q).2]

namespace Policy

variable {policy : Policy} {svc : Service σ} {st : σ} {a : Answers} {now : Instant}
  {r r' m : Run σ} {q : Query}

theorem superUserQuery_fst (hs : svc.Settled st a) (hst : r.state = st) (q : Query) :
    (superUserQuery svc q r).1 = a.superUserQuery q := by
  obtain ⟨r₁, h₁, hst₁⟩ := hs.ask hst (.resolveActivity systemOwner allPermissions)
  unfold superUserQuery Answers.superUserQuery
  simp only [h₁]
  rcases a (.resolveActivity systemOwner allPermissions) with _ | _ | everything
  · rfl
  · rfl
  · by_cases hne : q.activity = everything
    · simp only [if_pos hne]
    · obtain ⟨r₂, h₂, hst₂⟩ := hs.ask hst₁ (.resolveOwner systemOwner)
      simp only [if_neg hne, h₂]
      rcases a (.resolveOwner systemOwner) with _ | _ | owner
      · rfl
      · rfl
      · obtain ⟨r₃, h₃, -⟩ := hs.ask hst₂ (.resolveTarget everything.targetProvider allTarget)
        simp only [h₃]
        rcases a (.resolveTarget everything.targetProvider allTarget) with _ | _ | target <;> rfl

theorem collectiveQuery_fst (hs : svc.Settled st a) (hst : r.state = st) (q : Query) :
    (collectiveQuery svc q r).1 = a.collectiveQuery q := by
  unfold collectiveQuery collectiveTarget Answers.collectiveQuery
  cases q.target with
  | none => rfl
  | some target =>
      by_cases hc : target.isCollective
      · simp only [if_pos hc]
      · simp only [if_neg hc]
        cases target.type.collectiveKey? with
        | none => rfl
        | some key =>
            obtain ⟨r₁, h₁, -⟩ := hs.ask hst (.resolveTarget q.activity.targetProvider key)
            simp only [h₁]
            rcases a (.resolveTarget q.activity.targetProvider key) with _ | _ | collective <;> rfl

theorem Asks.state_eq (hs : svc.Settled st a) (h : Asks svc r r') (hst : r.state = st) :
    r'.state = st := by
  induction h with
  | refl => exact hst
  | tail _ h ih =>
      obtain ⟨request, rfl⟩ := h
      rw [Run.ask_state, ih, (hs request).2]

theorem Move.state_eq (hs : svc.Settled st a) (h : policy.Move svc r r') (hst : r.state = st) :
    r'.state = st := by
  rcases h.reaches with h | ⟨capacity, rfl⟩
  · exact h.state_eq hs hst
  · exact hst

theorem Moves.state_eq (hs : svc.Settled st a) (h : policy.Moves svc r r') (hst : r.state = st) :
    r'.state = st := by
  induction h with
  | refl => exact hst
  | tail _ h ih => exact h.state_eq hs ih

/-! ### What is answered is what searches are told -/

/-- What the policy grants if searches say yes exactly to the queries that they are told to;
generalizations may nest so deep. -/
def Grants (policy : Policy) (a : Answers) (yes : Query → Prop) : Nat → Query → Prop
  | 0, _ => False
  | depth + 1, q =>
    (policy.superUserShortcut = true ∧
      ∃ q', a.superUserQuery q = some q' ∧ Grants policy a yes depth q') ∨
    (policy.collectiveTargets = true ∧
      ∃ q', a.collectiveQuery q = some q' ∧ Grants policy a yes depth q') ∨
    yes q

theorem permits_iff_grants {depth : Nat} :
    policy.Permits a now depth q ↔
      policy.Grants a (fun q => a.Path q.scope now q.principal) depth q := by
  induction depth generalizing q with
  | zero => exact Iff.rfl
  | succ depth ih => simp only [Permits, Grants, ih]

/-- The outcome is a yes exactly if it is told to be; otherwise it leaves `I`, and a yes leaves
`J`. -/
structure Obeys (I J : Run σ → Prop) (told : Prop) (out : Except Error Bool × Run σ) : Prop where
  iff : out.1 = .ok true ↔ told
  no : out.1 ≠ .ok true → I out.2
  yes : out.1 = .ok true → J out.2

/-- As long as things are as `During` says, a search for the principal that begins where `I` holds
says yes exactly to the queries that it is told to; it leaves `I` if it does not say yes, and `J`
if it does. -/
structure Told (policy : Policy) (svc : Service σ) (st : σ) (p : Principal)
    (During : Run σ → Run σ → Prop) (I J : Run σ → Prop) (yes : Query → Prop) : Prop where
  state {r r' : Run σ} : During r r' → r.state = st
  split {r m r' : Run σ} : During r r' → policy.QueryMoves svc r m → policy.QueryMoves svc m r' →
    During r m ∧ During m r'
  asks {r r' : Run σ} : I r → Asks svc r r' → I r'
  setAside {r : Run σ} (capacity : Nat) : I r → I (r.setAside capacity)
  count {r : Run σ} (o : Occurrence) : J r → J (r.count o)
  search {q : Query} {r : Run σ} : q.principal = p →
    During r ((policy.search svc q).run .empty q.principal r).2 → I r →
    Obeys I J (yes q) ((policy.search svc q).run .empty q.principal r)

namespace Told

variable {p : Principal} {During : Run σ → Run σ → Prop} {I J : Run σ → Prop}
  {yes : Query → Prop} (h : policy.Told svc st p During I J yes)

include h

theorem attempt {judged : Query → Run σ → Except Error Bool × Run σ → Prop} {enabled : Bool}
    {broaden : Broadening σ} {broader : Query → Option Query} {depth : Nat} {out : Bool × Run σ}
    (hasks : ∀ q r, Asks svc r (broaden q r).2)
    (hbroader : ∀ {r : Run σ}, r.state = st → ∀ q, (broaden q r).1 = broader q)
    (hprincipal : ∀ {q q'}, broader q = some q' → q'.principal = q.principal)
    (hjudged : ∀ q r out, judged q r out → policy.QueryMoves svc r out.2 ∧
      (q.principal = p → During r out.2 → I r → Obeys I J (policy.Grants a yes depth q) out))
    (ha : policy.Attempt svc judged enabled broaden q r out) (hp : q.principal = p)
    (hd : During r out.2) (hI : I r) :
    (out.1 = true ↔
      enabled = true ∧ ∃ q', broader q = some q' ∧ policy.Grants a yes depth q') ∧
      (out.1 ≠ true → I out.2) ∧ (out.1 = true → J out.2) := by
  have hq := hbroader (h.state hd) q
  have hmoves : policy.QueryMoves svc r (broaden q r).2 := (hasks q r).queryMoves
  have hasked : I (broaden q r).2 := h.asks hI (hasks q r)
  cases ha with
  | disabled he => exact ⟨by simp [he], fun _ => hI, by simp⟩
  | nothing he hb =>
      rw [hb] at hq hasked
      exact ⟨by simp [← hq], fun _ => hasked, by simp⟩
  | @judged q' r₁ out he hb _ hj =>
      rw [hb] at hq hmoves hasked
      rw [contained_snd] at hd ⊢
      obtain ⟨hmoves₁, hobeys⟩ := hjudged q' r₁ out hj
      obtain ⟨-, hlast⟩ := h.split hd hmoves hmoves₁
      have hp' : q'.principal = p := (hprincipal hq.symm).trans hp
      have hout := hobeys hp' hlast hasked
      rw [ne_eq, contained_fst_eq_true_iff]
      refine ⟨?_, hout.no, hout.yes⟩
      rw [hout.iff, ← hq]
      simp [he]

theorem cases (hs : svc.Settled st a) :
    policy.Cases svc (fun depth q r out => policy.QueryMoves svc r out.2 ∧
      (q.principal = p → During r out.2 → I r → Obeys I J (policy.Grants a yes depth q) out)) where
  tooDeep := ⟨.refl, fun _ _ hI => ⟨by simp [Grants], fun _ => hI, by simp⟩⟩
  superUser {depth q r r'} ha := by
    have hmoves : policy.QueryMoves svc r r' := ha.queryMoves superUserQuery_asks fun _ _ _ h => h.1
    refine ⟨hmoves.tail (.count _ _), ?_⟩
    intro hp hd hI
    obtain ⟨hl, -⟩ := h.split hd hmoves (.single (.count _ _))
    obtain ⟨hiff, -, hJ⟩ := h.attempt superUserQuery_asks (superUserQuery_fst hs)
      Answers.superUserQuery_principal (fun _ _ _ h => h) ha hp hl hI
    have hyes := hiff.mp rfl
    exact ⟨by simp [Grants, hyes], fun hno => absurd rfl hno, fun _ => h.count _ (hJ rfl)⟩
  collective {depth q r r₁ r₂} hsuper _ ha _ := by
    have hmoves₁ : policy.QueryMoves svc r r₁ :=
      hsuper.queryMoves superUserQuery_asks fun _ _ _ h => h.1
    have hmoves₂ : policy.QueryMoves svc r₁ r₂ :=
      ha.queryMoves collectiveQuery_asks fun _ _ _ h => h.1
    refine ⟨(hmoves₁.trans hmoves₂).tail (.count _ _), ?_⟩
    intro hp hd hI
    obtain ⟨hboth, -⟩ := h.split hd (hmoves₁.trans hmoves₂) (.single (.count _ _))
    obtain ⟨hl, hlast⟩ := h.split hboth hmoves₁ hmoves₂
    obtain ⟨-, hI₁, -⟩ := h.attempt superUserQuery_asks (superUserQuery_fst hs)
      Answers.superUserQuery_principal (fun _ _ _ h => h) hsuper hp hl hI
    obtain ⟨hiff, -, hJ⟩ := h.attempt collectiveQuery_asks (collectiveQuery_fst hs)
      Answers.collectiveQuery_principal (fun _ _ _ h => h) ha hp hlast (hI₁ (by simp))
    have hyes := hiff.mp rfl
    exact ⟨by simp [Grants, hyes], fun hno => absurd rfl hno, fun _ => h.count _ (hJ rfl)⟩
  searched {depth q r r₁ r₂} hsuper _ hcollective _ := by
    have hmoves₁ : policy.QueryMoves svc r r₁ :=
      hsuper.queryMoves superUserQuery_asks fun _ _ _ h => h.1
    have hmoves₂ : policy.QueryMoves svc r₁ r₂ :=
      hcollective.queryMoves collectiveQuery_asks fun _ _ _ h => h.1
    have haside : policy.QueryMoves svc r₂ (r₂.setAside policy.seenCapacity) :=
      .single (.setAside _ r₂)
    have hsearch : policy.QueryMoves svc (r₂.setAside policy.seenCapacity)
        ((policy.search svc q).run .empty q.principal (r₂.setAside policy.seenCapacity)).2 :=
      .single (.search q _)
    refine ⟨(hmoves₁.trans hmoves₂).trans (haside.trans hsearch), ?_⟩
    intro hp hd hI
    obtain ⟨hl, hrest⟩ := h.split hd hmoves₁ (hmoves₂.trans (haside.trans hsearch))
    obtain ⟨hm, hrest⟩ := h.split hrest hmoves₂ (haside.trans hsearch)
    obtain ⟨-, hlast⟩ := h.split hrest haside hsearch
    obtain ⟨hs₁, hI₁, -⟩ := h.attempt superUserQuery_asks (superUserQuery_fst hs)
      Answers.superUserQuery_principal (fun _ _ _ h => h) hsuper hp hl hI
    obtain ⟨hs₂, hI₂, -⟩ := h.attempt collectiveQuery_asks (collectiveQuery_fst hs)
      Answers.collectiveQuery_principal (fun _ _ _ h => h) hcollective hp hm (hI₁ (by simp))
    have hout := h.search hp hlast (h.setAside _ (hI₂ (by simp)))
    refine ⟨?_, hout.no, hout.yes⟩
    rw [hout.iff, Grants, ← hs₁, ← hs₂]
    simp

/-- Where searches are told which queries to say yes to, a query for the principal is answered
accordingly. -/
theorem evaluate (hs : svc.Settled st a) (depth : Nat) (hp : q.principal = p)
    (hd : During r (policy.evaluate svc depth q r).2) (hI : I r) :
    Obeys I J (policy.Grants a yes depth q) (policy.evaluate svc depth q r) :=
  ((h.cases hs).evaluate depth q r).2 hp hd hI

theorem hasPermission_iff (hs : svc.Settled st a) (hp : q.principal = p)
    (hd : During r (policy.hasPermission svc q r).2) (hI : I r) :
    (policy.hasPermission svc q r).1 = true ↔ policy.Grants a yes generalizationDepth q := by
  have hmoves : policy.QueryMoves svc r (policy.evaluate svc generalizationDepth q r).2 :=
    evaluate_queryMoves generalizationDepth q r
  obtain ⟨hl, -⟩ := h.split hd hmoves (hasPermission_counts q r).queryMoves
  rw [hasPermission_fst_eq_true_iff]
  exact (h.evaluate hs generalizationDepth hp hl hI).iff

end Told

/-! ### Queries for one principal, one after the other -/

namespace Told

variable {p : Principal} {During : Run σ → Run σ → Prop} {I : Run σ → Prop}
  {yes : Query → Prop} (h : policy.Told svc st p During I I yes) (hs : svc.Settled st a)

include h hs

/-- If a search leaves `I` whatever it says, so does a query. -/
theorem hasPermission_keeps (hp : q.principal = p)
    (hd : During r (policy.hasPermission svc q r).2) (hI : I r) :
    I (policy.hasPermission svc q r).2 := by
  have hmoves : policy.QueryMoves svc r (policy.evaluate svc generalizationDepth q r).2 :=
    evaluate_queryMoves generalizationDepth q r
  obtain ⟨hl, -⟩ := h.split hd hmoves (hasPermission_counts q r).queryMoves
  have hobeys := h.evaluate hs generalizationDepth hp hl hI
  have hkept : I (policy.evaluate svc generalizationDepth q r).2 := by
    by_cases hyes : (policy.evaluate svc generalizationDepth q r).1 = .ok true
    · exact hobeys.yes hyes
    · exact hobeys.no hyes
  unfold hasPermission
  rcases hout : policy.evaluate svc generalizationDepth q r with ⟨_ | granted, r'⟩
  · rw [hout] at hkept
    exact h.count _ (h.count _ hkept)
  · rw [hout] at hkept
    exact h.count _ hkept

/-- A batch is answered target by target as single queries are, and leaves `I`. -/
theorem evaluateBatch (owner : Owner) (activity : Activity) : ∀ (targets : List Target) (r : Run σ),
    During r (policy.evaluateBatch svc p owner activity targets r).2 → I r →
      List.Forall₂ (fun target granted => granted = true ↔
          policy.Grants a yes generalizationDepth ⟨p, owner, activity, some target⟩)
        targets (policy.evaluateBatch svc p owner activity targets r).1 ∧
      I (policy.evaluateBatch svc p owner activity targets r).2
  | [], _, _, hI => ⟨.nil, hI⟩
  | target :: targets, r, hd, hI => by
      have hfirst : policy.QueryMoves svc r
          (policy.hasPermission svc ⟨p, owner, activity, some target⟩ r).2 :=
        hasPermission_queryMoves _ r
      obtain ⟨hl, hrest⟩ := h.split hd hfirst (evaluateBatch_queryMoves p owner activity targets _)
      obtain ⟨hanswers, hkept⟩ :=
        evaluateBatch owner activity targets _ hrest (h.hasPermission_keeps hs rfl hl hI)
      exact ⟨.cons (h.hasPermission_iff hs rfl hl hI) hanswers, hkept⟩

end Told

end Policy

end GrantPath
