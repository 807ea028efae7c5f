import GrantPath.Proofs.SearchCases
import GrantPath.Warmer

/-! # What the policy does to a run

`Policy.Move` lists what the operations of the policy do to a run, one thing at a time: they
ask, count, set room aside, search through the cache, and write the decision of a new search.
Every operation is a chain of moves (`Policy.hasPermission_moves` and the like). A query does all
of these but the last (`Policy.QueryMove`), and outside of its searches it asks only for definitions
(`Policy.QueryPart`).

A query is answered by a recursion through its generalizations. `Policy.Cases` lists what can
happen at each depth, and `Policy.Cases.evaluate` is the induction: a property that holds in
every case holds of the evaluation of every query. Both generalizations are looked for in the
same way: a broader query is made up, if there is one, and judged (`Policy.Attempt`). -/

namespace GrantPath

open Relation

variable {σ : Type}

/-- A query without missing parts has the parts that it is made up of. -/
theorem PartialQuery.parts_of_complete? {query : PartialQuery} {q : Query}
    (h : query.complete? = some q) :
    query.principal = some q.principal ∧ query.target = q.target := by
  unfold complete? at h
  split at h
  · rename_i hp _ _
    obtain rfl := Option.some.inj h
    exact ⟨hp, rfl⟩
  · cases h

/-- Whether a request is for something defined by name. -/
def Request.isDefinition : Request → Bool
  | resolveOwner _ | resolveActivity .. | resolveTarget .. => true
  | _ => false

namespace Policy

/-! ### Moves -/

/-- Something that an operation of the policy does to a run. -/
inductive Move (policy : Policy) (svc : Service σ) : Run σ → Run σ → Prop
  | ask (q : Request) (r : Run σ) : Move policy svc r (r.ask svc q).2
  | count (o : Occurrence) (r : Run σ) : Move policy svc r (r.count o)
  | setAside (capacity : Nat) (r : Run σ) : Move policy svc r (r.setAside capacity)
  | search (q : Query) (r : Run σ) :
      Move policy svc r ((policy.search svc q).run .empty q.principal r).2
  | refresh (q : Query) (r : Run σ) :
      Move policy svc r
        (r.forceRefresh q.key ((policy.search svc q).runAnew .empty q.principal)).2

/-- Any number of moves lead from one run to the other. -/
abbrev Moves (policy : Policy) (svc : Service σ) : Run σ → Run σ → Prop :=
  ReflTransGen (policy.Move svc)

/-- Something that a query does to a run: any move but writing the decision of a new search. -/
inductive QueryMove (policy : Policy) (svc : Service σ) : Run σ → Run σ → Prop
  | ask (q : Request) (r : Run σ) : QueryMove policy svc r (r.ask svc q).2
  | count (o : Occurrence) (r : Run σ) : QueryMove policy svc r (r.count o)
  | setAside (capacity : Nat) (r : Run σ) : QueryMove policy svc r (r.setAside capacity)
  | search (q : Query) (r : Run σ) :
      QueryMove policy svc r ((policy.search svc q).run .empty q.principal r).2

/-- Any number of moves that queries make lead from one run to the other. -/
abbrev QueryMoves (policy : Policy) (svc : Service σ) : Run σ → Run σ → Prop :=
  ReflTransGen (policy.QueryMove svc)

/-- Something that a query does to a run. What it has to know about principals it asks in its
searches; outside of them it asks for definitions. -/
inductive QueryPart (policy : Policy) (svc : Service σ) : Run σ → Run σ → Prop
  | define (q : Request) (hq : q.isDefinition = true) (r : Run σ) :
      QueryPart policy svc r (r.ask svc q).2
  | count (o : Occurrence) (r : Run σ) : QueryPart policy svc r (r.count o)
  | setAside (capacity : Nat) (r : Run σ) : QueryPart policy svc r (r.setAside capacity)
  | search (q : Query) (r : Run σ) :
      QueryPart policy svc r ((policy.search svc q).run .empty q.principal r).2

/-- Any number of parts of queries lead from one run to the other. -/
abbrev QueryParts (policy : Policy) (svc : Service σ) : Run σ → Run σ → Prop :=
  ReflTransGen (policy.QueryPart svc)

variable {policy : Policy} {svc : Service σ} {r r' : Run σ}

theorem QueryPart.queryMove (h : policy.QueryPart svc r r') : policy.QueryMove svc r r' := by
  cases h with
  | define q hq r => exact .ask q r
  | count o r => exact .count o r
  | setAside capacity r => exact .setAside capacity r
  | search q r => exact .search q r

theorem QueryParts.queryMoves (h : policy.QueryParts svc r r') : policy.QueryMoves svc r r' :=
  ReflTransGen.mono (fun _ _ => QueryPart.queryMove) r r' h

theorem QueryMove.move (h : policy.QueryMove svc r r') : policy.Move svc r r' := by
  cases h with
  | ask q r => exact .ask q r
  | count o r => exact .count o r
  | setAside capacity r => exact .setAside capacity r
  | search q r => exact .search q r

theorem QueryMoves.moves (h : policy.QueryMoves svc r r') : policy.Moves svc r r' :=
  ReflTransGen.mono (fun _ _ => QueryMove.move) r r' h

/-- Nothing but requests lead from one run to the other. -/
abbrev Asks (svc : Service σ) : Run σ → Run σ → Prop :=
  ReflTransGen fun r r' => ∃ request, r' = (r.ask svc request).2

/-- Nothing but requests for definitions lead from one run to the other. -/
abbrev Resolves (svc : Service σ) : Run σ → Run σ → Prop :=
  ReflTransGen fun r r' => ∃ request : Request,
    request.isDefinition = true ∧ r' = (r.ask svc request).2

theorem Resolves.asks (h : Resolves svc r r') : Asks svc r r' :=
  ReflTransGen.mono (fun _ _ ⟨request, _, hr⟩ => ⟨request, hr⟩) r r' h

theorem Resolves.queryParts (h : Resolves svc r r') : policy.QueryParts svc r r' :=
  ReflTransGen.mono (fun r _ ⟨request, hq, hr⟩ => hr ▸ .define request hq r) r r' h

theorem Asks.queryMoves (h : Asks svc r r') : policy.QueryMoves svc r r' :=
  ReflTransGen.mono (fun r _ ⟨request, hr⟩ => hr ▸ .ask request r) r r' h

theorem Asks.moves (h : Asks svc r r') : policy.Moves svc r r' := h.queryMoves.moves

/-- Every move but setting room aside is a chain of acts. -/
theorem Move.reaches (h : policy.Move svc r r') :
    Run.Reaches svc r r' ∨ ∃ capacity, r' = r.setAside capacity := by
  cases h with
  | ask q r => exact .inl (.single (.ask q r))
  | count o r => exact .inl (.single (.count o r))
  | setAside capacity r => exact .inr ⟨capacity, rfl⟩
  | search q r => exact .inl ((policy.search svc q).run_reaches .empty q.principal r)
  | refresh q r =>
      refine .inl ?_
      have hr := (policy.search svc q).runAnew_reaches .empty q.principal r
      rcases r.forceRefresh_cases q.key ((policy.search svc q).runAnew .empty q.principal) with
        ⟨e, r₁, hout, hafter⟩ | ⟨granted, r₁, hout, hafter⟩
      · rw [hout] at hr
        rw [hafter]
        exact hr
      · rw [hout] at hr
        rw [hafter]
        exact hr.trans (r₁.prewarm_reaches q.key granted)

/-! ### Broader queries -/

/-- Makes up a broader query, if there is one. -/
abbrev Broadening (σ : Type) := Query → Run σ → Option Query × Run σ

/-- The query for the activity that implies all others, unless the query is for that. -/
def superUserQuery (svc : Service σ) : Broadening σ := fun q r =>
  match r.ask svc (.resolveActivity systemOwner allPermissions) with
  | (.error _, r) | (.ok none, r) => (none, r)
  | (.ok (some everything), r) =>
    if q.activity = everything then (none, r)
    else
      match r.ask svc (.resolveOwner systemOwner) with
      | (.error _, r) | (.ok none, r) => (none, r)
      | (.ok (some owner), r) =>
        match r.ask svc (.resolveTarget everything.targetProvider allTarget) with
        | (.error _, r) | (.ok none, r) => (none, r)
        | (.ok (some target), r) => (some ⟨q.principal, owner, everything, some target⟩, r)

/-- The query for all targets of the type, unless the query is for many targets. -/
def collectiveQuery (svc : Service σ) : Broadening σ := fun q r =>
  match collectiveTarget svc q r with
  | (none, r) => (none, r)
  | (some collective, r) => (some { q with target := some collective }, r)

/-- Judges a broader query, if broadening is enabled and there is one. -/
def judgeBroader (enabled : Bool) (broaden : Broadening σ) (judge : Judge σ) (q : Query)
    (r : Run σ) : Bool × Run σ :=
  if enabled then
    match broaden q r with
    | (none, r) => (false, r)
    | (some broader, r) => judge broader r
  else (false, r)

theorem isSuperUser_eq (judge : Judge σ) (q : Query) (r : Run σ) :
    isSuperUser svc judge q r = judgeBroader true (superUserQuery svc) judge q r := by
  simp only [isSuperUser, judgeBroader, superUserQuery, if_true]
  rcases r.ask svc (.resolveActivity systemOwner allPermissions) with ⟨_ | _ | everything, r₁⟩
  · rfl
  · rfl
  · by_cases h : q.activity = everything
    · simp only [if_pos h]
    · simp only [if_neg h]
      rcases r₁.ask svc (.resolveOwner systemOwner) with ⟨_ | _ | owner, r₂⟩
      · rfl
      · rfl
      · simp only
        rcases r₂.ask svc (.resolveTarget everything.targetProvider allTarget) with
          ⟨_ | _ | target, r₃⟩ <;> rfl

theorem hasCollectively_eq (judge : Judge σ) (q : Query) (r : Run σ) :
    hasCollectively svc judge q r = judgeBroader true (collectiveQuery svc) judge q r := by
  simp only [hasCollectively, judgeBroader, collectiveQuery, if_true]
  rcases collectiveTarget svc q r with ⟨_ | collective, r₁⟩ <;> rfl

theorem evaluate_succ (depth : Nat) (q : Query) (r : Run σ) :
    evaluate policy svc (depth + 1) q r =
      let judge : Judge σ := fun q r => contained (evaluate policy svc depth q r)
      match judgeBroader policy.superUserShortcut (superUserQuery svc) judge q r with
      | (true, r) => (.ok true, r.count .superUserGrant)
      | (false, r) =>
        match judgeBroader policy.collectiveTargets (collectiveQuery svc) judge q r with
        | (true, r) => (.ok true, r.count .collectiveGrant)
        | (false, r) =>
          (policy.search svc q).run .empty q.principal (r.setAside policy.seenCapacity) := by
  simp only [evaluate, isSuperUser_eq, hasCollectively_eq]
  cases policy.superUserShortcut <;> cases policy.collectiveTargets <;> rfl

theorem superUserQuery_resolves (q : Query) (r : Run σ) :
    Resolves svc r (superUserQuery svc q r).2 := by
  unfold superUserQuery
  have h₁ : Resolves svc r (r.ask svc (.resolveActivity systemOwner allPermissions)).2 :=
    .single ⟨_, rfl, rfl⟩
  generalize r.ask svc (.resolveActivity systemOwner allPermissions) = out₁ at h₁ ⊢
  rcases out₁ with ⟨_ | _ | everything, r₁⟩
  · exact h₁
  · exact h₁
  · by_cases h : q.activity = everything
    · simpa only [if_pos h] using h₁
    · simp only [if_neg h]
      have h₂ : Resolves svc r (r₁.ask svc (.resolveOwner systemOwner)).2 := h₁.tail ⟨_, rfl, rfl⟩
      generalize r₁.ask svc (.resolveOwner systemOwner) = out₂ at h₂ ⊢
      rcases out₂ with ⟨_ | _ | owner, r₂⟩
      · exact h₂
      · exact h₂
      · have h₃ : Resolves svc r
            (r₂.ask svc (.resolveTarget everything.targetProvider allTarget)).2 :=
          h₂.tail ⟨_, rfl, rfl⟩
        simp only
        generalize r₂.ask svc (.resolveTarget everything.targetProvider allTarget) = out₃ at h₃ ⊢
        rcases out₃ with ⟨_ | _ | target, r₃⟩ <;> exact h₃

theorem superUserQuery_asks (q : Query) (r : Run σ) : Asks svc r (superUserQuery svc q r).2 :=
  (superUserQuery_resolves q r).asks

theorem collectiveQuery_resolves (q : Query) (r : Run σ) :
    Resolves svc r (collectiveQuery svc q r).2 := by
  unfold collectiveQuery collectiveTarget
  cases q.target with
  | none => exact .refl
  | some target =>
      by_cases h : target.isCollective
      · simp only [if_pos h]
        exact .refl
      · simp only [if_neg h]
        cases target.type.collectiveKey? with
        | none => exact .refl
        | some key =>
            have h₁ : Resolves svc r (r.ask svc (.resolveTarget q.activity.targetProvider key)).2 :=
              .single ⟨_, rfl, rfl⟩
            simp only
            generalize r.ask svc (.resolveTarget q.activity.targetProvider key) = out₁ at h₁ ⊢
            rcases out₁ with ⟨_ | _ | collective, r₁⟩ <;> exact h₁

theorem collectiveQuery_asks (q : Query) (r : Run σ) :
    Asks svc r (collectiveQuery svc q r).2 :=
  (collectiveQuery_resolves q r).asks

/-! ### The induction -/

/-- The outcome of judging a broader query, where the evaluation of it has the property. -/
inductive Attempt (policy : Policy) (svc : Service σ)
    (judged : Query → Run σ → Except Error Bool × Run σ → Prop) (enabled : Bool)
    (broaden : Broadening σ) (q : Query) (r : Run σ) : Bool × Run σ → Prop
  | disabled : enabled = false → Attempt policy svc judged enabled broaden q r (false, r)
  | nothing {r' : Run σ} : enabled = true → broaden q r = (none, r') →
      Attempt policy svc judged enabled broaden q r (false, r')
  | judged {broader : Query} {r' : Run σ} {out : Except Error Bool × Run σ} :
      enabled = true → broaden q r = (some broader, r') → policy.Moves svc r' out.2 →
      judged broader r' out →
      Attempt policy svc judged enabled broaden q r (contained out)

theorem contained_snd (out : Except Error Bool × Run σ) : (contained out).2 = out.2 := by
  rcases out with ⟨_ | _, r⟩ <;> rfl

theorem contained_fst_eq_true_iff {out : Except Error Bool × Run σ} :
    (contained out).1 = true ↔ out.1 = .ok true := by
  rcases out with ⟨_ | _, r⟩ <;> simp [contained]

/-- What can happen in the evaluation of a query when evaluations have the property, which
takes the depth, the query, the run before, and the outcome. -/
structure Cases (policy : Policy) (svc : Service σ)
    (judged : Nat → Query → Run σ → Except Error Bool × Run σ → Prop) : Prop where
  tooDeep {q r} : judged 0 q r (.error .generalizationDepthExceeded, r)
  superUser {depth q r r'} :
    policy.Attempt svc (judged depth) policy.superUserShortcut (superUserQuery svc) q r
      (true, r') →
    judged (depth + 1) q r (.ok true, r'.count .superUserGrant)
  collective {depth q r r₁ r₂} :
    policy.Attempt svc (judged depth) policy.superUserShortcut (superUserQuery svc) q r
      (false, r₁) → policy.Moves svc r r₁ →
    policy.Attempt svc (judged depth) policy.collectiveTargets (collectiveQuery svc) q r₁
      (true, r₂) → policy.Moves svc r₁ r₂ →
    judged (depth + 1) q r (.ok true, r₂.count .collectiveGrant)
  searched {depth q r r₁ r₂} :
    policy.Attempt svc (judged depth) policy.superUserShortcut (superUserQuery svc) q r
      (false, r₁) → policy.Moves svc r r₁ →
    policy.Attempt svc (judged depth) policy.collectiveTargets (collectiveQuery svc) q r₁
      (false, r₂) → policy.Moves svc r₁ r₂ →
    judged (depth + 1) q r
      ((policy.search svc q).run .empty q.principal (r₂.setAside policy.seenCapacity))

namespace Cases

variable {judged : Nat → Query → Run σ → Except Error Bool × Run σ → Prop}

/-- The judgement on a broader query, given what an evaluation does. -/
theorem attempt {depth : Nat} {broaden : Broadening σ}
    (hb : ∀ q r, Asks svc r (broaden q r).2)
    (he : ∀ q r, judged depth q r (evaluate policy svc depth q r) ∧
      policy.Moves svc r (evaluate policy svc depth q r).2) (enabled : Bool) (q : Query)
    (r : Run σ) :
    let out := judgeBroader enabled broaden
      (fun q r => contained (evaluate policy svc depth q r)) q r
    policy.Attempt svc (judged depth) enabled broaden q r out ∧ policy.Moves svc r out.2 := by
  unfold judgeBroader
  cases enabled with
  | false => exact ⟨.disabled rfl, .refl⟩
  | true =>
      have hmoves : policy.Moves svc r (broaden q r).2 := (hb q r).moves
      rcases hout : broaden q r with ⟨_ | broader, r'⟩
      · rw [hout] at hmoves
        exact ⟨.nothing rfl hout, hmoves⟩
      · rw [hout] at hmoves
        obtain ⟨hj, hm⟩ := he broader r'
        refine ⟨.judged rfl hout hm hj, ?_⟩
        simp only [if_true, contained_snd]
        exact hmoves.trans hm

theorem evaluates (h : policy.Cases svc judged) : ∀ (depth : Nat) (q : Query) (r : Run σ),
    judged depth q r (evaluate policy svc depth q r) ∧
      policy.Moves svc r (evaluate policy svc depth q r).2
  | 0, _, _ => ⟨h.tooDeep, .refl⟩
  | depth + 1, q, r => by
      rw [evaluate_succ]
      obtain ⟨hs, hsm⟩ := attempt superUserQuery_asks (h.evaluates depth)
        policy.superUserShortcut q r
      rcases houts : judgeBroader policy.superUserShortcut (superUserQuery svc)
        (fun q r => contained (evaluate policy svc depth q r)) q r with ⟨_ | _, r₁⟩
      · rw [houts] at hs hsm
        obtain ⟨hc, hcm⟩ := attempt collectiveQuery_asks (h.evaluates depth)
          policy.collectiveTargets q r₁
        rcases houtc : judgeBroader policy.collectiveTargets (collectiveQuery svc)
          (fun q r => contained (evaluate policy svc depth q r)) q r₁ with ⟨_ | _, r₂⟩
        · rw [houtc] at hc hcm
          simp only [houts, houtc]
          exact ⟨h.searched hs hsm hc hcm,
            ((hsm.trans hcm).tail (.setAside _ _)).tail (.search q _)⟩
        · rw [houtc] at hc hcm
          simp only [houts, houtc]
          exact ⟨h.collective hs hsm hc hcm, (hsm.trans hcm).tail (.count _ _)⟩
      · rw [houts] at hs hsm
        simp only [houts]
        exact ⟨h.superUser hs, hsm.tail (.count _ _)⟩

/-- The evaluation of every query has the property of evaluations. -/
theorem evaluate (h : policy.Cases svc judged) (depth : Nat) (q : Query) (r : Run σ) :
    judged depth q r (policy.evaluate svc depth q r) :=
  (h.evaluates depth q r).1

end Cases

/-! ### Every operation is a chain of moves -/

theorem Cases.trivial (policy : Policy) (svc : Service σ) :
    policy.Cases svc (fun _ _ _ _ => True) := by
  constructor <;> intros <;> exact True.intro

theorem evaluate_moves (depth : Nat) (q : Query) (r : Run σ) :
    policy.Moves svc r (policy.evaluate svc depth q r).2 :=
  ((Cases.trivial policy svc).evaluates depth q r).2

/-- The answer is yes if the evaluation is. -/
theorem hasPermission_fst_eq_true_iff {q : Query} {r : Run σ} :
    (policy.hasPermission svc q r).1 = true ↔
      (policy.evaluate svc generalizationDepth q r).1 = .ok true := by
  unfold hasPermission
  rcases policy.evaluate svc generalizationDepth q r with ⟨_ | granted, r'⟩ <;> simp

/-- An attempt is a chain of what broadening and judging are chains of. -/
theorem Attempt.chain {R : Run σ → Run σ → Prop}
    {judged : Query → Run σ → Except Error Bool × Run σ → Prop} {enabled : Bool}
    {broaden : Broadening σ} {q : Query} {out : Bool × Run σ}
    (hbroaden : ∀ q r, ReflTransGen R r (broaden q r).2)
    (hjudged : ∀ q r out, judged q r out → ReflTransGen R r out.2)
    (h : policy.Attempt svc judged enabled broaden q r out) : ReflTransGen R r out.2 := by
  have hbroad := hbroaden q r
  cases h with
  | disabled _ => exact .refl
  | nothing _ hb =>
      rw [hb] at hbroad
      exact hbroad
  | judged _ hb _ hj =>
      rw [hb] at hbroad
      rw [contained_snd]
      exact hbroad.trans (hjudged _ _ _ hj)

theorem Attempt.queryMoves {judged : Query → Run σ → Except Error Bool × Run σ → Prop}
    {enabled : Bool} {broaden : Broadening σ} {q : Query} {out : Bool × Run σ}
    (hasks : ∀ q r, Asks svc r (broaden q r).2)
    (hjudged : ∀ q r out, judged q r out → policy.QueryMoves svc r out.2)
    (h : policy.Attempt svc judged enabled broaden q r out) : policy.QueryMoves svc r out.2 :=
  h.chain (fun q r => (hasks q r).queryMoves) hjudged

theorem Attempt.queryParts {judged : Query → Run σ → Except Error Bool × Run σ → Prop}
    {enabled : Bool} {broaden : Broadening σ} {q : Query} {out : Bool × Run σ}
    (hresolves : ∀ q r, Resolves svc r (broaden q r).2)
    (hjudged : ∀ q r out, judged q r out → policy.QueryParts svc r out.2)
    (h : policy.Attempt svc judged enabled broaden q r out) : policy.QueryParts svc r out.2 :=
  h.chain (fun q r => (hresolves q r).queryParts) hjudged

theorem Cases.queryParts (policy : Policy) (svc : Service σ) :
    policy.Cases svc (fun _ _ r out => policy.QueryParts svc r out.2) where
  tooDeep := .refl
  superUser ha := (ha.queryParts superUserQuery_resolves fun _ _ _ h => h).tail (.count _ _)
  collective hs _ hc _ :=
    ((hs.queryParts superUserQuery_resolves fun _ _ _ h => h).trans
      (hc.queryParts collectiveQuery_resolves fun _ _ _ h => h)).tail (.count _ _)
  searched hs _ hc _ :=
    (((hs.queryParts superUserQuery_resolves fun _ _ _ h => h).trans
      (hc.queryParts collectiveQuery_resolves fun _ _ _ h => h)).tail (.setAside _ _)).tail
        (.search _ _)

theorem evaluate_queryParts (depth : Nat) (q : Query) (r : Run σ) :
    policy.QueryParts svc r (policy.evaluate svc depth q r).2 :=
  (Cases.queryParts policy svc).evaluate depth q r

theorem evaluate_queryMoves (depth : Nat) (q : Query) (r : Run σ) :
    policy.QueryMoves svc r (policy.evaluate svc depth q r).2 :=
  (evaluate_queryParts depth q r).queryMoves

variable (policy svc) in
/-- After an evaluation an answer only counts. -/
theorem hasPermission_snd (q : Query) (r : Run σ) :
    ∃ counters, (policy.hasPermission svc q r).2 =
      { (policy.evaluate svc generalizationDepth q r).2 with counters } := by
  unfold hasPermission
  rcases policy.evaluate svc generalizationDepth q r with ⟨_ | granted, r'⟩
  · exact ⟨_, rfl⟩
  · exact ⟨_, rfl⟩

/-- After an evaluation an answer only counts. -/
theorem hasPermission_counts (q : Query) (r : Run σ) :
    policy.QueryParts svc (policy.evaluate svc generalizationDepth q r).2
      (policy.hasPermission svc q r).2 := by
  unfold hasPermission
  rcases policy.evaluate svc generalizationDepth q r with ⟨_ | granted, r'⟩
  · exact (ReflTransGen.single (.count _ _)).tail (.count _ _)
  · exact .single (.count _ _)

theorem hasPermission_queryParts (q : Query) (r : Run σ) :
    policy.QueryParts svc r (policy.hasPermission svc q r).2 :=
  (evaluate_queryParts generalizationDepth q r).trans (hasPermission_counts q r)

theorem hasPermission_queryMoves (q : Query) (r : Run σ) :
    policy.QueryMoves svc r (policy.hasPermission svc q r).2 :=
  (hasPermission_queryParts q r).queryMoves

theorem hasPermission_moves (q : Query) (r : Run σ) :
    policy.Moves svc r (policy.hasPermission svc q r).2 :=
  (hasPermission_queryMoves q r).moves

theorem check_queryParts (q : PartialQuery) (r : Run σ) :
    policy.QueryParts svc r (policy.check svc q r).2 := by
  unfold check
  cases q.complete? with
  | none => exact .single (.count _ _)
  | some q => exact hasPermission_queryParts q r

theorem check_moves (q : PartialQuery) (r : Run σ) :
    policy.Moves svc r (policy.check svc q r).2 :=
  (check_queryParts q r).queryMoves.moves

theorem evaluateBatch_queryParts (principal : Principal) (owner : Owner) (activity : Activity) :
    ∀ (targets : List Target) (r : Run σ),
      policy.QueryParts svc r (policy.evaluateBatch svc principal owner activity targets r).2
  | [], _ => .refl
  | _ :: targets, r =>
      (hasPermission_queryParts _ r).trans
        (evaluateBatch_queryParts principal owner activity targets _)

theorem evaluateBatch_queryMoves (principal : Principal) (owner : Owner) (activity : Activity)
    (targets : List Target) (r : Run σ) :
    policy.QueryMoves svc r (policy.evaluateBatch svc principal owner activity targets r).2 :=
  (evaluateBatch_queryParts principal owner activity targets r).queryMoves

theorem evaluateBatch_moves (principal : Principal) (owner : Owner) (activity : Activity)
    (targets : List Target) (r : Run σ) :
    policy.Moves svc r (policy.evaluateBatch svc principal owner activity targets r).2 :=
  (evaluateBatch_queryMoves principal owner activity targets r).moves

theorem resolveTargetName_resolves (provider : String) (target : Option String) (r : Run σ) :
    Resolves svc r (resolveTargetName svc provider target r).2 := by
  unfold resolveTargetName
  cases target with
  | none => exact .refl
  | some key =>
      have h : Resolves svc r (r.ask svc (.resolveTarget provider key)).2 := .single ⟨_, rfl, rfl⟩
      simp only
      generalize r.ask svc (.resolveTarget provider key) = out at h ⊢
      rcases out with ⟨_ | target, r'⟩ <;> exact h

theorem resolveNames_resolves (owner activity : String) (target : Option String) (r : Run σ) :
    Resolves svc r (resolveNames svc owner activity target r).2 := by
  unfold resolveNames
  have h₁ : Resolves svc r (r.ask svc (.resolveOwner owner)).2 := .single ⟨_, rfl, rfl⟩
  generalize r.ask svc (.resolveOwner owner) = out₁ at h₁ ⊢
  rcases out₁ with ⟨_ | _ | o, r₁⟩
  · exact h₁
  · exact h₁
  · have h₂ : Resolves svc r (r₁.ask svc (.resolveActivity owner activity)).2 :=
      h₁.tail ⟨_, rfl, rfl⟩
    simp only
    generalize r₁.ask svc (.resolveActivity owner activity) = out₂ at h₂ ⊢
    rcases out₂ with ⟨_ | _ | a, r₂⟩
    · exact h₂
    · exact h₂
    · have h₃ := h₂.trans (resolveTargetName_resolves a.targetProvider target r₂)
      simp only
      generalize resolveTargetName svc a.targetProvider target r₂ = out₃ at h₃ ⊢
      rcases out₃ with ⟨_ | t, r₃⟩ <;> exact h₃

theorem resolveNames_asks (owner activity : String) (target : Option String) (r : Run σ) :
    Asks svc r (resolveNames svc owner activity target r).2 :=
  (resolveNames_resolves owner activity target r).asks

theorem resolveNames_moves (owner activity : String) (target : Option String) (r : Run σ) :
    policy.Moves svc r (resolveNames svc owner activity target r).2 :=
  (resolveNames_asks owner activity target r).moves

theorem checkByName_queryParts (principal : Principal) (owner activity : String)
    (target : Option String) (r : Run σ) :
    policy.QueryParts svc r (policy.checkByName svc principal owner activity target r).2 := by
  unfold checkByName
  have h : policy.QueryParts svc r (resolveNames svc owner activity target r).2 :=
    (resolveNames_resolves owner activity target r).queryParts
  generalize resolveNames svc owner activity target r = out at h ⊢
  rcases out with ⟨_ | ⟨o, a, t⟩, r'⟩
  · exact h.tail (.count _ _)
  · exact h.trans (hasPermission_queryParts _ r')

theorem checkByName_moves (principal : Principal) (owner activity : String)
    (target : Option String) (r : Run σ) :
    policy.Moves svc r (policy.checkByName svc principal owner activity target r).2 :=
  (checkByName_queryParts principal owner activity target r).queryMoves.moves

/-- A decision ahead of queries leaves what its search left, with the answer written unless the
search failed. -/
theorem loadInCache_cases (policy : Policy) (svc : Service σ) (q : Query) (r : Run σ) :
    let out := (policy.search svc q).runAnew .empty q.principal (r.setAside policy.seenCapacity)
    (∃ e r', out = (.error e, r') ∧ policy.loadInCache svc q r = (false, r')) ∨
      ∃ granted r', out = (.ok granted, r') ∧ policy.loadInCache svc q r =
        (granted, (r'.writeCache q.key granted).count .cachePrewarm) := by
  intro out
  unfold loadInCache
  rcases (r.setAside policy.seenCapacity).forceRefresh_cases q.key
    ((policy.search svc q).runAnew .empty q.principal) with
    ⟨e, r', hout, hafter⟩ | ⟨granted, r', hout, hafter⟩
  · rw [hafter]
    exact .inl ⟨e, r', hout, rfl⟩
  · rw [hafter]
    exact .inr ⟨granted, r', hout, rfl⟩

theorem loadInCache_reaches (policy : Policy) (svc : Service σ) (q : Query) (r : Run σ) :
    Run.Reaches svc (r.setAside policy.seenCapacity) (policy.loadInCache svc q r).2 := by
  have hreaches := (policy.search svc q).runAnew_reaches .empty q.principal
    (r.setAside policy.seenCapacity)
  rcases policy.loadInCache_cases svc q r with
    ⟨e, r', hout, hloaded⟩ | ⟨granted, r', hout, hloaded⟩
  · rw [hout] at hreaches
    rw [hloaded]
    exact hreaches
  · rw [hout] at hreaches
    rw [hloaded]
    exact hreaches.trans (Run.prewarm_reaches q.key granted r')

theorem loadInCache_moves (q : Query) (r : Run σ) :
    policy.Moves svc r (policy.loadInCache svc q r).2 := by
  unfold loadInCache
  rw [contained_snd]
  exact (ReflTransGen.single (.setAside policy.seenCapacity r)).tail (.refresh q _)

theorem refreshAll_moves : ∀ (g : Registry) (r : Run σ),
    policy.Moves svc r (policy.refreshAll svc g r).2
  | [], _ => .refl
  | q :: g, r => (loadInCache_moves q r).trans (refreshAll_moves g _)

end Policy

end GrantPath
