import GrantPath.Proofs.Accounting
import GrantPath.Proofs.DirectoryQueries

/-! # How deep generalizations nest

The generalizations of a query are queries of their own and are generalized in turn. Nothing in this
recursion grows smaller. `Policy.Evaluates` is the recursion without a bound: a query has an outcome
only if the recursion comes to an end. If it does, `Policy.evaluate` gives that outcome from some
depth on (`Policy.Evaluates.evaluate_eq`).

Whatever the service does, `Policy.evaluate` of any depth has the outcome of the recursion, unless
the recursion gets as deep (`Policy.evaluates_or_nests`). So it comes to an end exactly if it gets
only so deep (`Policy.exists_evaluates_iff`). A service that changes its definitions whenever it is
asked for them may keep it going for ever (`Policy.turncoat_nests`).

It comes to an end wherever definitions are found under their names, because then

* the query for all permissions asks for the activity that is not generalized to all permissions,
  and for a target that stands for many (`Answers.superUserQuery_superUserQuery`,
  `Answers.collectiveQuery_superUserQuery`);
* a query for all targets of a type is for a target that stands for many
  (`Answers.collectiveQuery_collectiveQuery`).

So three queries nest at most, and with the search for each there are four searches at most
(`Policy.settles`). What is stored in a directory is stored under its name whatever has changed it,
so this holds of all directories (`Policy.generalizations_end`). -/

namespace GrantPath

open Relation

variable {σ : Type}

/-! ### Counting searches -/

namespace Run

/-- At most so many searches began from one run to the other. -/
def Searches (k : Nat) (r r' : Run σ) : Prop :=
  ∃ new, r'.journal = new ++ r.journal ∧ new.countP (·.isSearch) ≤ k

variable {k k' : Nat} {r m r' : Run σ}

theorem Searches.trans (h : Searches k r m) (h' : Searches k' m r') : Searches (k + k') r r' := by
  obtain ⟨new, hj, hk⟩ := h
  obtain ⟨new', hj', hk'⟩ := h'
  refine ⟨new' ++ new, by rw [hj', hj, List.append_assoc], ?_⟩
  rw [List.countP_append]
  omega

theorem Searches.mono (h : Searches k r r') (hk : k ≤ k') : Searches k' r r' := by
  obtain ⟨new, hj, hnew⟩ := h
  exact ⟨new, hj, Nat.le_trans hnew hk⟩

theorem Searches.of_quiet (h : Quiet r r') : Searches 0 r r' := by
  obtain ⟨new, hj, hquiet⟩ := h
  refine ⟨new, hj, (List.countP_eq_zero.mpr fun e he => ?_).le⟩
  rw [hquiet e he]
  exact Bool.false_ne_true

theorem Searches.countP_since_le (h : Searches k r r') :
    (r.since r').countP (·.isSearch) ≤ k := by
  obtain ⟨new, hj, hk⟩ := h
  rwa [since_eq hj]

end Run

theorem Search.run_searches (s : Search σ) (seen : SeenGroups) (p : Principal) (r : Run σ) :
    Run.Searches 1 r (s.run seen p r).2 := by
  have hquiet := ((Cases.ends s).cached s.limit p (r.beginSearch (s.scope.key p) seen)).1
  have hbegun : Run.Searches 1 r (r.beginSearch (s.scope.key p) seen) :=
    ⟨[.search (s.scope.key p) r.clock], rfl, Nat.le_refl 1⟩
  exact hbegun.trans (.of_quiet hquiet)

namespace Policy

variable {policy : Policy} {svc : Service σ} {q : Query} {r r' : Run σ}

theorem Asks.searches (h : Asks svc r r') : Run.Searches 0 r r' := by
  refine .of_quiet ?_
  induction h with
  | refl => exact .refl r
  | tail _ h ih =>
      obtain ⟨request, rfl⟩ := h
      exact ih.trans (.single rfl rfl)

/-! ### The recursion without a bound -/

section recursion

variable (policy svc)

mutual

/-- The outcome of evaluating a query, whose generalizations may nest as deep as they will. -/
inductive Evaluates : Query → Run σ → Except Error Bool × Run σ → Prop
  | superUser {q : Query} {r r' : Run σ} :
      Judges policy.superUserShortcut (superUserQuery svc) q r (true, r') →
      Evaluates q r (.ok true, r'.count .superUserGrant)
  | collective {q : Query} {r r₁ r₂ : Run σ} :
      Judges policy.superUserShortcut (superUserQuery svc) q r (false, r₁) →
      Judges policy.collectiveTargets (collectiveQuery svc) q r₁ (true, r₂) →
      Evaluates q r (.ok true, r₂.count .collectiveGrant)
  | searched {q : Query} {r r₁ r₂ : Run σ} :
      Judges policy.superUserShortcut (superUserQuery svc) q r (false, r₁) →
      Judges policy.collectiveTargets (collectiveQuery svc) q r₁ (false, r₂) →
      Evaluates q r
        ((policy.search svc q).run .empty q.principal (r₂.setAside policy.seenCapacity))

/-- The outcome of judging a broader query, if broadening is enabled and there is one. -/
inductive Judges : Bool → Broadening σ → Query → Run σ → Bool × Run σ → Prop
  | disabled {broaden : Broadening σ} {q : Query} {r : Run σ} : Judges false broaden q r (false, r)
  | nothing {broaden : Broadening σ} {q : Query} {r r' : Run σ} : broaden q r = (none, r') →
      Judges true broaden q r (false, r')
  | judged {broaden : Broadening σ} {q broader : Query} {r r' : Run σ}
      {out : Except Error Bool × Run σ} : broaden q r = (some broader, r') →
      Evaluates broader r' out → Judges true broaden q r (contained out)

end

/-- Judges a query by evaluating it so deep. -/
abbrev judgeAt (depth : Nat) : Judge σ := fun q r => contained (policy.evaluate svc depth q r)

end recursion

theorem evaluate_of_superUser {depth : Nat}
    (hs : judgeBroader policy.superUserShortcut (superUserQuery svc) (policy.judgeAt svc depth)
      q r = (true, r')) :
    policy.evaluate svc (depth + 1) q r = (.ok true, r'.count .superUserGrant) := by
  rw [evaluate_succ]
  simp only [hs]

theorem evaluate_of_collective {depth : Nat} {r₁ r₂ : Run σ}
    (hs : judgeBroader policy.superUserShortcut (superUserQuery svc) (policy.judgeAt svc depth)
      q r = (false, r₁))
    (hc : judgeBroader policy.collectiveTargets (collectiveQuery svc) (policy.judgeAt svc depth)
      q r₁ = (true, r₂)) :
    policy.evaluate svc (depth + 1) q r = (.ok true, r₂.count .collectiveGrant) := by
  rw [evaluate_succ]
  simp only [hs, hc]

theorem evaluate_of_neither {depth : Nat} {r₁ r₂ : Run σ}
    (hs : judgeBroader policy.superUserShortcut (superUserQuery svc) (policy.judgeAt svc depth)
      q r = (false, r₁))
    (hc : judgeBroader policy.collectiveTargets (collectiveQuery svc) (policy.judgeAt svc depth)
      q r₁ = (false, r₂)) :
    policy.evaluate svc (depth + 1) q r =
      (policy.search svc q).run .empty q.principal (r₂.setAside policy.seenCapacity) := by
  rw [evaluate_succ]
  simp only [hs, hc]

mutual

/-- If the recursion comes to an end, an evaluation that may go deep enough has its outcome. -/
theorem Evaluates.evaluate_eq {q : Query} {r : Run σ} {out : Except Error Bool × Run σ} :
    policy.Evaluates svc q r out → ∃ k, ∀ depth ≥ k, policy.evaluate svc depth q r = out
  | .superUser hs => by
      obtain ⟨k, hk⟩ := hs.judgeBroader_eq
      refine ⟨k + 1, fun depth hdepth => ?_⟩
      obtain ⟨d, rfl⟩ := Nat.exists_eq_add_of_le' hdepth
      exact evaluate_of_superUser (hk (d + k) (by omega))
  | .collective hs hc => by
      obtain ⟨k, hk⟩ := hs.judgeBroader_eq
      obtain ⟨k', hk'⟩ := hc.judgeBroader_eq
      refine ⟨k + k' + 1, fun depth hdepth => ?_⟩
      obtain ⟨d, rfl⟩ := Nat.exists_eq_add_of_le' hdepth
      exact evaluate_of_collective (hk (d + (k + k')) (by omega)) (hk' (d + (k + k')) (by omega))
  | .searched hs hc => by
      obtain ⟨k, hk⟩ := hs.judgeBroader_eq
      obtain ⟨k', hk'⟩ := hc.judgeBroader_eq
      refine ⟨k + k' + 1, fun depth hdepth => ?_⟩
      obtain ⟨d, rfl⟩ := Nat.exists_eq_add_of_le' hdepth
      exact evaluate_of_neither (hk (d + (k + k')) (by omega)) (hk' (d + (k + k')) (by omega))

theorem Judges.judgeBroader_eq {enabled : Bool} {broaden : Broadening σ} {q : Query} {r : Run σ}
    {out : Bool × Run σ} : policy.Judges svc enabled broaden q r out →
    ∃ k, ∀ depth ≥ k, judgeBroader enabled broaden (policy.judgeAt svc depth) q r = out
  | .disabled => ⟨0, fun _ _ => rfl⟩
  | .nothing hb => ⟨0, fun _ _ => by simp only [judgeBroader, hb, if_true]⟩
  | .judged hb he => by
      obtain ⟨k, hk⟩ := he.evaluate_eq
      refine ⟨k, fun depth hdepth => ?_⟩
      simp only [judgeBroader, hb, if_true, judgeAt, hk depth hdepth]

end

/-- The recursion has one outcome at most. -/
theorem Evaluates.unique {out out' : Except Error Bool × Run σ}
    (h : policy.Evaluates svc q r out) (h' : policy.Evaluates svc q r out') : out = out' := by
  obtain ⟨k, hk⟩ := h.evaluate_eq
  obtain ⟨k', hk'⟩ := h'.evaluate_eq
  rw [← hk (k + k') (by omega), hk' (k + k') (by omega)]

theorem Judges.unique {enabled : Bool} {broaden : Broadening σ} {out out' : Bool × Run σ}
    (h : policy.Judges svc enabled broaden q r out)
    (h' : policy.Judges svc enabled broaden q r out') : out = out' := by
  obtain ⟨k, hk⟩ := h.judgeBroader_eq
  obtain ⟨k', hk'⟩ := h'.judgeBroader_eq
  rw [← hk (k + k') (by omega), hk' (k + k') (by omega)]

/-! ### Where it does not end -/

section nests

variable (policy svc)

/-- The recursion gets through a chain of so many queries, of which each is a generalization of the
one before. -/
inductive Nests : Nat → Query → Run σ → Prop
  | zero {q : Query} {r : Run σ} : Nests 0 q r
  | superUser {n : Nat} {q broader : Query} {r r' : Run σ} : policy.superUserShortcut = true →
      superUserQuery svc q r = (some broader, r') → Nests n broader r' → Nests (n + 1) q r
  | collective {n : Nat} {q broader : Query} {r r₁ r₂ : Run σ} :
      policy.Judges svc policy.superUserShortcut (superUserQuery svc) q r (false, r₁) →
      policy.collectiveTargets = true → collectiveQuery svc q r₁ = (some broader, r₂) →
      Nests n broader r₂ → Nests (n + 1) q r

end nests

theorem Nests.le {m n : Nat} (h : policy.Nests svc n q r) (hm : m ≤ n) : policy.Nests svc m q r := by
  induction h generalizing m with
  | zero =>
      obtain rfl : m = 0 := by omega
      exact .zero
  | superUser he hb _ ih =>
      cases m with
      | zero => exact .zero
      | succ m => exact .superUser he hb (ih (by omega))
  | collective hj he hb _ ih =>
      cases m with
      | zero => exact .zero
      | succ m => exact .collective hj he hb (ih (by omega))

/-- What is judged by evaluations that may go so deep is judged by the recursion, or there is a
broader query from which it gets as deep. -/
theorem judges_or_nests {depth : Nat}
    (h : ∀ q r, policy.Evaluates svc q r (policy.evaluate svc depth q r) ∨
      policy.Nests svc depth q r) (enabled : Bool) (broaden : Broadening σ) (q : Query) (r : Run σ) :
    policy.Judges svc enabled broaden q r
        (judgeBroader enabled broaden (policy.judgeAt svc depth) q r) ∨
      enabled = true ∧ ∃ broader r', broaden q r = (some broader, r') ∧
        policy.Nests svc depth broader r' := by
  cases enabled with
  | false => exact .inl .disabled
  | true =>
      rcases hb : broaden q r with ⟨_ | broader, r'⟩
      · left
        simp only [judgeBroader, hb, if_true]
        exact .nothing hb
      · rcases h broader r' with heval | hnests
        · left
          simp only [judgeBroader, hb, if_true]
          exact .judged hb heval
        · exact .inr ⟨rfl, broader, r', rfl, hnests⟩

/-- An evaluation that may go so deep has the outcome of the recursion without a bound, unless the
recursion gets as deep. -/
theorem evaluates_or_nests (policy : Policy) (svc : Service σ) (depth : Nat) (q : Query)
    (r : Run σ) :
    policy.Evaluates svc q r (policy.evaluate svc depth q r) ∨ policy.Nests svc depth q r := by
  induction depth generalizing q r with
  | zero => exact .inr .zero
  | succ depth ih =>
      rcases judges_or_nests ih policy.superUserShortcut (superUserQuery svc) q r with
        hs | ⟨he, broader, r', hb, hnests⟩
      · rcases hsuper : judgeBroader policy.superUserShortcut (superUserQuery svc)
          (policy.judgeAt svc depth) q r with ⟨_ | _, r₁⟩
        · rw [hsuper] at hs
          rcases judges_or_nests ih policy.collectiveTargets (collectiveQuery svc) q r₁ with
            hc | ⟨he, broader, r', hb, hnests⟩
          · rcases hcollective : judgeBroader policy.collectiveTargets (collectiveQuery svc)
              (policy.judgeAt svc depth) q r₁ with ⟨_ | _, r₂⟩
            · rw [hcollective] at hc
              rw [evaluate_of_neither hsuper hcollective]
              exact .inl (.searched hs hc)
            · rw [hcollective] at hc
              rw [evaluate_of_collective hsuper hcollective]
              exact .inl (.collective hs hc)
          · exact .inr (.collective hs he hb hnests)
        · rw [hsuper] at hs
          rw [evaluate_of_superUser hsuper]
          exact .inl (.superUser hs)
      · exact .inr (.superUser he hb hnests)

mutual

/-- A recursion that comes to an end gets only so deep. -/
theorem Evaluates.exists_not_nests {q : Query} {r : Run σ} {out : Except Error Bool × Run σ} :
    policy.Evaluates svc q r out → ∃ k, ¬ policy.Nests svc k q r
  | .superUser hs => by
      obtain ⟨k, hk⟩ := hs.exists_not_nests
      refine ⟨k + 1, fun h => ?_⟩
      cases h with
      | superUser he hb hnests => exact hk _ _ he hb hnests
      | collective hj _ _ _ => exact nomatch hs.unique hj
  | .collective hs hc => by
      obtain ⟨k, hk⟩ := hs.exists_not_nests
      obtain ⟨k', hk'⟩ := hc.exists_not_nests
      refine ⟨k + k' + 1, fun h => ?_⟩
      cases h with
      | superUser he hb hnests => exact hk _ _ he hb (hnests.le (by omega))
      | collective hj he hb hnests =>
          cases hs.unique hj
          exact hk' _ _ he hb (hnests.le (by omega))
  | .searched hs hc => by
      obtain ⟨k, hk⟩ := hs.exists_not_nests
      obtain ⟨k', hk'⟩ := hc.exists_not_nests
      refine ⟨k + k' + 1, fun h => ?_⟩
      cases h with
      | superUser he hb hnests => exact hk _ _ he hb (hnests.le (by omega))
      | collective hj he hb hnests =>
          cases hs.unique hj
          exact hk' _ _ he hb (hnests.le (by omega))

theorem Judges.exists_not_nests {enabled : Bool} {broaden : Broadening σ} {q : Query} {r : Run σ}
    {out : Bool × Run σ} : policy.Judges svc enabled broaden q r out →
    ∃ k, ∀ broader r', enabled = true → broaden q r = (some broader, r') →
      ¬ policy.Nests svc k broader r'
  | .disabled => ⟨0, fun _ _ he => nomatch he⟩
  | .nothing hb => ⟨0, fun _ _ _ hb' => nomatch hb.symm.trans hb'⟩
  | .judged hb he => by
      obtain ⟨k, hk⟩ := he.exists_not_nests
      refine ⟨k, fun broader r' _ hb' => ?_⟩
      cases hb.symm.trans hb'
      exact hk

end

/-- The recursion comes to an end exactly if it gets only so deep. -/
theorem exists_evaluates_iff :
    (∃ out, policy.Evaluates svc q r out) ↔ ∃ k, ¬ policy.Nests svc k q r := by
  constructor
  · rintro ⟨out, heval⟩
    exact heval.exists_not_nests
  · rintro ⟨k, hk⟩
    exact ⟨_, (policy.evaluates_or_nests svc k q r).resolve_right hk⟩

/-- The answer to a query is that of the recursion without a bound, unless the recursion gets
`generalizationDepth` deep. Then the query it comes to there is passed over as if it had failed. -/
theorem hasPermission_of_not_nests (h : ¬ policy.Nests svc generalizationDepth q r) :
    ∃ out, policy.Evaluates svc q r out ∧
      ((policy.hasPermission svc q r).1 = true ↔ out.1 = .ok true) :=
  ⟨_, (policy.evaluates_or_nests svc generalizationDepth q r).resolve_right h,
    hasPermission_fst_eq_true_iff⟩

/-- One of two activities that imply all others. -/
def everythingAt (day : Bool) : Activity :=
  ⟨allPermissions, "All permissions", if day then "day" else "night"⟩

/-- A service that takes turns with two activities that imply all others. -/
def turncoat : Service Bool where
  reply
    | .permissions .., day => ⟨.ok [], day, 0⟩
    | .groupMember p, day => ⟨.ok (.ofPrincipal p), day, 0⟩
    | .parentGroups _, day => ⟨.ok [], day, 0⟩
    | .newPrincipal m, day => ⟨.ok (.ofMember m), day, 0⟩
    | .resolveOwner fname, day => ⟨.ok (some ⟨fname, "System"⟩), day, 0⟩
    | .resolveActivity .., day => ⟨.ok (some (everythingAt day)), !day, 0⟩
    | .resolveTarget _ key, day => ⟨.ok (some ⟨key, "All", .other⟩), day, 0⟩

/-- The query for all permissions is for an activity that implies all others no more when it comes
to be generalized itself, and so on without end. -/
theorem turncoat_nests (hsuper : policy.superUserShortcut = true) (n : Nat) {q : Query}
    {r : Run Bool} (hq : q.activity ≠ everythingAt r.state) : policy.Nests turncoat n q r := by
  induction n generalizing q r with
  | zero => exact .zero
  | succ n ih =>
      let broader : Query := ⟨q.principal, ⟨systemOwner, "System"⟩, everythingAt r.state,
        some ⟨allTarget, "All", .other⟩⟩
      have hb : superUserQuery turncoat q r = (some broader, (superUserQuery turncoat q r).2) := by
        simp only [superUserQuery, Run.ask, turncoat, if_neg hq, broader]
      have hturned : (superUserQuery turncoat q r).2.state = !r.state := by
        simp only [superUserQuery, Run.ask, turncoat, if_neg hq]
      refine .superUser hsuper hb (ih ?_)
      rw [hturned]
      show everythingAt r.state ≠ everythingAt !r.state
      cases r.state <;> decide

/-! ### How deep it goes -/

variable (policy svc) in
/-- The recursion comes to an end, `k` queries deep at most and after `c` searches at most. -/
def Settles (k c : Nat) (q : Query) (r : Run σ) : Prop :=
  ∃ out, policy.Evaluates svc q r out ∧ (∀ depth ≥ k, policy.evaluate svc depth q r = out) ∧
    Run.Searches c r out.2

theorem Settles.mono {k k' c : Nat} (h : policy.Settles svc k c q r) (hk : k ≤ k') :
    policy.Settles svc k' c q r := by
  obtain ⟨out, heval, heq, hc⟩ := h
  exact ⟨out, heval, fun depth hdepth => heq depth (Nat.le_trans hk hdepth), hc⟩

/-- What is judged comes to an end if the broader query does. -/
theorem judges_of_broader {k c : Nat} {broaden : Broadening σ}
    (hresolves : ∀ q r, Resolves svc r (broaden q r).2)
    (h : ∀ broader r', broaden q r = (some broader, r') → policy.Settles svc k c broader r')
    (enabled : Bool) :
    ∃ out, policy.Judges svc enabled broaden q r out ∧
      (∀ depth ≥ k, judgeBroader enabled broaden (policy.judgeAt svc depth) q r = out) ∧
      Run.Searches c r out.2 := by
  have hasks : Run.Searches 0 r (broaden q r).2 := (hresolves q r).asks.searches
  cases enabled with
  | false => exact ⟨_, .disabled, fun _ _ => rfl, ⟨[], rfl, Nat.zero_le c⟩⟩
  | true =>
      rcases hb : broaden q r with ⟨_ | broader, r'⟩
      · rw [hb] at hasks
        refine ⟨_, .nothing hb, fun _ _ => by simp only [judgeBroader, hb, if_true], ?_⟩
        exact hasks.mono (Nat.zero_le c)
      · rw [hb] at hasks
        obtain ⟨out, heval, heq, hc⟩ := h broader r' hb
        refine ⟨_, .judged hb heval, fun depth hdepth => ?_, ?_⟩
        · simp only [judgeBroader, hb, if_true, judgeAt, heq depth hdepth]
        · rw [contained_snd]
          exact (hasks.trans hc).mono (Nat.zero_add c).le

/-- A query comes to an end if its generalizations do, one query deeper and one search later. -/
theorem settles_succ {st : σ} {a : Answers} (hs : svc.Settled st a) (hst : r.state = st)
    {k c c' : Nat}
    (hsuper : ∀ broader r', superUserQuery svc q r = (some broader, r') →
      policy.Settles svc k c broader r')
    (hcollective : ∀ r₁, r₁.state = st → ∀ broader r',
      collectiveQuery svc q r₁ = (some broader, r') → policy.Settles svc k c' broader r') :
    policy.Settles svc (k + 1) (c + c' + 1) q r := by
  obtain ⟨⟨super, r₁⟩, hjudges, heq, hc⟩ :=
    judges_of_broader superUserQuery_resolves hsuper policy.superUserShortcut
  have hst₁ : r₁.state = st := by
    have hmoves := (@Cases.attempt σ policy svc (fun _ _ _ _ => True) k _ superUserQuery_asks
      ((Cases.trivial policy svc).evaluates k) policy.superUserShortcut q r).2
    have hout : judgeBroader policy.superUserShortcut (superUserQuery svc)
        (policy.judgeAt svc k) q r = (super, r₁) := heq k (Nat.le_refl k)
    rw [hout] at hmoves
    exact hmoves.state_eq hs hst
  obtain ⟨⟨collective, r₂⟩, hjudges', heq', hc'⟩ :=
    judges_of_broader collectiveQuery_resolves (hcollective r₁ hst₁) policy.collectiveTargets
  cases super with
  | true =>
      refine ⟨_, .superUser hjudges, fun depth hdepth => ?_, hc.mono (by omega)⟩
      obtain ⟨d, rfl⟩ := Nat.exists_eq_add_of_le' hdepth
      exact evaluate_of_superUser (heq (d + k) (by omega))
  | false =>
      cases collective with
      | true =>
          refine ⟨_, .collective hjudges hjudges', fun depth hdepth => ?_,
            (hc.trans hc').mono (by omega)⟩
          obtain ⟨d, rfl⟩ := Nat.exists_eq_add_of_le' hdepth
          exact evaluate_of_collective (heq (d + k) (by omega)) (heq' (d + k) (by omega))
      | false =>
          refine ⟨_, .searched hjudges hjudges', fun depth hdepth => ?_, ?_⟩
          · obtain ⟨d, rfl⟩ := Nat.exists_eq_add_of_le' hdepth
            exact evaluate_of_neither (heq (d + k) (by omega)) (heq' (d + k) (by omega))
          · have haside : Run.Searches 0 r₂ (r₂.setAside policy.seenCapacity) :=
              ⟨[], rfl, Nat.le_refl 0⟩
            exact ((hc.trans hc').trans haside).trans (Search.run_searches _ _ _ _)

section named

variable {st : σ} {a : Answers} (hs : svc.Settled st a) (hn : a.Named)

include hs

/-- What a broadening finds is what settled answers tell, and it leaves the state as it is. -/
theorem superUserQuery_eq_some (hst : r.state = st) {broader : Query}
    (hb : superUserQuery svc q r = (some broader, r')) :
    a.superUserQuery q = some broader ∧ r'.state = st := by
  have hfst := superUserQuery_fst hs hst q
  have hst' := (superUserQuery_asks q r).state_eq hs hst
  rw [hb] at hfst hst'
  exact ⟨hfst.symm, hst'⟩

theorem collectiveQuery_eq_some (hst : r.state = st) {broader : Query}
    (hb : collectiveQuery svc q r = (some broader, r')) :
    a.collectiveQuery q = some broader ∧ r'.state = st := by
  have hfst := collectiveQuery_fst hs hst q
  have hst' := (collectiveQuery_asks q r).state_eq hs hst
  rw [hb] at hfst hst'
  exact ⟨hfst.symm, hst'⟩

/-- A query that is not generalized is searched for. -/
theorem settles_of_neither (hst : r.state = st) (hsuper : a.superUserQuery q = none)
    (hcollective : a.collectiveQuery q = none) : policy.Settles svc 1 1 q r := by
  refine @settles_succ σ policy svc q r st a hs hst 0 0 0 ?_ ?_
  · intro broader r' hb
    have hsome := (superUserQuery_eq_some hs hst hb).1
    exact nomatch hsuper.symm.trans hsome
  · intro r₁ hst₁ broader r' hb
    have hsome := (collectiveQuery_eq_some hs hst₁ hb).1
    exact nomatch hcollective.symm.trans hsome

include hn

/-- So is the query for all permissions. -/
theorem settles_superUser (hst : r.state = st) {broader : Query}
    (hb : superUserQuery svc q r = (some broader, r')) : policy.Settles svc 1 1 broader r' := by
  obtain ⟨hsome, hst'⟩ := superUserQuery_eq_some hs hst hb
  exact settles_of_neither hs hst' (Answers.superUserQuery_superUserQuery hsome)
    (Answers.collectiveQuery_superUserQuery hn hsome)

theorem settles_of_collectiveQuery_eq_none (hst : r.state = st) (hq : a.collectiveQuery q = none) :
    policy.Settles svc 2 2 q r := by
  refine @settles_succ σ policy svc q r st a hs hst 1 1 0
    (fun broader r' => settles_superUser hs hn hst) ?_
  intro r₁ hst₁ broader r' hb
  have hsome := (collectiveQuery_eq_some hs hst₁ hb).1
  exact nomatch hq.symm.trans hsome

/-- Where definitions are found under their names, the recursion from any query ends. -/
theorem settles (q : Query) (hst : r.state = st) : policy.Settles svc 3 4 q r := by
  refine @settles_succ σ policy svc q r st a hs hst 2 1 2 ?_ ?_
  · intro broader r' hb
    exact (settles_superUser hs hn hst hb).mono (by omega)
  · intro r₁ hst₁ broader r' hb
    obtain ⟨hsome, hst'⟩ := collectiveQuery_eq_some hs hst₁ hb
    exact settles_of_collectiveQuery_eq_none hs hn hst'
      (Answers.collectiveQuery_collectiveQuery hn hsome)

end named

/-! ### Directories -/

/-- However a directory has come about, it stores every target under the target's own key. So in a
directory, whatever requests fail and whatever groups are replaced, and with any policy,

* the recursion through the generalizations of any query ends, three queries deep at most: without a
  bound it has exactly the outcome that an evaluation of that depth or more has;
* the query for all permissions is generalized in neither way;
* a query for all targets of a type is not generalized to all targets of a type again;
* an answer takes four searches at most: one for the query, one for each of its generalizations, and
  one for all permissions on the way to all targets of the type. -/
theorem generalizations_end {st : StagedDirectory} {changes : List DirectoryChange}
    (hchanges : st.directory = ({} : Directory).changes changes) :
    (∀ provider known key target, st.directory.targets.get? provider = some known →
      known.get? key = some target → target.key = key) ∧
    ∀ (policy : Policy) (q : Query) (r : Run StagedDirectory), r.state = st →
      (∀ depth ≥ 3, ∀ out, policy.Evaluates StagedDirectory.service q r out ↔
        policy.evaluate StagedDirectory.service depth q r = out) ∧
      (∀ broader r₁, superUserQuery StagedDirectory.service q r = (some broader, r₁) →
        ∀ r₂, r₂.state = st → (superUserQuery StagedDirectory.service broader r₂).1 = none ∧
          (collectiveQuery StagedDirectory.service broader r₂).1 = none) ∧
      (∀ broader r₁, collectiveQuery StagedDirectory.service q r = (some broader, r₁) →
        ∀ r₂, r₂.state = st → (collectiveQuery StagedDirectory.service broader r₂).1 = none) ∧
      (r.since (policy.hasPermission StagedDirectory.service q r).2).countP (·.isSearch) ≤ 4 := by
  have hnamed : st.directory.Named := hchanges ▸ Directory.changes_named changes
  have hn : st.answers.Named := hnamed.staged
  have hs : StagedDirectory.service.Settled st st.answers := fun request => ⟨rfl, rfl⟩
  refine ⟨hnamed.target, fun policy q r hst => ?_⟩
  obtain ⟨out, heval, heq, hsearches⟩ : policy.Settles StagedDirectory.service 3 4 q r :=
    settles hs hn q hst
  refine ⟨fun depth hdepth out' => ?_, ?_, ?_, ?_⟩
  · rw [heq depth hdepth]
    constructor
    · intro heval'
      obtain ⟨k, hk⟩ := heval'.evaluate_eq
      rw [← hk (k + 3) (by omega)]
      exact (heq (k + 3) (by omega)).symm
    · rintro rfl
      exact heval
  · intro broader r₁ hb r₂ hst₂
    have hsome := (superUserQuery_eq_some hs hst hb).1
    rw [superUserQuery_fst hs hst₂, collectiveQuery_fst hs hst₂]
    exact ⟨Answers.superUserQuery_superUserQuery hsome,
      Answers.collectiveQuery_superUserQuery hn hsome⟩
  · intro broader r₁ hb r₂ hst₂
    have hsome := (collectiveQuery_eq_some hs hst hb).1
    rw [collectiveQuery_fst hs hst₂]
    exact Answers.collectiveQuery_collectiveQuery hn hsome
  · obtain ⟨counters, hcounters⟩ :=
      hasPermission_snd policy StagedDirectory.service q r
    rw [heq generalizationDepth (by decide)] at hcounters
    have hafter : Run.Searches 0 out.2 (policy.hasPermission StagedDirectory.service q r).2 := by
      rw [hcounters]
      exact ⟨[], rfl, Nat.le_refl 0⟩
    exact (hsearches.trans hafter).countP_since_le

/-- A directory in which the targets that stand for many have been redefined with odd types, and the
activity that implies all others with their provider. -/
def oddDefinitions : List DirectoryChange :=
  [.addOwner ⟨systemOwner, "System"⟩,
    .addActivity systemOwner ⟨allPermissions, "All permissions", "everything"⟩,
    .registerCollectiveTargets "provider",
    .addActivity systemOwner ⟨allPermissions, "All permissions, again", "provider"⟩,
    .addTarget "provider" ⟨allPortlets, "All portlets", .category⟩,
    .addTarget "provider" ⟨allTarget, "All", .portlet⟩]

/-- A query of that directory, in which nothing can be looked up about a group. -/
def oddRun : Run StagedDirectory where
  state :=
    { directory := ({} : Directory).changes oddDefinitions
      faults := [⟨"permissions", "group.staff"⟩] }
  clock := .startingAt 0 0
  cache := .timed { ttl := 60, capacity := 0 }

/-- All four searches are made there. -/
theorem generalizations_end_with_odd_definitions :
    let policy : Policy := ⟨true, true, 3, 100⟩
    let q : Query := ⟨⟨.group, "staff"⟩, ⟨"O", "Owner"⟩, ⟨"ACT", "Activity", "provider"⟩,
      some ⟨"T", "Target", .portlet⟩⟩
    (∃ out, policy.Evaluates StagedDirectory.service q oddRun out) ∧
      (oddRun.since (policy.hasPermission StagedDirectory.service q oddRun).2).countP
        (·.isSearch) = 4 := by
  intro policy q
  have hchanges : oddRun.state.directory = ({} : Directory).changes oddDefinitions := rfl
  have hends := (generalizations_end hchanges).2 policy q oddRun rfl
  exact ⟨⟨_, (hends.1 3 (Nat.le_refl 3) _).mpr rfl⟩,
    Nat.le_antisymm hends.2.2.2 (by decide +kernel)⟩

end Policy

end GrantPath
