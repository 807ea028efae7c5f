import GrantPath.Proofs.Provenance

/-! # Searches and queries in lockstep

Two runs may differ in much that a search does not look at, and two searches in much that does not
show. Whatever it is, they are compared in the same way: a relation between runs is kept by each
thing that the two searches do, and each thing has the same result.

* `Search.Lockstep` lists what a search does, one field each, and `Search.Lockstep.run` is the
  recursion: the two searches come to the same result and leave related runs.
* `Policy.Lockstep` does so for queries, which search and ask for definitions in between
  (`Policy.Lockstep.hasPermission`). The queries may be confined to those that have targets, as all
  generalizations do.

The first use is that counters, journal and what had overrun before make no difference to an answer
(`Policy.hasPermission_fst_of_sameSight`). -/

namespace GrantPath

variable {σ α : Type}

namespace Run

/-- In related runs the two acts come to the same result, and they leave related runs. -/
def InStep (R : Run σ → Run σ → Prop) (act act' : Run σ → α × Run σ) : Prop :=
  ∀ r r', R r r' → (act r).1 = (act' r').1 ∧ R (act r).2 (act' r').2

theorem InStep.split {R : Run σ → Run σ → Prop} {act act' : Run σ → α × Run σ}
    (h : InStep R act act') {r r' : Run σ} (hr : R r r') :
    ∃ x r₁ r₁', act r = (x, r₁) ∧ act' r' = (x, r₁') ∧ R r₁ r₁' := by
  obtain ⟨hresult, hafter⟩ := h r r' hr
  refine ⟨(act r).1, (act r).2, (act' r').2, rfl, ?_, hafter⟩
  rw [hresult]

/-- Acts that do the same to equal runs are equal. -/
theorem inStep_eq_iff {act act' : Run σ → α × Run σ} : InStep Eq act act' ↔ act' = act := by
  constructor
  · intro h
    funext r
    obtain ⟨hresult, hafter⟩ := h r r rfl
    exact Prod.ext hresult.symm hafter.symm
  · rintro rfl r _ rfl
    exact ⟨rfl, rfl⟩

end Run

/-! ### Searches -/

namespace Search

/-- What the two searches do to related runs has the same results and leaves them related. -/
structure Lockstep (R : Run σ → Run σ → Prop) (s s' : Search σ) : Prop where
  limit : s.limit = s'.limit
  key : ∀ p, s.scope.key p = s'.scope.key p
  wall {r r'} : R r r' → r.clock.wall = r'.clock.wall
  seen {r r'} : R r r' → r.seen = r'.seen
  count {r r'} : R r r' → ∀ o, R (r.count o) (r'.count o)
  see {r r'} : R r r' → ∀ m, R (r.see m) (r'.see m)
  beginSearch {r r'} : R r r' → ∀ p seen,
    R (r.beginSearch (s.scope.key p) seen) (r'.beginSearch (s.scope.key p) seen)
  readCache : ∀ p, Run.InStep R (Run.readCache (s.scope.key p)) (Run.readCache (s.scope.key p))
  writeCache {r r'} : R r r' → ∀ p allowed,
    R (r.writeCache (s.scope.key p) allowed) (r'.writeCache (s.scope.key p) allowed)
  lookUp : ∀ p, Run.InStep R (s.lookUp p) (s'.lookUp p)
  groupMember : ∀ p,
    Run.InStep R (Run.ask s.service (.groupMember p)) (Run.ask s'.service (.groupMember p))
  parentGroups : ∀ m,
    Run.InStep R (Run.ask s.service (.parentGroups m)) (Run.ask s'.service (.parentGroups m))
  newPrincipal : ∀ m,
    Run.InStep R (Run.ask s.service (.newPrincipal m)) (Run.ask s'.service (.newPrincipal m))

namespace Lockstep

variable {R : Run σ → Run σ → Prop} {s s' : Search σ} {evaluate evaluate' : Evaluation σ}
  (h : Lockstep R s s')

include h

theorem enter (p : Principal) :
    Run.InStep R (Run.enter s.service p) (Run.enter s'.service p) := by
  intro r r' hr
  obtain ⟨reply, r₁, r₁', hout, hout', hr₁⟩ := (h.groupMember p).split hr
  simp only [Run.enter, hout, hout']
  cases reply with
  | error e => exact ⟨rfl, hr₁⟩
  | ok m =>
      simp only [h.seen hr₁]
      by_cases hm : m ∈ r₁'.seen
      · simp only [if_pos hm]
        exact ⟨trivial, hr₁⟩
      · simp only [if_neg hm]
        exact ⟨trivial, h.see hr₁ m⟩

theorem anyGroup (he : ∀ p, Run.InStep R (evaluate p) (evaluate' p)) :
    ∀ groups, Run.InStep R (s.anyGroup evaluate groups) (s'.anyGroup evaluate' groups)
  | [] => fun _ _ hr => ⟨rfl, hr⟩
  | g :: gs => by
      have hrest := anyGroup he gs
      intro r r' hr
      obtain ⟨reply, r₁, r₁', hout, hout', hr₁⟩ := (h.newPrincipal g).split hr
      simp only [Search.anyGroup, evaluateGroup, hout, hout']
      cases reply with
      | error e => exact hrest _ _ (h.count hr₁ .branchFailure)
      | ok q =>
          obtain ⟨outcome, r₂, r₂', hout, hout', hr₂⟩ := (he q).split hr₁
          simp only [hout, hout']
          rcases outcome with e | _ | _
          · exact hrest _ _ (h.count hr₂ .branchFailure)
          · exact hrest _ _ hr₂
          · exact ⟨rfl, hr₂⟩

theorem climb (he : ∀ p, Run.InStep R (evaluate p) (evaluate' p)) (p : Principal) :
    Run.InStep R (s.climb evaluate p) (s'.climb evaluate' p) := by
  intro r r' hr
  obtain ⟨entered, r₁, r₁', hout, hout', hr₁⟩ := (h.enter p).split hr
  simp only [Search.climb, hout, hout']
  rcases entered with e | _ | m
  · exact ⟨rfl, hr₁⟩
  · exact ⟨rfl, h.count hr₁ .cycleGuardHit⟩
  · obtain ⟨reply, r₂, r₂', hout, hout', hr₂⟩ := (h.parentGroups m).split hr₁
    simp only [hout, hout']
    cases reply with
    | error e => exact ⟨rfl, hr₂⟩
    | ok groups =>
        obtain ⟨granted, hafter⟩ := h.anyGroup he groups r₂ r₂' hr₂
        exact ⟨congrArg Except.ok granted, hafter⟩

theorem visit {groups? groups'? : Option (Evaluation σ)}
    (he : Option.Rel (fun e e' => ∀ p, Run.InStep R (e p) (e' p)) groups? groups'?)
    (p : Principal) : Run.InStep R (s.visit groups? p) (s'.visit groups'? p) := by
  intro r r' hr
  obtain ⟨reply, r₁, r₁', hout, hout', hr₁⟩ := (h.lookUp p).split hr
  simp only [Search.visit, hout, hout']
  cases reply with
  | error e => exact ⟨rfl, hr₁⟩
  | ok records =>
      simp only [h.wall hr₁]
      cases Permission.verdict records r₁'.clock.wall with
      | some granted => exact ⟨rfl, hr₁⟩
      | none =>
          cases he with
          | none => exact ⟨by rw [h.limit], hr₁⟩
          | some he => exact h.climb he p r₁ r₁' hr₁

/-- What is found in the cache is found in both runs, and what is not found is computed in both. -/
theorem cached (he : ∀ p, Run.InStep R (evaluate p) (evaluate' p)) (p : Principal) :
    Run.InStep R (s.cached evaluate p) (s'.cached evaluate' p) := by
  intro r r' hr
  obtain ⟨found, r₁, r₁', hout, hout', hr₁⟩ := (h.readCache p).split hr
  simp only [Search.cached, Run.getOrCompute, ← h.key, hout, hout']
  cases found with
  | some allowed => exact ⟨rfl, h.count hr₁ .cacheHit⟩
  | none =>
      obtain ⟨outcome, r₂, r₂', hout, hout', hr₂⟩ := (he p).split (h.count hr₁ .cacheMiss)
      simp only [hout, hout']
      cases outcome with
      | error e => exact ⟨rfl, hr₂⟩
      | ok allowed => exact ⟨rfl, h.writeCache hr₂ p allowed⟩

theorem resolve : ∀ (n : Nat) (p : Principal), Run.InStep R (s.resolve n p) (s'.resolve n p)
  | 0 => h.visit .none
  | n + 1 => h.visit (.some (h.cached (resolve n)))

theorem run (seen : SeenGroups) (p : Principal) :
    Run.InStep R (s.run seen p) (s'.run seen p) := by
  intro r r' hr
  have hbegun := h.beginSearch hr p seen
  unfold Search.run
  rw [← h.key, ← h.limit]
  exact h.cached (h.resolve s.limit) p _ _ hbegun

theorem runAnew (seen : SeenGroups) (p : Principal) :
    Run.InStep R (s.runAnew seen p) (s'.runAnew seen p) := by
  intro r r' hr
  have hbegun := h.beginSearch hr p seen
  unfold Search.runAnew
  rw [← h.key, ← h.limit]
  exact h.resolve s.limit p _ _ hbegun

end Lockstep

end Search

/-! ### Queries -/

namespace Policy

variable {policy : Policy} {svc svc' : Service σ} {q q' : Query}

/-- Generalizations have targets. -/
theorem Broader.isSome {journal : List Event} (h : policy.Broader journal q q') :
    q'.target.isSome = true := by
  cases h <;> rfl

/-- What the policy does with the two services has the same results in related runs and leaves them
related, for queries in a class to which all queries with a target belong. -/
structure Lockstep (policy : Policy) (R : Run σ → Run σ → Prop) (svc svc' : Service σ)
    (In : Query → Prop) : Prop where
  elapsed {r r' : Run σ} : R r r' → r.clock.elapsed = r'.clock.elapsed
  count {r r' : Run σ} : R r r' → ∀ o, R (r.count o) (r'.count o)
  setAside {r r' : Run σ} : R r r' →
    R (r.setAside policy.seenCapacity) (r'.setAside policy.seenCapacity)
  ask : ∀ q, q.isDefinition = true → Run.InStep R (Run.ask svc q) (Run.ask svc' q)
  search {q : Query} : In q → Search.Lockstep R (policy.search svc q) (policy.search svc' q)
  targeted {q : Query} : q.target.isSome = true → In q

namespace Lockstep

variable {R : Run σ → Run σ → Prop} {In : Query → Prop} (h : policy.Lockstep R svc svc' In)

include h

theorem superUserQuery (q : Query) :
    Run.InStep R (superUserQuery svc q) (superUserQuery svc' q) := by
  intro r r' hr
  obtain ⟨reply, r₁, r₁', hout, hout', hr₁⟩ :=
    (h.ask (.resolveActivity systemOwner allPermissions) rfl).split hr
  simp only [Policy.superUserQuery, hout, hout']
  rcases reply with _ | _ | everything
  · exact ⟨rfl, hr₁⟩
  · exact ⟨rfl, hr₁⟩
  by_cases hne : q.activity = everything
  · simp only [if_pos hne]
    exact ⟨trivial, hr₁⟩
  simp only [if_neg hne]
  obtain ⟨reply, r₂, r₂', hout, hout', hr₂⟩ :=
    (h.ask (.resolveOwner systemOwner) rfl).split hr₁
  simp only [hout, hout']
  rcases reply with _ | _ | owner
  · exact ⟨rfl, hr₂⟩
  · exact ⟨rfl, hr₂⟩
  obtain ⟨reply, r₃, r₃', hout, hout', hr₃⟩ :=
    (h.ask (.resolveTarget everything.targetProvider allTarget) rfl).split hr₂
  simp only [hout, hout']
  rcases reply with _ | _ | target
  · exact ⟨rfl, hr₃⟩
  · exact ⟨rfl, hr₃⟩
  · exact ⟨rfl, hr₃⟩

theorem collectiveQuery (q : Query) :
    Run.InStep R (collectiveQuery svc q) (collectiveQuery svc' q) := by
  intro r r' hr
  unfold Policy.collectiveQuery collectiveTarget
  cases q.target with
  | none => exact ⟨rfl, hr⟩
  | some target =>
      by_cases hcollective : target.isCollective
      · simp only [if_pos hcollective]
        exact ⟨trivial, hr⟩
      simp only [if_neg hcollective]
      cases target.type.collectiveKey? with
      | none => exact ⟨rfl, hr⟩
      | some key =>
          obtain ⟨reply, r₁, r₁', hout, hout', hr₁⟩ :=
            (h.ask (.resolveTarget q.activity.targetProvider key) rfl).split hr
          simp only [hout, hout']
          rcases reply with _ | _ | collective
          · exact ⟨rfl, hr₁⟩
          · exact ⟨rfl, hr₁⟩
          · exact ⟨rfl, hr₁⟩

omit h in
theorem judgeBroader (enabled : Bool) {broaden broaden' : Broadening σ} {judge judge' : Judge σ}
    (hbroaden : Run.InStep R (broaden q) (broaden' q))
    (hjudge : ∀ q' r r', enabled = true → broaden q r = (some q', r') →
      Run.InStep R (judge q') (judge' q')) :
    Run.InStep R (judgeBroader enabled broaden judge q)
      (judgeBroader enabled broaden' judge' q) := by
  intro r r' hr
  unfold Policy.judgeBroader
  cases enabled with
  | false => exact ⟨rfl, hr⟩
  | true =>
      obtain ⟨broader, r₁, r₁', hout, hout', hr₁⟩ := hbroaden.split hr
      simp only [if_true, hout, hout']
      cases broader with
      | none => exact ⟨rfl, hr₁⟩
      | some q' => exact hjudge q' r r₁ rfl hout r₁ r₁' hr₁

omit h in
theorem contained {act act' : Run σ → Except Error Bool × Run σ} (h : Run.InStep R act act') :
    Run.InStep R (fun r => contained (act r)) (fun r => contained (act' r)) := by
  intro r r' hr
  obtain ⟨outcome, r₁, r₁', hout, hout', hr₁⟩ := h.split hr
  simp only [hout, hout']
  cases outcome with
  | error e => exact ⟨rfl, hr₁⟩
  | ok granted => exact ⟨rfl, hr₁⟩

theorem evaluate : ∀ (depth : Nat) {q : Query}, In q →
    Run.InStep R (policy.evaluate svc depth q) (policy.evaluate svc' depth q)
  | 0, _, _ => fun _ _ hr => ⟨rfl, hr⟩
  | depth + 1, q, hq => by
      have hjudge {q' : Query} (ht : q'.target.isSome = true) :=
        contained (evaluate depth (h.targeted ht))
      have hsuper := judgeBroader policy.superUserShortcut (h.superUserQuery q)
        fun _ _ _ he hb => hjudge (superUserQuery_broader he hb).isSome
      have hcollective := judgeBroader policy.collectiveTargets (h.collectiveQuery q)
        fun _ _ _ he hb => hjudge (collectiveQuery_broader he hb).isSome
      intro r r' hr
      obtain ⟨granted, r₁, r₁', hout, hout', hr₁⟩ := hsuper.split hr
      simp only [evaluate_succ, hout, hout']
      cases granted with
      | true => exact ⟨rfl, h.count hr₁ .superUserGrant⟩
      | false =>
          obtain ⟨granted, r₂, r₂', hout, hout', hr₂⟩ := hcollective.split hr₁
          simp only [hout, hout']
          cases granted with
          | true => exact ⟨rfl, h.count hr₂ .collectiveGrant⟩
          | false => exact (h.search hq).run .empty q.principal _ _ (h.setAside hr₂)

theorem hasPermission (hq : In q) :
    Run.InStep R (policy.hasPermission svc q) (policy.hasPermission svc' q) := by
  intro r r' hr
  obtain ⟨outcome, r₁, r₁', hout, hout', hr₁⟩ := (h.evaluate generalizationDepth hq).split hr
  unfold Policy.hasPermission
  simp only [hout, hout']
  cases outcome with
  | error e =>
      simp only [Run.count, h.elapsed hr, h.elapsed hr₁]
      exact ⟨trivial, h.count (h.count hr₁ .topLevelFailure) _⟩
  | ok granted =>
      simp only [h.elapsed hr, h.elapsed hr₁]
      exact ⟨trivial, h.count hr₁ _⟩

end Lockstep

end Policy

/-! ### The same sight -/

namespace Run

/-- The runs differ at most in their counters, in what was done, and in what had overrun. -/
structure SameSight (r r' : Run σ) : Prop where
  state : r.state = r'.state
  clock : r.clock = r'.clock
  cache : r.cache = r'.cache
  seen : r.seen = r'.seen

namespace SameSight

variable {r r' : Run σ}

theorem trans {m : Run σ} (h : SameSight r m) (h' : SameSight m r') : SameSight r r' where
  state := h.state.trans h'.state
  clock := h.clock.trans h'.clock
  cache := h.cache.trans h'.cache
  seen := h.seen.trans h'.seen

theorem ask (svc : Service σ) (q : Request) : InStep SameSight (ask svc q) (ask svc q) := by
  intro r r' h
  have hreply : svc.reply q r.state = svc.reply q r'.state := by rw [h.state]
  refine ⟨congrArg Reply.answer hreply, congrArg Reply.state hreply, ?_, h.cache, h.seen⟩
  rw [ask_clock, ask_clock, hreply, h.clock]

theorem readCache (key : DecisionKey) :
    InStep (σ := σ) SameSight (readCache key) (readCache key) := by
  intro r r' h
  have hfound : (r.readCache key).1 = (r'.readCache key).1 := by
    apply Option.ext
    intro allowed
    rw [readCache_eq_some_iff, readCache_eq_some_iff, h.clock, h.cache]
  refine ⟨hfound, ?_⟩
  constructor
  · simpa using h.state
  · simpa using h.clock
  · rw [readCache_cache, readCache_cache, h.clock, h.cache]
  · simpa using h.seen

theorem writeCache (h : SameSight r r') (key : DecisionKey) (allowed : Bool) :
    SameSight (r.writeCache key allowed) (r'.writeCache key allowed) := by
  constructor
  · simpa using h.state
  · simpa using h.clock
  · rw [writeCache_cache, writeCache_cache, h.clock, h.cache]
  · simpa using h.seen

theorem count (h : SameSight r r') (o : Occurrence) : SameSight (r.count o) (r'.count o) :=
  { h with }

end SameSight

end Run

open Run in
theorem Search.lockstep_sameSight (s : Search σ) : Lockstep SameSight s s where
  limit := rfl
  key _ := rfl
  wall h := by rw [h.clock]
  seen h := h.seen
  count h o := h.count o
  see h m := { h with seen := congrArg (·.insert m) h.seen }
  beginSearch h _ _ := { h with seen := rfl }
  readCache _ := SameSight.readCache _
  writeCache h _ allowed := h.writeCache _ allowed
  lookUp _ r r' h := SameSight.ask s.service _ _ _ (h.count .nodeEvaluated)
  groupMember _ := SameSight.ask _ _
  parentGroups _ := SameSight.ask _ _
  newPrincipal _ := SameSight.ask _ _

namespace Policy

variable (policy : Policy) (svc : Service σ)

open Run in
theorem lockstep_sameSight : policy.Lockstep SameSight svc svc fun _ => True where
  elapsed h := by rw [h.clock]
  count h o := h.count o
  setAside h := { h with }
  ask q _ := SameSight.ask svc q
  search _ := Search.lockstep_sameSight _
  targeted _ := True.intro

/-- Counters, journal and what had overrun make no difference to an answer. -/
theorem hasPermission_fst_of_sameSight {r r' : Run σ} (h : r.SameSight r') (q : Query) :
    (policy.hasPermission svc q r).1 = (policy.hasPermission svc q r').1 :=
  ((policy.lockstep_sameSight svc).hasPermission True.intro r r' h).1

end Policy

end GrantPath
