import GrantPath.Proofs.Acyclic
import GrantPath.Proofs.Revocation

/-! # How long a yes survives without cycles

A yes that is handed on goes down by at least one membership: a search says yes after it has read
one only if it read it for a principal above its own. If groups have no cycle, and every step
happens at one instant, a withdrawn grant therefore dies out level by level, a time to live for
each.

* Every yes that is written is `Raised`: together with it a grant was looked up or a yes was read
  for a principal above (`Search.Cases.raises`, `Session.steps_raised`).
* So after the last grant was looked up, a yes for a principal with at most `k` memberships above it
  is written within `k` times to live (`Run.Recorded.written_within`).
* One time to live after that for the longest chain, no query is answered yes
  (`Session.yes_dies_out`). -/

namespace GrantPath

open Relation

variable {σ : Type} {a : Answers}

/-! ### Keys above a key -/

namespace Answers

variable {p q : Principal} {n : Nat}

/-- The second key is that of a principal above the principal of the first one. -/
def Above (a : Answers) (key key' : DecisionKey) : Prop :=
  ∃ s p q, key = Scope.key s p ∧ TransGen a.Parent p q ∧ key' = s.key q

theorem above_key_iff {s : Scope} {key : DecisionKey} :
    a.Above (s.key p) key ↔ ∃ q, TransGen a.Parent p q ∧ key = s.key q := by
  constructor
  · rintro ⟨s', p', q, hkey, hpq, rfl⟩
    obtain ⟨rfl, halike⟩ := Scope.key_eq_key_iff.mp hkey
    exact ⟨q, hpq, Scope.key_eq_key_iff.mpr ⟨rfl, halike.symm⟩⟩
  · rintro ⟨q, hpq, rfl⟩
    exact ⟨s, p, q, rfl, hpq, rfl⟩

theorem Tall.of_succ : ∀ {n : Nat} {p : Principal}, a.Tall (n + 1) p → a.Tall n p
  | 0, _, _ => True.intro
  | _ + 1, _, ⟨q, hq, h⟩ => ⟨q, hq, Tall.of_succ h⟩

/-- Below a chain of parents the chains are longer. -/
theorem Tall.below (hpq : TransGen a.Parent p q) (h : a.Tall n q) : a.Tall (n + 1) p := by
  induction hpq using TransGen.head_induction_on with
  | single hpq => exact ⟨q, hpq, h⟩
  | head hpx _ ih => exact ⟨_, hpx, ih.of_succ⟩

end Answers

/-! ### What raises a yes -/

namespace Event

/-- If the event is a lookup in the membership graph that succeeds, these are the answers. -/
def Follows (a : Answers) : Event → Prop
  | .call (.groupMember p) (.ok m) _ => a (.groupMember p) = .ok m
  | .call (.parentGroups m) (.ok groups) _ => a (.parentGroups m) = .ok groups
  | .call (.newPrincipal g) (.ok q) _ => a (.newPrincipal g) = .ok q
  | _ => True

instance (a : Answers) : DecidablePred (Follows a)
  | .call (.groupMember _) (.ok _) _ => decidable_of_iff _ Answers.toOption_eq_some_iff
  | .call (.parentGroups _) (.ok _) _ => decidable_of_iff _ Answers.toOption_eq_some_iff
  | .call (.newPrincipal _) (.ok _) _ => decidable_of_iff _ Answers.toOption_eq_some_iff
  | .call (.groupMember _) (.error _) _ | .call (.parentGroups _) (.error _) _
  | .call (.newPrincipal _) (.error _) _ | .call (.permissions ..) _ _
  | .call (.resolveOwner ..) _ _ | .call (.resolveActivity ..) _ _ | .call (.resolveTarget ..) _ _
  | .read .. | .write .. | .search .. => isTrue True.intro

/-- The event is a lookup that finds a grant, or a read that finds a yes under such a key. -/
def Tells (P : DecisionKey → Prop) (e : Event) : Prop :=
  e.isGrant = true ∨ ∃ key clock, P key ∧ e = .read key (some true) clock

theorem Tells.mono {P P' : DecisionKey → Prop} {e : Event} (h : e.Tells P)
    (hP : ∀ key, P key → P' key) : e.Tells P' := by
  rcases h with h | ⟨key, clock, hkey, he⟩
  · exact .inl h
  · exact .inr ⟨key, clock, hP key hkey, he⟩

end Event

/-- Among the events each yes that is written goes with one that tells it from above. -/
def Raised (a : Answers) (events : List Event) : Prop :=
  ∀ key clock, .write key true clock ∈ events → ∃ e ∈ events, e.Tells (a.Above key)

theorem Raised.append {new old : List Event} (h : Raised a new) (h' : Raised a old) :
    Raised a (new ++ old) := by
  intro key clock hmem
  rcases List.mem_append.mp hmem with hmem | hmem
  · obtain ⟨e, he, htells⟩ := h key clock hmem
    exact ⟨e, List.mem_append_left _ he, htells⟩
  · obtain ⟨e, he, htells⟩ := h' key clock hmem
    exact ⟨e, List.mem_append_right _ he, htells⟩

namespace Run

/-- From one run to the other every yes that was written was raised. -/
def AllRaised (a : Answers) (r r' : Run σ) : Prop :=
  ∃ new, r'.journal = new ++ r.journal ∧ Raised a new

/-- From one run to the other every yes that was written was raised, and if there is a yes now it
was told under such a key. -/
def Raises (a : Answers) (yes : Prop) (P : DecisionKey → Prop) (r r' : Run σ) : Prop :=
  ∃ new, r'.journal = new ++ r.journal ∧ Raised a new ∧ (yes → ∃ e ∈ new, e.Tells P)

variable {r m r' : Run σ} {yes yes' : Prop} {P P' : DecisionKey → Prop}

theorem AllRaised.of_journal_eq (hj : r'.journal = r.journal) : AllRaised a r r' := by
  refine ⟨[], hj, ?_⟩
  intro key clock hmem
  cases hmem

/-- One event that writes no yes. -/
theorem AllRaised.of_cons {e : Event} (hj : r'.journal = e :: r.journal)
    (he : ∀ key clock, e ≠ .write key true clock) : AllRaised a r r' := by
  refine ⟨[e], hj, ?_⟩
  intro key clock hmem
  exact absurd (List.mem_singleton.mp hmem).symm (he key clock)

theorem AllRaised.trans (h : AllRaised a r m) (h' : AllRaised a m r') : AllRaised a r r' := by
  obtain ⟨old, hj, hold⟩ := h
  obtain ⟨new, hj', hnew⟩ := h'
  exact ⟨new ++ old, by rw [hj', hj, List.append_assoc], hnew.append hold⟩

/-- Without a yes nothing has to be told. -/
theorem AllRaised.raises (h : AllRaised a r r') (hno : ¬ yes) : Raises a yes P r r' := by
  obtain ⟨new, hj, hnew⟩ := h
  exact ⟨new, hj, hnew, fun hyes => absurd hyes hno⟩

theorem Raises.allRaised (h : Raises a yes P r r') : AllRaised a r r' := by
  obtain ⟨new, hj, hnew, -⟩ := h
  exact ⟨new, hj, hnew⟩

theorem Raises.imp (h : Raises a yes P r r') (hyes : yes' → yes) (hP : ∀ key, P key → P' key) :
    Raises a yes' P' r r' := by
  obtain ⟨new, hj, hnew, htold⟩ := h
  refine ⟨new, hj, hnew, ?_⟩
  intro hyes'
  obtain ⟨e, he, htells⟩ := htold (hyes hyes')
  exact ⟨e, he, htells.mono hP⟩

/-- Something happened first. -/
theorem Raises.after (h : Raises a yes P m r') (h' : AllRaised a r m) : Raises a yes P r r' := by
  obtain ⟨new, hj, hnew, htold⟩ := h
  obtain ⟨old, hj', hold⟩ := h'
  refine ⟨new ++ old, by rw [hj, hj', List.append_assoc], hnew.append hold, ?_⟩
  intro hyes
  obtain ⟨e, he, htells⟩ := htold hyes
  exact ⟨e, List.mem_append_left _ he, htells⟩

/-- Something happens afterwards. -/
theorem Raises.before (h : Raises a yes P r m) (h' : AllRaised a m r') : Raises a yes P r r' := by
  obtain ⟨old, hj, hold, htold⟩ := h
  obtain ⟨new, hj', hnew⟩ := h'
  refine ⟨new ++ old, by rw [hj', hj, List.append_assoc], hnew.append hold, ?_⟩
  intro hyes
  obtain ⟨e, he, htells⟩ := htold hyes
  exact ⟨e, List.mem_append_right _ he, htells⟩

/-- What was told from above is written. -/
theorem Raises.write {key : DecisionKey} {allowed : Bool}
    (h : Raises a (allowed = true) (a.Above key) r r') :
    Raises a (allowed = true) (a.Above key) r (r'.writeCache key allowed) := by
  obtain ⟨new, hj, hnew, htold⟩ := h
  have htold' : allowed = true →
      ∃ e ∈ .write key allowed r'.clock :: new, e.Tells (a.Above key) := by
    intro hyes
    obtain ⟨e, he, htells⟩ := htold hyes
    exact ⟨e, List.mem_cons_of_mem _ he, htells⟩
  refine ⟨_, by rw [writeCache_journal, hj, List.cons_append], ?_, htold'⟩
  intro k clock hmem
  rcases List.mem_cons.mp hmem with heq | hmem
  · obtain ⟨rfl, hyes, -⟩ := Event.write.inj heq
    exact htold' hyes.symm
  · obtain ⟨e, he, htells⟩ := hnew k clock hmem
    exact ⟨e, List.mem_cons_of_mem _ he, htells⟩

theorem allRaised_ask (svc : Service σ) (q : Request) (r : Run σ) :
    AllRaised a r (r.ask svc q).2 :=
  .of_cons rfl (by simp)

theorem allRaised_count (o : Occurrence) (r : Run σ) : AllRaised a r (r.count o) :=
  .of_journal_eq rfl

theorem allRaised_read (key : DecisionKey) (r : Run σ) : AllRaised a r (r.readCache key).2 :=
  .of_cons (r.readCache_journal key) (by simp)

end Run

/-! ### Searches -/

namespace Search

open Run (AllRaised Raises Throughout allRaised_ask allRaised_count allRaised_read)

variable {s : Search σ} {p q : Principal} {m g : GroupMember} {groups : List GroupMember}
  {r r' : Run σ} {P : DecisionKey → Prop}

theorem allRaised_looked : AllRaised a r (s.looked p r) :=
  (allRaised_count ..).trans (allRaised_ask ..)

theorem allRaised_named : AllRaised a r (s.named p r) :=
  allRaised_looked.trans (allRaised_ask ..)

theorem allRaised_expanded : AllRaised a r (s.expanded p m r) :=
  (allRaised_named.trans (.of_journal_eq rfl)).trans (allRaised_ask ..)

theorem allRaised_addressed : AllRaised a r (s.addressed r g) := allRaised_ask ..

theorem allRaised_missed : AllRaised a r (s.missed p r) :=
  (allRaised_read ..).trans (allRaised_count ..)

/-- A verdict that grants is a grant that was looked up. -/
theorem Finds.raises {records : List Permission} {granted : Bool}
    (h : s.Finds p r records (some granted)) : Raises a (granted = true) P r (s.looked p r) := by
  obtain ⟨new, hj, hnew⟩ : AllRaised a r (s.looked p r) := allRaised_looked
  refine ⟨new, hj, hnew, ?_⟩
  rintro rfl
  have hcall : .call (.permissions p s.scope.owner s.scope.activity s.scope.target) (s.lookUp p r).1
      (s.looked p r).clock :: r.journal = new ++ r.journal := hj
  obtain rfl : new = [_] :=
    List.append_cancel_right (hcall.symm.trans (List.singleton_append ..).symm)
  refine ⟨_, List.mem_singleton_self _, .inl ?_⟩
  rw [h.1]
  simp only [Event.isGrant, h.2, beq_self_eq_true]

/-- A yes that was read tells itself. -/
theorem raises_hit {granted : Bool} (hk : r.Knows (s.scope.key p) granted) :
    Raises a (granted = true) (· = s.scope.key p) r
      ((r.readCache (s.scope.key p)).2.count .cacheHit) := by
  obtain ⟨new, hj, hnew⟩ : AllRaised a r (r.readCache (s.scope.key p)).2 := allRaised_read ..
  refine ⟨new, hj, hnew, ?_⟩
  rintro rfl
  rw [Run.readCache_journal, Run.readCache_eq_some_iff.mpr hk] at hj
  obtain rfl : new = [_] := List.append_cancel_right (hj.symm.trans (List.singleton_append ..).symm)
  exact ⟨_, List.mem_singleton_self _, .inr ⟨_, _, rfl, rfl⟩⟩

section follows

variable {P : Event → Prop}

/-- What was found in the membership graph when a principal was named. -/
theorem Names.follows (h : s.Names p m r)
    (hf : Throughout (Event.Follows a) r (s.named p r)) : a (.groupMember p) = .ok m := by
  obtain ⟨-, hlast⟩ := hf.split (s.looked_reaches p r).journal_suffix (List.suffix_cons ..)
  have hcall : Event.Follows a (.call (.groupMember p)
    ((s.looked p r).ask s.service (.groupMember p)).1 (s.named p r).clock) := hlast.last rfl
  rw [h] at hcall
  exact hcall

/-- The groups that were found when a member was expanded. -/
theorem groups_follow (h : (((s.named p r).see m).ask s.service (.parentGroups m)).1 = .ok groups)
    (hf : Throughout (Event.Follows a) r (s.expanded p m r)) :
    a (.parentGroups m) = .ok groups := by
  obtain ⟨-, hlast⟩ := hf.split (s.named_reaches p r).journal_suffix (List.suffix_cons ..)
  have hcall : Event.Follows a (.call (.parentGroups m)
    (((s.named p r).see m).ask s.service (.parentGroups m)).1 (s.expanded p m r).clock) :=
      hlast.last rfl
  rw [h] at hcall
  exact hcall

/-- The principal that was found when a group was addressed. -/
theorem principal_follows (h : (r.ask s.service (.newPrincipal g)).1 = .ok q)
    (hf : Throughout (Event.Follows a) r (s.addressed r g)) : a (.newPrincipal g) = .ok q := by
  have hcall : Event.Follows a (.call (.newPrincipal g)
    (r.ask s.service (.newPrincipal g)).1 (s.addressed r g).clock) := hf.last rfl
  rw [h] at hcall
  exact hcall

end follows

/-- While the membership graph is fixed, a visit says yes only if a grant was looked up or a yes was
read for a principal above, and what is written is raised. -/
theorem Cases.raises (s : Search σ) :
    s.Cases
      (fun _ p r out => Throughout (Event.Follows a) r out.2 →
        Raises a (out.1 = .ok true) (a.Above (s.scope.key p)) r out.2)
      (fun _ p r out => Throughout (Event.Follows a) r out.2 →
        Raises a (out.1 = .ok true)
          (fun key => ∃ x, ReflTransGen a.Parent p x ∧ key = s.scope.key x) r out.2)
      (fun _ gs r out => Throughout (Event.Follows a) r out.2 →
        Raises a (out.1 = true) (fun key => ∃ g ∈ gs, ∃ q x, a (.newPrincipal g) = .ok q ∧
          ReflTransGen a.Parent q x ∧ key = s.scope.key x) r out.2) where
  lookUpFails _ _ := allRaised_looked.raises (by simp)
  decided hf _ := hf.raises.imp Except.ok.inj fun _ h => h
  noStepLeft _ _ := allRaised_looked.raises (by simp)
  memberFails _ _ _ := allRaised_named.raises (by simp)
  metBefore _ _ _ _ := (allRaised_named.trans (allRaised_count ..)).raises (by simp)
  groupsFail _ _ _ _ _ := allRaised_expanded.raises (by simp)
  climbed {n p r records m groups out} _ hm _ hg hreach htried hf := by
    obtain ⟨hexpanded, hrest⟩ :=
      hf.split (s.expanded_reaches p m r).journal_suffix (Run.Reaches.journal_suffix hreach)
    obtain ⟨hnamed, -⟩ := hexpanded.split (s.named_reaches p r).journal_suffix (List.suffix_cons ..)
    have hmember := hm.follows hnamed
    have hgroups := groups_follow hg hexpanded
    refine ((htried hrest).after allRaised_expanded).imp Except.ok.inj ?_
    rintro key ⟨g, hmem, q, x, hq, hx, rfl⟩
    have hparent : a.Parent p q := ⟨m, groups, g, hmember, hgroups, hmem, hq⟩
    exact Answers.above_key_iff.mpr ⟨x, TransGen.head' hparent hx, rfl⟩
  noGroupLeft _ := (AllRaised.of_journal_eq rfl).raises (by simp)
  noPrincipal {n g gs r e out} _ hreach htried hf := by
    have hfirst : Run.Reaches s.service r ((s.addressed r g).count .branchFailure) :=
      (s.addressed_reaches g r).tail (.count _ _)
    obtain ⟨-, hrest⟩ := hf.split hfirst.journal_suffix (Run.Reaches.journal_suffix hreach)
    have hbefore : AllRaised a r ((s.addressed r g).count .branchFailure) :=
      allRaised_addressed.trans (allRaised_count ..)
    refine ((htried hrest).after hbefore).imp id ?_
    rintro key ⟨g', hmem, hfound⟩
    exact ⟨g', List.mem_cons_of_mem _ hmem, hfound⟩
  granted {n g gs q r r'} hq hreach hcons hf := by
    obtain ⟨haddressed, hrest⟩ :=
      hf.split (s.addressed_reaches g r).journal_suffix (Run.Reaches.journal_suffix hreach)
    have hprincipal := principal_follows hq haddressed
    refine ((hcons hrest).after allRaised_addressed).imp (fun _ => rfl) ?_
    rintro key ⟨x, hx, rfl⟩
    exact ⟨g, List.mem_cons_self .., q, x, hprincipal, hx, rfl⟩
  refused {n g gs q r r' outcome out} _ hreach hcons _ hreach' htried hf := by
    have hconsult := Run.Reaches.journal_suffix hreach
    have hpass := (s.passedOver_reaches r' outcome).journal_suffix
    have htry := Run.Reaches.journal_suffix hreach'
    obtain ⟨-, hleft⟩ := hf.split (s.addressed_reaches g r).journal_suffix
      (hconsult.trans (hpass.trans htry))
    obtain ⟨hconsulted, hright⟩ := hleft.split hconsult (hpass.trans htry)
    obtain ⟨-, hrest⟩ := hright.split hpass htry
    have hbefore : AllRaised a r (passedOver outcome r') :=
      (allRaised_addressed.trans (hcons hconsulted).allRaised).trans
        (.of_journal_eq (passedOver_journal r' outcome))
    refine ((htried hrest).after hbefore).imp id ?_
    rintro key ⟨g', hmem, hfound⟩
    exact ⟨g', List.mem_cons_of_mem _ hmem, hfound⟩
  hit {n p r granted} hk _ := by
    refine (raises_hit hk).imp Except.ok.inj ?_
    rintro key rfl
    exact ⟨p, .refl, rfl⟩
  computed {n p r granted r'} _ hreach hv hf := by
    have hwrite : Run.Reaches s.service r' (r'.writeCache (s.scope.key p) granted) :=
      .single (.write _ _ _)
    have hlast := hwrite.journal_suffix
    have hvisit := Run.Reaches.journal_suffix hreach
    obtain ⟨-, hrest⟩ := hf.split (s.missed_reaches p r).journal_suffix (hvisit.trans hlast)
    obtain ⟨hvisited, -⟩ := hrest.split hvisit hlast
    have hsaid : Raises a (granted = true) (a.Above (s.scope.key p)) r r' :=
      ((hv hvisited).after allRaised_missed).imp (congrArg _) fun _ h => h
    refine hsaid.write.imp Except.ok.inj ?_
    intro key habove
    obtain ⟨x, hx, rfl⟩ := Answers.above_key_iff.mp habove
    exact ⟨x, hx.to_reflTransGen, rfl⟩
  notComputed {n p r e r'} _ hreach hv hf := by
    obtain ⟨-, hrest⟩ :=
      hf.split (s.missed_reaches p r).journal_suffix (Run.Reaches.journal_suffix hreach)
    exact ((hv hrest).after allRaised_missed).allRaised.raises (by simp)

section runs

variable (seen : SeenGroups)

theorem run_raises (hf : Throughout (Event.Follows a) r (s.run seen p r).2) :
    AllRaised a r (s.run seen p r).2 := by
  have hbegun : AllRaised a r (r.beginSearch (s.scope.key p) seen) := .of_cons rfl (by simp)
  obtain ⟨-, hrest⟩ := hf.split (List.suffix_cons ..) (s.cached_reaches s.limit p _).journal_suffix
  exact (((Cases.raises s).cached s.limit p _ hrest).after hbegun).allRaised

theorem runAnew_raises (hf : Throughout (Event.Follows a) r (s.runAnew seen p r).2) :
    Raises a ((s.runAnew seen p r).1 = .ok true) (a.Above (s.scope.key p)) r
      (s.runAnew seen p r).2 := by
  have hbegun : AllRaised a r (r.beginSearch (s.scope.key p) seen) := .of_cons rfl (by simp)
  obtain ⟨-, hrest⟩ := hf.split (List.suffix_cons ..) (s.resolve_reaches s.limit p _).journal_suffix
  exact ((Cases.raises s).resolve s.limit p _ hrest).after hbegun

end runs

end Search

/-! ### Sessions -/

section sessions

open Run (AllRaised Raises Throughout allRaised_ask allRaised_count allRaised_read)

variable {policy : Policy} {svc : Service σ} {r r' : Run σ}

theorem Policy.Move.raises (h : policy.Move svc r r') (hf : Throughout (Event.Follows a) r r') :
    AllRaised a r r' := by
  cases h with
  | ask q r => exact allRaised_ask ..
  | count o r => exact allRaised_count ..
  | setAside capacity r => exact .of_journal_eq rfl
  | search q r => exact Search.run_raises .empty hf
  | refresh q r =>
      have hreach := (policy.search svc q).runAnew_reaches .empty q.principal r
      have hanew : Throughout (Event.Follows a) r
        ((policy.search svc q).runAnew .empty q.principal r).2 → _ := Search.runAnew_raises .empty
      rcases r.forceRefresh_cases q.key ((policy.search svc q).runAnew .empty q.principal) with
        ⟨e, r₁, hout, hafter⟩ | ⟨granted, r₁, hout, hafter⟩
      · rw [hout] at hanew
        rw [hafter] at hf ⊢
        exact (hanew hf).allRaised
      · rw [hout] at hreach hanew
        rw [hafter] at hf ⊢
        have hwrite : Run.Reaches svc r₁ _ := r₁.prewarm_reaches q.key granted
        obtain ⟨hbefore, -⟩ := hf.split hreach.journal_suffix hwrite.journal_suffix
        have hsaid : Raises a (granted = true) (a.Above q.key) r r₁ :=
          (hanew hbefore).imp (congrArg _) fun _ h => h
        exact hsaid.write.allRaised.trans (allRaised_count ..)

theorem Policy.Moves.raises (h : policy.Moves svc r r')
    (hf : Throughout (Event.Follows a) r r') : AllRaised a r r' := by
  induction h with
  | refl => exact .of_journal_eq rfl
  | tail hm h ih =>
      obtain ⟨hfirst, hlast⟩ := hf.split (Policy.Moves.passes hm).journal h.passes.journal
      exact (ih hfirst).trans (h.raises hlast)

theorem Session.Happens.raises {step : Step σ} (h : Session.Happens policy svc step r r')
    (hw : step.writesDirectly = false) (hf : Throughout (Event.Follows a) r r') :
    AllRaised a r r' := by
  cases h with
  | moved h => exact Policy.Moves.raises h hf
  | searched m r =>
      unfold ManualSearch.perform at hf ⊢
      cases hc : m.cached with
      | true =>
          simp only [hc, if_true] at hf ⊢
          exact Search.run_raises _ hf
      | false =>
          simp only [hc, Bool.false_eq_true, if_false] at hf ⊢
          exact (Search.runAnew_raises _ hf).allRaised
  | read key r => exact allRaised_read ..
  | altered change r => exact .of_journal_eq rfl
  | lapsed _ _ _ hj => exact .of_journal_eq hj
  | written hw' _ => simp [hw] at hw'

end sessions

/-! ### One instant at a time -/

/-- Among the events each yes that is written goes with one of the same instant that tells it from
above. -/
def RaisedAtOnce (a : Answers) (events : List Event) : Prop :=
  ∀ key clock, .write key true clock ∈ events →
    ∃ e ∈ events, e.clock.elapsed = clock.elapsed ∧ e.Tells (a.Above key)

namespace Run

variable {r r' : Run σ}

/-- What happens while the monotonic clock stands, happens at once. -/
theorem Passes.atOnce (h : Passes r r') (hr : r.Recorded)
    (ht : r'.clock.elapsed = r.clock.elapsed) :
    Throughout (fun e => e.clock.elapsed = r.clock.elapsed) r r' := by
  obtain ⟨new, hj, hlater⟩ := h.later
  refine ⟨new, hj, ?_⟩
  intro e he
  have hpast : e.clock.elapsed ≤ r'.clock.elapsed := by
    apply (h.recorded hr).past
    rw [hj]
    exact List.mem_append_left _ he
  have hafter := hlater e he
  omega

theorem AllRaised.atOnce (h : AllRaised a r r') {t : Nat}
    (ht : Throughout (fun e => e.clock.elapsed = t) r r') (hr : RaisedAtOnce a r.journal) :
    RaisedAtOnce a r'.journal := by
  obtain ⟨new, hj, hnew⟩ := h
  rw [hj]
  intro key clock hmem
  rcases List.mem_append.mp hmem with hmem | hmem
  · obtain ⟨e, he, htells⟩ := hnew key clock hmem
    have hnow : ∀ e ∈ new, e.clock.elapsed = t := by
      intro e he
      apply ht.of_mem_since
      rwa [since_eq hj]
    have hwritten : clock.elapsed = t := hnow _ hmem
    exact ⟨e, List.mem_append_left _ he, (hnow e he).trans hwritten.symm, htells⟩
  · obtain ⟨e, he, htells⟩ := hr key clock hmem
    exact ⟨e, List.mem_append_right _ he, htells⟩

theorem advance_journal (nanos : Nat) (r : Run σ) : (r.advance nanos).journal = r.journal := rfl

/-- What was read had been written less than a time to live before. -/
theorem Recorded.written_of_read (hr : r.Recorded) {key : DecisionKey} {allowed : Bool}
    {clock : Clock} (hread : .read key (some allowed) clock ∈ r.journal) :
    ∃ written, .write key allowed written ∈ r.journal ∧
      clock.elapsed < written.elapsed + r.cache.ttl := by
  obtain ⟨later, earlier, hsplit⟩ := List.append_of_mem hread
  have hsuffix : (.read key (some allowed) clock :: earlier) <:+ r.journal := by
    rw [hsplit]
    exact List.suffix_append ..
  obtain ⟨written, hmem, hlt⟩ := hr.read _ _ _ _ hsuffix
  exact ⟨written, hsuffix.subset (List.mem_cons_of_mem _ hmem), hlt⟩

section withdrawn

variable (hr : r.Recorded) (hraised : RaisedAtOnce a r.journal) {since : Nat}
  (hgrant : ∀ e ∈ r.journal, since ≤ e.clock.elapsed → e.isGrant = false)

include hr hraised hgrant

/-- If no grant is looked up from some time on, a yes that is written then had been written for a
principal above less than a time to live before. -/
theorem Recorded.written_above {key : DecisionKey} {clock : Clock}
    (hw : .write key true clock ∈ r.journal) (hsince : since ≤ clock.elapsed) :
    ∃ (s : Scope) (p q : Principal) (written : Clock), key = s.key p ∧ TransGen a.Parent p q ∧
      .write (s.key q) true written ∈ r.journal ∧
        clock.elapsed < written.elapsed + r.cache.ttl := by
  obtain ⟨e, he, htime, hgranted | ⟨_, read, ⟨s, p, q, rfl, hpq, rfl⟩, rfl⟩⟩ := hraised _ _ hw
  · rw [hgrant e he (by omega)] at hgranted
    cases hgranted
  · have hread : read.elapsed = clock.elapsed := htime
    obtain ⟨written, hw', hlt⟩ := hr.written_of_read he
    exact ⟨s, p, q, written, rfl, hpq, hw', by omega⟩

/-- If no grant is looked up from some time on, a yes for a principal with at most `k` memberships
above it is written only within `k` times to live. -/
theorem Recorded.written_within (k : Nat) {s : Scope} {p : Principal} {clock : Clock}
    (hlow : ¬ a.Tall (k + 1) p) (hw : .write (s.key p) true clock ∈ r.journal)
    (hsince : since ≤ clock.elapsed) : clock.elapsed < since + k * r.cache.ttl := by
  induction k generalizing s p clock with
  | zero =>
      obtain ⟨_, _, q, -, hkey, hpq, -⟩ := hr.written_above hraised hgrant hw hsince
      obtain ⟨rfl, -⟩ := Scope.key_eq_key_iff.mp hkey
      have hq : a.Tall 0 q := True.intro
      exact absurd (hq.below hpq) hlow
  | succ k ih =>
      obtain ⟨_, _, q, written, hkey, hpq, hw', hlt⟩ := hr.written_above hraised hgrant hw hsince
      obtain ⟨rfl, -⟩ := Scope.key_eq_key_iff.mp hkey
      rw [Nat.succ_mul]
      by_cases hbefore : since ≤ written.elapsed
      · have hle := ih (fun hq => hlow (hq.below hpq)) hw' hbefore
        omega
      · omega

end withdrawn

end Run

/-- If the query finds no grant, a yes to it is one that it read. -/
theorem Policy.read_of_yes {policy : Policy} {svc : Service σ} {q : Query} {r : Run σ}
    (hquiet : ∀ e ∈ (policy.hasPermission svc q r).2.journal,
      r.clock.elapsed ≤ e.clock.elapsed → e.isGrant = false)
    (hyes : (policy.hasPermission svc q r).1 = true) :
    ∃ key clock, .read key (some true) clock ∈ (policy.hasPermission svc q r).2.journal ∧
      r.clock.elapsed ≤ clock.elapsed := by
  have hpasses := Moves.passes (hasPermission_moves q r : policy.Moves svc r _)
  have hsub : ∀ e ∈ r.since (policy.hasPermission svc q r).2,
      e ∈ (policy.hasPermission svc q r).2.journal := by
    intro e he
    rw [← Run.since_append hpasses.journal]
    exact List.mem_append_left _ he
  have hafter : ∀ e ∈ r.since (policy.hasPermission svc q r).2,
      r.clock.elapsed ≤ e.clock.elapsed :=
    fun e he => hpasses.later.of_mem_since he
  have hnone : ∀ e ∈ r.since (policy.hasPermission svc q r).2, e.isGrant = false :=
    fun e he => hquiet e (hsub e he) (hafter e he)
  obtain ⟨key, clock, hread⟩ := ((hasPermission_relays q r).of_since hnone).1.mp hyes
  exact ⟨key, clock, hsub _ hread, hafter _ hread⟩

/-! ### Sessions -/

/-- Whether the step lets time pass. -/
def Step.letsTimePass : Step σ → Bool
  | .advance _ => true
  | _ => false

namespace Session

/-- The monotonic clock moves only in steps that let time pass. -/
def Prompt (s : Session σ) : List (Step σ) → Prop
  | [] => True
  | step :: steps =>
    (step.letsTimePass = true ∨ (s.step step).2.run.clock.elapsed = s.run.clock.elapsed) ∧
      (s.step step).2.Prompt steps

theorem steps_raised {s : Session σ} (hr : s.run.Recorded)
    (hraised : RaisedAtOnce a s.run.journal) {steps : List (Step σ)}
    (hsteps : ∀ step ∈ steps, step.writesDirectly = false) (hprompt : s.Prompt steps)
    (hf : Run.Throughout (Event.Follows a) s.run (s.steps steps).run) :
    RaisedAtOnce a (s.steps steps).run.journal := by
  induction steps generalizing s with
  | nil => exact hraised
  | cons step steps ih =>
      obtain ⟨hstep, hrest⟩ := List.forall_mem_cons.mp hsteps
      obtain ⟨hnow, hlater⟩ := hprompt
      have hpasses := s.step_passes step
      obtain ⟨hfirst, hlast⟩ :=
        hf.split hpasses.journal ((s.step step).2.steps_passes steps).journal
      refine ih (hpasses.recorded hr) ?_ hrest hlater hlast
      rcases hnow with hadvance | hstands
      · cases step with
        | advance ms =>
            have hj : (s.step (.advance ms)).2.run.journal = s.run.journal :=
              Run.advance_journal _ s.run
            rwa [hj]
        | _ => cases hadvance
      · have hall := (s.step_happens step).raises hstep hfirst
        exact hall.atOnce (hpasses.atOnce hr hstands) hraised

/-- Let the successful lookups of a session in the membership graph be those of a fixed graph, let
only searches write decisions, and let the monotonic clock stand in every step but those that let
time pass. If no lookup finds a grant from some time on, then what is written from that time on as
a yes for a principal with at most `k` memberships above it is written within `k` times to live, and
if no principal has more than `h` above it, every query is denied after `h + 1` times to live. -/
theorem yes_dies_out {s : Session σ} (hfresh : s.run.Fresh) {steps : List (Step σ)}
    (hsteps : ∀ step ∈ steps, step.writesDirectly = false) (hprompt : s.Prompt steps) (q : Query) :
    let r := (s.steps steps).run
    let out := s.policy.hasPermission s.service q r
    let ttl := s.run.cache.ttl
    out.2.clock.elapsed = r.clock.elapsed → (∀ e ∈ out.2.journal, e.Follows a) →
    ∀ since, (∀ e ∈ out.2.journal, since ≤ e.clock.elapsed → e.isGrant = false) →
      (∀ k (scope : Scope) p clock, ¬ a.Tall (k + 1) p →
        .write (scope.key p) true clock ∈ out.2.journal → since ≤ clock.elapsed →
          clock.elapsed < since + k * ttl) ∧
      ∀ h, (∀ p, ¬ a.Tall (h + 1) p) → since + (h + 1) * ttl ≤ r.clock.elapsed →
        out.1 = false := by
  intro r out ttl hstands hfollows since hgrant
  have hmoves : s.policy.Moves s.service r out.2 := Policy.hasPermission_moves q r
  have hsession := s.steps_passes steps
  have hquery := Policy.Moves.passes hmoves
  have hrecorded := hsession.recorded hfresh.recorded
  have hf : Run.Throughout (Event.Follows a) s.run out.2 :=
    ⟨out.2.journal, by rw [hfresh.journal, List.append_nil], hfollows⟩
  obtain ⟨hf₁, hf₂⟩ := hf.split hsession.journal hquery.journal
  have hnone : RaisedAtOnce a s.run.journal := by
    rw [hfresh.journal]
    intro key clock hmem
    cases hmem
  have hraised : RaisedAtOnce a out.2.journal :=
    (Policy.Moves.raises hmoves hf₂).atOnce (hquery.atOnce hrecorded hstands)
      (steps_raised hfresh.recorded hnone hsteps hprompt hf₁)
  have hlast : out.2.Recorded := hquery.recorded hrecorded
  have httl : out.2.cache.ttl = ttl := (hsession.trans hquery).ttl_eq
  have hwithin : ∀ k (scope : Scope) p clock, ¬ a.Tall (k + 1) p →
      .write (scope.key p) true clock ∈ out.2.journal → since ≤ clock.elapsed →
        clock.elapsed < since + k * ttl := by
    intro k scope p clock hlow hw hsince
    rw [← httl]
    exact hlast.written_within hraised hgrant k hlow hw hsince
  refine ⟨hwithin, ?_⟩
  intro h hlow hlate
  rw [← Bool.not_eq_true]
  intro hyes
  have hquiet : ∀ e ∈ out.2.journal, r.clock.elapsed ≤ e.clock.elapsed → e.isGrant = false := by
    intro e he hafter
    exact hgrant e he (by omega)
  obtain ⟨key, clock, hread, hnow⟩ := Policy.read_of_yes hquiet hyes
  obtain ⟨written, hw, hlt⟩ := hlast.written_of_read hread
  rw [httl] at hlt
  rw [Nat.succ_mul] at hlate
  obtain ⟨scope, p, -, -, rfl, -⟩ := hlast.written_above hraised hgrant hw (by omega)
  have hle := hwithin h scope p written (hlow p) hw (by omega)
  omega

/-- A second before the group's yes expires the person is asked about, and then the person's yes
expires too. -/
def dyingOut : List (Step StagedDirectory) :=
  withdrawal ++ [.advance 59000, staffCheck ⟨.person, "alice"⟩, .advance 61001]

/-- How far a principal of the directory is from the top. -/
def staffRank (p : Principal) : Nat :=
  if p = ⟨.person, "alice"⟩ then 1 else 0

theorem staffRank_lt (p q : Principal) (h : staffDirectory.answers.Parent p q) :
    staffRank q < staffRank p := by
  obtain ⟨keys, hkeys, k, hk, rfl⟩ := StagedDirectory.parent_listed rfl h
  have hall : ∀ e ∈ staffDirectory.directory.parents.entries, ∀ k ∈ e.2,
      staffRank ⟨.group, k⟩ < staffRank (.ofMember e.1) := by decide
  exact hall _ hkeys k hk

/-- A millisecond after the withdrawal the person's yes has two minutes left at most: it was written
within the first, and after the second the person is denied. -/
theorem yes_dies_out_for_staff :
    let r := (staffSession.steps dyingOut).run
    let out := staffSession.policy.hasPermission staffSession.service
      (staffQuery ⟨.person, "alice"⟩) r
    (∀ clock, .write (staffQuery ⟨.person, "alice"⟩).key true clock ∈ out.2.journal →
      1000000 ≤ clock.elapsed → clock.elapsed < 1000000 + 1 * 60000000000) ∧ out.1 = false := by
  have hfresh : staffSession.run.Fresh := ⟨rfl, rfl⟩
  have hsteps : ∀ step ∈ dyingOut, step.writesDirectly = false := by decide
  have hprompt : staffSession.Prompt dyingOut :=
    ⟨.inr (by decide +kernel), .inr rfl, .inl rfl, .inr (by decide +kernel), .inl rfl, trivial⟩
  have hlow : ∀ p, ¬ staffDirectory.answers.Tall 2 p := by
    intro p htall
    have hrank := htall.le_rank staffRank_lt
    have htop : staffRank p ≤ 1 := by
      unfold staffRank
      split <;> omega
    omega
  have httl : staffSession.run.cache.ttl = 60000000000 := by decide +kernel
  have h := yes_dies_out (a := staffDirectory.answers) hfresh hsteps hprompt
    (staffQuery ⟨.person, "alice"⟩) (by decide +kernel) (by decide +kernel) 1000000
    (by decide +kernel)
  rw [httl] at h
  exact ⟨fun clock => h.1 1 _ _ clock (hlow _), h.2 1 hlow (by decide +kernel)⟩

end Session

end GrantPath
