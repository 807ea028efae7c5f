import GrantPath.Proofs.Sessions

/-! # What overruns

A machine carries an operation out exactly if it has the room that is set aside on the way and the
clock can show when each decision expires that is written (`Run.Affords`). What is done in two parts
needs what both parts need (`Run.Affords.trans`), so what a query needs follows by the inductions
over searches and evaluations.

* A search sets no room aside and writes decisions (`Run.Reaches.affords`).
* An evaluation sets room aside for each of its searches. It has at least one, since a yes to a
  broader query comes from a search as well (`Policy.Cases.affords`). -/

namespace GrantPath

variable {σ : Type}

/-- If a decision is written, the clock can show when it expires. -/
def Event.Shown (c : Cache) : Event → Prop
  | write _ _ clock => c.outlivesClock clock.elapsed = false
  | _ => True

theorem Event.shown_congr {c c' : Cache} (h : c.ttl? = c'.ttl?) :
    Event.Shown c = Event.Shown c' := by
  funext e
  cases e with
  | write key allowed clock => simp only [Shown, Cache.outlivesClock_congr h]
  | _ => rfl

theorem Event.shown_of {c : Cache} {e : Event} (h : c.outlivesClock e.clock.elapsed = false) :
    e.Shown c := by
  cases e with
  | write key allowed clock => exact h
  | _ => trivial

namespace Run

variable {svc : Service σ} {r m r' : Run σ} {room room' : Prop}

theorem throughout_shown_iff (h : r.journal <:+ r'.journal) {c : Cache} :
    Throughout (Event.Shown c) r r' ↔ ∀ key allowed clock,
      .write key allowed clock ∈ r.since r' → c.outlivesClock clock.elapsed = false := by
  constructor
  · intro hshown key allowed clock he
    exact hshown.of_mem_since he
  · intro hshown
    refine ⟨r.since r', (since_append h).symm, ?_⟩
    intro e he
    cases e with
    | write key allowed clock => exact hshown key allowed clock he
    | _ => trivial

/-- A machine gets from one run to the other if it has the room and the clock can show when each
decision expires that is written in between, and not otherwise. -/
structure Affords (room : Prop) (r r' : Run σ) : Prop where
  passes : Passes r r'
  carriedOut : room → Throughout (Event.Shown r.cache) r r' → r'.overrun = r.overrun
  needs : r'.overrun = none → room ∧ Throughout (Event.Shown r.cache) r r'

namespace Affords

theorem overrun_eq_none_iff (h : Affords room r r') :
    r'.overrun = none ↔ r.overrun = none ∧ room ∧ Throughout (Event.Shown r.cache) r r' := by
  constructor
  · intro hnone
    obtain ⟨hroom, hshown⟩ := h.needs hnone
    exact ⟨(h.carriedOut hroom hshown).symm.trans hnone, hroom, hshown⟩
  · rintro ⟨hstart, hroom, hshown⟩
    exact (h.carriedOut hroom hshown).trans hstart

theorem congr (h : Affords room r r') (hroom : room ↔ room') : Affords room' r r' where
  passes := h.passes
  carriedOut hroom' := h.carriedOut (hroom.mpr hroom')
  needs hnone := (h.needs hnone).imp_left hroom.mp

/-- What writes nothing needs nothing. -/
theorem of_no_write (h : Passes r r') (hoverrun : r'.overrun = r.overrun)
    (hshown : Throughout (Event.Shown r.cache) r r') : Affords True r r' where
  passes := h
  carriedOut _ _ := hoverrun
  needs _ := ⟨trivial, hshown⟩

theorem refl (r : Run σ) : Affords True r r :=
  .of_no_write (.refl r) rfl (.refl r)

/-- What is done in two parts needs what both parts need. -/
theorem trans (h : Affords room r m) (h' : Affords room' m r') : Affords (room ∧ room') r r' := by
  have hsame : Event.Shown m.cache = Event.Shown r.cache := Event.shown_congr h.passes.ttl?
  refine ⟨h.passes.trans h'.passes, ?_, ?_⟩
  · rintro ⟨hroom, hroom'⟩ hall
    obtain ⟨hfirst, hrest⟩ := hall.split h.passes.journal h'.passes.journal
    rw [← hsame] at hrest
    exact (h'.carriedOut hroom' hrest).trans (h.carriedOut hroom hfirst)
  · intro hnone
    obtain ⟨hmid, hroom', hrest⟩ := h'.overrun_eq_none_iff.mp hnone
    obtain ⟨hroom, hfirst⟩ := h.needs hmid
    rw [hsame] at hrest
    exact ⟨⟨hroom, hroom'⟩, hfirst.trans hrest⟩

/-- Counting needs nothing. -/
theorem count (h : Affords room r r') (o : Occurrence) : Affords room r (r'.count o) := by
  have hcount : Affords True r' (r'.count o) :=
    .of_no_write (count_passes o r') rfl ⟨[], rfl, by simp⟩
  exact (h.trans hcount).congr (Iff.of_eq (and_true room))

end Affords

/-! ### Acts -/

theorem writeCache_affords (key : DecisionKey) (allowed : Bool) (r : Run σ) :
    Affords True r (r.writeCache key allowed) := by
  have hjournal := r.writeCache_journal key allowed
  refine ⟨writeCache_passes key allowed r, ?_, ?_⟩
  · intro _ hall
    have hmem : .write key allowed r.clock ∈ r.since (r.writeCache key allowed) := by
      have hsince : r.since (r.writeCache key allowed) = [.write key allowed r.clock] :=
        since_eq hjournal
      rw [hsince]
      exact List.mem_cons_self ..
    exact r.writeCache_overrun key allowed (hall.of_mem_since hmem)
  · intro hnone
    obtain ⟨-, hshown⟩ := (r.writeCache_overrun_eq_none_iff key allowed).mp hnone
    exact ⟨trivial, [_], hjournal, List.forall_mem_singleton.mpr hshown⟩

theorem Act.affords (h : Act svc r r') : Affords True r r' := by
  have hpasses := h.passes
  cases h with
  | write key allowed r => exact writeCache_affords key allowed r
  | read key r =>
      refine .of_no_write hpasses (r.readCache_overrun key) ⟨[_], r.readCache_journal key, ?_⟩
      simp [Event.Shown]
  | count o r => exact .of_no_write hpasses rfl ⟨[], rfl, by simp⟩
  | see m r => exact .of_no_write hpasses rfl ⟨[], rfl, by simp⟩
  | ask q r => exact .of_no_write hpasses rfl ⟨[_], rfl, by simp [Event.Shown]⟩
  | beginSearch key seen r => exact .of_no_write hpasses rfl ⟨[_], rfl, by simp [Event.Shown]⟩

theorem Reaches.affords (h : Reaches svc r r') : Affords True r r' := by
  induction h with
  | refl => exact .refl r
  | tail _ h ih => exact (ih.trans h.affords).congr (and_self_iff)

theorem setAside_affords (r : Run σ) (capacity : Nat) :
    Affords (capacity ≤ SeenGroups.maxCapacity) r (r.setAside capacity) := by
  refine ⟨.of_within (.refl _) (Nat.le_refl _) rfl, ?_, ?_⟩
  · intro hroom _
    rw [setAside_of_le hroom]
  · intro hnone
    refine ⟨Nat.le_of_not_lt ?_, .refl r⟩
    intro hfull
    exact overrunIf_ne_none (.inl (decide_eq_true hfull)) hnone

/-- If the clock can show the expiry of a decision written later, it can show it now. -/
theorem Passes.outlivesClock (h : Passes r r')
    (hc : r'.cache.outlivesClock r'.clock.elapsed = false) :
    r.cache.outlivesClock r.clock.elapsed = false := by
  have helapsed := h.elapsed
  rw [Cache.outlivesClock_congr h.ttl?] at hc
  cases hr : r.cache with
  | disabled => rfl
  | timed s =>
      rw [hr] at hc
      simp only [Cache.outlivesClock, decide_eq_false_iff_not] at hc ⊢
      omega

theorem Reaches.overrun_eq_of_last (h : Reaches svc r r')
    (hc : r'.cache.outlivesClock r'.clock.elapsed = false) : r'.overrun = r.overrun := by
  induction h with
  | refl => rfl
  | tail _ h ih =>
      have hbefore := h.passes.outlivesClock hc
      rw [h.overrun_eq hbefore, ih hbefore]

end Run

namespace Policy

open Run (Affords)

variable {policy : Policy} {svc : Service σ} {r r' : Run σ}

theorem Asks.affords (h : Asks svc r r') : Affords True r r' := by
  induction h with
  | refl => exact .refl r
  | tail _ h ih =>
      obtain ⟨request, rfl⟩ := h
      exact (ih.trans (Run.Act.ask request _).affords).congr (and_self_iff)

/-! ### Queries -/

/-- There is room for the members that a search expects to expand. -/
def HasRoom (policy : Policy) : Prop :=
  policy.seenCapacity ≤ SeenGroups.maxCapacity

/-- The judgement on a broader query needs room if a query is evaluated for it, as it is if the
answer is yes. -/
theorem Attempt.affords {depth : Nat} {enabled : Bool} {broaden : Broadening σ} {q : Query}
    {out : Bool × Run σ} (hasks : ∀ q r, Asks svc r (broaden q r).2)
    (h : policy.Attempt svc (fun _ r out =>
      Affords (0 < depth → policy.HasRoom) r out.2 ∧ (out.1 = .ok true → 0 < depth))
      enabled broaden q r out) :
    ∃ evaluated : Prop, Affords (evaluated → policy.HasRoom) r out.2 ∧
      (out.1 = true → evaluated) := by
  have hasked : Affords True r (broaden q r).2 := (hasks q r).affords
  cases h with
  | disabled _ => exact ⟨False, (Affords.refl r).congr (by simp), nofun⟩
  | nothing _ hb =>
      rw [hb] at hasked
      exact ⟨False, hasked.congr (by simp), nofun⟩
  | judged _ hb _ hj =>
      obtain ⟨haffords, hyes⟩ := hj
      rw [hb] at hasked
      refine ⟨0 < depth, ?_, ?_⟩
      · rw [contained_snd]
        exact (hasked.trans haffords).congr (Iff.of_eq (true_and _))
      · intro hgranted
        exact hyes (contained_fst_eq_true_iff.mp hgranted)

/-- An evaluation needs room unless generalizations are nested too deep. -/
theorem Cases.affords (policy : Policy) (svc : Service σ) : policy.Cases svc (fun depth _ r out =>
    Affords (0 < depth → policy.HasRoom) r out.2 ∧ (out.1 = .ok true → 0 < depth)) where
  tooDeep := ⟨(Affords.refl _).congr (by simp), nofun⟩
  superUser {depth q r r'} hsuper := by
    obtain ⟨evaluated, haffords, hyes⟩ := hsuper.affords superUserQuery_asks
    refine ⟨(haffords.count _).congr ?_, fun _ => Nat.succ_pos depth⟩
    -- The yes comes from an evaluation of the broader query, which has set room aside.
    simp [hyes rfl]
  collective {depth q r r₁ r₂} hsuper _ hcollective _ := by
    obtain ⟨evaluated, hfirst, -⟩ := hsuper.affords superUserQuery_asks
    obtain ⟨evaluated', hsecond, hyes⟩ := hcollective.affords collectiveQuery_asks
    refine ⟨((hfirst.trans hsecond).count _).congr ?_, fun _ => Nat.succ_pos depth⟩
    simp only [hyes rfl, Nat.succ_pos, forall_const]
    exact and_iff_right_of_imp fun hroom _ => hroom
  searched {depth q r r₁ r₂} hsuper _ hcollective _ := by
    obtain ⟨evaluated, hfirst, -⟩ := hsuper.affords superUserQuery_asks
    obtain ⟨evaluated', hsecond, -⟩ := hcollective.affords collectiveQuery_asks
    have haside : Affords policy.HasRoom r₂ (r₂.setAside policy.seenCapacity) :=
      r₂.setAside_affords policy.seenCapacity
    have hsearch := ((policy.search svc q).run_reaches .empty q.principal
      (r₂.setAside policy.seenCapacity)).affords
    refine ⟨(((hfirst.trans hsecond).trans haside).trans hsearch).congr ?_,
      fun _ => Nat.succ_pos depth⟩
    simp only [Nat.succ_pos, forall_const, and_true]
    exact and_iff_right_of_imp fun hroom => ⟨fun _ => hroom, fun _ => hroom⟩

theorem hasPermission_affords (q : Query) (r : Run σ) :
    Affords policy.HasRoom r (policy.hasPermission svc q r).2 := by
  have haffords : Affords policy.HasRoom r (policy.evaluate svc generalizationDepth q r).2 := by
    obtain ⟨haffords, -⟩ := (Cases.affords policy svc).evaluate generalizationDepth q r
    exact haffords.congr (imp_iff_right (by decide))
  unfold hasPermission
  generalize policy.evaluate svc generalizationDepth q r = out at haffords ⊢
  rcases out with ⟨e | granted, r'⟩
  · exact (haffords.count _).count _
  · exact haffords.count _

theorem check_affords (q : PartialQuery) (r : Run σ) :
    Affords (q.complete? = none ∨ policy.HasRoom) r (policy.check svc q r).2 := by
  unfold check
  cases q.complete? with
  | none => exact ((Affords.refl r).count _).congr (by simp)
  | some query => exact (hasPermission_affords query r).congr (by simp)

theorem loadInCache_affords (q : Query) (r : Run σ) :
    Affords policy.HasRoom r (policy.loadInCache svc q r).2 := by
  have haside := r.setAside_affords policy.seenCapacity
  have hrest := (policy.loadInCache_reaches svc q r).affords
  exact (haside.trans hrest).congr (Iff.of_eq (and_true _))

/-- A pass needs what its evaluations need. -/
theorem refreshAll_affords : ∀ (g : Registry) (r : Run σ),
    Affords (g = [] ∨ policy.HasRoom) r (policy.refreshAll svc g r).2
  | [], r => (Affords.refl r).congr (by simp)
  | q :: g, r => by
      have hloaded : Affords policy.HasRoom r (policy.loadInCache svc q r).2 :=
        loadInCache_affords q r
      have hrest := refreshAll_affords g (policy.loadInCache svc q r).2
      apply (hloaded.trans hrest).congr
      simp only [reduceCtorEq, false_or]
      exact and_iff_left_of_imp .inr

end Policy

end GrantPath
