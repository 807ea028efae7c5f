import GrantPath.Proofs.Directories
import GrantPath.Proofs.Provenance

/-! # How long a grant outlives its withdrawal

A decision is remembered for one time to live, but a search that reads a yes writes yeses of
its own, each with a whole time to live. So a grant that was withdrawn can outlive one time to
live: a yes that is still remembered is handed on to a principal below, and from there further
on.

* While no lookup finds a grant, a search, a query and a warming pass says yes exactly if it
  reads a yes, and writes a yes only after it has read one (`Search.Cases.relays`,
  `Policy.Cases.relays`, `Session.steps_handedOn`).
* So from one time to live after the withdrawal on, a query is answered yes exactly if it reads
  a yes, and such a yes was written after the withdrawal by someone who had read a yes
  (`Session.late_yes_iff`).
* That does happen (`Session.grant_outlives_withdrawal`). -/

namespace GrantPath

variable {σ : Type}

/-! ### Yeses in lists of events -/

/-- Whether the event is a lookup that found a grant in force and no denial. -/
def Event.isGrant : Event → Bool
  | .call (.permissions ..) (.ok records) clock =>
    Permission.verdict records clock.wall == some true
  | _ => false

/-- Among the events a live yes was read. -/
def ReadsYes (events : List Event) : Prop :=
  ∃ key clock, .read key (some true) clock ∈ events

/-- Every yes that was written had been preceded by a yes that was read. -/
def HandedOn (events : List Event) : Prop :=
  ∀ key clock earlier, (.write key true clock :: earlier) <:+ events → ReadsYes earlier

theorem readsYes_append {new old : List Event} :
    ReadsYes (new ++ old) ↔ ReadsYes new ∨ ReadsYes old := by
  constructor
  · rintro ⟨key, clock, h⟩
    rcases List.mem_append.mp h with h | h
    · exact .inl ⟨key, clock, h⟩
    · exact .inr ⟨key, clock, h⟩
  · rintro (⟨key, clock, h⟩ | ⟨key, clock, h⟩)
    · exact ⟨key, clock, List.mem_append_left _ h⟩
    · exact ⟨key, clock, List.mem_append_right _ h⟩

theorem handedOn_nil : HandedOn [] := by
  intro key clock earlier h
  simp at h

theorem HandedOn.append {new old : List Event} (h : HandedOn new) (h' : HandedOn old) :
    HandedOn (new ++ old) := by
  induction new with
  | nil => exact h'
  | cons e new ih =>
      have hnew : HandedOn new := by
        intro key clock earlier hs
        exact h key clock earlier (hs.trans (List.suffix_cons ..))
      intro key clock earlier hs
      rcases List.suffix_cons_iff.mp hs with hs | hs
      · obtain ⟨rfl, rfl⟩ := List.cons.inj hs
        show ReadsYes (new ++ old)
        rw [readsYes_append]
        exact .inl (h key clock new (List.suffix_refl _))
      · exact ih hnew key clock earlier hs

theorem HandedOn.cons {events : List Event} (h : HandedOn events) {e : Event}
    (he : ∀ key clock, e = .write key true clock → ReadsYes events) : HandedOn (e :: events) := by
  intro key clock earlier hs
  rcases List.suffix_cons_iff.mp hs with hs | hs
  · obtain ⟨rfl, rfl⟩ := List.cons.inj hs
    exact he key clock rfl
  · exact h key clock earlier hs

/-! ### Runs that hand yeses on -/

namespace Run

/-- From one run to the other, unless a lookup found a grant, a yes was read exactly if there is
a yes now, and every yes that was written was handed on. -/
def Relays (yes : Prop) (r r' : Run σ) : Prop :=
  ∃ new, r'.journal = new ++ r.journal ∧ ((∀ e ∈ new, e.isGrant = false) →
    (yes ↔ ReadsYes new) ∧ HandedOn new)

variable {r m r' : Run σ} {yes yes' : Prop}

theorem Relays.congr (h : Relays yes r r') (hyes : yes ↔ yes') : Relays yes' r r' := by
  rwa [Relays, ← hyes]

theorem Relays.of_journal_eq (hj : r'.journal = r.journal) : Relays False r r' := by
  refine ⟨[], hj, ?_⟩
  intro _
  exact ⟨by simp [ReadsYes], handedOn_nil⟩

/-- One event that is neither a yes that is read nor a yes that is written. -/
theorem Relays.of_cons {e : Event} (hj : r'.journal = e :: r.journal)
    (hread : ∀ key clock, e ≠ .read key (some true) clock)
    (hwrite : ∀ key clock, e ≠ .write key true clock) : Relays False r r' := by
  refine ⟨[e], hj, ?_⟩
  intro _
  have hnone : ¬ ReadsYes [e] := by
    rintro ⟨key, clock, hmem⟩
    exact hread key clock (List.mem_singleton.mp hmem).symm
  refine ⟨by simp [hnone], ?_⟩
  apply handedOn_nil.cons
  intro key clock he
  exact absurd he (hwrite key clock)

theorem Relays.trans (h : Relays yes r m) (h' : Relays yes' m r') :
    Relays (yes ∨ yes') r r' := by
  obtain ⟨new, hj, hnew⟩ := h
  obtain ⟨new', hj', hnew'⟩ := h'
  have hboth : r'.journal = (new' ++ new) ++ r.journal := by
    rw [hj', hj, List.append_assoc]
  refine ⟨new' ++ new, hboth, ?_⟩
  intro hall
  obtain ⟨hyes', hhanded'⟩ := hnew' fun e he => hall e (List.mem_append_left _ he)
  obtain ⟨hyes, hhanded⟩ := hnew fun e he => hall e (List.mem_append_right _ he)
  refine ⟨?_, hhanded'.append hhanded⟩
  rw [readsYes_append, hyes, hyes', or_comm]

/-- Nothing said yes first. -/
theorem Relays.after (h : Relays yes m r') (h' : Relays False r m) : Relays yes r r' :=
  (h'.trans h).congr (by simp)

/-- Nothing says yes afterwards. -/
theorem Relays.before (h : Relays yes r m) (h' : Relays False m r') : Relays yes r r' :=
  (h.trans h').congr (by simp)

theorem Relays.of_since (h : Relays yes r r') (hall : ∀ e ∈ r.since r', e.isGrant = false) :
    (yes ↔ ReadsYes (r.since r')) ∧ HandedOn (r.since r') := by
  obtain ⟨new, hj, hnew⟩ := h
  rw [since_eq hj] at hall ⊢
  exact hnew hall

theorem relays_ask (svc : Service σ) (q : Request) (r : Run σ) :
    Relays False r (r.ask svc q).2 :=
  .of_cons rfl (by simp) (by simp)

theorem relays_count (o : Occurrence) (r : Run σ) : Relays False r (r.count o) :=
  .of_journal_eq rfl

/-- A read finds a yes or does not. -/
theorem relays_read (key : DecisionKey) (r : Run σ) :
    Relays ((r.readCache key).1 = some true) r (r.readCache key).2 := by
  refine ⟨[_], r.readCache_journal key, ?_⟩
  intro _
  constructor
  · simp [ReadsYes, eq_comm]
  · exact handedOn_nil.cons (by simp)

/-- What was said is written. -/
theorem Relays.write {allowed : Bool} (h : Relays (allowed = true) r r') (key : DecisionKey) :
    Relays (allowed = true) r (r'.writeCache key allowed) := by
  obtain ⟨new, hj, hnew⟩ := h
  have hwritten : (r'.writeCache key allowed).journal =
      (.write key allowed r'.clock :: new) ++ r.journal := by
    rw [writeCache_journal, hj, List.cons_append]
  refine ⟨_, hwritten, ?_⟩
  intro hall
  obtain ⟨hyes, hhanded⟩ := hnew fun e he => hall e (List.mem_cons_of_mem _ he)
  constructor
  · rw [hyes]
    simp [ReadsYes]
  · apply hhanded.cons
    intro k clock he
    obtain ⟨-, ha, -⟩ := Event.write.inj he
    rw [← hyes]
    exact ha

end Run

namespace Run

variable {start r r' : Run σ}

/-- A yes that is read a time to live after the start or still later, and so cannot have been
there at the start, was handed on since. -/
theorem Recorded.handedOn (hr : start.Recorded) (h : Passes start r) (h' : Passes r r')
    (hhanded : HandedOn (start.since r'))
    (hlate : start.clock.elapsed + start.cache.ttl ≤ r.clock.elapsed) {key : DecisionKey}
    {clock : Clock} (hread : .read key (some true) clock ∈ r.since r') :
    ∃ written earlier, (.write key true written :: earlier) <:+ start.since r' ∧
      start.clock.elapsed < written.elapsed ∧
      clock.elapsed < written.elapsed + start.cache.ttl ∧ ReadsYes earlier := by
  have hpasses := h.trans h'
  have hnow : r.clock.elapsed ≤ clock.elapsed := h'.later.of_mem_since hread
  obtain ⟨written, hwritten, hlt⟩ : ∃ written, .write key true written ∈ r'.journal ∧
      clock.elapsed < written.elapsed + start.cache.ttl := by
    obtain ⟨later, earlier, hsplit⟩ := List.append_of_mem hread
    have hsuffix : (.read key (some true) clock :: (earlier ++ r.journal)) <:+ r'.journal := by
      rw [← since_append h'.journal, hsplit, List.append_assoc, List.cons_append]
      exact List.suffix_append ..
    obtain ⟨written, hmem, hlt⟩ := (hpasses.recorded hr).read _ _ _ _ hsuffix
    rw [hpasses.ttl_eq] at hlt
    exact ⟨written, hsuffix.subset (List.mem_cons_of_mem _ hmem), hlt⟩
  rw [← since_append hpasses.journal, List.mem_append] at hwritten
  rcases hwritten with hwritten | hwritten
  · obtain ⟨later, earlier, hsplit⟩ := List.append_of_mem hwritten
    have hsuffix : (.write key true written :: earlier) <:+ start.since r' := by
      rw [hsplit]
      exact List.suffix_append ..
    have hafter : start.clock.elapsed < written.elapsed := by omega
    exact ⟨written, earlier, hsuffix, hafter, hlt, hhanded key written earlier hsuffix⟩
  · have hpast : written.elapsed ≤ start.clock.elapsed := hr.past _ hwritten
    omega

end Run

/-! ### Searches -/

namespace Search

open Run (Relays relays_ask relays_count relays_read)

variable {s : Search σ} {p : Principal} {m g : GroupMember} {r r' : Run σ} {yes : Prop}

theorem relays_looked : Relays False r (s.looked p r) :=
  (relays_ask ..).after (relays_count ..)

theorem relays_named : Relays False r (s.named p r) :=
  (relays_ask ..).after relays_looked

theorem relays_expanded : Relays False r (s.expanded p m r) :=
  (relays_ask ..).after (relays_named.before (.of_journal_eq rfl))

theorem relays_addressed : Relays False r (s.addressed r g) := relays_ask ..

theorem Finds.relays {records : List Permission} {granted : Bool}
    (h : s.Finds p r records (some granted)) :
    Relays (granted = true) r (s.looked p r) := by
  refine ⟨[.call (.permissions p s.scope.owner s.scope.activity s.scope.target)
    (s.lookUp p r).1 (s.looked p r).clock], rfl, fun hall => ?_⟩
  have hno := hall _ (List.mem_cons_self ..)
  rw [h.1] at hno
  simp only [Event.isGrant, h.2] at hno
  cases granted with
  | true => simp at hno
  | false => exact ⟨by simp [ReadsYes], handedOn_nil.cons (by simp)⟩

theorem relays_missed (hmiss : ∀ allowed, ¬ r.Knows (s.scope.key p) allowed) :
    Relays False r (s.missed p r) := by
  have hnot : (r.readCache (s.scope.key p)).1 ≠ some true := by
    intro h
    rw [Run.readCache_eq_some_iff] at h
    exact hmiss true h
  have hread : Relays False r (r.readCache (s.scope.key p)).2 :=
    (relays_read (s.scope.key p) r).congr (by simp [hnot])
  exact hread.before (relays_count ..)

theorem relays_passedOver (outcome : Except Error Bool) (r : Run σ) :
    Relays False r (passedOver outcome r) :=
  .of_journal_eq (passedOver_journal r outcome)

/-- While no lookup finds a grant, a search says yes exactly if it reads a yes, and writes a yes
only after that. -/
theorem Cases.relays (s : Search σ) :
    s.Cases (fun _ _ r out => Relays (out.1 = .ok true) r out.2)
      (fun _ _ r out => Relays (out.1 = .ok true) r out.2)
      (fun _ _ r out => Relays (out.1 = true) r out.2) where
  lookUpFails _ := relays_looked.congr (by simp)
  decided hf := hf.relays.congr (by simp)
  noStepLeft _ := relays_looked.congr (by simp)
  memberFails _ _ := relays_named.congr (by simp)
  metBefore _ _ _ := (relays_named.before (relays_count ..)).congr (by simp)
  groupsFail _ _ _ _ := relays_expanded.congr (by simp)
  climbed _ _ _ _ _ htried := (htried.after relays_expanded).congr (by simp)
  noGroupLeft := (Relays.of_journal_eq rfl).congr (by simp)
  noPrincipal _ _ htried := htried.after (relays_addressed.before (relays_count ..))
  granted _ _ hcons := (hcons.after relays_addressed).congr (by simp)
  refused {n g gs q r r' outcome out} _ _ hcons hne _ htried := by
    have hsilent : Relays False (s.addressed r g) r' := hcons.congr (by simp [hne])
    have hbefore : Relays False r (passedOver outcome r') :=
      (hsilent.after relays_addressed).before (relays_passedOver outcome r')
    exact htried.after hbefore
  hit {n p r granted} hk := by
    have hread : (r.readCache (s.scope.key p)).1 = some granted := by
      rw [Run.readCache_eq_some_iff]
      exact hk
    have hyes := (relays_read (s.scope.key p) r).before (relays_count .cacheHit _)
    exact hyes.congr (by simp [hread])
  computed {n p r granted r'} hmiss _ hv := by
    have hsaid : Relays (granted = true) r r' := (hv.after (relays_missed hmiss)).congr (by simp)
    exact (hsaid.write (s.scope.key p)).congr (by simp)
  notComputed hmiss _ hv := hv.after (relays_missed hmiss)

theorem relays_beginSearch (key : DecisionKey) (seen : SeenGroups) :
    Relays False r (r.beginSearch key seen) :=
  .of_cons rfl (by simp) (by simp)

theorem run_relays (s : Search σ) (seen : SeenGroups) (p : Principal) (r : Run σ) :
    Relays ((s.run seen p r).1 = .ok true) r (s.run seen p r).2 :=
  ((Cases.relays s).cached s.limit p _).after (relays_beginSearch ..)

theorem runAnew_relays (s : Search σ) (seen : SeenGroups) (p : Principal) (r : Run σ) :
    Relays ((s.runAnew seen p r).1 = .ok true) r (s.runAnew seen p r).2 :=
  ((Cases.relays s).resolve s.limit p _).after (relays_beginSearch ..)

end Search

/-! ### Queries -/

namespace Policy

open Run (Relays relays_ask relays_count)

variable {policy : Policy} {svc : Service σ} {r r' : Run σ} {q : Query}

theorem Asks.relays (h : Asks svc r r') : Relays False r r' := by
  induction h with
  | refl => exact .of_journal_eq rfl
  | tail _ h ih =>
      obtain ⟨request, rfl⟩ := h
      exact (relays_ask ..).after ih

theorem Attempt.relays {judged : Query → Run σ → Except Error Bool × Run σ → Prop}
    {enabled : Bool} {broaden : Broadening σ} {out : Bool × Run σ}
    (hasks : ∀ q r, Asks svc r (broaden q r).2)
    (hjudged : ∀ q r out, judged q r out → Relays (out.1 = .ok true) r out.2)
    (h : policy.Attempt svc judged enabled broaden q r out) :
    Relays (out.1 = true) r out.2 := by
  have hbroaden := Asks.relays (hasks q r)
  cases h with
  | disabled _ => exact (Relays.of_journal_eq rfl).congr (by simp)
  | nothing _ hb =>
      rw [hb] at hbroaden
      exact hbroaden.congr (by simp)
  | judged _ hb _ hj =>
      rw [hb] at hbroaden
      rw [contained_snd]
      exact ((hjudged _ _ _ hj).after hbroaden).congr contained_fst_eq_true_iff.symm

/-- While no lookup finds a grant, an evaluation says yes exactly if it reads a yes, and writes
a yes only after that. -/
theorem Cases.relays : policy.Cases svc (fun _ _ r out => Relays (out.1 = .ok true) r out.2) where
  tooDeep := (Relays.of_journal_eq rfl).congr (by simp)
  superUser ha := by
    have hsuper := ha.relays superUserQuery_asks fun _ _ _ h => h
    exact (hsuper.before (relays_count ..)).congr (by simp)
  collective {depth q r r₁ r₂} hs _ hc _ := by
    have hsuper : Relays False r r₁ :=
      (hs.relays superUserQuery_asks fun _ _ _ h => h).congr (by simp)
    have hcollective := hc.relays collectiveQuery_asks fun _ _ _ h => h
    exact ((hcollective.after hsuper).before (relays_count ..)).congr (by simp)
  searched {depth q r r₁ r₂} hs _ hc _ := by
    have hsuper : Relays False r r₁ :=
      (hs.relays superUserQuery_asks fun _ _ _ h => h).congr (by simp)
    have hcollective : Relays False r₁ r₂ :=
      (hc.relays collectiveQuery_asks fun _ _ _ h => h).congr (by simp)
    have haside : Relays False r₂ (r₂.setAside policy.seenCapacity) := .of_journal_eq rfl
    have hbefore : Relays False r (r₂.setAside policy.seenCapacity) :=
      (hcollective.after hsuper).before haside
    exact ((policy.search svc q).run_relays .empty q.principal _).after hbefore

theorem hasPermission_relays (q : Query) (r : Run σ) :
    Relays ((policy.hasPermission svc q r).1 = true) r (policy.hasPermission svc q r).2 := by
  obtain ⟨counters, hsnd⟩ := hasPermission_snd policy svc q r
  rw [hsnd]
  have hevaluated : Relays ((policy.evaluate svc generalizationDepth q r).1 = .ok true) r
      (policy.evaluate svc generalizationDepth q r).2 := Cases.relays.evaluate ..
  exact (hevaluated.before (.of_journal_eq rfl)).congr hasPermission_fst_eq_true_iff.symm

theorem Move.relays (h : policy.Move svc r r') : ∃ yes, Relays yes r r' := by
  cases h with
  | ask q r => exact ⟨_, relays_ask ..⟩
  | count o r => exact ⟨_, relays_count ..⟩
  | setAside capacity r => exact ⟨_, .of_journal_eq rfl⟩
  | search q r => exact ⟨_, (policy.search svc q).run_relays ..⟩
  | refresh q r =>
      have h := (policy.search svc q).runAnew_relays .empty q.principal r
      rcases r.forceRefresh_cases q.key ((policy.search svc q).runAnew .empty q.principal) with
        ⟨e, r₁, hout, hafter⟩ | ⟨granted, r₁, hout, hafter⟩
      · rw [hout] at h
        rw [hafter]
        exact ⟨_, h⟩
      · rw [hout] at h
        rw [hafter]
        have h : Relays (granted = true) r r₁ := h.congr (by simp)
        exact ⟨_, (h.write q.key).before (relays_count ..)⟩

theorem Moves.relays (h : policy.Moves svc r r') : ∃ yes, Relays yes r r' := by
  induction h with
  | refl => exact ⟨_, .of_journal_eq rfl⟩
  | tail _ h ih =>
      obtain ⟨yes, hyes⟩ := ih
      obtain ⟨yes', hyes'⟩ := h.relays
      exact ⟨_, hyes.trans hyes'⟩

end Policy

/-! ### Sessions -/

namespace Session

open Run (Relays)

variable {policy : Policy} {svc : Service σ} {step : Step σ} {r r' : Run σ}

theorem Happens.relays (h : Happens policy svc step r r') (hw : step.writesDirectly = false) :
    ∃ yes, Relays yes r r' := by
  cases h with
  | moved h => exact Policy.Moves.relays h
  | searched m r =>
      unfold ManualSearch.perform
      cases m.cached with
      | true => exact ⟨_, Search.run_relays ..⟩
      | false => exact ⟨_, Search.runAnew_relays ..⟩
  | read key r => exact ⟨_, Run.relays_read ..⟩
  | altered change r => exact ⟨_, .of_journal_eq rfl⟩
  | lapsed _ _ _ hj => exact ⟨_, .of_journal_eq hj⟩
  | written hw' _ => simp [hw] at hw'

theorem steps_relays {s : Session σ} {steps : List (Step σ)}
    (hsteps : ∀ step ∈ steps, step.writesDirectly = false) :
    ∃ yes, Relays yes s.run (s.steps steps).run := by
  induction steps generalizing s with
  | nil => exact ⟨_, .of_journal_eq rfl⟩
  | cons step steps ih =>
      obtain ⟨hstep, hrest⟩ := List.forall_mem_cons.mp hsteps
      obtain ⟨yes, hyes⟩ := (s.step_happens step).relays hstep
      obtain ⟨yes', hyes'⟩ := ih hrest
      exact ⟨_, hyes.trans hyes'⟩

end Session

/-! ### Collaborators without a grant -/

/-- In a state with the property the service answers no lookup with a grant in force and keeps
the property. -/
def Service.Withholds (svc : Service σ) (I : σ → Prop) : Prop :=
  ∀ st, I st → ∀ q, I (svc.reply q st).state ∧
    ∀ clock, (Event.call q (svc.reply q st).answer clock).isGrant = false

/-- The directory has no record that grants. -/
def Directory.WithoutGrant (d : Directory) : Prop :=
  ∀ record ∈ d.permissions, record.effect ≠ .grant

theorem StagedDirectory.withholds :
    StagedDirectory.service.Withholds fun st => st.directory.WithoutGrant := by
  intro st hst q
  refine ⟨hst, ?_⟩
  intro clock
  cases q with
  | permissions p owner activity target =>
      change Event.isGrant (.call _ (st.answers _) clock) = false
      rcases hout : st.answers (.permissions p owner activity target) with e | records
      · rfl
      · rw [← Bool.not_eq_true]
        intro hgrant
        simp only [Event.isGrant, beq_iff_eq] at hgrant
        obtain ⟨⟨record, hmem, -, heffect⟩, -⟩ := Permission.verdict_eq_some_true_iff.mp hgrant
        exact hst record (record_listed hout record hmem) heffect
  | _ => rfl

/-- Whether the step writes only what a search made, and keeps the property if the
collaborators change. -/
def Step.Keeps (I : σ → Prop) (step : Step σ) : Prop :=
  step.writesDirectly = false ∧
    ∀ change, step = .alter change → ∀ st, I st → I (change st)

section withheld

open Run (Throughout)

variable {svc : Service σ} {I : σ → Prop} (hs : svc.Withholds I) {r r' : Run σ}

include hs

theorem Run.Act.withheld (h : Run.Act svc r r') (hI : I r.state) :
    I r'.state ∧ Throughout (fun e => e.isGrant = false) r r' := by
  cases h with
  | ask q r =>
      obtain ⟨hstate, hevent⟩ := hs r.state hI q
      exact ⟨hstate, [_], rfl, by simpa using hevent _⟩
  | count o r => exact ⟨hI, .refl r⟩
  | see m r => exact ⟨hI, [], rfl, by simp⟩
  | read key r =>
      exact ⟨by rwa [Run.readCache_state], [_], r.readCache_journal key, by simp [Event.isGrant]⟩
  | write key allowed r =>
      exact ⟨by rwa [Run.writeCache_state], [_], r.writeCache_journal key allowed,
        by simp [Event.isGrant]⟩
  | beginSearch key seen r => exact ⟨hI, [_], rfl, by simp [Event.isGrant]⟩

theorem Run.Reaches.withheld (h : Run.Reaches svc r r') (hI : I r.state) :
    I r'.state ∧ Throughout (fun e => e.isGrant = false) r r' := by
  induction h with
  | refl => exact ⟨hI, .refl r⟩
  | tail _ h ih =>
      obtain ⟨hI, hbefore⟩ := ih
      obtain ⟨hI, hlast⟩ := h.withheld hs hI
      exact ⟨hI, hbefore.trans hlast⟩

theorem Policy.Moves.withheld {policy : Policy} (h : policy.Moves svc r r') (hI : I r.state) :
    I r'.state ∧ Throughout (fun e => e.isGrant = false) r r' := by
  induction h with
  | refl => exact ⟨hI, .refl r⟩
  | tail _ h ih =>
      obtain ⟨hI, hbefore⟩ := ih
      rcases h.reaches with h | ⟨capacity, rfl⟩
      · obtain ⟨hI, hlast⟩ := h.withheld hs hI
        exact ⟨hI, hbefore.trans hlast⟩
      · exact ⟨hI, hbefore⟩

theorem Session.Happens.withheld {policy : Policy} {step : Step σ}
    (h : Session.Happens policy svc step r r') (hk : step.Keeps I) (hI : I r.state) :
    I r'.state ∧ Throughout (fun e => e.isGrant = false) r r' := by
  cases h with
  | moved h => exact Policy.Moves.withheld hs h hI
  | searched m r => exact (Session.perform_reaches m r).withheld hs hI
  | read key r => exact (Run.Act.read key r).withheld hs hI
  | altered change r => exact ⟨hk.2 change rfl _ hI, [], rfl, by simp⟩
  | lapsed hst _ _ hj => exact ⟨hst ▸ hI, [], hj, by simp⟩
  | written hw _ => simp [hk.1] at hw

omit hs in
theorem Session.steps_withheld {s : Session σ} (hs : s.service.Withholds I)
    {steps : List (Step σ)} (hk : ∀ step ∈ steps, step.Keeps I) (hI : I s.run.state) :
    I (s.steps steps).run.state ∧
      Throughout (fun e => e.isGrant = false) s.run (s.steps steps).run := by
  induction steps generalizing s with
  | nil => exact ⟨hI, .refl s.run⟩
  | cons step steps ih =>
      obtain ⟨hstep, hrest⟩ := List.forall_mem_cons.mp hk
      obtain ⟨hI, hfirst⟩ := (s.step_happens step).withheld hs hstep hI
      have hs' : (s.step step).2.service.Withholds I := by rwa [step_service]
      obtain ⟨hI, hlast⟩ := ih hs' hrest hI
      exact ⟨hI, hfirst.trans hlast⟩

end withheld

/-! ### After the withdrawal -/

namespace Session

open Run (Relays)

/-- Let a session start from nothing and come to a point with no grant in its directory, and
let no grant be added and no decision be written but by searches from then on. A query that is
made a time to live later or still later is answered yes exactly if it reads a yes. A yes that it
reads was written since, less than a time to live before, and by then a yes had been read
since: it was handed on. -/
theorem late_yes_iff {start : Session StagedDirectory}
    (hservice : start.service = StagedDirectory.service) (hfresh : start.run.Fresh)
    {before after : List (Step StagedDirectory)} (q : Query) :
    let s := start.steps before
    let r := (s.steps after).run
    let out := s.policy.hasPermission s.service q r
    s.run.state.directory.WithoutGrant →
    (∀ step ∈ after, step.Keeps fun st => st.directory.WithoutGrant) →
    s.run.clock.elapsed + s.run.cache.ttl ≤ r.clock.elapsed →
    (out.1 = true ↔ ReadsYes (r.since out.2)) ∧
    ∀ key clock, .read key (some true) clock ∈ r.since out.2 →
      ∃ written earlier, (.write key true written :: earlier) <:+ s.run.since out.2 ∧
        s.run.clock.elapsed < written.elapsed ∧
        clock.elapsed < written.elapsed + s.run.cache.ttl ∧ ReadsYes earlier := by
  intro s r out hwithout hafter hlate
  have hwithholds : s.service.Withholds fun st => st.directory.WithoutGrant := by
    rw [steps_service, hservice]
    exact StagedDirectory.withholds
  have hmoves : s.policy.Moves s.service r out.2 := Policy.hasPermission_moves q r
  obtain ⟨hI, hthroughout⟩ := steps_withheld hwithholds hafter hwithout
  have hcleared := hthroughout.trans (Policy.Moves.withheld hwithholds hmoves hI).2
  have hsearched : ∀ step ∈ after, step.writesDirectly = false := by
    intro step hstep
    exact (hafter step hstep).1
  obtain ⟨yes, hr⟩ : ∃ yes, Relays yes s.run r := steps_relays hsearched
  have hout : Relays (out.1 = true) r out.2 := Policy.hasPermission_relays q r
  have hpasses := s.steps_passes after
  have hquery := Policy.Moves.passes hmoves
  obtain ⟨-, hhanded⟩ := (hr.trans hout).of_since fun e he => hcleared.of_mem_since he
  constructor
  · have hquiet : ∀ e ∈ r.since out.2, e.isGrant = false := by
      intro e he
      apply hcleared.of_mem_since
      rw [Run.since_trans hpasses.journal hquery.journal]
      exact List.mem_append_left _ he
    exact (hout.of_since hquiet).1
  · intro key clock hread
    have hrecorded := (start.steps_passes before).recorded hfresh.recorded
    exact hrecorded.handedOn hpasses hquery hhanded hlate hread

/-- Shortly before the group's yes expires the person is asked about, and then it expires. -/
def handingOn : List (Step StagedDirectory) :=
  [.advance 59000, staffCheck ⟨.person, "alice"⟩, .advance 1000]

/-- A time to live after the withdrawal the person still has what the group had. -/
theorem grant_outlives_withdrawal :
    let s := staffSession.steps withdrawal
    let r := (s.steps handingOn).run
    s.run.state.directory.permissions = [] ∧
      s.run.clock.elapsed + s.run.cache.ttl ≤ r.clock.elapsed ∧
      (s.policy.hasPermission s.service (staffQuery ⟨.person, "alice"⟩) r).1 = true := by
  decide +kernel

/-- The person's query reads a yes that was handed on. -/
theorem late_yes_handed_on :
    let s := staffSession.steps withdrawal
    let r := (s.steps handingOn).run
    ReadsYes (r.since (s.policy.hasPermission s.service (staffQuery ⟨.person, "alice"⟩) r).2) := by
  have hfresh : staffSession.run.Fresh := ⟨rfl, rfl⟩
  have hempty : (staffSession.steps withdrawal).run.state.directory.permissions = [] := by
    decide +kernel
  have hwithout : (staffSession.steps withdrawal).run.state.directory.WithoutGrant := by
    rw [Directory.WithoutGrant, hempty]
    simp
  have hafter : ∀ step ∈ handingOn, step.Keeps fun st => st.directory.WithoutGrant := by
    simp [handingOn, staffCheck, Step.Keeps, Step.writesDirectly]
  have hlate : (staffSession.steps withdrawal).run.clock.elapsed +
      (staffSession.steps withdrawal).run.cache.ttl ≤
        ((staffSession.steps withdrawal).steps handingOn).run.clock.elapsed := by
    decide +kernel
  have hyes : ((staffSession.steps withdrawal).policy.hasPermission
      (staffSession.steps withdrawal).service (staffQuery ⟨.person, "alice"⟩)
      ((staffSession.steps withdrawal).steps handingOn).run).1 = true := by
    decide +kernel
  exact (late_yes_iff rfl hfresh (staffQuery ⟨.person, "alice"⟩) hwithout hafter hlate).1.mp hyes

end Session

end GrantPath
