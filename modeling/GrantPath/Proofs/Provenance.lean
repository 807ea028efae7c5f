import GrantPath.Directory.Staged
import GrantPath.Proofs.Keys
import GrantPath.Proofs.Sessions

/-! # Where a yes comes from

The journal of a run tells every lookup that was made, so it can be asked of a yes where it
comes from. A principal is `Traced` in a journal if lookups in it make up a chain of groups
from the principal to one with a grant: of each principal on the way the records were looked
up with none in force, and after that its member, the groups of that, and the principal of one
of them, which is the next in the chain; of the last one the records were looked up with a
grant and no denial in force. The lookups of one principal may be far apart from those of the
next, and other things may have changed in between.

* Every search keeps the journal `Backed`: every yes that was written was traced before
  (`Search.Cases.traced`).
* Every step of a session does, unless it writes a decision that no search made
  (`Session.steps_justified`).
* So every yes in a session that starts from nothing is traced: those in its journal, those in
  its cache, those of its searches and, up to generalizations, those of its queries
  (`Session.yes_traced`). -/

namespace GrantPath

open scoped List

variable {σ : Type}

namespace Event

/-- The records about the principal were looked up and none was in force then. -/
def Silent (e : Event) (s : Scope) (p : Principal) : Prop :=
  ∃ target records clock,
    e = .call (.permissions p s.owner s.activity target) (.ok records) clock ∧
      target.getD "" = s.target.getD "" ∧
      ∀ record ∈ records, record.isActiveAt clock.wall = false

/-- The records about the principal were looked up, one in force then granted and none in
force then denied. -/
def Grants (e : Event) (s : Scope) (p : Principal) : Prop :=
  ∃ target records clock,
    e = .call (.permissions p s.owner s.activity target) (.ok records) clock ∧
      target.getD "" = s.target.getD "" ∧
      (∃ record ∈ records, record.isActiveAt clock.wall = true ∧ record.effect = .grant) ∧
      ¬∃ record ∈ records, record.isActiveAt clock.wall = true ∧ record.effect = .deny

theorem Silent.alike {e : Event} {s s' : Scope} {p : Principal} (h : e.Silent s p)
    (ha : s.Alike s') : e.Silent s' p := by
  obtain ⟨target, records, clock, rfl, ht, hall⟩ := h
  exact ⟨target, records, clock, by rw [ha.1, ha.2.1], ht.trans ha.2.2, hall⟩

theorem Grants.alike {e : Event} {s s' : Scope} {p : Principal} (h : e.Grants s p)
    (ha : s.Alike s') : e.Grants s' p := by
  obtain ⟨target, records, clock, rfl, ht, hall⟩ := h
  exact ⟨target, records, clock, by rw [ha.1, ha.2.1], ht.trans ha.2.2, hall⟩

end Event

/-- Lookups in the journal, which has the latest first, make up a chain from the principal to
a grant. A target that is absent counts as the empty one. -/
inductive Traced (journal : List Event) (s : Scope) : Principal → Prop
  | granted {p : Principal} {lookUp : Event} :
      lookUp ∈ journal → lookUp.Grants s p → Traced journal s p
  | climbed {p q : Principal} {m g : GroupMember} {groups : List GroupMember} {lookUp : Event}
      {c₁ c₂ c₃ : Clock} :
      lookUp.Silent s p → g ∈ groups →
      [.call (.newPrincipal g) (.ok q) c₃, .call (.parentGroups m) (.ok groups) c₂,
        .call (.groupMember p) (.ok m) c₁, lookUp] <+ journal →
      Traced journal s q → Traced journal s p

/-- Every yes in the journal was written for a principal that was traced before. -/
def Backed (journal : List Event) : Prop :=
  ∀ key clock earlier, (.write key true clock :: earlier) <:+ journal →
    ∃ s p, key = Scope.key s p ∧ Traced earlier s p

variable {journal journal' : List Event} {s s' : Scope} {p : Principal}

theorem Traced.mono (h : Traced journal s p) (hsub : journal <+ journal') :
    Traced journal' s p := by
  induction h with
  | granted hmem hg => exact .granted (hsub.subset hmem) hg
  | climbed hs hg hl _ ih => exact .climbed hs hg (hl.trans hsub) ih

theorem Traced.alike (h : Traced journal s p) (ha : s.Alike s') : Traced journal s' p := by
  induction h with
  | granted hmem hg => exact .granted hmem (hg.alike ha)
  | climbed hs hg hl _ ih => exact .climbed (hs.alike ha) hg hl ih

theorem backed_nil : Backed [] := by
  intro key clock earlier h
  simp at h

theorem Backed.traced (h : Backed journal) {clock : Clock} {earlier : List Event}
    (hw : (.write (s.key p) true clock :: earlier) <:+ journal) : Traced earlier s p := by
  obtain ⟨s', p', hkey, ht⟩ := h _ _ _ hw
  obtain ⟨rfl, ha⟩ := Scope.key_eq_key_iff.mp hkey
  exact ht.alike ha.symm

/-- A yes in a backed journal is traced in it. -/
theorem Backed.traced_of_mem (h : Backed journal) {clock : Clock}
    (hw : .write (s.key p) true clock ∈ journal) : Traced journal s p := by
  obtain ⟨later, earlier, rfl⟩ := List.append_of_mem hw
  have hsuff : (.write (s.key p) true clock :: earlier) <:+
      later ++ .write (s.key p) true clock :: earlier := List.suffix_append ..
  exact (h.traced hsuff).mono ((List.suffix_cons ..).trans hsuff).sublist

theorem Backed.cons (h : Backed journal) {e : Event}
    (he : ∀ key clock, e ≠ .write key true clock) : Backed (e :: journal) := by
  intro key clock earlier hw
  rcases List.suffix_cons_iff.mp hw with hw | hw
  · exact absurd (List.cons.inj hw).1.symm (he key clock)
  · exact h key clock earlier hw

theorem Backed.write (h : Backed journal) {allowed : Bool} (clock : Clock)
    (ht : allowed = true → Traced journal s p) :
    Backed (.write (s.key p) allowed clock :: journal) := by
  intro key clock' earlier hw
  rcases List.suffix_cons_iff.mp hw with hw | hw
  · obtain ⟨he, rfl⟩ := List.cons.inj hw
    obtain ⟨rfl, ha, -⟩ := Event.write.inj he
    exact ⟨s, p, rfl, ht ha.symm⟩
  · exact h key clock' earlier hw

/-- Records are right and every yes in the journal is backed. -/
structure Run.Justified (r : Run σ) : Prop where
  recorded : r.Recorded
  backed : Backed r.journal

/-- What a read finds to be a yes is traced. -/
theorem Run.Justified.traced {r : Run σ} (h : r.Justified) (hk : r.Knows (s.key p) true) :
    Traced r.journal s p := by
  obtain ⟨d, hd, ha, -⟩ := Run.knows_iff.mp hk
  obtain ⟨clock, hw, -⟩ := h.recorded.stored _ d hd
  rw [ha] at hw
  exact h.backed.traced_of_mem hw

theorem Run.Justified.count {r : Run σ} (h : r.Justified) (o : Occurrence) :
    (r.count o).Justified :=
  ⟨(r.count_passes o).recorded h.recorded, h.backed⟩

theorem Run.Justified.passedOver {r : Run σ} (h : r.Justified) (outcome : Except Error Bool) :
    (Search.passedOver outcome r).Justified := by
  cases outcome with
  | error e => exact h.count _
  | ok granted => exact h

/-! ### Searches -/

namespace Search

variable {s : Search σ} {r : Run σ} {m g : GroupMember}

theorem Finds.silent {records : List Permission} (h : s.Finds p r records none) :
    (Event.call (.permissions p s.scope.owner s.scope.activity s.scope.target) (s.lookUp p r).1
      (s.looked p r).clock).Silent s.scope p := by
  rw [h.1]
  exact ⟨_, _, _, rfl, rfl, Permission.verdict_eq_none_iff.mp h.2⟩

theorem Finds.grants {records : List Permission} (h : s.Finds p r records (some true)) :
    (Event.call (.permissions p s.scope.owner s.scope.activity s.scope.target) (s.lookUp p r).1
      (s.looked p r).clock).Grants s.scope p := by
  rw [h.1]
  exact ⟨_, _, _, rfl, rfl, Permission.verdict_eq_some_true_iff.mp h.2⟩

theorem backed_looked (h : r.Justified) : Backed (s.looked p r).journal :=
  h.backed.cons (by simp)

theorem backed_named (h : r.Justified) : Backed (s.named p r).journal :=
  (backed_looked h).cons (by simp)

theorem backed_expanded (h : r.Justified) : Backed (s.expanded p m r).journal :=
  (backed_named h).cons (by simp)

theorem backed_addressed (h : r.Justified) : Backed (s.addressed r g).journal :=
  h.backed.cons (by simp)

theorem justified_expanded (h : r.Justified) : (s.expanded p m r).Justified :=
  ⟨h.recorded.reaches (s.expanded_reaches p m r), backed_expanded h⟩

theorem justified_addressed (h : r.Justified) : (s.addressed r g).Justified :=
  ⟨h.recorded.reaches (s.addressed_reaches g r), backed_addressed h⟩

theorem backed_read (h : r.Justified) (key : DecisionKey) : Backed (r.readCache key).2.journal := by
  rw [Run.readCache_journal]
  exact h.backed.cons (by simp)

theorem justified_missed (h : r.Justified) : (s.missed p r).Justified :=
  ⟨h.recorded.reaches (s.missed_reaches p r), backed_read h _⟩

/-- After the first of two journals one of the groups was addressed, and its principal is traced
in the second. -/
def TracedBy (s : Scope) (gs : List GroupMember) (before after : List Event) : Prop :=
  ∃ g ∈ gs, ∃ q clock, .call (.newPrincipal g) (.ok q) clock :: before <+ after ∧ Traced after s q

theorem TracedBy.later {s : Scope} {gs : List GroupMember} {before between after : List Event}
    (h : TracedBy s gs between after) (hsub : before <+ between) :
    TracedBy s (g :: gs) before after := by
  obtain ⟨g', hmem, q, clock, hcall, hq⟩ := h
  exact ⟨g', List.mem_cons_of_mem _ hmem, q, clock, (hsub.cons_cons _).trans hcall, hq⟩

/-- A search keeps the journal backed, and when it answers yes the principal is traced. -/
theorem Cases.traced (s : Search σ) :
    s.Cases
      (fun _ p r out => r.Justified →
        Backed out.2.journal ∧ (out.1 = .ok true → Traced out.2.journal s.scope p))
      (fun _ p r out => r.Justified →
        Backed out.2.journal ∧ (out.1 = .ok true → Traced out.2.journal s.scope p))
      (fun _ gs r out => r.Justified →
        Backed out.2.journal ∧ (out.1 = true → TracedBy s.scope gs r.journal out.2.journal)) where
  lookUpFails _ hr := ⟨backed_looked hr, by simp⟩
  decided {n p r records granted} hf hr := by
    refine ⟨backed_looked hr, ?_⟩
    intro hyes
    obtain rfl := Except.ok.inj hyes
    exact .granted (List.mem_cons_self ..) hf.grants
  noStepLeft _ hr := ⟨backed_looked hr, by simp⟩
  memberFails _ _ hr := ⟨backed_named hr, by simp⟩
  metBefore _ _ _ hr := ⟨backed_named hr, by simp⟩
  groupsFail _ _ _ _ hr := ⟨backed_expanded hr, by simp⟩
  climbed {n p r records m groups out} hf hm _ hg _ htried hr := by
    obtain ⟨hb, htraced⟩ := htried (justified_expanded hr)
    refine ⟨hb, ?_⟩
    intro hyes
    obtain ⟨g, hmem, q, clock, hsub, hq⟩ := htraced (Except.ok.inj hyes)
    have hlooked : [Event.call (.parentGroups m) (.ok groups) (s.expanded p m r).clock,
        .call (.groupMember p) (.ok m) (s.named p r).clock,
        .call (.permissions p s.scope.owner s.scope.activity s.scope.target) (s.lookUp p r).1
          (s.looked p r).clock] <+ (s.expanded p m r).journal := by
      rw [← hg, ← hm]
      exact (List.prefix_append _ r.journal).sublist
    exact .climbed hf.silent hmem ((hlooked.cons_cons _).trans hsub) hq
  noGroupLeft hr := ⟨hr.backed, by simp⟩
  noPrincipal {n g gs r e out} _ _ htried hr := by
    obtain ⟨hb, htraced⟩ := htried ((justified_addressed hr).count _)
    refine ⟨hb, ?_⟩
    intro hyes
    have hgrown : r.journal <:+ (s.addressed r g).journal :=
      (s.addressed_reaches g r).journal_suffix
    exact (htraced hyes).later hgrown.sublist
  granted {n g gs q r r'} hq hreach hcons hr := by
    obtain ⟨hb, htraced⟩ := hcons (justified_addressed hr)
    refine ⟨hb, ?_⟩
    intro _
    have hcall : .call (.newPrincipal g) (.ok q) (s.addressed r g).clock :: r.journal <+
        r'.journal := by
      rw [← hq]
      exact hreach.journal_suffix.sublist
    exact ⟨g, List.mem_cons_self .., q, _, hcall, htraced rfl⟩
  refused {n g gs q r r' outcome out} _ hreach hcons _ _ htried hr := by
    obtain ⟨hb', -⟩ := hcons (justified_addressed hr)
    have hr' : r'.Justified := ⟨(justified_addressed hr).recorded.reaches hreach, hb'⟩
    obtain ⟨hb, htraced⟩ := htried (hr'.passedOver outcome)
    refine ⟨hb, ?_⟩
    intro hyes
    have hgrown : r.journal <:+ (passedOver outcome r').journal := by
      rw [passedOver_journal]
      exact (s.addressed_reaches g r).journal_suffix.trans hreach.journal_suffix
    exact (htraced hyes).later hgrown.sublist
  hit {n p r granted} hk hr := by
    refine ⟨backed_read hr _, ?_⟩
    intro hyes
    obtain rfl := Except.ok.inj hyes
    exact (hr.traced hk).mono (r.readCache_passes _).journal.sublist
  computed {n p r granted r'} _ _ hv hr := by
    obtain ⟨hb, htraced⟩ := hv (justified_missed hr)
    have hwritten : granted = true → Traced r'.journal s.scope p := by
      intro hyes
      exact htraced (congrArg Except.ok hyes)
    refine ⟨?_, ?_⟩
    · rw [Run.writeCache_journal]
      exact hb.write _ hwritten
    · intro hyes
      exact (htraced hyes).mono (Run.writeCache_passes _ _ r').journal.sublist
  notComputed _ _ hv hr := hv (justified_missed hr)

variable (s) in
theorem justified_begun (seen : SeenGroups) (hr : r.Justified) :
    (r.beginSearch (s.scope.key p) seen).Justified := by
  have hact : Run.Act s.service r (r.beginSearch (s.scope.key p) seen) := .beginSearch _ seen r
  exact ⟨hr.recorded.act hact, hr.backed.cons (by simp)⟩

variable (s) in
theorem run_traced (seen : SeenGroups) (p : Principal) (hr : r.Justified) :
    (s.run seen p r).2.Justified ∧
      ((s.run seen p r).1 = .ok true → Traced (s.run seen p r).2.journal s.scope p) := by
  obtain ⟨hb, htraced⟩ := (Cases.traced s).cached s.limit p _ (justified_begun s seen hr)
  exact ⟨⟨hr.recorded.reaches (s.run_reaches seen p r), hb⟩, htraced⟩

variable (s) in
theorem runAnew_traced (seen : SeenGroups) (p : Principal) (hr : r.Justified) :
    (s.runAnew seen p r).2.Justified ∧
      ((s.runAnew seen p r).1 = .ok true → Traced (s.runAnew seen p r).2.journal s.scope p) := by
  obtain ⟨hb, htraced⟩ := (Cases.traced s).resolve s.limit p _ (justified_begun s seen hr)
  exact ⟨⟨hr.recorded.reaches (s.runAnew_reaches seen p r), hb⟩, htraced⟩

end Search

theorem ManualSearch.perform_traced {svc : Service σ} {r : Run σ} (m : ManualSearch)
    (hr : r.Justified) :
    (m.perform svc r).2.Justified ∧
      ((m.perform svc r).1 = .ok true →
        Traced (m.perform svc r).2.journal m.scope m.principal) := by
  unfold ManualSearch.perform
  cases m.cached with
  | true => exact Search.run_traced ⟨svc, m.scope, m.limit⟩ _ _ hr
  | false => exact Search.runAnew_traced ⟨svc, m.scope, m.limit⟩ _ _ hr

/-! ### Queries -/

namespace Policy

variable {policy : Policy} {svc : Service σ} {r r' : Run σ} {q q' : Query}

theorem Move.justified (h : policy.Move svc r r') (hr : r.Justified) : r'.Justified := by
  refine ⟨h.passes.recorded hr.recorded, ?_⟩
  cases h with
  | ask q r => exact hr.backed.cons (by simp)
  | count o r => exact hr.backed
  | setAside capacity r => exact hr.backed
  | search q r => exact ((policy.search svc q).run_traced .empty q.principal hr).1.backed
  | refresh q r =>
      obtain ⟨hj, ht⟩ := (policy.search svc q).runAnew_traced .empty q.principal hr
      rcases r.forceRefresh_cases q.key ((policy.search svc q).runAnew .empty q.principal) with
        ⟨e, r₁, hout, hafter⟩ | ⟨granted, r₁, hout, hafter⟩
      · rw [hout] at hj
        rw [hafter]
        exact hj.backed
      · rw [hout] at hj ht
        rw [hafter, Run.count_journal, Run.writeCache_journal]
        apply hj.backed.write
        intro hyes
        exact ht (congrArg Except.ok hyes)

theorem Moves.justified (h : policy.Moves svc r r') (hr : r.Justified) : r'.Justified := by
  induction h with
  | refl => exact hr
  | tail _ h ih => exact h.justified ih

/-- The second query generalizes the first, by lookups in the journal. -/
inductive Broader (policy : Policy) (journal : List Event) : Query → Query → Prop
  | superUser {q : Query} {everything : Activity} {owner : Owner} {target : Target}
      {c₁ c₂ c₃ : Clock} : policy.superUserShortcut = true → q.activity ≠ everything →
      .call (.resolveActivity systemOwner allPermissions) (.ok (some everything)) c₁ ∈ journal →
      .call (.resolveOwner systemOwner) (.ok (some owner)) c₂ ∈ journal →
      .call (.resolveTarget everything.targetProvider allTarget) (.ok (some target)) c₃ ∈ journal →
      Broader policy journal q ⟨q.principal, owner, everything, some target⟩
  | collective {q : Query} {target collective : Target} {key : String} {c : Clock} :
      policy.collectiveTargets = true → q.target = some target → target.isCollective = false →
      target.type.collectiveKey? = some key →
      .call (.resolveTarget q.activity.targetProvider key) (.ok (some collective)) c ∈ journal →
      Broader policy journal q { q with target := some collective }

theorem Broader.mono (h : policy.Broader journal q q') (hsub : journal <:+ journal') :
    policy.Broader journal' q q' := by
  cases h with
  | superUser he hne h₁ h₂ h₃ =>
      exact .superUser he hne (hsub.subset h₁) (hsub.subset h₂) (hsub.subset h₃)
  | collective he ht hc hk h => exact .collective he ht hc hk (hsub.subset h)

theorem ask_mem {request : Request} {answer : Except Error request.Answer}
    (h : r.ask svc request = (answer, r')) : ∃ c, .call request answer c ∈ r'.journal := by
  obtain ⟨rfl, rfl⟩ := Prod.mk.inj h
  exact ⟨_, List.mem_cons_self ..⟩

theorem ask_suffix {request : Request} {answer : Except Error request.Answer}
    (h : r.ask svc request = (answer, r')) : r.journal <:+ r'.journal := by
  obtain ⟨rfl, rfl⟩ := Prod.mk.inj h
  exact List.suffix_cons ..

theorem superUserQuery_broader (he : policy.superUserShortcut = true)
    (h : superUserQuery svc q r = (some q', r')) : policy.Broader r'.journal q q' := by
  unfold superUserQuery at h
  rcases h₁ : r.ask svc (.resolveActivity systemOwner allPermissions) with
    ⟨_ | _ | everything, r₁⟩
  · simp [h₁] at h
  · simp [h₁] at h
  by_cases hne : q.activity = everything
  · simp [h₁, hne] at h
  rcases h₂ : r₁.ask svc (.resolveOwner systemOwner) with ⟨_ | _ | owner, r₂⟩
  · simp [h₁, hne, h₂] at h
  · simp [h₁, hne, h₂] at h
  rcases h₃ : r₂.ask svc (.resolveTarget everything.targetProvider allTarget) with
    ⟨_ | _ | target, r₃⟩
  · simp [h₁, hne, h₂, h₃] at h
  · simp [h₁, hne, h₂, h₃] at h
  simp only [h₁, hne, h₂, h₃, if_false, Prod.mk.injEq, Option.some.injEq] at h
  obtain ⟨rfl, rfl⟩ := h
  obtain ⟨c₁, hm₁⟩ := ask_mem h₁
  obtain ⟨c₂, hm₂⟩ := ask_mem h₂
  obtain ⟨c₃, hm₃⟩ := ask_mem h₃
  have hsub := ask_suffix h₃
  exact .superUser he hne (hsub.subset ((ask_suffix h₂).subset hm₁)) (hsub.subset hm₂) hm₃

theorem collectiveQuery_broader (he : policy.collectiveTargets = true)
    (h : collectiveQuery svc q r = (some q', r')) : policy.Broader r'.journal q q' := by
  unfold collectiveQuery collectiveTarget at h
  cases ht : q.target with
  | none => simp [ht] at h
  | some target =>
      cases hc : target.isCollective with
      | true => simp [ht, hc] at h
      | false =>
          cases hk : target.type.collectiveKey? with
          | none => simp [ht, hc, hk] at h
          | some key =>
              rcases h₁ : r.ask svc (.resolveTarget q.activity.targetProvider key) with
                ⟨_ | _ | collective, r₁⟩
              · simp [ht, hc, hk, h₁] at h
              · simp [ht, hc, hk, h₁] at h
              simp only [ht, hc, hk, h₁, Bool.false_eq_true, if_false, Prod.mk.injEq,
                Option.some.injEq] at h
              obtain ⟨rfl, rfl⟩ := h
              obtain ⟨c₁, hm₁⟩ := ask_mem h₁
              exact .collective he ht hc hk hm₁

/-- The query or a generalization of it is about a traced principal. -/
def TracedUpTo (policy : Policy) (journal : List Event) (q : Query) : Prop :=
  ∃ broader, Relation.ReflTransGen (policy.Broader journal) q broader ∧
    Traced journal broader.scope broader.principal

theorem TracedUpTo.broader (h : policy.TracedUpTo journal' q')
    (hb : policy.Broader journal q q') (hsub : journal <:+ journal') :
    policy.TracedUpTo journal' q := by
  obtain ⟨last, hlast, ht⟩ := h
  exact ⟨last, .head (hb.mono hsub) hlast, ht⟩

theorem Attempt.tracedUpTo {judged : Query → Run σ → Except Error Bool × Run σ → Prop}
    {enabled : Bool} {broaden : Broadening σ} (hr : r.Justified)
    (hasks : ∀ q r, Asks svc r (broaden q r).2)
    (hbroaden : ∀ q' r', enabled = true → broaden q r = (some q', r') →
      policy.Broader r'.journal q q')
    (hjudged : ∀ q r out, judged q r out → r.Justified → out.1 = .ok true →
      policy.TracedUpTo out.2.journal q)
    (h : policy.Attempt svc judged enabled broaden q r (true, r')) :
    policy.TracedUpTo r'.journal q := by
  generalize hout : (true, r') = out at h
  cases h with
  | disabled _ => cases hout
  | nothing _ _ => cases hout
  | @judged q' r₁ out he hb hm hj =>
      obtain ⟨hyes, rfl⟩ : out.1 = .ok true ∧ r' = out.2 := by
        constructor
        · exact contained_fst_eq_true_iff.mp (congrArg Prod.fst hout).symm
        · rw [← contained_snd, ← hout]
      have hr₁ : r₁.Justified := by
        have hmoves : policy.Moves svc r (broaden q r).2 := (hasks q r).moves
        have h := hmoves.justified hr
        rwa [hb] at h
      exact TracedUpTo.broader (hjudged q' r₁ out hj hr₁ hyes) (hbroaden q' r₁ he hb)
        hm.passes.journal

theorem Cases.tracedUpTo : policy.Cases svc (fun _ q r out => r.Justified → out.1 = .ok true →
    policy.TracedUpTo out.2.journal q) where
  tooDeep _ h := by cases h
  superUser {depth q r r'} ha hr _ := by
    have h := ha.tracedUpTo hr superUserQuery_asks (fun _ _ he => superUserQuery_broader he)
      (fun _ _ _ h => h)
    exact h
  collective {depth q r r₁ r₂} _ hm ha _ hr _ := by
    have h := ha.tracedUpTo (hm.justified hr) collectiveQuery_asks
      (fun _ _ he => collectiveQuery_broader he) (fun _ _ _ h => h)
    exact h
  searched {depth q r r₁ r₂} _ hm₁ _ hm₂ hr hyes := by
    have haside : policy.Move svc r₂ (r₂.setAside policy.seenCapacity) := .setAside _ _
    have hr₂ := haside.justified (hm₂.justified (hm₁.justified hr))
    obtain ⟨-, htraced⟩ := (policy.search svc q).run_traced .empty q.principal hr₂
    exact ⟨q, .refl, htraced hyes⟩

theorem hasPermission_tracedUpTo (hr : r.Justified) (h : (policy.hasPermission svc q r).1 = true) :
    policy.TracedUpTo (policy.hasPermission svc q r).2.journal q := by
  obtain ⟨counters, hsnd⟩ := hasPermission_snd policy svc q r
  rw [hsnd]
  exact Cases.tracedUpTo.evaluate _ q r hr (hasPermission_fst_eq_true_iff.mp h)

end Policy

/-! ### Sessions -/

namespace Session

variable {policy : Policy} {svc : Service σ} {step : Step σ} {r r' : Run σ}

theorem Happens.justified (h : Happens policy svc step r r') (hw : step.writesDirectly = false)
    (hr : r.Justified) : r'.Justified := by
  refine ⟨h.passes.recorded hr.recorded, ?_⟩
  cases h with
  | moved h => exact (h.justified hr).backed
  | searched m r => exact (m.perform_traced hr).1.backed
  | read key r => exact Search.backed_read hr key
  | altered change r => exact hr.backed
  | lapsed _ _ _ hj => exact hj ▸ hr.backed
  | written hw' _ => simp [hw] at hw'

theorem steps_justified {s : Session σ} (hs : s.run.Justified) {steps : List (Step σ)}
    (hsteps : ∀ step ∈ steps, step.writesDirectly = false) : (s.steps steps).run.Justified := by
  induction steps generalizing s with
  | nil => exact hs
  | cons step steps ih =>
      obtain ⟨hstep, hrest⟩ := List.forall_mem_cons.mp hsteps
      exact ih ((s.step_happens step).justified hstep hs) hrest

/-- In a session that starts from nothing and in which only searches write decisions, every yes
is traced: one that was written was traced before, and so is one in the cache, one of a search,
by hand or within an operation of the policy, and, up to generalizations, one of a query. -/
theorem yes_traced {s₀ : Session σ} (hfresh : s₀.run.Fresh) {steps : List (Step σ)}
    (hsteps : ∀ step ∈ steps, step.writesDirectly = false) :
    let s := s₀.steps steps
    Backed s.run.journal ∧
    (∀ key d, s.run.cache.find? key = some d → d.allowed = true →
      ∃ scope p, key = Scope.key scope p ∧ Traced s.run.journal scope p) ∧
    (∀ r, s.policy.Moves s.service s.run r → Backed r.journal ∧
      ∀ m : ManualSearch, (m.perform s.service r).1 = .ok true →
        Traced (m.perform s.service r).2.journal m.scope m.principal) ∧
    ∀ q, (s.policy.hasPermission s.service q s.run).1 = true →
      s.policy.TracedUpTo (s.policy.hasPermission s.service q s.run).2.journal q := by
  intro s
  have hnil : Backed s₀.run.journal := by
    rw [hfresh.journal]
    exact backed_nil
  have hs : s.run.Justified := steps_justified ⟨hfresh.recorded, hnil⟩ hsteps
  refine ⟨hs.backed, ?_, ?_, ?_⟩
  · intro key d hd ha
    obtain ⟨clock, hw, -⟩ := hs.recorded.stored key d hd
    rw [ha] at hw
    obtain ⟨later, earlier, hj⟩ := List.append_of_mem hw
    have hsuff : (.write key true clock :: earlier) <:+ s.run.journal := by
      rw [hj]
      exact List.suffix_append ..
    obtain ⟨scope, p, hkey, ht⟩ := hs.backed key clock earlier hsuff
    exact ⟨scope, p, hkey, ht.mono ((List.suffix_cons ..).trans hsuff).sublist⟩
  · intro r hr
    have hjustified : r.Justified := hr.justified hs
    refine ⟨hjustified.backed, ?_⟩
    intro m
    exact (m.perform_traced hjustified).2
  · intro q
    exact Policy.hasPermission_tracedUpTo hs

/-- A person in a group that has a grant. -/
def staffDirectory : StagedDirectory where
  directory := (({} : Directory).addMembership ⟨.person, "alice"⟩ "staff").addPermission
    (.assign ⟨.group, "staff"⟩ "O" "ACT" "T" .grant)

/-- A session with that directory, without generalizations; decisions live for a minute. -/
def staffSession : Session StagedDirectory :=
  .start { cache := { ttlSeconds := 60 }
           policy := { superUserShortcut := false, collectiveTargets := false } }
    StagedDirectory.service staffDirectory (.startingAt 0 0)

/-- Whether the principal has what the group has. -/
def staffQuery (p : Principal) : Query :=
  ⟨p, ⟨"O", "Owner"⟩, ⟨"ACT", "Activity", "provider"⟩, some ⟨"T", "Target", .other⟩⟩

/-- The step that asks. -/
def staffCheck (p : Principal) : Step StagedDirectory :=
  let q := staffQuery p
  .check ⟨true, some p, some q.owner, some q.activity, q.target⟩

/-- The group is asked about, and then all records are dropped. -/
def withdrawal : List (Step StagedDirectory) :=
  [staffCheck ⟨.group, "staff"⟩, .alter (·.change (.directory .clearPermissions))]

/-- A yes after the grant was withdrawn is traced to lookups before and after. -/
theorem yes_traced_after_withdrawal :
    let s := staffSession.steps withdrawal
    let out := s.policy.hasPermission s.service (staffQuery ⟨.person, "alice"⟩) s.run
    out.1 = true ∧ s.policy.TracedUpTo out.2.journal (staffQuery ⟨.person, "alice"⟩) := by
  have hfresh : staffSession.run.Fresh := ⟨rfl, rfl⟩
  have hsteps : ∀ step ∈ withdrawal, step.writesDirectly = false := by decide
  have htraced := (yes_traced hfresh hsteps).2.2.2 (staffQuery ⟨.person, "alice"⟩)
  generalize hs : staffSession.steps withdrawal = s at htraced
  have hyes :
      (s.policy.hasPermission s.service (staffQuery ⟨.person, "alice"⟩) s.run).1 = true := by
    rw [← hs]
    decide +kernel
  exact ⟨hyes, htraced hyes⟩

end Session

end GrantPath
