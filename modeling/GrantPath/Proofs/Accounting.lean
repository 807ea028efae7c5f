import GrantPath.Proofs.FailingGroups
import GrantPath.Proofs.PlainSearch
import GrantPath.Proofs.Provenance

/-! # What the counters account for

The counters are moved in many places: by a visit, by a consultation of the cache, by an answer.
What they show in the end is told here by a `Session.ledger`, which lists what became of every
query and of every decision loaded ahead.

* A search answers nothing, and it evaluates as many nodes as it looks up and as the cache misses;
  but a visit that is not made through the cache evaluates one more (`Run.Charged`,
  `Search.Cases.charged`).
* A search that fails ends without a decision of its key, found or written; any other search ends
  with one (`Search.Cases.ends`). So it can be told from the journal whether the last search of a
  query failed (`lastSearchFails`), and an evaluation fails exactly if it did
  (`Policy.Cases.ends`).
* So every operation moves the counters by its entries (`Run.Accounts`), and
  `Session.counters_account` adds up a session. -/

namespace GrantPath

open Relation

variable {σ : Type}

/-! ### Lookups, misses and evaluations -/

/-- Whether an occurrence is none of an answer, a decision loaded ahead, a lookup or a miss. -/
def Occurrence.isAside : Occurrence → Bool
  | .branchFailure | .superUserGrant | .collectiveGrant | .cacheHit | .cacheExpiry
  | .cacheCleanup _ | .cycleGuardHit => true
  | _ => false

/-- What is counted of answers and of decisions loaded ahead. -/
def Counters.answered (c : Counters) : Counters where
  grants := c.grants
  denials := c.denials
  invalidArguments := c.invalidArguments
  topLevelFailures := c.topLevelFailures
  cachePrewarms := c.cachePrewarms

namespace Run

/-- From one run to the other nothing was answered or loaded, as many nodes were evaluated as
records were looked up, and so many more than the cache missed. -/
structure Charged (more : Nat) (r r' : Run σ) : Prop where
  answered : r'.counters.answered = r.counters.answered
  lookUps : r'.counters.nodesEvaluated + r.lookUps = r.counters.nodesEvaluated + r'.lookUps
  misses : r'.counters.nodesEvaluated + r.counters.cacheMisses =
    r.counters.nodesEvaluated + r'.counters.cacheMisses + more

variable {svc : Service σ} {r m r' : Run σ} {k k' : Nat}

theorem Charged.of_eq (hc : r'.counters = r.counters) (hl : r'.lookUps = r.lookUps) :
    Charged 0 r r' := by
  constructor
  · rw [hc]
  · rw [hc, hl]
  · rw [hc]
    rfl

theorem Charged.of_counted {o : Occurrence} (ho : o.isAside = true)
    (hc : r'.counters = r.counters.record o) (hl : r'.lookUps = r.lookUps) : Charged 0 r r' := by
  constructor
  · rw [hc]
    cases o <;> first | rfl | cases ho
  · rw [hc, hl]
    cases o <;> first | rfl | cases ho
  · rw [hc]
    cases o <;> first | rfl | cases ho

theorem Charged.refl (r : Run σ) : Charged 0 r r := .of_eq rfl rfl

theorem Charged.trans (h : Charged k r m) (h' : Charged k' m r') : Charged (k + k') r r' where
  answered := h'.answered.trans h.answered
  lookUps := by
    have := h.lookUps
    have := h'.lookUps
    omega
  misses := by
    have := h.misses
    have := h'.misses
    omega

theorem lookUps_cons {e : Event} (h : r'.journal = e :: r.journal) :
    r'.lookUps = r.lookUps + e.isLookUp.toNat := by
  unfold lookUps
  rw [h, List.filter_cons]
  cases e.isLookUp <;> rfl

theorem lookUps_since (h : r.journal <:+ r'.journal) :
    (r.since r').countP (·.isLookUp) + r.lookUps = r'.lookUps := by
  rw [lookUps, lookUps, ← List.countP_eq_length_filter, ← List.countP_eq_length_filter,
    ← List.countP_append, since_append h]

theorem charged_count {o : Occurrence} (ho : o.isAside = true) (r : Run σ) :
    Charged 0 r (r.count o) := .of_counted ho rfl rfl

theorem charged_ask {q : Request}
    (hq : ∀ answer clock, (Event.call q answer clock).isLookUp = false)
    (r : Run σ) : Charged 0 r (r.ask svc q).2 := by
  refine .of_eq rfl ?_
  rw [lookUps_cons rfl, hq]
  rfl

theorem charged_read (key : DecisionKey) (r : Run σ) : Charged 0 r (r.readCache key).2 := by
  have hlookUps : (r.readCache key).2.lookUps = r.lookUps :=
    lookUps_cons (r.readCache_journal key)
  have hcounters : (r.readCache key).2.counters = r.counters ∨
      (r.readCache key).2.counters = r.counters.record .cacheExpiry := by
    unfold readCache
    rcases r.cache.get key r.clock.elapsed with ⟨_ | _ | _, cache⟩
    · exact .inl rfl
    · exact .inr rfl
    · exact .inl rfl
  rcases hcounters with hc | hc
  · exact .of_eq hc hlookUps
  · exact .of_counted rfl hc hlookUps

theorem charged_write (key : DecisionKey) (allowed : Bool) (r : Run σ) :
    Charged 0 r (r.writeCache key allowed) := by
  have hlookUps : (r.writeCache key allowed).lookUps = r.lookUps :=
    lookUps_cons (r.writeCache_journal key allowed)
  have hcounters : (r.writeCache key allowed).counters = r.counters ∨
      ∃ dropped, (r.writeCache key allowed).counters =
        r.counters.record (.cacheCleanup dropped) := by
    simp only [writeCache, makeRoomFor, countCleanup, overrunIf]
    split
    · exact .inl rfl
    · exact .inr ⟨_, rfl⟩
  rcases hcounters with hc | ⟨dropped, hc⟩
  · exact .of_eq hc hlookUps
  · exact .of_counted rfl hc hlookUps

theorem nodesEvaluated_readCache (key : DecisionKey) (r : Run σ) :
    (r.readCache key).2.counters.nodesEvaluated = r.counters.nodesEvaluated := by
  have hlookUps : (r.readCache key).2.lookUps = r.lookUps :=
    lookUps_cons (r.readCache_journal key)
  have hcharged := (charged_read key r).lookUps
  omega

theorem nodesEvaluated_writeCache (key : DecisionKey) (allowed : Bool) (r : Run σ) :
    (r.writeCache key allowed).counters.nodesEvaluated = r.counters.nodesEvaluated := by
  have hlookUps : (r.writeCache key allowed).lookUps = r.lookUps :=
    lookUps_cons (r.writeCache_journal key allowed)
  have hcharged := (charged_write key allowed r).lookUps
  omega

/-- A miss that is made good by an evaluation beside the cache. -/
theorem Charged.of_missed (h : Charged 1 (r.count .cacheMiss) r') : Charged 0 r r' where
  answered := h.answered
  lookUps := h.lookUps
  misses := by
    have := h.misses
    simp only [count, Counters.record] at this
    omega

end Run

namespace Search

open Run (Charged)

variable (s : Search σ) (p : Principal) (m : GroupMember) (r : Run σ)

theorem charged_looked : Charged 1 r (s.looked p r) where
  answered := rfl
  lookUps := by
    have hlookUps : (s.looked p r).lookUps = r.lookUps + 1 := rfl
    have hnodes : (s.looked p r).counters.nodesEvaluated = r.counters.nodesEvaluated + 1 := rfl
    omega
  misses := by
    have hnodes : (s.looked p r).counters.nodesEvaluated = r.counters.nodesEvaluated + 1 := rfl
    have hmisses : (s.looked p r).counters.cacheMisses = r.counters.cacheMisses := rfl
    omega

theorem charged_named : Charged 1 r (s.named p r) :=
  (s.charged_looked p r).trans (Run.charged_ask (fun _ _ => rfl) _)

theorem charged_expanded : Charged 1 r (s.expanded p m r) := by
  have hseen : Charged 0 (s.named p r) ((s.named p r).see m) := .of_eq rfl rfl
  have hasked : Charged 0 ((s.named p r).see m) (s.expanded p m r) :=
    Run.charged_ask (fun _ _ => rfl) _
  exact ((s.charged_named p r).trans hseen).trans hasked

theorem charged_addressed (g : GroupMember) : Charged 0 r (s.addressed r g) :=
  Run.charged_ask (fun _ _ => rfl) r

theorem charged_passedOver (outcome : Except Error Bool) : Charged 0 r (passedOver outcome r) := by
  cases outcome with
  | error e => exact Run.charged_count rfl r
  | ok granted => exact .refl r

/-- A visit evaluates one node more than the cache misses; a consultation does not. -/
theorem Cases.charged : s.Cases (fun _ _ r out => Charged 1 r out.2)
    (fun _ _ r out => Charged 0 r out.2) (fun _ _ r out => Charged 0 r out.2) where
  lookUpFails _ := s.charged_looked _ _
  decided _ := s.charged_looked _ _
  noStepLeft _ := s.charged_looked _ _
  memberFails _ _ := s.charged_named _ _
  metBefore _ _ _ := (s.charged_named _ _).trans (Run.charged_count rfl _)
  groupsFail _ _ _ _ := s.charged_expanded _ _ _
  climbed _ _ _ _ _ htried := (s.charged_expanded _ _ _).trans htried
  noGroupLeft := .refl _
  noPrincipal _ _ htried :=
    ((s.charged_addressed _ _).trans (Run.charged_count rfl _)).trans htried
  granted _ _ hconsulted := (s.charged_addressed _ _).trans hconsulted
  refused _ _ hconsulted _ _ htried :=
    (((s.charged_addressed _ _).trans hconsulted).trans (charged_passedOver _ _)).trans htried
  hit _ := (Run.charged_read _ _).trans (Run.charged_count rfl _)
  computed _ _ hvisited :=
    ((Run.charged_read _ _).trans hvisited.of_missed).trans (Run.charged_write _ _ _)
  notComputed _ _ hvisited := (Run.charged_read _ _).trans hvisited.of_missed

theorem run_charged (seen : SeenGroups) : Charged 0 r (s.run seen p r).2 :=
  (Charged.of_eq rfl rfl : Charged 0 r (r.beginSearch (s.scope.key p) seen)).trans
    ((Cases.charged s).cached s.limit p _)

theorem runAnew_charged (seen : SeenGroups) : Charged 1 r (s.runAnew seen p r).2 :=
  (Charged.of_eq rfl rfl : Charged 0 r (r.beginSearch (s.scope.key p) seen)).trans
    ((Cases.charged s).resolve s.limit p _)

end Search

/-! ### How searches end -/

/-- Whether a decision of the key was found in the cache or written. -/
def Event.decides (key : DecisionKey) : Event → Bool
  | read k (some _) _ => decide (k = key)
  | write k _ _ => decide (k = key)
  | _ => false

/-- Whether the latest search ended without a decision of its key. The latest event stands
first. -/
def lastSearchFails (events : List Event) : Bool :=
  match events.dropWhile (!·.isSearch) with
  | .search key _ :: _ => (events.takeWhile (!·.isSearch)).all (!·.decides key)
  | _ => false

/-- The latest search failed, or ended with a decision of its key. -/
def SearchEnds (failed : Bool) (events : List Event) : Prop :=
  ∃ during key clock earlier, events = during ++ .search key clock :: earlier ∧
    (∀ e ∈ during, e.isSearch = false) ∧
    (failed = true ↔ ∀ e ∈ during, e.decides key = false)

theorem SearchEnds.append {failed : Bool} {events : List Event} (h : SearchEnds failed events)
    (earlier : List Event) : SearchEnds failed (events ++ earlier) := by
  obtain ⟨during, key, clock, before, rfl, hduring, hfailed⟩ := h
  exact ⟨during, key, clock, before ++ earlier, List.append_assoc .., hduring, hfailed⟩

namespace Run

variable {key : DecisionKey} {r m r' : Run σ}

/-- No search began from one run to the other. -/
abbrev Quiet (r r' : Run σ) : Prop :=
  Throughout (fun e => e.isSearch = false) r r'

/-- No decision of the key was found or written from one run to the other. -/
abbrev Undecided (key : DecisionKey) (r r' : Run σ) : Prop :=
  Throughout (fun e => e.decides key = false) r r'

/-- One more event. -/
theorem Throughout.single {P : Event → Prop} {e : Event} (hj : r'.journal = e :: r.journal)
    (he : P e) : Throughout P r r' :=
  ⟨[e], hj, by simpa using he⟩

end Run

namespace Search

open Run (Quiet Undecided Throughout)

section stages

variable (s : Search σ) (p : Principal) (m g : GroupMember) (r : Run σ) {P : Event → Prop}
  (hP : ∀ request answer clock, P (.call request answer clock))

include hP

theorem throughout_looked : Throughout P r (s.looked p r) :=
  .single rfl (hP _ _ _)

theorem throughout_named : Throughout P r (s.named p r) :=
  (s.throughout_looked p r hP).trans (.single rfl (hP _ _ _))

theorem throughout_expanded : Throughout P r (s.expanded p m r) :=
  (s.throughout_named p r hP).trans (.single rfl (hP _ _ _))

theorem throughout_addressed : Throughout P r (s.addressed r g) :=
  .single rfl (hP _ _ _)

end stages

theorem missed_throughout (s : Search σ) (p : Principal) {r : Run σ}
    (hmiss : ∀ allowed, ¬ r.Knows (s.scope.key p) allowed) :
    Quiet r (s.missed p r) ∧ Undecided (s.scope.key p) r (s.missed p r) := by
  have hj := s.missed_journal hmiss
  exact ⟨.single hj rfl, .single hj rfl⟩

/-- A visit that fails makes nothing but requests. A consultation ends with a decision of its key
unless it fails. -/
theorem Cases.ends (s : Search σ) :
    s.Cases
      (fun _ _ r out => Quiet r out.2 ∧ (out.1.isOk = false → ∀ key, Undecided key r out.2))
      (fun _ p r out => Quiet r out.2 ∧
        (out.1.isOk = false → Undecided (s.scope.key p) r out.2) ∧
        (out.1.isOk = true → ∃ e ∈ r.since out.2, e.decides (s.scope.key p) = true))
      (fun _ _ r out => Quiet r out.2) where
  lookUpFails _ :=
    ⟨s.throughout_looked _ _ (fun _ _ _ => rfl), fun _ _ =>
      s.throughout_looked _ _ (fun _ _ _ => rfl)⟩
  decided _ := ⟨s.throughout_looked _ _ (fun _ _ _ => rfl), nofun⟩
  noStepLeft _ :=
    ⟨s.throughout_looked _ _ (fun _ _ _ => rfl), fun _ _ =>
      s.throughout_looked _ _ (fun _ _ _ => rfl)⟩
  memberFails _ _ :=
    ⟨s.throughout_named _ _ (fun _ _ _ => rfl), fun _ _ =>
      s.throughout_named _ _ (fun _ _ _ => rfl)⟩
  metBefore _ _ _ := ⟨s.throughout_named _ _ (fun _ _ _ => rfl), nofun⟩
  groupsFail _ _ _ _ :=
    ⟨s.throughout_expanded _ _ _ (fun _ _ _ => rfl), fun _ _ =>
      s.throughout_expanded _ _ _ (fun _ _ _ => rfl)⟩
  climbed _ _ _ _ _ htried :=
    ⟨(s.throughout_expanded _ _ _ (fun _ _ _ => rfl)).trans htried, nofun⟩
  noGroupLeft := .refl _
  noPrincipal _ _ htried := (s.throughout_addressed _ _ (fun _ _ _ => rfl)).trans htried
  granted _ _ hconsulted :=
    (s.throughout_addressed _ _ (fun _ _ _ => rfl)).trans hconsulted.1
  refused {n g gs q r r' outcome out} _ _ hconsulted _ _ htried := by
    have hpassed : Quiet r' (passedOver outcome r') :=
      ⟨[], passedOver_journal r' outcome, by simp⟩
    exact ((s.throughout_addressed _ _ (fun _ _ _ => rfl)).trans hconsulted.1).trans
      (hpassed.trans htried)
  hit {n p r granted} hk := by
    have hj := s.hit_journal hk
    refine ⟨.single hj rfl, nofun, ?_⟩
    rw [Run.since_eq (by rw [hj, List.singleton_append])]
    intro _
    exact ⟨_, List.mem_singleton_self _, decide_eq_true rfl⟩
  computed {n p r granted r'} hmiss _ hvisited := by
    have hbegun := (s.missed_throughout p hmiss).1.trans hvisited.1
    have hj := r'.writeCache_journal (s.scope.key p) granted
    refine ⟨hbegun.trans (.single hj rfl), nofun, ?_⟩
    have hwritten : r'.journal <:+ (r'.writeCache (s.scope.key p) granted).journal := by
      rw [hj]
      exact List.suffix_cons ..
    rw [Run.since_trans hbegun.journal_suffix hwritten,
      Run.since_eq (by rw [hj, List.singleton_append])]
    intro _
    exact ⟨_, List.mem_append_left _ (List.mem_singleton_self _), decide_eq_true rfl⟩
  notComputed {n p r e r'} hmiss _ hvisited :=
    ⟨(s.missed_throughout p hmiss).1.trans hvisited.1,
      fun _ => (s.missed_throughout p hmiss).2.trans (hvisited.2 rfl _), nofun⟩

variable (s : Search σ) (seen : SeenGroups) (p : Principal) (r : Run σ)

/-- What happens in a search comes after its beginning. -/
theorem since_begun {key : DecisionKey} {r' : Run σ} {during : List Event}
    (h : r'.journal = during ++ (r.beginSearch key seen).journal) :
    (r.beginSearch key seen).since r' = during ∧
      r.since r' = during ++ .search key r.clock :: [] := by
  refine ⟨Run.since_eq h, Run.since_eq ?_⟩
  rw [h, List.append_assoc]
  rfl

/-- A search through the cache ends with a decision unless it fails. -/
theorem run_ends : SearchEnds (!(s.run seen p r).1.isOk) (r.since (s.run seen p r).2) := by
  have hends := (Cases.ends s).cached s.limit p (r.beginSearch (s.scope.key p) seen)
  obtain ⟨⟨during, hj, hduring⟩, hfails, hdecides⟩ := hends
  obtain ⟨hafter, hsince⟩ := since_begun seen r hj
  refine ⟨during, s.scope.key p, r.clock, [], hsince, hduring, ?_⟩
  rw [hafter] at hdecides
  cases hok : (s.run seen p r).1.isOk with
  | true =>
      obtain ⟨e, he, hdec⟩ := hdecides hok
      refine iff_of_false nofun fun hno => ?_
      rw [hno e he] at hdec
      cases hdec
  | false =>
      refine iff_of_true rfl fun e he => ?_
      exact (hfails hok).of_mem_since (hafter ▸ he)

end Search

/-! ### Evaluations -/

namespace Policy

open Run (Charged)

variable {policy : Policy} {svc : Service σ} {r r' : Run σ}

theorem charged_of_chain (h : ReflTransGen (Charged 0) r r') : Charged 0 r r' := by
  induction h with
  | refl => exact .refl r
  | tail _ h ih => exact ih.trans h

theorem Resolves.charged (h : Resolves svc r r') : ReflTransGen (Charged 0) r r' := by
  refine ReflTransGen.mono (fun m m' hm => ?_) r r' h
  obtain ⟨request, hdefinition, rfl⟩ := hm
  apply Run.charged_ask
  intro answer clock
  cases request with
  | permissions p owner activity target => cases hdefinition
  | _ => rfl

theorem Attempt.charged {judged : Query → Run σ → Except Error Bool × Run σ → Prop}
    {enabled : Bool} {broaden : Broadening σ} {q : Query} {out : Bool × Run σ}
    (hresolves : ∀ q r, Resolves svc r (broaden q r).2)
    (hjudged : ∀ q r out, judged q r out → Charged 0 r out.2)
    (h : policy.Attempt svc judged enabled broaden q r out) : Charged 0 r out.2 :=
  charged_of_chain
    (h.chain (fun q r => (hresolves q r).charged) fun q r out hj => .single (hjudged q r out hj))

variable (policy svc) in
theorem Cases.charged : policy.Cases svc (fun _ _ r out => Charged 0 r out.2) where
  tooDeep := .refl _
  superUser ha :=
    (ha.charged superUserQuery_resolves fun _ _ _ h => h).trans (Run.charged_count rfl _)
  collective hs _ hc _ :=
    ((hs.charged superUserQuery_resolves fun _ _ _ h => h).trans
      (hc.charged collectiveQuery_resolves fun _ _ _ h => h)).trans (Run.charged_count rfl _)
  searched {depth q r r₁ r₂} hs _ hc _ := by
    have haside : Charged 0 r₂ (r₂.setAside policy.seenCapacity) := .of_eq rfl rfl
    exact (((hs.charged superUserQuery_resolves fun _ _ _ h => h).trans
      (hc.charged collectiveQuery_resolves fun _ _ _ h => h)).trans haside).trans
        ((policy.search svc q).run_charged q.principal _ .empty)

/-- An evaluation fails exactly if its last search does, unless generalizations nest too deep. -/
def Ends (depth : Nat) (r : Run σ) (out : Except Error Bool × Run σ) : Prop :=
  0 < depth ∨ out.1.isOk = true → SearchEnds (!out.1.isOk) (r.since out.2)

/-- A yes from a broader query is that of its last search. -/
theorem Attempt.ends {depth : Nat} {enabled : Bool} {broaden : Broadening σ} {q : Query}
    (hasks : ∀ q r, Asks svc r (broaden q r).2)
    (h : policy.Attempt svc (fun _ => Ends depth) enabled broaden q r (true, r')) :
    SearchEnds false (r.since r') := by
  generalize hout : (true, r') = out at h
  cases h with
  | disabled _ => cases hout
  | nothing _ _ => cases hout
  | @judged broader r₁ out he hb hm hj =>
      obtain ⟨hyes, rfl⟩ : out.1 = .ok true ∧ r' = out.2 := by
        constructor
        · exact contained_fst_eq_true_iff.mp (congrArg Prod.fst hout).symm
        · rw [← contained_snd, ← hout]
      have hmoves : policy.Moves svc r (broaden q r).2 := (hasks q r).moves
      rw [hb] at hmoves
      rw [Run.since_trans hmoves.passes.journal hm.passes.journal]
      have hends : SearchEnds (!out.1.isOk) (r₁.since out.2) := hj (.inr (by rw [hyes]; rfl))
      rw [hyes] at hends
      exact hends.append _

theorem Cases.ends : policy.Cases svc (fun depth _ => Ends depth) where
  tooDeep {q r} h := by
    rcases h with h | h
    · cases h
    · cases h
  superUser {depth q r r'} ha _ := by
    have hends : SearchEnds false (r.since r') := ha.ends superUserQuery_asks
    exact hends
  collective {depth q r r₁ r₂} _ hm₁ hc hm₂ _ := by
    have hends := hc.ends collectiveQuery_asks
    show SearchEnds false (r.since r₂)
    rw [Run.since_trans hm₁.passes.journal hm₂.passes.journal]
    exact hends.append _
  searched {depth q r r₁ r₂} _ hm₁ _ hm₂ _ := by
    have hends :=
      (policy.search svc q).run_ends .empty q.principal (r₂.setAside policy.seenCapacity)
    have hreach := (policy.search svc q).run_reaches .empty q.principal
      (r₂.setAside policy.seenCapacity)
    have hbefore : r.journal <:+ (r₂.setAside policy.seenCapacity).journal :=
      hm₁.passes.journal.trans hm₂.passes.journal
    rw [Run.since_trans hbefore hreach.journal_suffix]
    exact hends.append _

end Policy

/-! ### Entries -/

/-- What became of a query, or of a decision loaded ahead of queries. -/
inductive Entry where
  /-- A query with a part missing got this answer. -/
  | incomplete (granted : Bool)
  /-- A query with all its parts got this answer, and its last search failed or did not. -/
  | answered (granted failed : Bool)
  /-- A query by names that could not be looked up got this answer. -/
  | unresolved (granted : Bool)
  /-- A decision was evaluated anew, and its search failed or did not. -/
  | loaded (failed : Bool)
deriving DecidableEq, Repr

namespace Entry

def isIncomplete : Entry → Bool
  | incomplete _ => true
  | _ => false

def isGrant : Entry → Bool
  | answered granted _ => granted
  | _ => false

def isDenial : Entry → Bool
  | answered granted _ => !granted
  | _ => false

/-- A query with all its parts whose last search failed. -/
def isFailure : Entry → Bool
  | answered _ failed => failed
  | _ => false

def isUnresolved : Entry → Bool
  | unresolved _ => true
  | _ => false

def isLoad : Entry → Bool
  | loaded _ => true
  | _ => false

/-- A decision that was evaluated anew without failing. -/
def isPrewarm : Entry → Bool
  | loaded failed => !failed
  | _ => false

/-- What has a part missing, does not resolve or fails is answered no. -/
def isSafe : Entry → Bool
  | incomplete granted => !granted
  | answered granted failed => !failed || !granted
  | unresolved granted => !granted
  | loaded _ => true

end Entry

namespace Run

/-- From one run to the other the counters moved by these entries. -/
structure Accounts (entries : List Entry) (r r' : Run σ) : Prop where
  invalidArguments : r'.counters.invalidArguments =
    r.counters.invalidArguments + entries.countP (·.isIncomplete)
  grants : r'.counters.grants = r.counters.grants + entries.countP (·.isGrant)
  denials : r'.counters.denials = r.counters.denials + entries.countP (·.isDenial)
  topLevelFailures : r'.counters.topLevelFailures = r.counters.topLevelFailures +
    entries.countP (·.isUnresolved) + entries.countP (·.isFailure)
  prewarms : r'.counters.cachePrewarms = r.counters.cachePrewarms + entries.countP (·.isPrewarm)
  lookUps : r'.counters.nodesEvaluated + r.lookUps = r.counters.nodesEvaluated + r'.lookUps
  misses : r'.counters.nodesEvaluated + r.counters.cacheMisses =
    r.counters.nodesEvaluated + r'.counters.cacheMisses + entries.countP (·.isLoad)
  safe : ∀ e ∈ entries, e.isSafe = true

variable {r m r' : Run σ} {entries entries' : List Entry}

theorem Accounts.trans (h : Accounts entries r m) (h' : Accounts entries' m r') :
    Accounts (entries ++ entries') r r' where
  invalidArguments := by
    rw [h'.invalidArguments, h.invalidArguments, List.countP_append, Nat.add_assoc]
  grants := by rw [h'.grants, h.grants, List.countP_append, Nat.add_assoc]
  denials := by rw [h'.denials, h.denials, List.countP_append, Nat.add_assoc]
  topLevelFailures := by
    have := h.topLevelFailures
    have := h'.topLevelFailures
    rw [List.countP_append, List.countP_append]
    omega
  prewarms := by rw [h'.prewarms, h.prewarms, List.countP_append, Nat.add_assoc]
  lookUps := by
    have := h.lookUps
    have := h'.lookUps
    omega
  misses := by
    have := h.misses
    have := h'.misses
    rw [List.countP_append]
    omega
  safe e he := (List.mem_append.mp he).elim (h.safe e) (h'.safe e)

end Run

/-! ### The entries of the policy's operations -/

namespace Policy

open Run (Accounts Charged)

variable (policy : Policy) (svc : Service σ)

/-- What becomes of a query with all its parts. -/
def queryEntry (q : Query) (r : Run σ) : Entry :=
  let out := policy.hasPermission svc q r
  .answered out.1 (lastSearchFails (r.since out.2))

/-- What becomes of a query. -/
def checkEntry (query : PartialQuery) (r : Run σ) : Entry :=
  match query.complete? with
  | none => .incomplete (policy.check svc query r).1
  | some q => policy.queryEntry svc q r

/-- What becomes of one query for several targets. -/
def batchEntries (principal : Principal) (owner : Owner) (activity : Activity) :
    List Target → Run σ → List Entry
  | [], _ => []
  | target :: targets, r =>
    let q : Query := ⟨principal, owner, activity, some target⟩
    policy.queryEntry svc q r ::
      batchEntries principal owner activity targets (policy.hasPermission svc q r).2

/-- What becomes of a query by names. -/
def nameEntry (principal : Principal) (owner activity : String) (target : Option String)
    (r : Run σ) : Entry :=
  match resolveNames svc owner activity target r with
  | (.error _, _) => .unresolved (policy.checkByName svc principal owner activity target r).1
  | (.ok (o, a, t), r) => policy.queryEntry svc ⟨principal, o, a, t⟩ r

/-- What becomes of a decision evaluated ahead of queries. -/
def loadEntry (q : Query) (r : Run σ) : Entry :=
  .loaded (lastSearchFails (r.since (policy.loadInCache svc q r).2))

/-- What becomes of the decisions of a registry in a pass over it. -/
def passEntries : Registry → Run σ → List Entry
  | [], _ => []
  | q :: qs, r => policy.loadEntry svc q r :: passEntries qs (policy.loadInCache svc q r).2

end Policy

/-! ### Sessions -/

namespace Session

open Run (Accounts Charged)

/-- What becomes of the queries and loads of a step. -/
def entries (s : Session σ) : Step σ → List Entry
  | .check query => [s.policy.checkEntry s.service query s.run]
  | .evaluateBatch principal owner activity targets =>
    s.policy.batchEntries s.service principal owner activity targets s.run
  | .checkByName principal owner activity target =>
    [s.policy.nameEntry s.service principal owner activity target s.run]
  | .loadInCache query => [s.policy.loadEntry s.service query s.run]
  | .refresh => s.policy.passEntries s.service s.registry s.run
  | _ => []

end Session

end GrantPath
