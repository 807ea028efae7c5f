import GrantPath.Proofs.Targets

/-! # Repeated queries agree within a time to live

In a cache without a bound that was empty at first, nothing is forgotten within a time to live. So
what a search finds out is still known at the end of a session that is shorter than that, and all
searches of the session have said what the cache at the end knows, whatever was written in between
for other principals.

* A search that fails leaves nothing. But a principal whose search fails is `Answers.Hopeless`, and
  no yes is ever written for it (`Search.SteadyCases.hopeless`).
* What a search answers is held beyond the end (`Run.Outlasts`, `Search.run_outlasts`).
* So a search says yes exactly if the cache at the end knows a yes (`Policy.told_by_end`), and
  every query of the session is answered accordingly (`Session.answered_iff`): two occurrences of
  a query are answered alike (`Session.repeated_queries_agree`). -/

namespace GrantPath

open Relation

variable {σ : Type} {a : Answers} {now : Instant}

/-! ### Principals whose search fails -/

namespace Answers

section definitions

variable (a : Answers) (now : Instant) (limit : Nat)

/-- A search from the principal fails: its records cannot be looked up, or none of them is in force
and its groups are out of reach. -/
def Hopeless (s : Scope) (p : Principal) : Prop :=
  (∃ e, a.verdict s now p = .error e) ∨
    a.verdict s now p = .ok none ∧ (limit = 0 ∨ (∃ e, a (.groupMember p) = .error e) ∨
      ∃ m e, a (.groupMember p) = .ok m ∧ a (.parentGroups m) = .error e)

/-- The key is one of a principal whose search does not fail. -/
def Hopeful (key : DecisionKey) : Prop :=
  ∃ s p, key = Scope.key s p ∧ ¬ a.Hopeless now limit s p

end definitions

variable {s : Scope} {p : Principal} {m : GroupMember} {limit : Nat}

theorem not_hopeless_of_some {granted : Bool} (h : a.verdict s now p = .ok (some granted)) :
    ¬ a.Hopeless now limit s p := by
  simp [Hopeless, h]

theorem not_hopeless_of_groups {groups : List GroupMember} (hlimit : 0 < limit)
    (hm : a (.groupMember p) = .ok m) (hg : a (.parentGroups m) = .ok groups)
    (h : a.verdict s now p = .ok none) : ¬ a.Hopeless now limit s p := by
  rintro (⟨e, he⟩ | ⟨-, hzero | ⟨e, he⟩ | ⟨m', e, hm', he⟩⟩)
  · rw [h] at he
    cases he
  · omega
  · rw [hm] at he
    cases he
  · rw [hm] at hm'
    cases hm'
    rw [hg] at he
    cases he

theorem Keyed.hopeful_iff (hk : a.Keyed) (s : Scope) (p : Principal) :
    a.Hopeful now limit (s.key p) ↔ ¬ a.Hopeless now limit s p := by
  refine Search.exists_key_iff (P := fun s p => ¬ a.Hopeless now limit s p) ?_ s p
  intro s s' p halike
  simp only [Hopeless, Keyed.verdict_eq hk halike, imp_self]

end Answers

namespace Search

variable {s : Search σ} {st : σ} {p : Principal} {r : Run σ}

/-- A search that fails with all steps left has a hopeless principal. -/
theorem SteadyCases.fails {limit : Nat} :
    s.SteadyCases a now
      (fun n p _ out => n = limit → ∀ e, out.1 = .error e → a.Hopeless now limit s.scope p)
      (fun n p _ out => n = limit → ∀ e, out.1 = .error e → a.Hopeless now limit s.scope p)
      (fun _ _ _ _ => True) where
  lookUpFails hv _ _ _ := .inl ⟨_, hv⟩
  decided _ _ _ := by simp
  noStepLeft hv hn _ _ := .inr ⟨hv, .inl hn.symm⟩
  memberFails hv hm _ _ _ := .inr ⟨hv, .inr (.inl ⟨_, hm⟩)⟩
  metBefore _ _ _ _ _ := by simp
  groupsFail hv hm _ hg _ _ _ := .inr ⟨hv, .inr (.inr ⟨_, _, hm, hg⟩)⟩
  climbed _ _ _ _ _ _ _ _ := by simp
  noGroupLeft := True.intro
  noPrincipal _ _ _ := True.intro
  granted _ _ _ := True.intro
  refused _ _ _ _ _ _ := True.intro
  hit _ _ _ := by simp
  computed _ _ _ _ _ := by simp
  notComputed _ _ hv := hv

/-- A search for a hopeless principal does not say yes and writes no yes for it. -/
theorem SteadyCases.hopeful {limit : Nat} {Q : DecisionKey → Prop}
    (hQ : ∀ p, Q (s.scope.key p) ↔ ¬ a.Hopeless now limit s.scope p) :
    s.SteadyCases a now
      (fun n p r out => n ≤ limit → r.Upholds (OnYes Q) → out.2.Upholds (OnYes Q) ∧
        (out.1 = .ok true → ¬ a.Hopeless now limit s.scope p))
      (fun n _ r out => n ≤ limit → r.Upholds (OnYes Q) → out.2.Upholds (OnYes Q))
      (fun n _ r out => n < limit → r.Upholds (OnYes Q) → out.2.Upholds (OnYes Q)) where
  lookUpFails _ _ hr := ⟨upholds_looked hr, by simp⟩
  decided hv _ hr := ⟨upholds_looked hr, fun _ => Answers.not_hopeless_of_some hv⟩
  noStepLeft _ _ hr := ⟨upholds_looked hr, by simp⟩
  memberFails _ _ _ hr := ⟨upholds_named hr, by simp⟩
  metBefore _ _ _ _ hr := ⟨(upholds_named hr).count _, by simp⟩
  groupsFail _ _ _ _ _ hr := ⟨upholds_expanded hr, by simp⟩
  climbed {n p r m groups out} hv hm _ hg _ htried hn hr := by
    have hlimit : 0 < limit := by omega
    refine ⟨htried hn (upholds_expanded hr), ?_⟩
    intro _
    exact Answers.not_hopeless_of_groups hlimit hm hg hv
  noGroupLeft _ hr := hr
  noPrincipal _ _ htried hn hr := htried hn ((upholds_addressed hr).count _)
  granted _ _ hcons hn hr := hcons (Nat.le_of_lt hn) (upholds_addressed hr)
  refused _ _ hcons _ _ htried hn hr :=
    htried hn (upholds_passedOver (hcons (Nat.le_of_lt hn) (upholds_addressed hr)) _)
  hit _ _ hr := (hr.readCache _).count _
  computed {n p r granted r'} _ _ hv hn hr := by
    obtain ⟨hout, hyes⟩ := hv hn (upholds_missed hr)
    apply hout.writeCache
    rintro rfl
    rw [hQ p]
    exact hyes rfl
  notComputed _ _ hv hn hr := (hv hn (upholds_missed hr)).1

section steady

variable (hs : s.service.Settled st a) (ht : Run.Steady st a now r (s.run .empty p r).2)

include hs ht

theorem hopeless_of_error {e : Error} (he : (s.run .empty p r).1 = .error e) :
    a.Hopeless now s.limit s.scope p :=
  SteadyCases.fails.run hs ht rfl e he

theorem run_hopeful (hk : a.Keyed) (hr : r.Upholds (OnYes (a.Hopeful now s.limit))) :
    (s.run .empty p r).2.Upholds (OnYes (a.Hopeful now s.limit)) :=
  (SteadyCases.hopeful (hk.hopeful_iff s.scope)).run hs ht (Nat.le_refl _) hr

end steady

end Search

/-! ### Decisions that outlast a deadline -/

namespace Run

variable {svc : Service σ} {r r' : Run σ} {deadline : Nat}

/-- The cache has no bound, and what is held and what will be written expires at the deadline or
later. -/
structure Outlasts (deadline : Nat) (r : Run σ) : Prop where
  unbounded : r.cache.Unbounded
  stored : ∀ key d, r.cache.find? key = some d → deadline ≤ d.expiresAt
  written : ∃ ttl, r.cache.ttl? = some ttl ∧ deadline ≤ r.clock.elapsed + ttl

/-- Whatever will be written into an empty cache without a bound expires a time to live from now or
later. -/
theorem Outlasts.of_size_eq_zero {store : Store} (hcache : r.cache = .timed store)
    (hunbounded : store.capacity = 0) (hempty : r.cache.size = 0) :
    Outlasts (r.clock.elapsed + store.ttl) r where
  unbounded := by rwa [hcache]
  stored key d hd := by
    rw [Cache.find?_eq_none_of_size_eq_zero hempty key] at hd
    cases hd
  written := ⟨store.ttl, by rw [hcache]; rfl, Nat.le_refl _⟩

theorem Outlasts.of_within (h : Outlasts deadline r) (hu : r'.cache.Unbounded)
    (hc : r'.cache.Within r.cache) (ht : r.clock.elapsed ≤ r'.clock.elapsed) :
    Outlasts deadline r' where
  unbounded := hu
  stored key d hd := by
    obtain ⟨d₀, hd₀, -, he⟩ := hc.2 key d hd
    rw [← he]
    exact h.stored key d₀ hd₀
  written := by
    obtain ⟨ttl, httl, hle⟩ := h.written
    exact ⟨ttl, hc.1.trans httl, by omega⟩

theorem Outlasts.of_cache_eq (h : Outlasts deadline r) (hc : r'.cache = r.cache)
    (ht : r.clock.elapsed ≤ r'.clock.elapsed) : Outlasts deadline r' := by
  apply h.of_within _ _ ht
  · rw [hc]
    exact h.unbounded
  · rw [hc]
    exact .refl _

theorem Outlasts.writeCache (h : Outlasts deadline r) (key : DecisionKey) (allowed : Bool) :
    Outlasts deadline (r.writeCache key allowed) where
  unbounded := by
    rw [writeCache_cache]
    exact h.unbounded.written key allowed _
  stored k d hd := by
    rcases find?_writeCache hd with ⟨-, -, he⟩ | ⟨-, d₀, hd₀, -, he⟩
    · obtain ⟨ttl, httl, hle⟩ := h.written
      rw [he, Cache.ttl, httl]
      exact hle
    · rw [← he]
      exact h.stored k d₀ hd₀
  written := by
    rw [writeCache_ttl?, writeCache_clock]
    exact h.written

theorem Outlasts.act (h : Outlasts deadline r) (ha : Act svc r r') : Outlasts deadline r' := by
  have hle := ha.elapsed_le
  cases ha with
  | read key r =>
      apply h.of_within _ _ hle
      · rw [readCache_cache]
        exact h.unbounded.get key _
      · rw [readCache_cache]
        exact r.cache.get_within key _
  | write key allowed r => exact h.writeCache key allowed
  | ask q r => exact h.of_cache_eq rfl hle
  | count o r => exact h.of_cache_eq rfl hle
  | see m r => exact h.of_cache_eq rfl hle
  | beginSearch key seen r => exact h.of_cache_eq rfl hle

theorem Outlasts.reaches (h : Outlasts deadline r) (hr : Reaches svc r r') :
    Outlasts deadline r' := by
  induction hr with
  | refl => exact h
  | tail _ ha ih => exact ih.act ha

end Run

namespace Search

variable {s : Search σ} {p : Principal} {r : Run σ} {deadline : Nat} {allowed : Bool}

/-- What a search answers is held until the deadline or longer. -/
theorem run_outlasts (h : r.Outlasts deadline)
    (hlive : (s.run .empty p r).2.clock.elapsed < deadline)
    (hout : (s.run .empty p r).1 = .ok allowed) :
    ∃ expiry, deadline ≤ expiry ∧
      (s.run .empty p r).2.cache.Holds (s.scope.key p) allowed expiry := by
  by_cases hknown : ∃ found, r.Knows (s.scope.key p) found
  · obtain ⟨found, hk⟩ := hknown
    obtain rfl : found = allowed := by
      rw [run_of_knows .empty hk] at hout
      exact Except.ok.inj hout
    obtain ⟨d, hd, ha, -⟩ := Run.knows_iff.mp hk
    have hle := h.stored _ d hd
    have hlasting := s.run_lasting .empty p h.unbounded
    exact ⟨d.expiresAt, hle, hlasting.holds _ _ _ ⟨d, hd, ha, rfl⟩ (by omega)⟩
  · obtain ⟨ttl, httl, hle⟩ := h.written
    have helapsed := (s.run_reaches .empty p r).elapsed_le
    exact ⟨_, by omega, run_holds .empty (not_exists.mp hknown) httl hout⟩

end Search

/-! ### Queries -/

namespace Policy

open Run (Lasting)

variable {policy : Policy} {svc : Service σ} {st : σ} {r m r' final : Run σ} {q : Query}
  {deadline : Nat}

theorem QueryMove.outlasts (h : policy.QueryMove svc r r') (hr : r.Outlasts deadline) :
    r'.Outlasts deadline := by
  rcases h.move.reaches with hreach | ⟨capacity, rfl⟩
  · exact hr.reaches hreach
  · exact hr.of_cache_eq rfl (Nat.le_refl _)

theorem QueryMoves.outlasts (h : policy.QueryMoves svc r r') (hr : r.Outlasts deadline) :
    r'.Outlasts deadline := by
  induction h with
  | refl => exact hr
  | tail _ h ih => exact h.outlasts ih

theorem QueryMove.hopeful (hs : svc.Settled st a) (hk : a.Keyed) (h : policy.QueryMove svc r r')
    (ht : Run.Steady st a now r r') (hr : r.Upholds (OnYes (a.Hopeful now policy.maxDepth))) :
    r'.Upholds (OnYes (a.Hopeful now policy.maxDepth)) := by
  have helapsed := h.move.passes.elapsed
  cases h with
  | ask q r => exact hr.of_within (.refl _) helapsed
  | count o r => exact hr
  | setAside capacity r => exact hr
  | search q r => exact Search.run_hopeful (s := policy.search svc q) hs ht hk hr

theorem QueryMoves.hopeful (hs : svc.Settled st a) (hk : a.Keyed)
    (h : policy.QueryMoves svc r r') (ht : Run.Steady st a now r r')
    (hr : r.Upholds (OnYes (a.Hopeful now policy.maxDepth))) :
    r'.Upholds (OnYes (a.Hopeful now policy.maxDepth)) := by
  induction h with
  | refl => exact hr
  | tail hm h ih =>
      obtain ⟨hl, hlast⟩ := Moves.split hs (QueryMoves.moves hm) (.single h.move) ht
      exact h.hopeful hs hk hlast (ih hl)

/-- Things are steady from the first run to the second, what is held there is still held at the
end unless it is expired by then, and nothing that is held before expires before the deadline. -/
structure Leads (st : σ) (a : Answers) (now : Instant) (deadline : Nat) (final r r' : Run σ) :
    Prop where
  steady : Run.Steady st a now r r'
  outlasts : r.Outlasts deadline
  lasting : Lasting r' final

theorem Leads.split (hs : svc.Settled st a) (h : Leads st a now deadline final r r')
    (h₁ : policy.QueryMoves svc r m) (h₂ : policy.QueryMoves svc m r') :
    Leads st a now deadline final r m ∧ Leads st a now deadline final m r' := by
  obtain ⟨hl, hr⟩ := Moves.split hs (QueryMoves.moves h₁) (QueryMoves.moves h₂) h.steady
  have hm := h₁.outlasts h.outlasts
  exact ⟨⟨hl, h.outlasts, (h₂.lasting hm.unbounded).trans h.lasting⟩, ⟨hr, hm, h.lasting⟩⟩

/-- On the way to an end before the deadline every search says yes exactly if the cache at the end
knows a yes. -/
theorem told_by_end (hs : svc.Settled st a) (hk : a.Keyed)
    (hend : final.clock.elapsed < deadline)
    (hfinal : final.Upholds (OnYes (a.Hopeful now policy.maxDepth))) (p : Principal) :
    policy.Told svc st p (Leads st a now deadline final) (fun _ => True) (fun _ => True)
      fun q => final.Knows q.key true where
  state hd := hd.steady.1
  split hd h₁ h₂ := hd.split hs h₁ h₂
  asks _ _ := True.intro
  setAside _ _ := True.intro
  count _ _ := True.intro
  search {q r} _ hd _ := by
    have hout : ((policy.search svc q).run .empty q.principal r).1 = .ok true ↔
        final.Knows q.key true := by
      have hlast := hd.lasting
      have helapsed := hlast.elapsed
      rcases hout : ((policy.search svc q).run .empty q.principal r).1 with e | allowed
      · have hhopeless := Search.hopeless_of_error (s := policy.search svc q) hs hd.steady hout
        simp only [reduceCtorEq, false_iff]
        intro hknows
        exact (hk.hopeful_iff q.scope q.principal).mp (hfinal _ _ hknows rfl) hhopeless
      · obtain ⟨expiry, hle, hheld⟩ :=
          Search.run_outlasts (s := policy.search svc q) hd.outlasts (by omega) hout
        have hknown : final.Knows q.key allowed := hlast.knows hheld (by omega)
        constructor
        · intro hyes
          rwa [← Except.ok.inj hyes]
        · intro hyes
          rw [hknown.unique hyes]
    exact ⟨hout, fun _ => True.intro, fun _ => True.intro⟩

end Policy

/-! ### Questions and their answers -/

/-- What a session can be asked: a query of which parts may be missing, or a query by name. -/
inductive Question where
  | asked (q : PartialQuery)
  | named (principal : Principal) (owner activity : String) (target : Option String)
deriving DecidableEq, Repr

/-- The query that names stand for, if they can be looked up. -/
def Answers.namedQuery (a : Answers) (principal : Principal) (owner activity : String)
    (target : Option String) : Option Query :=
  match a (.resolveOwner owner), a (.resolveActivity owner activity) with
  | .ok (some o), .ok (some act) =>
    match target with
    | none => some ⟨principal, o, act, none⟩
    | some key =>
      match a (.resolveTarget act.targetProvider key) with
      | .error _ => none
      | .ok found => some ⟨principal, o, act, some (found.getD ⟨key, key, .other⟩)⟩
  | _, _ => none

/-- The query that is meant by a question, unless something that it needs is missing. -/
def Answers.meant (a : Answers) : Question → Option Query
  | .asked q => q.complete?
  | .named principal owner activity target => a.namedQuery principal owner activity target

/-- The questions that a step asks, in order. -/
def Step.questions : Step σ → List Question
  | .check q => [.asked q]
  | .evaluateBatch principal owner activity targets =>
    targets.map fun target => .asked ⟨true, some principal, some owner, some activity, some target⟩
  | .checkByName principal owner activity target => [.named principal owner activity target]
  | _ => []

/-- The answers in a report, in order. -/
def Report.answers : Report → List Bool
  | .granted allowed => [allowed]
  | .batch allowed => allowed
  | _ => []

/-- The questions that steps ask, with the answers that they report. -/
def Session.answered (s : Session σ) : List (Step σ) → List (Question × Bool)
  | [] => []
  | step :: steps =>
    (match (s.step step).1 with
      | .ok report => step.questions.zip report.answers
      | .error _ => []) ++ (s.step step).2.answered steps

namespace Policy

variable {policy : Policy} {svc : Service σ} {st : σ} {r : Run σ}

theorem resolveNames_fst (hs : svc.Settled st a) (hst : r.state = st) (principal : Principal)
    (owner activity : String) (target : Option String) :
    (resolveNames svc owner activity target r).1.toOption.map
      (fun names => (⟨principal, names.1, names.2.1, names.2.2⟩ : Query)) =
        a.namedQuery principal owner activity target := by
  obtain ⟨r₁, h₁, hst₁⟩ := hs.ask hst (.resolveOwner owner)
  unfold resolveNames Answers.namedQuery
  simp only [h₁]
  rcases a (.resolveOwner owner) with _ | _ | o
  · rfl
  · rfl
  obtain ⟨r₂, h₂, hst₂⟩ := hs.ask hst₁ (.resolveActivity owner activity)
  simp only [h₂]
  rcases a (.resolveActivity owner activity) with _ | _ | act
  · rfl
  · rfl
  unfold resolveTargetName
  cases target with
  | none => rfl
  | some key =>
      obtain ⟨r₃, h₃, -⟩ := hs.ask hst₂ (.resolveTarget act.targetProvider key)
      simp only [h₃]
      rcases a (.resolveTarget act.targetProvider key) with _ | found <;> rfl

section told

variable {During : Run σ → Run σ → Prop} {yes : Query → Prop} (hs : svc.Settled st a)
  (htold : ∀ p, policy.Told svc st p During (fun _ => True) (fun _ => True) yes)

include hs htold

theorem check_iff {q : PartialQuery} (hd : During r (policy.check svc q r).2) :
    (policy.check svc q r).1 = true ↔
      ∃ q', q.complete? = some q' ∧ policy.Grants a yes generalizationDepth q' := by
  unfold check at hd ⊢
  cases hq : q.complete? with
  | none => simp
  | some q' =>
      rw [hq] at hd
      simp only [Option.some.injEq, exists_eq_left']
      exact (htold q'.principal).hasPermission_iff hs rfl hd True.intro

theorem checkByName_iff {principal : Principal} {owner activity : String}
    {target : Option String}
    (hd : During r (policy.checkByName svc principal owner activity target r).2) :
    (policy.checkByName svc principal owner activity target r).1 = true ↔
      ∃ q, a.namedQuery principal owner activity target = some q ∧
        policy.Grants a yes generalizationDepth q := by
  have hnames := resolveNames_fst hs ((htold principal).state hd) principal owner activity target
  have hmoves : policy.QueryMoves svc r (resolveNames svc owner activity target r).2 :=
    (resolveNames_asks owner activity target r).queryMoves
  unfold checkByName at hd ⊢
  rcases hout : resolveNames svc owner activity target r with ⟨_ | ⟨o, act, t⟩, r₁⟩
  · rw [hout] at hnames
    simp [← hnames, Except.toOption]
  · rw [hout] at hnames hmoves
    rw [hout] at hd
    obtain ⟨-, hlast⟩ := (htold principal).split hd hmoves (hasPermission_queryMoves _ r₁)
    have hq : a.namedQuery principal owner activity target = some ⟨principal, o, act, t⟩ :=
      hnames.symm
    simp only [hq, Option.some.injEq, exists_eq_left']
    exact (htold principal).hasPermission_iff hs rfl hlast True.intro

end told

end Policy

/-! ### Sessions -/

namespace Session

variable {st : σ} {s : Session σ} {deadline : Nat}

/-- The questions of a step are answered as the searches are told. -/
theorem step_answered {During : Run σ → Run σ → Prop} {yes : Query → Prop}
    (hs : s.service.Settled st a)
    (htold : ∀ p, s.policy.Told s.service st p During (fun _ => True) (fun _ => True) yes)
    {step : Step σ} (hd : During s.run (s.step step).2.run) {report : Report}
    (hreport : (s.step step).1 = .ok report) {x : Question} {b : Bool}
    (hx : (x, b) ∈ step.questions.zip report.answers) :
    b = true ↔ ∃ q, a.meant x = some q ∧ s.policy.Grants a yes generalizationDepth q := by
  cases step with
  | check q =>
      cases hreport
      obtain ⟨rfl, rfl⟩ : x = .asked q ∧ b = (s.policy.check s.service q s.run).1 := by
        simpa [Step.questions, Report.answers] using hx
      exact Policy.check_iff hs htold hd
  | evaluateBatch principal owner activity targets =>
      cases hreport
      obtain ⟨hanswers, -⟩ :=
        (htold principal).evaluateBatch hs owner activity targets s.run hd True.intro
      rw [Step.questions, List.zip_map_left, List.mem_map] at hx
      obtain ⟨⟨target, granted⟩, hmem, heq⟩ := hx
      cases heq
      have hiff := (List.forall₂_iff_zip.mp hanswers).2 hmem
      show granted = true ↔ _
      rw [hiff]
      simp [Answers.meant, PartialQuery.complete?]
  | checkByName principal owner activity target =>
      cases hreport
      obtain ⟨rfl, rfl⟩ : x = .named principal owner activity target ∧
          b = (s.policy.checkByName s.service principal owner activity target s.run).1 := by
        simpa [Step.questions, Report.answers] using hx
      exact Policy.checkByName_iff hs htold hd
  | _ => cases hx

/-- What holds of every step that makes queries and lets collaborators be: it does parts of
queries, or idles. -/
theorem step_queries_of_ordinary {step : Step σ}
    (hstep : step.isQuerying = true ∧ step.isOrdinary = true) :
    s.policy.QueryParts s.service s.run (s.step step).2.run ∨
      s.run.Idles (s.step step).2.run := by
  rcases step_queries hstep.1 with hparts | ⟨m, rfl⟩ | hidles
  · exact .inl hparts
  · exact absurd hstep.2 (by simp [Step.isOrdinary])
  · exact .inr hidles

theorem step_outlasts {step : Step σ}
    (hstep : step.isQuerying = true ∧ step.isOrdinary = true) (ho : s.run.Outlasts deadline) :
    (s.step step).2.run.Outlasts deadline := by
  rcases step_queries_of_ordinary hstep with hparts | hidles
  · exact hparts.queryMoves.outlasts ho
  · exact ho.of_cache_eq hidles.cache hidles.elapsed

section steps

variable (hs : s.service.Settled st a) {steps : List (Step σ)}
  (hsteps : ∀ step ∈ steps, step.isQuerying = true ∧ step.isOrdinary = true)

include hs hsteps

theorem steps_hopeful (hk : a.Keyed) (ht : Run.Steady st a now s.run (s.steps steps).run)
    (hr : s.run.Upholds (OnYes (a.Hopeful now s.policy.maxDepth))) :
    (s.steps steps).run.Upholds (OnYes (a.Hopeful now s.policy.maxDepth)) := by
  induction steps generalizing s with
  | nil => exact hr
  | cons step steps ih =>
      obtain ⟨hstep, hrest⟩ := List.forall_mem_cons.mp hsteps
      obtain ⟨hl, hlast⟩ := ht.split_of (s.step_passes step)
        ((s.step_happens step).state_eq hs hstep.2 ht.1) ((s.step step).2.steps_passes steps)
      have hs' : (s.step step).2.service.Settled st a := by rwa [step_service]
      have hfirst : (s.step step).2.run.Upholds (OnYes (a.Hopeful now s.policy.maxDepth)) := by
        rcases step_queries_of_ordinary hstep with hparts | hidles
        · exact hparts.queryMoves.hopeful hs hk hl hr
        · have hc : (s.step step).2.run.cache.Within s.run.cache := by
            rw [hidles.cache]
            exact .refl _
          exact hr.of_within hc hidles.elapsed
      rw [← s.step_policy step] at hfirst ⊢
      exact ih hs' hrest hlast hfirst

/-- In a session that ends before the deadline, and before which nothing expires, every question is
answered as the cache at the end tells. -/
theorem answered_iff (hk : a.Keyed) (ht : Run.Steady st a now s.run (s.steps steps).run)
    (ho : s.run.Outlasts deadline) (hend : (s.steps steps).run.clock.elapsed < deadline)
    (hfinal : (s.steps steps).run.Upholds (OnYes (a.Hopeful now s.policy.maxDepth)))
    {x : Question} {b : Bool} (hx : (x, b) ∈ s.answered steps) :
    b = true ↔ ∃ q, a.meant x = some q ∧
      s.policy.Grants a (fun q => (s.steps steps).run.Knows q.key true) generalizationDepth q := by
  induction steps generalizing s with
  | nil => cases hx
  | cons step steps ih =>
      obtain ⟨hstep, hrest⟩ := List.forall_mem_cons.mp hsteps
      have hs' : (s.step step).2.service.Settled st a := by rwa [step_service]
      obtain ⟨hl, hlast⟩ := ht.split_of (s.step_passes step)
        ((s.step_happens step).state_eq hs hstep.2 ht.1) ((s.step step).2.steps_passes steps)
      have ho' := step_outlasts hstep ho
      rw [answered, List.mem_append] at hx
      rcases hx with hx | hx
      · have hquerying : ∀ step ∈ steps, step.isQuerying = true := fun step h => (hrest step h).1
        have hlead : Policy.Leads st a now deadline (s.steps (step :: steps)).run s.run
            (s.step step).2.run :=
          ⟨hl, ho, steps_lasting hquerying ho'.unbounded⟩
        cases hreport : (s.step step).1 with
        | error e =>
            rw [hreport] at hx
            cases hx
        | ok report =>
            rw [hreport] at hx
            exact step_answered hs (Policy.told_by_end hs hk hend hfinal) hlead hreport hx
      · rw [← s.step_policy step] at hfinal ⊢
        exact ih hs' hrest hlast ho' hend hfinal hx

end steps

/-- A session whose queries have targets gets the same answers with a service that answers only
lookups without a target differently. -/
theorem answered_congr {svc : Service σ} (h : s.service.Agrees svc) {steps : List (Step σ)}
    (hq : ∀ step ∈ steps, step.isQuerying = true ∧ step.isOrdinary = true)
    (ht : ∀ step ∈ steps, step.isTargeted = true) :
    { s with service := svc }.answered steps = s.answered steps := by
  induction steps generalizing s with
  | nil => rfl
  | cons step steps ih =>
      obtain ⟨hq, hqs⟩ := List.forall_mem_cons.mp hq
      obtain ⟨ht, hts⟩ := List.forall_mem_cons.mp ht
      have h' : (s.step step).2.service.Agrees svc := by rwa [step_service]
      rw [answered, answered, step_congr h hq ht, ih h' hqs hts]

section agree

variable {store : Store} (hcache : s.run.cache = .timed store) (hunbounded : store.capacity = 0)
  (hempty : s.run.cache.size = 0) {steps : List (Step σ)}
  (hsteps : ∀ step ∈ steps, step.isQuerying = true ∧ step.isOrdinary = true)
  (hforce : Run.Throughout (fun e => a.InForceAlike e.clock.wall now) s.run (s.steps steps).run)
  (hshort : (s.steps steps).run.clock.elapsed < s.run.clock.elapsed + store.ttl)
  {x y : Question} {b b' : Bool} (hx : (x, b) ∈ s.answered steps)
  (hy : (y, b') ∈ s.answered steps) (hsame : a.meant x = a.meant y)

include hcache hunbounded hempty hsteps hforce hshort hx hy hsame

theorem repeated_queries_agree_of_keyed (hs : s.service.Settled s.run.state a) (hk : a.Keyed) :
    b = b' := by
  have hnone : ∀ key, s.run.cache.find? key = none :=
    fun key => Cache.find?_eq_none_of_size_eq_zero hempty key
  have ht : Run.Steady s.run.state a now s.run (s.steps steps).run := ⟨rfl, hforce⟩
  have ho : s.run.Outlasts (s.run.clock.elapsed + store.ttl) :=
    .of_size_eq_zero hcache hunbounded hempty
  have hfirst : s.run.Upholds (OnYes (a.Hopeful now s.policy.maxDepth)) := by
    intro key allowed hknows
    obtain ⟨d, hd, -, -⟩ := Run.knows_iff.mp hknows
    rw [hnone key] at hd
    cases hd
  have hfinal := steps_hopeful hs hsteps hk ht hfirst
  rw [Bool.eq_iff_iff, answered_iff hs hsteps hk ht ho hshort hfinal hx,
    answered_iff hs hsteps hk ht ho hshort hfinal hy, hsame]

/-- In a session that is shorter than a time to live, with a cache without a bound that was empty
at first, and in which nothing changes, two occurrences of a query are answered alike, whatever
was asked in between: by itself, in a batch or by name. Where a query has no target, its decision
is that of the query with the empty target key, so either no query is without a target, or lookups
without a target are those with the empty key. This is about the answers of the session: a machine
gives them as long as the clock can show when decisions expire and there is room. -/
theorem repeated_queries_agree (hs : s.service.Settled s.run.state a)
    (hk : a.Keyed ∨ ∀ step ∈ steps, step.isTargeted = true) : b = b' := by
  rcases hk with hk | htargets
  · exact repeated_queries_agree_of_keyed hcache hunbounded hempty hsteps hforce hshort hx hy hsame
      hs hk
  · have hagrees := s.service.agrees_keyed
    have hrun := congrArg Session.run (steps_congr hagrees hsteps htargets)
    rw [← answered_congr hagrees hsteps htargets] at hx hy
    rw [← hrun] at hshort hforce
    exact repeated_queries_agree_of_keyed (a := a.keyed)
      (s := { s with service := s.service.keyed }) hcache hunbounded hempty hsteps
      (hforce.imp fun _ h => h.keyed) hshort hx hy hsame hs.keyed a.keyed_keyed

end agree

/-- A person in one of two groups that are in each other, of which the other one has a grant; the
person's other group cannot be looked up. -/
def ringDirectory : StagedDirectory where
  directory := (((((({} : Directory).addMembership ⟨.person, "alice"⟩ "a").addMembership
    ⟨.person, "alice"⟩ "lost").addMembership ⟨.group, "a"⟩ "b").addMembership ⟨.group, "b"⟩ "a"
    |>.addPermission (.assign ⟨.group, "b"⟩ "O" "ACT" "T" .grant)).addOwner
      ⟨"O", "Owner"⟩).addActivity "O" ⟨"ACT", "Activity", "provider"⟩
    |>.addTarget "provider" ⟨"T", "Target", .other⟩
  faults := [⟨"permissions", "group.lost"⟩]

/-- A session with that directory and room for any number of decisions. -/
def ringSession : Session StagedDirectory :=
  .start { cache := { maxEntries := 0 } } StagedDirectory.service ringDirectory (.startingAt 0 0)

/-- The person is asked about, then a group of the ring, and a second later the person by name. -/
def ringSteps : List (Step StagedDirectory) :=
  [staffCheck ⟨.person, "alice"⟩, staffCheck ⟨.group, "b"⟩, .advance 1000,
    .checkByName ⟨.person, "alice"⟩ "O" "ACT" (some "T")]

/-- The person is answered by name as by reference. -/
theorem repeated_queries_agree_around_ring :
    let q := staffQuery ⟨.person, "alice"⟩
    let x := Question.asked ⟨true, some q.principal, some q.owner, some q.activity, q.target⟩
    let y := Question.named ⟨.person, "alice"⟩ "O" "ACT" (some "T")
    (x, true) ∈ ringSession.answered ringSteps ∧ (y, true) ∈ ringSession.answered ringSteps ∧
      ∀ b, (y, b) ∈ ringSession.answered ringSteps → b = true := by
  intro q x y
  have hsteps : ∀ step ∈ ringSteps, step.isQuerying = true ∧ step.isOrdinary = true := by decide
  have hforce : Run.Throughout
      (fun e => ringDirectory.answers.InForceAlike e.clock.wall (.ofMillis 0)) ringSession.run
        (ringSession.steps ringSteps).run :=
    .of_forall (ringSession.steps_passes ringSteps).journal
      fun e => StagedDirectory.inForceAlike (by decide) _ _
  have hx : (x, true) ∈ ringSession.answered ringSteps := by decide +kernel
  have hy : (y, true) ∈ ringSession.answered ringSteps := by decide +kernel
  refine ⟨hx, hy, ?_⟩
  intro b hb
  have hsame : ringDirectory.answers.meant x = ringDirectory.answers.meant y := by decide +kernel
  exact (repeated_queries_agree rfl rfl rfl hsteps hforce (by decide +kernel) hx hb hsame
    ringDirectory.settled (.inl ringDirectory.keyed)).symm

/-- Grants everything on every target, and fails without one. -/
def targetsOnly : Answers
  | .permissions p owner activity (some target) => .ok [.assign p owner activity target .grant]
  | .permissions _ _ _ none => .error (.permissionStore "no target")
  | .groupMember p => .ok (.ofPrincipal p)
  | .parentGroups _ => .ok []
  | .newPrincipal m => .ok (.ofMember m)
  | .resolveOwner _ => .ok none
  | .resolveActivity .. => .ok none
  | .resolveTarget .. => .ok none

/-- A session with these answers and room for any number of decisions. -/
def targetsOnlySession : Session Unit :=
  .start { cache := { maxEntries := 0 } } (.fixed targetsOnly) () (.startingAt 0 0)

/-- Asks about a person with a target or without one. -/
def askAlice (target : Option Target) : PartialQuery :=
  let q := staffQuery ⟨.person, "alice"⟩
  ⟨true, some q.principal, some q.owner, some q.activity, target⟩

/-- The target whose key is empty. -/
def emptyTarget : Target :=
  ⟨"", "", .other⟩

theorem targetsOnlySession_still : targetsOnlySession.service.Still () targetsOnly :=
  ⟨fun _ => ⟨rfl, rfl⟩, fun _ => rfl⟩

/-- A query without a target and one with the empty target key have their decision under one key.
If a service looks records up differently for the two, the second answers the first from then on:
a query without a target is answered no and then yes, though nothing has changed. -/
theorem repeated_query_answered_differently :
    targetsOnlySession.service.Settled targetsOnlySession.run.state targetsOnly ∧
      targetsOnlySession.run.cache.size = 0 ∧
      targetsOnlySession.answered [.check (askAlice none), .check (askAlice (some emptyTarget)),
          .check (askAlice none)] =
        [(.asked (askAlice none), false), (.asked (askAlice (some emptyTarget)), true),
          (.asked (askAlice none), true)] :=
  ⟨targetsOnlySession_still.1, rfl, by decide +kernel⟩

end Session

end GrantPath
