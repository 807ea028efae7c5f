import GrantPath.Proofs.Accounting
import GrantPath.Proofs.CacheLookups

/-! # Searches that fail

A visit fails by itself or not at all. What fails below it, in the evaluation of one of its groups,
is passed over there, so an error comes up only where the visit has not got to its groups yet: the
principal's records, its member or the member's groups cannot be looked up, or no step is left
(`Search.Failure`, `Search.Cases.failure`).

So a search that fails has asked about its own principal alone and has expanded at most that
principal's own member (`Search.FailsAlone`). It has written nothing: the cache is as it was, but
for an expired decision of the principal that the search has found there. A decision whose search
fails is loaded as a no that nothing keeps (`Search.failing_search_keeps_cache`). -/

namespace GrantPath

variable {σ : Type}

/-- Whether a request was made. -/
def Event.isCall : Event → Bool
  | call _ _ _ => true
  | _ => false

/-! ### The requests made -/

namespace Run

variable (svc : Service σ) (q : Request) (r : Run σ)

@[simp] theorem requests_ask : (r.ask svc q).2.requests = r.requests ++ [q] := by
  simp [requests, ask]

theorem requests_looked (s : Search σ) (p : Principal) : (s.looked p r).requests =
    r.requests ++ [.permissions p s.scope.owner s.scope.activity s.scope.target] :=
  (r.count .nodeEvaluated).requests_ask s.service _

variable {r} {r' : Run σ}

/-- Without a call the requests made stay the same. -/
theorem requests_of_throughout (h : Throughout (fun e => e.isCall = false) r r') :
    r'.requests = r.requests := by
  obtain ⟨new, hj, hcalls⟩ := h
  unfold requests
  rw [hj, List.reverse_append, List.filterMap_append]
  refine List.append_right_eq_self.mpr (List.filterMap_eq_nil_iff.mpr ?_)
  intro e he
  have hcall := hcalls e (List.mem_reverse.mp he)
  cases e with
  | call request answer clock => cases hcall
  | _ => rfl

end Run

namespace Search

variable (s : Search σ)

/-- The requests about a principal and its member `m` that a visit makes before it turns to the
principal's groups. -/
def inquiries (p : Principal) (m : GroupMember) : List Request :=
  [.permissions p s.scope.owner s.scope.activity s.scope.target, .groupMember p, .parentGroups m]

/-! ### What makes a visit fail -/

/-- The ways in which a visit with so many steps left fails, with the run that it leaves. -/
inductive Failure (n : Nat) (p : Principal) (r : Run σ) : Error → Run σ → Prop
  /-- The principal's records cannot be looked up. -/
  | records {e : Error} : (s.lookUp p r).1 = .error e → Failure n p r e (s.looked p r)
  /-- The records give no verdict and there is no step left. -/
  | depth : n = 0 → Failure n p r (.traversalDepthExceeded p s.limit) (s.looked p r)
  /-- The principal has no member. -/
  | member {e : Error} : ((s.looked p r).ask s.service (.groupMember p)).1 = .error e →
      Failure n p r e (s.named p r)
  /-- The groups of its member cannot be looked up. -/
  | groups {m : GroupMember} {e : Error} : s.Names p m r →
      (((s.named p r).see m).ask s.service (.parentGroups m)).1 = .error e →
      Failure n p r e (s.expanded p m r)

/-- A visit fails in one of these ways. A consultation fails if the visit that it makes does, and
then it had found nothing. -/
theorem Cases.failure :
    s.Cases (fun n p r out => ∀ e, out.1 = .error e → s.Failure n p r e out.2)
      (fun n p r out => ∀ e, out.1 = .error e →
        (∀ allowed, ¬ r.Knows (s.scope.key p) allowed) ∧ s.Failure n p (s.missed p r) e out.2)
      (fun _ _ _ _ => True) where
  lookUpFails hl e he := by
    cases he
    exact .records hl
  decided _ e he := nomatch he
  noStepLeft _ e he := by
    cases he
    exact .depth rfl
  memberFails _ hm e he := by
    cases he
    exact .member hm
  metBefore _ _ _ e he := nomatch he
  groupsFail _ hn _ hg e he := by
    cases he
    exact .groups hn hg
  climbed _ _ _ _ _ _ e he := nomatch he
  noGroupLeft := True.intro
  noPrincipal _ _ _ := True.intro
  granted _ _ _ := True.intro
  refused _ _ _ _ _ _ := True.intro
  hit _ e he := nomatch he
  computed _ _ _ e he := nomatch he
  notComputed hmiss _ hvisited e he := by
    cases he
    exact ⟨hmiss, hvisited _ rfl⟩

variable {s} {seen : SeenGroups} {n : Nat} {p : Principal} {e : Error} {r b r' : Run σ}

theorem Failure.cache_eq (h : s.Failure n p r e r') : r'.cache = r.cache := by
  cases h <;> rfl

theorem Failure.journal_suffix (h : s.Failure n p r e r') : r.journal <:+ r'.journal := by
  cases h with
  | records _ => exact (s.looked_reaches p r).journal_suffix
  | depth _ => exact (s.looked_reaches p r).journal_suffix
  | member _ => exact (s.named_reaches p r).journal_suffix
  | groups _ _ => exact (s.expanded_reaches p _ r).journal_suffix

/-! ### What a search that fails has done -/

variable (s seen p e r r') in
/-- A search that began with the members `seen` has failed from one run to the other, by what it
asked about its own principal. -/
structure FailsAlone : Prop where
  /-- It has asked for the principal's records, then maybe for its member, then maybe for the
  member's groups, and for nothing else; so it has evaluated no group. -/
  requests : ∃ m made, r'.requests = r.requests ++ made ∧ made <+: s.inquiries p m
  lookUps : r'.lookUps = r.lookUps + 1
  nodes : r'.counters.nodesEvaluated = r.counters.nodesEvaluated + 1
  /-- At most the principal's own member is expanded. -/
  seen : r'.seen = seen ∨
    ∃ m clock, .call (.groupMember p) (.ok m) clock ∈ r.since r' ∧ r'.seen = seen.insert m
  /-- The error is the answer to its last request, unless no chain of groups may be followed. -/
  cause : s.limit = 0 ∧ e = .traversalDepthExceeded p s.limit ∨
    ∃ q clock, (r.since r').head? = some (.call q (.error e) clock)
  /-- Nothing fails once the groups of a member are known, whatever becomes of their evaluation. -/
  below : ∀ m groups clock, .call (.parentGroups m) (.ok groups) clock ∉ r.since r'
  overrun : r'.overrun = r.overrun

theorem Failure.failsAlone (h : s.Failure s.limit p r e r') : s.FailsAlone r.seen p e r r' := by
  have hlooked := r.requests_looked s p
  cases h with
  | records hl =>
      have hsince : r.since (s.looked p r) = [.call _ (.error e) _] :=
        Run.since_eq (s.looked_journal hl)
      refine ⟨⟨default, _, hlooked, ⟨_, rfl⟩⟩, rfl, rfl, .inl rfl, .inr ?_, ?_, rfl⟩
      · rw [hsince]
        exact ⟨_, _, rfl⟩
      · rw [hsince]
        simp
  | depth hn =>
      refine ⟨⟨default, _, hlooked, ⟨_, rfl⟩⟩, rfl, rfl, .inl rfl, .inl ⟨hn, rfl⟩, ?_, rfl⟩
      have hsince : r.since (s.looked p r) = [.call (.permissions p _ _ _) _ _] :=
        Run.since_eq rfl
      rw [hsince]
      simp
  | member hm =>
      have hsince : r.since (s.named p r) =
          [.call (.groupMember p) (.error e) _, .call (.permissions p _ _ _) _ _] :=
        Run.since_eq (s.named_journal hm)
      refine ⟨⟨default, [_, _], ?_, ⟨_, rfl⟩⟩, rfl, rfl, .inl rfl, .inr ?_, ?_, rfl⟩
      · rw [named, Run.requests_ask, hlooked, List.append_assoc, List.singleton_append]
      · rw [hsince]
        exact ⟨_, _, rfl⟩
      · rw [hsince]
        simp
  | @groups m e hn hg =>
      have hsince : r.since (s.expanded p m r) = [.call (.parentGroups m) (.error e) _,
          .call (.groupMember p) (.ok m) _, .call (.permissions p _ _ _) _ _] :=
        Run.since_eq (by rw [s.expanded_journal hg, s.named_journal hn]; rfl)
      refine ⟨⟨m, _, ?_, List.prefix_rfl⟩, rfl, rfl, .inr ⟨m, (s.named p r).clock, ?_, rfl⟩,
        .inr ?_, ?_, rfl⟩
      · have hnamed : ((s.named p r).see m).requests = (s.named p r).requests := rfl
        rw [expanded, Run.requests_ask, hnamed, named, Run.requests_ask, hlooked,
          List.append_assoc, List.append_assoc]
        rfl
      · rw [hsince]
        exact List.mem_cons_of_mem _ (List.mem_cons_self ..)
      · rw [hsince]
        exact ⟨_, _, rfl⟩
      · rw [hsince]
        simp

/-- What comes before the visit makes no difference as long as it asks for nothing. -/
theorem FailsAlone.after (h : s.FailsAlone b.seen p e b r')
    (hr' : b.journal <:+ r'.journal) (hcalls : Run.Throughout (fun e => e.isCall = false) r b)
    (hnodes : b.counters.nodesEvaluated = r.counters.nodesEvaluated)
    (hoverrun : b.overrun = r.overrun) : s.FailsAlone b.seen p e r r' := by
  have hsince : r.since r' = b.since r' ++ r.since b := Run.since_trans hcalls.journal_suffix hr'
  have hlookUps : b.lookUps = r.lookUps := by
    have hcount := Run.lookUps_since hcalls.journal_suffix
    have hnone : (r.since b).countP (·.isLookUp) = 0 := by
      refine List.countP_eq_zero.mpr fun e he hlookUp => ?_
      have hcall : e.isCall = false := hcalls.of_mem_since he
      cases e with
      | call request answer clock => cases hcall
      | _ => cases hlookUp
    omega
  constructor
  · rw [← Run.requests_of_throughout hcalls]
    exact h.requests
  · rw [h.lookUps, hlookUps]
  · rw [h.nodes, hnodes]
  · refine h.seen.imp id ?_
    rintro ⟨m, clock, hmem, hseen⟩
    exact ⟨m, clock, hsince ▸ List.mem_append_left _ hmem, hseen⟩
  · refine h.cause.imp id ?_
    rintro ⟨q, clock, hhead⟩
    exact ⟨q, clock, by rw [hsince, List.head?_append, hhead, Option.some_or]⟩
  · intro m groups clock hmem
    rw [hsince, List.mem_append] at hmem
    rcases hmem with hmem | hmem
    · exact h.below m groups clock hmem
    · cases hcalls.of_mem_since hmem
  · rw [h.overrun, hoverrun]

variable (s seen p r)

/-- A search that is not made through the cache fails alone and leaves the cache as it was. -/
theorem runAnew_failsAlone (h : s.runAnew seen p r = (.error e, r')) :
    s.FailsAlone seen p e r r' ∧ r'.cache = r.cache := by
  have hfailure := (Cases.failure s).resolve s.limit p (r.beginSearch (s.scope.key p) seen) e
    (congrArg Prod.fst h)
  have hafter : (s.resolve s.limit p (r.beginSearch (s.scope.key p) seen)).2 = r' :=
    congrArg Prod.snd h
  rw [hafter] at hfailure
  have hcalls : Run.Throughout (fun e => e.isCall = false) r
      (r.beginSearch (s.scope.key p) seen) := .single rfl rfl
  exact ⟨hfailure.failsAlone.after hfailure.journal_suffix hcalls rfl rfl, hfailure.cache_eq⟩

/-- A search through the cache fails alone, and it leaves the cache as it was but for an expired
decision that it has found there. -/
theorem run_failsAlone (h : s.run seen p r = (.error e, r')) :
    s.FailsAlone seen p e r r' ∧
      (r'.cache = r.cache ∨
        r.cache.peek (s.scope.key p) r.clock.elapsed = .expired ∧
          r'.cache = (r.cache.remove (s.scope.key p)).2) := by
  let begun := r.beginSearch (s.scope.key p) seen
  obtain ⟨hmiss, hfailure⟩ :=
    (Cases.failure s).cached s.limit p begun e (congrArg Prod.fst h)
  have hafter : (s.cached (s.resolve s.limit) p begun).2 = r' := congrArg Prod.snd h
  rw [hafter] at hfailure
  constructor
  · have hread : Run.Throughout (fun e => e.isCall = false) begun (s.missed p begun) :=
      .single (s.missed_journal hmiss) rfl
    have hcalls : Run.Throughout (fun e => e.isCall = false) r (s.missed p begun) :=
      Run.Throughout.trans (.single rfl rfl) hread
    have hnodes : (s.missed p begun).counters.nodesEvaluated = r.counters.nodesEvaluated :=
      begun.nodesEvaluated_readCache (s.scope.key p)
    have hseen : (s.missed p begun).seen = seen := s.missed_seen p begun
    have hoverrun : (s.missed p begun).overrun = r.overrun :=
      begun.readCache_overrun (s.scope.key p)
    have halone := hfailure.failsAlone.after hfailure.journal_suffix hcalls hnodes hoverrun
    rwa [hseen] at halone
  · have hcache : r'.cache = (r.cache.get (s.scope.key p) r.clock.elapsed).2 :=
      hfailure.cache_eq.trans (begun.readCache_cache (s.scope.key p))
    rw [hcache]
    exact Cache.get_of_not_live hmiss

/-! ### What a failing search leaves of the cache -/

/-- If a search fails, it has failed over what it asked about its own principal, with at most one
look-up of records and without an evaluation of any group, and nothing that went wrong further on
comes up as its error. What the cache remembers, with answers, expiries and reads, stays as it is;
a search through the cache may have dropped an expired decision of its principal. So loading a
decision whose search fails answers no, leaves the whole cache as it is and counts no prewarmed
decision. -/
theorem failing_search_keeps_cache (policy : Policy) (q : Query) :
    (∀ e r', s.runAnew seen p r = (.error e, r') →
      s.FailsAlone seen p e r r' ∧ r'.cache = r.cache) ∧
    (∀ e r', s.run seen p r = (.error e, r') →
      s.FailsAlone seen p e r r' ∧
        (r'.cache = r.cache ∨
          r.cache.peek (s.scope.key p) r.clock.elapsed = .expired ∧
            r'.cache = (r.cache.remove (s.scope.key p)).2)) ∧
    ∀ e r', (policy.search s.service q).runAnew .empty q.principal
        (r.setAside policy.seenCapacity) = (.error e, r') →
      policy.loadInCache s.service q r = (false, r') ∧ r'.cache = r.cache ∧
        r'.counters.cachePrewarms = r.counters.cachePrewarms ∧
        (policy.search s.service q).FailsAlone .empty q.principal e
          (r.setAside policy.seenCapacity) r' := by
  refine ⟨fun e r' => s.runAnew_failsAlone seen p r, fun e r' => s.run_failsAlone seen p r, ?_⟩
  intro e r' hout
  have hload := policy.loadInCache_cases s.service q r
  obtain ⟨halone, hcache⟩ := runAnew_failsAlone _ _ _ _ hout
  have hanswered := ((policy.search s.service q).runAnew_charged q.principal
    (r.setAside policy.seenCapacity) .empty).answered
  rw [hout] at hload hanswered
  have hprewarms : r'.counters.answered.cachePrewarms = r.counters.answered.cachePrewarms :=
    congrArg Counters.cachePrewarms hanswered
  refine ⟨?_, hcache, hprewarms, halone⟩
  rcases hload with ⟨e', r₁, hsame, hload⟩ | ⟨granted, r₁, hsame, -⟩
  · obtain ⟨-, rfl⟩ := Prod.mk.inj hsame
    exact hload
  · cases hsame

/-- The staff directory, in which the person's groups cannot be looked up. -/
def unlistedDirectory : StagedDirectory :=
  { Session.staffDirectory with faults := [⟨"parent_groups", "person.alice"⟩] }

/-- The scope of the staff's grant, with a search of up to four steps. -/
def staffSearch : Search StagedDirectory :=
  ⟨StagedDirectory.service, (Session.staffQuery ⟨.person, "alice"⟩).scope, 4⟩

/-- A run with that directory, in which a no about the person has just expired and a yes about the
group is remembered, read once. -/
def unlistedRun : Run StagedDirectory where
  state := unlistedDirectory
  clock := .startingAt 0 60
  cache :=
    let staff := staffSearch.scope.key ⟨.group, "staff"⟩
    let alice := staffSearch.scope.key ⟨.person, "alice"⟩
    .timed
      { ttl := 60, capacity := 2
        decisions := (Table.empty.insert staff ⟨true, 70, 1⟩).insert alice ⟨false, 60, 3⟩ }

/-- The search from the person fails over the person's groups. It drops the person's expired
decision if it is made through the cache; a decision loaded ahead leaves that where it is. -/
theorem failing_search_keeps_cache_of_staff :
    let alice : Principal := ⟨.person, "alice"⟩
    let e := Fault.error ⟨"parent_groups", "person.alice"⟩
    let out := staffSearch.run .empty alice unlistedRun
    let anew := staffSearch.runAnew .empty alice unlistedRun
    let loaded := Session.staffSession.policy.loadInCache StagedDirectory.service
      (Session.staffQuery alice) unlistedRun
    (out.1 = .error e ∧ staffSearch.FailsAlone .empty alice e unlistedRun out.2 ∧
      out.2.cache.entries = [(staffSearch.scope.key ⟨.group, "staff"⟩, ⟨true, 70, 1⟩)]) ∧
    (anew.1 = .error e ∧ anew.2.cache = unlistedRun.cache) ∧
    loaded.1 = false ∧ loaded.2.cache = unlistedRun.cache := by
  intro alice e out anew loaded
  let policy := Session.staffSession.policy
  let ahead := (policy.search StagedDirectory.service (Session.staffQuery alice)).runAnew .empty
    alice (unlistedRun.setAside policy.seenCapacity)
  have hout : out = (.error e, out.2) := Prod.ext (by decide +kernel) rfl
  have hanew : anew = (.error e, anew.2) := Prod.ext (by decide +kernel) rfl
  have hahead : ahead = (.error e, ahead.2) := Prod.ext (by decide +kernel) rfl
  obtain ⟨hrunAnew, hrun, hload⟩ := staffSearch.failing_search_keeps_cache .empty alice
    unlistedRun policy (Session.staffQuery alice)
  obtain ⟨hloaded, hkept, -⟩ := hload e ahead.2 hahead
  have hloaded : loaded = (false, ahead.2) := hloaded
  refine ⟨⟨congrArg Prod.fst hout, (hrun e out.2 hout).1, by decide +kernel⟩,
    ⟨congrArg Prod.fst hanew, (hrunAnew e anew.2 hanew).2⟩, congrArg Prod.fst hloaded, ?_⟩
  rw [hloaded]
  exact hkept

end Search

end GrantPath
