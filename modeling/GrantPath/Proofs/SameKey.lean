import GrantPath.Proofs.Interference
import GrantPath.Proofs.Targets

/-! # Queries with the same key

The key of a decision leaves out most of a query: the names of owner, activity and target, the
target's type and provider, and whether there is a target with the empty key or none. Nothing of
this can show in a search.

* A scope with a target for certain is `Scope.keyed`: the empty key stands in for no target. Scopes
  that share a key are the same scope then (`Scope.Alike.keyed_eq`).
* A run is `Run.keyed` if its journal is put that way. Nothing else in it changes.
* A search for the keyed scope does to the keyed run what the search does to the run. `Mirrors`
  says so of one operation, and `Search.lockstep_keyed` puts the operations together.

So two searches that share a key mirror into one, and they come to the same result and leave the
same run (`Run.SameOutcome`). With what a search writes, and under which keys, this makes
`Query.key_decides`. -/

namespace GrantPath

variable {σ : Type} {α : Type}

/-! ### No target and the empty key -/

/-- The scope with a target: the empty key for none. -/
def Scope.keyed (s : Scope) : Scope :=
  { s with target := some (s.target.getD "") }

theorem Scope.Alike.keyed_eq {s s' : Scope} (h : s.Alike s') : s.keyed = s'.keyed := by
  obtain ⟨howner, hactivity, htarget⟩ := h
  simp only [keyed, howner, hactivity, htarget]

/-- The same event, where records are asked for with a target: the empty key for none. -/
def Event.keyed : Event → Event
  | .call (.permissions p owner activity target) answer clock =>
    .call (.permissions p owner activity (some (target.getD ""))) answer clock
  | e => e

/-- The same standing with its journal so put. -/
def Standing.keyed (st : Standing σ) : Standing σ :=
  { st with journal := st.journal.map Event.keyed }

namespace Run

/-- The run with its journal so put, and the journal that it had when it overran. -/
def keyed (r : Run σ) : Run σ where
  toStanding := r.toStanding.keyed
  overrun := r.overrun.map Standing.keyed

/-- What the first act does to a run, the second does to the keyed run. -/
def Mirrors (act act' : Run σ → α × Run σ) : Prop :=
  ∀ r, act' r.keyed = ((act r).1, (act r).2.keyed)

/-- To mirror is to keep in step with the keyed run. -/
theorem mirrors_iff {act act' : Run σ → α × Run σ} :
    Mirrors act act' ↔ InStep (fun r r' => r' = r.keyed) act act' := by
  constructor
  · rintro h r _ rfl
    rw [h r]
    exact ⟨rfl, rfl⟩
  · intro h r
    obtain ⟨hresult, hafter⟩ := h r r.keyed rfl
    exact Prod.ext hresult.symm hafter

/-! ### Single operations -/

theorem keyed_count (r : Run σ) (o : Occurrence) : r.keyed.count o = (r.count o).keyed := rfl

theorem keyed_see (r : Run σ) (m : GroupMember) : r.keyed.see m = (r.see m).keyed := rfl

theorem keyed_countCleanup (r : Run σ) (dropped : Nat) :
    r.keyed.countCleanup dropped = (r.countCleanup dropped).keyed := by
  unfold countCleanup
  split <;> rfl

theorem keyed_overrunIf (r : Run σ) (outOfReach : Bool) :
    r.keyed.overrunIf outOfReach = (r.overrunIf outOfReach).keyed := by
  unfold overrunIf keyed
  cases outOfReach with
  | false => rfl
  | true => cases r.overrun <;> rfl

/-- Only requests for records are put differently. -/
theorem ask_mirrors (svc : Service σ) {q : Request}
    (hq : ∀ p owner activity target, q ≠ .permissions p owner activity target) :
    Mirrors (ask svc q) (ask svc q) := by
  intro r
  cases q with
  | permissions p owner activity target => exact absurd rfl (hq p owner activity target)
  | _ => rfl

theorem readCache_mirrors (key : DecisionKey) :
    Mirrors (σ := σ) (readCache key) (readCache key) := by
  intro r
  have hcache : r.keyed.cache = r.cache := rfl
  have hclock : r.keyed.clock = r.clock := rfl
  unfold readCache
  rw [hcache, hclock]
  rcases r.cache.get key r.clock.elapsed with ⟨_ | _ | _, cache⟩ <;> rfl

theorem keyed_writeCache (r : Run σ) (key : DecisionKey) (allowed : Bool) :
    r.keyed.writeCache key allowed = (r.writeCache key allowed).keyed := by
  have hroom : r.keyed.makeRoomFor key = (r.makeRoomFor key).keyed := by
    show ({ r.keyed.countCleanup _ with cache := _ } : Run σ) = _
    rw [keyed_countCleanup]
    rfl
  unfold writeCache
  rw [hroom, keyed_overrunIf]
  rfl

end Run

/-! ### Searches -/

namespace Search

variable (s : Search σ)

/-- The search for the keyed scope. -/
def keyed : Search σ :=
  { s with scope := s.scope.keyed }

variable (hk : s.service.keyed = s.service)

include hk

/-- With the empty key for no target the same records are found. -/
theorem lookUp_keyed (p : Principal) : Run.Mirrors (s.lookUp p) (s.keyed.lookUp p) := by
  obtain ⟨svc, ⟨owner, activity, target⟩, limit⟩ := s
  cases target with
  | some key => exact fun _ => rfl
  | none =>
      intro r
      have hreply : svc.reply (.permissions p owner activity (some "")) =
          svc.reply (.permissions p owner activity none) :=
        congrFun (congrArg Service.reply hk) (.permissions p owner activity none)
      simp only [lookUp, Run.ask, keyed, Scope.keyed, Option.getD_none]
      rw [hreply]
      rfl

open Run in
theorem lockstep_keyed : Lockstep (fun r r' => r' = r.keyed) s s.keyed where
  limit := rfl
  key _ := rfl
  wall h := by rw [h]; rfl
  seen h := by rw [h]; rfl
  count h o := by rw [h, keyed_count]
  see h m := by rw [h, keyed_see]
  beginSearch h _ _ := by rw [h]; rfl
  readCache p := mirrors_iff.mp (readCache_mirrors (s.scope.key p))
  writeCache h p allowed := by rw [h, keyed_writeCache]
  lookUp p := mirrors_iff.mp (s.lookUp_keyed hk p)
  groupMember p := mirrors_iff.mp (ask_mirrors s.service (by simp))
  parentGroups m := mirrors_iff.mp (ask_mirrors s.service (by simp))
  newPrincipal m := mirrors_iff.mp (ask_mirrors s.service (by simp))

theorem run_keyed (seen : SeenGroups) (p : Principal) :
    Run.Mirrors (s.run seen p) (s.keyed.run seen p) :=
  Run.mirrors_iff.mpr ((s.lockstep_keyed hk).run seen p)

theorem runAnew_keyed (seen : SeenGroups) (p : Principal) :
    Run.Mirrors (s.runAnew seen p) (s.keyed.runAnew seen p) :=
  Run.mirrors_iff.mpr ((s.lockstep_keyed hk).runAnew seen p)

end Search

/-! ### Two queries with the same key -/

/-- Two acts come to the same result and leave the same cache and the same members as expanded,
and all else the same but for requests without a target in place of the empty key. -/
structure Run.SameOutcome (out out' : α × Run σ) : Prop where
  result : out.1 = out'.1
  cache : out.2.cache = out'.2.cache
  seen : out.2.seen = out'.2.seen
  keyed : out.2.keyed = out'.2.keyed

theorem Run.Mirrors.sameOutcome {act act' mirror : Run σ → α × Run σ} (h : Mirrors act mirror)
    (h' : Mirrors act' mirror) (r : Run σ) : SameOutcome (act r) (act' r) := by
  obtain ⟨hresult, hrun⟩ := Prod.mk.inj ((h r).symm.trans (h' r))
  have hcache : (act r).2.keyed.cache = (act' r).2.keyed.cache := by rw [hrun]
  have hseen : (act r).2.keyed.seen = (act' r).2.keyed.seen := by rw [hrun]
  exact ⟨hresult, hcache, hseen, hrun⟩

theorem Search.sameOutcome_of_alike {svc : Service σ} (hk : svc.keyed = svc) {scope scope' : Scope}
    (h : scope.Alike scope') (limit : Nat) (seen : SeenGroups) (p : Principal) (r : Run σ) :
    Run.SameOutcome ((⟨svc, scope, limit⟩ : Search σ).run seen p r)
        ((⟨svc, scope', limit⟩ : Search σ).run seen p r) ∧
      Run.SameOutcome ((⟨svc, scope, limit⟩ : Search σ).runAnew seen p r)
        ((⟨svc, scope', limit⟩ : Search σ).runAnew seen p r) := by
  have hsearch : (⟨svc, scope', limit⟩ : Search σ).keyed =
      (⟨svc, scope, limit⟩ : Search σ).keyed := by
    simp only [Search.keyed, h.keyed_eq]
  have hrun := (⟨svc, scope', limit⟩ : Search σ).run_keyed hk seen p
  have hanew := (⟨svc, scope', limit⟩ : Search σ).runAnew_keyed hk seen p
  rw [hsearch] at hrun hanew
  constructor
  · exact ((⟨svc, scope, limit⟩ : Search σ).run_keyed hk seen p).sameOutcome hrun r
  · exact ((⟨svc, scope, limit⟩ : Search σ).runAnew_keyed hk seen p).sameOutcome hanew r

/-! ### Which queries are told what was written -/

namespace Run

variable {svc : Service σ} {r r' : Run σ} {key : DecisionKey} {allowed : Bool}

/-- What a read finds after an act it would have found before, or the act wrote it. -/
theorem Act.knows (h : Act svc r r') (hk : r'.Knows key allowed) :
    r.Knows key allowed ∨ ∃ clock, .write key allowed clock ∈ r.since r' := by
  cases h with
  | ask q r =>
      have hle : r.clock.elapsed ≤ (r.ask svc q).2.clock.elapsed := (Act.ask q r).elapsed_le
      have hwithin : (r.ask svc q).2.cache.Within r.cache := .refl _
      exact .inl (hk.of_within hwithin hle)
  | read k r =>
      refine .inl (hk.of_within ?_ (by simp))
      rw [readCache_cache]
      exact r.cache.get_within k r.clock.elapsed
  | write k a r =>
      rcases hk.of_writeCache with ⟨rfl, rfl⟩ | hk
      · have hj : (r.writeCache key allowed).journal = [.write key allowed r.clock] ++ r.journal :=
          r.writeCache_journal key allowed
        rw [since_eq hj]
        exact .inr ⟨r.clock, List.mem_singleton_self _⟩
      · exact .inl hk
  | _ => exact .inl hk

theorem Reaches.knows (h : Reaches svc r r') (hk : r'.Knows key allowed) :
    r.Knows key allowed ∨ ∃ clock, .write key allowed clock ∈ r.since r' := by
  induction h with
  | refl => exact .inl hk
  | tail hm ha ih =>
      rw [since_trans (Reaches.journal_suffix hm) ha.reaches.journal_suffix]
      rcases ha.knows hk with hk | ⟨clock, hw⟩
      · rcases ih hk with hk | ⟨clock, hw⟩
        · exact .inl hk
        · exact .inr ⟨clock, List.mem_append_right _ hw⟩
      · exact .inr ⟨clock, List.mem_append_left _ hw⟩

end Run

namespace Search

variable {P : DecisionKey → Bool → Prop}

/-- What is said of all keys of the scope, a search does not make untrue of others. -/
theorem Cases.upholds (s : Search σ) (hP : ∀ key allowed, s.scope.Concerns key → P key allowed) :
    s.Cases (fun _ _ r out => r.Upholds P → out.2.Upholds P)
      (fun _ _ r out => r.Upholds P → out.2.Upholds P)
      (fun _ _ r out => r.Upholds P → out.2.Upholds P) where
  lookUpFails _ hr := upholds_looked hr
  decided _ hr := upholds_looked hr
  noStepLeft _ hr := upholds_looked hr
  memberFails _ _ hr := upholds_named hr
  metBefore _ _ _ hr := (upholds_named hr).count _
  groupsFail _ _ _ _ hr := upholds_expanded hr
  climbed _ _ _ _ _ htried hr := htried (upholds_expanded hr)
  noGroupLeft hr := hr
  noPrincipal _ _ htried hr := htried ((upholds_addressed hr).count _)
  granted _ _ hconsulted hr := hconsulted (upholds_addressed hr)
  refused _ _ hconsulted _ _ htried hr :=
    htried (upholds_passedOver (hconsulted (upholds_addressed hr)) _)
  hit _ hr := (hr.readCache _).count _
  computed _ _ hvisited hr :=
    (hvisited (upholds_missed hr)).writeCache (hP _ _ (s.scope.concerns_key _))
  notComputed _ _ hvisited hr := hvisited (upholds_missed hr)

/-- What a read finds after a search it would have found before, or the search wrote it in its
scope. -/
theorem run_knows (s : Search σ) (seen : SeenGroups) (p : Principal) (r : Run σ)
    {key : DecisionKey} {allowed : Bool} (hk : (s.run seen p r).2.Knows key allowed) :
    r.Knows key allowed ∨
      s.scope.Concerns key ∧ ∃ clock, .write key allowed clock ∈ r.since (s.run seen p r).2 := by
  have hscope : (s.run seen p r).2.Upholds
      (fun key allowed => r.Knows key allowed ∨ s.scope.Concerns key) :=
    (Cases.upholds s fun _ _ h => .inr h).cached s.limit p (r.beginSearch (s.scope.key p) seen)
      fun _ _ hk => .inl hk
  rcases (s.run_reaches seen p r).knows hk with hk' | hw
  · exact .inl hk'
  · exact (hscope key allowed hk).imp_right fun hc => ⟨hc, hw⟩

end Search

/-! ### The key decides -/

theorem Directory.service_keyed : Directory.service.keyed = Directory.service := by
  unfold Service.keyed Directory.service Service.ofAnswers
  congr
  funext q d
  cases q with
  | permissions p owner activity target => cases target <;> rfl
  | _ => rfl

/-- The key of a query's target; a query without one has the empty key. -/
def Query.targetKey (q : Query) : String :=
  (q.target.map (·.key)).getD ""

theorem Query.key_eq_key_iff (q q' : Query) :
    q.key = q'.key ↔ q.principal = q'.principal ∧ q.scope.Alike q'.scope :=
  Scope.key_eq_key_iff

/-- Two queries have the same key exactly if principal, owner, activity and target key are the
same, whatever names, types and providers there are. Searches for them in a directory then come
to the same result and leave the same cache and the same members as expanded, through the cache
or not. And after a search for the first, the second is told what it would have been told
before, or else an answer that the search wrote for its principal in the same scope. -/
theorem Query.key_decides (q q' : Query) :
    (q.key = q'.key ↔ q.principal = q'.principal ∧ q.owner.fname = q'.owner.fname ∧
      q.activity.fname = q'.activity.fname ∧ q.targetKey = q'.targetKey) ∧
    ∀ (limit : Nat) (seen : SeenGroups) (r : Run Directory),
      let search : Search Directory := ⟨Directory.service, q.scope, limit⟩
      let search' : Search Directory := ⟨Directory.service, q'.scope, limit⟩
      (q.key = q'.key →
        Run.SameOutcome (search.run seen q.principal r) (search'.run seen q'.principal r) ∧
        Run.SameOutcome (search.runAnew seen q.principal r)
          (search'.runAnew seen q'.principal r)) ∧
      ∀ answer, (search.run seen q.principal r).2.Knows q'.key answer →
        r.Knows q'.key answer ∨ q.scope.Alike q'.scope ∧
          ∃ clock, .write (q.scope.key q'.principal) answer clock ∈
            r.since (search.run seen q.principal r).2 := by
  refine ⟨q.key_eq_key_iff q', ?_⟩
  intro limit seen r search search'
  constructor
  · intro hkey
    obtain ⟨hp, halike⟩ := (q.key_eq_key_iff q').mp hkey
    rw [← hp]
    exact Search.sameOutcome_of_alike Directory.service_keyed halike limit seen q.principal r
  · intro answer hk
    rcases search.run_knows seen q.principal r hk with hk | ⟨hconcerns, hw⟩
    · exact .inl hk
    · have halike : q.scope.Alike q'.scope :=
        ⟨hconcerns.1.symm, hconcerns.2.1.symm, hconcerns.2.2.symm⟩
      have hkey : q.scope.key q'.principal = q'.key := Scope.key_eq_key_iff.mpr ⟨rfl, halike⟩
      rw [hkey]
      exact .inr ⟨halike, hw⟩

/-- A directory in which a group with a dot in its key is granted an activity on no target. -/
def Directory.guestbook : Directory :=
  (({} : Directory).addMembership ⟨.person, "a.lice"⟩ "all.guests").addPermission
    (.assign ⟨.group, "all.guests"⟩ "site" "sign" "" .grant)

/-- May she sign? -/
def Query.toSign : Query where
  principal := ⟨.person, "a.lice"⟩
  owner := ⟨"site", "The site"⟩
  activity := ⟨"sign", "Sign", "books"⟩
  target := none

/-- May she sign the group without a key, as another provider knows it? -/
def Query.toSignNothing : Query where
  principal := ⟨.person, "a.lice"⟩
  owner := ⟨"site", ""⟩
  activity := ⟨"sign", "Sign a page", "pages"⟩
  target := some ⟨"", "Nothing", .group⟩

/-- Both queries are answered yes by the same search, and the second is then told what was written
for the first. -/
theorem Query.key_decides_in_guestbook :
    let r : Run Directory :=
      { state := .guestbook, clock := .startingAt 0 0,
        cache := .timed { ttl := 60, capacity := 0 } }
    let search : Search Directory := ⟨Directory.service, toSign.scope, 1⟩
    let search' : Search Directory := ⟨Directory.service, toSignNothing.scope, 1⟩
    let out := search.run .empty toSign.principal r
    toSign ≠ toSignNothing ∧ toSign.key = toSignNothing.key ∧ out.1 = .ok true ∧
      Run.SameOutcome out (search'.run .empty toSignNothing.principal r) ∧
      ∃ clock, .write (toSign.scope.key toSignNothing.principal) true clock ∈ r.since out.2 := by
  intro r search search' out
  have hkey : toSign.key = toSignNothing.key := by decide
  have hyes : out.1 = .ok true := by decide +kernel
  obtain ⟨hsame, htold⟩ := (key_decides toSign toSignNothing).2 1 .empty r
  refine ⟨by decide, hkey, hyes, (hsame hkey).1, ?_⟩
  have hknows : out.2.Knows toSignNothing.key true := by
    show out.2.cache.peek toSignNothing.key out.2.clock.elapsed = .live true
    decide +kernel
  have hunknown : ¬ r.Knows toSignNothing.key true := by
    show ¬ r.cache.peek toSignNothing.key r.clock.elapsed = .live true
    decide
  exact ((htold true hknows).resolve_left hunknown).2

end GrantPath
