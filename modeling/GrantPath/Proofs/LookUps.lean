import GrantPath.Proofs.CacheLookups
import GrantPath.Proofs.DirectoryQueries
import GrantPath.Proofs.Repetition

/-! # Records are looked up once in a time to live, twice around a cycle

In a cache without a bound that was empty at first, a decision that is written is found for a time
to live. So in a session shorter than that the records about a principal are looked up again only
where the first visit to it has not come to its decision, and that is where a chain of memberships
leads from the principal back to it.

A search is `Search.Underway` along a chain of principals, each of which it has expanded and not
decided yet. What it keeps is `Run.Frugal`: as long as a key has no decision, its records have been
looked up no more often than it occurs among the visits that are under way.

* A look-up adds a visit (`Run.Frugal.look`), and the decision that is written for it takes the
  visit away (`Run.Frugal.write`).
* The second visit to a principal meets its member among those expanded. So it climbs no further,
  and there is no third (`Search.Cases.frugal`).
* No search fails: nothing that is asked for does, and a chain has no more members than there are
  principals in the graph (`Search.Trail.length_lt`). So every visit leaves a decision.

Together `Session.looked_up_at_most_twice`. -/

namespace GrantPath

open Relation

variable {σ : Type} {a : Answers} {p q : Principal}

/-! ### Counting look-ups -/

/-- Whether records were looked up that belong to the key. -/
def Event.looksUp (key : DecisionKey) : Event → Bool
  | .call (.permissions p owner activity target) _ _ =>
    Scope.key ⟨owner, activity, target⟩ p == key
  | _ => false

namespace Run

variable {svc : Service σ} {base r r' : Run σ} {key k : DecisionKey} {busy : List DecisionKey}
  {deadline : Nat}

/-- How often records were looked up that belong to the key. -/
def lookUpsOf (r : Run σ) (key : DecisionKey) : Nat :=
  r.journal.countP (·.looksUp key)

@[simp] theorem lookUpsOf_readCache : (r.readCache k).2.lookUpsOf key = r.lookUpsOf key := by
  simp [lookUpsOf, Event.looksUp]

@[simp] theorem lookUpsOf_writeCache (allowed : Bool) :
    (r.writeCache k allowed).lookUpsOf key = r.lookUpsOf key := by
  simp [lookUpsOf, Event.looksUp]

theorem lookUpsOf_define {request : Request} (h : request.isDefinition = true) :
    (r.ask svc request).2.lookUpsOf key = r.lookUpsOf key := by
  cases request with
  | permissions p owner activity target => cases h
  | _ => rfl

theorem countP_since (h : r.journal <:+ r'.journal) (key : DecisionKey) :
    (r.since r').countP (·.looksUp key) + r.lookUpsOf key = r'.lookUpsOf key := by
  rw [lookUpsOf, lookUpsOf, ← List.countP_append, since_append h]

/-- Since the first of the two runs records were looked up no more than twice, no more than once
for a principal on no cycle, and under a key without a decision no more often than the key is
busy. -/
structure Frugal (r : Run σ) (a : Answers) (base : Run σ) (busy : List DecisionKey) : Prop where
  twice : ∀ key, r.lookUpsOf key ≤ base.lookUpsOf key + 2
  once : ∀ s p, ¬ TransGen a.Parent p p →
    r.lookUpsOf (Scope.key s p) ≤ base.lookUpsOf (Scope.key s p) + 1
  undecided : ∀ key, r.cache.find? key = none →
    r.lookUpsOf key ≤ base.lookUpsOf key + busy.count key

theorem Frugal.refl (r : Run σ) : r.Frugal a r [] where
  twice _ := Nat.le_add_right ..
  once _ _ _ := Nat.le_add_right ..
  undecided _ _ := Nat.le_add_right ..

/-- Without a look-up frugality stays, unless a decision is lost. -/
theorem Frugal.of_lookUpsOf_eq (h : r.Frugal a base busy)
    (hlooks : ∀ key, r'.lookUpsOf key = r.lookUpsOf key)
    (hkept : ∀ key, r'.cache.find? key = none → r.cache.find? key = none) :
    r'.Frugal a base busy where
  twice key := by
    rw [hlooks]
    exact h.twice key
  once s p hp := by
    rw [hlooks]
    exact h.once s p hp
  undecided key hnone := by
    rw [hlooks]
    exact h.undecided key (hkept key hnone)

/-- A key that is not decided can be looked up, and again if it is busy and on a cycle. -/
theorem Frugal.look (h : r.Frugal a base busy) (hnone : r.cache.find? k = none)
    (hbusy : busy.count k ≤ 1)
    (hcycle : k ∈ busy → ∀ s p, k = Scope.key s p → TransGen a.Parent p p)
    (hlooks : ∀ key, r'.lookUpsOf key = r.lookUpsOf key + if k = key then 1 else 0)
    (hcache : r'.cache = r.cache) : r'.Frugal a base (k :: busy) where
  twice key := by
    have htwice := h.twice key
    rw [hlooks]
    by_cases hk : k = key
    · subst hk
      have hundecided := h.undecided k hnone
      simp only [if_true]
      omega
    · simp only [if_neg hk]
      omega
  once s p hp := by
    have honce := h.once s p hp
    rw [hlooks]
    by_cases hk : k = s.key p
    · have hfree : k ∉ busy := fun hmem => hp (hcycle hmem s p hk)
      have hundecided := h.undecided k hnone
      rw [List.count_eq_zero_of_not_mem hfree, hk] at hundecided
      simp only [if_pos hk]
      omega
    · simp only [if_neg hk]
      omega
  undecided key hkey := by
    rw [hcache] at hkey
    have hundecided := h.undecided key hkey
    rw [hlooks, List.count_cons]
    simp only [beq_iff_eq]
    omega

/-- A decision that is written ends what was under way. -/
theorem Frugal.write (h : r.Frugal a base (k :: busy)) (ho : r.Outlasts deadline)
    (allowed : Bool) : (r.writeCache k allowed).Frugal a base busy where
  twice key := by
    rw [lookUpsOf_writeCache]
    exact h.twice key
  once s p hp := by
    rw [lookUpsOf_writeCache]
    exact h.once s p hp
  undecided key hnone := by
    rw [writeCache_cache] at hnone
    have hne : key ≠ k := by
      rintro rfl
      obtain ⟨ttl, httl, -⟩ := ho.written
      rw [Cache.find?_written_self, httl] at hnone
      cases hnone
    rw [Cache.find?_written_of_unbounded ho.unbounded hne] at hnone
    have hundecided := h.undecided key hnone
    rw [List.count_cons_of_ne hne.symm] at hundecided
    rwa [lookUpsOf_writeCache]

/-- Before the deadline a read finds whatever is remembered. -/
theorem Outlasts.find?_eq_none (h : r.Outlasts deadline) (hlive : r.clock.elapsed < deadline)
    (hmiss : ∀ allowed, ¬ r.Knows key allowed) : r.cache.find? key = none := by
  rw [Option.eq_none_iff_forall_ne_some]
  intro d hd
  have hle := h.stored key d hd
  exact hmiss d.allowed (knows_iff.mpr ⟨d, hd, rfl, by omega⟩)

/-- Before the deadline a read drops nothing. -/
theorem Outlasts.find?_of_readCache (h : r.Outlasts deadline) (hlive : r.clock.elapsed < deadline)
    (hnone : (r.readCache k).2.cache.find? key = none) : r.cache.find? key = none := by
  rw [readCache_cache, Cache.find?_get] at hnone
  split at hnone
  · rename_i hk
    subst hk
    apply h.find?_eq_none hlive
    intro allowed hknows
    obtain ⟨d, hd, -, he⟩ := knows_iff.mp hknows
    rw [hd, Option.bind_some, Decision.read, if_neg] at hnone
    · cases hnone
    · simpa [Decision.isExpired] using he
  · exact hnone

end Run

/-! ### Lookups that succeed -/

/-- No lookup that a search makes fails. -/
structure Answers.Intact (a : Answers) : Prop where
  records : ∀ p owner activity target, ∃ records,
    a (.permissions p owner activity target) = .ok records
  member : ∀ p, ∃ m, a (.groupMember p) = .ok m
  groups : ∀ m, ∃ groups, a (.parentGroups m) = .ok groups
  principal : ∀ m groups g, a (.parentGroups m) = .ok groups → g ∈ groups →
    ∃ q, a (.newPrincipal g) = .ok q

namespace Directory

variable {d : Directory}

/-- In a directory without failing principals no lookup fails. -/
theorem intact (h : d.failing = []) : d.answers.Intact where
  records p owner activity target := ⟨_, if_neg (by simp [h])⟩
  member p := ⟨_, rfl⟩
  groups m := ⟨_, if_neg (by simp [h])⟩
  principal m groups g hgroups hmem := by
    have hgroups : d.parentGroups m = .ok groups := hgroups
    unfold parentGroups at hgroups
    split at hgroups
    · cases hgroups
    · obtain rfl := Except.ok.inj hgroups
      obtain ⟨key, -, rfl⟩ := List.mem_map.mp hmem
      exact ⟨_, rfl⟩

/-- Only groups have members, so a person is on no cycle. -/
theorem not_transGen_person (key : String) :
    ¬ TransGen d.answers.Parent ⟨.person, key⟩ ⟨.person, key⟩ := by
  intro h
  obtain ⟨x, -, m, groups, g, -, -, -, hperson⟩ := TransGen.tail'_iff.mp h
  have hperson : d.newPrincipal g = .ok ⟨.person, key⟩ := hperson
  unfold newPrincipal at hperson
  split at hperson
  · rename_i hgroup
    have hkind : g.kind = .person := congrArg Principal.kind (Except.ok.inj hperson)
    simp [GroupMember.isGroup, hkind] at hgroup
  · cases hperson

end Directory

namespace Search

variable {s : Search σ} {st : σ} {base r r' : Run σ} {deadline n : Nat} {m : GroupMember}
  {chain busy : List Principal}

/-! ### The way to a principal -/

/-- Different principals from each of which memberships lead to `p`; with the steps left they make
up the limit. -/
structure Trail (s : Search σ) (a : Answers) (n : Nat) (chain : List Principal) (p : Principal) :
    Prop where
  nodup : chain.Nodup
  leads : ∀ x ∈ chain, TransGen a.Parent x p
  steps : chain.length + n = s.limit

/-- A trail is shorter than the limit if there are fewer principals in the graph than that. -/
theorem Trail.length_lt (h : s.Trail a n chain p) (hlimit : a.Linked.encard < s.limit) :
    chain.length < s.limit := by
  have hlinked : (chain.toFinset : Set Principal) ⊆ a.Linked := by
    intro x hx
    rw [List.coe_toFinset] at hx
    obtain ⟨y, hy, -⟩ := TransGen.head'_iff.mp (h.leads x hx)
    exact ⟨y, .inl hy⟩
  have hcard := Set.encard_le_encard hlinked
  rw [Set.encard_coe_eq_coe_finsetCard, List.toFinset_card_of_nodup h.nodup] at hcard
  exact_mod_cast hcard.trans_lt hlimit

/-- From a principal that is not on its own trail the trail goes on to its parents. -/
theorem Trail.climb (h : s.Trail a (n + 1) chain p) (hp : p ∉ chain) (hq : a.Parent p q) :
    s.Trail a n (p :: chain) q where
  nodup := List.nodup_cons.mpr ⟨hp, h.nodup⟩
  leads := by
    intro x hx
    rcases List.mem_cons.mp hx with rfl | hx
    · exact .single hq
    · exact (h.leads x hx).tail hq
  steps := by
    have hsteps := h.steps
    rw [List.length_cons]
    omega

/-- Before the deadline all members of the chain are expanded, and look-ups are frugal where the
visits to some principals are under way. -/
structure Underway (s : Search σ) (base : Run σ) (st : σ) (a : Answers) (deadline : Nat)
    (chain busy : List Principal) (r : Run σ) : Prop where
  state : r.state = st
  outlasts : r.Outlasts deadline
  met : ∀ x ∈ chain, ∃ m, a (.groupMember x) = .ok m ∧ m ∈ r.seen
  frugal : r.Frugal a base (busy.map s.scope.key)

section underway

variable (hs : s.service.Settled st a)

include hs

/-- A search stays under way while it looks up nothing and loses neither decisions nor members. -/
theorem Underway.move (h : s.Underway base st a deadline chain busy r)
    (hr : Run.Reaches s.service r r') (hlooks : ∀ key, r'.lookUpsOf key = r.lookUpsOf key)
    (hkept : ∀ key, r'.cache.find? key = none → r.cache.find? key = none)
    (hseen : ∀ m ∈ r.seen, m ∈ r'.seen) : s.Underway base st a deadline chain busy r' where
  state := hr.state_eq hs h.state
  outlasts := h.outlasts.reaches hr
  met x hx := by
    obtain ⟨m, hm, hmem⟩ := h.met x hx
    exact ⟨m, hm, hseen m hmem⟩
  frugal := h.frugal.of_lookUpsOf_eq hlooks hkept

theorem Underway.count (h : s.Underway base st a deadline chain busy r) (o : Occurrence) :
    s.Underway base st a deadline chain busy (r.count o) :=
  h.move hs (.single (.count o r)) (fun _ => rfl) (fun _ hnone => hnone) fun _ hm => hm

theorem Underway.read (h : s.Underway base st a deadline chain busy r)
    (hlive : r.clock.elapsed < deadline) (key : DecisionKey) :
    s.Underway base st a deadline chain busy (r.readCache key).2 :=
  h.move hs (.single (.read key r)) (fun _ => Run.lookUpsOf_readCache)
    (fun _ hnone => h.outlasts.find?_of_readCache hlive hnone) (by simp)

/-- A read in vain finds that there is no decision. -/
theorem Underway.missed (h : s.Underway base st a deadline chain busy r)
    (hmiss : ∀ allowed, ¬ r.Knows (s.scope.key p) allowed)
    (hr : Run.Reaches s.service (s.missed p r) r') (hlive : r'.clock.elapsed < deadline) :
    s.Underway base st a deadline chain busy (s.missed p r) ∧
      (s.missed p r).cache.find? (s.scope.key p) = none := by
  have helapsed : r.clock.elapsed ≤ r'.clock.elapsed :=
    Run.Reaches.elapsed_le ((s.missed_reaches p r).trans hr)
  refine ⟨(h.read hs (by omega) _).count hs _, ?_⟩
  have hnone := h.outlasts.find?_eq_none (by omega) hmiss
  show (r.readCache (s.scope.key p)).2.cache.find? (s.scope.key p) = none
  rw [Run.readCache_cache, Cache.find?_get, if_pos rfl, hnone]
  rfl

theorem Underway.addressed (h : s.Underway base st a deadline chain busy r) (g : GroupMember) :
    s.Underway base st a deadline chain busy (s.addressed r g) :=
  h.move hs (s.addressed_reaches g r) (fun _ => rfl) (fun _ hnone => hnone) fun _ hm => hm

theorem Underway.passedOver (h : s.Underway base st a deadline chain busy r)
    (outcome : Except Error Bool) :
    s.Underway base st a deadline chain busy (passedOver outcome r) := by
  cases outcome with
  | ok granted => exact h
  | error e => exact h.count hs _

/-- Looking up a principal that is not decided begins a visit. -/
theorem Underway.looked (h : s.Underway base st a deadline chain chain r)
    (htrail : s.Trail a n chain p) (hnone : r.cache.find? (s.scope.key p) = none) :
    s.Underway base st a deadline chain (p :: chain) (s.looked p r) where
  state := looked_state hs h.state
  outlasts := h.outlasts.reaches (s.looked_reaches p r)
  met := h.met
  frugal := by
    rw [List.map_cons]
    refine h.frugal.look hnone ?_ ?_ ?_ rfl
    · rw [List.count_map_of_injective _ _ s.scope.key_injective]
      exact List.nodup_iff_count_le_one.mp htrail.nodup p
    · rintro hmem scope x hkey
      obtain ⟨rfl, -⟩ := Scope.key_eq_key_iff.mp hkey
      rw [List.mem_map_of_injective s.scope.key_injective] at hmem
      exact htrail.leads p hmem
    · intro key
      show List.countP _ (_ :: r.journal) = _
      rw [List.countP_cons]
      simp [Event.looksUp, Run.lookUpsOf]

theorem Underway.named (h : s.Underway base st a deadline chain busy (s.looked p r)) :
    s.Underway base st a deadline chain busy (s.named p r) :=
  h.move hs (.single (.ask _ _)) (fun _ => rfl) (fun _ hnone => hnone) fun _ hm => hm

/-- Expanding a principal adds it to the chain. -/
theorem Underway.expanded (h : s.Underway base st a deadline chain busy (s.looked p r))
    (hm : a (.groupMember p) = .ok m) :
    s.Underway base st a deadline (p :: chain) busy (s.expanded p m r) := by
  have hmove : s.Underway base st a deadline chain busy (s.expanded p m r) :=
    h.move hs (s.looked_expanded p m r) (fun _ => rfl) (fun _ hnone => hnone)
      fun _ hmem => SeenGroups.mem_insert_of_mem hmem
  refine { hmove with met := ?_ }
  intro x hx
  rcases List.mem_cons.mp hx with rfl | hx
  · exact ⟨m, hm, SeenGroups.mem_insert_self ..⟩
  · exact hmove.met x hx

end underway

/-- Leaving the last member of the chain. -/
theorem Underway.leave (h : s.Underway base st a deadline (q :: chain) busy r) :
    s.Underway base st a deadline chain busy r :=
  { h with met := fun x hx => h.met x (List.mem_cons_of_mem _ hx) }

/-- Writing its decision ends a visit. -/
theorem Underway.write (h : s.Underway base st a deadline chain (p :: busy) r) (allowed : Bool) :
    s.Underway base st a deadline chain busy (r.writeCache (s.scope.key p) allowed) where
  state := by rw [Run.writeCache_state, h.state]
  outlasts := h.outlasts.writeCache _ allowed
  met := by
    rw [Run.writeCache_seen]
    exact h.met
  frugal := h.frugal.write h.outlasts allowed

/-! ### Every visit leaves a decision -/

/-- While nothing fails and a chain can be longer than there are principals in the graph, a search
that ends before the deadline stays under way, and every visit of it comes to a decision. -/
theorem Cases.frugal (hs : s.service.Settled st a) (hintact : a.Intact)
    (hlimit : a.Linked.encard < s.limit) :
    s.Cases
      (fun n p r out => ∀ chain, s.Trail a n chain p →
        s.Underway base st a deadline chain chain r → r.cache.find? (s.scope.key p) = none →
        out.2.clock.elapsed < deadline →
        (∃ granted, out.1 = .ok granted) ∧
          s.Underway base st a deadline chain (p :: chain) out.2)
      (fun n p r out => ∀ chain, s.Trail a n chain p →
        s.Underway base st a deadline chain chain r → out.2.clock.elapsed < deadline →
        s.Underway base st a deadline chain chain out.2)
      (fun n gs r out => ∀ chain, (∀ g ∈ gs, ∃ q, a (.newPrincipal g) = .ok q ∧
          s.Trail a n chain q) →
        s.Underway base st a deadline chain chain r → out.2.clock.elapsed < deadline →
        s.Underway base st a deadline chain chain out.2) where
  lookUpFails {n p r e} he chain _ h _ _ := by
    obtain ⟨records, hrecords⟩ :=
      hintact.records p s.scope.owner s.scope.activity s.scope.target
    rw [lookUp_fst hs h.state, hrecords] at he
    cases he
  decided _ chain htrail h hnone _ := ⟨⟨_, rfl⟩, h.looked hs htrail hnone⟩
  noStepLeft _ chain htrail _ _ _ := by
    have hlength := htrail.length_lt hlimit
    have hsteps := htrail.steps
    omega
  memberFails {n p r records e} _ he chain _ h _ _ := by
    obtain ⟨m, hm⟩ := hintact.member p
    rw [member_fst hs h.state, hm] at he
    cases he
  metBefore _ _ _ chain htrail h hnone _ :=
    ⟨⟨_, rfl⟩, ((h.looked hs htrail hnone).named hs).count hs _⟩
  groupsFail {n p r records m e} _ _ _ he chain _ h _ _ := by
    obtain ⟨groups, hgroups⟩ := hintact.groups m
    rw [groups_fst hs h.state, hgroups] at he
    cases he
  climbed {n p r records m groups out} _ hm hnew hg _ htried chain htrail h hnone hlive := by
    have hm : a (.groupMember p) = .ok m := hm.member hs h.state
    have hg : a (.parentGroups m) = .ok groups := by
      rw [← groups_fst hs h.state]
      exact hg
    -- The member would be among those expanded if the principal were on its own trail.
    have hp : p ∉ chain := by
      intro hmem
      obtain ⟨m', hm', hseen⟩ := h.met p hmem
      rw [hm] at hm'
      cases hm'
      exact hnew hseen
    refine ⟨⟨_, rfl⟩, (htried (p :: chain) ?_ ?_ hlive).leave⟩
    · intro g hmem
      obtain ⟨q, hq⟩ := hintact.principal m groups g hg hmem
      exact ⟨q, hq, htrail.climb hp ⟨m, groups, g, hm, hg, hmem, hq⟩⟩
    · exact (h.looked hs htrail hnone).expanded hs hm
  noGroupLeft chain _ h _ := h
  noPrincipal {n g gs r e out} he _ _ chain hgroups h _ := by
    obtain ⟨q, hq, -⟩ := hgroups g (List.mem_cons_self ..)
    rw [principal_fst hs h.state, hq] at he
    cases he
  granted {n g gs q r r'} hq _ hcons chain hgroups h hlive := by
    obtain ⟨x, hx, htrail⟩ := hgroups g (List.mem_cons_self ..)
    rw [principal_fst hs h.state, hx] at hq
    cases hq
    exact hcons chain htrail (h.addressed hs g) hlive
  refused {n g gs q r r' outcome out} hq _ hcons _ hreach htried chain hgroups h hlive := by
    obtain ⟨x, hx, htrail⟩ := hgroups g (List.mem_cons_self ..)
    rw [principal_fst hs h.state, hx] at hq
    cases hq
    have helapsed : r'.clock.elapsed ≤ out.2.clock.elapsed :=
      Run.Reaches.elapsed_le ((s.passedOver_reaches r' outcome).trans hreach)
    have hleft := hcons chain htrail (h.addressed hs g) (Nat.lt_of_le_of_lt helapsed hlive)
    exact htried chain (fun g hmem => hgroups g (List.mem_cons_of_mem _ hmem))
      (hleft.passedOver hs outcome) hlive
  hit {n p r granted} _ chain _ h hlive := by
    have hlive : r.clock.elapsed < deadline := by rwa [← r.readCache_clock (s.scope.key p)]
    exact (h.read hs hlive _).count hs _
  computed {n p r granted r'} hmiss hreach hv chain htrail h hlive := by
    rw [Run.writeCache_clock] at hlive
    obtain ⟨hmissed, hnone⟩ := h.missed hs hmiss hreach hlive
    exact (hv chain htrail hmissed hnone hlive).2.write granted
  notComputed {n p r e r'} hmiss hreach hv chain htrail h hlive := by
    obtain ⟨hmissed, hnone⟩ := h.missed hs hmiss hreach hlive
    obtain ⟨⟨granted, hout⟩, -⟩ := hv chain htrail hmissed hnone hlive
    cases hout

/-- A search that ends before the deadline is as frugal as what came before it. -/
theorem run_frugal (hs : s.service.Settled st a) (hintact : a.Intact)
    (hlimit : a.Linked.encard < s.limit) (hst : r.state = st) (ho : r.Outlasts deadline)
    (hr : r.Frugal a base []) (hlive : (s.run .empty p r).2.clock.elapsed < deadline) :
    (s.run .empty p r).2.Frugal a base [] := by
  have htrail : s.Trail a s.limit [] p := ⟨.nil, by simp, by simp⟩
  have hbegun : s.Underway base st a deadline [] [] (r.beginSearch (s.scope.key p) .empty) :=
    ⟨hst, ho.of_cache_eq rfl (Nat.le_refl _), by simp,
      hr.of_lookUpsOf_eq (fun _ => rfl) fun _ hnone => hnone⟩
  exact ((Cases.frugal hs hintact hlimit).cached s.limit p _ [] htrail hbegun hlive).frugal

end Search

/-! ### Queries and sessions -/

namespace Policy

variable {policy : Policy} {svc : Service σ} {st : σ} {base r r' : Run σ} {deadline : Nat}

section frugal

variable (hs : svc.Settled st a) (hintact : a.Intact)
  (hlimit : a.Linked.encard < policy.maxDepth)

include hs hintact hlimit

theorem QueryPart.frugal (h : policy.QueryPart svc r r') (hst : r.state = st)
    (ho : r.Outlasts deadline) (hr : r.Frugal a base [])
    (hlive : r'.clock.elapsed < deadline) : r'.Frugal a base [] := by
  cases h with
  | define q hq r =>
      exact hr.of_lookUpsOf_eq (fun _ => Run.lookUpsOf_define hq) fun _ hnone => hnone
  | count o r => exact hr.of_lookUpsOf_eq (fun _ => rfl) fun _ hnone => hnone
  | setAside capacity r => exact hr.of_lookUpsOf_eq (fun _ => rfl) fun _ hnone => hnone
  | search q r =>
      exact Search.run_frugal (s := policy.search svc q) hs hintact hlimit hst ho hr hlive

theorem QueryParts.frugal (h : policy.QueryParts svc r r') (hst : r.state = st)
    (ho : r.Outlasts deadline) (hr : r.Frugal a base [])
    (hlive : r'.clock.elapsed < deadline) : r'.Frugal a base [] := by
  induction h with
  | refl => exact hr
  | tail hm h ih =>
      have hmoves := QueryParts.queryMoves hm
      have helapsed := h.queryMove.move.passes.elapsed
      have hst' := Moves.state_eq hs hmoves.moves hst
      exact h.frugal hs hintact hlimit hst' (hmoves.outlasts ho) (ih (by omega)) hlive

end frugal

end Policy

namespace Session

variable {st : σ} {s : Session σ} {base : Run σ} {deadline : Nat}

section steps

variable (hs : s.service.Settled st a) (hintact : a.Intact)
  (hlimit : a.Linked.encard < s.policy.maxDepth)

include hs hintact hlimit

theorem step_frugal {step : Step σ} (hstep : step.isQuerying = true ∧ step.isOrdinary = true)
    (hst : s.run.state = st) (ho : s.run.Outlasts deadline) (hr : s.run.Frugal a base [])
    (hlive : (s.step step).2.run.clock.elapsed < deadline) :
    (s.step step).2.run.Frugal a base [] := by
  rcases step_queries_of_ordinary hstep with hparts | hidles
  · exact hparts.frugal hs hintact hlimit hst ho hr hlive
  · refine hr.of_lookUpsOf_eq (fun key => ?_) fun key hnone => ?_
    · rw [Run.lookUpsOf, hidles.journal, Run.lookUpsOf]
    · rwa [← hidles.cache]

theorem steps_frugal {steps : List (Step σ)}
    (hsteps : ∀ step ∈ steps, step.isQuerying = true ∧ step.isOrdinary = true)
    (hst : s.run.state = st) (ho : s.run.Outlasts deadline) (hr : s.run.Frugal a base [])
    (hlive : (s.steps steps).run.clock.elapsed < deadline) :
    (s.steps steps).run.Frugal a base [] := by
  induction steps generalizing s with
  | nil => exact hr
  | cons step steps ih =>
      obtain ⟨hstep, hrest⟩ := List.forall_mem_cons.mp hsteps
      have hlive' : (s.step step).2.run.clock.elapsed < deadline :=
        Nat.lt_of_le_of_lt ((s.step step).2.steps_passes steps).elapsed hlive
      have hfirst := step_frugal hs hintact hlimit hstep hst ho hr hlive'
      have hst' := (s.step_happens step).state_eq hs hstep.2 hst
      exact ih (by rwa [step_service]) (by rwa [step_policy]) hrest hst' (step_outlasts hstep ho)
        hfirst hlive

end steps

/-- In a session of queries that is shorter than a time to live, with a cache without a bound that
was empty at first, while no lookup fails and a chain can be longer than there are principals in
the graph, the records of a key are looked up at most twice, and at most once if memberships do
not lead from the principal back to it. A machine that does not get to the end of the session, since
the clock cannot show when a decision expires or room is lacking, has looked up no more. -/
theorem looked_up_at_most_twice {store : Store} (hcache : s.run.cache = .timed store)
    (hunbounded : store.capacity = 0) (hempty : s.run.cache.size = 0)
    (hs : s.service.Settled s.run.state a) (hintact : a.Intact)
    (hlimit : a.Linked.encard < s.policy.maxDepth) {steps : List (Step σ)}
    (hsteps : ∀ step ∈ steps, step.isQuerying = true ∧ step.isOrdinary = true)
    (hshort : (s.steps steps).run.clock.elapsed < s.run.clock.elapsed + store.ttl)
    (scope : Scope) (p : Principal) :
    let lookUps := (s.run.since (s.steps steps).run).countP (·.looksUp (scope.key p))
    lookUps ≤ 2 ∧ (¬ TransGen a.Parent p p → lookUps ≤ 1) := by
  intro lookUps
  have ho : s.run.Outlasts (s.run.clock.elapsed + store.ttl) :=
    .of_size_eq_zero hcache hunbounded hempty
  have hfrugal := steps_frugal hs hintact hlimit hsteps rfl ho (.refl _) hshort
  have hcount : lookUps + s.run.lookUpsOf (scope.key p) =
      (s.steps steps).run.lookUpsOf (scope.key p) :=
    Run.countP_since (s.steps_passes steps).journal _
  constructor
  · have htwice := hfrugal.twice (scope.key p)
    omega
  · intro hp
    have honce := hfrugal.once scope p hp
    omega

/-- A person in one of two groups that are in each other. -/
def circleDirectory : Directory :=
  ((({} : Directory).addMembership ⟨.person, "alice"⟩ "a").addMembership ⟨.group, "a"⟩ "b")
    |>.addMembership ⟨.group, "b"⟩ "a"

/-- A session with that directory and room for any number of decisions. -/
def circleSession : Session Directory :=
  .start { cache := { maxEntries := 0 } } Directory.service circleDirectory (.startingAt 0 0)

/-- The person is asked about, then a group of the circle, and a second later the person again. -/
def circleSteps : List (Step Directory) :=
  let ask (p : Principal) : Step Directory :=
    .evaluateBatch p ⟨"O", "Owner"⟩ ⟨"ACT", "Activity", "provider"⟩ [⟨"T", "Target", .other⟩]
  [ask ⟨.person, "alice"⟩, ask ⟨.group, "b"⟩, .advance 1000, ask ⟨.person, "alice"⟩]

/-- The group that the search comes back to is looked up twice, nobody more often than that, and
persons at most once. -/
theorem looked_up_at_most_twice_in_circle :
    let lookUps (p : Principal) :=
      (circleSession.run.since (circleSession.steps circleSteps).run).countP
        (·.looksUp (Scope.key ⟨"O", "ACT", some "T"⟩ p))
    lookUps ⟨.group, "a"⟩ = 2 ∧ (∀ p, lookUps p ≤ 2) ∧ ∀ key, lookUps ⟨.person, key⟩ ≤ 1 := by
  intro lookUps
  have hlimit : circleDirectory.answers.Linked.encard ≤ 3 :=
    Directory.encard_linked_le (l := [⟨.person, "alice"⟩, ⟨.group, "a"⟩, ⟨.group, "b"⟩])
      (by decide)
  have hdepth : circleDirectory.answers.Linked.encard < circleSession.policy.maxDepth :=
    hlimit.trans_lt (by decide)
  have hsteps : ∀ step ∈ circleSteps, step.isQuerying = true ∧ step.isOrdinary = true := by
    decide
  have hbound := looked_up_at_most_twice (s := circleSession) rfl rfl rfl
    circleDirectory.still.1 (Directory.intact rfl) hdepth hsteps (by decide +kernel)
    ⟨"O", "ACT", some "T"⟩
  refine ⟨by decide +kernel, fun p => (hbound p).1, ?_⟩
  intro key
  exact (hbound ⟨.person, key⟩).2 (Directory.not_transGen_person key)

-- With only as many steps as there are principals, a visit at the end of a chain that has them all
-- leaves no decision, and the group that the chain comes back to is looked up a third time.
example :
    let directory := (((({} : Directory).addMembership ⟨.person, "alice"⟩ "z").addMembership
      ⟨.group, "z"⟩ "b").addMembership ⟨.group, "b"⟩ "c").addMembership ⟨.group, "b"⟩ "z"
      |>.addMembership ⟨.group, "c"⟩ "z"
    let s : Session Directory :=
      .start { cache := { maxEntries := 0 }, policy := { maxTraversalDepth := 4 } }
        Directory.service directory (.startingAt 0 0)
    (s.run.since (s.steps circleSteps).run).countP
      (·.looksUp (Scope.key ⟨"O", "ACT", some "T"⟩ ⟨.group, "z"⟩)) = 3 := by
  decide +kernel

end Session

end GrantPath
