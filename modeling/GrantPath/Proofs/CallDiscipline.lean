import GrantPath.Proofs.CacheLookups
import GrantPath.Proofs.ColdQueries

/-! # The order of a search's requests

A journal is read here with what stands before each event (`Run.Happens`), and each request is put
down to the place that the search has come to (`Search.Comes`): a consultation of the cache, a visit
or a trial of groups, at the end of the path of the principals whose groups are being tried.

* A principal is expanded directly after the look-up that found no record in force, and with a step
  left; its member's groups are asked for directly after the member was named, if it had not been
  expanded (`Search.Rule`).
* After a look-up that decides, nothing comes but the write of what it decides, or the end. So a
  principal that a record in force denies is not expanded.
* After a yes, of a look-up or of the cache, nothing comes but one yes written for each principal on
  the path, and the search says yes (`Search.Leads`).

A search is made up of steps that heed the rules without a yes (`Search.Goes`) and of parts that may
say yes in the end (`Search.Proceeds`); `Search.Cases.proceeds` puts them together. -/

namespace GrantPath

variable {σ : Type}

/-! ### Events and what stands before them -/

namespace Event

/-- What is decided by the records that a look-up found. -/
def verdict? : Event → Option Bool
  | call (.permissions ..) (.ok records) clock => Permission.verdict records clock.wall
  | _ => none

/-- Whether a look-up found a grant in force and no denial, or a yes was read in the cache. -/
def saysYes : Event → Bool
  | read _ found _ => found == some true
  | e => e.verdict? == some true

/-- Whether a principal's member or a member's groups were asked for. -/
def expands : Event → Bool
  | call (.groupMember _) _ _ => true
  | call (.parentGroups _) _ _ => true
  | _ => false

end Event

/-- The latest of these events, which stands first, is no look-up that decides. -/
def Calm (events : List Event) : Prop :=
  ∀ e ∈ events.head?, e.verdict? = none

theorem Calm.cons {e : Event} (he : e.verdict? = none) (events : List Event) :
    Calm (e :: events) := by
  intro e' he'
  obtain rfl := Option.mem_some.mp he'
  exact he

namespace Run

/-- The event happened from one run to the other, after those before it, of which the latest stands
first. -/
def Happens (r r' : Run σ) (e : Event) (before : List Event) : Prop :=
  r.journal <:+ before ∧ e :: before <:+ r'.journal

/-- Whatever happened from one run to the other heeds a rule, which may look at what had happened
before. -/
def Heeds (rule : Event → List Event → Prop) (r r' : Run σ) : Prop :=
  r.journal <:+ r'.journal ∧ ∀ e before, r.Happens r' e before → rule e before

variable {r m r' : Run σ} {e : Event} {before : List Event} {rule : Event → List Event → Prop}

/-- What happened on the way happened before or after a run in between. -/
theorem Happens.split (h : r.Happens r' e before) (hm : m.journal <:+ r'.journal) :
    r.Happens m e before ∨ m.Happens r' e before := by
  rcases List.suffix_or_suffix_of_suffix h.2 hm with hs | hs
  · exact .inl ⟨h.1, hs⟩
  · rcases List.suffix_cons_iff.mp hs with heq | hs
    · exact .inl ⟨h.1, heq ▸ List.suffix_refl _⟩
    · exact .inr ⟨hs, h.2⟩

theorem Happens.of_single {last : Event} (hj : r'.journal = last :: r.journal)
    (h : r.Happens r' e before) : e = last ∧ before = r.journal := by
  obtain ⟨hr, hr'⟩ := h
  rw [hj] at hr'
  rcases List.suffix_cons_iff.mp hr' with heq | hs
  · obtain ⟨he, hbefore⟩ := List.cons.inj heq
    exact ⟨he, hbefore⟩
  · have hlong := hs.length_le
    have hshort := hr.length_le
    rw [List.length_cons] at hlong
    omega

theorem Heeds.of_journal_eq (hj : r'.journal = r.journal) : Heeds rule r r' := by
  refine ⟨hj ▸ List.suffix_refl _, fun e before h => ?_⟩
  have hlong := h.2.length_le
  have hshort := h.1.length_le
  rw [hj, List.length_cons] at hlong
  omega

theorem Heeds.single (hj : r'.journal = e :: r.journal) (he : rule e r.journal) :
    Heeds rule r r' := by
  refine ⟨hj ▸ List.suffix_cons .., fun e' before h => ?_⟩
  obtain ⟨rfl, rfl⟩ := h.of_single hj
  exact he

theorem Heeds.trans (h : Heeds rule r m) (h' : Heeds rule m r') : Heeds rule r r' := by
  refine ⟨h.1.trans h'.1, fun e before he => ?_⟩
  rcases he.split h'.1 with he | he
  · exact h.2 e before he
  · exact h'.2 e before he

theorem Heeds.imp {rule' : Event → List Event → Prop} (h : Heeds rule r r')
    (himp : ∀ e before, rule e before → rule' e before) : Heeds rule' r r' :=
  ⟨h.1, fun e before he => himp e before (h.2 e before he)⟩

end Run

namespace Search

open Run (Heeds)

/-! ### The graph of a search -/

section graph

variable {s : Search σ} {p : Principal} {m g : GroupMember} {r : Run σ}

theorem lookUp_eq {answer : Except Error (List Permission)} (h : (s.lookUp p r).1 = answer) :
    s.lookUp p r = (answer, s.looked p r) := Prod.ext h rfl

theorem named_eq {answer : Except Error GroupMember}
    (h : ((s.looked p r).ask s.service (.groupMember p)).1 = answer) :
    (s.looked p r).ask s.service (.groupMember p) = (answer, s.named p r) := Prod.ext h rfl

theorem expanded_eq {answer : Except Error (List GroupMember)}
    (h : (((s.named p r).see m).ask s.service (.parentGroups m)).1 = answer) :
    ((s.named p r).see m).ask s.service (.parentGroups m) = (answer, s.expanded p m r) :=
  Prod.ext h rfl

theorem addressed_eq {answer : Except Error Principal}
    (h : (r.ask s.service (.newPrincipal g)).1 = answer) :
    r.ask s.service (.newPrincipal g) = (answer, s.addressed r g) := Prod.ext h rfl

end graph

/-- The cases of a search with what it computes in each. -/
theorem Cases.graph (s : Search σ) :
    s.Cases (fun n p r out => out = s.resolve n p r)
      (fun n p r out => out = s.cached (s.resolve n) p r)
      (fun n gs r out => out = s.anyGroup (s.cached (s.resolve n)) gs r) where
  lookUpFails {n p r e} hl := by
    cases n <;> simp only [Search.resolve, Search.visit, lookUp_eq hl]
  decided {n p r records granted} hf := by
    cases n <;> simp only [Search.resolve, Search.visit, lookUp_eq hf.1, hf.2]
  noStepLeft hf := by
    simp only [Search.resolve, Search.visit, lookUp_eq hf.1, hf.2]
  memberFails hf hm := by
    simp only [Search.resolve, Search.visit, climb, Run.enter, lookUp_eq hf.1, hf.2, named_eq hm]
  metBefore {n p r records m} hf hn hm := by
    have hm : m ∈ (s.named p r).seen := hm
    simp only [Search.resolve, Search.visit, climb, Run.enter, lookUp_eq hf.1, hf.2, named_eq hn,
      if_pos hm]
  groupsFail {n p r records m e} hf hn hm hg := by
    have hm : m ∉ (s.named p r).seen := hm
    simp only [Search.resolve, Search.visit, climb, Run.enter, lookUp_eq hf.1, hf.2, named_eq hn,
      if_neg hm, expanded_eq hg]
  climbed {n p r records m groups out} hf hn hm hg _ ht := by
    have hm : m ∉ (s.named p r).seen := hm
    simp only [Search.resolve, Search.visit, climb, Run.enter, lookUp_eq hf.1, hf.2, named_eq hn,
      if_neg hm, expanded_eq hg, ← ht]
  noGroupLeft := rfl
  noPrincipal hq _ ht := by
    simp only [anyGroup, evaluateGroup, addressed_eq hq, ← ht]
  granted hq _ hc := by
    simp only [anyGroup, evaluateGroup, addressed_eq hq, ← hc]
  refused {n g gs q r r' outcome out} hq _ hc hno _ ht := by
    simp only [anyGroup, evaluateGroup, addressed_eq hq, ← hc]
    rcases outcome with e | ⟨_ | _⟩
    · exact ht
    · exact ht
    · exact absurd rfl hno
  hit hk := by
    unfold Search.cached Run.getOrCompute
    rw [Run.readCache_of_knows hk]
  computed {n p r granted r'} hmiss _ hv := by
    have hv : s.resolve n p ((r.readCache (s.scope.key p)).2.count .cacheMiss) =
      (.ok granted, r') := hv.symm
    unfold Search.cached Run.getOrCompute
    rw [Run.readCache_of_not_knows hmiss]
    simp only [hv]
  notComputed {n p r e r'} hmiss _ hv := by
    have hv : s.resolve n p ((r.readCache (s.scope.key p)).2.count .cacheMiss) =
      (.error e, r') := hv.symm
    unfold Search.cached Run.getOrCompute
    rw [Run.readCache_of_not_knows hmiss]
    simp only [hv]

/-! ### Places and rules -/

/-- A place in a search. -/
inductive Place where
  /-- A principal is decided through the cache. -/
  | consultation (p : Principal)
  /-- A principal is visited. -/
  | visit (p : Principal)
  /-- These groups are still to be tried. -/
  | trial (groups : List GroupMember)

section rules

variable (s : Search σ) (start : Place) (begun : Run σ)

/-- From where it has begun a search comes to a place, with so many steps left. The path lists the
principals whose groups are being tried, the innermost first. -/
inductive Comes : List Principal → Nat → Place → Run σ → Prop
  | start : Comes [] s.limit start begun
  | missed {path : List Principal} {k : Nat} {p : Principal} {r : Run σ} :
      Comes path k (.consultation p) r → (∀ allowed, ¬ r.Knows (s.scope.key p) allowed) →
      Comes path k (.visit p) (s.missed p r)
  | climbed {path : List Principal} {k : Nat} {p : Principal} {r : Run σ}
      {records : List Permission} {m : GroupMember} {groups : List GroupMember} :
      Comes path (k + 1) (.visit p) r → s.Finds p r records none → s.Names p m r → m ∉ r.seen →
      (((s.named p r).see m).ask s.service (.parentGroups m)).1 = .ok groups →
      Comes (p :: path) k (.trial groups) (s.expanded p m r)
  | noPrincipal {path : List Principal} {k : Nat} {g : GroupMember} {gs : List GroupMember}
      {r : Run σ} {e : Error} :
      Comes path k (.trial (g :: gs)) r → (r.ask s.service (.newPrincipal g)).1 = .error e →
      Comes path k (.trial gs) ((s.addressed r g).count .branchFailure)
  | addressed {path : List Principal} {k : Nat} {g : GroupMember} {gs : List GroupMember}
      {q : Principal} {r : Run σ} :
      Comes path k (.trial (g :: gs)) r → (r.ask s.service (.newPrincipal g)).1 = .ok q →
      Comes path k (.consultation q) (s.addressed r g)
  | refused {path : List Principal} {k : Nat} {g : GroupMember} {gs : List GroupMember}
      {q : Principal} {r r' : Run σ} {outcome : Except Error Bool} :
      Comes path k (.trial (g :: gs)) r → (r.ask s.service (.newPrincipal g)).1 = .ok q →
      s.cached (s.resolve k) q (s.addressed r g) = (outcome, r') → outcome ≠ .ok true →
      Comes path k (.trial gs) (passedOver outcome r')

/-- What an event has to heed, given what stands before it. -/
structure Rule (e : Event) (before : List Event) : Prop where
  /-- A member is asked for directly after the look-up of its principal's records, of which none was
  in force, and where fewer memberships have been followed than the limit says. -/
  member : ∀ p answer clock, e = .call (.groupMember p) answer clock →
    ∃ path k r records lookedAt, s.Comes start begun path (k + 1) (.visit p) r ∧
      path.length < s.limit ∧
      before = .call (.permissions p s.scope.owner s.scope.activity s.scope.target) (.ok records)
        lookedAt :: r.journal ∧
      ∀ record ∈ records, record.isActiveAt lookedAt.wall = false
  /-- The groups of a member are asked for directly after it was named, if it was not expanded. -/
  groups : ∀ m answer clock, e = .call (.parentGroups m) answer clock →
    ∃ path k p r namedAt, s.Comes start begun path (k + 1) (.visit p) r ∧ m ∉ r.seen ∧
      before = .call (.groupMember p) (.ok m) namedAt :: (s.looked p r).journal
  /-- Directly after a look-up that decides its decision is written. -/
  decided : ∀ d earlier granted, before = d :: earlier → d.verdict? = some granted →
    ∃ p records clock,
      d = .call (.permissions p s.scope.owner s.scope.activity s.scope.target) (.ok records) clock ∧
      e = .write (s.scope.key p) granted clock

/-- The event says yes, and the principals are those on the path that ends there who are still to be
answered. -/
inductive Says (e : Event) (before : List Event) : List Principal → Prop
  | lookUp {path : List Principal} {k : Nat} {p : Principal} {r : Run σ}
      {records : List Permission} : s.Comes start begun path k (.visit p) r →
      s.Finds p r records (some true) → e :: before = (s.looked p r).journal →
      Says e before (p :: path)
  | hit {path : List Principal} {k : Nat} {p : Principal} {r : Run σ} :
      s.Comes start begun path k (.consultation p) r → r.Knows (s.scope.key p) true →
      e = .read (s.scope.key p) (some true) r.clock → before = r.journal → Says e before path

/-- From one run to the other the search heeds the rules, and nothing says yes. -/
def Goes (r r' : Run σ) : Prop :=
  Heeds (fun e before => s.Rule start begun e before ∧ e.saysYes = false) r r'

/-- If something says yes from one run to the other, then nothing comes after it but a yes written
for each principal on the path down to the base, and that is the answer. -/
def Leads (base : List Principal) (yes : Prop) (r r' : Run σ) : Prop :=
  ∀ e before, r.Happens r' e before → e.saysYes = true →
    yes ∧ ∃ inner, s.Says start begun e before (inner ++ base) ∧
      r'.journal =
        (inner.map fun p => .write (s.scope.key p) true r'.clock).reverse ++ e :: before

/-- From one run to the other the search heeds the rules, and it leads from a yes to a yes. -/
structure Proceeds (base : List Principal) (yes : Prop) (r r' : Run σ) : Prop where
  heeds : Heeds (s.Rule start begun) r r'
  leads : s.Leads start begun base yes r r'

/-- If a visit of a principal ends with a look-up that decides, it is the visit's own and the visit
says what it decides. -/
def Concludes (p : Principal) (out : Except Error Bool × Run σ) : Prop :=
  ∀ d ∈ out.2.journal.head?, ∀ granted, d.verdict? = some granted → out.1 = .ok granted ∧
    ∃ records, d = .call (.permissions p s.scope.owner s.scope.activity s.scope.target)
      (.ok records) out.2.clock

end rules

variable {s : Search σ} {start : Place} {begun : Run σ} {path base : List Principal} {k : Nat}
  {p : Principal} {m g : GroupMember} {r r' r₁ : Run σ} {e : Event} {before : List Event}
  {records : List Permission} {yes : Prop}

/-- Each principal on the path has taken a step. -/
theorem Comes.depth {place : Place} (h : s.Comes start begun path k place r) :
    path.length + k = s.limit := by
  induction h with
  | start => exact Nat.zero_add _
  | climbed _ _ _ _ _ ih =>
      rw [List.length_cons]
      omega
  | missed _ _ ih => exact ih
  | noPrincipal _ _ ih => exact ih
  | addressed _ _ ih => exact ih
  | refused _ _ _ _ ih => exact ih

/-- What expands nothing heeds the rules unless a look-up before it decides. -/
theorem Rule.of_calm (he : e.expands = false) (hb : Calm before) :
    s.Rule start begun e before where
  member p answer clock h := by
    subst h
    cases he
  groups m answer clock h := by
    subst h
    cases he
  decided d earlier granted h hd := by
    subst h
    rw [hb d rfl] at hd
    cases hd

/-! ### Putting parts together -/

theorem Goes.trans (h : s.Goes start begun r r₁) (h' : s.Goes start begun r₁ r') :
    s.Goes start begun r r' := Heeds.trans h h'

theorem Goes.of_journal_eq (hj : r'.journal = r.journal) : s.Goes start begun r r' :=
  Heeds.of_journal_eq hj

theorem Goes.proceeds (h : s.Goes start begun r r₁) (h' : s.Proceeds start begun base yes r₁ r') :
    s.Proceeds start begun base yes r r' where
  heeds := (Heeds.imp h fun _ _ he => he.1).trans h'.heeds
  leads e before he hyes := by
    rcases he.split h'.heeds.1 with he | he
    · rw [(h.2 e before he).2] at hyes
      cases hyes
    · exact h'.leads e before he hyes

theorem Proceeds.of_goes (h : s.Goes start begun r r') : s.Proceeds start begun base yes r r' where
  heeds := Heeds.imp h fun _ _ he => he.1
  leads e before he hyes := by
    rw [(h.2 e before he).2] at hyes
    cases hyes

/-- Without a yes in the end there was none on the way. -/
theorem Proceeds.goes (h : s.Proceeds start begun base yes r r') (hno : ¬ yes) :
    s.Goes start begun r r' := by
  refine ⟨h.heeds.1, fun e before he => ⟨h.heeds.2 e before he, ?_⟩⟩
  by_contra hyes
  exact hno (h.leads e before he (Bool.eq_true_of_not_eq_false hyes)).1

/-- The write of a decision answers its principal. -/
theorem Proceeds.write {granted : Bool}
    (h : s.Proceeds start begun (p :: path) (granted = true) r r')
    (hconcludes : s.Concludes p (.ok granted, r')) :
    s.Proceeds start begun path (granted = true) r (r'.writeCache (s.scope.key p) granted) := by
  have hj := r'.writeCache_journal (s.scope.key p) granted
  have hsuffix : r'.journal <:+ (r'.writeCache (s.scope.key p) granted).journal :=
    hj ▸ List.suffix_cons ..
  refine ⟨h.heeds.trans (.single hj ⟨nofun, nofun, ?_⟩), ?_⟩
  · intro d earlier decision hbefore hd
    obtain ⟨hgranted, records, rfl⟩ := hconcludes d (by rw [hbefore]; rfl) decision hd
    obtain rfl := Except.ok.inj hgranted
    exact ⟨p, records, r'.clock, rfl, rfl⟩
  · intro e before he hyes
    rcases he.split hsuffix with he | he
    · obtain ⟨rfl, inner, hsays, hafter⟩ := h.leads e before he hyes
      refine ⟨rfl, inner ++ [p], ?_, ?_⟩
      · rwa [List.append_assoc, List.singleton_append]
      · rw [hj, hafter, Run.writeCache_clock, List.map_append, List.reverse_append]
        rfl
    · obtain ⟨rfl, -⟩ := he.of_single hj
      cases hyes

theorem Concludes.of_calm {out : Except Error Bool × Run σ} (h : Calm out.2.journal) :
    s.Concludes p out := by
  intro d hd granted hverdict
  rw [h d hd] at hverdict
  cases hverdict

/-! ### The parts of a visit -/

/-- A look-up that decides nothing. -/
theorem goes_looked (hcalm : Calm r.journal) {answer : Except Error (List Permission)}
    (hl : (s.lookUp p r).1 = answer)
    (hno : (Event.call (.permissions p s.scope.owner s.scope.activity s.scope.target) answer
      (s.looked p r).clock).verdict? = none) :
    s.Goes start begun r (s.looked p r) ∧ Calm (s.looked p r).journal := by
  refine ⟨.single (s.looked_journal hl) ⟨.of_calm rfl hcalm, ?_⟩, ?_⟩
  · show (Event.verdict? _ == some true) = false
    rw [hno]
    rfl
  · rw [s.looked_journal hl]
    exact .cons hno _

theorem goes_named (hc : s.Comes start begun path (k + 1) (.visit p) r)
    (hf : s.Finds p r records none) {answer : Except Error GroupMember}
    (hm : ((s.looked p r).ask s.service (.groupMember p)).1 = answer) :
    s.Goes start begun (s.looked p r) (s.named p r) ∧ Calm (s.named p r).journal := by
  have hlooked := s.looked_journal hf.1
  have hdepth := hc.depth
  refine ⟨.single (s.named_journal hm) ⟨⟨?_, nofun, ?_⟩, rfl⟩, ?_⟩
  · intro q _ _ h
    obtain rfl : p = q := by
      cases h
      rfl
    exact ⟨path, k, r, records, (s.looked p r).clock, hc, by omega, hlooked,
      Permission.verdict_eq_none_iff.mp hf.2⟩
  · intro d earlier granted hbefore hd
    rw [hlooked] at hbefore
    obtain ⟨rfl, -⟩ := List.cons.inj hbefore
    have hd : Permission.verdict records (s.looked p r).clock.wall = some granted := hd
    rw [hf.2] at hd
    cases hd
  · rw [s.named_journal hm]
    exact .cons rfl _

theorem goes_expanded (hc : s.Comes start begun path (k + 1) (.visit p) r) (hn : s.Names p m r)
    (hm : m ∉ r.seen) {answer : Except Error (List GroupMember)}
    (hg : (((s.named p r).see m).ask s.service (.parentGroups m)).1 = answer) :
    s.Goes start begun (s.named p r) (s.expanded p m r) ∧ Calm (s.expanded p m r).journal := by
  have hnamed := s.named_journal hn
  refine ⟨.single (s.expanded_journal hg) ⟨⟨nofun, ?_, ?_⟩, rfl⟩, ?_⟩
  · intro m' _ _ h
    obtain rfl : m = m' := by
      cases h
      rfl
    exact ⟨path, k, p, r, (s.named p r).clock, hc, hm, hnamed⟩
  · intro d earlier granted hbefore hd
    rw [hnamed] at hbefore
    obtain ⟨rfl, -⟩ := List.cons.inj hbefore
    cases hd
  · rw [s.expanded_journal hg]
    exact .cons rfl _

theorem goes_addressed (hcalm : Calm r.journal) :
    s.Goes start begun r (s.addressed r g) ∧ Calm (s.addressed r g).journal :=
  ⟨.single rfl ⟨.of_calm rfl hcalm, rfl⟩, .cons rfl _⟩

theorem goes_missed (hcalm : Calm r.journal)
    (hmiss : ∀ allowed, ¬ r.Knows (s.scope.key p) allowed) :
    s.Goes start begun r (s.missed p r) ∧ Calm (s.missed p r).journal := by
  have hj := s.missed_journal hmiss
  refine ⟨.single hj ⟨.of_calm rfl hcalm, rfl⟩, ?_⟩
  rw [hj]
  exact .cons rfl _

theorem proceeds_decided {granted : Bool} (hc : s.Comes start begun path k (.visit p) r)
    (hcalm : Calm r.journal) (hf : s.Finds p r records (some granted)) :
    s.Proceeds start begun (p :: path) ((.ok granted : Except Error Bool) = .ok true) r
      (s.looked p r) := by
  have hlooked := s.looked_journal hf.1
  refine ⟨.single hlooked (.of_calm rfl hcalm), fun e before he hyes => ?_⟩
  obtain ⟨rfl, rfl⟩ := he.of_single hlooked
  have hyes : (Permission.verdict records (s.looked p r).clock.wall == some true) = true := hyes
  rw [hf.2] at hyes
  obtain rfl : granted = true := Option.some.inj (eq_of_beq hyes)
  exact ⟨rfl, [], .lookUp hc hf hlooked.symm, hlooked⟩

theorem proceeds_hit {granted : Bool} (hc : s.Comes start begun path k (.consultation p) r)
    (hcalm : Calm r.journal) (hk : r.Knows (s.scope.key p) granted) :
    s.Proceeds start begun path ((.ok granted : Except Error Bool) = .ok true) r
      ((r.readCache (s.scope.key p)).2.count .cacheHit) := by
  have hj := s.hit_journal hk
  refine ⟨.single hj (.of_calm rfl hcalm), fun e before he hyes => ?_⟩
  obtain ⟨rfl, rfl⟩ := he.of_single hj
  obtain rfl : granted = true := Option.some.inj (eq_of_beq hyes)
  exact ⟨rfl, [], .hit hc hk rfl rfl, hj⟩

/-! ### The whole search -/

/-- A visit proceeds from the principal visited, a consultation and a trial from the end of the path
that leads there. -/
theorem Cases.proceeds (s : Search σ) (start : Place) (begun : Run σ) :
    s.Cases
      (fun n p r out => out = s.resolve n p r ∧ ∀ path, s.Comes start begun path n (.visit p) r →
        Calm r.journal → s.Proceeds start begun (p :: path) (out.1 = .ok true) r out.2 ∧
          s.Concludes p out)
      (fun n p r out => out = s.cached (s.resolve n) p r ∧
        ∀ path, s.Comes start begun path n (.consultation p) r → Calm r.journal →
          s.Proceeds start begun path (out.1 = .ok true) r out.2 ∧ Calm out.2.journal)
      (fun n gs r out => out = s.anyGroup (s.cached (s.resolve n)) gs r ∧
        ∀ path, s.Comes start begun path n (.trial gs) r → Calm r.journal →
          s.Proceeds start begun path (out.1 = true) r out.2 ∧ Calm out.2.journal) where
  lookUpFails hl := by
    refine ⟨(Cases.graph s).lookUpFails hl, fun path hc hcalm => ?_⟩
    obtain ⟨hgoes, hcalm⟩ := goes_looked hcalm hl rfl
    exact ⟨.of_goes hgoes, .of_calm hcalm⟩
  decided {n p r records granted} hf := by
    refine ⟨(Cases.graph s).decided hf, fun path hc hcalm => ⟨proceeds_decided hc hcalm hf, ?_⟩⟩
    intro d hd decision hdecision
    rw [s.looked_journal hf.1] at hd
    obtain rfl := Option.mem_some.mp hd
    have hdecision : Permission.verdict records (s.looked p r).clock.wall = some decision :=
      hdecision
    rw [hf.2] at hdecision
    obtain rfl := Option.some.inj hdecision
    exact ⟨rfl, records, rfl⟩
  noStepLeft hf := by
    refine ⟨(Cases.graph s).noStepLeft hf, fun path hc hcalm => ?_⟩
    obtain ⟨hgoes, hcalm⟩ := goes_looked hcalm hf.1 hf.2
    exact ⟨.of_goes hgoes, .of_calm hcalm⟩
  memberFails hf hm := by
    refine ⟨(Cases.graph s).memberFails hf hm, fun path hc hcalm => ?_⟩
    obtain ⟨hlooked, -⟩ := goes_looked hcalm hf.1 hf.2
    obtain ⟨hnamed, hcalm⟩ := goes_named hc hf hm
    exact ⟨.of_goes (hlooked.trans hnamed), .of_calm hcalm⟩
  metBefore {n p r records m} hf hn hm := by
    refine ⟨(Cases.graph s).metBefore hf hn hm, fun path hc hcalm => ?_⟩
    obtain ⟨hlooked, -⟩ := goes_looked hcalm hf.1 hf.2
    obtain ⟨hnamed, hcalm⟩ := goes_named hc hf hn
    have hcounted : s.Goes start begun (s.named p r) ((s.named p r).count .cycleGuardHit) :=
      .of_journal_eq rfl
    exact ⟨.of_goes ((hlooked.trans hnamed).trans hcounted), .of_calm hcalm⟩
  groupsFail hf hn hm hg := by
    refine ⟨(Cases.graph s).groupsFail hf hn hm hg, fun path hc hcalm => ?_⟩
    obtain ⟨hlooked, -⟩ := goes_looked hcalm hf.1 hf.2
    obtain ⟨hnamed, -⟩ := goes_named hc hf hn
    obtain ⟨hexpanded, hcalm⟩ := goes_expanded hc hn hm hg
    exact ⟨.of_goes ((hlooked.trans hnamed).trans hexpanded), .of_calm hcalm⟩
  climbed hf hn hm hg hreach ht := by
    refine ⟨(Cases.graph s).climbed hf hn hm hg hreach ht.1, fun path hc hcalm => ?_⟩
    obtain ⟨hlooked, -⟩ := goes_looked hcalm hf.1 hf.2
    obtain ⟨hnamed, -⟩ := goes_named hc hf hn
    obtain ⟨hexpanded, hcalm⟩ := goes_expanded hc hn hm hg
    obtain ⟨htried, hcalm⟩ := ht.2 _ (.climbed hc hf hn hm hg) hcalm
    refine ⟨?_, .of_calm hcalm⟩
    rw [Except.ok.injEq]
    exact ((hlooked.trans hnamed).trans hexpanded).proceeds htried
  noGroupLeft := ⟨rfl, fun path hc hcalm => ⟨.of_goes (.of_journal_eq rfl), hcalm⟩⟩
  noPrincipal {n g gs r e out} hq hreach ht := by
    refine ⟨(Cases.graph s).noPrincipal hq hreach ht.1, fun path hc hcalm => ?_⟩
    obtain ⟨haddressed, hcalm⟩ := goes_addressed hcalm
    have hcounted : s.Goes start begun (s.addressed r g) ((s.addressed r g).count .branchFailure) :=
      .of_journal_eq rfl
    obtain ⟨htried, hcalm⟩ := ht.2 path (.noPrincipal hc hq) hcalm
    exact ⟨(haddressed.trans hcounted).proceeds htried, hcalm⟩
  granted hq hreach hcons := by
    refine ⟨(Cases.graph s).granted hq hreach hcons.1, fun path hc hcalm => ?_⟩
    obtain ⟨haddressed, hcalm⟩ := goes_addressed hcalm
    obtain ⟨hconsulted, hcalm⟩ := hcons.2 path (.addressed hc hq) hcalm
    rw [Except.ok.injEq] at hconsulted
    exact ⟨haddressed.proceeds hconsulted, hcalm⟩
  refused {n g gs q r r' outcome out} hq hreach hcons hno hreach' ht := by
    refine ⟨(Cases.graph s).refused hq hreach hcons.1 hno hreach' ht.1, fun path hc hcalm => ?_⟩
    obtain ⟨haddressed, hcalm⟩ := goes_addressed hcalm
    obtain ⟨hconsulted, hcalm⟩ := hcons.2 path (.addressed hc hq) hcalm
    have hj : (passedOver outcome r').journal = r'.journal := passedOver_journal r' outcome
    obtain ⟨htried, hcalm⟩ := ht.2 path (.refused hc hq hcons.1.symm hno) (hj ▸ hcalm)
    refine ⟨?_, hcalm⟩
    exact ((haddressed.trans (hconsulted.goes hno)).trans (.of_journal_eq hj)).proceeds htried
  hit hk := by
    refine ⟨(Cases.graph s).hit hk, fun path hc hcalm => ⟨proceeds_hit hc hcalm hk, ?_⟩⟩
    rw [s.hit_journal hk]
    exact .cons rfl _
  computed {n p r granted r'} hmiss hreach hv := by
    refine ⟨(Cases.graph s).computed hmiss hreach hv.1, fun path hc hcalm => ?_⟩
    obtain ⟨hmissed, hcalm⟩ := goes_missed hcalm hmiss
    obtain ⟨hvisited, hconcludes⟩ := hv.2 path (.missed hc hmiss) hcalm
    rw [Except.ok.injEq] at hvisited ⊢
    refine ⟨hmissed.proceeds (hvisited.write hconcludes), ?_⟩
    rw [Run.writeCache_journal]
    exact .cons rfl _
  notComputed {n p r e r'} hmiss hreach hv := by
    refine ⟨(Cases.graph s).notComputed hmiss hreach hv.1, fun path hc hcalm => ?_⟩
    obtain ⟨hmissed, hcalm⟩ := goes_missed hcalm hmiss
    obtain ⟨hvisited, hconcludes⟩ := hv.2 path (.missed hc hmiss) hcalm
    refine ⟨.of_goes (hmissed.trans (hvisited.goes nofun)), ?_⟩
    intro d hd
    by_contra hdecides
    obtain ⟨granted, hgranted⟩ := Option.ne_none_iff_exists'.mp hdecides
    cases (hconcludes d hd granted hgranted).1

/-- What the journal of a search says that began at a place, in the run `begun`, and had this
outcome. The base lists the principals whose answer is not written into the cache. -/
structure Disciplined (s : Search σ) (start : Place) (begun : Run σ) (base : List Principal)
    (out : Except Error Bool × Run σ) : Prop where
  rules : ∀ e before, begun.Happens out.2 e before → s.Rule start begun e before
  /-- Where a record in force denies, nothing follows the look-up but a no written for its
  principal. -/
  denied : ∀ p records clock before e,
    begun.Happens out.2 e (.call (.permissions p s.scope.owner s.scope.activity s.scope.target)
      (.ok records) clock :: before) →
    (∃ record ∈ records, record.isActiveAt clock.wall = true ∧ record.effect = .deny) →
    e = .write (s.scope.key p) false clock
  /-- After a yes, of a look-up or of the cache, nothing is asked for or read any more: a yes is
  written for each principal on the path, and the search says yes. -/
  yes : ∀ e before, begun.Happens out.2 e before → e.saysYes = true →
    out.1 = .ok true ∧ ∃ inner, s.Says start begun e before (inner ++ base) ∧
      out.2.journal =
        (inner.map fun p => .write (s.scope.key p) true out.2.clock).reverse ++ e :: before
  /-- Nothing is overrun as long as the clock can show when decisions expire. -/
  overrun : out.2.cache.outlivesClock out.2.clock.elapsed = false → out.2.overrun = begun.overrun

theorem Disciplined.of_proceeds {out : Except Error Bool × Run σ}
    (h : s.Proceeds start begun base (out.1 = .ok true) begun out.2)
    (hreach : Run.Reaches s.service begun out.2) : s.Disciplined start begun base out where
  rules := h.heeds.2
  denied p records clock before e he hdenied := by
    obtain ⟨p', records', clock', hsame, hwrite⟩ := (h.heeds.2 e _ he).decided _ before false rfl
      (Permission.verdict_eq_some_false_iff.mpr hdenied)
    cases hsame
    exact hwrite
  yes := h.leads
  overrun := hreach.overrun_eq_of_last

/-- Whatever the collaborators answer, and as often as they change their minds, a search through the
cache or beside it keeps to this order.

* It asks for the member of a principal directly after it has looked up the principal's records, if
  none of them is in force and a chain may follow one more membership; and for the groups of a
  member directly after the member was named, if it had not been expanded.
* It does not expand a principal that a record in force denies.
* As soon as a look-up finds a grant in force and no denial, or a yes is read in the cache, it asks
  for nothing and reads nothing any more. Every principal on the path that leads there is answered
  yes, and so is the search. -/
theorem disciplined (s : Search σ) (seen : SeenGroups) (p : Principal) (r : Run σ) :
    let begun := r.beginSearch (s.scope.key p) seen
    s.Disciplined (.consultation p) begun [] (s.run seen p r) ∧
      s.Disciplined (.visit p) begun [p] (s.runAnew seen p r) := by
  intro begun
  have hcalm : Calm begun.journal := .cons rfl r.journal
  constructor
  · have hconsulted := ((Cases.proceeds s (.consultation p) begun).cached s.limit p begun).2 []
      .start hcalm
    exact .of_proceeds hconsulted.1 (s.cached_reaches s.limit p begun)
  · have hvisited := ((Cases.proceeds s (.visit p) begun).resolve s.limit p begun).2 [] .start hcalm
    exact .of_proceeds hvisited.1 (s.resolve_reaches s.limit p begun)

/-- A person in three groups: the first is denied what a group of the second is granted. -/
def vetoDirectory : StagedDirectory where
  directory := ({} : Directory).changes
    [.addMembership ⟨.person, "alice"⟩ "a", .addMembership ⟨.person, "alice"⟩ "b",
      .addMembership ⟨.person, "alice"⟩ "d", .addMembership ⟨.group, "a"⟩ "c",
      .addMembership ⟨.group, "b"⟩ "c",
      .addPermission (.assign ⟨.group, "a"⟩ "O" "ACT" "T" .deny),
      .addPermission (.assign ⟨.group, "c"⟩ "O" "ACT" "T" .grant)]

/-- A search from the person with an empty cache. -/
def vetoRun : Run StagedDirectory where
  state := vetoDirectory
  clock := .startingAt 0 0
  cache := .timed { ttl := 60, capacity := 0 }

/-- The first group is not expanded, and nothing is asked after the grant: the last group is not
tried. The three principals on the path to the grant are answered yes. -/
theorem disciplined_past_denial :
    let s : Search StagedDirectory := ⟨StagedDirectory.service, ⟨"O", "ACT", some "T"⟩, 2⟩
    let alice : Principal := ⟨.person, "alice"⟩
    let records (p : Principal) : Request := .permissions p "O" "ACT" (some "T")
    let out := s.run .empty alice vetoRun
    s.Disciplined (.consultation alice) (vetoRun.beginSearch (s.scope.key alice) .empty) [] out ∧
      out.1 = .ok true ∧
      out.2.requests = [records alice, .groupMember alice, .parentGroups ⟨.person, "alice"⟩,
        .newPrincipal ⟨.group, "a"⟩, records ⟨.group, "a"⟩,
        .newPrincipal ⟨.group, "b"⟩, records ⟨.group, "b"⟩, .groupMember ⟨.group, "b"⟩,
        .parentGroups ⟨.group, "b"⟩, .newPrincipal ⟨.group, "c"⟩, records ⟨.group, "c"⟩] ∧
      out.2.cache.entries.map (fun entry => (entry.1.principal, entry.2.allowed)) =
        [("person.alice", true), ("group.b", true), ("group.c", true), ("group.a", false)] := by
  intro s alice records out
  exact ⟨(s.disciplined .empty alice vetoRun).1, by decide +kernel, by decide +kernel,
    by decide +kernel⟩

end Search

end GrantPath
