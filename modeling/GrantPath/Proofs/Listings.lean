import GrantPath.Directory.Listing
import GrantPath.Proofs.Tables
import GrantPath.Proofs.WrittenPrincipals

/-! # What a listed directory answers

A listing is refused because of the first principal in it that is not well written, memberships
before records. Otherwise its directory answers exactly what the listing says
(`Directory.ofListing_answers`); `Listing.Describes` spells that out, question by question.
`Directory.ofListing_cases` says how the directory is put together, and each section is followed on
its own from there.

* Definitions are stored one after the other, those of the system first and the collective targets
  last, so the last one under a name is found (`ofDefinitions_eq`).
* The groups of a member are the groups of all its memberships, in ascending order
  (`mem_groupKeys_addEdges`, `ascending_addEdges`).
* Records are kept as they are listed.

Since a principal and its written form determine each other, every listed record is found by the
look-ups of one principal and of no other (`Principal.written_form`). -/

namespace GrantPath

/-- Why a text is not read as a principal, if it is not. -/
def Principal.fault? (s : String) : Option ArgumentFault :=
  match parse s with
  | .ok _ => none
  | .error fault => some fault

namespace Principal

theorem fault?_eq_some_iff {s : String} {fault : ArgumentFault} :
    fault? s = some fault ↔ parse s = .error fault := by
  unfold fault?
  cases parse s <;> simp

theorem fault?_eq_none_iff {s : String} : fault? s = none ↔ WellWritten s := by
  rw [← exists_parse_eq_ok_iff]
  unfold fault?
  cases parse s <;> simp

end Principal

/-! ### What a listing says -/

/-- The names of the owner and of the activity. -/
def ListedActivity.names (a : ListedActivity) : String × String :=
  (a.owner, a.activity.fname)

/-- The keys of the provider and of the target. -/
def ListedTarget.names (t : ListedTarget) : String × String :=
  (t.provider, t.target.key)

namespace Listing

/-- The principals of a listing in the order in which they are read. -/
def principals (l : Listing) : List String :=
  l.memberships.map (·.member) ++ l.permissions.map (·.principal)

/-- All owners, those of the system first. -/
def allOwners (l : Listing) : List Owner :=
  (if l.systemDefaults then [⟨systemOwner, "Portal System"⟩] else []) ++ l.owners

/-- All activities, those of the system first. -/
def allActivities (l : Listing) : List ListedActivity :=
  (if l.systemDefaults then
    [⟨systemOwner, ⟨allPermissions, "All Permissions", allTargetsProvider⟩⟩] else []) ++
    l.activities

/-- All targets: those of the system first, the collective targets of providers last. -/
def allTargets (l : Listing) : List ListedTarget :=
  (if l.systemDefaults then [⟨allTargetsProvider, ⟨allTarget, "All", .other⟩⟩] else []) ++
    l.targets ++
    l.collectiveProviders.flatMap fun provider => Directory.collectiveTargets.map (.mk provider)

/-- The edges from members, as they are written, to the groups they are listed with. -/
def edges (l : Listing) : List (String × String) :=
  l.memberships.flatMap fun m => m.groups.map (m.member, ·)

/-- The directory answers every question by what the listing says. -/
structure Describes (l : Listing) (d : Directory) : Prop where
  /-- Records are found by principal, owner, activity and target, in the listed order. -/
  permissionsFor : ∀ (p : Principal) (owner activity : String) (target : Option String),
    d.permissionsFor p owner activity target = .ok (l.permissions.filter fun r =>
      r.principal = p.text ∧ r.owner = owner ∧ r.activity = activity ∧ r.target = target.getD "")
  /-- The groups of a member are those of all its memberships, ascending and each one once. -/
  parentGroups : ∀ m : GroupMember, ∃ groups : List String,
    d.parentGroups m = .ok (groups.map (⟨.group, ·⟩)) ∧ groups.Pairwise (· < ·) ∧
      ∀ g, g ∈ groups ↔ ((Principal.ofMember m).text, g) ∈ l.edges
  resolveOwner : ∀ fname : String,
    d.resolveOwner fname = .ok (l.allOwners.filter (·.fname = fname)).getLast?
  resolveActivity : ∀ owner fname : String, d.resolveActivity owner fname =
    .ok ((l.allActivities.filter (·.names = (owner, fname))).getLast?.map
      (·.activity))
  resolveTarget : ∀ provider key : String, d.resolveTarget provider key =
    if provider ∈ l.allTargets.map (·.provider) then
      .ok ((l.allTargets.filter (·.names = (provider, key))).getLast?.map
        (·.target))
    else .error (.unknownTargetProvider provider)
  /-- Definitions and edges are counted without repetitions, records with them. -/
  summary : d.summary =
    { owners := (l.allOwners.map (·.fname)).dedup.length
      activities := (l.allActivities.map (·.names)).dedup.length
      targets := (l.allTargets.map (·.names)).dedup.length
      memberships := l.edges.dedup.length
      permissions := l.permissions.length }

end Listing

namespace Directory

/-! ### Groups of members -/

/-- The keys of the groups of a member. -/
def groupKeys (d : Directory) (m : GroupMember) : List String :=
  (d.parents.get? m).getD []

theorem insertKey_ascending {k : String} {xs : List String} (h : xs.Pairwise (· < ·)) :
    (insertKey k xs).Pairwise (· < ·) := by
  induction xs with
  | nil => simp [insertKey]
  | cons x xs ih =>
      obtain ⟨hx, hxs⟩ := List.pairwise_cons.mp h
      unfold insertKey
      split
      · rename_i hlt
        refine List.pairwise_cons.mpr ⟨?_, h⟩
        intro y hy
        cases List.mem_cons.mp hy with
        | inl heq => rw [heq]; exact hlt
        | inr hmem => exact String.lt_trans hlt (hx y hmem)
      · rename_i hnot
        split
        · exact h
        · rename_i hne
          refine List.pairwise_cons.mpr ⟨?_, ih hxs⟩
          intro y hy
          cases mem_insertKey.mp hy with
          | inl heq =>
              -- of two different keys one is less than the other
              rw [heq]
              have hle : x ≤ k := String.not_lt.mp hnot
              rcases String.le_total k x with hle' | hle'
              · exact absurd (String.le_antisymm hle' hle) hne
              · exact String.not_le.mp fun hk => hne (String.le_antisymm hk hle)
          | inr hmem => exact hx y hmem

theorem groupKeys_addMembership (d : Directory) (p : Principal) (g : String) (m : GroupMember) :
    (d.addMembership p g).groupKeys m =
      if m = .ofPrincipal p then insertKey g (d.groupKeys m) else d.groupKeys m := by
  unfold groupKeys addMembership
  simp only [Table.get?_insert]
  split
  · rename_i h
    rw [h]
    rfl
  · rfl

/-- Adds edges one after the other. -/
def addEdges (d : Directory) (edges : List (Principal × String)) : Directory :=
  edges.foldl (fun d e => d.addMembership e.1 e.2) d

theorem mem_groupKeys_addEdges {d : Directory} {edges : List (Principal × String)}
    {m : GroupMember} {g : String} :
    g ∈ (d.addEdges edges).groupKeys m ↔ (Principal.ofMember m, g) ∈ edges ∨ g ∈ d.groupKeys m := by
  unfold addEdges
  induction edges generalizing d with
  | nil => simp
  | cons e edges ih =>
      obtain ⟨p, k⟩ := e
      have hstep : g ∈ (d.addMembership p k).groupKeys m ↔
          (Principal.ofMember m = p ∧ g = k) ∨ g ∈ d.groupKeys m := by
        have hm : m = .ofPrincipal p ↔ Principal.ofMember m = p := by
          constructor <;> rintro rfl <;> rfl
        rw [groupKeys_addMembership, ← hm]
        split <;> simp_all
      rw [List.foldl_cons, ih, hstep, List.mem_cons, Prod.mk.injEq]
      tauto

theorem ascending_addEdges {d : Directory} {edges : List (Principal × String)}
    (h : ∀ m, (d.groupKeys m).Pairwise (· < ·)) (m : GroupMember) :
    ((d.addEdges edges).groupKeys m).Pairwise (· < ·) := by
  unfold addEdges
  induction edges generalizing d with
  | nil => exact h m
  | cons e edges ih =>
      apply ih
      intro n
      rw [groupKeys_addMembership]
      split
      · exact insertKey_ascending (h n)
      · exact h n

theorem addEdges_eq (d : Directory) (edges : List (Principal × String)) :
    d.addEdges edges = { d with parents := (d.addEdges edges).parents } := by
  unfold addEdges
  induction edges generalizing d with
  | nil => rfl
  | cons e edges ih =>
      rw [List.foldl_cons, ih]
      rfl

/-! ### Reading memberships and records -/

/-- The first text that is not read as a principal, and why. -/
def firstFault (texts : List String) : Option ArgumentFault :=
  texts.findSome? Principal.fault?

theorem firstFault_append (texts texts' : List String) :
    firstFault (texts ++ texts') = (firstFault texts).or (firstFault texts') :=
  List.findSome?_append

/-- Memberships are refused because of their first member that is not well written; otherwise each
adds an edge to each of its groups. -/
theorem addMemberships_cases (ms : List ListedMembership) (d : Directory) :
    (∃ fault, firstFault (ms.map (·.member)) = some fault ∧
      addMemberships ms d = .error (.invalidArgument fault)) ∨
    (firstFault (ms.map (·.member)) = none ∧ ∃ edges : List (Principal × String),
      edges.map (fun e => (e.1.text, e.2)) = ms.flatMap (fun m => m.groups.map (m.member, ·)) ∧
      addMemberships ms d = .ok (d.addEdges edges)) := by
  induction ms generalizing d with
  | nil => exact .inr ⟨rfl, [], rfl, rfl⟩
  | cons m ms ih =>
      unfold addMemberships firstFault
      rw [List.map_cons, List.findSome?_cons]
      unfold Principal.fault?
      cases hparse : Principal.parse m.member with
      | error fault => exact .inl ⟨fault, rfl, rfl⟩
      | ok p =>
          have hedges : m.groups.foldl (·.addMembership p ·) d =
              d.addEdges (m.groups.map (p, ·)) := by
            unfold addEdges
            rw [List.foldl_map]
          simp only [hedges]
          rcases ih (d.addEdges (m.groups.map (p, ·))) with
            ⟨fault, hfault, h⟩ | ⟨hnone, edges, htext, h⟩
          · exact .inl ⟨fault, hfault, h⟩
          · refine .inr ⟨hnone, m.groups.map (p, ·) ++ edges, ?_, ?_⟩
            · obtain ⟨hm, -⟩ := Principal.text_of_parse hparse
              rw [List.map_append, htext, List.flatMap_cons, List.map_map, hm]
              rfl
            · rw [h]
              unfold addEdges
              rw [List.foldl_append]

/-- Records are refused because of the first one whose principal is not well written; otherwise
they all are added behind the others. -/
theorem addPermissions_cases (ps : List Permission) (d : Directory) :
    (∃ fault, firstFault (ps.map (·.principal)) = some fault ∧
      addPermissions ps d = .error (.invalidArgument fault)) ∨
    (firstFault (ps.map (·.principal)) = none ∧
      addPermissions ps d = .ok { d with permissions := d.permissions ++ ps }) := by
  induction ps generalizing d with
  | nil =>
      refine .inr ⟨rfl, ?_⟩
      rw [List.append_nil]
      rfl
  | cons r ps ih =>
      unfold addPermissions firstFault
      rw [List.map_cons, List.findSome?_cons]
      unfold Principal.fault?
      cases hparse : Principal.parse r.principal with
      | error fault => exact .inl ⟨fault, rfl, rfl⟩
      | ok p =>
          rcases ih (d.addPermission r) with ⟨fault, hfault, h⟩ | ⟨hnone, h⟩
          · exact .inl ⟨fault, hfault, h⟩
          · refine .inr ⟨hnone, ?_⟩
            simp only [h]
            unfold addPermission
            rw [List.append_assoc]
            rfl

/-! ### Definitions -/

theorem foldl_addOwner (d : Directory) (xs : List Owner) :
    xs.foldl addOwner d = { d with owners := d.owners.fill (·.fname) id xs } := by
  induction xs generalizing d with
  | nil => rfl
  | cons x xs ih => rw [List.foldl_cons, ih]; rfl

theorem foldl_addActivity (d : Directory) (xs : List ListedActivity) :
    xs.foldl (fun d a => d.addActivity a.owner a.activity) d =
      { d with activities :=
          d.activities.fill ListedActivity.names (·.activity) xs } := by
  induction xs generalizing d with
  | nil => rfl
  | cons x xs ih => rw [List.foldl_cons, ih]; rfl

theorem foldl_addTarget (d : Directory) (xs : List ListedTarget) :
    xs.foldl (fun d t => d.addTarget t.provider t.target) d =
      { d with targets :=
          d.targets.fillWithin ListedTarget.names (·.target) xs } := by
  induction xs generalizing d with
  | nil => rfl
  | cons x xs ih => rw [List.foldl_cons, ih]; rfl

theorem foldl_registerCollectiveTargets (d : Directory) (providers : List String) :
    providers.foldl registerCollectiveTargets d =
      (providers.flatMap fun provider => collectiveTargets.map (ListedTarget.mk provider)).foldl
        (fun d t => d.addTarget t.provider t.target) d := by
  rw [List.foldl_flatMap]
  rfl

/-- The definitions of a listing are stored in the order in which the listing has them. -/
theorem ofDefinitions_eq (l : Listing) : ofDefinitions l =
    { owners := Table.fill (·.fname) id .empty l.allOwners
      activities := Table.fill ListedActivity.names (·.activity) .empty
        l.allActivities
      targets := Table.fillWithin ListedTarget.names (·.target) .empty
        l.allTargets } := by
  unfold ofDefinitions
  simp only [foldl_registerCollectiveTargets, foldl_addTarget, foldl_addActivity, foldl_addOwner]
  unfold Table.fill Table.fillWithin Listing.allOwners Listing.allActivities Listing.allTargets
  simp only [List.foldl_append]
  cases l.systemDefaults <;> rfl

/-! ### The directory of a listing -/

/-- The directory with the definitions and the records of a listing and with these edges. -/
def listed (l : Listing) (edges : List (Principal × String)) : Directory :=
  { (ofDefinitions l).addEdges edges with permissions := l.permissions }

/-- A listing is refused for the first principal in it that is not well written; otherwise its
directory has its definitions, its edges and its records. -/
theorem ofListing_cases (l : Listing) :
    (∃ fault, firstFault l.principals = some fault ∧
      ofListing l = .error (.invalidArgument fault)) ∨
    (firstFault l.principals = none ∧ ∃ edges : List (Principal × String),
      edges.map (fun e => (e.1.text, e.2)) = l.edges ∧ ofListing l = .ok (listed l edges)) := by
  unfold Listing.principals ofListing
  rw [firstFault_append]
  rcases addMemberships_cases l.memberships (ofDefinitions l) with
    ⟨fault, hfault, h⟩ | ⟨hnone, edges, hedges, h⟩
  · refine .inl ⟨fault, ?_, ?_⟩
    · rw [hfault]
      rfl
    · simp only [h]
  · simp only [h]
    rw [hnone, Option.none_or]
    rcases addPermissions_cases l.permissions ((ofDefinitions l).addEdges edges) with
      ⟨fault, hfault, h⟩ | ⟨hnone, h⟩
    · exact .inl ⟨fault, hfault, h⟩
    · refine .inr ⟨hnone, edges, hedges, ?_⟩
      have hempty : ((ofDefinitions l).addEdges edges).permissions = [] := by
        rw [addEdges_eq, ofDefinitions_eq]
      rw [h, hempty, List.nil_append]
      rfl

theorem firstFault_eq_some_iff {texts : List String} {fault : ArgumentFault} :
    firstFault texts = some fault ↔ ∃ before text after, texts = before ++ text :: after ∧
      (∀ s ∈ before, Principal.WellWritten s) ∧ Principal.parse text = .error fault := by
  unfold firstFault
  rw [List.findSome?_eq_some_iff]
  simp only [Principal.fault?_eq_some_iff, Principal.fault?_eq_none_iff, and_comm]

theorem firstFault_eq_none_iff {texts : List String} :
    firstFault texts = none ↔ ∀ s ∈ texts, Principal.WellWritten s := by
  unfold firstFault
  simp only [List.findSome?_eq_none_iff, Principal.fault?_eq_none_iff]

section listed

variable {l : Listing} {edges : List (Principal × String)}

theorem listed_eq : listed l edges =
    { parents := ((ofDefinitions l).addEdges edges).parents
      permissions := l.permissions
      owners := Table.fill (·.fname) id .empty l.allOwners
      activities := Table.fill ListedActivity.names (·.activity) .empty l.allActivities
      targets := Table.fillWithin ListedTarget.names (·.target) .empty l.allTargets } := by
  unfold listed
  rw [addEdges_eq, ofDefinitions_eq]

theorem permissionsFor_listed (p : Principal) (owner activity : String) (target : Option String) :
    (listed l edges).permissionsFor p owner activity target = .ok (l.permissions.filter fun r =>
      r.principal = p.text ∧ r.owner = owner ∧ r.activity = activity ∧
        r.target = target.getD "") := by
  rw [listed_eq]
  unfold permissionsFor
  simp only [List.not_mem_nil, if_false, Except.ok.injEq]
  apply List.filter_congr
  intro r _
  simp [Bool.and_assoc, beq_eq_decide]

theorem resolveOwner_listed (fname : String) : (listed l edges).resolveOwner fname =
    .ok (l.allOwners.filter (·.fname = fname)).getLast? := by
  rw [listed_eq]
  unfold resolveOwner
  rw [Table.get?_fill, Table.get?_empty, Option.or_none, Option.map_id, id]

theorem resolveActivity_listed (owner fname : String) :
    (listed l edges).resolveActivity owner fname =
      .ok ((l.allActivities.filter (·.names = (owner, fname))).getLast?.map (·.activity)) := by
  rw [listed_eq]
  unfold resolveActivity
  rw [Table.get?_fill, Table.get?_empty, Option.or_none]

theorem resolveTarget_listed (provider key : String) :
    (listed l edges).resolveTarget provider key =
      if provider ∈ l.allTargets.map (·.provider) then
        .ok ((l.allTargets.filter (·.names = (provider, key))).getLast?.map (·.target))
      else .error (.unknownTargetProvider provider) := by
  rw [listed_eq]
  have hknown :=
    Table.contains_fillWithin ListedTarget.names (·.target) .empty l.allTargets provider
  have hfound := Table.within?_fillWithin ListedTarget.names (·.target) .empty l.allTargets
    (provider, key)
  unfold Table.contains at hknown
  unfold Table.within? at hfound
  unfold resolveTarget
  generalize Table.fillWithin ListedTarget.names (·.target) .empty l.allTargets = targets
    at hknown hfound ⊢
  cases hget : targets.get? provider with
  | none =>
      rw [hget] at hknown
      have hnot : provider ∉ l.allTargets.map (·.provider) := by
        intro hmem
        exact absurd (hknown.mpr (.inl hmem)) Bool.false_ne_true
      rw [if_neg hnot]
  | some known =>
      simp only [hget] at hknown hfound
      have hmem : provider ∈ l.allTargets.map (·.provider) := by
        cases hknown.mp rfl with
        | inl h => exact h
        | inr h => cases h
      rw [if_pos hmem]
      rw [Option.bind_some, Table.get?_empty, Option.bind_none, Option.or_none] at hfound
      exact congrArg Except.ok hfound

/-- The groups of a member are those that its edges lead to. -/
theorem mem_groupKeys_listed {m : GroupMember} {g : String} :
    g ∈ (listed l edges).groupKeys m ↔ (Principal.ofMember m, g) ∈ edges := by
  have hempty : (ofDefinitions l).groupKeys m = [] := by
    rw [ofDefinitions_eq]
    rfl
  have h : g ∈ (listed l edges).groupKeys m ↔
      (Principal.ofMember m, g) ∈ edges ∨ g ∈ (ofDefinitions l).groupKeys m :=
    mem_groupKeys_addEdges
  rw [h, hempty]
  simp

theorem ascending_listed (m : GroupMember) : ((listed l edges).groupKeys m).Pairwise (· < ·) := by
  have h : ∀ m, ((ofDefinitions l).groupKeys m).Pairwise (· < ·) := by
    intro m
    rw [ofDefinitions_eq]
    exact .nil
  exact ascending_addEdges h m

theorem parentGroups_listed (m : GroupMember) : (listed l edges).parentGroups m =
    .ok (((listed l edges).groupKeys m).map (⟨.group, ·⟩)) := by
  unfold parentGroups
  rw [if_neg]
  · rfl
  · rw [listed_eq]
    exact List.not_mem_nil

/-- Edges are the same whether their members are written or not. -/
theorem mem_edges_iff (h : edges.map (fun e => (e.1.text, e.2)) = l.edges) {p : Principal}
    {g : String} : (p, g) ∈ edges ↔ (p.text, g) ∈ l.edges := by
  rw [← h, List.mem_map]
  constructor
  · intro hp
    exact ⟨(p, g), hp, rfl⟩
  · rintro ⟨⟨q, g'⟩, hq, heq⟩
    obtain ⟨hp, hg⟩ : q.text = p.text ∧ g' = g := Prod.mk.inj heq
    rwa [← Principal.text_injective hp, ← hg]

theorem length_dedup_edges (h : edges.map (fun e => (e.1.text, e.2)) = l.edges) :
    (edges.map fun e => (GroupMember.ofPrincipal e.1, e.2)).dedup.length =
      l.edges.dedup.length := by
  have htext : Function.Injective fun e : Principal × String => (e.1.text, e.2) := by
    rintro ⟨p, g⟩ ⟨p', g'⟩ heq
    obtain ⟨hp, hg⟩ : p.text = p'.text ∧ g = g' := Prod.mk.inj heq
    rw [Principal.text_injective hp, hg]
  have hnode : Function.Injective fun e : Principal × String =>
      (GroupMember.ofPrincipal e.1, e.2) := by
    rintro ⟨⟨k, x⟩, g⟩ ⟨⟨k', x'⟩, g'⟩ heq
    cases heq
    rfl
  rw [← h, List.dedup_map_of_injective htext, List.dedup_map_of_injective hnode, List.length_map,
    List.length_map]

theorem summary_listed (h : edges.map (fun e => (e.1.text, e.2)) = l.edges) :
    (listed l edges).summary =
      { owners := (l.allOwners.map (·.fname)).dedup.length
        activities := (l.allActivities.map (·.names)).dedup.length
        targets := (l.allTargets.map (·.names)).dedup.length
        memberships := l.edges.dedup.length
        permissions := l.permissions.length } := by
  have hmemberships : (listed l edges).parents.values.foldl (fun n groups => n + groups.length) 0 =
      l.edges.dedup.length := by
    rw [← length_dedup_edges h]
    apply Table.sum_eq_length_dedup (f := id)
    · intro m groups hgroups
      have hm : ((listed l edges).groupKeys m).Pairwise (· < ·) := ascending_listed m
      unfold groupKeys at hm
      rw [hgroups] at hm
      apply hm.imp
      rintro x _ hlt rfl
      exact String.lt_irrefl x hlt
    · intro m g
      have hm : g ∈ (listed l edges).groupKeys m ↔ (Principal.ofMember m, g) ∈ edges :=
        mem_groupKeys_listed
      have hnode : (m, g) ∈ edges.map (fun e => (GroupMember.ofPrincipal e.1, e.2)) ↔
          (Principal.ofMember m, g) ∈ edges := by
        simp only [List.mem_map, Prod.mk.injEq, Prod.exists]
        constructor
        · rintro ⟨p, _, hp, rfl, rfl⟩
          exact hp
        · intro hp
          exact ⟨_, _, hp, rfl, rfl⟩
      rw [hnode, ← hm]
      unfold groupKeys
      cases (listed l edges).parents.get? m <;> simp
  unfold summary
  rw [hmemberships, listed_eq]
  simp only [Table.size_fill, Table.sum_size_fillWithin]

end listed

/-- What is put together from a listing answers by what the listing says. -/
theorem describes_listed {l : Listing} {edges : List (Principal × String)}
    (h : edges.map (fun e => (e.1.text, e.2)) = l.edges) : l.Describes (listed l edges) where
  permissionsFor := permissionsFor_listed
  parentGroups m := ⟨_, parentGroups_listed m, ascending_listed m, fun _ => by
    rw [mem_groupKeys_listed, mem_edges_iff h]⟩
  resolveOwner := resolveOwner_listed
  resolveActivity := resolveActivity_listed
  resolveTarget := resolveTarget_listed
  summary := summary_listed h

theorem ofListing_eq_error_iff {l : Listing} {e : Error} :
    ofListing l = .error e ↔ ∃ fault, firstFault l.principals = some fault ∧
      e = .invalidArgument fault := by
  rcases ofListing_cases l with ⟨fault, hfault, h⟩ | ⟨hnone, edges, hedges, h⟩
  · rw [h, hfault]
    simp [eq_comm]
  · rw [h, hnone]
    simp

theorem exists_ofListing_eq_ok_iff {l : Listing} :
    (∃ d, ofListing l = .ok d) ↔ ∀ s ∈ l.principals, Principal.WellWritten s := by
  rw [← firstFault_eq_none_iff]
  rcases ofListing_cases l with ⟨fault, hfault, h⟩ | ⟨hnone, edges, hedges, h⟩
  · rw [h, hfault]
    simp
  · rw [h, hnone]
    simp

theorem describes_of_ofListing {l : Listing} {d : Directory} (h : ofListing l = .ok d) :
    l.Describes d := by
  rcases ofListing_cases l with ⟨fault, hfault, h'⟩ | ⟨hnone, edges, hedges, h'⟩
  · rw [h'] at h
    cases h
  · rw [h'] at h
    cases h
    exact describes_listed hedges

/-- A listing is refused exactly if some principal in it is not well written, because of the first
such text, members before records. The directory of any other listing answers every look-up and
counts everything exactly as the listing says. -/
theorem ofListing_answers (l : Listing) :
    ((∃ d, ofListing l = .ok d) ↔ ∀ s ∈ l.principals, Principal.WellWritten s) ∧
    (∀ e, ofListing l = .error e ↔ ∃ before text after fault,
      l.principals = before ++ text :: after ∧ (∀ s ∈ before, Principal.WellWritten s) ∧
      Principal.parse text = .error fault ∧ e = .invalidArgument fault) ∧
    ∀ d, ofListing l = .ok d → l.Describes d := by
  refine ⟨exists_ofListing_eq_ok_iff, ?_, fun d => describes_of_ofListing⟩
  intro e
  rw [ofListing_eq_error_iff]
  simp only [firstFault_eq_some_iff]
  constructor
  · rintro ⟨fault, ⟨before, text, after, htexts, hbefore, htext⟩, he⟩
    exact ⟨before, text, after, fault, htexts, hbefore, htext, he⟩
  · rintro ⟨before, text, after, fault, htexts, hbefore, htext, he⟩
    exact ⟨fault, ⟨before, text, after, htexts, hbefore, htext⟩, he⟩

/-- A listing in which an owner is defined again, a record is repeated, and the groups of a member
are listed in two places, one of them twice. -/
def ward : Listing where
  systemDefaults := true
  owners := [⟨"O", "Owner"⟩, ⟨systemOwner, "System"⟩, ⟨"O", "Owner, again"⟩]
  targets := [⟨"provider", ⟨"T", "Target", .other⟩⟩]
  collectiveProviders := ["provider", "provider"]
  memberships := [⟨"person.alice", ["staff", "local.staff"]⟩, ⟨"group.staff", []⟩,
    ⟨"person.alice", ["guests", "staff"]⟩]
  permissions := [⟨"group.local.staff", "O", "ACT", "", .grant, none, none⟩,
    ⟨"group.local.staff", "O", "ACT", "", .grant, none, none⟩]

theorem exists_ofListing_ward : ∃ d, ofListing ward = .ok d := by
  apply exists_ofListing_eq_ok_iff.mpr
  intro s hs
  simp only [ward, Listing.principals, List.map_cons, List.map_nil, List.cons_append,
    List.nil_append, List.mem_cons, List.not_mem_nil, or_false] at hs
  rcases hs with rfl | rfl | rfl | rfl | rfl
  · exact ⟨"alice", by decide, .inl rfl⟩
  · exact ⟨"staff", by decide, .inr rfl⟩
  · exact ⟨"alice", by decide, .inl rfl⟩
  · exact ⟨"local.staff", by decide, .inr rfl⟩
  · exact ⟨"local.staff", by decide, .inr rfl⟩

theorem ofListing_answers_ward : ∃ d, ofListing ward = .ok d ∧
    d.resolveOwner "O" = .ok (some ⟨"O", "Owner, again"⟩) ∧
    d.resolveTarget "elsewhere" "T" = .error (.unknownTargetProvider "elsewhere") ∧
    d.summary =
      { owners := 2, activities := 1, targets := 5, memberships := 3, permissions := 2 } := by
  obtain ⟨d, hd⟩ := exists_ofListing_ward
  have h := (ofListing_answers ward).2.2 d hd
  refine ⟨d, hd, ?_, ?_, ?_⟩
  · rw [h.resolveOwner]
    decide +kernel
  · rw [h.resolveTarget, if_neg (by decide +kernel)]
  · rw [h.summary]
    decide +kernel

/-- Some look-up for the principal finds the record. -/
def Finds (d : Directory) (p : Principal) (r : Permission) : Prop :=
  ∃ owner activity target records,
    d.permissionsFor p owner activity target = .ok records ∧ r ∈ records

/-- A listed record is found exactly by the principal that it is written for. -/
theorem finds_iff {l : Listing} {d : Directory} (h : ofListing l = .ok d) {r : Permission}
    (hr : r ∈ l.permissions) (p : Principal) : d.Finds p r ↔ r.principal = p.text := by
  unfold Finds
  simp only [(describes_of_ofListing h).permissionsFor]
  constructor
  · rintro ⟨owner, activity, target, records, hrecords, hmem⟩
    obtain rfl := Except.ok.inj hrecords
    have hr := (List.mem_filter.mp hmem).2
    exact (of_decide_eq_true hr).1
  · intro hp
    refine ⟨r.owner, r.activity, some r.target, _, rfl, List.mem_filter.mpr ⟨hr, ?_⟩⟩
    exact decide_eq_true ⟨hp, rfl, rfl, rfl⟩

end Directory

namespace Principal

/-- A text is read as a principal exactly if it is well written, and then it is the written form of
that principal; every principal with a key is read from its written form. Every other text is
refused for one of three reasons, and with it every listing that has it. So each record of a listing
that is not refused is found by look-ups for one principal and for no other. -/
theorem written_form (s : String) :
    ((∃ p, parse s = .ok p) ↔ WellWritten s) ∧
    (∀ p, parse s = .ok p ↔ s = p.text ∧ p.key ≠ "") ∧
    (∀ p : Principal, p.key ≠ "" → parse p.text = .ok p) ∧
    (∀ fault, parse s = .error fault ↔ Refused s fault) ∧
    (¬ WellWritten s → ∀ l : Listing, s ∈ l.principals →
      ∃ fault, Directory.ofListing l = .error (.invalidArgument fault)) ∧
    ∀ l d, Directory.ofListing l = .ok d → ∀ r ∈ l.permissions,
      ∃ p, parse r.principal = .ok p ∧ ∀ q, d.Finds q r ↔ q = p := by
  refine ⟨exists_parse_eq_ok_iff, fun _ => parse_eq_ok_iff, fun _ => parse_text,
    fun _ => parse_eq_error_iff, ?_, ?_⟩
  · intro hs l hmem
    cases h : Directory.ofListing l with
    | ok d => exact absurd (Directory.exists_ofListing_eq_ok_iff.mp ⟨d, h⟩ s hmem) hs
    | error e =>
        obtain ⟨fault, -, rfl⟩ := Directory.ofListing_eq_error_iff.mp h
        exact ⟨fault, rfl⟩
  · intro l d h r hr
    have hmem : r.principal ∈ l.principals :=
      List.mem_append_right _ (List.mem_map_of_mem hr)
    obtain ⟨p, hp⟩ := exists_parse_eq_ok_iff.mpr
      (Directory.exists_ofListing_eq_ok_iff.mp ⟨d, h⟩ _ hmem)
    refine ⟨p, hp, ?_⟩
    intro q
    rw [Directory.finds_iff h hr, (text_of_parse hp).1, text_injective.eq_iff, eq_comm]

/-- All that stands after the first dot is the key. -/
theorem written_form_dotted :
    parse "group.local.staff" = .ok ⟨.group, "local.staff"⟩ ∧
    parse "guest.local" = .error (.unknownKind "guest") ∧
    parse "person." = .error (.emptyKey "person.") ∧
    ∃ d, Directory.ofListing Directory.ward = .ok d ∧ ∀ r ∈ Directory.ward.permissions, ∀ q,
      d.Finds q r ↔ q = ⟨.group, "local.staff"⟩ := by
  obtain ⟨-, -, hread, -, -, hfound⟩ := written_form "group.local.staff"
  obtain ⟨-, -, -, hunknown, -⟩ := written_form "guest.local"
  obtain ⟨-, -, -, hempty, -⟩ := written_form "person."
  have hdotted := hread ⟨.group, "local.staff"⟩ (by decide)
  refine ⟨hdotted, (hunknown _).mpr ?_, (hempty _).mpr ?_, ?_⟩
  · exact ⟨⟨by decide, by decide, by decide⟩, "local", by decide, rfl⟩
  · exact ⟨rfl, "person", by decide, rfl⟩
  · obtain ⟨d, hd⟩ := Directory.exists_ofListing_ward
    refine ⟨d, hd, ?_⟩
    intro r hr
    obtain ⟨p, hp, hq⟩ := hfound Directory.ward d hd r hr
    have hr : r.principal = "group.local.staff" := by
      simp only [Directory.ward, List.mem_cons, List.not_mem_nil, or_false, or_self] at hr
      rw [hr]
    rw [hr] at hp
    obtain rfl := Except.ok.inj (hdotted.symm.trans hp)
    exact hq

end Principal

end GrantPath
