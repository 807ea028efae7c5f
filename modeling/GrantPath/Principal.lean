/-! # Principals and members of groups

Whoever asks for a permission is a principal: a person or a group, under a key. The
membership graph has members as its nodes, again persons and groups under keys; its edges
run from a member to the groups that immediately contain it.

* A principal is written `kind.key`. `Principal.parse` reads that form strictly,
  `Principal.ofLabel` takes whatever stands after the first dot as the key.
* A member is written `kind:key` and members are ordered by kind, then by key
  (`GroupMember.before`).
-/

namespace GrantPath

/-- The kind of entity a principal or a member stands for. -/
inductive PrincipalKind where
  | person
  | group
deriving DecidableEq, Repr, Inhabited

/-- An identity that is evaluated for permissions. -/
structure Principal where
  kind : PrincipalKind
  key : String
deriving DecidableEq, Repr, Inhabited

/-- A node of the membership graph. -/
structure GroupMember where
  kind : PrincipalKind
  key : String
deriving DecidableEq, Repr, Inhabited

/-- Why an argument is refused. -/
inductive ArgumentFault where
  | unknownKind (text : String)
  | notDotted (text : String)
  | emptyKey (text : String)
  | notAGroup (member : GroupMember)
deriving DecidableEq, Repr

namespace PrincipalKind

/-- The word for a kind. -/
def text : PrincipalKind → String
  | person => "person"
  | group => "group"

/-- The kind that a word stands for. -/
def ofText? (s : String) : Option PrincipalKind :=
  if s = "person" then some person
  else if s = "group" then some group
  else none

/-- The kind that a word stands for; any other word is refused. -/
def parse (s : String) : Except ArgumentFault PrincipalKind :=
  match ofText? s with
  | some k => .ok k
  | none => .error (.unknownKind s)

@[simp] theorem ofText?_text (k : PrincipalKind) : ofText? k.text = some k := by
  cases k <;> rfl

theorem ofText?_eq_some_iff {s : String} {k : PrincipalKind} :
    ofText? s = some k ↔ s = k.text := by
  constructor
  · intro h
    unfold ofText? at h
    split at h
    · cases h; assumption
    · split at h
      · cases h; assumption
      · cases h
  · rintro rfl
    exact ofText?_text k

end PrincipalKind

/-- Cuts a text at its first dot. -/
def splitAtDot : List Char → Option (List Char × List Char)
  | [] => none
  | c :: cs =>
    if c = '.' then some ([], cs)
    else (splitAtDot cs).map fun (before, after) => (c :: before, after)

theorem splitAtDot_append {before : List Char} (h : '.' ∉ before) (after : List Char) :
    splitAtDot (before ++ '.' :: after) = some (before, after) := by
  induction before with
  | nil => rfl
  | cons c cs ih =>
    have hc : c ≠ '.' := fun e => h (by simp [e])
    simp [splitAtDot, hc, ih fun e => h (List.mem_cons_of_mem _ e)]

theorem append_of_splitAtDot {cs before after : List Char}
    (h : splitAtDot cs = some (before, after)) : cs = before ++ '.' :: after := by
  induction cs generalizing before with
  | nil => simp [splitAtDot] at h
  | cons c cs ih =>
    by_cases hc : c = '.'
    · simp only [splitAtDot, hc, if_true, Option.some.injEq, Prod.mk.injEq] at h
      obtain ⟨rfl, rfl⟩ := h
      simp [hc]
    · simp only [splitAtDot, hc, if_false, Option.map_eq_some_iff] at h
      obtain ⟨⟨b, a⟩, hb, h⟩ := h
      cases h
      simp [ih hb]

namespace Principal

/-- The written form of a principal, `kind.key`. -/
def text (p : Principal) : String :=
  p.kind.text ++ "." ++ p.key

/-- Reads `kind.key`, where the key is not empty. -/
def parse (s : String) : Except ArgumentFault Principal :=
  match splitAtDot s.toList with
  | none => .error (.notDotted s)
  | some (kind, key) =>
    if key = [] then .error (.emptyKey s)
    else (PrincipalKind.parse (String.ofList kind)).map (⟨·, String.ofList key⟩)

/-- Reads `kind.key` and accepts any key; a text without a dot is a kind without a key. -/
def ofLabel (s : String) : Except ArgumentFault Principal :=
  let (kind, key) := (splitAtDot s.toList).getD (s.toList, [])
  (PrincipalKind.parse (String.ofList kind)).map (⟨·, String.ofList key⟩)

end Principal

namespace GroupMember

/-- Whether a member is a group. -/
def isGroup (m : GroupMember) : Bool :=
  m.kind == .group

/-- The written form of a member, `kind:key`. -/
def text (m : GroupMember) : String :=
  m.kind.text ++ ":" ++ m.key

/-- The principal's own node, kind for kind and key for key. -/
def ofPrincipal (p : Principal) : GroupMember :=
  ⟨p.kind, p.key⟩

/-- The order of members: persons before groups, then by key. -/
def before (m n : GroupMember) : Bool :=
  match m.kind, n.kind with
  | .person, .group => true
  | .group, .person => false
  | _, _ => decide (m.key < n.key)

end GroupMember

/-- The principal that a member is, kind for kind and key for key. -/
def Principal.ofMember (m : GroupMember) : Principal :=
  ⟨m.kind, m.key⟩

/-- What is said about a refused argument. -/
def ArgumentFault.message : ArgumentFault → String
  | unknownKind t => "unknown principal kind '" ++ t ++ "'"
  | notDotted t => "principal '" ++ t ++ "' is not of the form kind.key"
  | emptyKey t => "principal '" ++ t ++ "' has an empty key"
  | notAGroup m => m.text ++ " is not a group"

end GrantPath
