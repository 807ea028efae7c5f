import GrantPath.Principal

/-! # Members already expanded

A search remembers the members whose groups it has asked for, so that a cycle of memberships
cannot keep it going. Each search starts with a set of its own.
-/

namespace GrantPath

/-- The members expanded so far, the latest first; none occurs twice. -/
structure SeenGroups where
  members : List GroupMember
  nodup : members.Nodup

namespace SeenGroups

/-- No member yet. -/
def empty : SeenGroups := ⟨[], .nil⟩

instance : Inhabited SeenGroups := ⟨empty⟩

instance : Membership GroupMember SeenGroups := ⟨fun s m => m ∈ s.members⟩

instance (m : GroupMember) (s : SeenGroups) : Decidable (m ∈ s) :=
  inferInstanceAs (Decidable (m ∈ s.members))

theorem mem_def {m : GroupMember} {s : SeenGroups} : m ∈ s ↔ m ∈ s.members := Iff.rfl

/-- Adds a member, unless it is there already. -/
def insert (s : SeenGroups) (m : GroupMember) : SeenGroups :=
  if h : m ∈ s then s else ⟨m :: s.members, List.nodup_cons.2 ⟨h, s.nodup⟩⟩

/-- The greatest number of members that room can be set aside for. A set has a power of two of
places, an eighth of which stay free, and memory has room for no more than `2 ^ 57` places. -/
def maxCapacity : Nat := 7 * Nat.pow 2 54

/-- The number of members. -/
def size (s : SeenGroups) : Nat :=
  s.members.length

/-- The set of the members in a list. -/
def ofList (ms : List GroupMember) : SeenGroups :=
  ms.foldl insert empty

/-- The members in order, in brackets. -/
def text (s : SeenGroups) : String :=
  let sorted := s.members.mergeSort fun m n => !n.before m
  "[" ++ ", ".intercalate (sorted.map (·.text)) ++ "]"

@[simp] theorem not_mem_empty (m : GroupMember) : m ∉ empty := by
  simp [mem_def, empty]

@[simp] theorem mem_insert {s : SeenGroups} {m n : GroupMember} :
    n ∈ s.insert m ↔ n = m ∨ n ∈ s := by
  unfold insert
  split
  · rename_i h
    constructor
    · exact Or.inr
    · rintro (rfl | h')
      · exact h
      · exact h'
  · simp [mem_def]

theorem members_insert {s : SeenGroups} {m : GroupMember} (h : m ∉ s) :
    (s.insert m).members = m :: s.members := by
  unfold insert
  rw [dif_neg h]

theorem mem_insert_self (s : SeenGroups) (m : GroupMember) : m ∈ s.insert m :=
  mem_insert.mpr (.inl rfl)

theorem mem_insert_of_mem {s : SeenGroups} {m n : GroupMember} (h : n ∈ s) : n ∈ s.insert m :=
  mem_insert.mpr (.inr h)

end SeenGroups

end GrantPath
