import GrantPath.Proofs.Keys

/-! # Written principals

A principal and its written form determine each other. `Principal.parse` accepts exactly the
written forms of principals whose key is not empty (`Principal.parse_eq_ok_iff`): the text is cut
at its first dot, before which no kind has one, so the key may have as many as it likes. What is
refused is refused for one of three reasons, and `Principal.Refused` says when
(`Principal.parse_eq_error_iff`). -/

namespace GrantPath

/-! ### Cutting a text -/

theorem splitAtDot_eq_none_iff {cs : List Char} : splitAtDot cs = none ↔ '.' ∉ cs := by
  induction cs with
  | nil => simp [splitAtDot]
  | cons c cs ih =>
      by_cases hc : c = '.'
      · simp [splitAtDot, hc]
      · have hc' : ¬ '.' = c := fun h => hc h.symm
        simp [splitAtDot, hc, hc', ih]

theorem dot_notMem_of_splitAtDot {cs before after : List Char}
    (h : splitAtDot cs = some (before, after)) : '.' ∉ before := by
  induction cs generalizing before with
  | nil => cases h
  | cons c cs ih =>
      by_cases hc : c = '.'
      · simp only [splitAtDot, hc, if_true, Option.some.injEq, Prod.mk.injEq] at h
        rw [← h.1]
        exact List.not_mem_nil
      · simp only [splitAtDot, hc, if_false, Option.map_eq_some_iff] at h
        obtain ⟨⟨before', after'⟩, hcut, h⟩ := h
        cases h
        have hc' : ¬ '.' = c := fun h => hc h.symm
        simp [hc', ih hcut]

/-- A text is cut where the part before the dot has none. -/
theorem splitAtDot_toList_eq_some_iff {s : String} {before after : List Char} :
    splitAtDot s.toList = some (before, after) ↔
      '.' ∉ before ∧ s = String.ofList before ++ "." ++ String.ofList after := by
  constructor
  · intro h
    refine ⟨dot_notMem_of_splitAtDot h, String.toList_injective ?_⟩
    simpa using append_of_splitAtDot h
  · rintro ⟨hdot, rfl⟩
    simpa using splitAtDot_append hdot after

/-! ### Kinds -/

namespace PrincipalKind

theorem parse_eq_ok_iff {s : String} {k : PrincipalKind} : parse s = .ok k ↔ s = k.text := by
  rw [← ofText?_eq_some_iff]
  unfold parse
  cases ofText? s <;> simp

theorem parse_eq_error_iff {s : String} {fault : ArgumentFault} :
    parse s = .error fault ↔ (s ≠ "person" ∧ s ≠ "group") ∧ fault = .unknownKind s := by
  unfold parse ofText?
  by_cases hp : s = "person"
  · simp [hp]
  · by_cases hg : s = "group"
    · simp [hg]
    · simp [hp, hg, eq_comm]

end PrincipalKind

namespace Principal

/-! ### Reading what was written -/

/-- The text is `person.` or `group.` followed by a key that is not empty. -/
def WellWritten (s : String) : Prop :=
  ∃ key, key ≠ "" ∧ (s = "person." ++ key ∨ s = "group." ++ key)

/-- Why a text is refused: it has no dot, nothing stands after its first dot, or what stands before
that dot is no kind. -/
def Refused (s : String) : ArgumentFault → Prop
  | .notDotted t => t = s ∧ '.' ∉ s.toList
  | .emptyKey t => t = s ∧ ∃ word, '.' ∉ word.toList ∧ s = word ++ "."
  | .unknownKind word => ('.' ∉ word.toList ∧ word ≠ "person" ∧ word ≠ "group") ∧
      ∃ key, key ≠ "" ∧ s = word ++ "." ++ key
  | .notAGroup _ => False

theorem parse_of_no_dot {s : String} (h : '.' ∉ s.toList) : parse s = .error (.notDotted s) := by
  unfold parse
  rw [splitAtDot_eq_none_iff.mpr h]

/-- What stands before the first dot is read as the kind, all that stands after it as the key. -/
theorem parse_of_cut {word : String} (h : '.' ∉ word.toList) (key : String) :
    parse (word ++ "." ++ key) =
      if key = "" then .error (.emptyKey (word ++ "." ++ key))
      else (PrincipalKind.parse word).map (⟨·, key⟩) := by
  have hcut : splitAtDot (word ++ "." ++ key).toList = some (word.toList, key.toList) := by
    rw [splitAtDot_toList_eq_some_iff, String.ofList_toList, String.ofList_toList]
    exact ⟨h, rfl⟩
  unfold parse
  rw [hcut]
  simp only [String.toList_eq_nil_iff, String.ofList_toList]

theorem no_dot_or_cut (s : String) : '.' ∉ s.toList ∨
    ∃ word key : String, '.' ∉ word.toList ∧ s = word ++ "." ++ key := by
  cases hcut : splitAtDot s.toList with
  | none => exact .inl (splitAtDot_eq_none_iff.mp hcut)
  | some parts =>
      obtain ⟨before, after⟩ := parts
      obtain ⟨hdot, hs⟩ := splitAtDot_toList_eq_some_iff.mp hcut
      exact .inr ⟨String.ofList before, String.ofList after, by simpa using hdot, hs⟩

theorem parse_text {p : Principal} (h : p.key ≠ "") : parse p.text = .ok p := by
  have hkind : PrincipalKind.parse p.kind.text = .ok p.kind := PrincipalKind.parse_eq_ok_iff.mpr rfl
  rw [text, parse_of_cut p.kind.dot_notMem_text, if_neg h, hkind]
  rfl

theorem text_of_parse {s : String} {p : Principal} (h : parse s = .ok p) :
    s = p.text ∧ p.key ≠ "" := by
  rcases no_dot_or_cut s with hdot | ⟨word, key, hdot, rfl⟩
  · rw [parse_of_no_dot hdot] at h
    cases h
  · rw [parse_of_cut hdot] at h
    split at h
    · cases h
    · rename_i hkey
      cases hkind : PrincipalKind.parse word with
      | error fault =>
          rw [hkind] at h
          cases h
      | ok k =>
          rw [hkind] at h
          cases h
          obtain rfl := PrincipalKind.parse_eq_ok_iff.mp hkind
          exact ⟨rfl, hkey⟩

/-- Reading accepts exactly the written forms of principals with a key. -/
theorem parse_eq_ok_iff {s : String} {p : Principal} :
    parse s = .ok p ↔ s = p.text ∧ p.key ≠ "" := by
  constructor
  · exact text_of_parse
  · rintro ⟨rfl, hkey⟩
    exact parse_text hkey

theorem wellWritten_iff {s : String} :
    WellWritten s ↔ ∃ p : Principal, s = p.text ∧ p.key ≠ "" := by
  constructor
  · rintro ⟨key, hkey, rfl | rfl⟩
    · exact ⟨⟨.person, key⟩, rfl, hkey⟩
    · exact ⟨⟨.group, key⟩, rfl, hkey⟩
  · rintro ⟨⟨_ | _, key⟩, rfl, hkey⟩
    · exact ⟨key, hkey, .inl rfl⟩
    · exact ⟨key, hkey, .inr rfl⟩

theorem exists_parse_eq_ok_iff {s : String} : (∃ p, parse s = .ok p) ↔ WellWritten s := by
  simp only [parse_eq_ok_iff, wellWritten_iff]

/-- Every refusal has one of the three reasons, and each reason refuses. -/
theorem parse_eq_error_iff {s : String} {fault : ArgumentFault} :
    parse s = .error fault ↔ Refused s fault := by
  constructor
  · intro h
    rcases no_dot_or_cut s with hdot | ⟨word, key, hdot, rfl⟩
    · rw [parse_of_no_dot hdot] at h
      cases h
      exact ⟨rfl, hdot⟩
    · rw [parse_of_cut hdot] at h
      split at h
      · rename_i hkey
        cases h
        subst hkey
        exact ⟨rfl, word, hdot, by simp⟩
      · rename_i hkey
        cases hkind : PrincipalKind.parse word with
        | error reason =>
            rw [hkind] at h
            cases h
            obtain ⟨hword, rfl⟩ := PrincipalKind.parse_eq_error_iff.mp hkind
            exact ⟨⟨hdot, hword⟩, key, hkey, rfl⟩
        | ok k =>
            rw [hkind] at h
            cases h
  · intro h
    cases fault with
    | notDotted t =>
        obtain ⟨rfl, hdot⟩ := h
        exact parse_of_no_dot hdot
    | emptyKey t =>
        obtain ⟨rfl, word, hdot, hs⟩ := h
        have hcut := parse_of_cut hdot ""
        rw [if_pos rfl, String.append_empty, ← hs] at hcut
        exact hcut
    | unknownKind word =>
        obtain ⟨⟨hdot, hword⟩, key, hkey, rfl⟩ := h
        have hkind : PrincipalKind.parse word = .error (.unknownKind word) :=
          PrincipalKind.parse_eq_error_iff.mpr ⟨hword, rfl⟩
        rw [parse_of_cut hdot, if_neg hkey, hkind]
        rfl
    | notAGroup m => exact h.elim

end Principal

end GrantPath
