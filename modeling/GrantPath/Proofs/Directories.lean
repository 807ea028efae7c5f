import GrantPath.Directory.Staged
import GrantPath.Proofs.Paths

/-! # What staged directories answer

Whatever the stage does, a record that is found by a lookup is listed in the directory
(`StagedDirectory.record_listed`), and a lookup without a target is one with the empty target
key (`StagedDirectory.keyed`). Where no record is dated, the same records are in force at all times
(`StagedDirectory.inForceAlike`). Where the stage replaces no groups, the parents of a principal are
listed too (`StagedDirectory.parent_listed`). -/

namespace GrantPath.StagedDirectory

variable {st : StagedDirectory} {p q : Principal}

/-- A request that does not fail is answered with groups replaced. -/
theorem answers_of_ok {request : Request} {answer : request.Answer}
    (h : st.answers request = .ok answer) : st.answersWithParents request = .ok answer := by
  unfold answers at h
  split at h
  · cases h
  · exact h

theorem keyed (st : StagedDirectory) : st.answers.Keyed := by
  intro p owner activity target
  show st.answers _ = st.answers _
  simp only [answers, Fault.of, Request.method, Request.subject, answersWithParents,
    Directory.answers, Directory.permissionsFor]

theorem record_listed {owner activity : String} {target : Option String}
    {records : List Permission}
    (h : st.answers (.permissions p owner activity target) = .ok records) :
    ∀ record ∈ records, record ∈ st.directory.permissions := by
  have h : st.directory.permissionsFor p owner activity target = .ok records := answers_of_ok h
  unfold Directory.permissionsFor at h
  split at h
  · cases h
  · obtain rfl := Except.ok.inj h
    intro record hrecord
    exact (List.mem_filter.mp hrecord).1

/-- Where no record is dated, the same records are in force at all times. -/
theorem inForceAlike (h : ∀ record ∈ st.directory.permissions,
    record.effective = none ∧ record.expires = none) (t t' : Instant) :
    st.answers.InForceAlike t t' := by
  intro p owner activity target records hr record hrecord
  obtain ⟨heffective, hexpires⟩ := h record (record_listed hr record hrecord)
  simp [Permission.isActiveAt, heffective, hexpires]

/-- Where no groups are replaced, parents are listed as groups of the principal. -/
theorem parent_listed (hp : st.parents = .empty) (h : st.answers.Parent p q) :
    ∃ keys, (GroupMember.ofPrincipal p, keys) ∈ st.directory.parents.entries ∧
      ∃ k ∈ keys, q = ⟨.group, k⟩ := by
  obtain ⟨m, groups, g, hm, hg, hmem, hq⟩ := h
  obtain rfl : GroupMember.ofPrincipal p = m := Except.ok.inj (answers_of_ok hm)
  have hg : st.directory.parentGroups (.ofPrincipal p) = .ok groups := by
    have h := answers_of_ok hg
    rwa [answersWithParents, hp] at h
  obtain rfl : Principal.ofMember g = q := by
    have h : st.directory.newPrincipal g = .ok q := answers_of_ok hq
    unfold Directory.newPrincipal at h
    split at h
    · exact Except.ok.inj h
    · cases h
  unfold Directory.parentGroups at hg
  split at hg
  · cases hg
  · obtain rfl := Except.ok.inj hg
    obtain ⟨k, hk, rfl⟩ := List.mem_map.mp hmem
    cases hkeys : st.directory.parents.get? (.ofPrincipal p) with
    | none => simp [hkeys] at hk
    | some keys =>
        rw [hkeys] at hk
        exact ⟨keys, (Table.mem_entries_iff ..).mpr hkeys, k, hk, rfl⟩

end GrantPath.StagedDirectory
