import GrantPath.Decision.Key
import Mathlib.Logic.Function.Basic

/-! # What a decision key tells

A key determines what it is the key of: the written form of a principal determines the
principal (`Principal.text_injective`), so two keys are equal exactly if principal, owner and
activity are and the targets have the same key, an absent target counting as the empty one
(`Scope.key_eq_key_iff`). -/

namespace GrantPath

theorem PrincipalKind.dot_notMem_text (k : PrincipalKind) : '.' ∉ k.text.toList := by
  cases k <;> decide

theorem PrincipalKind.text_injective : Function.Injective PrincipalKind.text := by
  intro k k' h
  have hk := PrincipalKind.ofText?_text k
  rw [h, PrincipalKind.ofText?_text] at hk
  exact (Option.some.inj hk).symm

theorem Principal.splitAtDot_text (p : Principal) :
    splitAtDot p.text.toList = some (p.kind.text.toList, p.key.toList) := by
  have h : p.text.toList = p.kind.text.toList ++ '.' :: p.key.toList := by
    simp [Principal.text]
  rw [h, splitAtDot_append p.kind.dot_notMem_text]

theorem Principal.text_injective : Function.Injective Principal.text := by
  rintro ⟨kind, key⟩ ⟨kind', key'⟩ h
  have hs := Principal.splitAtDot_text ⟨kind, key⟩
  rw [h, Principal.splitAtDot_text] at hs
  obtain ⟨hkind, hkey⟩ := Prod.mk.inj (Option.some.inj hs)
  have hkind := PrincipalKind.text_injective (String.toList_injective hkind)
  have hkey := String.toList_injective hkey
  simp only at hkind hkey
  rw [hkind, hkey]

namespace Scope

/-- The two scopes ask about the same owner, activity and target key. -/
def Alike (s s' : Scope) : Prop :=
  s.owner = s'.owner ∧ s.activity = s'.activity ∧ s.target.getD "" = s'.target.getD ""

theorem Alike.symm {s s' : Scope} (h : s.Alike s') : s'.Alike s :=
  ⟨h.1.symm, h.2.1.symm, h.2.2.symm⟩

theorem key_eq_key_iff {s s' : Scope} {p p' : Principal} :
    s.key p = s'.key p' ↔ p = p' ∧ s.Alike s' := by
  constructor
  · intro h
    simp only [key, DecisionKey.mk.injEq] at h
    exact ⟨Principal.text_injective h.1, h.2⟩
  · rintro ⟨rfl, ho, ha, ht⟩
    simp only [key, ho, ha, ht]

theorem key_injective (s : Scope) : Function.Injective s.key :=
  fun _ _ h => (key_eq_key_iff.mp h).1

end Scope

end GrantPath
