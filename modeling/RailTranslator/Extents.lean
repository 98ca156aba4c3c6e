import Mathlib.Data.Nat.Notation

/-!
Extents of an area that is filled from front to back.

Keys own extents of the area, from a first address to one behind the last.
`Packed lo hi` says that the extents lie between `lo` and `hi`, apart from one
another; it is kept when a key is given an extent behind `hi`, and `Kept` says
that no key has lost its own.
-/

namespace Extents

structure Extent where
  first : ℕ
  last : ℕ
  deriving DecidableEq, Repr

variable {κ : Type*}

/-- The extents lie between `lo` and `hi`, apart from one another. -/
structure Packed (lo hi : ℕ) (extent : κ → Option Extent) : Prop where
  inside : ∀ {k : κ} {i : Extent}, extent k = some i →
    lo ≤ i.first ∧ i.first ≤ i.last ∧ i.last ≤ hi
  apart : ∀ {k k' : κ} {i i' : Extent}, k ≠ k' → extent k = some i → extent k' = some i' →
    i.last ≤ i'.first ∨ i'.last ≤ i.first

def Kept (extent extent' : κ → Option Extent) : Prop :=
  ∀ k i, extent k = some i → extent' k = some i

variable {lo hi hi' : ℕ} {extent extent' extent'' : κ → Option Extent}

theorem packed_none (lo hi : ℕ) : Packed lo hi fun _ : κ => none where
  inside hi := by cases hi
  apart _ hi := by cases hi

theorem Packed.mono (hp : Packed lo hi extent) (hle : hi ≤ hi') : Packed lo hi' extent where
  inside hk := by
    obtain ⟨hlo, hle', hhi⟩ := hp.inside hk
    exact ⟨hlo, hle', Nat.le_trans hhi hle⟩
  apart := hp.apart

theorem Packed.extend (hp : Packed lo hi extent) {k : κ} {i : Extent} (hlo : lo ≤ hi)
    (hfirst : hi ≤ i.first) (hle : i.first ≤ i.last) (hlast : i.last ≤ hi')
    (hnew : extent' k = some i) (hold : ∀ k', k' ≠ k → extent' k' = extent k') :
    Packed lo hi' extent' where
  inside {k' i'} hk' := by
    by_cases heq : k' = k
    · rw [heq, hnew] at hk'
      cases hk'
      exact ⟨Nat.le_trans hlo hfirst, hle, hlast⟩
    · rw [hold k' heq] at hk'
      obtain ⟨h1, h2, h3⟩ := hp.inside hk'
      exact ⟨h1, h2, by omega⟩
  apart {k₁ k₂ i₁ i₂} hne h₁ h₂ := by
    by_cases heq₁ : k₁ = k
    · have hne₂ : k₂ ≠ k := fun heq₂ => hne (heq₁.trans heq₂.symm)
      rw [heq₁, hnew] at h₁
      rw [hold k₂ hne₂] at h₂
      cases h₁
      have := (hp.inside h₂).2.2
      exact .inr (by omega)
    · rw [hold k₁ heq₁] at h₁
      by_cases heq₂ : k₂ = k
      · rw [heq₂, hnew] at h₂
        cases h₂
        have := (hp.inside h₁).2.2
        exact .inl (by omega)
      · rw [hold k₂ heq₂] at h₂
        exact hp.apart hne h₁ h₂

theorem Kept.trans (h : Kept extent extent') (h' : Kept extent' extent'') : Kept extent extent'' :=
  fun k i hk => h' k i (h k i hk)

end Extents
