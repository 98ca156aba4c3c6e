import Mathlib.Algebra.BigOperators.Group.Finset.Basic
import Mathlib.Algebra.Order.BigOperators.Group.Finset

/-!
Keys that are paid for once.

Something is bought for a key when the key is not known, and the key is known
from then on. Then no key is paid for twice, and what has been spent is at most
the sum of the costs of the different keys that have been asked for.
-/

namespace Ledger

variable {κ : Type*} {cost : κ → ℕ} {known known' : Set κ} {base spent spent' : ℕ}
  {paid : Finset κ} {k : κ}

/-- The keys `paid` are known, and nothing has been spent but for them and the
`base`. -/
structure Settled (cost : κ → ℕ) (known : Set κ) (base spent : ℕ) (paid : Finset κ) : Prop where
  known : ∀ k ∈ paid, k ∈ known
  spent_le : spent ≤ base + ∑ k ∈ paid, cost k

theorem settled_empty (h : spent ≤ base) : Settled cost known base spent ∅ where
  known k hk := absurd hk (Finset.notMem_empty k)
  spent_le := by
    rw [Finset.sum_empty]
    exact h

theorem Settled.mono (h : Settled cost known base spent paid) (hknown : known ⊆ known')
    (hspent : spent' ≤ spent) : Settled cost known' base spent' paid where
  known k hk := hknown (h.known k hk)
  spent_le := hspent.trans h.spent_le

theorem Settled.notMem (h : Settled cost known base spent paid) (hk : k ∉ known) : k ∉ paid :=
  fun hmem => hk (h.known k hmem)

theorem sum_cost_le {S : Finset κ} (hpaid : paid ⊆ S) :
    base + ∑ k ∈ paid, cost k ≤ base + ∑ k ∈ S, cost k :=
  Nat.add_le_add_left (Finset.sum_le_sum_of_subset hpaid) base

variable [DecidableEq κ]

theorem Settled.spend (h : Settled cost known base spent paid) (hk : k ∉ known)
    (hspent : spent' ≤ spent + cost k) : spent' ≤ base + ∑ k ∈ insert k paid, cost k := by
  rw [Finset.sum_insert (h.notMem hk)]
  have hle := h.spent_le
  omega

theorem Settled.buy (h : Settled cost known base spent paid) (hk : k ∉ known)
    (hknown : known ⊆ known') (hk' : k ∈ known') (hspent : spent' ≤ spent + cost k) :
    Settled cost known' base spent' (insert k paid) where
  known x hx := by
    rcases Finset.mem_insert.mp hx with rfl | hx
    · exact hk'
    · exact hknown (h.known x hx)
  spent_le := h.spend hk hspent

end Ledger
