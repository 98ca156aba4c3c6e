import RailTranslator.Rv64.Run

/-!
Code that is appended to and overwritten in place.

`StandsAt m k ws` says that the words `ws` stand in the list `m` from index
`k` on. It is kept when something is appended, and a word that is overwritten
is overwritten in the segment it belongs to and in no segment apart from it.
`StandsBut` leaves some of the words open.
-/

namespace Rv64

/-- The words `ws` stand in `m` from index `k` on. -/
def StandsAt (m : List Word) (k : ℕ) (ws : List Word) : Prop :=
  ∃ pre post, pre.length = k ∧ m = pre ++ (ws ++ post)

namespace StandsAt

variable {m m' ws : List Word} {k : ℕ}

theorem length_le (h : StandsAt m k ws) : k + ws.length ≤ m.length := by
  obtain ⟨pre, post, rfl, rfl⟩ := h
  simp only [List.length_append]
  omega

theorem mono (h : StandsAt m k ws) (hm : m <+: m') : StandsAt m' k ws := by
  obtain ⟨pre, post, hk, rfl⟩ := h
  obtain ⟨rest, rfl⟩ := hm
  exact ⟨pre, post ++ rest, hk, by simp only [List.append_assoc]⟩

theorem set_inside (h : StandsAt m k ws) {j : ℕ} (hj : j < ws.length) (w : Word) :
    StandsAt (m.set (k + j) w) k (ws.set j w) := by
  obtain ⟨pre, post, rfl, rfl⟩ := h
  refine ⟨pre, post, rfl, ?_⟩
  rw [List.set_append_right _ _ (by omega), Nat.add_sub_cancel_left, List.set_append_left _ _ hj]

theorem set_outside (h : StandsAt m k ws) {i : ℕ} (hi : i < k ∨ k + ws.length ≤ i) (w : Word) :
    StandsAt (m.set i w) k ws := by
  obtain ⟨pre, post, rfl, rfl⟩ := h
  rcases hi with hi | hi
  · exact ⟨pre.set i w, post, by simp, List.set_append_left _ _ hi⟩
  · refine ⟨pre, post.set (i - pre.length - ws.length) w, rfl, ?_⟩
    rw [List.set_append_right _ _ (by omega), List.set_append_right _ _ (by omega)]

theorem codeAt (h : StandsAt m k ws) {base : DWord} (hfit : 4 * m.length ≤ 2 ^ 64) :
    CodeAt (image base m) (wordAddr base k) ws := by
  have hlen := h.length_le
  obtain ⟨pre, post, rfl, rfl⟩ := h
  exact codeAt_image (by omega)

end StandsAt

/-- The words `ws` stand in `m` from index `k` on, but for those at indices in
`holes`. -/
structure StandsBut (m : List Word) (k : ℕ) (ws : List Word) (holes : Set ℕ) : Prop where
  length_le : k + ws.length ≤ m.length
  words : ∀ i, i < ws.length → k + i ∉ holes → m[k + i]? = ws[i]?

theorem StandsAt.standsBut {m ws : List Word} {k : ℕ} (h : StandsAt m k ws) (holes : Set ℕ) :
    StandsBut m k ws holes where
  length_le := h.length_le
  words i hi _ := by
    obtain ⟨pre, post, rfl, rfl⟩ := h
    rw [List.getElem?_append_right (Nat.le_add_right _ _), Nat.add_sub_cancel_left,
      List.getElem?_append_left hi]

namespace StandsBut

variable {m m' ws : List Word} {k : ℕ} {holes : Set ℕ}

theorem mono (h : StandsBut m k ws holes) (hm : m <+: m') : StandsBut m' k ws holes where
  length_le := h.length_le.trans hm.length_le
  words i hi hhole := by
    have hlen := h.length_le
    obtain ⟨rest, rfl⟩ := hm
    rw [List.getElem?_append_left (by omega)]
    exact h.words i hi hhole

theorem set (h : StandsBut m k ws holes) {i : ℕ} (hi : i ∈ holes ∨ i < k ∨ k + ws.length ≤ i)
    (w : Word) : StandsBut (m.set i w) k ws holes where
  length_le := by
    rw [List.length_set]
    exact h.length_le
  words j hj hhole := by
    have hne : i ≠ k + j := by
      rintro rfl
      rcases hi with hi | hi | hi
      · exact hhole hi
      · omega
      · omega
    rw [List.getElem?_set_ne hne]
    exact h.words j hj hhole

end StandsBut

end Rv64
