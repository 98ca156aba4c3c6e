import RailTranslator.ElfReader

/-!
Which word `getNextInstruction` returns.

The distance from the start of the text to the program counter is kept in an
`int` and compared with `size() - 4`, a `size_t`. The comparison turns a
negative distance into a large one, as it should; but it is strict, so that
the last word of the text is never returned, and in a text of less than four
bytes the right-hand side is larger than any index.
-/

namespace RailTranslator

open Rv64

namespace ElfReader

variable (e : ElfReader)

/-! ### What is asked for -/

def distance : ℤ := e.programCounter.toInt - e.textSectionOffset.toInt

def InText : Prop := 0 ≤ e.distance ∧ e.distance + 4 ≤ e.textSection.length

instance : Decidable e.InText := inferInstanceAs (Decidable (_ ∧ _))

def leWord (k : ℕ) : Word :=
  e.textSection.getD (k + 3) 0 ++ e.textSection.getD (k + 2) 0 ++ e.textSection.getD (k + 1) 0 ++
    e.textSection.getD k 0

/-- `offset`, converted to `size_t`. -/
def offset : DWord := (e.programCounter - e.textSectionOffset).signExtend 64

/-- The indices at which `getNextInstruction` reads the text. -/
def indexed : List DWord :=
  if e.offset.ult (BitVec.ofNat 64 e.textSection.length - 4) then
    [e.offset, e.offset + 1, e.offset + 2, e.offset + 3]
  else []

/-- `getNextInstruction` returns the word at the program counter, or zero where
there is none, and stays within the text. -/
structure FetchesRight : Prop where
  inside : e.InText → e.getNextInstruction = e.leWord e.distance.toNat
  outside : ¬ e.InText → e.getNextInstruction = 0
  indices : ∀ i ∈ e.indexed, i.toNat < e.textSection.length

/-! ### The comparison -/

variable {e}

theorem offset_cases (e : ElfReader) :
    (-2 ^ 31 ≤ e.distance ∧ e.distance < 2 ^ 31 ∧ e.offset.toInt = e.distance) ∨
      (2 ^ 31 ≤ e.distance ∧ e.offset.toInt = e.distance - 2 ^ 32 ∧ e.offset.toInt < 0) ∨
      (e.distance < -2 ^ 31 ∧ e.offset.toInt = e.distance + 2 ^ 32 ∧ 0 < e.offset.toInt) := by
  have hoffset : e.offset.toInt = e.distance.bmod (2 ^ 32) := by
    rw [offset, BitVec.toInt_signExtend_of_le (by omega), BitVec.toInt_sub, distance]
  have hpc := @BitVec.le_toInt 32 e.programCounter
  have hpc' := @BitVec.toInt_lt 32 e.programCounter
  have hbase := @BitVec.le_toInt 32 e.textSectionOffset
  have hbase' := @BitVec.toInt_lt 32 e.textSectionOffset
  rw [hoffset, Int.bmod_def]
  unfold distance
  omega

theorem offset_toInt_bounds (e : ElfReader) :
    -2 ^ 31 ≤ e.offset.toInt ∧ e.offset.toInt < 2 ^ 31 := by
  rw [offset, BitVec.toInt_signExtend_of_le (by omega)]
  exact ⟨BitVec.le_toInt _, BitVec.toInt_lt⟩

theorem guard_iff {n : ℕ} {x : DWord} (hn : 4 ≤ n) (hn' : n < 2 ^ 63) :
    x.ult (BitVec.ofNat 64 n - 4) = true ↔ 0 ≤ x.toInt ∧ x.toInt + 4 < n := by
  have hsize : (BitVec.ofNat 64 n - 4).toNat = n - 4 := by bv_omega
  rw [BitVec.ult, decide_eq_true_eq, hsize, BitVec.toInt_eq_toNat_cond]
  have := x.isLt
  split <;> omega

/-- In a short text the comparison fails only for the distances from which a
word would reach into the text from in front of it. -/
theorem guard_short_iff {n : ℕ} {x : DWord} (hn : n < 4) :
    x.ult (BitVec.ofNat 64 n - 4) = true ↔ ¬ ((n : ℤ) - 4 ≤ x.toInt ∧ x.toInt < 0) := by
  have hsize : (BitVec.ofNat 64 n - 4).toNat = 2 ^ 64 + n - 4 := by bv_omega
  rw [BitVec.ult, decide_eq_true_eq, hsize, BitVec.toInt_eq_toNat_cond]
  have := x.isLt
  split <;> omega

theorem leWord_eq (b₀ b₁ b₂ b₃ : BitVec 8) :
    b₀.setWidth 32 ||| b₁.setWidth 32 <<< 8 ||| b₂.setWidth 32 <<< 16 ||| b₃.setWidth 32 <<< 24 =
      (b₃ ++ b₂ ++ b₁ ++ b₀ : Word) := by
  apply BitVec.eq_of_getLsbD_eq
  intro i hi
  simp only [BitVec.getLsbD_or, BitVec.getLsbD_shiftLeft, BitVec.getLsbD_setWidth,
    BitVec.getLsbD_append]
  grind

theorem getNextInstruction_of_not_guard
    (h : ¬ e.offset.ult (BitVec.ofNat 64 e.textSection.length - 4) = true) :
    e.getNextInstruction = 0 ∧ e.indexed = [] :=
  ⟨if_neg h, if_neg h⟩

theorem getNextInstruction_of_guard {k : ℕ} (hk : e.offset.toNat = k) (hk' : k + 4 ≤ 2 ^ 64)
    (h : e.offset.ult (BitVec.ofNat 64 e.textSection.length - 4) = true) :
    e.getNextInstruction = e.leWord k ∧
      e.indexed = [e.offset, e.offset + 1, e.offset + 2, e.offset + 3] := by
  refine ⟨?_, if_pos h⟩
  have h1 : (e.offset + 1).toNat = k + 1 := by bv_omega
  have h2 : (e.offset + 2).toNat = k + 2 := by bv_omega
  have h3 : (e.offset + 3).toNat = k + 3 := by bv_omega
  rw [leWord, ← leWord_eq]
  refine (if_pos h).trans ?_
  show e.textByte e.offset ||| e.textByte (e.offset + 1) <<< 8 |||
    e.textByte (e.offset + 2) <<< 16 ||| e.textByte (e.offset + 3) <<< 24 = _
  simp only [textByte, hk, h1, h2, h3]

/-! ### When the right word is returned -/

/-- The text has four bytes, the distance fits into an `int` and the word asked
for is not the last one of the text. Where this fails, the words that are taken
for one another are both zero, or a short text is asked for in front of it. -/
structure Fetchable (e : ElfReader) : Prop where
  short : e.textSection.length < 4 →
    ((e.textSection.length : ℤ) - 4 ≤ e.distance ∧ e.distance < 0) ∨
      2 ^ 32 + (e.textSection.length : ℤ) - 4 ≤ e.distance
  last : 4 ≤ e.textSection.length → e.distance + 4 = e.textSection.length →
    e.leWord e.distance.toNat = 0
  above : 4 ≤ e.textSection.length → 2 ^ 31 ≤ e.distance →
    e.distance + 4 ≤ e.textSection.length → e.leWord e.distance.toNat = 0
  below : 4 ≤ e.textSection.length → e.distance < -2 ^ 31 →
    e.distance + 2 ^ 32 + 4 < e.textSection.length → e.leWord (e.distance + 2 ^ 32).toNat = 0

theorem fetchesRight_iff_of_short (hn : e.textSection.length < 4) :
    e.FetchesRight ↔ (e.textSection.length : ℤ) - 4 ≤ e.offset.toInt ∧ e.offset.toInt < 0 := by
  have hguard := @guard_short_iff _ e.offset hn
  constructor
  · intro h
    by_contra hnot
    have hin := h.indices
    rw [show e.indexed = _ from if_pos (hguard.mpr hnot)] at hin
    -- the first and the last byte of the word cannot both lie inside
    have h0 := hin e.offset (by simp)
    have h3 := hin (e.offset + 3) (by simp)
    bv_omega
  · intro hbounds
    have hnot := mt hguard.mp (not_not.mpr hbounds)
    obtain ⟨hzero, hnone⟩ := getNextInstruction_of_not_guard hnot
    refine ⟨?_, fun _ => hzero, ?_⟩
    · intro hin
      have := hin.1
      have := hin.2
      omega
    · intro i hi
      rw [hnone] at hi
      cases hi

theorem fetchesRight_iff_of_read (hn : 4 ≤ e.textSection.length)
    (hlen : e.textSection.length < 2 ^ 63) (hlo : 0 ≤ e.offset.toInt)
    (hhi : e.offset.toInt + 4 < e.textSection.length) :
    e.FetchesRight ↔ e.distance = e.offset.toInt ∨ e.leWord e.offset.toInt.toNat = 0 := by
  have hnat : e.offset.toNat = e.offset.toInt.toNat := by
    have hlt := e.offset.isLt
    have hint := BitVec.toInt_eq_toNat_cond e.offset
    split at hint <;> omega
  have hbounds := offset_toInt_bounds e
  obtain ⟨hword, hindexed⟩ := getNextInstruction_of_guard hnat (by omega)
    ((guard_iff hn hlen).mpr ⟨hlo, hhi⟩)
  have hindices : ∀ i ∈ e.indexed, i.toNat < e.textSection.length := by
    rw [hindexed]
    simp only [List.forall_mem_cons, List.not_mem_nil, false_imp_iff, forall_const, and_true]
    refine ⟨?_, ?_, ?_, ?_⟩ <;> bv_omega
  obtain ⟨-, -, heq⟩ | ⟨-, -, hneg⟩ | ⟨hunder, heq, -⟩ := offset_cases e
  · refine iff_of_true ⟨?_, ?_, hindices⟩ (.inl heq.symm)
    · intro _
      rw [hword, heq]
    · intro hout
      exact absurd ⟨by omega, by omega⟩ hout
  · omega
  · have hout : ¬ e.InText := by
      intro hin
      have := hin.1
      omega
    constructor
    · intro h
      right
      rw [← hword]
      exact h.outside hout
    · intro h
      have hzero : e.leWord e.offset.toInt.toNat = 0 := h.resolve_left (by omega)
      refine ⟨fun hin => absurd hin hout, fun _ => ?_, hindices⟩
      rw [hword, hzero]

/-- A text of four bytes or more, and a distance at which it is not read. -/
theorem fetchesRight_iff_of_not_read (hn : 4 ≤ e.textSection.length)
    (hlen : e.textSection.length < 2 ^ 63)
    (hnot : ¬ (0 ≤ e.offset.toInt ∧ e.offset.toInt + 4 < e.textSection.length)) :
    e.FetchesRight ↔ (e.InText → e.leWord e.distance.toNat = 0) := by
  obtain ⟨hzero, hnone⟩ := getNextInstruction_of_not_guard (mt (guard_iff hn hlen).mp hnot)
  constructor
  · intro h hin
    rw [← h.inside hin]
    exact hzero
  · intro h
    refine ⟨fun hin => ?_, fun _ => hzero, ?_⟩
    · rw [hzero, h hin]
    · intro i hi
      rw [hnone] at hi
      cases hi

/-- A vector of `char`s has less than 2^63 elements. -/
theorem fetchesRight_iff (hlen : e.textSection.length < 2 ^ 63) :
    e.FetchesRight ↔ e.Fetchable := by
  have hcases := offset_cases e
  by_cases hn : e.textSection.length < 4
  · rw [fetchesRight_iff_of_short hn]
    constructor
    · intro h
      exact ⟨fun _ => by omega, fun h4 => by omega, fun h4 => by omega, fun h4 => by omega⟩
    · intro h
      have hshort := h.short hn
      omega
  rw [Nat.not_lt] at hn
  by_cases hread : 0 ≤ e.offset.toInt ∧ e.offset.toInt + 4 < e.textSection.length
  · rw [fetchesRight_iff_of_read hn hlen hread.1 hread.2]
    obtain ⟨hlo, hhi, heq⟩ | ⟨-, -, hneg⟩ | ⟨hunder, heq, -⟩ := hcases
    · refine iff_of_true (.inl heq.symm) ⟨?_, ?_, ?_, ?_⟩ <;> intros <;> omega
    · omega
    · rw [heq] at hread ⊢
      constructor
      · intro h
        refine ⟨?_, ?_, ?_, fun _ _ _ => h.resolve_left (by omega)⟩ <;> intros <;> omega
      · intro h
        exact .inr (h.below hn hunder hread.2)
  · rw [fetchesRight_iff_of_not_read hn hlen hread]
    obtain ⟨hlo, hhi, heq⟩ | ⟨hover, heq, hneg⟩ | ⟨hunder, heq, hpos⟩ := hcases
    · rw [heq] at hread
      constructor
      · intro h
        refine ⟨?_, fun _ hlast => h ⟨by omega, by omega⟩, ?_, ?_⟩ <;> intros <;> omega
      · rintro h ⟨hin, hin'⟩
        exact h.last hn (by omega)
    · constructor
      · intro h
        refine ⟨?_, fun _ hlast => h ⟨by omega, by omega⟩, fun _ _ hle => h ⟨by omega, hle⟩, ?_⟩ <;>
          intros <;> omega
      · rintro h ⟨-, hin⟩
        exact h.above hn hover hin
    · rw [heq] at hread
      constructor
      · intro h
        refine ⟨?_, ?_, ?_, ?_⟩ <;> intros <;> omega
      · rintro h ⟨hin, -⟩
        omega

theorem fetchesRight_ofWords :
    (ElfReader.ofWords 0x10000 [0x00000013, 0x00000013]).FetchesRight := by
  refine (fetchesRight_iff (by decide)).mpr ⟨?_, ?_, ?_, ?_⟩ <;> decide

/-- The last word of a text is not returned. -/
theorem not_fetchesRight_last : ¬ ∀ e : ElfReader, e.textSection.length < 2 ^ 63 →
    e.FetchesRight := by
  intro h
  have hin := (h (.ofWords 0x10000 [0x00000013]) (by decide)).inside (by decide)
  exact absurd hin (by decide)

end ElfReader

end RailTranslator
