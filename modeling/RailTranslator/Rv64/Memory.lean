import Mathlib.Data.Set.BooleanAlgebra
import Mathlib.Order.CompletePartialOrder
import RailTranslator.Rv64.Word

/-!
Byte-addressed memory and the register file.

Memory is total and addresses wrap, so a range of bytes is described by a
start and a distance: `x` lies in the `n` bytes from `a` when the difference
`x - a`, taken modulo `2 ^ 64`, is below `n`. Every statement about overlap
in this library is phrased that way, and none of them needs a side condition
that excludes ranges around address zero.
-/

namespace Rv64

abbrev Mem := DWord → BitVec 8

def bytes (a : DWord) (n : ℕ) : Set DWord := {x | (x - a).toNat < n}

@[simp] theorem mem_bytes {a x : DWord} {n : ℕ} : x ∈ bytes a n ↔ (x - a).toNat < n := Iff.rfl

def Apart (a : DWord) (n : ℕ) (b : DWord) (m : ℕ) : Prop := Disjoint (bytes a n) (bytes b m)

theorem Apart.symm {a b : DWord} {n m : ℕ} (h : Apart a n b m) : Apart b m a n :=
  Disjoint.symm h

theorem Apart.not_mem {a b x : DWord} {n m : ℕ} (h : Apart a n b m) (hx : x ∈ bytes a n) :
    x ∉ bytes b m :=
  Set.disjoint_left.mp h hx

/-- Two ranges are separate when each starts behind the end of the other. -/
theorem apart_of_le {a b : DWord} {n m : ℕ} (hn : n ≤ (b - a).toNat) (hm : m ≤ (a - b).toNat) :
    Apart a n b m := by
  refine Set.disjoint_left.mpr fun x hxa hxb => ?_
  rw [mem_bytes] at hxa hxb
  bv_omega

/-! ### Little-endian access -/

/-- The `n` bytes from `a` on, little endian, zero extended. -/
def Mem.read (m : Mem) (a : DWord) : ℕ → DWord
  | 0 => 0
  | n + 1 => (Mem.read m (a + 1) n <<< 8) ||| (m a).setWidth 64

/-- Memory with the low `n` bytes of `v` stored from `a` on. -/
def Mem.write (m : Mem) (a : DWord) (n : ℕ) (v : DWord) : Mem := fun x =>
  if (x - a).toNat < n then v.extractLsb' (8 * (x - a).toNat) 8 else m x

theorem Mem.write_of_mem {m : Mem} {a x : DWord} {n : ℕ} {v : DWord} (h : x ∈ bytes a n) :
    m.write a n v x = v.extractLsb' (8 * (x - a).toNat) 8 :=
  if_pos h

theorem Mem.write_of_not_mem {m : Mem} {a x : DWord} {n : ℕ} {v : DWord} (h : x ∉ bytes a n) :
    m.write a n v x = m x :=
  if_neg h

theorem Mem.read_congr {m m' : Mem} {a : DWord} {n : ℕ} (hn : n < 2 ^ 64)
    (h : ∀ x ∈ bytes a n, m x = m' x) : m.read a n = m'.read a n := by
  induction n generalizing a with
  | zero => rfl
  | succ n ih =>
      have hfirst : m a = m' a := h a (by simp)
      have hrest : m.read (a + 1) n = m'.read (a + 1) n := by
        refine ih (by omega) fun x hx => h x ?_
        have hx' : (x - (a + 1)).toNat < n := hx
        show (x - a).toNat < n + 1
        bv_omega
      simp only [Mem.read, hfirst, hrest]

theorem Mem.getLsbD_read (m : Mem) (a : DWord) (n i : ℕ) (hi : i < 64) :
    (m.read a n).getLsbD i =
      (decide (i < 8 * n) && (m (a + BitVec.ofNat 64 (i / 8))).getLsbD (i % 8)) := by
  induction n generalizing a i with
  | zero => simp [Mem.read]
  | succ n ih =>
      simp only [Mem.read, BitVec.getLsbD_or, BitVec.getLsbD_shiftLeft, BitVec.getLsbD_setWidth]
      by_cases h8 : i < 8
      · have hd : i / 8 = 0 := by omega
        have hm : i % 8 = i := by omega
        simp [h8, hd, hm, hi]
        omega
      · have hhigh : (m a).getLsbD i = false := BitVec.getLsbD_of_ge _ _ (by omega)
        have haddr : a + 1 + BitVec.ofNat 64 ((i - 8) / 8) = a + BitVec.ofNat 64 (i / 8) := by
          have : i / 8 = (i - 8) / 8 + 1 := by omega
          rw [this, BitVec.ofNat_add, BitVec.add_assoc, BitVec.add_comm 1]
          rfl
        have hmod : (i - 8) % 8 = i % 8 := by omega
        rw [ih (a + 1) (i - 8) (by omega), haddr, hmod, hhigh]
        simp only [h8, hi, decide_true, decide_false, Bool.not_false, Bool.and_true,
          Bool.true_and, Bool.or_false, Bool.and_false]
        congr 1
        exact decide_eq_decide.mpr (by omega)

@[simp] theorem Mem.read_write_same (m : Mem) (a v : DWord) : (m.write a 8 v).read a 8 = v := by
  refine BitVec.eq_of_getLsbD_eq fun i hi => ?_
  have hoff : (a + BitVec.ofNat 64 (i / 8) - a).toNat = i / 8 := by bv_omega
  have hin : a + BitVec.ofNat 64 (i / 8) ∈ bytes a 8 := by
    show (a + BitVec.ofNat 64 (i / 8) - a).toNat < 8
    omega
  rw [Mem.getLsbD_read _ _ _ _ hi, Mem.write_of_mem hin, hoff, BitVec.getLsbD_extractLsb']
  have hsum : 8 * (i / 8) + i % 8 = i := by omega
  have hlow : i % 8 < 8 := by omega
  simp [hsum, hlow, hi]

theorem Mem.read_eq_zero {m : Mem} {a : DWord} {n : ℕ} (hn : n < 2 ^ 64)
    (h : ∀ x ∈ bytes a n, m x = 0) : m.read a n = 0 := by
  have hzero (b : DWord) (k : ℕ) : Mem.read (fun _ => 0) b k = 0 := by
    induction k generalizing b with
    | zero => rfl
    | succ k ih => rw [Mem.read, ih]; rfl
  rw [Mem.read_congr hn h, hzero]

theorem Mem.read_write_apart {m : Mem} {a b v : DWord} {n k : ℕ} (hk : k < 2 ^ 64)
    (h : Apart b k a n) : (m.write a n v).read b k = m.read b k :=
  Mem.read_congr hk fun _ hx => Mem.write_of_not_mem (h.not_mem hx)

/-! ### The register file -/

/-- Thirty-two registers of which the first reads as zero. -/
@[ext] structure Regs where
  val : Reg → DWord
  zero : val 0 = 0

namespace Regs

instance : CoeFun Regs (fun _ => Reg → DWord) := ⟨Regs.val⟩

theorem const_zero : (fun _ : Reg => (0 : DWord)) 0 = 0 := rfl

@[simp] theorem apply_zero (r : Regs) : r 0#5 = 0#64 := r.zero

def set (r : Regs) (d : Reg) (v : DWord) : Regs where
  val x := if x = d ∧ d ≠ 0 then v else r x
  zero := by
    rw [if_neg (by rintro ⟨rfl, h⟩; exact h rfl)]
    exact r.zero

theorem set_apply (r : Regs) (d x : Reg) (v : DWord) :
    r.set d v x = if x = d ∧ d ≠ 0 then v else r x := rfl

@[simp] theorem set_zero (r : Regs) (v : DWord) : r.set 0#5 v = r := by
  ext x; simp [set]

theorem set_same (r : Regs) {d : Reg} (v : DWord) (h : d ≠ 0) : r.set d v d = v :=
  if_pos ⟨rfl, h⟩

theorem set_of_ne (r : Regs) {d x : Reg} (v : DWord) (h : x ≠ d) : r.set d v x = r x :=
  if_neg fun hx => h hx.1

@[simp] theorem set_set (r : Regs) (d : Reg) (v w : DWord) : (r.set d v).set d w = r.set d w := by
  refine Regs.ext (funext fun x => ?_)
  simp only [set_apply]
  split <;> rfl

@[simp] theorem set_self (r : Regs) (d : Reg) : r.set d (r d) = r := by
  refine Regs.ext (funext fun x => ?_)
  simp only [set_apply]
  split
  · rename_i h; rw [h.1]
  · rfl

theorem set_comm (r : Regs) {d e : Reg} (v w : DWord) (h : d ≠ e) :
    (r.set d v).set e w = (r.set e w).set d v := by
  refine Regs.ext (funext fun x => ?_)
  simp only [set_apply]
  by_cases hd : x = d <;> by_cases he : x = e <;> simp_all

theorem eq_of_forall_ne_zero {r r' : Regs} (h : ∀ x : Reg, x ≠ 0 → r x = r' x) : r = r' := by
  refine Regs.ext (funext fun x => ?_)
  by_cases hx : x = 0
  · rw [hx, r.zero, r'.zero]
  · exact h x hx

end Regs

/-! ### Register names -/

@[match_pattern] abbrev ra : Reg := 1
@[match_pattern] abbrev sp : Reg := 2
@[match_pattern] abbrev a0 : Reg := 10
@[match_pattern] abbrev a1 : Reg := 11
@[match_pattern] abbrev a2 : Reg := 12
@[match_pattern] abbrev a3 : Reg := 13
@[match_pattern] abbrev t5 : Reg := 30
@[match_pattern] abbrev t6 : Reg := 31

end Rv64
