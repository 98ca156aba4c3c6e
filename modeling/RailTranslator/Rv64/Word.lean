import Mathlib.Data.BitVec

/-!
The instruction word: its fields and its formats.

A 32-bit RISC-V word is read through fields at fixed positions, and the six
formats differ only in how the remaining bits are gathered into an immediate.
This module states both directions once. The functions `Word.opcode`,
`Word.rd`, … take a word apart; `rType`, `iType`, … put one together by
concatenation, in the order in which the architecture draws it, most
significant field first. Neither direction mentions a shift or a mask, so it
is fit to be the specification of an encoder or a decoder that is written
with them.
-/

namespace Rv64

abbrev Word := BitVec 32
abbrev DWord := BitVec 64

abbrev Reg := BitVec 5

namespace Word

def opcode (w : Word) : BitVec 7 := w.extractLsb' 0 7
def rd (w : Word) : Reg := w.extractLsb' 7 5
def funct3 (w : Word) : BitVec 3 := w.extractLsb' 12 3
def rs1 (w : Word) : Reg := w.extractLsb' 15 5
def rs2 (w : Word) : Reg := w.extractLsb' 20 5
def funct7 (w : Word) : BitVec 7 := w.extractLsb' 25 7

def immI (w : Word) : BitVec 12 := w.extractLsb' 20 12

def immS (w : Word) : BitVec 12 := w.extractLsb' 25 7 ++ w.extractLsb' 7 5

def immB (w : Word) : BitVec 13 :=
  w.extractLsb' 31 1 ++ w.extractLsb' 7 1 ++ w.extractLsb' 25 6 ++ w.extractLsb' 8 4 ++ 0#1

def immU (w : Word) : BitVec 20 := w.extractLsb' 12 20

def immJ (w : Word) : BitVec 21 :=
  w.extractLsb' 31 1 ++ w.extractLsb' 12 8 ++ w.extractLsb' 20 1 ++ w.extractLsb' 21 10 ++ 0#1

end Word

/-! ### The formats -/

def rType (funct7 : BitVec 7) (rs2 rs1 : Reg) (funct3 : BitVec 3) (rd : Reg)
    (opcode : BitVec 7) : Word :=
  funct7 ++ rs2 ++ rs1 ++ funct3 ++ rd ++ opcode

def iType (imm : BitVec 12) (rs1 : Reg) (funct3 : BitVec 3) (rd : Reg)
    (opcode : BitVec 7) : Word :=
  imm ++ rs1 ++ funct3 ++ rd ++ opcode

def sType (imm : BitVec 12) (rs2 rs1 : Reg) (funct3 : BitVec 3) (opcode : BitVec 7) : Word :=
  imm.extractLsb' 5 7 ++ rs2 ++ rs1 ++ funct3 ++ imm.extractLsb' 0 5 ++ opcode

/-- Bit 0 of a branch displacement is not stored. -/
def bType (imm : BitVec 13) (rs2 rs1 : Reg) (funct3 : BitVec 3) (opcode : BitVec 7) : Word :=
  imm.extractLsb' 12 1 ++ imm.extractLsb' 5 6 ++ rs2 ++ rs1 ++ funct3 ++
    imm.extractLsb' 1 4 ++ imm.extractLsb' 11 1 ++ opcode

def uType (imm : BitVec 20) (rd : Reg) (opcode : BitVec 7) : Word :=
  imm ++ rd ++ opcode

/-- Bit 0 of a jump displacement is not stored. -/
def jType (imm : BitVec 21) (rd : Reg) (opcode : BitVec 7) : Word :=
  imm.extractLsb' 20 1 ++ imm.extractLsb' 1 10 ++ imm.extractLsb' 11 1 ++
    imm.extractLsb' 12 8 ++ rd ++ opcode

/-! ### Reading a format back

Every bit of a field of an assembled word is a bit of the argument it was
assembled from. The proofs are all the same: name the bit, push it through
the concatenations, and let the arithmetic of the positions decide. -/

section Fields

variable (f7 op : BitVec 7) (r2 r1 d : Reg) (f3 : BitVec 3)
variable (i12 : BitVec 12) (i13 : BitVec 13) (i20 : BitVec 20) (i21 : BitVec 21)

@[simp] theorem opcode_rType : (rType f7 r2 r1 f3 d op).opcode = op := by
  refine BitVec.eq_of_getLsbD_eq fun i hi => ?_
  simp only [Word.opcode, rType, BitVec.getLsbD_append, BitVec.getLsbD_extractLsb']
  grind

@[simp] theorem rd_rType : (rType f7 r2 r1 f3 d op).rd = d := by
  refine BitVec.eq_of_getLsbD_eq fun i hi => ?_
  simp only [Word.rd, rType, BitVec.getLsbD_append, BitVec.getLsbD_extractLsb']
  grind

@[simp] theorem funct3_rType : (rType f7 r2 r1 f3 d op).funct3 = f3 := by
  refine BitVec.eq_of_getLsbD_eq fun i hi => ?_
  simp only [Word.funct3, rType, BitVec.getLsbD_append, BitVec.getLsbD_extractLsb']
  grind

@[simp] theorem rs1_rType : (rType f7 r2 r1 f3 d op).rs1 = r1 := by
  refine BitVec.eq_of_getLsbD_eq fun i hi => ?_
  simp only [Word.rs1, rType, BitVec.getLsbD_append, BitVec.getLsbD_extractLsb']
  grind

@[simp] theorem rs2_rType : (rType f7 r2 r1 f3 d op).rs2 = r2 := by
  refine BitVec.eq_of_getLsbD_eq fun i hi => ?_
  simp only [Word.rs2, rType, BitVec.getLsbD_append, BitVec.getLsbD_extractLsb']
  grind

@[simp] theorem funct7_rType : (rType f7 r2 r1 f3 d op).funct7 = f7 := by
  refine BitVec.eq_of_getLsbD_eq fun i hi => ?_
  simp only [Word.funct7, rType, BitVec.getLsbD_append, BitVec.getLsbD_extractLsb']
  grind

@[simp] theorem opcode_iType : (iType i12 r1 f3 d op).opcode = op := by
  refine BitVec.eq_of_getLsbD_eq fun i hi => ?_
  simp only [Word.opcode, iType, BitVec.getLsbD_append, BitVec.getLsbD_extractLsb']
  grind

@[simp] theorem rd_iType : (iType i12 r1 f3 d op).rd = d := by
  refine BitVec.eq_of_getLsbD_eq fun i hi => ?_
  simp only [Word.rd, iType, BitVec.getLsbD_append, BitVec.getLsbD_extractLsb']
  grind

@[simp] theorem funct3_iType : (iType i12 r1 f3 d op).funct3 = f3 := by
  refine BitVec.eq_of_getLsbD_eq fun i hi => ?_
  simp only [Word.funct3, iType, BitVec.getLsbD_append, BitVec.getLsbD_extractLsb']
  grind

@[simp] theorem rs1_iType : (iType i12 r1 f3 d op).rs1 = r1 := by
  refine BitVec.eq_of_getLsbD_eq fun i hi => ?_
  simp only [Word.rs1, iType, BitVec.getLsbD_append, BitVec.getLsbD_extractLsb']
  grind

@[simp] theorem immI_iType : (iType i12 r1 f3 d op).immI = i12 := by
  refine BitVec.eq_of_getLsbD_eq fun i hi => ?_
  simp only [Word.immI, iType, BitVec.getLsbD_append, BitVec.getLsbD_extractLsb']
  grind

@[simp] theorem opcode_sType : (sType i12 r2 r1 f3 op).opcode = op := by
  refine BitVec.eq_of_getLsbD_eq fun i hi => ?_
  simp only [Word.opcode, sType, BitVec.getLsbD_append, BitVec.getLsbD_extractLsb']
  grind

@[simp] theorem funct3_sType : (sType i12 r2 r1 f3 op).funct3 = f3 := by
  refine BitVec.eq_of_getLsbD_eq fun i hi => ?_
  simp only [Word.funct3, sType, BitVec.getLsbD_append, BitVec.getLsbD_extractLsb']
  grind

@[simp] theorem rs1_sType : (sType i12 r2 r1 f3 op).rs1 = r1 := by
  refine BitVec.eq_of_getLsbD_eq fun i hi => ?_
  simp only [Word.rs1, sType, BitVec.getLsbD_append, BitVec.getLsbD_extractLsb']
  grind

@[simp] theorem rs2_sType : (sType i12 r2 r1 f3 op).rs2 = r2 := by
  refine BitVec.eq_of_getLsbD_eq fun i hi => ?_
  simp only [Word.rs2, sType, BitVec.getLsbD_append, BitVec.getLsbD_extractLsb']
  grind

@[simp] theorem immS_sType : (sType i12 r2 r1 f3 op).immS = i12 := by
  refine BitVec.eq_of_getLsbD_eq fun i hi => ?_
  simp only [Word.immS, sType, BitVec.getLsbD_append, BitVec.getLsbD_extractLsb']
  grind

@[simp] theorem opcode_uType : (uType i20 d op).opcode = op := by
  refine BitVec.eq_of_getLsbD_eq fun i hi => ?_
  simp only [Word.opcode, uType, BitVec.getLsbD_append, BitVec.getLsbD_extractLsb']
  grind

@[simp] theorem rd_uType : (uType i20 d op).rd = d := by
  refine BitVec.eq_of_getLsbD_eq fun i hi => ?_
  simp only [Word.rd, uType, BitVec.getLsbD_append, BitVec.getLsbD_extractLsb']
  grind

@[simp] theorem immU_uType : (uType i20 d op).immU = i20 := by
  refine BitVec.eq_of_getLsbD_eq fun i hi => ?_
  simp only [Word.immU, uType, BitVec.getLsbD_append, BitVec.getLsbD_extractLsb']
  grind

@[simp] theorem opcode_bType : (bType i13 r2 r1 f3 op).opcode = op := by
  refine BitVec.eq_of_getLsbD_eq fun i hi => ?_
  simp only [Word.opcode, bType, BitVec.getLsbD_append, BitVec.getLsbD_extractLsb']
  grind

@[simp] theorem funct3_bType : (bType i13 r2 r1 f3 op).funct3 = f3 := by
  refine BitVec.eq_of_getLsbD_eq fun i hi => ?_
  simp only [Word.funct3, bType, BitVec.getLsbD_append, BitVec.getLsbD_extractLsb']
  grind

@[simp] theorem rs1_bType : (bType i13 r2 r1 f3 op).rs1 = r1 := by
  refine BitVec.eq_of_getLsbD_eq fun i hi => ?_
  simp only [Word.rs1, bType, BitVec.getLsbD_append, BitVec.getLsbD_extractLsb']
  grind

@[simp] theorem rs2_bType : (bType i13 r2 r1 f3 op).rs2 = r2 := by
  refine BitVec.eq_of_getLsbD_eq fun i hi => ?_
  simp only [Word.rs2, bType, BitVec.getLsbD_append, BitVec.getLsbD_extractLsb']
  grind

@[simp] theorem opcode_jType : (jType i21 d op).opcode = op := by
  refine BitVec.eq_of_getLsbD_eq fun i hi => ?_
  simp only [Word.opcode, jType, BitVec.getLsbD_append, BitVec.getLsbD_extractLsb']
  grind

@[simp] theorem rd_jType : (jType i21 d op).rd = d := by
  refine BitVec.eq_of_getLsbD_eq fun i hi => ?_
  simp only [Word.rd, jType, BitVec.getLsbD_append, BitVec.getLsbD_extractLsb']
  grind

theorem immB_bType (h : i13.getLsbD 0 = false) : (bType i13 r2 r1 f3 op).immB = i13 := by
  refine BitVec.eq_of_getLsbD_eq fun i hi => ?_
  simp only [Word.immB, bType, BitVec.getLsbD_append, BitVec.getLsbD_extractLsb',
    BitVec.getLsbD_zero]
  grind

theorem immJ_jType (h : i21.getLsbD 0 = false) : (jType i21 d op).immJ = i21 := by
  refine BitVec.eq_of_getLsbD_eq fun i hi => ?_
  simp only [Word.immJ, jType, BitVec.getLsbD_append, BitVec.getLsbD_extractLsb',
    BitVec.getLsbD_zero]
  grind

end Fields

/-! ### A word is its fields -/

section Rebuild

variable (w : Word)

theorem rType_fields : rType w.funct7 w.rs2 w.rs1 w.funct3 w.rd w.opcode = w := by
  refine BitVec.eq_of_getLsbD_eq fun i hi => ?_
  simp only [rType, Word.funct7, Word.rs2, Word.rs1, Word.funct3, Word.rd, Word.opcode,
    BitVec.getLsbD_append, BitVec.getLsbD_extractLsb']
  grind

theorem iType_fields : iType w.immI w.rs1 w.funct3 w.rd w.opcode = w := by
  refine BitVec.eq_of_getLsbD_eq fun i hi => ?_
  simp only [iType, Word.immI, Word.rs1, Word.funct3, Word.rd, Word.opcode,
    BitVec.getLsbD_append, BitVec.getLsbD_extractLsb']
  grind

theorem sType_fields : sType w.immS w.rs2 w.rs1 w.funct3 w.opcode = w := by
  refine BitVec.eq_of_getLsbD_eq fun i hi => ?_
  simp only [sType, Word.immS, Word.rs2, Word.rs1, Word.funct3, Word.opcode,
    BitVec.getLsbD_append, BitVec.getLsbD_extractLsb']
  grind

theorem uType_fields : uType w.immU w.rd w.opcode = w := by
  refine BitVec.eq_of_getLsbD_eq fun i hi => ?_
  simp only [uType, Word.immU, Word.rd, Word.opcode,
    BitVec.getLsbD_append, BitVec.getLsbD_extractLsb']
  grind

theorem bType_fields : bType w.immB w.rs2 w.rs1 w.funct3 w.opcode = w := by
  refine BitVec.eq_of_getLsbD_eq fun i hi => ?_
  simp only [bType, Word.immB, Word.rs2, Word.rs1, Word.funct3, Word.opcode,
    BitVec.getLsbD_append, BitVec.getLsbD_extractLsb']
  grind

theorem jType_fields : jType w.immJ w.rd w.opcode = w := by
  refine BitVec.eq_of_getLsbD_eq fun i hi => ?_
  simp only [jType, Word.immJ, Word.rd, Word.opcode,
    BitVec.getLsbD_append, BitVec.getLsbD_extractLsb']
  grind

end Rebuild

/-! ### Jump displacements -/

def InJumpRange (x : DWord) : Prop := -2 ^ 20 ≤ x.toInt ∧ x.toInt < 2 ^ 20

instance (x : DWord) : Decidable (InJumpRange x) := inferInstanceAs (Decidable (_ ∧ _))

theorem inJumpRange_iff (x : DWord) : InJumpRange x ↔ (x.setWidth 21).signExtend 64 = x := by
  have hlow : ((x.setWidth 21).signExtend 64).toInt = Int.bmod x.toNat (2 ^ 21) := by
    rw [BitVec.toInt_signExtend_of_le (by decide), BitVec.toInt_setWidth]
  have hx : x.toInt = Int.bmod x.toNat (2 ^ 64) := BitVec.toInt_eq_toNat_bmod x
  have hlt := x.isLt
  rw [InJumpRange, ← BitVec.toInt_inj, hlow, hx]
  simp only [Int.bmod]
  split <;> split <;> omega

end Rv64
