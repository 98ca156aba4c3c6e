import RailTranslator.Decode
import RailTranslator.Encode
import RailTranslator.Rv64.Instr

/-!
Shifts and masks against fields.

The decoders and encoders of the translator are written with shifts, masks
and or-ed sign bits, the formats of `Rv64.Word` with concatenation. The
lemmas here say, one function at a time, that they are the same: every field
a decoder assigns is the architectural field of the word, zero or sign
extended to an `int`, and every encoder applied to such fields is the format.
Everything later that decodes or encodes an instruction goes through these
statements and never looks at a shift again.
-/

namespace RailTranslator

open Rv64

/-! ### Masks -/

theorem shift_mask (w : Word) (s k : ℕ) :
    w >>> s &&& BitVec.ofNat 32 (2 ^ k - 1) = (w.extractLsb' s k).setWidth 32 := by
  refine BitVec.eq_of_getLsbD_eq fun i hi => ?_
  simp only [BitVec.getLsbD_and, BitVec.getLsbD_ushiftRight, BitVec.getLsbD_ofNat,
    Nat.testBit_two_pow_sub_one, BitVec.getLsbD_setWidth, BitVec.getLsbD_extractLsb', hi,
    decide_true, Bool.true_and]
  grind

theorem mask (w : Word) (k : ℕ) :
    w &&& BitVec.ofNat 32 (2 ^ k - 1) = (w.extractLsb' 0 k).setWidth 32 := by
  simpa using shift_mask w 0 k

/-- An arithmetic shift agrees with a logical one on the bits that come from
the word itself. -/
theorem sshift_mask (w : Word) (s k : ℕ) (h : s + k ≤ 32) :
    w.sshiftRight s &&& BitVec.ofNat 32 (2 ^ k - 1) = (w.extractLsb' s k).setWidth 32 := by
  refine BitVec.eq_of_getLsbD_eq fun i hi => ?_
  simp only [BitVec.getLsbD_and, BitVec.getLsbD_sshiftRight, BitVec.getLsbD_ofNat,
    Nat.testBit_two_pow_sub_one, BitVec.getLsbD_setWidth, BitVec.getLsbD_extractLsb', hi,
    decide_true, Bool.true_and]
  grind

theorem signExtend_signExtend {k : ℕ} (hk : k ≤ 32) (x : BitVec k) :
    (x.signExtend 32).signExtend 64 = x.signExtend 64 := by
  apply BitVec.eq_of_toInt_eq
  rw [BitVec.toInt_signExtend_of_le (by omega), BitVec.toInt_signExtend_of_le (by omega),
    BitVec.toInt_signExtend_of_le (by omega)]

theorem getLsbD_highMask12 : ∀ i < 32, (0xFFFFF000#32).getLsbD i = decide (12 ≤ i) := by decide

theorem getLsbD_highMask20 : ∀ i < 32, (0xFFF00000#32).getLsbD i = decide (20 ≤ i) := by decide

theorem getLsbD_midMask : ∀ i < 32, (0x7fe#32).getLsbD i = (decide (1 ≤ i) && decide (i < 11)) := by
  decide

/-- `(imm & 0x7fe) >> 1` -/
theorem mask_sshift_one (w : Word) :
    (w &&& 0x7fe).sshiftRight 1 = (w.extractLsb' 1 10).setWidth 32 := by
  refine BitVec.eq_of_getLsbD_eq fun i hi => ?_
  simp only [BitVec.getLsbD_sshiftRight, BitVec.getLsbD_and, BitVec.getLsbD_setWidth,
    BitVec.getLsbD_extractLsb', BitVec.msb_and, hi, decide_true, Bool.true_and]
  have hmid := getLsbD_midMask (1 + i)
  have hmsb : (0x7fe#32).msb = false := by decide
  grind

theorem signExtend12_eq (x : BitVec 12) : signExtend12 (x.setWidth 32) = x.signExtend 32 := by
  have hbit : x.setWidth 32 &&& 0x800 ≠ 0 ↔ x.msb = true := by
    revert x; decide +kernel
  refine BitVec.eq_of_getLsbD_eq fun i hi => ?_
  have hhigh := getLsbD_highMask12 i hi
  simp only [signExtend12, hbit, BitVec.getLsbD_signExtend, hi, decide_true, Bool.true_and]
  split <;> simp only [BitVec.getLsbD_or, BitVec.getLsbD_setWidth] <;> grind

/-! ### The opcode -/

theorem opcodeOf_eq (w : Word) : opcodeOf w = w.opcode.setWidth 32 := mask w 7

theorem setWidth_inj {k : ℕ} (hk : k ≤ 32) {x y : BitVec k} :
    x.setWidth 32 = y.setWidth 32 ↔ x = y := by
  constructor
  · intro h
    have := congrArg (BitVec.setWidth k) h
    simpa [BitVec.setWidth_setWidth_of_le _ hk] using this
  · rintro rfl; rfl

theorem opcodeOf_eq_iff {w : Word} {c : BitVec 7} : opcodeOf w = c.setWidth 32 ↔ w.opcode = c := by
  rw [opcodeOf_eq, setWidth_inj (by omega)]

section Decoders

variable {junk : RvInst} {w : Word}

theorem decodeInstruction_rtype
    (hop : w.opcode = Opcode.op ∨ w.opcode = Opcode.op32 ∨ w.opcode = Opcode.amo) :
    decodeInstruction junk w = decodeRtype junk w := by
  rcases hop with hop | hop | hop <;> simp [decodeInstruction, opcodeOf_eq, hop]

theorem decodeInstruction_itype (hop : w.opcode = Opcode.opImm ∨ w.opcode = Opcode.opImm32 ∨
      w.opcode = Opcode.jalr ∨ w.opcode = Opcode.load ∨ w.opcode = Opcode.miscMem ∨
      w.opcode = Opcode.system) :
    decodeInstruction junk w = decodeItype junk w := by
  rcases hop with hop | hop | hop | hop | hop | hop <;>
    simp [decodeInstruction, opcodeOf_eq, hop]

theorem decodeInstruction_stype (hop : w.opcode = Opcode.store) :
    decodeInstruction junk w = decodeStype junk w := by
  simp [decodeInstruction, opcodeOf_eq, hop]

theorem decodeInstruction_btype (hop : w.opcode = Opcode.branch) :
    decodeInstruction junk w = decodeBtype junk w := by
  simp [decodeInstruction, opcodeOf_eq, hop]

theorem decodeInstruction_utype (hop : w.opcode = Opcode.lui ∨ w.opcode = Opcode.auipc) :
    decodeInstruction junk w = decodeUtype junk w := by
  rcases hop with hop | hop <;> simp [decodeInstruction, opcodeOf_eq, hop]

theorem decodeInstruction_jtype (hop : w.opcode = Opcode.jal) :
    decodeInstruction junk w = decodeJtype junk w := by
  simp [decodeInstruction, opcodeOf_eq, hop]

end Decoders

/-! ### Decoded fields -/

section Decoded

variable (junk : RvInst) (w : Word)

theorem decodeRtype_opcode : (decodeRtype junk w).opcode = w.opcode.setWidth 32 := mask w 7
theorem decodeRtype_rd : (decodeRtype junk w).rd = w.rd.setWidth 32 := shift_mask w 7 5
theorem decodeRtype_funct3 : (decodeRtype junk w).funct3 = w.funct3.setWidth 32 := shift_mask w 12 3
theorem decodeRtype_rs1 : (decodeRtype junk w).rs1 = w.rs1.setWidth 32 := shift_mask w 15 5
theorem decodeRtype_rs2 : (decodeRtype junk w).rs2 = w.rs2.setWidth 32 := shift_mask w 20 5

theorem decodeRtype_funct7 : (decodeRtype junk w).funct7 = w.funct7.setWidth 32 := by
  refine BitVec.eq_of_getLsbD_eq fun i hi => ?_
  simp only [decodeRtype, Word.funct7, BitVec.getLsbD_ushiftRight, BitVec.getLsbD_setWidth,
    BitVec.getLsbD_extractLsb', hi, decide_true, Bool.true_and]
  grind

theorem decodeItype_opcode : (decodeItype junk w).opcode = w.opcode.setWidth 32 := mask w 7
theorem decodeItype_rd : (decodeItype junk w).rd = w.rd.setWidth 32 := shift_mask w 7 5
theorem decodeItype_funct3 : (decodeItype junk w).funct3 = w.funct3.setWidth 32 := shift_mask w 12 3
theorem decodeItype_rs1 : (decodeItype junk w).rs1 = w.rs1.setWidth 32 := shift_mask w 15 5

theorem decodeItype_imm : (decodeItype junk w).imm = w.immI.signExtend 32 := by
  show signExtend12 (w >>> 20 &&& BitVec.ofNat 32 (2 ^ 12 - 1)) = _
  rw [shift_mask, signExtend12_eq]; rfl

theorem decodeUtype_opcode : (decodeUtype junk w).opcode = w.opcode.setWidth 32 := mask w 7
theorem decodeUtype_rd : (decodeUtype junk w).rd = w.rd.setWidth 32 := shift_mask w 7 5

theorem decodeUtype_imm : (decodeUtype junk w).imm = w.immU.setWidth 32 := by
  refine BitVec.eq_of_getLsbD_eq fun i hi => ?_
  simp only [decodeUtype, Word.immU, BitVec.getLsbD_ushiftRight, BitVec.getLsbD_setWidth,
    BitVec.getLsbD_extractLsb', hi, decide_true, Bool.true_and]
  grind

theorem decodeStype_opcode : (decodeStype junk w).opcode = w.opcode.setWidth 32 := mask w 7
theorem decodeStype_funct3 : (decodeStype junk w).funct3 = w.funct3.setWidth 32 := shift_mask w 12 3
theorem decodeStype_rs1 : (decodeStype junk w).rs1 = w.rs1.setWidth 32 := shift_mask w 15 5
theorem decodeStype_rs2 : (decodeStype junk w).rs2 = w.rs2.setWidth 32 := shift_mask w 20 5

theorem decodeStype_imm : (decodeStype junk w).imm = w.immS.signExtend 32 := by
  have h5 : w >>> 7 &&& 0x1f = (w.extractLsb' 7 5).setWidth 32 := shift_mask w 7 5
  have h12 (x : Word) : x &&& 0xfff = (x.extractLsb' 0 12).setWidth 32 := mask x 12
  have himm : (w >>> 25 <<< 5 ||| (w.extractLsb' 7 5).setWidth 32).extractLsb' 0 12 = w.immS := by
    refine BitVec.eq_of_getLsbD_eq fun i hi => ?_
    simp only [Word.immS, BitVec.getLsbD_or, BitVec.getLsbD_shiftLeft, BitVec.getLsbD_append,
      BitVec.getLsbD_ushiftRight, BitVec.getLsbD_setWidth, BitVec.getLsbD_extractLsb']
    grind
  simp only [decodeStype, h5, h12, himm, signExtend12_eq]

theorem decodeBtype_opcode : (decodeBtype junk w).opcode = w.opcode.setWidth 32 := mask w 7
theorem decodeBtype_funct3 : (decodeBtype junk w).funct3 = w.funct3.setWidth 32 := shift_mask w 12 3
theorem decodeBtype_rs1 : (decodeBtype junk w).rs1 = w.rs1.setWidth 32 := shift_mask w 15 5
theorem decodeBtype_rs2 : (decodeBtype junk w).rs2 = w.rs2.setWidth 32 := shift_mask w 20 5

theorem shift31 : w >>> 31 = (w.extractLsb' 31 1).setWidth 32 := by
  refine BitVec.eq_of_getLsbD_eq fun i hi => ?_
  simp only [BitVec.getLsbD_ushiftRight, BitVec.getLsbD_setWidth, BitVec.getLsbD_extractLsb', hi,
    decide_true, Bool.true_and]
  grind

theorem signBit_ne_zero : ∀ b : BitVec 1, b.setWidth 32 ≠ (0 : BitVec 32) ↔ b.getLsbD 0 = true := by
  decide

theorem decodeBtype_imm : (decodeBtype junk w).imm = w.immB.signExtend 32 := by
  have h1 : w >>> 7 &&& 0x1 = (w.extractLsb' 7 1).setWidth 32 := shift_mask w 7 1
  have h2 : w >>> 8 &&& 0xf = (w.extractLsb' 8 4).setWidth 32 := shift_mask w 8 4
  have h3 : w >>> 25 &&& 0x3f = (w.extractLsb' 25 6).setWidth 32 := shift_mask w 25 6
  simp only [decodeBtype, h1, h2, h3, shift31, signBit_ne_zero]
  refine BitVec.eq_of_getLsbD_eq fun i hi => ?_
  have hhigh := getLsbD_highMask12 i hi
  simp only [Word.immB, BitVec.getLsbD_signExtend, BitVec.msb_eq_getLsbD_last,
    BitVec.getLsbD_append, BitVec.getLsbD_extractLsb', hi, decide_true, Bool.true_and]
  split <;> simp only [BitVec.getLsbD_or, BitVec.getLsbD_shiftLeft, BitVec.getLsbD_setWidth,
    BitVec.getLsbD_extractLsb'] <;> grind

theorem decodeJtype_opcode : (decodeJtype junk w).opcode = w.opcode.setWidth 32 := mask w 7
theorem decodeJtype_rd : (decodeJtype junk w).rd = w.rd.setWidth 32 := shift_mask w 7 5

theorem decodeJtype_rd_eq_zero_iff : (decodeJtype junk w).rd = regs.zero ↔ w.rd = 0 := by
  rw [decodeJtype_rd]
  exact @setWidth_inj 5 (by decide) w.rd 0

theorem decodeJtype_imm : (decodeJtype junk w).imm = w.immJ.signExtend 32 := by
  have h1 : w >>> 12 &&& 0xff = (w.extractLsb' 12 8).setWidth 32 := shift_mask w 12 8
  have h2 : w >>> 20 &&& 0x1 = (w.extractLsb' 20 1).setWidth 32 := shift_mask w 20 1
  have h3 : w >>> 21 &&& 0x3ff = (w.extractLsb' 21 10).setWidth 32 := shift_mask w 21 10
  have h4 : w >>> 31 &&& 0x1 = (w.extractLsb' 31 1).setWidth 32 := shift_mask w 31 1
  simp only [decodeJtype, h1, h2, h3, h4, signBit_ne_zero]
  refine BitVec.eq_of_getLsbD_eq fun i hi => ?_
  have hhigh := getLsbD_highMask20 i hi
  simp only [Word.immJ, BitVec.getLsbD_signExtend, BitVec.msb_eq_getLsbD_last,
    BitVec.getLsbD_append, BitVec.getLsbD_extractLsb', hi, decide_true, Bool.true_and]
  split <;> simp only [BitVec.getLsbD_or, BitVec.getLsbD_shiftLeft, BitVec.getLsbD_setWidth,
    BitVec.getLsbD_extractLsb'] <;> grind

end Decoded

/-! ### Encoders applied to fields -/

section Encoded

variable (op f7 : BitVec 7) (rd rs1 rs2 : Reg) (f3 : BitVec 3)

theorem encodeRtypeFields_eq :
    encodeRtypeFields (op.setWidth 32) (rd.setWidth 32) (f3.setWidth 32) (rs1.setWidth 32)
      (rs2.setWidth 32) (f7.setWidth 32) = rType f7 rs2 rs1 f3 rd op := by
  refine BitVec.eq_of_getLsbD_eq fun i hi => ?_
  simp only [encodeRtypeFields, rType, BitVec.getLsbD_append, BitVec.getLsbD_or,
    BitVec.getLsbD_shiftLeft, BitVec.getLsbD_setWidth, hi, decide_true, Bool.true_and]
  grind

theorem encodeItypeFields_eq (imm : BitVec 12) :
    encodeItypeFields (op.setWidth 32) (rd.setWidth 32) (f3.setWidth 32) (rs1.setWidth 32)
      (imm.signExtend 32) = iType imm rs1 f3 rd op := by
  refine BitVec.eq_of_getLsbD_eq fun i hi => ?_
  simp only [encodeItypeFields, iType, BitVec.getLsbD_append, BitVec.getLsbD_or,
    BitVec.getLsbD_shiftLeft, BitVec.getLsbD_setWidth, BitVec.getLsbD_signExtend, hi,
    decide_true, Bool.true_and]
  grind

theorem encodeStypeFields_eq (imm : BitVec 12) :
    encodeStypeFields (op.setWidth 32) (f3.setWidth 32) (rs1.setWidth 32) (rs2.setWidth 32)
      (imm.signExtend 32) = sType imm rs2 rs1 f3 op := by
  have m7 (x : Word) : x &&& 0x7f = (x.extractLsb' 0 7).setWidth 32 := mask x 7
  have m3 (x : Word) : x &&& 0x7 = (x.extractLsb' 0 3).setWidth 32 := mask x 3
  have m5 (x : Word) : x &&& 0x1f = (x.extractLsb' 0 5).setWidth 32 := mask x 5
  have m12 (x : Word) : x &&& 0xfff = (x.extractLsb' 0 12).setWidth 32 := mask x 12
  have s5 (x : Word) : x.sshiftRight 5 &&& 0x7f = (x.extractLsb' 5 7).setWidth 32 :=
    sshift_mask x 5 7 (by omega)
  simp only [encodeStypeFields, s5, m3, m5, m12]
  refine BitVec.eq_of_getLsbD_eq fun i hi => ?_
  simp only [sType, BitVec.getLsbD_append, BitVec.getLsbD_or, BitVec.getLsbD_shiftLeft,
    BitVec.getLsbD_setWidth, BitVec.getLsbD_signExtend, BitVec.getLsbD_extractLsb', hi,
    decide_true, Bool.true_and]
  grind

theorem encodeUtype_eq {inst : RvInst} (imm : BitVec 20) (hop : inst.opcode = op.setWidth 32)
    (hrd : inst.rd = rd.setWidth 32) (himm : inst.imm = imm.setWidth 32) :
    encodeUtype inst = uType imm rd op := by
  refine BitVec.eq_of_getLsbD_eq fun i hi => ?_
  simp only [encodeUtype, uType, hop, hrd, himm, BitVec.getLsbD_append, BitVec.getLsbD_or,
    BitVec.getLsbD_shiftLeft, BitVec.getLsbD_setWidth, hi, decide_true, Bool.true_and]
  grind

theorem encodeBtypeFields_eq (imm : BitVec 13) :
    encodeBtypeFields (op.setWidth 32) (rs1.setWidth 32) (rs2.setWidth 32) (f3.setWidth 32)
      (imm.signExtend 32) = bType imm rs2 rs1 f3 op := by
  have m7 (x : Word) : x &&& 0x7f = (x.extractLsb' 0 7).setWidth 32 := mask x 7
  have m3 (x : Word) : x &&& 0x7 = (x.extractLsb' 0 3).setWidth 32 := mask x 3
  have m5 (x : Word) : x &&& 0x1f = (x.extractLsb' 0 5).setWidth 32 := mask x 5
  have s12 (x : Word) : x.sshiftRight 12 &&& 0x1 = (x.extractLsb' 12 1).setWidth 32 :=
    sshift_mask x 12 1 (by omega)
  have s11 (x : Word) : x.sshiftRight 11 &&& 0x1 = (x.extractLsb' 11 1).setWidth 32 :=
    sshift_mask x 11 1 (by omega)
  have s5 (x : Word) : x.sshiftRight 5 &&& 0x3f = (x.extractLsb' 5 6).setWidth 32 :=
    sshift_mask x 5 6 (by omega)
  have s1 (x : Word) : x.sshiftRight 1 &&& 0xf = (x.extractLsb' 1 4).setWidth 32 :=
    sshift_mask x 1 4 (by omega)
  simp only [encodeBtypeFields, s12, s11, s5, s1, m3, m5]
  refine BitVec.eq_of_getLsbD_eq fun i hi => ?_
  simp only [bType, BitVec.getLsbD_append, BitVec.getLsbD_or, BitVec.getLsbD_shiftLeft,
    BitVec.getLsbD_setWidth, BitVec.getLsbD_signExtend, BitVec.getLsbD_extractLsb', hi,
    decide_true, Bool.true_and]
  grind

theorem encodeJtypeFields_low (imm : BitVec 32) :
    encodeJtypeFields (op.setWidth 32) (rd.setWidth 32) imm = jType (imm.setWidth 21) rd op := by
  have s11 (x : Word) : x.sshiftRight 11 &&& 0x1 = (x.extractLsb' 11 1).setWidth 32 :=
    sshift_mask x 11 1 (by omega)
  have s12 (x : Word) : x.sshiftRight 12 &&& 0xff = (x.extractLsb' 12 8).setWidth 32 :=
    sshift_mask x 12 8 (by omega)
  have s20 (x : Word) : x.sshiftRight 20 &&& 0x1 = (x.extractLsb' 20 1).setWidth 32 :=
    sshift_mask x 20 1 (by omega)
  simp only [encodeJtypeFields, mask_sshift_one, s11, s12, s20]
  refine BitVec.eq_of_getLsbD_eq fun i hi => ?_
  simp only [jType, BitVec.getLsbD_append, BitVec.getLsbD_or, BitVec.getLsbD_shiftLeft,
    BitVec.getLsbD_setWidth, BitVec.getLsbD_extractLsb', hi, decide_true, Bool.true_and]
  grind

theorem encodeJtypeFields_eq (imm : BitVec 21) :
    encodeJtypeFields (op.setWidth 32) (rd.setWidth 32) (imm.signExtend 32) = jType imm rd op := by
  have himm : (imm.signExtend 32).setWidth 21 = imm := by
    refine BitVec.eq_of_getLsbD_eq fun i hi => ?_
    have hi' : i < 32 := by omega
    simp only [BitVec.getLsbD_setWidth, BitVec.getLsbD_signExtend, hi, hi', decide_true,
      Bool.true_and, if_true]
  rw [encodeJtypeFields_low, himm]

end Encoded

/-! ### The two bodies of each encoder -/

theorem encodeRtype_eq_fields (i : RvInst) :
    encodeRtype i = encodeRtypeFields i.opcode i.rd i.funct3 i.rs1 i.rs2 i.funct7 := rfl

theorem encodeItype_eq_fields (i : RvInst) :
    encodeItype i = encodeItypeFields i.opcode i.rd i.funct3 i.rs1 i.imm := rfl

theorem encodeStype_eq_fields (i : RvInst) :
    encodeStype i = encodeStypeFields i.opcode i.funct3 i.rs1 i.rs2 i.imm := rfl

theorem encodeJtype_eq_fields (i : RvInst) :
    encodeJtype i = encodeJtypeFields i.opcode i.rd i.imm := rfl

/-- A logical and an arithmetic shift of the immediate, masked to bits the
immediate has, are the same. -/
theorem encodeBtype_eq_fields (i : RvInst) :
    encodeBtype i = encodeBtypeFields i.opcode i.rs1 i.rs2 i.funct3 i.imm := by
  have s (s k : ℕ) (h : s + k ≤ 32) : i.imm >>> s &&& BitVec.ofNat 32 (2 ^ k - 1) =
      i.imm.sshiftRight s &&& BitVec.ofNat 32 (2 ^ k - 1) := by
    rw [shift_mask, sshift_mask _ _ _ h]
  have h12 : i.imm >>> 12 &&& 0x1 = i.imm.sshiftRight 12 &&& 0x1 := s 12 1 (by omega)
  have h11 : i.imm >>> 11 &&& 0x1 = i.imm.sshiftRight 11 &&& 0x1 := s 11 1 (by omega)
  have h5 : i.imm >>> 5 &&& 0x3F = i.imm.sshiftRight 5 &&& 0x3F := s 5 6 (by omega)
  have h1 : i.imm >>> 1 &&& 0xF = i.imm.sshiftRight 1 &&& 0xF := s 1 4 (by omega)
  simp only [encodeBtype, encodeBtypeFields, h12, h11, h5, h1]

theorem encodeBtype_setImm (junk : RvInst) (w : Word) (imm : BitVec 13) :
    encodeBtype { decodeBtype junk w with imm := imm.signExtend 32 } =
      bType imm w.rs2 w.rs1 w.funct3 w.opcode := by
  rw [encodeBtype_eq_fields, ← encodeBtypeFields_eq]
  simp only [decodeBtype_opcode, decodeBtype_rs1, decodeBtype_rs2, decodeBtype_funct3]

end RailTranslator
