import RailTranslator.Fields
import Mathlib.Tactic.Ring
import Mathlib.Tactic.NormNum

/-!
The encoder and the decoder undo each other.

Twelve opcodes are handled by `encode_instruction`; they fall into the six
formats. Both directions are proved format by format, through the
architectural fields: a decoder reads the fields of the word, an encoder
applied to fields is the format, and a word is the format of its own fields.
-/

namespace RailTranslator

open Rv64

inductive Format
  | r | i | s | u | b | j
  deriving DecidableEq, Repr

def formatOf (opcode : BitVec 32) : Option Format :=
  if opcode = Op.op ∨ opcode = Op.op32 ∨ opcode = Op.amo then some .r
  else if opcode = Op.load ∨ opcode = Op.jalr ∨ opcode = Op.opimm ∨ opcode = Op.opimm32 then some .i
  else if opcode = Op.store then some .s
  else if opcode = Op.auipc ∨ opcode = Op.lui then some .u
  else if opcode = Op.branch then some .b
  else if opcode = Op.jal then some .j
  else none

/-- A register number, read as an `int`. -/
def IsReg (x : BitVec 32) : Prop := x.toNat < 32

def InRange : Format → RvInst → Prop
  | .r, x => IsReg x.rd ∧ x.funct3.toNat < 8 ∧ IsReg x.rs1 ∧ IsReg x.rs2 ∧ x.funct7.toNat < 128
  | .i, x => IsReg x.rd ∧ x.funct3.toNat < 8 ∧ IsReg x.rs1 ∧ -2048 ≤ x.imm.toInt ∧ x.imm.toInt < 2048
  | .s, x => x.funct3.toNat < 8 ∧ IsReg x.rs1 ∧ IsReg x.rs2 ∧ -2048 ≤ x.imm.toInt ∧ x.imm.toInt < 2048
  | .u, x => IsReg x.rd ∧ x.imm.toNat < 2 ^ 20
  | .b, x => x.funct3.toNat < 8 ∧ IsReg x.rs1 ∧ IsReg x.rs2 ∧
      -4096 ≤ x.imm.toInt ∧ x.imm.toInt < 4096 ∧ x.imm.toInt % 2 = 0
  | .j, x => IsReg x.rd ∧ -2 ^ 20 ≤ x.imm.toInt ∧ x.imm.toInt < 2 ^ 20 ∧ x.imm.toInt % 2 = 0

def SameFields : Format → RvInst → RvInst → Prop
  | .r, x, y => x.opcode = y.opcode ∧ x.rd = y.rd ∧ x.funct3 = y.funct3 ∧ x.rs1 = y.rs1 ∧
      x.rs2 = y.rs2 ∧ x.funct7 = y.funct7
  | .i, x, y => x.opcode = y.opcode ∧ x.rd = y.rd ∧ x.funct3 = y.funct3 ∧ x.rs1 = y.rs1 ∧
      x.imm = y.imm
  | .s, x, y => x.opcode = y.opcode ∧ x.funct3 = y.funct3 ∧ x.rs1 = y.rs1 ∧ x.rs2 = y.rs2 ∧
      x.imm = y.imm
  | .u, x, y => x.opcode = y.opcode ∧ x.rd = y.rd ∧ x.imm = y.imm
  | .b, x, y => x.opcode = y.opcode ∧ x.funct3 = y.funct3 ∧ x.rs1 = y.rs1 ∧ x.rs2 = y.rs2 ∧
      x.imm = y.imm
  | .j, x, y => x.opcode = y.opcode ∧ x.rd = y.rd ∧ x.imm = y.imm

/-! ### Values in range are extended fields -/

theorem exists_setWidth {x : BitVec 32} {k : ℕ} (h : x.toNat < 2 ^ k) :
    ∃ y : BitVec k, x = y.setWidth 32 :=
  ⟨x.setWidth k, BitVec.eq_of_toNat_eq (by
    simp [Nat.mod_eq_of_lt h, Nat.mod_eq_of_lt x.isLt])⟩

theorem exists_signExtend {x : BitVec 32} {k : ℕ} (hk : k < 32) (hlo : -2 ^ k ≤ x.toInt)
    (hhi : x.toInt < 2 ^ k) : ∃ y : BitVec (k + 1), x = y.signExtend 32 := by
  refine ⟨BitVec.ofInt (k + 1) x.toInt, BitVec.eq_of_toInt_eq ?_⟩
  have hpow : (2 ^ (k + 1) : ℤ) = 2 * 2 ^ k := by ring
  rw [BitVec.toInt_signExtend_of_le (by omega), BitVec.toInt_ofInt]
  refine (Int.bmod_eq_of_le ?_ ?_).symm <;> push_cast <;> omega

theorem getLsbD_zero_of_even {k : ℕ} {y : BitVec (k + 1)} (hk : k < 32)
    (h : (y.signExtend 32).toInt % 2 = 0) : y.getLsbD 0 = false := by
  rw [BitVec.toInt_signExtend_of_le (by omega), BitVec.toInt_eq_toNat_cond] at h
  have hpow : (2 ^ (k + 1) : ℕ) = 2 * 2 ^ k := by ring
  rw [BitVec.getLsbD, Nat.testBit_zero, decide_eq_false_iff_not]
  split at h <;> omega

/-! ### From a word and back -/

section Decoded

variable (junk : RvInst) (w : Word)

theorem encodeRtype_decodeRtype : encodeRtype (decodeRtype junk w) = w := by
  rw [encodeRtype_eq_fields, decodeRtype_opcode, decodeRtype_rd, decodeRtype_funct3,
    decodeRtype_rs1, decodeRtype_rs2, decodeRtype_funct7, encodeRtypeFields_eq, rType_fields]

theorem encodeItype_decodeItype : encodeItype (decodeItype junk w) = w := by
  rw [encodeItype_eq_fields, decodeItype_opcode, decodeItype_rd, decodeItype_funct3,
    decodeItype_rs1, decodeItype_imm, encodeItypeFields_eq, iType_fields]

theorem encodeStype_decodeStype : encodeStype (decodeStype junk w) = w := by
  rw [encodeStype_eq_fields, decodeStype_opcode, decodeStype_funct3, decodeStype_rs1,
    decodeStype_rs2, decodeStype_imm, encodeStypeFields_eq, sType_fields]

theorem encodeUtype_decodeUtype : encodeUtype (decodeUtype junk w) = w := by
  rw [encodeUtype_eq _ _ _ (decodeUtype_opcode junk w) (decodeUtype_rd junk w)
    (decodeUtype_imm junk w), uType_fields]

theorem encodeBtype_decodeBtype : encodeBtype (decodeBtype junk w) = w := by
  rw [encodeBtype_eq_fields, decodeBtype_opcode, decodeBtype_funct3, decodeBtype_rs1,
    decodeBtype_rs2, decodeBtype_imm, encodeBtypeFields_eq, bType_fields]

theorem encodeJtype_decodeJtype : encodeJtype (decodeJtype junk w) = w := by
  rw [encodeJtype_eq_fields, decodeJtype_opcode, decodeJtype_rd, decodeJtype_imm,
    encodeJtypeFields_eq, jType_fields]

end Decoded

/-! ### From fields and back -/

section Encoded

variable (junk : RvInst) {inst : RvInst} {op : BitVec 7}

theorem decodeRtype_encodeRtype (hop : inst.opcode = op.setWidth 32) (h : InRange .r inst) :
    SameFields .r (decodeRtype junk (encodeRtype inst)) inst := by
  obtain ⟨hrd, hf3, hrs1, hrs2, hf7⟩ := h
  obtain ⟨rd, hrd⟩ := exists_setWidth (k := 5) hrd
  obtain ⟨f3, hf3⟩ := exists_setWidth (k := 3) hf3
  obtain ⟨rs1, hrs1⟩ := exists_setWidth (k := 5) hrs1
  obtain ⟨rs2, hrs2⟩ := exists_setWidth (k := 5) hrs2
  obtain ⟨f7, hf7⟩ := exists_setWidth (k := 7) hf7
  have henc : encodeRtype inst = rType f7 rs2 rs1 f3 rd op := by
    rw [encodeRtype_eq_fields, hop, hrd, hf3, hrs1, hrs2, hf7, encodeRtypeFields_eq]
  simp only [SameFields, henc, decodeRtype_opcode, decodeRtype_rd, decodeRtype_funct3,
    decodeRtype_rs1, decodeRtype_rs2, decodeRtype_funct7, opcode_rType, rd_rType, funct3_rType,
    rs1_rType, rs2_rType, funct7_rType, hop, hrd, hf3, hrs1, hrs2, hf7, and_self]

theorem decodeItype_encodeItype (hop : inst.opcode = op.setWidth 32) (h : InRange .i inst) :
    SameFields .i (decodeItype junk (encodeItype inst)) inst := by
  obtain ⟨hrd, hf3, hrs1, hlo, hhi⟩ := h
  obtain ⟨rd, hrd⟩ := exists_setWidth (k := 5) hrd
  obtain ⟨f3, hf3⟩ := exists_setWidth (k := 3) hf3
  obtain ⟨rs1, hrs1⟩ := exists_setWidth (k := 5) hrs1
  obtain ⟨imm, himm⟩ := exists_signExtend (k := 11) (by omega) hlo hhi
  have henc : encodeItype inst = iType imm rs1 f3 rd op := by
    rw [encodeItype_eq_fields, hop, hrd, hf3, hrs1, himm, encodeItypeFields_eq]
  simp only [SameFields, henc, decodeItype_opcode, decodeItype_rd, decodeItype_funct3,
    decodeItype_rs1, decodeItype_imm, opcode_iType, rd_iType, funct3_iType, rs1_iType,
    immI_iType, hop, hrd, hf3, hrs1, himm, and_self]

theorem decodeStype_encodeStype (hop : inst.opcode = op.setWidth 32) (h : InRange .s inst) :
    SameFields .s (decodeStype junk (encodeStype inst)) inst := by
  obtain ⟨hf3, hrs1, hrs2, hlo, hhi⟩ := h
  obtain ⟨f3, hf3⟩ := exists_setWidth (k := 3) hf3
  obtain ⟨rs1, hrs1⟩ := exists_setWidth (k := 5) hrs1
  obtain ⟨rs2, hrs2⟩ := exists_setWidth (k := 5) hrs2
  obtain ⟨imm, himm⟩ := exists_signExtend (k := 11) (by omega) hlo hhi
  have henc : encodeStype inst = sType imm rs2 rs1 f3 op := by
    rw [encodeStype_eq_fields, hop, hf3, hrs1, hrs2, himm, encodeStypeFields_eq]
  simp only [SameFields, henc, decodeStype_opcode, decodeStype_funct3, decodeStype_rs1,
    decodeStype_rs2, decodeStype_imm, opcode_sType, funct3_sType, rs1_sType, rs2_sType,
    immS_sType, hop, hf3, hrs1, hrs2, himm, and_self]

theorem decodeUtype_encodeUtype (hop : inst.opcode = op.setWidth 32) (h : InRange .u inst) :
    SameFields .u (decodeUtype junk (encodeUtype inst)) inst := by
  obtain ⟨hrd, himm⟩ := h
  obtain ⟨rd, hrd⟩ := exists_setWidth (k := 5) hrd
  obtain ⟨imm, himm⟩ := exists_setWidth (k := 20) himm
  have henc : encodeUtype inst = uType imm rd op := encodeUtype_eq _ _ _ hop hrd himm
  simp only [SameFields, henc, decodeUtype_opcode, decodeUtype_rd, decodeUtype_imm, opcode_uType,
    rd_uType, immU_uType, hop, hrd, himm, and_self]

theorem decodeBtype_encodeBtype (hop : inst.opcode = op.setWidth 32) (h : InRange .b inst) :
    SameFields .b (decodeBtype junk (encodeBtype inst)) inst := by
  obtain ⟨hf3, hrs1, hrs2, hlo, hhi, heven⟩ := h
  obtain ⟨f3, hf3⟩ := exists_setWidth (k := 3) hf3
  obtain ⟨rs1, hrs1⟩ := exists_setWidth (k := 5) hrs1
  obtain ⟨rs2, hrs2⟩ := exists_setWidth (k := 5) hrs2
  obtain ⟨imm, himm⟩ := exists_signExtend (k := 12) (by omega) hlo hhi
  have hbit : imm.getLsbD 0 = false :=
    getLsbD_zero_of_even (by omega) (by rw [← himm]; exact heven)
  have henc : encodeBtype inst = bType imm rs2 rs1 f3 op := by
    rw [encodeBtype_eq_fields, hop, hf3, hrs1, hrs2, himm, encodeBtypeFields_eq]
  simp only [SameFields, henc, decodeBtype_opcode, decodeBtype_funct3, decodeBtype_rs1,
    decodeBtype_rs2, decodeBtype_imm, opcode_bType, funct3_bType, rs1_bType, rs2_bType,
    immB_bType _ _ _ _ _ hbit, hop, hf3, hrs1, hrs2, himm, and_self]

theorem decodeJtype_encodeJtype (hop : inst.opcode = op.setWidth 32) (h : InRange .j inst) :
    SameFields .j (decodeJtype junk (encodeJtype inst)) inst := by
  obtain ⟨hrd, hlo, hhi, heven⟩ := h
  obtain ⟨rd, hrd⟩ := exists_setWidth (k := 5) hrd
  obtain ⟨imm, himm⟩ := exists_signExtend (k := 20) (by omega) hlo hhi
  have hbit : imm.getLsbD 0 = false :=
    getLsbD_zero_of_even (by omega) (by rw [← himm]; exact heven)
  have henc : encodeJtype inst = jType imm rd op := by
    rw [encodeJtype_eq_fields, hop, hrd, himm, encodeJtypeFields_eq]
  simp only [SameFields, henc, decodeJtype_opcode, decodeJtype_rd, decodeJtype_imm, opcode_jType,
    rd_jType, immJ_jType _ _ _ hbit, hop, hrd, himm, and_self]

end Encoded

/-! ### Both directions at once -/

def decodeAs : Format → RvInst → Word → RvInst
  | .r => decodeRtype
  | .i => decodeItype
  | .s => decodeStype
  | .u => decodeUtype
  | .b => decodeBtype
  | .j => decodeJtype

def encodeAs : Format → RvInst → Word
  | .r => encodeRtype
  | .i => encodeItype
  | .s => encodeStype
  | .u => encodeUtype
  | .b => encodeBtype
  | .j => encodeJtype

theorem formatOf_cases {op : BitVec 32} {f : Format} (h : formatOf op = some f) :
    match f with
    | .r => op = Op.op ∨ op = Op.op32 ∨ op = Op.amo
    | .i => op = Op.load ∨ op = Op.jalr ∨ op = Op.opimm ∨ op = Op.opimm32
    | .s => op = Op.store
    | .u => op = Op.auipc ∨ op = Op.lui
    | .b => op = Op.branch
    | .j => op = Op.jal := by
  unfold formatOf at h
  split_ifs at h <;> cases h <;> assumption

theorem decodeInstruction_eq (junk : RvInst) {w : Word} {f : Format}
    (h : formatOf (opcodeOf w) = some f) : decodeInstruction junk w = decodeAs f junk w := by
  have hop := formatOf_cases h
  cases f with
  | r => rcases hop with hop | hop | hop <;> simp [decodeInstruction, decodeAs, hop]
  | i => rcases hop with hop | hop | hop | hop <;> simp [decodeInstruction, decodeAs, hop]
  | s => simp [decodeInstruction, decodeAs, hop]
  | u => rcases hop with hop | hop <;> simp [decodeInstruction, decodeAs, hop]
  | b => simp [decodeInstruction, decodeAs, hop]
  | j => simp [decodeInstruction, decodeAs, hop]

theorem encodeInstruction_eq {inst : RvInst} {f : Format} (h : formatOf inst.opcode = some f) :
    encodeInstruction inst = encodeAs f inst := by
  have hop := formatOf_cases h
  cases f with
  | r => rcases hop with hop | hop | hop <;> simp [encodeInstruction, encodeAs, hop]
  | i => rcases hop with hop | hop | hop | hop <;> simp [encodeInstruction, encodeAs, hop]
  | s => simp [encodeInstruction, encodeAs, hop]
  | u => rcases hop with hop | hop <;> simp [encodeInstruction, encodeAs, hop]
  | b => simp [encodeInstruction, encodeAs, hop]
  | j => simp [encodeInstruction, encodeAs, hop]

theorem decodeAs_opcode (f : Format) (junk : RvInst) (w : Word) :
    (decodeAs f junk w).opcode = opcodeOf w := by
  cases f <;> rfl

theorem exists_opcode {op : BitVec 32} {f : Format} (h : formatOf op = some f) :
    ∃ c : BitVec 7, op = c.setWidth 32 := by
  refine exists_setWidth ?_
  have hop := formatOf_cases h
  cases f <;> simp only at hop <;>
    first
    | (rcases hop with hop | hop | hop | hop <;> rw [hop] <;> decide)
    | (rcases hop with hop | hop | hop <;> rw [hop] <;> decide)
    | (rcases hop with hop | hop <;> rw [hop] <;> decide)
    | (rw [hop]; decide)

theorem encodeAs_decodeAs (f : Format) (junk : RvInst) (w : Word) :
    encodeAs f (decodeAs f junk w) = w := by
  cases f with
  | r => exact encodeRtype_decodeRtype junk w
  | i => exact encodeItype_decodeItype junk w
  | s => exact encodeStype_decodeStype junk w
  | u => exact encodeUtype_decodeUtype junk w
  | b => exact encodeBtype_decodeBtype junk w
  | j => exact encodeJtype_decodeJtype junk w

theorem decodeAs_encodeAs {f : Format} (junk : RvInst) {inst : RvInst} {c : BitVec 7}
    (hc : inst.opcode = c.setWidth 32) (h : InRange f inst) :
    SameFields f (decodeAs f junk (encodeAs f inst)) inst := by
  cases f with
  | r => exact decodeRtype_encodeRtype junk hc h
  | i => exact decodeItype_encodeItype junk hc h
  | s => exact decodeStype_encodeStype junk hc h
  | u => exact decodeUtype_encodeUtype junk hc h
  | b => exact decodeBtype_encodeBtype junk hc h
  | j => exact decodeJtype_encodeJtype junk hc h

/-- The word of an instruction in range carries the opcode of the instruction. -/
theorem opcodeOf_encodeAs {f : Format} {inst : RvInst} {c : BitVec 7}
    (hc : inst.opcode = c.setWidth 32) (h : InRange f inst) :
    opcodeOf (encodeAs f inst) = inst.opcode := by
  rw [← decodeAs_opcode f inst (encodeAs f inst)]
  have := decodeAs_encodeAs inst hc h
  cases f <;> exact this.1

/-- Decoding a word and encoding the result gives the word back. -/
theorem encodeInstruction_decodeInstruction (junk : RvInst) {w : Word} {f : Format}
    (h : formatOf (opcodeOf w) = some f) :
    encodeInstruction (decodeInstruction junk w) = w := by
  rw [decodeInstruction_eq junk h,
    encodeInstruction_eq (f := f) (by rw [decodeAs_opcode]; exact h), encodeAs_decodeAs]

/-- Encoding an instruction in range and decoding the word gives its fields back. -/
theorem decodeInstruction_encodeInstruction (junk : RvInst) {inst : RvInst} {f : Format}
    (hf : formatOf inst.opcode = some f) (h : InRange f inst) :
    SameFields f (decodeInstruction junk (encodeInstruction inst)) inst := by
  obtain ⟨c, hc⟩ := exists_opcode hf
  have hop : formatOf (opcodeOf (encodeAs f inst)) = some f := by
    rw [opcodeOf_encodeAs hc h]; exact hf
  rw [encodeInstruction_eq hf, decodeInstruction_eq junk hop]
  exact decodeAs_encodeAs junk hc h

/-- On the twelve opcodes the encoder and the decoder are inverse to each
other, and the overloads that take separate fields build the same words. -/
theorem encode_decode_inverse (junk : RvInst) :
    (∀ (w : Word) (f : Format), formatOf (opcodeOf w) = some f →
      encodeInstruction (decodeInstruction junk w) = w) ∧
    (∀ (inst : RvInst) (f : Format), formatOf inst.opcode = some f → InRange f inst →
      SameFields f (decodeInstruction junk (encodeInstruction inst)) inst) ∧
    (∀ i : RvInst,
      encodeRtypeFields i.opcode i.rd i.funct3 i.rs1 i.rs2 i.funct7 = encodeRtype i ∧
      encodeItypeFields i.opcode i.rd i.funct3 i.rs1 i.imm = encodeItype i ∧
      encodeStypeFields i.opcode i.funct3 i.rs1 i.rs2 i.imm = encodeStype i ∧
      encodeBtypeFields i.opcode i.rs1 i.rs2 i.funct3 i.imm = encodeBtype i ∧
      encodeJtypeFields i.opcode i.rd i.imm = encodeJtype i) :=
  ⟨fun _ _ h => encodeInstruction_decodeInstruction junk h,
    fun _ _ hf h => decodeInstruction_encodeInstruction junk hf h,
    fun i => ⟨(encodeRtype_eq_fields i).symm, (encodeItype_eq_fields i).symm,
      (encodeStype_eq_fields i).symm, (encodeBtype_eq_fields i).symm,
      (encodeJtype_eq_fields i).symm⟩⟩

end RailTranslator
