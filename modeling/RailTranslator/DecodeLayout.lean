import RailTranslator.Fields
import RailTranslator.Rv64.Layout

/-!
The decoder against the formats of the architecture.

The encoder and the decoder are inverse to each other, but an error both share
would not show there. Here the decoder alone is compared with `Layout`, which
is written without it: over all words, the fields it returns are the operands
of the word.
-/

namespace RailTranslator

open Rv64

/-- The fields hold the operands: a register number or a function code is a
bit field, an immediate is sign extended to an `int`, and that of a `U` word
is shifted by twelve where it is used. For a branch or a jump the address
plus the immediate is its target, as an `int`. -/
def Holds (inst : RvInst) : Operands → Prop
  | .r funct7 rs2 rs1 funct3 rd => inst.type = .rType ∧ inst.funct7 = funct7.setWidth 32 ∧
      inst.rs2 = rs2.setWidth 32 ∧ inst.rs1 = rs1.setWidth 32 ∧
      inst.funct3 = funct3.setWidth 32 ∧ inst.rd = rd.setWidth 32
  | .i imm rs1 funct3 rd => inst.type = .iType ∧ inst.imm = imm.signExtend 32 ∧
      inst.rs1 = rs1.setWidth 32 ∧ inst.funct3 = funct3.setWidth 32 ∧ inst.rd = rd.setWidth 32
  | .s imm rs2 rs1 funct3 => inst.type = .sType ∧ inst.imm = imm.signExtend 32 ∧
      inst.rs2 = rs2.setWidth 32 ∧ inst.rs1 = rs1.setWidth 32 ∧ inst.funct3 = funct3.setWidth 32
  | .b imm rs2 rs1 funct3 => inst.type = .bType ∧ inst.imm = imm.signExtend 32 ∧
      (∀ a : DWord, low a + inst.imm = low (a + imm.signExtend 64)) ∧
      inst.rs2 = rs2.setWidth 32 ∧ inst.rs1 = rs1.setWidth 32 ∧ inst.funct3 = funct3.setWidth 32
  | .u imm rd => inst.type = .uType ∧ inst.imm = imm.setWidth 32 ∧
      inst.imm <<< 12 = imm ++ 0#12 ∧ inst.rd = rd.setWidth 32
  | .j imm rd => inst.type = .jType ∧ inst.imm = imm.signExtend 32 ∧
      (∀ a : DWord, low a + inst.imm = low (a + imm.signExtend 64)) ∧ inst.rd = rd.setWidth 32

section

variable (junk : RvInst) (w : Word)

theorem holds_decodeRtype : Holds (decodeRtype junk w) (Layout.r.operands w) :=
  ⟨rfl, decodeRtype_funct7 junk w, decodeRtype_rs2 junk w, decodeRtype_rs1 junk w,
    decodeRtype_funct3 junk w, decodeRtype_rd junk w⟩

theorem holds_decodeItype : Holds (decodeItype junk w) (Layout.i.operands w) :=
  ⟨rfl, decodeItype_imm junk w, decodeItype_rs1 junk w, decodeItype_funct3 junk w,
    decodeItype_rd junk w⟩

theorem holds_decodeStype : Holds (decodeStype junk w) (Layout.s.operands w) :=
  ⟨rfl, decodeStype_imm junk w, decodeStype_rs2 junk w, decodeStype_rs1 junk w,
    decodeStype_funct3 junk w⟩

theorem holds_decodeBtype : Holds (decodeBtype junk w) (Layout.b.operands w) := by
  have himm := decodeBtype_imm junk w
  refine ⟨rfl, himm, fun a => ?_, decodeBtype_rs2 junk w, decodeBtype_rs1 junk w,
    decodeBtype_funct3 junk w⟩
  rw [himm, low_add_signExtend]

theorem holds_decodeUtype : Holds (decodeUtype junk w) (Layout.u.operands w) := by
  have himm := decodeUtype_imm junk w
  refine ⟨rfl, himm, ?_, decodeUtype_rd junk w⟩
  rw [himm]
  refine BitVec.eq_of_getLsbD_eq fun i hi => ?_
  simp only [BitVec.getLsbD_shiftLeft, BitVec.getLsbD_setWidth, BitVec.getLsbD_append, hi,
    decide_true, Bool.true_and]
  grind

theorem holds_decodeJtype : Holds (decodeJtype junk w) (Layout.j.operands w) := by
  have himm := decodeJtype_imm junk w
  refine ⟨rfl, himm, fun a => ?_, decodeJtype_rd junk w⟩
  rw [himm, low_add_signExtend]

end

theorem decodeInstruction_of_layout (junk : RvInst) {w : Word} {l : Layout}
    (hl : Layout.ofOpcode w.opcode = some l) :
    (decodeInstruction junk w).opcode = w.opcode.setWidth 32 ∧
      Holds (decodeInstruction junk w) (l.operands w) := by
  rw [Layout.ofOpcode] at hl
  split_ifs at hl with hr hi hs hb hu hj <;> obtain rfl := Option.some.inj hl
  · simp only [List.mem_cons, List.not_mem_nil, or_false] at hr
    rw [decodeInstruction_rtype hr]
    exact ⟨decodeRtype_opcode junk w, holds_decodeRtype junk w⟩
  · simp only [List.mem_cons, List.not_mem_nil, or_false] at hi
    rw [decodeInstruction_itype (by tauto)]
    exact ⟨decodeItype_opcode junk w, holds_decodeItype junk w⟩
  · rw [decodeInstruction_stype hs]
    exact ⟨decodeStype_opcode junk w, holds_decodeStype junk w⟩
  · rw [decodeInstruction_btype hb]
    exact ⟨decodeBtype_opcode junk w, holds_decodeBtype junk w⟩
  · simp only [List.mem_cons, List.not_mem_nil, or_false] at hu
    rw [decodeInstruction_utype hu]
    exact ⟨decodeUtype_opcode junk w, holds_decodeUtype junk w⟩
  · rw [decodeInstruction_jtype hj]
    exact ⟨decodeJtype_opcode junk w, holds_decodeJtype junk w⟩

theorem decodeInstruction_of_none (junk : RvInst) {w : Word}
    (hl : Layout.ofOpcode w.opcode = none) :
    (decodeInstruction junk w).opcode = 0 ∧ (decodeInstruction junk w).name = .undefined := by
  rw [Layout.ofOpcode] at hl
  split_ifs at hl with hr hi hs hb hu hj
  simp only [List.mem_cons, List.not_mem_nil, or_false, not_or] at hr hi hu
  have hne {c : BitVec 7} (hc : w.opcode ≠ c) : opcodeOf w ≠ c.setWidth 32 := fun heq =>
    hc (opcodeOf_eq_iff.mp heq)
  have hR : ¬ (opcodeOf w = Op.op ∨ opcodeOf w = Op.op32 ∨ opcodeOf w = Op.amo) :=
    not_or.mpr ⟨hne hr.1, not_or.mpr ⟨hne hr.2.1, hne hr.2.2⟩⟩
  have hI : ¬ (opcodeOf w = Op.opimm ∨ opcodeOf w = Op.opimm32 ∨ opcodeOf w = Op.jalr ∨
      opcodeOf w = Op.load ∨ opcodeOf w = Op.miscMem ∨ opcodeOf w = Op.system) := by
    rintro (hop | hop | hop | hop | hop | hop)
    · exact hne hi.2.2.1 hop
    · exact hne hi.2.2.2.1 hop
    · exact hne hi.2.2.2.2.1 hop
    · exact hne hi.1 hop
    · exact hne hi.2.1 hop
    · exact hne hi.2.2.2.2.2 hop
  have hU : ¬ (opcodeOf w = Op.auipc ∨ opcodeOf w = Op.lui) :=
    not_or.mpr ⟨hne hu.2, hne hu.1⟩
  have hS : opcodeOf w ≠ Op.store := hne hs
  have hB : opcodeOf w ≠ Op.branch := hne hb
  have hJ : opcodeOf w ≠ Op.jal := hne hj
  rw [decodeInstruction, if_neg hR, if_neg hI, if_neg hS, if_neg hU, if_neg hB, if_neg hJ]
  exact ⟨rfl, rfl⟩

/-- For every word the decoder returns the opcode and the operands of the
format the architecture gives to that opcode, and the undefined instruction if
it gives none. -/
theorem decodeInstruction_agrees (junk : RvInst) (w : Word) :
    match Layout.ofOpcode w.opcode with
    | some l => (l.operands w).word w.opcode = w ∧
        (decodeInstruction junk w).opcode = w.opcode.setWidth 32 ∧
        Holds (decodeInstruction junk w) (l.operands w)
    | none => (decodeInstruction junk w).opcode = 0 ∧
        (decodeInstruction junk w).name = .undefined := by
  rcases hl : Layout.ofOpcode w.opcode with _ | l
  · exact decodeInstruction_of_none junk hl
  · exact ⟨l.word_operands w, decodeInstruction_of_layout junk hl⟩

end RailTranslator
