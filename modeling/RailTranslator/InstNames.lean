import RailTranslator.Fields
import RailTranslator.Rv64.Amo

/-!
The names `decode_instruction` gives to instructions.

The decoder takes the name from nested switches over the fields it has just
read. `instName` is the name each instruction of RV64IMA has in the
source, and the lemmas of this module follow the switches of one opcode each.
Three of them look at the wrong bits: the shift amount of `srai` overlaps the
field that is compared, the word shifts look at a field that is never assigned,
and the atomics are compared with constants that are not those of the
architecture, or with a field that has not been shifted.
-/

namespace RailTranslator

open Rv64

/-! ### Names -/

def immName : AluOp → InstName
  | .add => .addi | .slt => .slti | .sltu => .sltiu | .xor => .xori | .or => .ori | .and => .andi
  | .sll => .slli | .srl => .srli | .sra => .srai
  | .addw => .addiw | .sllw => .slliw | .srlw => .srliw | .sraw => .sraiw
  | _ => .undefined

def aluName : AluOp → InstName
  | .add => .add | .sub => .sub | .sll => .sll | .slt => .slt | .sltu => .sltu | .xor => .xor
  | .srl => .srl | .sra => .sra | .or => .or | .and => .and
  | .mul => .mul | .mulh => .mulh | .mulhsu => .mulsu | .mulhu => .mulu
  | .div => .div | .divu => .divu | .rem => .rem | .remu => .remu
  | .addw => .addw | .subw => .subw | .sllw => .sllw | .srlw => .srlw | .sraw => .sraw
  | .mulw => .mulw | .divw => .divw | .divuw => .divuw | .remw => .remw | .remuw => .remuw

def atomicName : AmoOp → AmoWidth → InstName
  | .lr, .word => .lrw | .sc, .word => .scw | .swap, .word => .amoswapw
  | .add, .word => .amoaddw | .xor, .word => .amoxorw | .and, .word => .amoandw
  | .or, .word => .amoorw | .min, .word => .amominw | .max, .word => .amomaxw
  | .minu, .word => .amominuw | .maxu, .word => .amomaxuw
  | .lr, .dword => .lrd | .sc, .dword => .scd | .swap, .dword => .amoswapd
  | .add, .dword => .amoaddd | .xor, .dword => .amoxord | .and, .dword => .amoandd
  | .or, .dword => .amoord | .min, .dword => .amomind | .max, .dword => .amomaxd
  | .minu, .dword => .amominud | .maxu, .dword => .amomaxud

/-- The name of an instruction in `instruction_names.h`. -/
def instName : Mnemonic → InstName
  | .lui => .lui
  | .auipc => .auipc
  | .jal => .jal
  | .jalr => .jalr
  | .branch .beq => .beq | .branch .bne => .bne | .branch .blt => .blt
  | .branch .bge => .bge | .branch .bltu => .bltu | .branch .bgeu => .bgeu
  | .load .lb => .lb | .load .lh => .lh | .load .lw => .lw | .load .ld => .ld
  | .load .lbu => .lbu | .load .lhu => .lhu | .load .lwu => .lwu
  | .store .sb => .sb | .store .sh => .sh | .store .sw => .sw | .store .sd => .sd
  | .opImm o => immName o
  | .op o => aluName o
  | .fence => .fence
  | .ecall => .ecall
  | .ebreak => .ebreak
  | .amo o width => atomicName o width

def InstName.mnemonic : InstName → Option Mnemonic
  | .add => some (.op .add) | .sub => some (.op .sub) | .sll => some (.op .sll)
  | .slt => some (.op .slt) | .sltu => some (.op .sltu) | .xor => some (.op .xor)
  | .srl => some (.op .srl) | .sra => some (.op .sra) | .or => some (.op .or)
  | .and => some (.op .and) | .mul => some (.op .mul) | .mulh => some (.op .mulh)
  | .mulsu => some (.op .mulhsu) | .mulu => some (.op .mulhu) | .div => some (.op .div)
  | .divu => some (.op .divu) | .rem => some (.op .rem) | .remu => some (.op .remu)
  | .addw => some (.op .addw) | .subw => some (.op .subw) | .sllw => some (.op .sllw)
  | .srlw => some (.op .srlw) | .sraw => some (.op .sraw)
  | .addi => some (.opImm .add) | .slli => some (.opImm .sll) | .slti => some (.opImm .slt)
  | .sltiu => some (.opImm .sltu) | .xori => some (.opImm .xor) | .srli => some (.opImm .srl)
  | .srai => some (.opImm .sra) | .ori => some (.opImm .or) | .andi => some (.opImm .and)
  | .lui => some .lui | .auipc => some .auipc
  | .lb => some (.load .lb) | .lh => some (.load .lh) | .lw => some (.load .lw)
  | .lbu => some (.load .lbu) | .lhu => some (.load .lhu)
  | .sb => some (.store .sb) | .sh => some (.store .sh) | .sw => some (.store .sw)
  | .beq => some (.branch .beq) | .bne => some (.branch .bne) | .blt => some (.branch .blt)
  | .bge => some (.branch .bge) | .bltu => some (.branch .bltu) | .bgeu => some (.branch .bgeu)
  | .jal => some .jal | .jalr => some .jalr
  | .mulw => some (.op .mulw) | .divw => some (.op .divw) | .divuw => some (.op .divuw)
  | .remw => some (.op .remw) | .remuw => some (.op .remuw)
  | .addiw => some (.opImm .addw) | .slliw => some (.opImm .sllw)
  | .srliw => some (.opImm .srlw) | .sraiw => some (.opImm .sraw)
  | .lwu => some (.load .lwu) | .ld => some (.load .ld) | .sd => some (.store .sd)
  | .fence => some .fence | .ecall => some .ecall | .ebreak => some .ebreak
  | .lrw => some (.amo .lr .word) | .scw => some (.amo .sc .word)
  | .amoswapw => some (.amo .swap .word) | .amoaddw => some (.amo .add .word)
  | .amoxorw => some (.amo .xor .word) | .amoandw => some (.amo .and .word)
  | .amoorw => some (.amo .or .word) | .amominw => some (.amo .min .word)
  | .amomaxw => some (.amo .max .word) | .amominuw => some (.amo .minu .word)
  | .amomaxuw => some (.amo .maxu .word)
  | .lrd => some (.amo .lr .dword) | .scd => some (.amo .sc .dword)
  | .amoswapd => some (.amo .swap .dword) | .amoaddd => some (.amo .add .dword)
  | .amoxord => some (.amo .xor .dword) | .amoandd => some (.amo .and .dword)
  | .amoord => some (.amo .or .dword) | .amomind => some (.amo .min .dword)
  | .amomaxd => some (.amo .max .dword) | .amominud => some (.amo .minu .dword)
  | .amomaxud => some (.amo .maxu .dword)
  | .undefined => none

/-- A name stands for the only instruction that has it. -/
theorem mnemonic_instName {m : Mnemonic} (hm : instName m ≠ .undefined) :
    (instName m).mnemonic = some m := by
  cases m with
  | branch o => cases o <;> rfl
  | load o => cases o <;> rfl
  | store o => cases o <;> rfl
  | opImm o => cases o <;> first | rfl | exact absurd rfl hm
  | op o => cases o <;> rfl
  | amo o width => cases width <;> cases o <;> rfl
  | _ => rfl

theorem instName_injective {m m' : Mnemonic} (hm : instName m ≠ .undefined)
    (heq : instName m' = instName m) : m' = m := by
  have hm' : instName m' ≠ .undefined := heq ▸ hm
  exact Option.some.inj ((mnemonic_instName hm').symm.trans
    ((congrArg InstName.mnemonic heq).trans (mnemonic_instName hm)))

/-! ### The names of one opcode -/

section Opcodes

variable {junk : RvInst} {w : Word}

theorem name_decodeRtype : (decodeRtype junk w).name = rtypeName junk.name (w.opcode.setWidth 32)
    (w.funct7.setWidth 32) (w.funct3.setWidth 32) := by
  show rtypeName junk.name (decodeRtype junk w).opcode (decodeRtype junk w).funct7
    (decodeRtype junk w).funct3 = _
  rw [decodeRtype_opcode, decodeRtype_funct7, decodeRtype_funct3]

theorem name_decodeItype : (decodeItype junk w).name = itypeName junk.name (w.opcode.setWidth 32)
    (w.funct3.setWidth 32) junk.funct7 (w.immI.signExtend 32) := by
  show itypeName junk.name (decodeItype junk w).opcode (decodeItype junk w).funct3 junk.funct7
    (decodeItype junk w).imm = _
  rw [decodeItype_opcode, decodeItype_funct3, decodeItype_imm]

theorem name_of_op (hop : w.opcode = Opcode.op) : (decodeInstruction junk w).name =
    if w.funct7.setWidth 32 = (0x01 : BitVec 32) then mulName (w.funct3.setWidth 32)
    else opName (w.funct7.setWidth 32) (w.funct3.setWidth 32) := by
  rw [decodeInstruction_rtype (.inl hop), name_decodeRtype, hop]
  simp [rtypeName]

theorem name_of_op32 (hop : w.opcode = Opcode.op32) : (decodeInstruction junk w).name =
    if w.funct7.setWidth 32 = (0x01 : BitVec 32) then mul32Name (w.funct3.setWidth 32)
    else op32Name (w.funct7.setWidth 32) (w.funct3.setWidth 32) := by
  rw [decodeInstruction_rtype (.inr (.inl hop)), name_decodeRtype, hop]
  simp [rtypeName]

theorem name_of_amo (hop : w.opcode = Opcode.amo) : (decodeInstruction junk w).name =
    amoName (w.funct7.setWidth 32) (w.funct3.setWidth 32) := by
  rw [decodeInstruction_rtype (.inr (.inr hop)), name_decodeRtype, hop]
  simp [rtypeName]

theorem name_of_load (hop : w.opcode = Opcode.load) :
    (decodeInstruction junk w).name = loadName (w.funct3.setWidth 32) := by
  rw [decodeInstruction_itype (by simp [hop]), name_decodeItype, hop]
  simp [itypeName]

theorem name_of_jalr (hop : w.opcode = Opcode.jalr) : (decodeInstruction junk w).name = .jalr := by
  rw [decodeInstruction_itype (by simp [hop]), name_decodeItype, hop]
  simp [itypeName]

theorem name_of_opImm (hop : w.opcode = Opcode.opImm) : (decodeInstruction junk w).name =
    opimmName (w.funct3.setWidth 32) (w.immI.signExtend 32) := by
  rw [decodeInstruction_itype (by simp [hop]), name_decodeItype, hop]
  simp [itypeName]

theorem name_of_opImm32 (hop : w.opcode = Opcode.opImm32) : (decodeInstruction junk w).name =
    opimm32Name (w.funct3.setWidth 32) junk.funct7 := by
  rw [decodeInstruction_itype (by simp [hop]), name_decodeItype, hop]
  simp [itypeName]

theorem name_of_system (hop : w.opcode = Opcode.system) :
    (decodeInstruction junk w).name = systemName (w.immI.signExtend 32) := by
  rw [decodeInstruction_itype (by simp [hop]), name_decodeItype, hop]
  simp [itypeName]

theorem name_of_miscMem (hop : w.opcode = Opcode.miscMem) :
    (decodeInstruction junk w).name = .fence := by
  rw [decodeInstruction_itype (by simp [hop]), name_decodeItype, hop]
  simp [itypeName]

theorem name_of_store (hop : w.opcode = Opcode.store) :
    (decodeInstruction junk w).name = storeName (w.funct3.setWidth 32) := by
  rw [decodeInstruction_stype hop, ← decodeStype_funct3 junk w]
  rfl

theorem name_of_branch (hop : w.opcode = Opcode.branch) :
    (decodeInstruction junk w).name = branchName (w.funct3.setWidth 32) := by
  rw [decodeInstruction_btype hop, ← decodeBtype_funct3 junk w]
  rfl

theorem name_of_jal (hop : w.opcode = Opcode.jal) : (decodeInstruction junk w).name = .jal := by
  rw [decodeInstruction_jtype hop]
  rfl

theorem name_of_lui (hop : w.opcode = Opcode.lui) : (decodeInstruction junk w).name = .lui := by
  have hcode : (decodeUtype junk w).opcode = Op.lui := by rw [decodeUtype_opcode, hop]; rfl
  rw [decodeInstruction_utype (.inl hop)]
  exact if_pos hcode

theorem name_of_auipc (hop : w.opcode = Opcode.auipc) :
    (decodeInstruction junk w).name = .auipc := by
  have hcode : (decodeUtype junk w).opcode = Op.auipc := by rw [decodeUtype_opcode, hop]; rfl
  rw [decodeInstruction_utype (.inr hop)]
  refine (if_neg ?_).trans (if_pos hcode)
  intro hlui
  exact absurd (hcode.symm.trans hlui) (by decide)

end Opcodes

/-! ### The switches -/

theorem opName_ofOp : ∀ (f7 : BitVec 7) (f3 : BitVec 3), ∀ o ∈ AluOp.ofOp f7 f3,
    (if f7.setWidth 32 = (0x01 : BitVec 32) then mulName (f3.setWidth 32)
      else opName (f7.setWidth 32) (f3.setWidth 32)) = aluName o := by
  decide +kernel

theorem op32Name_ofOp32 : ∀ (f7 : BitVec 7) (f3 : BitVec 3), ∀ o ∈ AluOp.ofOp32 f7 f3,
    (if f7.setWidth 32 = (0x01 : BitVec 32) then mul32Name (f3.setWidth 32)
      else op32Name (f7.setWidth 32) (f3.setWidth 32)) = aluName o := by
  decide +kernel

theorem loadName_ofFunct3 : ∀ f3 : BitVec 3, ∀ o ∈ LoadOp.ofFunct3 f3,
    loadName (f3.setWidth 32) = instName (.load o) := by
  decide

theorem storeName_ofFunct3 : ∀ f3 : BitVec 3, ∀ o ∈ StoreOp.ofFunct3 f3,
    storeName (f3.setWidth 32) = instName (.store o) := by
  decide

theorem branchName_ofFunct3 : ∀ f3 : BitVec 3, ∀ o ∈ BranchOp.ofFunct3 f3,
    branchName (f3.setWidth 32) = instName (.branch o) := by
  decide

/-- The word atomics that are compared with the constants of the architecture. -/
def wordAtomics : List AmoOp := [.lr, .sc, .swap, .add, .xor, .or]

theorem amoName_word : ∀ (f5 : BitVec 5) (aqrl : BitVec 2), ∀ o ∈ AmoOp.ofFunct5 f5,
    (amoName ((f5 ++ aqrl).setWidth 32) 2 = atomicName o .word ↔ o ∈ wordAtomics) := by
  decide +kernel

/-- The doubleword atomics are compared without shifting the ordering bits out. -/
theorem amoName_dword : ∀ (f5 : BitVec 5) (aqrl : BitVec 2), ∀ o ∈ AmoOp.ofFunct5 f5,
    (amoName ((f5 ++ aqrl).setWidth 32) 3 = atomicName o .dword ↔ o = .add ∧ aqrl = 0) := by
  decide +kernel

/-- The field that tells `srai` from `srli` is read one bit too low: it takes in
the high bit of the shift amount. -/
theorem shiftField (w : Word) : (w.immI.signExtend 32).sshiftRight 5 &&& (0x3f : BitVec 32) =
    (w.extractLsb' 25 6).setWidth 32 := by
  refine (sshift_mask (w.immI.signExtend 32) 5 6 (by decide)).trans ?_
  congr 1
  apply BitVec.eq_of_getLsbD_eq
  intro i hi
  simp only [Word.immI, BitVec.getLsbD_extractLsb', BitVec.getLsbD_signExtend, hi, decide_true,
    Bool.true_and]
  grind

theorem shiftField_logical : ∀ f7 : BitVec 7, f7.extractLsb' 1 6 = 0 →
    (f7.extractLsb' 0 6).setWidth 32 ≠ (0x20 : BitVec 32) := by
  decide

theorem shiftField_arithmetic : ∀ f7 : BitVec 7, f7.extractLsb' 1 6 = 0x10 →
    ((f7.extractLsb' 0 6).setWidth 32 = (0x20 : BitVec 32) ↔ f7.getLsbD 0 = false) := by
  decide

def ShortShift (w : Word) : Prop := w.getLsbD 25 = false

/-! ### All instructions -/

/-- The instruction is named by fields that the decoder has read, and compared
with the constants of the architecture. -/
structure NamedRight (funct7 : BitVec 32) (w : Word) (m : Mnemonic) : Prop where
  srai : m = .opImm .sra → ShortShift w
  srliw : m = .opImm .srlw → funct7 ≠ 0x20
  sraiw : m = .opImm .sraw → funct7 = 0x20
  word : ∀ o, m = .amo o .word → o ∈ wordAtomics
  dword : ∀ o, m = .amo o .dword → o = .add ∧ Word.aqrl w = 0

theorem namedRight_other {funct7 : BitVec 32} {w : Word} {m : Mnemonic}
    (himm : ∀ o, m ≠ .opImm o) (hamo : ∀ o width, m ≠ .amo o width) : NamedRight funct7 w m where
  srai h := absurd h (himm _)
  srliw h := absurd h (himm _)
  sraiw h := absurd h (himm _)
  word o h := absurd h (hamo o _)
  dword o h := absurd h (hamo o _)

theorem namedRight_amo_word {funct7 : BitVec 32} {w : Word} {o : AmoOp} :
    NamedRight funct7 w (.amo o .word) ↔ o ∈ wordAtomics := by
  constructor
  · intro h
    exact h.word o rfl
  · intro h
    refine ⟨?_, ?_, ?_, ?_, ?_⟩
    · rintro ⟨⟩
    · rintro ⟨⟩
    · rintro ⟨⟩
    · rintro o' ⟨⟩
      exact h
    · rintro o' ⟨⟩

theorem namedRight_amo_dword {funct7 : BitVec 32} {w : Word} {o : AmoOp} :
    NamedRight funct7 w (.amo o .dword) ↔ o = .add ∧ Word.aqrl w = 0 := by
  constructor
  · intro h
    exact h.dword o rfl
  · intro h
    refine ⟨?_, ?_, ?_, ?_, ?_⟩
    · rintro ⟨⟩
    · rintro ⟨⟩
    · rintro ⟨⟩
    · rintro o' ⟨⟩
    · rintro o' ⟨⟩
      exact h

theorem namedRight_opImm {funct7 : BitVec 32} {w : Word} {o : AluOp} :
    NamedRight funct7 w (.opImm o) ↔ (o = .sra → ShortShift w) ∧
      (o = .srlw → funct7 ≠ 0x20) ∧ (o = .sraw → funct7 = 0x20) := by
  constructor
  · intro h
    refine ⟨?_, ?_, ?_⟩
    · rintro rfl
      exact h.srai rfl
    · rintro rfl
      exact h.srliw rfl
    · rintro rfl
      exact h.sraiw rfl
  · rintro ⟨hsra, hsrlw, hsraw⟩
    refine ⟨?_, ?_, ?_, ?_, ?_⟩
    · rintro ⟨⟩
      exact hsra rfl
    · rintro ⟨⟩
      exact hsrlw rfl
    · rintro ⟨⟩
      exact hsraw rfl
    · rintro o' ⟨⟩
    · rintro o' ⟨⟩

section Immediates

variable {w : Word} {o : AluOp} {v : DWord}

theorem name_opImm_iff (funct7 : BitVec 32) (himm : decodeOpImm w = some (o, v)) :
    opimmName (w.funct3.setWidth 32) (w.immI.signExtend 32) = immName o ↔
      NamedRight funct7 w (.opImm o) := by
  rw [namedRight_opImm]
  have hfield (n : ℕ) (hn : n + 6 ≤ 7) :
      w.extractLsb' (25 + n) 6 = w.funct7.extractLsb' n 6 := by
    apply BitVec.eq_of_getLsbD_eq
    intro i hi
    simp only [Word.funct7, BitVec.getLsbD_extractLsb', hi, decide_true, Bool.true_and]
    grind
  have hlow : w.extractLsb' 25 6 = w.funct7.extractLsb' 0 6 := hfield 0 (by omega)
  have hhigh : w.extractLsb' 26 6 = w.funct7.extractLsb' 1 6 := hfield 1 (by omega)
  have hbit : w.getLsbD 25 = w.funct7.getLsbD 0 := by simp [Word.funct7]
  rw [decodeOpImm] at himm
  split at himm <;> rename_i hf3 <;> rw [hf3]
  -- the shifts to the right, whose name depends on the immediate
  case h_8 =>
    have hname : opimmName ((5#3).setWidth 32) (w.immI.signExtend 32) =
        if (w.funct7.extractLsb' 0 6).setWidth 32 = (0x20 : BitVec 32) then .srai else .srli := by
      rw [← hlow, ← shiftField]
      rfl
    rw [hname]
    rw [hhigh] at himm
    split_ifs at himm with hlogical harithmetic
    · obtain ⟨rfl, -⟩ := Prod.mk.inj (Option.some.inj himm)
      rw [if_neg (shiftField_logical _ hlogical)]
      simp [immName]
    · obtain ⟨rfl, -⟩ := Prod.mk.inj (Option.some.inj himm)
      rw [ShortShift, hbit, ← shiftField_arithmetic _ harithmetic]
      simp [immName]
  case h_7 =>
    split_ifs at himm
    obtain ⟨rfl, -⟩ := Prod.mk.inj (Option.some.inj himm)
    simp [opimmName, immName]
  all_goals
    obtain ⟨rfl, -⟩ := Prod.mk.inj (Option.some.inj himm)
    simp [opimmName, immName]

/-- The word shifts to the right are told apart by a field that the decoder has
not assigned. -/
theorem name_opImm32_iff (funct7 : BitVec 32) (himm : decodeOpImm32 w = some (o, v)) :
    opimm32Name (w.funct3.setWidth 32) funct7 = immName o ↔ NamedRight funct7 w (.opImm o) := by
  rw [namedRight_opImm]
  rw [decodeOpImm32] at himm
  split at himm
  case h_4 => cases himm
  all_goals
    rename_i hf3
    rw [hf3]
  case h_1 =>
    obtain ⟨rfl, -⟩ := Prod.mk.inj (Option.some.inj himm)
    simp [opimm32Name, immName]
  case h_2 =>
    split_ifs at himm
    obtain ⟨rfl, -⟩ := Prod.mk.inj (Option.some.inj himm)
    simp [opimm32Name, immName]
  case h_3 =>
    split_ifs at himm
    · obtain ⟨rfl, -⟩ := Prod.mk.inj (Option.some.inj himm)
      simp [opimm32Name, immName]
    · obtain ⟨rfl, -⟩ := Prod.mk.inj (Option.some.inj himm)
      simp [opimm32Name, immName]

end Immediates

section Names

variable {junk : RvInst} {w : Word} {m : Mnemonic}

theorem funct3_of_width : ∀ f3 : BitVec 3, ∀ width ∈ AmoWidth.ofFunct3 f3,
    f3.setWidth 32 = if width = .word then (2 : BitVec 32) else 3 := by
  decide

theorem name_iff_of_amo {a : Amo} (hop : w.opcode = Opcode.amo) (ha : Amo.decode w = some a) :
    (decodeInstruction junk w).name = instName a.mnemonic ↔
      NamedRight junk.funct7 w a.mnemonic := by
  obtain ⟨ho, hwidth, -⟩ := amo_decode_fields ha
  have hf7 : w.funct7 = Word.funct5 w ++ Word.aqrl w := by
    apply BitVec.eq_of_getLsbD_eq
    intro i hi
    simp only [Word.funct7, Word.funct5, Word.aqrl, BitVec.getLsbD_extractLsb',
      BitVec.getLsbD_append, hi, decide_true, Bool.true_and]
    grind
  have hf3 := funct3_of_width _ _ hwidth
  rw [name_of_amo hop, hf7, hf3, Amo.mnemonic]
  cases hw : a.width with
  | word =>
      rw [if_pos rfl, namedRight_amo_word]
      exact amoName_word _ _ _ ho
  | dword =>
      rw [if_neg (by decide), namedRight_amo_dword]
      exact amoName_dword _ _ _ ho

theorem name_iff_of_instr {i : Instr} (hi : Instr.decode w = some i) :
    (decodeInstruction junk w).name = instName i.mnemonic ↔
      NamedRight junk.funct7 w i.mnemonic := by
  have hother {m : Mnemonic} (hname : (decodeInstruction junk w).name = instName m)
      (himm : ∀ o, m ≠ .opImm o) (hamo : ∀ o width, m ≠ .amo o width) :
      (decodeInstruction junk w).name = instName m ↔ NamedRight junk.funct7 w m :=
    iff_of_true hname (namedRight_other himm hamo)
  cases decoded hi with
  | lui hop => exact hother (name_of_lui hop) (by rintro _ ⟨⟩) (by rintro _ _ ⟨⟩)
  | auipc hop => exact hother (name_of_auipc hop) (by rintro _ ⟨⟩) (by rintro _ _ ⟨⟩)
  | jal hop => exact hother (name_of_jal hop) (by rintro _ ⟨⟩) (by rintro _ _ ⟨⟩)
  | jalr hop hf3 => exact hother (name_of_jalr hop) (by rintro _ ⟨⟩) (by rintro _ _ ⟨⟩)
  | branch hop ho =>
      exact hother ((@name_of_branch junk _ hop).trans (branchName_ofFunct3 _ _ ho))
        (by rintro _ ⟨⟩) (by rintro _ _ ⟨⟩)
  | load hop ho =>
      exact hother ((@name_of_load junk _ hop).trans (loadName_ofFunct3 _ _ ho))
        (by rintro _ ⟨⟩) (by rintro _ _ ⟨⟩)
  | store hop ho =>
      exact hother ((@name_of_store junk _ hop).trans (storeName_ofFunct3 _ _ ho))
        (by rintro _ ⟨⟩) (by rintro _ _ ⟨⟩)
  | opImm hop hp =>
      rw [name_of_opImm hop]
      exact name_opImm_iff _ hp
  | opImm32 hop hp =>
      rw [name_of_opImm32 hop]
      exact name_opImm32_iff _ hp
  | op hop ho =>
      exact hother ((@name_of_op junk _ hop).trans (opName_ofOp _ _ _ ho))
        (by rintro _ ⟨⟩) (by rintro _ _ ⟨⟩)
  | op32 hop ho =>
      exact hother ((@name_of_op32 junk _ hop).trans (op32Name_ofOp32 _ _ _ ho))
        (by rintro _ ⟨⟩) (by rintro _ _ ⟨⟩)

theorem name_iff (hm : Mnemonic.decode w = some m) :
    (decodeInstruction junk w).name = instName m ↔ NamedRight junk.funct7 w m := by
  rcases mnemonic_cases hm with ⟨hop, a, ha, rfl⟩ | ⟨hop, rfl⟩ | hsystem | ⟨i, hi, rfl⟩
  · exact name_iff_of_amo hop ha
  · exact iff_of_true (name_of_miscMem hop) (namedRight_other (by rintro _ ⟨⟩) (by rintro _ _ ⟨⟩))
  · rcases hsystem with ⟨rfl, rfl⟩ | ⟨rfl, rfl⟩
    · exact iff_of_true (name_of_system (by decide))
        (namedRight_other (by rintro _ ⟨⟩) (by rintro _ _ ⟨⟩))
    · exact iff_of_true (name_of_system (by decide))
        (namedRight_other (by rintro _ ⟨⟩) (by rintro _ _ ⟨⟩))
  · exact name_iff_of_instr hi

theorem immName_ne {o : AluOp} {v : DWord}
    (himm : decodeOpImm w = some (o, v) ∨ decodeOpImm32 w = some (o, v)) :
    immName o ≠ .undefined := by
  rcases himm with himm | himm
  · rw [decodeOpImm] at himm
    split at himm
    case h_7 =>
      split_ifs at himm
      obtain ⟨rfl, -⟩ := Prod.mk.inj (Option.some.inj himm)
      decide
    case h_8 =>
      split_ifs at himm <;> obtain ⟨rfl, -⟩ := Prod.mk.inj (Option.some.inj himm) <;> decide
    all_goals
      obtain ⟨rfl, -⟩ := Prod.mk.inj (Option.some.inj himm)
      decide
  · rw [decodeOpImm32] at himm
    split at himm
    case h_4 => cases himm
    case h_1 =>
      obtain ⟨rfl, -⟩ := Prod.mk.inj (Option.some.inj himm)
      decide
    all_goals
      split_ifs at himm <;> obtain ⟨rfl, -⟩ := Prod.mk.inj (Option.some.inj himm) <;> decide

theorem instName_ne (hm : Mnemonic.decode w = some m) : instName m ≠ .undefined := by
  cases m with
  | branch o => cases o <;> decide
  | load o => cases o <;> decide
  | store o => cases o <;> decide
  | op o => cases o <;> decide
  | amo o width => cases width <;> cases o <;> decide
  | opImm o =>
      obtain ⟨v, himm⟩ := decodeOpImm_of_mnemonic hm
      exact immName_ne himm
  | _ => decide

structure NamedByFields (w : Word) (m : Mnemonic) : Prop where
  srai : m = .opImm .sra → ShortShift w
  srliw : m ≠ .opImm .srlw
  sraiw : m ≠ .opImm .sraw
  word : ∀ o, m = .amo o .word → o ∈ wordAtomics
  dword : ∀ o, m = .amo o .dword → o = .add ∧ Word.aqrl w = 0

theorem namedByFields_iff :
    (∀ junk : RvInst, NamedRight junk.funct7 w m) ↔ NamedByFields w m := by
  constructor
  · intro h
    let junk (funct7 : BitVec 32) : RvInst :=
      { opcode := 0, rd := 0, funct3 := 0, rs1 := 0, rs2 := 0, funct7 := funct7, imm := 0
        address := 0, type := .rType, name := .undefined }
    have hzero := h (junk 0)
    have harithmetic := h (junk 0x20)
    refine ⟨hzero.srai, fun hm => ?_, fun hm => ?_, hzero.word, hzero.dword⟩
    · exact harithmetic.srliw hm rfl
    · exact absurd (hzero.sraiw hm) (by decide)
  · intro h junk
    exact ⟨h.srai, fun hm => absurd hm h.srliw, fun hm => absurd hm h.sraiw, h.word, h.dword⟩

/-- The decoder returns the name of the instruction, whatever was in the fields
it has not assigned, exactly if the instruction is none of these: `srai` by 32
or more, `srliw`, `sraiw`, one of the word atomics from `amoand.w` and
`amomin.w` on, or a doubleword atomic other than an unordered `amoadd.d`. The
names of different instructions are different. -/
theorem decodeInstruction_names (hm : Mnemonic.decode w = some m) :
    (instName m ≠ .undefined ∧ ∀ m', instName m' = instName m → m' = m) ∧
      ((∀ junk, (decodeInstruction junk w).name = instName m) ↔ NamedByFields w m) := by
  refine ⟨⟨instName_ne hm, fun m' => instName_injective (instName_ne hm)⟩, ?_⟩
  rw [← namedByFields_iff]
  exact forall_congr' fun junk => name_iff hm

/-- `amoor.w.aq x5, x6, (x7)` -/
theorem decodeInstruction_names_amoor : Mnemonic.decode 0x4463a2af = some (.amo .or .word) ∧
    ((instName (.amo .or .word) ≠ .undefined ∧
        ∀ m', instName m' = instName (.amo .or .word) → m' = .amo .or .word) ∧
      ((∀ junk, (decodeInstruction junk 0x4463a2af).name = instName (.amo .or .word)) ↔
        NamedByFields 0x4463a2af (.amo .or .word))) ∧
    NamedByFields 0x4463a2af (.amo .or .word) := by
  have hm : Mnemonic.decode 0x4463a2af = some (.amo .or .word) := by decide
  refine ⟨hm, decodeInstruction_names hm, ?_⟩
  refine ⟨?_, ?_, ?_, ?_, ?_⟩
  · rintro ⟨⟩
  · rintro ⟨⟩
  · rintro ⟨⟩
  · rintro o ⟨⟩
    decide
  · rintro o ⟨⟩

/-- `srai x5, x5, 32` is taken for `srli`, `lr.d x5, (x7)` for `amoor.d`, and
`amoand.w x5, x6, (x7)` for no instruction. -/
theorem decodeInstruction_misnames :
    (Mnemonic.decode 0x4202d293 = some (.opImm .sra) ∧
      ∀ junk, (decodeInstruction junk 0x4202d293).name = instName (.opImm .srl)) ∧
    (Mnemonic.decode 0x1003b2af = some (.amo .lr .dword) ∧
      ∀ junk, (decodeInstruction junk 0x1003b2af).name = instName (.amo .or .dword)) ∧
    (Mnemonic.decode 0x6063a2af = some (.amo .and .word) ∧
      ∀ junk, (decodeInstruction junk 0x6063a2af).name = .undefined) := by
  refine ⟨⟨by decide, fun junk => ?_⟩, ⟨by decide, fun junk => ?_⟩, ⟨by decide, fun junk => ?_⟩⟩
  · rw [name_of_opImm (by decide)]
    decide
  · rw [name_of_amo (by decide)]
    decide
  · rw [name_of_amo (by decide)]
    decide

end Names

end RailTranslator
