import RailTranslator.Rv64.Memory

/-!
The instructions: RV64I without the system and fence instructions, and the
multiply extension.

`Instr` is the syntax, `Instr.decode` reads it from a word and answers `none`
on everything that is not one of these instructions, reserved encodings
included. What an instruction does to registers and memory is `Instr.exec`;
it is total, because a decoded instruction cannot fail here: misaligned
accesses are allowed and there is no protection.

`Instr.exec` takes a function `tr` that is applied to the base value of every
load and store. The architecture is the identity; a program that runs in a
relocated image is the same semantics at another `tr`, so the two are
compared without a second interpreter.
-/

namespace Rv64

/-! ### Arithmetic -/

inductive AluOp
  | add | sub | sll | slt | sltu | xor | srl | sra | or | and
  | mul | mulh | mulhsu | mulhu | div | divu | rem | remu
  | addw | subw | sllw | srlw | sraw
  | mulw | divw | divuw | remw | remuw
  deriving DecidableEq, Repr

/-- The low half of a doubleword, and the result of a word operation. -/
def low (a : DWord) : Word := a.setWidth 32

def ofLow (a : Word) : DWord := a.signExtend 64

theorem low_signExtend {k : ℕ} (x : BitVec k) : low (x.signExtend 64) = x.signExtend 32 := by
  refine BitVec.eq_of_getLsbD_eq fun i hi => ?_
  have hi' : i < 64 := by omega
  simp only [low, BitVec.getLsbD_setWidth, BitVec.getLsbD_signExtend, hi, hi', decide_true,
    Bool.true_and]

theorem low_ofLow (v : Word) : low (ofLow v) = v :=
  (low_signExtend v).trans (BitVec.signExtend_eq v)

theorem low_add_signExtend {k : ℕ} (a : DWord) (x : BitVec k) :
    low (a + x.signExtend 64) = low a + x.signExtend 32 := by
  rw [← low_signExtend, low, low, low, BitVec.setWidth_add _ _ (by decide)]

theorem signExtend_inj {x y : Word} : x.signExtend 64 = y.signExtend 64 ↔ x = y := by
  constructor
  · intro heq
    rw [← low_ofLow x, ofLow, heq]
    exact low_ofLow y
  · intro heq
    rw [heq]

/-- A value that fits into `k` bits with a sign is what they extend to. -/
theorem signExtend_setWidth_of_fits {k : ℕ} (hk : k ≤ 64) {d : DWord}
    (hlo : -(2 ^ k / 2 : ℤ) ≤ d.toInt) (hhi : d.toInt < (2 ^ k + 1) / 2) :
    (d.setWidth k).signExtend 64 = d := by
  have hdvd : 2 ^ k ∣ 2 ^ 64 := Nat.pow_dvd_pow 2 hk
  apply BitVec.eq_of_toInt_eq
  rw [BitVec.toInt_signExtend_of_le hk, BitVec.toInt_setWidth, ← Int.bmod_bmod_of_dvd hdvd,
    ← BitVec.toInt_eq_toNat_bmod]
  apply Int.bmod_eq_of_le
  · push_cast
    exact hlo
  · push_cast
    exact hhi

/-- Division by zero answers all ones, the remainder the dividend. -/
def AluOp.eval : AluOp → DWord → DWord → DWord
  | .add, a, b => a + b
  | .sub, a, b => a - b
  | .sll, a, b => a <<< (b.toNat % 64)
  | .slt, a, b => if a.slt b then 1 else 0
  | .sltu, a, b => if a.ult b then 1 else 0
  | .xor, a, b => a ^^^ b
  | .srl, a, b => a >>> (b.toNat % 64)
  | .sra, a, b => a.sshiftRight (b.toNat % 64)
  | .or, a, b => a ||| b
  | .and, a, b => a &&& b
  | .mul, a, b => a * b
  | .mulh, a, b => (a.signExtend 128 * b.signExtend 128).extractLsb' 64 64
  | .mulhsu, a, b => (a.signExtend 128 * b.setWidth 128).extractLsb' 64 64
  | .mulhu, a, b => (a.setWidth 128 * b.setWidth 128).extractLsb' 64 64
  | .div, a, b => if b = 0 then BitVec.allOnes 64 else a.sdiv b
  | .divu, a, b => if b = 0 then BitVec.allOnes 64 else a / b
  | .rem, a, b => if b = 0 then a else a.srem b
  | .remu, a, b => if b = 0 then a else a % b
  | .addw, a, b => ofLow (low a + low b)
  | .subw, a, b => ofLow (low a - low b)
  | .sllw, a, b => ofLow (low a <<< (b.toNat % 32))
  | .srlw, a, b => ofLow (low a >>> (b.toNat % 32))
  | .sraw, a, b => ofLow ((low a).sshiftRight (b.toNat % 32))
  | .mulw, a, b => ofLow (low a * low b)
  | .divw, a, b => ofLow (if low b = 0 then BitVec.allOnes 32 else (low a).sdiv (low b))
  | .divuw, a, b => ofLow (if low b = 0 then BitVec.allOnes 32 else low a / low b)
  | .remw, a, b => ofLow (if low b = 0 then low a else (low a).srem (low b))
  | .remuw, a, b => ofLow (if low b = 0 then low a else low a % low b)

inductive BranchOp
  | beq | bne | blt | bge | bltu | bgeu
  deriving DecidableEq, Repr

def BranchOp.holds : BranchOp → DWord → DWord → Bool
  | .beq, a, b => a == b
  | .bne, a, b => a != b
  | .blt, a, b => a.slt b
  | .bge, a, b => !a.slt b
  | .bltu, a, b => a.ult b
  | .bgeu, a, b => !a.ult b

inductive LoadOp
  | lb | lh | lw | ld | lbu | lhu | lwu
  deriving DecidableEq, Repr

def LoadOp.size : LoadOp → ℕ
  | .lb | .lbu => 1
  | .lh | .lhu => 2
  | .lw | .lwu => 4
  | .ld => 8

def LoadOp.extend : LoadOp → DWord → DWord
  | .lb, v => (v.setWidth 8).signExtend 64
  | .lh, v => (v.setWidth 16).signExtend 64
  | .lw, v => (v.setWidth 32).signExtend 64
  | .ld, v | .lbu, v | .lhu, v | .lwu, v => v

inductive StoreOp
  | sb | sh | sw | sd
  deriving DecidableEq, Repr

def StoreOp.size : StoreOp → ℕ
  | .sb => 1
  | .sh => 2
  | .sw => 4
  | .sd => 8

theorem LoadOp.size_le (o : LoadOp) : o.size ≤ 8 := by cases o <;> decide

theorem StoreOp.size_le (o : StoreOp) : o.size ≤ 8 := by cases o <;> decide

/-! ### Instructions -/

inductive Instr
  | lui (rd : Reg) (imm : BitVec 20)
  | auipc (rd : Reg) (imm : BitVec 20)
  | jal (rd : Reg) (off : BitVec 21)
  | jalr (rd rs1 : Reg) (off : BitVec 12)
  | branch (op : BranchOp) (rs1 rs2 : Reg) (off : BitVec 13)
  | load (op : LoadOp) (rd rs1 : Reg) (off : BitVec 12)
  | store (op : StoreOp) (rs1 rs2 : Reg) (off : BitVec 12)
  | opImm (op : AluOp) (rd rs1 : Reg) (imm : DWord)
  | op (op : AluOp) (rd rs1 rs2 : Reg)
  deriving DecidableEq, Repr

namespace Opcode

abbrev load : BitVec 7 := 0b0000011
abbrev miscMem : BitVec 7 := 0b0001111
abbrev opImm : BitVec 7 := 0b0010011
abbrev auipc : BitVec 7 := 0b0010111
abbrev opImm32 : BitVec 7 := 0b0011011
abbrev store : BitVec 7 := 0b0100011
abbrev amo : BitVec 7 := 0b0101111
abbrev op : BitVec 7 := 0b0110011
abbrev lui : BitVec 7 := 0b0110111
abbrev op32 : BitVec 7 := 0b0111011
abbrev branch : BitVec 7 := 0b1100011
abbrev jalr : BitVec 7 := 0b1100111
abbrev jal : BitVec 7 := 0b1101111
abbrev system : BitVec 7 := 0b1110011

end Opcode

def AluOp.ofOp (funct7 : BitVec 7) (funct3 : BitVec 3) : Option AluOp :=
  if funct7 = 0 then
    match funct3 with
    | 0 => some .add | 1 => some .sll | 2 => some .slt | 3 => some .sltu
    | 4 => some .xor | 5 => some .srl | 6 => some .or | 7 => some .and
  else if funct7 = 0x20 then
    match funct3 with
    | 0 => some .sub | 5 => some .sra | _ => none
  else if funct7 = 1 then
    match funct3 with
    | 0 => some .mul | 1 => some .mulh | 2 => some .mulhsu | 3 => some .mulhu
    | 4 => some .div | 5 => some .divu | 6 => some .rem | 7 => some .remu
  else none

def AluOp.ofOp32 (funct7 : BitVec 7) (funct3 : BitVec 3) : Option AluOp :=
  if funct7 = 0 then
    match funct3 with
    | 0 => some .addw | 1 => some .sllw | 5 => some .srlw | _ => none
  else if funct7 = 0x20 then
    match funct3 with
    | 0 => some .subw | 5 => some .sraw | _ => none
  else if funct7 = 1 then
    match funct3 with
    | 0 => some .mulw | 4 => some .divw | 5 => some .divuw | 6 => some .remw
    | 7 => some .remuw | _ => none
  else none

/-- The immediate operations of a doubleword, with their operand: a shift
takes six bits of the immediate, the others all twelve, sign extended. -/
def decodeOpImm (w : Word) : Option (AluOp × DWord) :=
  let shamt : DWord := (w.extractLsb' 20 6).setWidth 64
  match w.funct3 with
  | 0 => some (.add, w.immI.signExtend 64)
  | 2 => some (.slt, w.immI.signExtend 64)
  | 3 => some (.sltu, w.immI.signExtend 64)
  | 4 => some (.xor, w.immI.signExtend 64)
  | 6 => some (.or, w.immI.signExtend 64)
  | 7 => some (.and, w.immI.signExtend 64)
  | 1 => if w.extractLsb' 26 6 = 0 then some (.sll, shamt) else none
  | 5 =>
      if w.extractLsb' 26 6 = 0 then some (.srl, shamt)
      else if w.extractLsb' 26 6 = 0x10 then some (.sra, shamt)
      else none

/-- The immediate operations of a word; a shift takes five bits. -/
def decodeOpImm32 (w : Word) : Option (AluOp × DWord) :=
  let shamt : DWord := w.rs2.setWidth 64
  match w.funct3 with
  | 0 => some (.addw, w.immI.signExtend 64)
  | 1 => if w.funct7 = 0 then some (.sllw, shamt) else none
  | 5 =>
      if w.funct7 = 0 then some (.srlw, shamt)
      else if w.funct7 = 0x20 then some (.sraw, shamt)
      else none
  | _ => none

def BranchOp.ofFunct3 : BitVec 3 → Option BranchOp
  | 0 => some .beq | 1 => some .bne | 4 => some .blt | 5 => some .bge
  | 6 => some .bltu | 7 => some .bgeu | _ => none

def LoadOp.ofFunct3 : BitVec 3 → Option LoadOp
  | 0 => some .lb | 1 => some .lh | 2 => some .lw | 3 => some .ld
  | 4 => some .lbu | 5 => some .lhu | 6 => some .lwu | _ => none

def StoreOp.ofFunct3 : BitVec 3 → Option StoreOp
  | 0 => some .sb | 1 => some .sh | 2 => some .sw | 3 => some .sd | _ => none

def Instr.decode (w : Word) : Option Instr :=
  if w.opcode = Opcode.lui then some (.lui w.rd w.immU)
  else if w.opcode = Opcode.auipc then some (.auipc w.rd w.immU)
  else if w.opcode = Opcode.jal then some (.jal w.rd w.immJ)
  else if w.opcode = Opcode.jalr then
    if w.funct3 = 0 then some (.jalr w.rd w.rs1 w.immI) else none
  else if w.opcode = Opcode.branch then
    (BranchOp.ofFunct3 w.funct3).map fun o => .branch o w.rs1 w.rs2 w.immB
  else if w.opcode = Opcode.load then
    (LoadOp.ofFunct3 w.funct3).map fun o => .load o w.rd w.rs1 w.immI
  else if w.opcode = Opcode.store then
    (StoreOp.ofFunct3 w.funct3).map fun o => .store o w.rs1 w.rs2 w.immS
  else if w.opcode = Opcode.opImm then
    (decodeOpImm w).map fun p => .opImm p.1 w.rd w.rs1 p.2
  else if w.opcode = Opcode.opImm32 then
    (decodeOpImm32 w).map fun p => .opImm p.1 w.rd w.rs1 p.2
  else if w.opcode = Opcode.op then
    (AluOp.ofOp w.funct7 w.funct3).map fun o => .op o w.rd w.rs1 w.rs2
  else if w.opcode = Opcode.op32 then
    (AluOp.ofOp32 w.funct7 w.funct3).map fun o => .op o w.rd w.rs1 w.rs2
  else none

/-! ### Decoding by opcode -/

section Decode

variable {w : Word}

theorem decode_of_lui (h : w.opcode = Opcode.lui) : Instr.decode w = some (.lui w.rd w.immU) := by
  simp [Instr.decode, h]

theorem decode_of_auipc (h : w.opcode = Opcode.auipc) :
    Instr.decode w = some (.auipc w.rd w.immU) := by
  simp [Instr.decode, h]

theorem decode_of_jal (h : w.opcode = Opcode.jal) : Instr.decode w = some (.jal w.rd w.immJ) := by
  simp [Instr.decode, h]

theorem decode_of_jalr (h : w.opcode = Opcode.jalr) :
    Instr.decode w = if w.funct3 = 0 then some (.jalr w.rd w.rs1 w.immI) else none := by
  simp [Instr.decode, h]

theorem decode_of_branch (h : w.opcode = Opcode.branch) :
    Instr.decode w = (BranchOp.ofFunct3 w.funct3).map fun o => .branch o w.rs1 w.rs2 w.immB := by
  simp [Instr.decode, h]

theorem decode_of_load (h : w.opcode = Opcode.load) :
    Instr.decode w = (LoadOp.ofFunct3 w.funct3).map fun o => .load o w.rd w.rs1 w.immI := by
  simp [Instr.decode, h]

theorem decode_of_store (h : w.opcode = Opcode.store) :
    Instr.decode w = (StoreOp.ofFunct3 w.funct3).map fun o => .store o w.rs1 w.rs2 w.immS := by
  simp [Instr.decode, h]

theorem decode_of_opImm (h : w.opcode = Opcode.opImm) :
    Instr.decode w = (decodeOpImm w).map fun p => .opImm p.1 w.rd w.rs1 p.2 := by
  simp [Instr.decode, h]

theorem decode_of_op (h : w.opcode = Opcode.op) :
    Instr.decode w = (AluOp.ofOp w.funct7 w.funct3).map fun o => .op o w.rd w.rs1 w.rs2 := by
  simp [Instr.decode, h]

theorem decode_of_opImm32 (h : w.opcode = Opcode.opImm32) :
    Instr.decode w = (decodeOpImm32 w).map fun p => .opImm p.1 w.rd w.rs1 p.2 := by
  simp [Instr.decode, h]

theorem decode_of_op32 (h : w.opcode = Opcode.op32) :
    Instr.decode w = (AluOp.ofOp32 w.funct7 w.funct3).map fun o => .op o w.rd w.rs1 w.rs2 := by
  simp [Instr.decode, h]

theorem decode_of_system (h : w.opcode = Opcode.system) : Instr.decode w = none := by
  simp [Instr.decode, h]

inductive Decoded (w : Word) : Instr → Prop
  | lui (hop : w.opcode = Opcode.lui) : Decoded w (.lui w.rd w.immU)
  | auipc (hop : w.opcode = Opcode.auipc) : Decoded w (.auipc w.rd w.immU)
  | jal (hop : w.opcode = Opcode.jal) : Decoded w (.jal w.rd w.immJ)
  | jalr (hop : w.opcode = Opcode.jalr) (hf3 : w.funct3 = 0) : Decoded w (.jalr w.rd w.rs1 w.immI)
  | branch (hop : w.opcode = Opcode.branch) {o : BranchOp}
      (ho : BranchOp.ofFunct3 w.funct3 = some o) : Decoded w (.branch o w.rs1 w.rs2 w.immB)
  | load (hop : w.opcode = Opcode.load) {o : LoadOp} (ho : LoadOp.ofFunct3 w.funct3 = some o) :
      Decoded w (.load o w.rd w.rs1 w.immI)
  | store (hop : w.opcode = Opcode.store) {o : StoreOp}
      (ho : StoreOp.ofFunct3 w.funct3 = some o) : Decoded w (.store o w.rs1 w.rs2 w.immS)
  | opImm (hop : w.opcode = Opcode.opImm) {p : AluOp × DWord} (hp : decodeOpImm w = some p) :
      Decoded w (.opImm p.1 w.rd w.rs1 p.2)
  | opImm32 (hop : w.opcode = Opcode.opImm32) {p : AluOp × DWord}
      (hp : decodeOpImm32 w = some p) : Decoded w (.opImm p.1 w.rd w.rs1 p.2)
  | op (hop : w.opcode = Opcode.op) {o : AluOp} (ho : AluOp.ofOp w.funct7 w.funct3 = some o) :
      Decoded w (.op o w.rd w.rs1 w.rs2)
  | op32 (hop : w.opcode = Opcode.op32) {o : AluOp}
      (ho : AluOp.ofOp32 w.funct7 w.funct3 = some o) : Decoded w (.op o w.rd w.rs1 w.rs2)

theorem opcode_of_decode {i : Instr} (h : Instr.decode w = some i) :
    w.opcode ∈ [Opcode.lui, Opcode.auipc, Opcode.jal, Opcode.jalr, Opcode.branch, Opcode.load,
      Opcode.store, Opcode.opImm, Opcode.opImm32, Opcode.op, Opcode.op32] := by
  by_contra hmem
  simp only [List.mem_cons, List.not_mem_nil, or_false, not_or] at hmem
  obtain ⟨h₁, h₂, h₃, h₄, h₅, h₆, h₇, h₈, h₉, h₁₀, h₁₁⟩ := hmem
  rw [Instr.decode, if_neg h₁, if_neg h₂, if_neg h₃, if_neg h₄, if_neg h₅, if_neg h₆, if_neg h₇,
    if_neg h₈, if_neg h₉, if_neg h₁₀, if_neg h₁₁] at h
  cases h

theorem decoded {i : Instr} (h : Instr.decode w = some i) : Decoded w i := by
  have hmem := opcode_of_decode h
  simp only [List.mem_cons, List.not_mem_nil, or_false] at hmem
  rcases hmem with hop | hop | hop | hop | hop | hop | hop | hop | hop | hop | hop
  · rw [decode_of_lui hop] at h
    exact Option.some.inj h ▸ .lui hop
  · rw [decode_of_auipc hop] at h
    exact Option.some.inj h ▸ .auipc hop
  · rw [decode_of_jal hop] at h
    exact Option.some.inj h ▸ .jal hop
  · rw [decode_of_jalr hop] at h
    split at h
    · rename_i hf3
      exact Option.some.inj h ▸ .jalr hop hf3
    · cases h
  · rw [decode_of_branch hop] at h
    obtain ⟨o, ho, rfl⟩ := Option.map_eq_some_iff.mp h
    exact .branch hop ho
  · rw [decode_of_load hop] at h
    obtain ⟨o, ho, rfl⟩ := Option.map_eq_some_iff.mp h
    exact .load hop ho
  · rw [decode_of_store hop] at h
    obtain ⟨o, ho, rfl⟩ := Option.map_eq_some_iff.mp h
    exact .store hop ho
  · rw [decode_of_opImm hop] at h
    obtain ⟨p, hp, rfl⟩ := Option.map_eq_some_iff.mp h
    exact .opImm hop hp
  · rw [decode_of_opImm32 hop] at h
    obtain ⟨p, hp, rfl⟩ := Option.map_eq_some_iff.mp h
    exact .opImm32 hop hp
  · rw [decode_of_op hop] at h
    obtain ⟨o, ho, rfl⟩ := Option.map_eq_some_iff.mp h
    exact .op hop ho
  · rw [decode_of_op32 hop] at h
    obtain ⟨o, ho, rfl⟩ := Option.map_eq_some_iff.mp h
    exact .op32 hop ho

end Decode

/-! ### Decoding what a format assembles -/

section Assembled

variable {rd rs1 rs2 : Reg}

@[simp] theorem decode_lui (imm : BitVec 20) :
    Instr.decode (uType imm rd Opcode.lui) = some (.lui rd imm) := by
  rw [decode_of_lui (opcode_uType ..), rd_uType, immU_uType]

theorem decode_jal {off : BitVec 21} (h : off.getLsbD 0 = false) :
    Instr.decode (jType off rd Opcode.jal) = some (.jal rd off) := by
  rw [decode_of_jal (opcode_jType ..), rd_jType, immJ_jType _ _ _ h]

@[simp] theorem decode_jalr (off : BitVec 12) :
    Instr.decode (iType off rs1 0 rd Opcode.jalr) = some (.jalr rd rs1 off) := by
  rw [decode_of_jalr (opcode_iType ..)]; simp

theorem decode_branch {o : BranchOp} {f3 : BitVec 3} {off : BitVec 13}
    (ho : BranchOp.ofFunct3 f3 = some o) (h : off.getLsbD 0 = false) :
    Instr.decode (bType off rs2 rs1 f3 Opcode.branch) = some (.branch o rs1 rs2 off) := by
  rw [decode_of_branch (opcode_bType ..), funct3_bType, rs1_bType, rs2_bType,
    immB_bType _ _ _ _ _ h, ho]
  rfl

theorem decode_load {o : LoadOp} {f3 : BitVec 3} (off : BitVec 12)
    (ho : LoadOp.ofFunct3 f3 = some o) :
    Instr.decode (iType off rs1 f3 rd Opcode.load) = some (.load o rd rs1 off) := by
  rw [decode_of_load (opcode_iType ..), funct3_iType, rd_iType, rs1_iType, immI_iType, ho]
  rfl

theorem decode_store {o : StoreOp} {f3 : BitVec 3} (off : BitVec 12)
    (ho : StoreOp.ofFunct3 f3 = some o) :
    Instr.decode (sType off rs2 rs1 f3 Opcode.store) = some (.store o rs1 rs2 off) := by
  rw [decode_of_store (opcode_sType ..), funct3_sType, rs1_sType, rs2_sType, immS_sType, ho]
  rfl

@[simp] theorem decode_addi (imm : BitVec 12) :
    Instr.decode (iType imm rs1 0 rd Opcode.opImm) =
      some (.opImm .add rd rs1 (imm.signExtend 64)) := by
  rw [decode_of_opImm (opcode_iType ..), decodeOpImm, funct3_iType]; simp

@[simp] theorem decode_add :
    Instr.decode (rType 0 rs2 rs1 0 rd Opcode.op) = some (.op .add rd rs1 rs2) := by
  rw [decode_of_op (opcode_rType ..), funct3_rType, funct7_rType]; simp [AluOp.ofOp]

@[simp] theorem decode_sub :
    Instr.decode (rType 0x20 rs2 rs1 0 rd Opcode.op) = some (.op .sub rd rs1 rs2) := by
  rw [decode_of_op (opcode_rType ..), funct3_rType, funct7_rType]; simp [AluOp.ofOp]

end Assembled

/-! ### What an instruction does -/

@[ext] structure Machine where
  pc : DWord
  regs : Regs
  mem : Mem

namespace Machine

def goto (s : Machine) (a : DWord) : Machine := { s with pc := a }

def setReg (s : Machine) (r : Reg) (v : DWord) : Machine := { s with regs := s.regs.set r v }

def setMem (s : Machine) (m : Mem) : Machine := { s with mem := m }

section

variable (s : Machine) (a b v w : DWord) (r : Reg) (m n : Mem)

@[simp] theorem pc_goto : (s.goto a).pc = a := rfl
@[simp] theorem regs_goto : (s.goto a).regs = s.regs := rfl
@[simp] theorem mem_goto : (s.goto a).mem = s.mem := rfl
@[simp] theorem pc_setReg : (s.setReg r v).pc = s.pc := rfl
@[simp] theorem regs_setReg : (s.setReg r v).regs = s.regs.set r v := rfl
@[simp] theorem mem_setReg : (s.setReg r v).mem = s.mem := rfl
@[simp] theorem pc_setMem : (s.setMem m).pc = s.pc := rfl
@[simp] theorem regs_setMem : (s.setMem m).regs = s.regs := rfl
@[simp] theorem mem_setMem : (s.setMem m).mem = m := rfl

@[simp] theorem goto_goto : (s.goto a).goto b = s.goto b := rfl
@[simp] theorem goto_self : s.goto s.pc = s := rfl
@[simp] theorem setReg_goto : (s.goto a).setReg r v = (s.setReg r v).goto a := rfl
@[simp] theorem setMem_goto : (s.goto a).setMem m = (s.setMem m).goto a := rfl
@[simp] theorem setMem_setMem : (s.setMem m).setMem n = s.setMem n := rfl
@[simp] theorem setMem_self : s.setMem s.mem = s := rfl
@[simp] theorem setMem_setReg : (s.setReg r v).setMem m = (s.setMem m).setReg r v := rfl

@[simp] theorem setReg_setReg : (s.setReg r v).setReg r w = s.setReg r w := by simp [setReg]
@[simp] theorem setReg_self : s.setReg r (s.regs r) = s := by simp [setReg]
@[simp] theorem setReg_zero : s.setReg 0#5 v = s := by simp [setReg]

theorem setReg_comm {r x : Reg} (h : r ≠ x) :
    (s.setReg r v).setReg x w = (s.setReg x w).setReg r v := by
  simp only [setReg, Regs.set_comm s.regs v w h]

end

end Machine

def upper (imm : BitVec 20) : DWord := (imm ++ 0#12).signExtend 64

variable (tr : Reg → DWord → DWord)

def effAddr (s : Machine) (rs1 : Reg) (off : BitVec 12) : DWord :=
  tr rs1 (s.regs rs1) + off.signExtend 64

def Instr.exec (s : Machine) : Instr → Machine
  | .lui rd imm => (s.setReg rd (upper imm)).goto (s.pc + 4)
  | .auipc rd imm => (s.setReg rd (s.pc + upper imm)).goto (s.pc + 4)
  | .jal rd off => (s.setReg rd (s.pc + 4)).goto (s.pc + off.signExtend 64)
  | .jalr rd rs1 off =>
      (s.setReg rd (s.pc + 4)).goto ((s.regs rs1 + off.signExtend 64) &&& ~~~1#64)
  | .branch o rs1 rs2 off =>
      s.goto (if o.holds (s.regs rs1) (s.regs rs2) then s.pc + off.signExtend 64 else s.pc + 4)
  | .load o rd rs1 off =>
      (s.setReg rd (o.extend (s.mem.read (effAddr tr s rs1 off) o.size))).goto (s.pc + 4)
  | .store o rs1 rs2 off =>
      (s.setMem (s.mem.write (effAddr tr s rs1 off) o.size (s.regs rs2))).goto (s.pc + 4)
  | .opImm o rd rs1 imm => (s.setReg rd (o.eval (s.regs rs1) imm)).goto (s.pc + 4)
  | .op o rd rs1 rs2 => (s.setReg rd (o.eval (s.regs rs1) (s.regs rs2))).goto (s.pc + 4)

end Rv64
