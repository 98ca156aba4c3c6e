import RailTranslator.Rv64.Instr

/-!
Which format an opcode has, and what a word of that format says.

The table is the base opcode map of the unprivileged specification, for the
opcodes of RV64 with the extensions M and A. A word of a format is the picture
of its operands, and `operands` reads them back off the picture.
-/

namespace Rv64

inductive Layout
  | r | i | s | b | u | j
  deriving DecidableEq, Repr

def Layout.ofOpcode (opcode : BitVec 7) : Option Layout :=
  if opcode ∈ [Opcode.op, Opcode.op32, Opcode.amo] then some .r
  else if opcode ∈ [Opcode.load, Opcode.miscMem, Opcode.opImm, Opcode.opImm32, Opcode.jalr,
      Opcode.system] then some .i
  else if opcode = Opcode.store then some .s
  else if opcode = Opcode.branch then some .b
  else if opcode ∈ [Opcode.lui, Opcode.auipc] then some .u
  else if opcode = Opcode.jal then some .j
  else none

/-- What a word says besides its opcode. -/
inductive Operands
  | r (funct7 : BitVec 7) (rs2 rs1 : Reg) (funct3 : BitVec 3) (rd : Reg)
  | i (imm : BitVec 12) (rs1 : Reg) (funct3 : BitVec 3) (rd : Reg)
  | s (imm : BitVec 12) (rs2 rs1 : Reg) (funct3 : BitVec 3)
  | b (imm : BitVec 13) (rs2 rs1 : Reg) (funct3 : BitVec 3)
  | u (imm : BitVec 20) (rd : Reg)
  | j (imm : BitVec 21) (rd : Reg)

def Operands.word (opcode : BitVec 7) : Operands → Word
  | .r funct7 rs2 rs1 funct3 rd => rType funct7 rs2 rs1 funct3 rd opcode
  | .i imm rs1 funct3 rd => iType imm rs1 funct3 rd opcode
  | .s imm rs2 rs1 funct3 => sType imm rs2 rs1 funct3 opcode
  | .b imm rs2 rs1 funct3 => bType imm rs2 rs1 funct3 opcode
  | .u imm rd => uType imm rd opcode
  | .j imm rd => jType imm rd opcode

def Layout.operands (w : Word) : Layout → Operands
  | .r => .r w.funct7 w.rs2 w.rs1 w.funct3 w.rd
  | .i => .i w.immI w.rs1 w.funct3 w.rd
  | .s => .s w.immS w.rs2 w.rs1 w.funct3
  | .b => .b w.immB w.rs2 w.rs1 w.funct3
  | .u => .u w.immU w.rd
  | .j => .j w.immJ w.rd

/-- In every format a word is the picture of its operands. -/
theorem Layout.word_operands (l : Layout) (w : Word) : (l.operands w).word w.opcode = w := by
  cases l with
  | r => exact rType_fields w
  | i => exact iType_fields w
  | s => exact sType_fields w
  | b => exact bType_fields w
  | u => exact uType_fields w
  | j => exact jType_fields w

end Rv64
