import RailTranslator.Rv64.Word

/-!
The translator's own view of an instruction: `instructions.h`,
`instruction_types.h` and `instruction_names.h`.

A C++ `int` is a `BitVec 32`, read as signed where the source compares or
shifts it as signed. A field that a function leaves unassigned has no value in
the source; the functions of `Decode` take the contents of the uninitialised
object as an argument, so every statement holds whatever those were.
-/

namespace RailTranslator

open Rv64

inductive InstType
  | rType | iType | sType | uType | bType | jType | systemType | memAccessType | amoType
  deriving DecidableEq, Repr

inductive InstName
  | add | sub | sll | slt | sltu | xor | srl | sra | or | and
  | mul | mulh | mulsu | mulu | div | divu | rem | remu
  | addw | subw | sllw | srlw | sraw
  | addi | slli | slti | sltiu | xori | srli | srai | ori | andi
  | lui | auipc
  | lb | lh | lw | lbu | lhu
  | sb | sh | sw
  | beq | bne | blt | bge | bltu | bgeu
  | jal | jalr
  | mulw | divw | divuw | remw | remuw
  | addiw | slliw | srliw | sraiw
  | lwu | ld | sd
  | fence | ecall | ebreak
  | lrw | scw | amoswapw | amoaddw | amoxorw | amoandw | amoorw
  | amominw | amomaxw | amominuw | amomaxuw
  | lrd | scd | amoswapd | amoaddd | amoxord | amoandd | amoord
  | amomind | amomaxd | amominud | amomaxud
  | undefined
  deriving DecidableEq, Repr

structure RvInst where
  opcode : BitVec 32
  rd : BitVec 32
  funct3 : BitVec 32
  rs1 : BitVec 32
  rs2 : BitVec 32
  funct7 : BitVec 32
  imm : BitVec 32
  address : BitVec 32
  type : InstType
  name : InstName
  deriving DecidableEq, Repr

/-! ### Opcodes -/

namespace Op

abbrev op : BitVec 32 := 0b0110011
abbrev op32 : BitVec 32 := 0b0111011
abbrev amo : BitVec 32 := 0b0101111
abbrev opimm : BitVec 32 := 0b0010011
abbrev opimm32 : BitVec 32 := 0b0011011
abbrev jalr : BitVec 32 := 0b1100111
abbrev load : BitVec 32 := 0b0000011
abbrev miscMem : BitVec 32 := 0b0001111
abbrev system : BitVec 32 := 0b1110011
abbrev store : BitVec 32 := 0b0100011
abbrev auipc : BitVec 32 := 0b0010111
abbrev lui : BitVec 32 := 0b0110111
abbrev branch : BitVec 32 := 0b1100011
abbrev jal : BitVec 32 := 0b1101111

end Op

/-- `nextInst & 0x7f`. -/
def opcodeOf (instruction : Word) : BitVec 32 := instruction &&& 0x7f

/-! ### Function codes of `RvFunct` the translator writes -/

namespace RvFunct

abbrev add : BitVec 32 := 0x0
abbrev sub : BitVec 32 := 0x0
abbrev subFunct7 : BitVec 32 := 0x20
abbrev lrFunct7 : BitVec 32 := 0x2
abbrev scFunct7 : BitVec 32 := 0x3
abbrev addi : BitVec 32 := 0x0
abbrev lw : BitVec 32 := 0x2
abbrev ld : BitVec 32 := 0x3
abbrev sw : BitVec 32 := 0x2
abbrev sd : BitVec 32 := 0x3
abbrev blt : BitVec 32 := 0x4

end RvFunct

/-! ### Registers the translator names -/

namespace regs

abbrev zero : BitVec 32 := 0
abbrev sp : BitVec 32 := 2
abbrev t5 : BitVec 32 := 30
abbrev t6 : BitVec 32 := 31

end regs

end RailTranslator
