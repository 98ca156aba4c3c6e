import RailTranslator.Instructions

/-!
`decode.cpp`: taking a word apart with shifts and masks.

Each decoder starts from an uninitialised object, the argument `junk`, and
assigns the fields of its format. `decodeItype` never assigns `funct7` and
nevertheless looks at it to tell `SRAIW` from `SRLIW`.
-/

namespace RailTranslator

open Rv64

def getType (opcode : BitVec 32) : InstType :=
  if opcode = Op.op ∨ opcode = Op.op32 ∨ opcode = Op.amo then .rType
  else if opcode = Op.opimm ∨ opcode = Op.opimm32 ∨ opcode = Op.jalr ∨ opcode = Op.load ∨
      opcode = Op.miscMem ∨ opcode = Op.system then .iType
  else if opcode = Op.store then .sType
  else if opcode = Op.auipc ∨ opcode = Op.lui then .uType
  else if opcode = Op.branch then .bType
  else if opcode = Op.jal then .jType
  else .rType

/-! ### R type -/

def mulName (funct3 : BitVec 32) : InstName :=
  if funct3 = 0x00 then .mul else if funct3 = 0x01 then .mulh
  else if funct3 = 0x02 then .mulsu else if funct3 = 0x03 then .mulu
  else if funct3 = 0x04 then .div else if funct3 = 0x05 then .divu
  else if funct3 = 0x06 then .rem else if funct3 = 0x07 then .remu
  else .undefined

def mul32Name (funct3 : BitVec 32) : InstName :=
  if funct3 = 0x00 then .mulw else if funct3 = 0x04 then .divw
  else if funct3 = 0x05 then .divuw else if funct3 = 0x06 then .remw
  else if funct3 = 0x07 then .remuw
  else .undefined

def opName (funct7 funct3 : BitVec 32) : InstName :=
  if funct3 = 0x0 then (if funct7 = 0x20 then .sub else .add)
  else if funct3 = 0x4 then .xor else if funct3 = 0x6 then .or
  else if funct3 = 0x7 then .and else if funct3 = 0x1 then .sll
  else if funct3 = 0x5 then (if funct7 = 0x20 then .sra else .srl)
  else if funct3 = 0x2 then .slt else if funct3 = 0x3 then .sltu
  else .undefined

def op32Name (funct7 funct3 : BitVec 32) : InstName :=
  if funct3 = 0x00 then (if funct7 = 0x20 then .subw else .addw)
  else if funct3 = 0x01 then .sllw
  else if funct3 = 0x05 then (if funct7 = 0x20 then .sraw else .srlw)
  else .undefined

/-- The word atomics are told apart by `funct7 >> 2`, the doubleword ones by
the whole of `funct7`, against the same constants. -/
def amoName (funct7 funct3 : BitVec 32) : InstName :=
  let adjustedFunct7 := funct7.sshiftRight 2
  if funct3 = 0x2 then
    if adjustedFunct7 = 0x2 then .lrw else if adjustedFunct7 = 0x3 then .scw
    else if adjustedFunct7 = 0x1 then .amoswapw else if adjustedFunct7 = 0x0 then .amoaddw
    else if adjustedFunct7 = 0x4 then .amoxorw else if adjustedFunct7 = 0x12 then .amoandw
    else if adjustedFunct7 = 0x8 then .amoorw else if adjustedFunct7 = 0x16 then .amominw
    else if adjustedFunct7 = 0x20 then .amomaxw else if adjustedFunct7 = 0x24 then .amominuw
    else if adjustedFunct7 = 0x28 then .amomaxuw
    else .undefined
  else if funct3 = 0x3 then
    if funct7 = 0x2 then .lrd else if funct7 = 0x3 then .scd
    else if funct7 = 0x1 then .amoswapd else if funct7 = 0x0 then .amoaddd
    else if funct7 = 0x4 then .amoxord else if funct7 = 0x12 then .amoandd
    else if funct7 = 0x8 then .amoord else if funct7 = 0x16 then .amomind
    else if funct7 = 0x20 then .amomaxd else if funct7 = 0x24 then .amominud
    else if funct7 = 0x28 then .amomaxud
    else .undefined
  else .undefined

def rtypeName (junk : InstName) (opcode funct7 funct3 : BitVec 32) : InstName :=
  if opcode = Op.op ∧ funct7 = 0x01 then mulName funct3
  else if opcode = Op.op32 ∧ funct7 = 0x01 then mul32Name funct3
  else if opcode = Op.op then opName funct7 funct3
  else if opcode = Op.op32 then op32Name funct7 funct3
  else if opcode = Op.amo then amoName funct7 funct3
  else junk

def decodeRtype (junk : RvInst) (instruction : Word) : RvInst :=
  let opcode := instruction &&& 0x7f
  let funct3 := instruction >>> 12 &&& 0x7
  let funct7 := instruction >>> 25
  { junk with
    type := .rType
    opcode := opcode
    rd := instruction >>> 7 &&& 0x1f
    funct3 := funct3
    rs1 := instruction >>> 15 &&& 0x1f
    rs2 := instruction >>> 20 &&& 0x1f
    funct7 := funct7
    name := rtypeName junk.name opcode funct7 funct3 }

/-! ### I type -/

def loadName (funct3 : BitVec 32) : InstName :=
  if funct3 = 0x0 then .lb else if funct3 = 0x1 then .lh else if funct3 = 0x2 then .lw
  else if funct3 = 0x4 then .lbu else if funct3 = 0x5 then .lhu else if funct3 = 0x6 then .lwu
  else if funct3 = 0x3 then .ld
  else .undefined

def opimmName (funct3 imm : BitVec 32) : InstName :=
  if funct3 = 0x0 then .addi else if funct3 = 0x1 then .slli else if funct3 = 0x2 then .slti
  else if funct3 = 0x3 then .sltiu else if funct3 = 0x4 then .xori
  else if funct3 = 0x5 then (if imm.sshiftRight 5 &&& 0x3f = 0x20 then .srai else .srli)
  else if funct3 = 0x6 then .ori else if funct3 = 0x7 then .andi
  else .undefined

def opimm32Name (funct3 funct7 : BitVec 32) : InstName :=
  if funct3 = 0x0 then .addiw else if funct3 = 0x1 then .slliw
  else if funct3 = 0x5 then (if funct7 = 0x20 then .sraiw else .srliw)
  else .undefined

def systemName (imm : BitVec 32) : InstName :=
  if imm = 0x0 then .ecall else if imm = 0x1 then .ebreak else .undefined

def itypeName (junk : InstName) (opcode funct3 funct7 imm : BitVec 32) : InstName :=
  if opcode = Op.load then loadName funct3
  else if opcode = Op.jalr then .jalr
  else if opcode = Op.opimm then opimmName funct3 imm
  else if opcode = Op.opimm32 then opimm32Name funct3 funct7
  else if opcode = Op.system then systemName imm
  else if opcode = Op.miscMem then .fence
  else junk

/-- Twelve bits sign extended with an or-ed mask. -/
def signExtend12 (imm_11_0 : BitVec 32) : BitVec 32 :=
  if imm_11_0 &&& 0x800 ≠ 0 then imm_11_0 ||| 0xFFFFF000 else imm_11_0

def decodeItype (junk : RvInst) (instruction : Word) : RvInst :=
  let opcode := instruction &&& 0x7f
  let funct3 := instruction >>> 12 &&& 0x7
  let imm := signExtend12 (instruction >>> 20 &&& 0xfff)
  { junk with
    opcode := opcode
    rd := instruction >>> 7 &&& 0x1f
    funct3 := funct3
    rs1 := instruction >>> 15 &&& 0x1f
    imm := imm
    type := .iType
    name := itypeName junk.name opcode funct3 junk.funct7 imm }

/-! ### The other types -/

def decodeUtype (junk : RvInst) (instruction : Word) : RvInst :=
  let opcode := instruction &&& 0x7f
  { junk with
    opcode := opcode
    rd := instruction >>> 7 &&& 0x1f
    imm := instruction >>> 12
    type := .uType
    name := if opcode = Op.lui then .lui else if opcode = Op.auipc then .auipc else junk.name }

def storeName (funct3 : BitVec 32) : InstName :=
  if funct3 = 0x0 then .sb else if funct3 = 0x1 then .sh else if funct3 = 0x2 then .sw
  else if funct3 = 0x3 then .sd
  else .undefined

def decodeStype (junk : RvInst) (instruction : Word) : RvInst :=
  let imm_0to4 := instruction >>> 7 &&& 0x1f
  let funct3 := instruction >>> 12 &&& 0x7
  let imm_5to11 := instruction >>> 25
  let imm_11_0 := (imm_5to11 <<< 5 ||| imm_0to4) &&& 0xfff
  { junk with
    opcode := instruction &&& 0x7f
    funct3 := funct3
    rs1 := instruction >>> 15 &&& 0x1f
    rs2 := instruction >>> 20 &&& 0x1f
    imm := signExtend12 imm_11_0
    type := .sType
    name := storeName funct3 }

def branchName (funct3 : BitVec 32) : InstName :=
  if funct3 = 0x0 then .beq else if funct3 = 0x1 then .bne else if funct3 = 0x4 then .blt
  else if funct3 = 0x5 then .bge else if funct3 = 0x6 then .bltu else if funct3 = 0x7 then .bgeu
  else .undefined

def decodeBtype (junk : RvInst) (instruction : Word) : RvInst :=
  let imm_11 := instruction >>> 7 &&& 0x1
  let imm_1to4 := instruction >>> 8 &&& 0xf
  let funct3 := instruction >>> 12 &&& 0x7
  let imm_5to10 := instruction >>> 25 &&& 0x3f
  let imm_12 := instruction >>> 31
  let imm := imm_12 <<< 12 ||| imm_11 <<< 11 ||| imm_5to10 <<< 5 ||| imm_1to4 <<< 1
  { junk with
    opcode := instruction &&& 0x7f
    funct3 := funct3
    rs1 := instruction >>> 15 &&& 0x1f
    rs2 := instruction >>> 20 &&& 0x1f
    imm := if imm_12 ≠ 0 then imm ||| 0xFFFFF000 else imm
    type := .bType
    name := branchName funct3 }

def decodeJtype (junk : RvInst) (instruction : Word) : RvInst :=
  let imm_12to19 := instruction >>> 12 &&& 0xff
  let imm_11 := instruction >>> 20 &&& 0x1
  let imm_1to10 := instruction >>> 21 &&& 0x3ff
  let imm_20 := instruction >>> 31 &&& 0x1
  let imm := imm_20 <<< 20 ||| imm_12to19 <<< 12 ||| imm_11 <<< 11 ||| imm_1to10 <<< 1
  { junk with
    opcode := instruction &&& 0x7f
    rd := instruction >>> 7 &&& 0x1f
    imm := if imm_20 ≠ 0 then imm ||| 0xFFF00000 else imm
    type := .jType
    name := .jal }

/-- `decode_instruction`, without the debugging output. -/
def decodeInstruction (junk : RvInst) (instruction : Word) : RvInst :=
  let opcode := opcodeOf instruction
  if opcode = Op.op ∨ opcode = Op.op32 ∨ opcode = Op.amo then decodeRtype junk instruction
  else if opcode = Op.opimm ∨ opcode = Op.opimm32 ∨ opcode = Op.jalr ∨ opcode = Op.load ∨
      opcode = Op.miscMem ∨ opcode = Op.system then decodeItype junk instruction
  else if opcode = Op.store then decodeStype junk instruction
  else if opcode = Op.auipc ∨ opcode = Op.lui then decodeUtype junk instruction
  else if opcode = Op.branch then decodeBtype junk instruction
  else if opcode = Op.jal then decodeJtype junk instruction
  else
    { junk with
      name := .undefined, type := .rType, funct3 := 0, funct7 := 0, imm := 0
      rd := 0, rs1 := 0, rs2 := 0, opcode := 0 }

end RailTranslator
