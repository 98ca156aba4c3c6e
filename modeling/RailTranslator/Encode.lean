import RailTranslator.Instructions

/-!
`encode.cpp`: putting a word together with shifts and ors.

The source has two overloads of most encoders, one that takes an `RvInst` and
one that takes the fields. They are separate bodies there and separate
definitions here; the second kind has `Fields` in its name. `encode_Btype`
is the one place where the two bodies differ: the first converts the
immediate to `uint32_t` before it shifts, the second shifts an `int`.
-/

namespace RailTranslator

open Rv64

def encodeRtype (inst : RvInst) : Word :=
  inst.opcode ||| inst.rd <<< 7 ||| inst.funct3 <<< 12 ||| inst.rs1 <<< 15 |||
    inst.rs2 <<< 20 ||| inst.funct7 <<< 25

def encodeRtypeFields (opcode rd funct3 rs1 rs2 funct7 : BitVec 32) : Word :=
  opcode ||| rd <<< 7 ||| funct3 <<< 12 ||| rs1 <<< 15 ||| rs2 <<< 20 ||| funct7 <<< 25

def encodeItype (inst : RvInst) : Word :=
  inst.opcode ||| inst.rd <<< 7 ||| inst.funct3 <<< 12 ||| inst.rs1 <<< 15 ||| inst.imm <<< 20

def encodeItypeFields (opcode rd funct3 rs1 imm : BitVec 32) : Word :=
  opcode ||| rd <<< 7 ||| funct3 <<< 12 ||| rs1 <<< 15 ||| imm <<< 20

def encodeStype (inst : RvInst) : Word :=
  let instruction := (inst.opcode &&& 0x7f) ||| (inst.funct3 &&& 0x7) <<< 12 |||
    (inst.rs1 &&& 0x1f) <<< 15 ||| (inst.rs2 &&& 0x1f) <<< 20
  let imm_11_0 := inst.imm &&& 0xfff
  let imm_0to4 := imm_11_0 &&& 0x1f
  let imm_5to11 := imm_11_0.sshiftRight 5 &&& 0x7f
  instruction ||| imm_0to4 <<< 7 ||| imm_5to11 <<< 25

def encodeStypeFields (opcode funct3 rs1 rs2 imm : BitVec 32) : Word :=
  let instruction := (opcode &&& 0x7f) ||| (funct3 &&& 0x7) <<< 12 |||
    (rs1 &&& 0x1f) <<< 15 ||| (rs2 &&& 0x1f) <<< 20
  let imm_11_0 := imm &&& 0xfff
  let imm_0to4 := imm_11_0 &&& 0x1f
  let imm_5to11 := imm_11_0.sshiftRight 5 &&& 0x7f
  instruction ||| imm_0to4 <<< 7 ||| imm_5to11 <<< 25

def encodeUtype (inst : RvInst) : Word :=
  inst.opcode ||| inst.rd <<< 7 ||| inst.imm <<< 12

def encodeBtype (inst : RvInst) : Word :=
  let imm : BitVec 32 := inst.imm
  (inst.opcode &&& 0x7F) ||| (imm >>> 12 &&& 0x1) <<< 31 ||| (imm >>> 11 &&& 0x1) <<< 7 |||
    (imm >>> 5 &&& 0x3F) <<< 25 ||| (imm >>> 1 &&& 0xF) <<< 8 |||
    (inst.funct3 &&& 0x7) <<< 12 ||| (inst.rs1 &&& 0x1F) <<< 15 ||| (inst.rs2 &&& 0x1F) <<< 20

def encodeBtypeFields (opcode rs1 rs2 funct3 imm : BitVec 32) : Word :=
  (opcode &&& 0x7F) ||| (imm.sshiftRight 12 &&& 0x1) <<< 31 |||
    (imm.sshiftRight 11 &&& 0x1) <<< 7 ||| (imm.sshiftRight 5 &&& 0x3F) <<< 25 |||
    (imm.sshiftRight 1 &&& 0xF) <<< 8 |||
    (funct3 &&& 0x7) <<< 12 ||| (rs1 &&& 0x1F) <<< 15 ||| (rs2 &&& 0x1F) <<< 20

def encodeJtype (inst : RvInst) : Word :=
  let imm_x1 := (inst.imm &&& 0x7fe).sshiftRight 1
  let imm_x2 := inst.imm.sshiftRight 11 &&& 0x1
  let imm_x3 := inst.imm.sshiftRight 12 &&& 0xff
  let imm_x4 := inst.imm.sshiftRight 20 &&& 0x1
  let enc_imm := imm_x3 ||| imm_x2 <<< 8 ||| imm_x1 <<< 9 ||| imm_x4 <<< 19
  inst.opcode ||| inst.rd <<< 7 ||| enc_imm <<< 12

def encodeJtypeFields (opcode rd imm : BitVec 32) : Word :=
  let imm_x1 := (imm &&& 0x7fe).sshiftRight 1
  let imm_x2 := imm.sshiftRight 11 &&& 0x1
  let imm_x3 := imm.sshiftRight 12 &&& 0xff
  let imm_x4 := imm.sshiftRight 20 &&& 0x1
  let enc_imm := imm_x3 ||| imm_x2 <<< 8 ||| imm_x1 <<< 9 ||| imm_x4 <<< 19
  opcode ||| rd <<< 7 ||| enc_imm <<< 12

/-- `encode_instruction`; an opcode it does not handle becomes `addi x0, x0, 0`. -/
def encodeInstruction (inst : RvInst) : Word :=
  let opcode := inst.opcode
  if opcode = Op.op ∨ opcode = Op.op32 ∨ opcode = Op.amo then encodeRtype inst
  else if opcode = Op.load ∨ opcode = Op.jalr ∨ opcode = Op.opimm ∨ opcode = Op.opimm32 then
    encodeItype inst
  else if opcode = Op.store then encodeStype inst
  else if opcode = Op.auipc ∨ opcode = Op.lui then encodeUtype inst
  else if opcode = Op.branch then encodeBtype inst
  else if opcode = Op.jal then encodeJtype inst
  else 0x00000013

end RailTranslator
