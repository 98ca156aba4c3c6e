import RailTranslator.ElfReader
import RailTranslator.Decode
import RailTranslator.Encode

/-!
The state of the code cache, and the words the allocators emit
(`code_cache.h`, `railBasicBlock.h`, the data of `rail.h`, and the helpers of
`code_cache.cpp`), in the build without `STUBREGIONS`.

The cache is written front to back, `memory[memoryIndex++] = word`, so it is
the list of the words written so far and `memoryIndex` is its length. Every
emission site of the source is a list of words here, and an allocator appends
those lists.

`Host` holds what the process around the cache decides: where `mmap` put it,
where the linker put the handlers of `util.S`, the contents of uninitialised
objects. Its proof fields are what the code relies on without checking it: an
`insertLi` materialises a handler's address, handlers lie outside the cache
and are different functions, and the cache starts on a page boundary.
-/

namespace RailTranslator

open Rv64

/-! ### Blocks -/

inductive BasicBlockType
  | indirectBranch | directBranch | functionCall | functionReturn | syscall | segmented
  deriving DecidableEq, Repr

structure RailBasicBlock where
  firstAddr : DWord
  lastAddr : DWord
  startLocationInCache : DWord
  endLocationInCache : DWord
  numInstructions : BitVec 32
  takenBlock : Bool
  type : BasicBlockType
  startInst : Word
  terminalInst : Word
  basicBlockAddress : DWord
  deriving DecidableEq, Repr

/-- What `RailBasicBlocks[address]` creates for an absent key. -/
def RailBasicBlock.empty : RailBasicBlock where
  firstAddr := 0
  lastAddr := 0
  startLocationInCache := 0
  endLocationInCache := 0
  numInstructions := 0
  takenBlock := false
  type := .indirectBranch
  startInst := 0
  terminalInst := 0
  basicBlockAddress := 0

/-! ### Registered routines -/

/-- A registered callback: which function, and the addresses it is for. The
function itself is looked up in the host. -/
structure InstRoutine where
  func : ℕ
  lowerBound : BitVec 32
  upperBound : BitVec 32
  deriving DecidableEq, Repr

structure BBRoutine where
  func : ℕ
  lowerBound : BitVec 32
  upperBound : BitVec 32
  deriving DecidableEq, Repr

/-- The static members of `Rail` that the allocators and the dispatcher read. -/
structure Rail where
  instructionRoutinesPre : List InstRoutine
  instructionRoutinesPost : List InstRoutine
  instructionRoutinesTypedPre : InstType → List InstRoutine
  instructionRoutinesTypedPost : InstType → List InstRoutine
  basicBlockRoutinesPre : List BBRoutine
  basicBlockRoutinesPost : List BBRoutine
  instructionRoutinesStart : BitVec 32
  instructionRoutinesEnd : BitVec 32
  preInstrumentationRoutines : Bool
  postInstrumentationRoutines : Bool
  traceLinkingEnabled : Bool
  inlineBBRoutinePost : List Word
  inlineInstRoutinePost : List Word
  inlineInstRoutinesTypedPost : InstType → List Word
  exitRoutine : Option ℕ

structure Rail.NoCallbacks (r : Rail) : Prop where
  instPre : r.instructionRoutinesPre = []
  instPost : r.instructionRoutinesPost = []
  typedPre : ∀ t, r.instructionRoutinesTypedPre t = []
  typedPost : ∀ t, r.instructionRoutinesTypedPost t = []
  bbPre : r.basicBlockRoutinesPre = []
  bbPost : r.basicBlockRoutinesPost = []

/-- Neither a callback nor an inline routine is registered. -/
structure Rail.Uninstrumented (r : Rail) : Prop extends r.NoCallbacks where
  bbInline : r.inlineBBRoutinePost = []
  instInline : r.inlineInstRoutinePost = []
  typedInline : ∀ t, r.inlineInstRoutinesTypedPost t = []

def Rail.plain (traceLinkingEnabled : Bool) : Rail where
  instructionRoutinesPre := []
  instructionRoutinesPost := []
  instructionRoutinesTypedPre _ := []
  instructionRoutinesTypedPost _ := []
  basicBlockRoutinesPre := []
  basicBlockRoutinesPost := []
  instructionRoutinesStart := 0
  instructionRoutinesEnd := 0
  preInstrumentationRoutines := false
  postInstrumentationRoutines := false
  traceLinkingEnabled := traceLinkingEnabled
  inlineBBRoutinePost := []
  inlineInstRoutinePost := []
  inlineInstRoutinesTypedPost _ := []
  exitRoutine := none

theorem Rail.uninstrumented_plain (b : Bool) : (Rail.plain b).Uninstrumented where
  instPre := rfl
  instPost := rfl
  typedPre _ := rfl
  typedPost _ := rfl
  bbPre := rfl
  bbPost := rfl
  bbInline := rfl
  instInline := rfl
  typedInline _ := rfl

/-! ### The process around the cache -/

/-- What the three words of `insertLi` leave in a register: the low 32 bits
with bit 0 clear, sign extended. -/
def liValue (v : DWord) : DWord := ofLow (low v &&& ~~~1#32)

abbrev cacheSize : ℕ := 4 * 1024 * 1024

/-- `CodeCache::dataOffset`, as `setTarget` leaves it before anything runs. -/
def dataOffset : BitVec 32 := 0x09000000

structure Host where
  /-- `CodeCache::memory`, the address `mmap` returned. -/
  base : DWord
  contextSwitch : DWord
  contextSwitchTaken : DWord
  contextSwitchTraceExit : DWord
  contextSwitchTraceExitTaken : DWord
  contextSwitchInstrument : DWord
  initSwitch : DWord
  /-- The contents of an uninitialised `RvInst` and `RailBasicBlock`. -/
  junkInst : RvInst
  junkBlock : RailBasicBlock
  base_page : base.toNat % 4096 = 0
  handlers_li : ∀ a ∈ [contextSwitch, contextSwitchTaken, contextSwitchTraceExit,
    contextSwitchTraceExitTaken, contextSwitchInstrument, initSwitch], liValue a = a
  handlers_outside : ∀ a ∈ [contextSwitch, contextSwitchTaken, contextSwitchTraceExit,
    contextSwitchTraceExitTaken, contextSwitchInstrument, initSwitch],
    cacheSize ≤ (a - base).toNat
  handlers_nodup : [contextSwitch, contextSwitchTaken, contextSwitchTraceExit,
    contextSwitchTraceExitTaken, contextSwitchInstrument, initSwitch].Nodup

/-- A process in which `mmap` has granted the requested address. -/
def requestedHost : Host where
  base := 0x01000000
  contextSwitch := 0x00020000
  contextSwitchTaken := 0x00020200
  contextSwitchTraceExit := 0x00020400
  contextSwitchTraceExitTaken := 0x00020600
  contextSwitchInstrument := 0x00020800
  initSwitch := 0x00020a00
  junkInst :=
    { opcode := 0, rd := 0, funct3 := 0, rs1 := 0, rs2 := 0, funct7 := 0, imm := 0, address := 0
      type := .rType, name := .undefined }
  junkBlock := .empty
  base_page := by decide
  handlers_li := by simp [liValue, ofLow, low]
  handlers_outside := by simp [cacheSize]
  handlers_nodup := by simp

/-! ### The cache -/

structure CodeCache where
  memory : List Word
  railBasicBlocks : DWord → Option RailBasicBlock
  currentBB : BitVec 32
  exits : DWord → Option DWord

namespace CodeCache

def initial : CodeCache where
  memory := []
  railBasicBlocks _ := none
  currentBB := 0
  exits _ := none

def memoryIndex (c : CodeCache) : ℕ := c.memory.length

/-- `&memory[memoryIndex]` -/
def here (h : Host) (c : CodeCache) : DWord := wordAddr h.base c.memoryIndex

def emit (c : CodeCache) (ws : List Word) : CodeCache := { c with memory := c.memory ++ ws }

def setCurrentBB (c : CodeCache) (bbAddr : DWord) : CodeCache :=
  { c with currentBB := bbAddr.setWidth 32 }

/-- `RailBasicBlocks[address] = railBB` -/
def insertAt (c : CodeCache) (address : DWord) (railBB : RailBasicBlock) : CodeCache :=
  { c with railBasicBlocks := Function.update c.railBasicBlocks address (some railBB) }

def insertBB (c : CodeCache) (railBB : RailBasicBlock) : CodeCache :=
  c.insertAt railBB.firstAddr railBB

/-- `exits[pc] = &memory[memoryIndex-1]` -/
def recordExit (h : Host) (c : CodeCache) (pc : DWord) : CodeCache :=
  { c with exits := Function.update c.exits pc (some (c.here h - 4)) }

/-- `RailBasicBlocks[address]`, which inserts an empty block for an absent key. -/
def lookup (c : CodeCache) (address : DWord) : RailBasicBlock × CodeCache :=
  match c.railBasicBlocks address with
  | some railBB => (railBB, c)
  | none => (.empty, c.insertAt address .empty)

def code (h : Host) (c : CodeCache) : Code := image h.base c.memory

section

variable (h : Host) (c : CodeCache) (ws : List Word) (b : RailBasicBlock) (a : DWord)

@[simp] theorem memory_emit : (c.emit ws).memory = c.memory ++ ws := rfl
@[simp] theorem railBasicBlocks_emit : (c.emit ws).railBasicBlocks = c.railBasicBlocks := rfl
@[simp] theorem currentBB_emit : (c.emit ws).currentBB = c.currentBB := rfl
@[simp] theorem exits_emit : (c.emit ws).exits = c.exits := rfl

@[simp] theorem memory_setCurrentBB : (c.setCurrentBB a).memory = c.memory := rfl
@[simp] theorem railBasicBlocks_setCurrentBB :
    (c.setCurrentBB a).railBasicBlocks = c.railBasicBlocks := rfl
@[simp] theorem currentBB_setCurrentBB : (c.setCurrentBB a).currentBB = a.setWidth 32 := rfl
@[simp] theorem exits_setCurrentBB : (c.setCurrentBB a).exits = c.exits := rfl

@[simp] theorem memory_insertAt : (c.insertAt a b).memory = c.memory := rfl
@[simp] theorem railBasicBlocks_insertAt :
    (c.insertAt a b).railBasicBlocks = Function.update c.railBasicBlocks a (some b) := rfl
@[simp] theorem currentBB_insertAt : (c.insertAt a b).currentBB = c.currentBB := rfl
@[simp] theorem exits_insertAt : (c.insertAt a b).exits = c.exits := rfl

@[simp] theorem memory_insertBB : (c.insertBB b).memory = c.memory := rfl
@[simp] theorem railBasicBlocks_insertBB :
    (c.insertBB b).railBasicBlocks = Function.update c.railBasicBlocks b.firstAddr (some b) := rfl
@[simp] theorem currentBB_insertBB : (c.insertBB b).currentBB = c.currentBB := rfl
@[simp] theorem exits_insertBB : (c.insertBB b).exits = c.exits := rfl

@[simp] theorem memory_recordExit : (c.recordExit h a).memory = c.memory := rfl
@[simp] theorem railBasicBlocks_recordExit :
    (c.recordExit h a).railBasicBlocks = c.railBasicBlocks := rfl
@[simp] theorem currentBB_recordExit : (c.recordExit h a).currentBB = c.currentBB := rfl
@[simp] theorem exits_recordExit :
    (c.recordExit h a).exits = Function.update c.exits a (some (c.here h - 4)) := rfl

theorem lookup_of_some {c : CodeCache} {a : DWord} {b : RailBasicBlock}
    (hb : c.railBasicBlocks a = some b) : c.lookup a = (b, c) := by
  simp [lookup, hb]

end

end CodeCache

/-! ### Words copied from `util.S` -/

/-- `addi sp, sp, -16; sd t6, 0(sp)` -/
def inlineSave : List Word := [0xff010113, 0x01f13023]

/-- `addi sp, sp, -16; sd t5, 0(sp)` -/
def inlineSaveT5 : List Word := [0xff010113, 0x01e13023]

/-- `ld t6, 0(sp); addi sp, sp, 16` -/
def inlineLoad : List Word := [0x00013f83, 0x01010113]

/-- `ld t5, 0(sp); addi sp, sp, 16` -/
def inlineLoadT5 : List Word := [0x00013f03, 0x01010113]

/-- `ld t6, -16(sp)` -/
def restoreScratch : List Word := [0xff013f83]

/-- `jalr x0, 0(t6)` -/
def jalrInst : Word := 0x000f8067

/-- `sd t6, 8(sp)` -/
def saveExitAddress : Word := 0x01f13423

/-! ### Emitted sequences -/

def insertLi (value : DWord) (reg : BitVec 32) : List Word :=
  let addr_lsb : Word := (value &&& 0xfff).setWidth 32 >>> 1
  let addr_msb : Word := (value >>> 12 &&& 0xfffff).setWidth 32
  let lui_inst := Op.lui ||| reg <<< 7 ||| addr_msb <<< 12
  let addi_inst := Op.opimm ||| reg <<< 7 ||| RvFunct.addi <<< 12 ||| reg <<< 15 ||| addr_lsb <<< 20
  [lui_inst, addi_inst, addi_inst]

/-- Save the scratch register, load the address of a handler and jump to it. -/
def exitTo (handler : DWord) : List Word :=
  inlineSave ++ insertLi handler regs.t6 ++ [jalrInst]

/-- The exit of a trace also leaves the address of the instruction it stands
for on the stack, next to the saved register. -/
def traceExitTo (pc handler : DWord) : List Word :=
  insertLi pc regs.t6 ++ [saveExitAddress] ++ insertLi handler regs.t6 ++ [jalrInst]

def branchExits (h : Host) (nextInst : Word) : List Word :=
  inlineSave ++ [encodeBtype { decodeBtype h.junkInst nextInst with imm := 20 }] ++
    insertLi h.contextSwitch regs.t6 ++ [jalrInst] ++
    insertLi h.contextSwitchTaken regs.t6 ++ [jalrInst]

def scratchReg (rs1 : BitVec 32) : BitVec 32 := if rs1 = regs.t6 then regs.t5 else regs.t6

def saveScratch (scratch_reg : BitVec 32) : List Word :=
  if scratch_reg = regs.t6 then inlineSave else inlineSaveT5

def loadScratch (scratch_reg : BitVec 32) : List Word :=
  if scratch_reg = regs.t6 then inlineLoad else inlineLoadT5

/-- A load or store of `allocateBB` whose base is not `sp`: the relocated
address is computed in the scratch register. -/
def relocatedByScratch (h : Host) (nextInst : Word) : List Word :=
  let decodedInst := decodeInstruction h.junkInst nextInst
  let scratch_reg := scratchReg decodedInst.rs1
  saveScratch scratch_reg ++ insertLi (dataOffset.signExtend 64) scratch_reg ++
    [encodeBtypeFields Op.branch decodedInst.rs1 scratch_reg RvFunct.blt 12,
     nextInst,
     0x00c0006f,
     encodeRtypeFields Op.op scratch_reg RvFunct.add decodedInst.rs1 scratch_reg 0,
     encodeInstruction { decodedInst with rs1 := scratch_reg }] ++
    loadScratch scratch_reg

/-- A load or store of `allocateTraceBlock` and `allocateNextInst` whose base
is not `sp`: the base register is shifted in place, and shifted back unless
the instruction has overwritten it. -/
def relocatedInPlace (h : Host) (nextInst : Word) : List Word :=
  let decodedInst := decodeInstruction h.junkInst nextInst
  let rs1 := decodedInst.rs1
  let scratch_reg := scratchReg rs1
  let shiftBack :=
    if (decodedInst.type = .iType ∧ rs1 ≠ decodedInst.rd) ∨
        (decodedInst.type = .sType ∧ rs1 ≠ decodedInst.rs2) then
      encodeRtypeFields Op.op rs1 RvFunct.add rs1 scratch_reg RvFunct.subFunct7
    else 0x00000013
  saveScratch scratch_reg ++ insertLi (dataOffset.signExtend 64) scratch_reg ++
    [encodeBtypeFields Op.branch rs1 scratch_reg RvFunct.blt 12,
     nextInst,
     0x0100006f,
     encodeRtypeFields Op.op rs1 RvFunct.add rs1 scratch_reg 0,
     nextInst,
     shiftBack] ++
    loadScratch scratch_reg

/-- An atomic of `allocateBB`: a load-reserved or store-conditional is first
replaced by a word of its own, and a store-conditional reports success. -/
def amoWords (h : Host) (nextInst : Word) : List Word :=
  let decodedInst := decodeInstruction h.junkInst nextInst
  let kind := decodedInst.funct7.sshiftRight 2
  let newInst :=
    if kind = RvFunct.lrFunct7 then
      encodeItypeFields Op.op decodedInst.rd
        (if decodedInst.funct3 = 0x2 then RvFunct.lw else RvFunct.ld) decodedInst.rs1 0
    else if kind = RvFunct.scFunct7 then
      encodeStypeFields Op.op (if decodedInst.funct3 = 0x2 then RvFunct.sw else RvFunct.sd)
        decodedInst.rs1 decodedInst.rs2 0
    else nextInst
  let newDecodedInst := decodeInstruction h.junkInst newInst
  let access :=
    if decodedInst.rs1 ≠ regs.sp then
      let rs1 := newDecodedInst.rs1
      let scratch_reg := scratchReg rs1
      saveScratch scratch_reg ++ insertLi (dataOffset.signExtend 64) scratch_reg ++
        [encodeBtypeFields Op.branch rs1 scratch_reg RvFunct.blt 12,
         newInst,
         0x0100006f,
         encodeRtypeFields Op.op rs1 RvFunct.add rs1 scratch_reg 0,
         encodeInstruction newDecodedInst,
         encodeRtypeFields Op.op rs1 RvFunct.sub rs1 scratch_reg RvFunct.subFunct7] ++
        loadScratch scratch_reg
    else [newInst]
  access ++
    if kind = 0x3 then [encodeItypeFields Op.op decodedInst.rd RvFunct.addi regs.zero 0] else []

/-- `elfReader.getProgramCounter() + (decodedInst.imm << 12)`, an `int`. -/
def auipcValue (h : Host) (pc : BitVec 32) (nextInst : Word) : DWord :=
  (pc + (decodeUtype h.junkInst nextInst).imm <<< 12).signExtend 64

def auipcWords (h : Host) (pc : BitVec 32) (nextInst : Word) : List Word :=
  insertLi (auipcValue h pc nextInst) (decodeUtype h.junkInst nextInst).rd

/-! ### When an instruction is instrumented -/

/-- `shouldInstrumentOnInst`: false only below the start and above the end at
once. -/
def shouldInstrument (r : Rail) (pc : BitVec 32) : Bool :=
  !(pc.slt r.instructionRoutinesStart && r.instructionRoutinesEnd.slt pc)

/-- The instruction gets a block of its own that calls PRE routines. -/
def preInstrumented (r : Rail) (pc : BitVec 32) (nextInst : Word) : Bool :=
  let opcode := opcodeOf nextInst
  r.preInstrumentationRoutines &&
    (!(r.instructionRoutinesTypedPre (getType opcode)).isEmpty ||
      ((opcode == Op.load || opcode == Op.store) &&
        !(r.instructionRoutinesTypedPre .memAccessType).isEmpty)) &&
    shouldInstrument r pc

/-- Routines for all instructions, or POST routines of one of the given
types, end the block at an instruction. -/
def postInstrumented (r : Rail) (pc : BitVec 32) (types : List InstType) : Bool :=
  (!r.instructionRoutinesPre.isEmpty || !r.instructionRoutinesPost.isEmpty ||
      types.any fun t => !(r.instructionRoutinesTypedPost t).isEmpty) &&
    shouldInstrument r pc

namespace Rail.NoCallbacks

variable {r : Rail} (hr : r.NoCallbacks)

include hr

theorem preInstrumented (pc : BitVec 32) (w : Word) : preInstrumented r pc w = false := by
  simp [RailTranslator.preInstrumented, hr.typedPre]

theorem postInstrumented (pc : BitVec 32) (types : List InstType) :
    postInstrumented r pc types = false := by
  simp [RailTranslator.postInstrumented, hr.instPre, hr.instPost, hr.typedPost]

end Rail.NoCallbacks

end RailTranslator
