import RailTranslator.AllocateBB

/-!
`CodeCache::allocateTraceBlock` and `CodeCache::allocateTrace`.

A trace is a sequence of guest blocks joined by direct jumps: `allocateTrace`
runs `allocateTraceBlock` until it answers 0 or the count is used up, and a
jump inside the trace answers its target. All blocks share one record. The
branch that would allocate pre-instrumented blocks is `if(0)` in the source
and absent here.
-/

namespace RailTranslator

open Rv64

/-- The variables of the loop of `allocateTraceBlock`. -/
structure TraceState where
  elfReader : ElfReader
  cache : CodeCache
  railBB : RailBasicBlock

namespace TraceState

def pc (st : TraceState) : BitVec 32 := st.elfReader.programCounter

def nextInst (st : TraceState) : Word := st.elfReader.getNextInstruction

/-- `railBB.numInstructions++` -/
def countInst (st : TraceState) : TraceState :=
  { st with railBB := { st.railBB with numInstructions := st.railBB.numInstructions + 1 } }

def emit (st : TraceState) (words : List Word) : TraceState :=
  { st with cache := st.cache.emit words }

def setType (st : TraceState) (type : BasicBlockType) : TraceState :=
  { st with railBB := { st.railBB with type := type } }

/-- `exits[pc] = &memory[memoryIndex-1]` -/
def recordExit (h : Host) (st : TraceState) : TraceState :=
  { st with cache := st.cache.recordExit h st.elfReader.pc }

/-- `railBB.endLocationInCache = &memory[memoryIndex]` -/
def markEnd (h : Host) (st : TraceState) : TraceState :=
  { st with railBB := { st.railBB with endLocationInCache := st.cache.here h } }

def insertBB (st : TraceState) : TraceState := { st with cache := st.cache.insertBB st.railBB }

def advance (st : TraceState) (words : List Word) : TraceState :=
  { st with elfReader := st.elfReader.incProgramCounter, cache := st.cache.emit words }

@[simp] theorem pc_countInst (st : TraceState) : st.countInst.pc = st.pc := rfl

@[simp] theorem nextInst_countInst (st : TraceState) : st.countInst.nextInst = st.nextInst := rfl

def segment (h : Host) (st : TraceState) (words : List Word) : TraceState :=
  let st := { st with railBB := { st.railBB with
    type := .segmented, lastAddr := st.elfReader.pc, terminalInst := st.nextInst } }
  ((st.emit (words ++ exitTo h.contextSwitchTaken)).markEnd h).insertBB

end TraceState

def inlineInst (r : Rail) (types : List InstType) : List Word :=
  r.inlineInstRoutinePost ++ types.flatMap r.inlineInstRoutinesTypedPost

theorem Rail.Uninstrumented.inlineInst {r : Rail} (hr : r.Uninstrumented)
    (types : List InstType) : inlineInst r types = [] := by
  simp [RailTranslator.inlineInst, hr.instInline, hr.typedInline]

/-- What a turn of the loop of `allocateTraceBlock` does next: the second
component of a return is the address at which the trace goes on. -/
inductive TraceTurn
  | next (st : TraceState)
  | return (st : TraceState) (nextAddr : BitVec 32)

def branchStub (h : Host) (pc : DWord) (nextInst : Word) : List Word :=
  encodeBtype { decodeBtype h.junkInst nextInst with imm := 36 } ::
    (traceExitTo pc h.contextSwitchTraceExit ++ traceExitTo pc h.contextSwitchTraceExitTaken)

def traceTurn (h : Host) (r : Rail) (count : ℕ) (st : TraceState) : TraceTurn :=
  let st := st.countInst
  let nextInst := st.nextInst
  let opcode := opcodeOf nextInst
  let pc := st.pc
  if opcode = Op.branch then
    let st := (st.setType .directBranch).emit
      (r.inlineBBRoutinePost ++ inlineInst r [.bType] ++ inlineSave)
    -- the exit is recorded behind the branch word, so it is the branch's address
    let stub := branchStub h st.elfReader.pc nextInst
    .return (((st.emit (stub.take 1)).recordExit h).emit (stub.drop 1)) 0
  else if opcode = Op.jal then
    let decodedInst := decodeJtype h.junkInst nextInst
    let st := (st.setType .directBranch).emit (r.inlineBBRoutinePost ++ inlineInst r [.jType])
    if 0 < count then
      let st :=
        if decodedInst.rd ≠ regs.zero then
          st.emit (insertLi ((pc + 4).signExtend 64) decodedInst.rd)
        else st
      .return st (pc + decodedInst.imm)
    else
      -- nothing of the stub has been written, so the word before it is recorded
      .return ((st.recordExit h).emit
        (inlineSave ++ traceExitTo st.elfReader.pc h.contextSwitchTraceExitTaken)) 0
  else if opcode = Op.jalr then
    let st := (st.setType .indirectBranch).emit (r.inlineBBRoutinePost ++ inlineInst r [.iType])
    .return (((st.recordExit h).emit
      (inlineSave ++ traceExitTo st.elfReader.pc h.contextSwitchTraceExitTaken)).markEnd h) 0
  else if opcode = Op.auipc then
    let words := auipcWords h pc nextInst
    if postInstrumented r pc [.uType] then
      .return ((st.segment h words).emit (inlineInst r [.uType])) 0
    else .next (st.advance words)
  else if opcode = Op.store ∨ opcode = Op.load then
    let words :=
      if (decodeInstruction h.junkInst nextInst).rs1 ≠ regs.sp then relocatedInPlace h nextInst
      else [nextInst]
    if postInstrumented r pc [.memAccessType] then .return (st.segment h words) 0
    else .next (st.advance (words ++ inlineInst r [.memAccessType, getType opcode]))
  else if opcode = Op.system then
    let st := (st.setType .syscall).emit
      (r.inlineBBRoutinePost ++ inlineInst r [.systemType, .iType])
    let st := ((st.recordExit h).emit
      (inlineSave ++ traceExitTo st.elfReader.pc h.contextSwitchTraceExit)).markEnd h
    .return (st.emit [nextInst]).insertBB 0
  else if postInstrumented r pc [getType opcode] then .return (st.segment h [nextInst]) 0
  else .next (st.advance ([nextInst] ++ inlineInst r [getType opcode]))

def traceLoop (h : Host) (r : Rail) (count : ℕ) : ℕ → TraceState → TraceState × BitVec 32
  | 0, st => (st, 0)
  | fuel + 1, st =>
      if st.nextInst = 0 then (st, 0)
      else
        match traceTurn h r count st with
        | .next st' => traceLoop h r count fuel st'
        | .return st' nextAddr => (st', nextAddr)

def allocateTraceBlock (h : Host) (r : Rail) (st : TraceState) (binaryAddress : BitVec 32)
    (count : ℕ) : TraceState × BitVec 32 :=
  traceLoop h r count loopFuel
    { st with elfReader := st.elfReader.setProgramCounter binaryAddress }

/-- `for(int i=count; i>0; i--)` -/
def traceBlocks (h : Host) (r : Rail) : ℕ → TraceState → BitVec 32 → TraceState
  | 0, st, _ => st
  | i + 1, st, binaryAddress =>
      let (st, nextAddr) := allocateTraceBlock h r st binaryAddress i
      if nextAddr = 0 then st else traceBlocks h r i st nextAddr

/-- The state in which `allocateTrace` starts its loop. The first instruction
of the record is read before the program counter is set. -/
def allocateTraceStart (h : Host) (elfReader : ElfReader) (cache : CodeCache)
    (binaryAddress : DWord) : TraceState :=
  let nextInst := elfReader.getNextInstruction
  let elfReader := elfReader.setProgramCounter (binaryAddress.setWidth 32)
  let railBB := { h.junkBlock with
    firstAddr := elfReader.pc
    basicBlockAddress := elfReader.pc
    startInst := nextInst
    numInstructions := 0
    startLocationInCache := cache.here h }
  { elfReader := elfReader
    cache := (cache.setCurrentBB railBB.firstAddr).emit restoreScratch
    railBB := railBB }

def allocateTraceEnd (h : Host) (st : TraceState) : TraceState :=
  { st with
    railBB := { st.railBB with
      endLocationInCache := st.cache.here h
      lastAddr := st.elfReader.pc
      terminalInst := st.nextInst } }.insertBB

def allocateTrace (h : Host) (r : Rail) (elfReader : ElfReader) (cache : CodeCache)
    (binaryAddress : DWord) (count : ℕ) : ElfReader × CodeCache :=
  let st := allocateTraceStart h elfReader cache binaryAddress
  let st := allocateTraceEnd h (traceBlocks h r count st (binaryAddress.setWidth 32))
  (st.elfReader, st.cache)

end RailTranslator
