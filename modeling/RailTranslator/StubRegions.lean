import RailTranslator.AllocateBB

/-!
`code_cache.cpp` in the build with `STUBREGIONS`: `insertStubRegion`,
`allocateRoot`, `allocateBB` and `allocateNextInst`.

The exits of blocks go back to the stub region that was inserted last, with a
branch or a jump. How far back it lies is counted by hand at the emission
sites, in `stubDistanceTracker`, and a region is inserted only when a block
has ended and the count has reached `MAX_STUB_DISTANCE`. Every emission below
has the number the source counts for it, which need not be its length.
-/

namespace RailTranslator

open Rv64

/-- A branch that has been emitted towards a region: where it stands, and the
displacement it was to have. -/
structure RegionBranch where
  index : ℕ
  displacement : DWord
  deriving DecidableEq, Repr

/-- The members of `CodeCache`, and the branches emitted towards regions. -/
structure RegionCache where
  cache : CodeCache
  nearestStubRegion : DWord
  stubDistanceTracker : BitVec 32
  numStubRegions : BitVec 32
  branches : List RegionBranch

namespace RegionCache

def initial : RegionCache where
  cache := .initial
  nearestStubRegion := 0
  stubDistanceTracker := 0
  numStubRegions := 0
  branches := []

variable (h : Host) (c : RegionCache)

/-- `stubDistanceTracker += counted` -/
def track (counted : ℕ) : RegionCache :=
  { c with stubDistanceTracker := c.stubDistanceTracker + BitVec.ofNat 32 counted }

/-- Emit words for which the source counts `counted`. -/
def emit (words : List Word) (counted : ℕ) : RegionCache :=
  { c.track counted with cache := c.cache.emit words }

def insertBB (railBB : RailBasicBlock) : RegionCache :=
  { c with cache := c.cache.insertBB railBB }

/-- `nearestStubRegion - (long int)(&memory[memoryIndex])` -/
def toRegion : DWord := c.nearestStubRegion - c.cache.here h

def emitBranch (nextInst : Word) : RegionCache :=
  let displacement := c.toRegion h + 24
  { c.emit [encodeBtype { decodeBtype h.junkInst nextInst with
      imm := displacement.setWidth 32 }] 0 with
    branches := c.branches ++ [⟨c.cache.memoryIndex, displacement⟩] }

def emitJump (offset : DWord) : RegionCache :=
  c.emit [encodeJtypeFields Op.jal regs.zero ((c.toRegion h + offset).setWidth 32)] 1

def branchExits (nextInst : Word) : RegionCache :=
  ((c.emitBranch h nextInst).emitJump h 0).track 1

def regionWords (h : Host) : List Word := exitTo h.contextSwitch ++ exitTo h.contextSwitchTaken

abbrev maxStubDistance : BitVec 32 := 900

def insertStubRegion (override : Bool) : RegionCache :=
  if (maxStubDistance - c.stubDistanceTracker).sle 0 || override then
    { c with
      cache := c.cache.emit (regionWords h)
      nearestStubRegion := c.cache.here h
      stubDistanceTracker := 6
      numStubRegions := c.numStubRegions + 1 }
  else c

def allocateRoot : RegionCache :=
  ((c.emit (insertLi h.initSwitch regs.t6) 3).emit [jalrInst] 0).insertStubRegion h true

/-- `allocateNextInst`, and the record it completes. -/
def allocateNextInst (elfReader : ElfReader) (railBB : RailBasicBlock) :
    RegionCache × RailBasicBlock :=
  let nextInst := elfReader.getNextInstruction
  let opcode := opcodeOf nextInst
  let done (type : BasicBlockType) (c : RegionCache) : RegionCache × RailBasicBlock :=
    (c, { railBB with type := type, lastAddr := elfReader.pc, terminalInst := nextInst })
  let other := done .segmented ((c.emit [nextInst] 0).emitJump h 24)
  if opcode = Op.branch then
    done .directBranch (c.branchExits h nextInst)
  else if opcode = Op.jal then
    done .directBranch (c.emitJump h 24)
  else if opcode = Op.jalr then
    done .indirectBranch (c.emitJump h 24)
  else if opcode = Op.auipc then
    done .segmented
      ((c.emit (auipcWords h elfReader.programCounter nextInst) 3).emitJump h 24)
  else if opcode = Op.store ∨ opcode = Op.load then
    if (decodeInstruction h.junkInst nextInst).rs1 ≠ regs.sp then
      done .segmented ((c.emit (relocatedInPlace h nextInst) 13).emitJump h 24)
    else other
  else if opcode = Op.system then
    done .syscall ((c.emitJump h 0).emit [nextInst] 0)
  else other

end RegionCache

/-! ### `allocateBB` -/

structure RegionState where
  elfReader : ElfReader
  region : RegionCache
  railBB : RailBasicBlock
  allocatedPrev : ℕ

namespace RegionState

def pc (st : RegionState) : BitVec 32 := st.elfReader.programCounter

def nextInst (st : RegionState) : Word := st.elfReader.getNextInstruction

def countInst (st : RegionState) : RegionState :=
  { st with railBB := { st.railBB with numInstructions := st.railBB.numInstructions + 1 } }

def record (h : Host) (st : RegionState) (type : BasicBlockType) (lastAddr : BitVec 32)
    (terminalInst : Word) : RegionState :=
  { st with railBB := { st.railBB with
      type := type
      lastAddr := lastAddr.signExtend 64
      terminalInst := terminalInst
      endLocationInCache := st.region.cache.here h } }

def insertBB (st : RegionState) : RegionState :=
  { st with region := st.region.insertBB st.railBB }

def map (st : RegionState) (f : RegionCache → RegionCache) : RegionState :=
  { st with region := f st.region }

/-- An exit towards the region; a new region is part of the block. -/
def exit (h : Host) (st : RegionState) (type : BasicBlockType) (f : RegionCache → RegionCache) :
    RegionState :=
  ((st.map fun c => (f c).insertStubRegion h false).record h type st.pc st.nextInst).insertBB

/-- The exit in front of a system instruction, which follows the block. -/
def systemExit (h : Host) (st : RegionState) : RegionState :=
  let nextInst := st.nextInst
  let st := (st.map fun c => (c.emitJump h 0).insertStubRegion h false).record h .syscall st.pc
    nextInst
  let st := (st.map (·.emit [nextInst] 0)).insertBB
  { st with elfReader := st.elfReader.incProgramCounter }

def segment (h : Host) (st : RegionState) (words : List Word) (counted : ℕ) : RegionState :=
  ((st.map fun c => (c.emit words counted).emit (exitTo h.contextSwitchTaken) 6).record h
    .segmented st.pc st.nextInst).insertBB.map (·.insertStubRegion h false)

def advance (st : RegionState) (words : List Word) (counted : ℕ) : RegionState :=
  { st with
    elfReader := st.elfReader.incProgramCounter
    region := st.region.emit words counted
    allocatedPrev := st.allocatedPrev + 1 }

end RegionState

namespace Regions

def allocatePreInst (h : Host) (st : RegionState) : RegionState :=
  let preInstBB := { h.junkBlock with
    firstAddr := st.elfReader.pc
    startInst := st.nextInst
    terminalInst := st.nextInst
    basicBlockAddress := st.railBB.basicBlockAddress
    startLocationInCache := st.region.cache.here h }
  let region := st.region.emit (exitTo h.contextSwitchInstrument) 6
  let (region, preInstBB) := region.allocateNextInst h st.elfReader preInstBB
  let preInstBB := { preInstBB with endLocationInCache := region.cache.here h }
  { st with region := (region.insertBB preInstBB).insertStubRegion h false }

def translateInst (h : Host) (r : Rail) (st : RegionState) : Turn RegionState :=
  let nextInst := st.nextInst
  let opcode := opcodeOf nextInst
  let pc := st.pc
  if opcode = Op.branch then
    .return (st.exit h .directBranch (·.branchExits h nextInst))
  else if opcode = Op.jal then
    .return (st.exit h .directBranch (·.emitJump h 24))
  else if opcode = Op.jalr then
    .return (st.exit h .indirectBranch (·.emitJump h 24))
  else if opcode = Op.auipc then
    let words := auipcWords h pc nextInst
    if postInstrumented r pc [.uType] then .return (st.segment h words 3)
    else .next (st.advance words 3)
  else if opcode = Op.store ∨ opcode = Op.load then
    -- an access through `sp` is not counted
    let (words, counted) :=
      if (decodeInstruction h.junkInst nextInst).rs1 ≠ regs.sp then
        (relocatedByScratch h nextInst, 13)
      else ([nextInst], 0)
    if postInstrumented r pc [.memAccessType, .iType, .sType] then
      .return (st.segment h words counted)
    else .next (st.advance words counted)
  else if opcode = Op.system then
    .return (st.systemExit h)
  else if opcode = Op.amo then
    .next (st.advance (amoWords h nextInst)
      (if (decodeInstruction h.junkInst nextInst).rs1 ≠ regs.sp then 13 else 0))
  else if postInstrumented r pc [getType opcode] then
    -- the word and the last one of the exit are counted behind it
    .return (st.segment h [nextInst] 1)
  else .next (st.advance [nextInst] 1)

def cutBlock (h : Host) (st : RegionState) : RegionState :=
  if st.allocatedPrev ≠ 0 then
    ((st.map (·.emit (exitTo h.contextSwitch) 6)).record h .segmented (st.pc - 4)
      (st.elfReader.fetch (st.pc - 4))).insertBB
  else st

def allocateBBTurn (h : Host) (r : Rail) (st : RegionState) : Turn RegionState :=
  let st := st.countInst
  if preInstrumented r st.pc st.nextInst then
    let st := cutBlock h st
    if (st.region.cache.railBasicBlocks st.elfReader.pc).isSome then .return st
    else .return (allocatePreInst h st)
  else translateInst h r st

def allocateBBLoop (h : Host) (r : Rail) : ℕ → RegionState → RegionState
  | 0, st => st
  | fuel + 1, st =>
      if st.nextInst = 0 then st
      else
        match allocateBBTurn h r st with
        | .next st' => allocateBBLoop h r fuel st'
        | .return st' => st'

def allocateBBStart (h : Host) (elfReader : ElfReader) (region : RegionCache)
    (binaryAddress : DWord) : RegionState :=
  let elfReader := elfReader.setProgramCounter (binaryAddress.setWidth 32)
  let railBB := { h.junkBlock with
    firstAddr := elfReader.pc
    basicBlockAddress := elfReader.pc
    startInst := elfReader.getNextInstruction
    numInstructions := 0
    startLocationInCache := region.cache.here h }
  { elfReader := elfReader
    region := { region with cache := region.cache.setCurrentBB railBB.firstAddr }.emit
      restoreScratch 1
    railBB := railBB
    allocatedPrev := 0 }

def allocateBB (h : Host) (r : Rail) (elfReader : ElfReader) (region : RegionCache)
    (binaryAddress : DWord) : ElfReader × RegionCache :=
  let st := allocateBBLoop h r loopFuel (allocateBBStart h elfReader region binaryAddress)
  (st.elfReader, st.region)

end Regions

end RailTranslator
