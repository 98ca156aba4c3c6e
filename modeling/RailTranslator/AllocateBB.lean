import RailTranslator.CodeCache

/-!
`CodeCache::allocateBB` and `CodeCache::allocateNextInst`.

The loop of `allocateBB` is `allocateBBLoop` on the variables the loop
carries, `BBState`; one turn of it is `allocateBBTurn`, which says whether the
source goes on with `continue` or returns. A turn that goes on has advanced
the program counter by four, so after `2 ^ 30` turns the loop is where it was
and would go on forever; that is the fuel `allocateBB` supplies.
-/

namespace RailTranslator

open Rv64

/-- What a turn of a translation loop does next. -/
inductive Turn (α : Type)
  | next (s : α)
  | return (s : α)

/-- The variables of the loop of `allocateBB`. -/
structure BBState where
  elfReader : ElfReader
  cache : CodeCache
  railBB : RailBasicBlock
  allocatedPrev : ℕ

namespace BBState

def pc (st : BBState) : BitVec 32 := st.elfReader.programCounter

def nextInst (st : BBState) : Word := st.elfReader.getNextInstruction

/-- `railBB.numInstructions++` -/
def countInst (st : BBState) : BBState :=
  { st with railBB := { st.railBB with numInstructions := st.railBB.numInstructions + 1 } }

/-- Emit the exit of a block, complete its record and register it. `after`
are words behind the block's end. -/
def close (h : Host) (st : BBState) (type : BasicBlockType) (lastAddr : BitVec 32)
    (terminalInst : Word) (words after : List Word) : BBState :=
  let cache := st.cache.emit words
  let railBB := { st.railBB with
    type := type
    lastAddr := lastAddr.signExtend 64
    terminalInst := terminalInst
    endLocationInCache := cache.here h }
  { st with cache := (cache.emit after).insertBB railBB, railBB := railBB }

/-- Emit the words of an instruction and go on behind it. -/
def advance (st : BBState) (words : List Word) : BBState :=
  { st with
    elfReader := st.elfReader.incProgramCounter
    cache := st.cache.emit words
    allocatedPrev := st.allocatedPrev + 1 }

end BBState

/-- `allocateNextInst`: the words and the record of a block that holds the
instruction under the program counter and nothing else. Its exit after a
relocated access loads the handler's address into the scratch register but
jumps through `t6`; its exit for a system instruction is a jump relative to
the stub region, which this build leaves at address zero. -/
def allocateNextInst (h : Host) (elfReader : ElfReader) (cache : CodeCache)
    (railBB : RailBasicBlock) : CodeCache × RailBasicBlock :=
  let nextInst := elfReader.getNextInstruction
  let opcode := opcodeOf nextInst
  let done (type : BasicBlockType) (words : List Word) : CodeCache × RailBasicBlock :=
    (cache.emit words,
      { railBB with type := type, lastAddr := elfReader.pc, terminalInst := nextInst })
  if opcode = Op.branch then
    done .directBranch (branchExits h nextInst)
  else if opcode = Op.jal then
    done .directBranch (exitTo h.contextSwitchTaken)
  else if opcode = Op.jalr then
    done .indirectBranch (exitTo h.contextSwitchTaken)
  else if opcode = Op.auipc then
    done .segmented
      (auipcWords h elfReader.programCounter nextInst ++ exitTo h.contextSwitchTaken)
  else if opcode = Op.store ∨ opcode = Op.load then
    let rs1 := (decodeInstruction h.junkInst nextInst).rs1
    if rs1 ≠ regs.sp then
      done .segmented (relocatedInPlace h nextInst ++
        (inlineSave ++ insertLi h.contextSwitchTaken (scratchReg rs1) ++ [jalrInst]))
    else done .segmented ([nextInst] ++ exitTo h.contextSwitchTaken)
  else if opcode = Op.system then
    let toStubRegion : BitVec 32 := (0 - cache.here h).setWidth 32
    done .syscall [encodeJtypeFields Op.jal regs.zero toStubRegion, nextInst]
  else
    done .segmented ([nextInst] ++ exitTo h.contextSwitchTaken)

/-- The block of a pre-instrumented instruction: it enters through
`context_switch_instrument`, and the instruction follows. -/
def allocatePreInst (h : Host) (st : BBState) : BBState :=
  let preInstBB := { h.junkBlock with
    firstAddr := st.elfReader.pc
    startInst := st.nextInst
    terminalInst := st.nextInst
    basicBlockAddress := st.railBB.basicBlockAddress
    startLocationInCache := st.cache.here h }
  let cache := st.cache.emit (exitTo h.contextSwitchInstrument)
  let (cache, preInstBB) := allocateNextInst h st.elfReader cache preInstBB
  let preInstBB := { preInstBB with endLocationInCache := cache.here h }
  { st with cache := cache.insertBB preInstBB }

/-- What the loop does at an instruction that is not pre-instrumented. -/
def translateInst (h : Host) (r : Rail) (st : BBState) : Turn BBState :=
  let nextInst := st.nextInst
  let opcode := opcodeOf nextInst
  let pc := st.pc
  if opcode = Op.branch then
    .return (st.close h .directBranch pc nextInst (branchExits h nextInst) [])
  else if opcode = Op.jal then
    .return (st.close h .directBranch pc nextInst (exitTo h.contextSwitchTaken) [])
  else if opcode = Op.jalr then
    .return (st.close h .indirectBranch pc nextInst (exitTo h.contextSwitchTaken) [])
  else if opcode = Op.auipc then
    let words := auipcWords h pc nextInst
    if postInstrumented r pc [.uType] then
      .return (st.close h .segmented pc nextInst (words ++ exitTo h.contextSwitchTaken) [])
    else .next (st.advance words)
  else if opcode = Op.store ∨ opcode = Op.load then
    let words :=
      if (decodeInstruction h.junkInst nextInst).rs1 ≠ regs.sp then relocatedByScratch h nextInst
      else [nextInst]
    if postInstrumented r pc [.memAccessType, .iType, .sType] then
      .return (st.close h .segmented pc nextInst (words ++ exitTo h.contextSwitchTaken) [])
    else .next (st.advance words)
  else if opcode = Op.system then
    let st' := st.close h .syscall pc nextInst (exitTo h.contextSwitch) [nextInst]
    .return { st' with elfReader := st'.elfReader.incProgramCounter }
  else if opcode = Op.amo then
    .next (st.advance (amoWords h nextInst))
  else if postInstrumented r pc [getType opcode] then
    .return (st.close h .segmented pc nextInst ([nextInst] ++ exitTo h.contextSwitchTaken) [])
  else .next (st.advance [nextInst])

def allocateBBTurn (h : Host) (r : Rail) (st : BBState) : Turn BBState :=
  let st := st.countInst
  if preInstrumented r st.pc st.nextInst then
    let st :=
      if st.allocatedPrev ≠ 0 then
        st.close h .segmented (st.pc - 4) (st.elfReader.fetch (st.pc - 4))
          (exitTo h.contextSwitch) []
      else st
    if (st.cache.railBasicBlocks st.elfReader.pc).isSome then .return st
    else .return (allocatePreInst h st)
  else translateInst h r st

theorem allocateBBTurn_eq {h : Host} {r : Rail} {st : BBState}
    (hpre : preInstrumented r st.pc st.nextInst = false) :
    allocateBBTurn h r st = translateInst h r st.countInst := by
  have hpre' : preInstrumented r st.countInst.pc st.countInst.nextInst = false := hpre
  simp only [allocateBBTurn, hpre', Bool.false_eq_true, if_false]

/-- The turns after which a loop that has not been left is never left. -/
def loopFuel : ℕ := 2 ^ 30

def allocateBBLoop (h : Host) (r : Rail) : ℕ → BBState → BBState
  | 0, st => st
  | fuel + 1, st =>
      if st.nextInst = 0 then st
      else
        match allocateBBTurn h r st with
        | .next st' => allocateBBLoop h r fuel st'
        | .return st' => st'

def allocateBBStart (h : Host) (elfReader : ElfReader) (cache : CodeCache)
    (binaryAddress : DWord) : BBState :=
  let elfReader := elfReader.setProgramCounter (binaryAddress.setWidth 32)
  let railBB := { h.junkBlock with
    firstAddr := elfReader.pc
    basicBlockAddress := elfReader.pc
    startInst := elfReader.getNextInstruction
    numInstructions := 0
    startLocationInCache := cache.here h }
  { elfReader := elfReader
    cache := (cache.setCurrentBB railBB.firstAddr).emit restoreScratch
    railBB := railBB
    allocatedPrev := 0 }

def allocateBB (h : Host) (r : Rail) (elfReader : ElfReader) (cache : CodeCache)
    (binaryAddress : DWord) : ElfReader × CodeCache :=
  let st := allocateBBLoop h r loopFuel (allocateBBStart h elfReader cache binaryAddress)
  (st.elfReader, st.cache)

/-- `allocateRoot`: the cache starts with a jump to `init_switch`. -/
def allocateRoot (h : Host) (elfReader : ElfReader) : ElfReader × CodeCache :=
  (elfReader.jumpToEntry,
    CodeCache.initial.emit (insertLi h.initSwitch regs.t6 ++ [jalrInst]))

end RailTranslator
