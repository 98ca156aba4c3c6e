import RailTranslator.AllocateTrace
import RailTranslator.CfgGen
import RailTranslator.SystemCalls

/-!
`dispatcher.cpp`: `stub`, `instrument`, `init` and `exit_binary`.

A callback is a function of the host: the dispatcher knows it by the number
under which it was registered, hands it a copy of its argument and the trap
frame, and goes on with the frame it leaves. Every call is written to `calls`.
`exit_binary` ends the process, so a run of `stub` has two outcomes.
-/

namespace RailTranslator

open Rv64

/-! ### Callbacks -/

structure Callbacks where
  inst : ℕ → RvInst → TrapFrame → TrapFrame
  bb : ℕ → RailBasicBlock → TrapFrame → TrapFrame
  exit : ℕ → TrapFrame → TrapFrame

/-- Routines that change nothing. -/
def idleCallbacks : Callbacks where
  inst _ _ f := f
  bb _ _ f := f
  exit _ f := f

inductive Call
  | inst (func : ℕ) (inst : RvInst)
  | bb (func : ℕ) (railBB : RailBasicBlock)
  | exit (func : ℕ)

/-- The static state the dispatcher works on. -/
structure Dispatcher where
  elfReader : ElfReader
  cache : CodeCache
  cfgGenerator : Option CfgGenerator
  calls : List Call

namespace Dispatcher

/-- `Rail::cfgGenerator->addEdge`, if there is a generator. -/
def addEdge (d : Dispatcher) (node1 node2 : String) : Dispatcher :=
  { d with cfgGenerator := d.cfgGenerator.map fun g => g.addEdge node1 node2 }

/-- A loop over instruction routines: the ones that pass `p` are called in order. -/
def callInst (cb : Callbacks) (p : InstRoutine → Bool) (inst : RvInst) (d : Dispatcher)
    (f : TrapFrame) (routines : List InstRoutine) : Dispatcher × TrapFrame :=
  (routines.filter p).foldl
    (fun df routine => ({ df.1 with calls := df.1.calls ++ [.inst routine.func inst] },
      cb.inst routine.func inst df.2)) (d, f)

def callBB (cb : Callbacks) (p : BBRoutine → Bool) (railBB : RailBasicBlock) (d : Dispatcher)
    (f : TrapFrame) (routines : List BBRoutine) : Dispatcher × TrapFrame :=
  (routines.filter p).foldl
    (fun df routine => ({ df.1 with calls := df.1.calls ++ [.bb routine.func railBB] },
      cb.bb routine.func railBB df.2)) (d, f)

end Dispatcher

/-- `routine.lowerBound <= a && routine.upperBound >= a` for an `int`. -/
def InstRoutine.coversInt (routine : InstRoutine) (a : BitVec 32) : Bool :=
  routine.lowerBound.sle a && a.sle routine.upperBound

/-- The same for a `uint64_t`: the bounds are converted and compared unsigned. -/
def InstRoutine.covers (routine : InstRoutine) (a : DWord) : Bool :=
  (routine.lowerBound.signExtend 64).ule a && a.ule (routine.upperBound.signExtend 64)

def BBRoutine.covers (routine : BBRoutine) (firstAddr lastAddr : DWord) : Bool :=
  (routine.lowerBound.signExtend 64).ule firstAddr &&
    lastAddr.ule (routine.upperBound.signExtend 64)

/-! ### What has been left -/

/-- The instruction an exit stands for and the way it leaves. -/
structure LastInst where
  inst : RvInst
  exitType : BasicBlockType

/-- The exit of a trace is recognised by its address, every other one by the
record of the current block. -/
def lastInst (h : Host) (d : Dispatcher) (current : RailBasicBlock) (lastInstAddress : DWord) :
    LastInst × Dispatcher :=
  if lastInstAddress ≠ 0 ∧ (d.cache.exits lastInstAddress).isSome then
    let elfReader := d.elfReader.setProgramCounter (lastInstAddress.setWidth 32)
    let inst := { decodeInstruction h.junkInst elfReader.getNextInstruction with
      address := lastInstAddress.setWidth 32 }
    let exitType : BasicBlockType :=
      if inst.opcode = Op.branch then .directBranch
      else if inst.opcode = Op.jal then .directBranch
      else if inst.opcode = Op.jalr then .indirectBranch
      else if inst.opcode = Op.system then .syscall
      else .segmented
    (⟨inst, exitType⟩, { d with elfReader := elfReader })
  else
    (⟨{ decodeInstruction h.junkInst current.terminalInst with
        address := current.lastAddr.setWidth 32 }, current.type⟩, d)

/-! ### Where to go on -/

/-- The part of `stub` that depends on the way the block was left: the
successor, and whether the last instruction must not be executed any more. -/
structure Successor where
  dispatcher : Dispatcher
  frame : TrapFrame
  current : RailBasicBlock
  nextBlockAddr : DWord
  shouldNotExecLast : Bool

inductive StubOutcome (α : Type)
  | returned (a : α)
  /-- The process has ended in `exit_binary`. -/
  | exited (d : Dispatcher)

def exitBinary (r : Rail) (d : Dispatcher) : Dispatcher :=
  let d := match r.exitRoutine with
    | none => d
    | some func => { d with calls := d.calls ++ [Call.exit func] }
  match d.cfgGenerator with
  | none => d
  | some _ =>
      let (current, cache) := d.cache.lookup (d.cache.currentBB.setWidth 64)
      let d := { d with cache := cache }
      let d := d.addEdge (hexAddress current.basicBlockAddress) "END"
      { d with cfgGenerator := d.cfgGenerator.map CfgGenerator.finish }

def RvInst.rdReg (inst : RvInst) : Reg := inst.rd.setWidth 5

def RvInst.rs1Reg (inst : RvInst) : Reg := inst.rs1.setWidth 5

/-- The `switch` over the exit type. -/
def successor (r : Rail) (cb : Callbacks) (io : IoRequest → DWord) (d : Dispatcher)
    (f : TrapFrame) (current : RailBasicBlock) (last : LastInst) (taken : DWord) :
    StubOutcome Successor :=
  let inst := last.inst
  let edgeTo (d : Dispatcher) (nextBlockAddr : DWord) : Dispatcher :=
    d.addEdge (hexAddress current.basicBlockAddress) (hexAddress nextBlockAddr)
  match last.exitType with
  | .directBranch =>
      if inst.opcode = Op.branch then
        let nextBlockAddr : DWord :=
          if taken ≠ 0 then (inst.address + inst.imm).signExtend 64
          else (inst.address + 4).signExtend 64
        .returned ⟨edgeTo d nextBlockAddr, f, { current with takenBlock := taken ≠ 0 },
          nextBlockAddr, true⟩
      else
        let nextBlockAddr : DWord := (inst.address + inst.imm).signExtend 64
        let f := if inst.type = .jType ∧ inst.rd ≠ regs.zero then
          f.set inst.rdReg ((inst.address + 4).signExtend 64) else f
        .returned ⟨edgeTo d nextBlockAddr, f, { current with takenBlock := true },
          nextBlockAddr, true⟩
  | .indirectBranch =>
      let nextBlockAddr := f inst.rs1Reg + inst.imm.signExtend 64
      let f := if inst.rd ≠ regs.zero then
        f.set inst.rdReg ((inst.address + 4).signExtend 64) else f
      .returned ⟨edgeTo d nextBlockAddr, f, current, nextBlockAddr, true⟩
  | .segmented =>
      let nextBlockAddr : DWord := (inst.address + 4).signExtend 64
      .returned ⟨edgeTo d nextBlockAddr, f, current, nextBlockAddr, true⟩
  | .syscall =>
      let (d, f) := Dispatcher.callInst cb (·.coversInt inst.address) inst d f
        (r.instructionRoutinesTypedPre .systemType)
      let goOn (f : TrapFrame) (shouldNotExecLast : Bool) : StubOutcome Successor :=
        let nextBlockAddr : DWord := (inst.address + 4).signExtend 64
        let (d, f) := Dispatcher.callInst cb (·.coversInt inst.address) inst d f
          (r.instructionRoutinesTypedPost .systemType)
        .returned ⟨edgeTo d nextBlockAddr, f, current, nextBlockAddr, shouldNotExecLast⟩
      match handleSyscalls io f with
      | .exit => .exited (exitBinary r d)
      | .ecalled f => goOn f true
      | .notEcalled => goOn f false
  -- `functionCall` and `functionReturn` are never assigned; `nextBlockAddr`
  -- would be uninitialised
  | .functionCall | .functionReturn => .returned ⟨d, f, current, 0, true⟩

def callPost (r : Rail) (cb : Callbacks) (s : Successor) (inst : RvInst) : Successor :=
  if r.postInstrumentationRoutines then
    let current := s.current
    let covers (routine : InstRoutine) : Bool := routine.covers current.lastAddr
    let (d, f) :=
      if current.type ≠ .segmented then
        Dispatcher.callBB cb (·.covers current.firstAddr current.lastAddr) current s.dispatcher
          s.frame r.basicBlockRoutinesPost
      else (s.dispatcher, s.frame)
    let (d, f) := Dispatcher.callInst cb covers inst d f r.instructionRoutinesPost
    let (d, f) := Dispatcher.callInst cb covers inst d f
      (r.instructionRoutinesTypedPost inst.type)
    let (d, f) :=
      if inst.opcode = Op.load ∨ inst.opcode = Op.store then
        Dispatcher.callInst cb covers inst d f (r.instructionRoutinesTypedPost .memAccessType)
      else (d, f)
    { s with dispatcher := d, frame := f }
  else s

/-! ### Allocation and linking -/

/-- Translate the successor if it has no block yet. -/
def allocateNext (h : Host) (r : Rail) (d : Dispatcher) (nextBlockAddr : DWord) : Dispatcher :=
  if (d.cache.railBasicBlocks nextBlockAddr).isNone then
    let (elfReader, cache) :=
      if r.traceLinkingEnabled then allocateTrace h r d.elfReader d.cache nextBlockAddr 10
      else allocateBB h r d.elfReader d.cache nextBlockAddr
    { d with elfReader := elfReader, cache := cache }
  else d

/-- `CodeCache::memory[(a - 0x1000000) / 4] = word` -/
def CodeCache.patch (c : CodeCache) (a : DWord) (word : Word) : CodeCache :=
  { c with memory := c.memory.set ((a - 0x1000000).toNat / 4) word }

/-- Link the exit recorded at `exitAddr` to a block: the two words behind the
branch for the not-taken side, the two words at the branch's target for the
taken side. -/
def link (c : CodeCache) (exitAddr startLocationInCache : DWord) (taken : DWord) : CodeCache :=
  let side : DWord := if taken = 0 then 4 else 36
  let target : BitVec 32 := (startLocationInCache + 4 - (exitAddr + side + 4)).setWidth 32
  (c.patch (exitAddr + side) 0x01010113).patch (exitAddr + side + 4)
    (encodeJtypeFields Op.jal regs.zero target)

def linkExit (r : Rail) (c : CodeCache) (exitType : BasicBlockType) (lastInstAddress : DWord)
    (next : RailBasicBlock) (taken : DWord) : CodeCache :=
  if r.traceLinkingEnabled ∧ exitType = .directBranch then
    match c.exits lastInstAddress with
    | some exitAddr => link c exitAddr next.startLocationInCache taken
    | none => c
  else c

def callPre (h : Host) (r : Rail) (cb : Callbacks) (bounded : Bool) (d : Dispatcher)
    (f : TrapFrame) (next : RailBasicBlock) : Dispatcher × TrapFrame :=
  if r.preInstrumentationRoutines then
    let firstInst := { decodeInstruction h.junkInst next.startInst with
      address := next.firstAddr.setWidth 32 }
    let (d, f) :=
      if next.type ≠ .segmented then
        Dispatcher.callBB cb (fun routine => !bounded || routine.covers next.firstAddr next.lastAddr)
          next d f r.basicBlockRoutinesPre
      else (d, f)
    Dispatcher.callInst cb (·.covers next.firstAddr) firstInst d f r.instructionRoutinesPre
  else (d, f)

/-! ### The entry points -/

/-- The dispatcher when `init` is called. -/
def rootDispatcher (h : Host) (elf : ElfReader) (cfgGenerator : Option CfgGenerator) :
    Dispatcher where
  elfReader := (allocateRoot h elf).1
  cache := (allocateRoot h elf).2
  cfgGenerator := cfgGenerator
  calls := []

/-- What `stub` hands back to the routine that called it. -/
structure Resume where
  dispatcher : Dispatcher
  frame : TrapFrame
  returnVal : DWord

/-- `stub`, from the successor on. -/
def enterNext (h : Host) (r : Rail) (cb : Callbacks) (s : Successor) (exitType : BasicBlockType)
    (taken lastInstAddress : DWord) : StubOutcome Resume :=
  let d := allocateNext h r s.dispatcher s.nextBlockAddr
  let (next, cache) := d.cache.lookup s.nextBlockAddr
  let cache := linkExit r cache exitType lastInstAddress next taken
  let cache :=
    if next.type = .segmented then
      cache.insertAt s.nextBlockAddr { next with basicBlockAddress := s.current.basicBlockAddress }
    else cache
  let d := { d with cache := cache }
  if next.firstAddr = 0 then .exited (exitBinary r d)
  else
    let (d, f) := callPre h r cb false d s.frame next
    .returned ⟨{ d with cache := d.cache.setCurrentBB next.firstAddr }, f,
      if s.shouldNotExecLast then next.startLocationInCache else next.startLocationInCache - 4⟩

def stub (h : Host) (r : Rail) (cb : Callbacks) (io : IoRequest → DWord) (d : Dispatcher)
    (f : TrapFrame) (taken lastInstAddress : DWord) : StubOutcome Resume :=
  let (current, cache) := d.cache.lookup (d.cache.currentBB.setWidth 64)
  let (last, d) := lastInst h { d with cache := cache } current lastInstAddress
  match successor r cb io d f current last taken with
  | .exited d => .exited d
  | .returned s =>
      enterNext h r cb (callPost r cb s last.inst) last.exitType taken lastInstAddress

def instrument (h : Host) (r : Rail) (cb : Callbacks) (d : Dispatcher) (f : TrapFrame) : Resume :=
  let (current, cache) := d.cache.lookup (d.cache.currentBB.setWidth 64)
  let d := { d with cache := cache }
  let firstInst := { decodeInstruction h.junkInst current.startInst with
    address := current.firstAddr.setWidth 32 }
  let (d, f) := Dispatcher.callInst cb (fun _ => true) firstInst d f
    (r.instructionRoutinesTypedPre firstInst.type)
  let inRange := (r.instructionRoutinesStart.signExtend 64).ule current.firstAddr &&
    current.firstAddr.ule (r.instructionRoutinesEnd.signExtend 64)
  let (d, f) :=
    if firstInst.opcode = Op.load ∨ firstInst.opcode = Op.store then
      Dispatcher.callInst cb (fun _ => inRange) firstInst d f
        (r.instructionRoutinesTypedPre .memAccessType)
    else (d, f)
  ⟨d, f, current.startLocationInCache + 24⟩

/-- `init`, up to the initial stack it writes. -/
def init (h : Host) (r : Rail) (cb : Callbacks) (d : Dispatcher) (f : TrapFrame) : Resume :=
  let entryAddr := d.elfReader.pc
  let (elfReader, cache) :=
    if r.traceLinkingEnabled then allocateTrace h r d.elfReader d.cache entryAddr 1
    else allocateBB h r d.elfReader d.cache entryAddr
  let d := { d with elfReader := elfReader, cache := cache }
  let d := d.addEdge "START" (hexAddress entryAddr)
  let (next, cache) := d.cache.lookup entryAddr
  let (d, f) := callPre h r cb true { d with cache := cache } f next
  ⟨d, f, next.startLocationInCache⟩

end RailTranslator
