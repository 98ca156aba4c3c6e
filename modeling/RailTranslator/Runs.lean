import RailTranslator.BlockWalk
import RailTranslator.StubSpec
import RailTranslator.Transition

/-!
The dispatcher as a transition system.

A run begins with `init`. From then on the code in the cache calls `stub`,
through one of its exits, or `instrument`, and nothing is assumed of the
frames and exits it calls them with. `StubStep` says what a call of `stub`
that returns has done, and the rest of the module what it has done to each
part of the state: the log of calls, the control flow graph, the blocks.
-/

namespace RailTranslator

open Rv64 Transition

/-! ### The system -/

/-- What the code in the cache does next. -/
inductive Event
  | call (io : IoRequest → DWord) (f : TrapFrame) (taken lastInstAddress : DWord)
  | instrument (f : TrapFrame)

def dispatch (h : Host) (r : Rail) (cb : Callbacks) (elf : ElfReader)
    (cfgGenerator : Option CfgGenerator) : System Dispatcher Event where
  init := {d | ∃ f, d = (init h r cb (rootDispatcher h elf cfgGenerator) f).dispatcher}
  step d
    | .call io f taken a => (stub h r cb io d f taken a).toOption.map (·.dispatcher)
    | .instrument f => some (instrument h r cb d f).dispatcher

theorem stub_step {h : Host} {r : Rail} {cb : Callbacks} {io : IoRequest → DWord}
    {d : Dispatcher} {f : TrapFrame} {taken a : DWord} {res : Resume}
    (hs : stub h r cb io d f taken a = .returned res) :
    ∃ s next, StubStep h r cb io d f taken a res s next := by
  obtain ⟨s, next, hst, -⟩ := stub_enters hs
  exact ⟨s, next, hst⟩

/-! ### The log of calls -/

section Calls

variable {h : Host} {r : Rail} {cb : Callbacks} {io : IoRequest → DWord} {d : Dispatcher}
  {f : TrapFrame}

def instCalls (p : InstRoutine → Bool) (inst : RvInst) (routines : List InstRoutine) : List Call :=
  (routines.filter p).map fun routine => .inst routine.func inst

def bbCalls (p : BBRoutine → Bool) (b : RailBasicBlock) (routines : List BBRoutine) : List Call :=
  (routines.filter p).map fun routine => .bb routine.func b

def systemCalls (r : Rail) (last : LastInst) : List Call :=
  if last.exitType = .syscall then
    instCalls (·.coversInt last.inst.address) last.inst (r.instructionRoutinesTypedPre .systemType) ++
      instCalls (·.coversInt last.inst.address) last.inst
        (r.instructionRoutinesTypedPost .systemType)
  else []

def postCalls (r : Rail) (current : RailBasicBlock) (inst : RvInst) : List Call :=
  if r.postInstrumentationRoutines then
    (if current.type ≠ .segmented then
      bbCalls (·.covers current.firstAddr current.lastAddr) current r.basicBlockRoutinesPost
    else []) ++
      instCalls (·.covers current.lastAddr) inst r.instructionRoutinesPost ++
      instCalls (·.covers current.lastAddr) inst (r.instructionRoutinesTypedPost inst.type) ++
      if inst.opcode = Op.load ∨ inst.opcode = Op.store then
        instCalls (·.covers current.lastAddr) inst (r.instructionRoutinesTypedPost .memAccessType)
      else []
  else []

/-- The first instruction of a block, as PRE routines see it. -/
def firstInst (h : Host) (b : RailBasicBlock) : RvInst :=
  { decodeInstruction h.junkInst b.startInst with address := b.firstAddr.setWidth 32 }

def preCalls (h : Host) (r : Rail) (bounded : Bool) (next : RailBasicBlock) : List Call :=
  if r.preInstrumentationRoutines then
    (if next.type ≠ .segmented then
      bbCalls (fun routine => !bounded || routine.covers next.firstAddr next.lastAddr) next
        r.basicBlockRoutinesPre
    else []) ++ instCalls (·.covers next.firstAddr) (firstInst h next) r.instructionRoutinesPre
  else []

def instrumentCalls (h : Host) (r : Rail) (current : RailBasicBlock) : List Call :=
  instCalls (fun _ => true) (firstInst h current)
      (r.instructionRoutinesTypedPre (firstInst h current).type) ++
    if (firstInst h current).opcode = Op.load ∨ (firstInst h current).opcode = Op.store then
      instCalls (fun _ => (r.instructionRoutinesStart.signExtend 64).ule current.firstAddr &&
        current.firstAddr.ule (r.instructionRoutinesEnd.signExtend 64)) (firstInst h current)
          (r.instructionRoutinesTypedPre .memAccessType)
    else []

theorem callPre_fst (bounded : Bool) (d : Dispatcher) (f : TrapFrame) (next : RailBasicBlock) :
    (callPre h r cb bounded d f next).1 = { d with calls := d.calls ++ preCalls h r bounded next } := by
  simp only [callPre, preCalls]
  split_ifs <;> simp [callInst_fst, callBB_fst, instCalls, bbCalls, firstInst]

theorem callPost_dispatcher (s : Successor) (inst : RvInst) :
    (callPost r cb s inst).dispatcher =
      { s.dispatcher with calls := s.dispatcher.calls ++ postCalls r s.current inst } := by
  simp only [callPost, postCalls]
  split_ifs <;> simp [callInst_fst, callBB_fst, instCalls, bbCalls]

theorem instrument_dispatcher : (instrument h r cb d f).dispatcher =
    { d.lookedUp with calls := d.calls ++ instrumentCalls h r d.current } := by
  have hopcode : (firstInst h d.current).opcode = (decodeInstruction h.junkInst
      (d.cache.lookup (d.cache.currentBB.setWidth 64)).1.startInst).opcode := rfl
  rw [instrumentCalls, hopcode]
  simp only [instrument]
  by_cases haccess : (decodeInstruction h.junkInst
      (d.cache.lookup (d.cache.currentBB.setWidth 64)).1.startInst).opcode = Op.load ∨
        (decodeInstruction h.junkInst
          (d.cache.lookup (d.cache.currentBB.setWidth 64)).1.startInst).opcode = Op.store
  · rw [if_pos haccess, if_pos haccess]
    simp only [callInst_fst, List.append_assoc]
    rfl
  · rw [if_neg haccess, if_neg haccess, List.append_nil]
    simp only [callInst_fst]
    rfl

def BasicBlockType.Assigned (type : BasicBlockType) : Prop :=
  type ≠ .functionCall ∧ type ≠ .functionReturn

instance (type : BasicBlockType) : Decidable type.Assigned := by
  unfold BasicBlockType.Assigned
  infer_instance

/-- The successor: the calls for a system instruction, and the edge to it. -/
theorem successor_dispatcher {d₀ : Dispatcher} {current : RailBasicBlock} {last : LastInst}
    {taken : DWord} {s : Successor}
    (hs : successor r cb io d₀ f current last taken = .returned s) :
    s.dispatcher = { d₀ with
      calls := d₀.calls ++ systemCalls r last
      cfgGenerator := if last.exitType.Assigned then
        d₀.cfgGenerator.map fun g =>
          g.addEdge (hexAddress current.basicBlockAddress) (hexAddress s.nextBlockAddr)
        else d₀.cfgGenerator } := by
  obtain ⟨inst, exitType⟩ := last
  cases exitType with
  | directBranch =>
      simp only [successor] at hs
      split_ifs at hs <;> cases hs <;>
        simp [systemCalls, Dispatcher.addEdge, BasicBlockType.Assigned]
  | indirectBranch =>
      cases hs
      simp [systemCalls, Dispatcher.addEdge, BasicBlockType.Assigned]
  | segmented =>
      cases hs
      simp [systemCalls, Dispatcher.addEdge, BasicBlockType.Assigned]
  | functionCall =>
      cases hs
      simp [systemCalls, BasicBlockType.Assigned]
  | functionReturn =>
      cases hs
      simp [systemCalls, BasicBlockType.Assigned]
  | syscall =>
      simp only [successor] at hs
      split at hs
      · cases hs
      all_goals
        cases hs
        simp [systemCalls, Dispatcher.addEdge, callInst_fst, instCalls, BasicBlockType.Assigned]

theorem successor_current {d₀ : Dispatcher} {current : RailBasicBlock} {last : LastInst}
    {taken : DWord} {s : Successor}
    (hs : successor r cb io d₀ f current last taken = .returned s) :
    s.current = { current with takenBlock := s.current.takenBlock } := by
  obtain ⟨inst, exitType⟩ := last
  cases exitType with
  | directBranch =>
      simp only [successor] at hs
      split_ifs at hs <;> cases hs <;> rfl
  | indirectBranch =>
      cases hs
      rfl
  | segmented =>
      cases hs
      rfl
  | functionCall =>
      cases hs
      rfl
  | functionReturn =>
      cases hs
      rfl
  | syscall =>
      simp only [successor] at hs
      split at hs
      · cases hs
      all_goals
        cases hs
        rfl

end Calls

/-! ### What a call has done -/

section Step

variable {h : Host} {r : Rail} {cb : Callbacks} {io : IoRequest → DWord} {elf : ElfReader}
  {d : Dispatcher} {f : TrapFrame} {taken a : DWord} {res : Resume} {s : Successor}
  {next : RailBasicBlock}

/-- The allocator of the mode; a trace has up to `n` blocks. -/
def allocate (h : Host) (r : Rail) (elf : ElfReader) (c : CodeCache) (a : DWord) (n : ℕ) :
    ElfReader × CodeCache :=
  if r.traceLinkingEnabled then allocateTrace h r elf c a n else allocateBB h r elf c a

theorem allocateNext_of_none (hnone : d.cache.railBasicBlocks a = none) :
    allocateNext h r d a = { d with
      elfReader := (allocate h r d.elfReader d.cache a 10).1
      cache := (allocate h r d.elfReader d.cache a 10).2 } := by
  rw [allocateNext, hnone]
  rfl

theorem calls_allocateNext (d : Dispatcher) (a : DWord) :
    (allocateNext h r d a).calls = d.calls ∧
      (allocateNext h r d a).cfgGenerator = d.cfgGenerator := by
  rw [allocateNext]
  split_ifs <;> exact ⟨rfl, rfl⟩

def Dispatcher.readerBehind (h : Host) (d : Dispatcher) (a : DWord) : ElfReader :=
  (lastInst h d.lookedUp d.current a).2.elfReader

section Leave

variable (hleave : d.leave h r cb io f taken a = .returned s)

include hleave

theorem before_allocateNext :
    (callPost r cb s (d.left h a).inst).dispatcher.cache = d.lookedUp.cache ∧
      (callPost r cb s (d.left h a).inst).dispatcher.elfReader = d.readerBehind h a ∧
      (callPost r cb s (d.left h a).inst).dispatcher.calls = d.calls ++
        (systemCalls r (d.left h a) ++ postCalls r s.current (d.left h a).inst) ∧
      (callPost r cb s (d.left h a).inst).dispatcher.cfgGenerator =
        if (d.left h a).exitType.Assigned then
          d.cfgGenerator.map fun g => g.addEdge (hexAddress d.current.basicBlockAddress)
            (hexAddress s.nextBlockAddr)
        else d.cfgGenerator := by
  have hsucc := successor_dispatcher hleave
  have hcache := cache_lastInst h d.lookedUp d.current a
  have hlast : (lastInst h d.lookedUp d.current a).2.calls = d.calls ∧
      (lastInst h d.lookedUp d.current a).2.cfgGenerator = d.cfgGenerator :=
    calls_lastInst h d.lookedUp d.current a
  rw [callPost_dispatcher, hsucc, hlast.1, hlast.2, hcache]
  exact ⟨rfl, rfl, List.append_assoc _ _ _, rfl⟩

theorem allocateNext_cache : (allocateNext h r (callPost r cb s (d.left h a).inst).dispatcher
      s.nextBlockAddr).cache = if (d.lookedUp.cache.railBasicBlocks s.nextBlockAddr).isNone then
        (allocate h r (d.readerBehind h a) d.lookedUp.cache s.nextBlockAddr 10).2
      else d.lookedUp.cache := by
  obtain ⟨hcache, hreader, -, -⟩ := before_allocateNext hleave
  rcases hb : d.lookedUp.cache.railBasicBlocks s.nextBlockAddr with _ | b
  · rw [allocateNext_of_none (by rw [hcache, hb]), hcache, hreader]
    rfl
  · rw [allocateNext_of_some (by rw [hcache, hb]), hcache]
    rfl

end Leave

namespace StubStep

variable (hst : StubStep h r cb io d f taken a res s next)

include hst

theorem calls : res.dispatcher.calls = d.calls ++ (systemCalls r (d.left h a) ++
    postCalls r s.current (d.left h a).inst ++ preCalls h r false next) := by
  rw [hst.dispatcher, callPre_fst]
  show (allocateNext h r _ _).calls ++ _ = _
  rw [(calls_allocateNext _ _).1, (before_allocateNext hst.leave).2.2.1, List.append_assoc]

theorem cfgGenerator : res.dispatcher.cfgGenerator = if (d.left h a).exitType.Assigned then
      d.cfgGenerator.map fun g => g.addEdge (hexAddress d.current.basicBlockAddress)
        (hexAddress s.nextBlockAddr)
    else d.cfgGenerator := by
  rw [hst.dispatcher, callPre_fst]
  show (allocateNext h r _ _).cfgGenerator = _
  rw [(calls_allocateNext _ _).2, (before_allocateNext hst.leave).2.2.2]

theorem cache : res.dispatcher.cache =
    (beforePre h r cb s (d.left h a) taken a next).cache.setCurrentBB next.firstAddr := by
  rw [hst.dispatcher, callPre_fst]

theorem current_eq : s.current = { d.current with takenBlock := s.current.takenBlock } :=
  successor_current hst.leave

/-- Where the records come from after a call: they were there, were created by
looking one up, or the successor has been translated; and if it is a segment,
the record of the successor has been renamed. -/
theorem record_cases {x : DWord} {b : RailBasicBlock}
    (hb : res.dispatcher.cache.railBasicBlocks x = some b) :
    ∃ b', (b = b' ∨ x = s.nextBlockAddr ∧ b'.type = .segmented ∧
        b = { b' with basicBlockAddress := d.current.basicBlockAddress }) ∧
      (d.lookedUp.cache.railBasicBlocks x = some b' ∨
        d.lookedUp.cache.railBasicBlocks s.nextBlockAddr = none ∧
          (allocate h r (d.readerBehind h a) d.lookedUp.cache s.nextBlockAddr
            10).2.railBasicBlocks x = some b') := by
  have hreg := hst.registered
  have hbb : s.current.basicBlockAddress = d.current.basicBlockAddress := by
    rw [hst.current_eq]
  -- before the successor's record is renamed
  have hallocated {b' : RailBasicBlock} (hb' : (allocateNext h r
      (callPost r cb s (d.left h a).inst).dispatcher s.nextBlockAddr).cache.railBasicBlocks x =
        some b') : d.lookedUp.cache.railBasicBlocks x = some b' ∨
      d.lookedUp.cache.railBasicBlocks s.nextBlockAddr = none ∧
        (allocate h r (d.readerBehind h a) d.lookedUp.cache s.nextBlockAddr
          10).2.railBasicBlocks x = some b' := by
    rw [allocateNext_cache hst.leave] at hb'
    split at hb'
    · rename_i hnone
      exact .inr ⟨Option.isNone_iff_eq_none.mp hnone, hb'⟩
    · exact .inl hb'
  rw [hst.cache, CodeCache.railBasicBlocks_setCurrentBB] at hb
  simp only [beforePre, CodeCache.renameSegment] at hb
  by_cases hseg : next.type = .segmented
  · rw [if_pos hseg, CodeCache.railBasicBlocks_insertAt, Function.update_apply] at hb
    by_cases hx : x = s.nextBlockAddr
    · rw [if_pos hx] at hb
      refine ⟨next, .inr ⟨hx, hseg, ?_⟩, hallocated (by rw [hx]; exact hreg)⟩
      rw [← Option.some.inj hb, hbb]
    · rw [if_neg hx, railBasicBlocks_linkExit] at hb
      exact ⟨b, .inl rfl, hallocated hb⟩
  · rw [if_neg hseg, railBasicBlocks_linkExit] at hb
    exact ⟨b, .inl rfl, hallocated hb⟩

/-- What holds of the records that were there and of the ones the allocator has
made for the successor, and is kept when a segment is renamed, holds of all
records after the call. -/
theorem records {P : DWord → RailBasicBlock → Prop}
    (hrenamed : ∀ {x : DWord} {b : RailBasicBlock} (bb : DWord), P x b → b.type = .segmented →
      P x { b with basicBlockAddress := bb })
    (hold : ∀ x b, d.lookedUp.cache.railBasicBlocks x = some b → P x b)
    (hnew : d.lookedUp.cache.railBasicBlocks s.nextBlockAddr = none → ∀ x b,
      (allocate h r (d.readerBehind h a) d.lookedUp.cache s.nextBlockAddr
        10).2.railBasicBlocks x = some b → d.lookedUp.cache.railBasicBlocks x = some b ∨ P x b)
    (x : DWord) (b : RailBasicBlock) (hb : res.dispatcher.cache.railBasicBlocks x = some b) :
    P x b := by
  obtain ⟨b', hsame, hfrom⟩ := hst.record_cases hb
  have hb' : P x b' := by
    rcases hfrom with hkept | ⟨hnone, hmade⟩
    · exact hold x b' hkept
    · exact (hnew hnone x b' hmade).elim (hold x b') id
  rcases hsame with rfl | ⟨-, hseg, rfl⟩
  · exact hb'
  · exact hrenamed _ hb' hseg

theorem record_next : res.dispatcher.cache.railBasicBlocks s.nextBlockAddr =
    some (if next.type = .segmented then
      { next with basicBlockAddress := d.current.basicBlockAddress } else next) := by
  have hreg := hst.registered
  have hbb : s.current.basicBlockAddress = d.current.basicBlockAddress := by
    rw [hst.current_eq]
  rw [hst.cache, CodeCache.railBasicBlocks_setCurrentBB]
  simp only [beforePre, CodeCache.renameSegment]
  by_cases hseg : next.type = .segmented
  · rw [if_pos hseg, if_pos hseg, CodeCache.railBasicBlocks_insertAt, Function.update_self, hbb]
  · rw [if_neg hseg, if_neg hseg, railBasicBlocks_linkExit, hreg]

/-- The cache grows, and linking overwrites words but does not add any. -/
theorem memory_length : res.dispatcher.cache.memory.length = (allocateNext h r
      (callPost r cb s (d.left h a).inst).dispatcher s.nextBlockAddr).cache.memory.length := by
  rw [hst.cache, CodeCache.memory_setCurrentBB]
  simp only [beforePre]
  rw [memory_renameSegment, length_linkExit]

/-- The block that is entered is the current one, if its address survives the
way through `currentBB`. -/
theorem current (hkey : next.firstAddr = s.nextBlockAddr) (hlt : s.nextBlockAddr.toNat < 2 ^ 32) :
    res.dispatcher.current = if next.type = .segmented then
      { next with basicBlockAddress := d.current.basicBlockAddress } else next := by
  have hcurrent : res.dispatcher.cache.currentBB.setWidth 64 = s.nextBlockAddr := by
    rw [hst.cache, CodeCache.currentBB_setCurrentBB, hkey]
    bv_omega
  rw [Dispatcher.current, hcurrent, CodeCache.lookup_of_some hst.record_next]

end StubStep

/-- Looking an address up registers it, without a block if there was none. -/
theorem lookup_cases {c : CodeCache} {x y : DWord} {b : RailBasicBlock}
    (hb : (c.lookup y).2.railBasicBlocks x = some b) :
    c.railBasicBlocks x = some b ∨ x = y ∧ c.railBasicBlocks y = none ∧ b = .empty := by
  rw [CodeCache.lookup] at hb
  split at hb
  · exact .inl hb
  · rename_i hnone
    rw [CodeCache.railBasicBlocks_insertAt, Function.update_apply] at hb
    split at hb
    · exact .inr ⟨by assumption, hnone, (Option.some.inj hb).symm⟩
    · exact .inl hb

theorem lookup_record {c : CodeCache} {x y : DWord} {b : RailBasicBlock}
    (hb : (c.lookup y).2.railBasicBlocks x = some b) :
    c.railBasicBlocks x = some b ∨ b = .empty :=
  (lookup_cases hb).imp id fun hnew => hnew.2.2

end Step

/-! ### `init` -/

section Init

variable {h : Host} {r : Rail} {cb : Callbacks} {elf : ElfReader} {f : TrapFrame}
  {cfgGenerator : Option CfgGenerator}

def ElfReader.entryAddr (elf : ElfReader) : DWord := asInt elf.entry

def allocateEntry (h : Host) (r : Rail) (elf : ElfReader) : ElfReader × CodeCache :=
  allocate h r elf.jumpToEntry (allocateRoot h elf).2 elf.entryAddr 1

theorem init_dispatcher : ∃ next, next = ((allocateEntry h r elf).2.lookup elf.entryAddr).1 ∧
    (init h r cb (rootDispatcher h elf cfgGenerator) f).dispatcher =
      { elfReader := (allocateEntry h r elf).1
        cache := ((allocateEntry h r elf).2.lookup elf.entryAddr).2
        cfgGenerator := cfgGenerator.map fun g => g.addEdge "START" (hexAddress elf.entryAddr)
        calls := preCalls h r true next } := by
  refine ⟨_, rfl, ?_⟩
  simp only [init, callPre_fst]
  rfl

end Init

/-! ### The reader and the records, over runs -/

section Run

variable {h : Host} {r : Rail} {cb : Callbacks} {elf : ElfReader}
  {cfgGenerator : Option CfgGenerator} {ok : Dispatcher → Event → Prop}
  {l : List (Dispatcher × Event)} {d : Dispatcher}

def Dispatcher.Reads (d : Dispatcher) (elf : ElfReader) : Prop :=
  ∃ pc, d.elfReader = elf.setProgramCounter pc

theorem reads_allocate (h : Host) (r : Rail) (elf : ElfReader) (pc : BitVec 32) (c : CodeCache)
    (a : DWord) (n : ℕ) :
    ∃ pc', (allocate h r (elf.setProgramCounter pc) c a n).1 = elf.setProgramCounter pc' := by
  rw [allocate]
  split
  · obtain ⟨⟨pc', hpc'⟩, -⟩ := allocateTrace_spec h r (elf.setProgramCounter pc) c a n
    exact ⟨pc', hpc'⟩
  · obtain ⟨_, _, _, _, -, ⟨pc', hpc'⟩, -⟩ := allocateBB_walk h r (elf.setProgramCounter pc) c a
    exact ⟨pc', hpc'⟩

theorem memory_allocate (h : Host) (r : Rail) (elf : ElfReader) (c : CodeCache) (a : DWord) (n : ℕ) :
    c.memory <+: (allocate h r elf c a n).2.memory := by
  rw [allocate]
  split
  · exact (allocateTrace_spec h r elf c a n).2.memory
  · obtain ⟨_, _, _, _, -, -, hmain, hpre, -⟩ := allocateBB_walk h r elf c a
    exact hmain.memory.trans hpre.memory

theorem currentBB_allocate (h : Host) (r : Rail) (elf : ElfReader) (c : CodeCache) (a : DWord)
    (n : ℕ) : (allocate h r elf c a n).2.currentBB = (asInt a).setWidth 32 := by
  rw [allocate]
  split
  · obtain ⟨_, _, _, -, -, -, -, -, -, -, -, hcurrent⟩ := allocateTrace_walk h r elf c a n
    exact hcurrent
  · obtain ⟨_, _, _, _, -, -, hmain, hpre, -⟩ := allocateBB_walk h r elf c a
    rw [hpre.currentBB, hmain.currentBB]
    rfl

theorem Dispatcher.Reads.readerBehind (hd : d.Reads elf) (a : DWord) :
    ∃ pc, d.readerBehind h a = elf.setProgramCounter pc := by
  obtain ⟨pc, hpc⟩ := hd
  obtain ⟨pc', hpc'⟩ := elfReader_lastInst h d.lookedUp d.current a
  refine ⟨pc', hpc'.trans ?_⟩
  show d.elfReader.setProgramCounter pc' = _
  rw [hpc]
  rfl

theorem Dispatcher.Reads.stub {io : IoRequest → DWord} {f : TrapFrame} {taken a : DWord}
    {res : Resume} {s : Successor} {next : RailBasicBlock} (hd : d.Reads elf)
    (hst : StubStep h r cb io d f taken a res s next) : res.dispatcher.Reads elf := by
  obtain ⟨pc, hpc⟩ := hd.readerBehind (h := h) a
  obtain ⟨hcache, hreader, -, -⟩ := before_allocateNext hst.leave
  have helf : res.dispatcher.elfReader = (allocateNext h r
      (callPost r cb s (d.left h a).inst).dispatcher s.nextBlockAddr).elfReader := by
    rw [hst.dispatcher, callPre_fst]
    rfl
  rw [Dispatcher.Reads, helf]
  rcases hb : d.lookedUp.cache.railBasicBlocks s.nextBlockAddr with _ | b
  · rw [allocateNext_of_none (by rw [hcache, hb]), hreader, hpc]
    exact reads_allocate h r elf pc _ _ _
  · rw [allocateNext_of_some (by rw [hcache, hb]), hreader]
    exact ⟨pc, hpc⟩

theorem reads_init (f : TrapFrame) :
    (init h r cb (rootDispatcher h elf cfgGenerator) f).dispatcher.Reads elf := by
  obtain ⟨next, -, hinit⟩ := @init_dispatcher h r cb elf f cfgGenerator
  rw [hinit]
  exact reads_allocate h r elf (elf.entry.setWidth 32) _ _ _

theorem Dispatcher.Reads.step (hd : d.Reads elf) {e : Event} {d' : Dispatcher}
    (hstep : (dispatch h r cb elf cfgGenerator).step d e = some d') : d'.Reads elf := by
  cases e with
  | instrument f =>
      obtain rfl := Option.some.inj hstep
      rw [Dispatcher.Reads, instrument_dispatcher]
      exact hd
  | call io f taken a =>
      obtain ⟨res, hstub, rfl⟩ := Option.map_eq_some_iff.mp hstep
      obtain ⟨s, next, hst⟩ := stub_step (StubOutcome.eq_returned hstub)
      exact hd.stub hst

theorem memory_le_of_step {e : Event} {d' : Dispatcher}
    (hstep : (dispatch h r cb elf cfgGenerator).step d e = some d') :
    d.cache.memory.length ≤ d'.cache.memory.length := by
  cases e with
  | instrument f =>
      obtain rfl := Option.some.inj hstep
      rw [instrument_dispatcher]
      exact (congrArg List.length (memory_lookup _ _)).ge
  | call io f taken a =>
      obtain ⟨res, hstub, rfl⟩ := Option.map_eq_some_iff.mp hstep
      obtain ⟨s, next, hst⟩ := stub_step (StubOutcome.eq_returned hstub)
      have hlooked : d.lookedUp.cache.memory = d.cache.memory := memory_lookup _ _
      rw [hst.memory_length, allocateNext_cache hst.leave, ← hlooked]
      split
      · exact (memory_allocate h r _ _ _ _).length_le
      · exact le_rfl

/-- What holds of every record the allocators make, for the text of `elf`. -/
structure RecordRule (h : Host) (r : Rail) (elf : ElfReader)
    (P : DWord → RailBasicBlock → Prop) : Prop where
  empty : ∀ x, P x .empty
  renamed : ∀ {x : DWord} {b : RailBasicBlock} (bb : DWord), P x b → b.type = .segmented →
    P x { b with basicBlockAddress := bb }
  allocated : ∀ {pc : BitVec 32} {c : CodeCache} {a : DWord} {n : ℕ} {x : DWord}
    {b : RailBasicBlock},
    (allocate h r (elf.setProgramCounter pc) c a n).2.railBasicBlocks x = some b →
      c.railBasicBlocks x = some b ∨ P x b

theorem lookedUp_record {x : DWord} {b : RailBasicBlock}
    (hb : d.lookedUp.cache.railBasicBlocks x = some b) :
    d.cache.railBasicBlocks x = some b ∨ b = .empty :=
  lookup_record hb

theorem RecordRule.step {P : DWord → RailBasicBlock → Prop} (hP : RecordRule h r elf P)
    (hd : d.Reads elf) (hall : ∀ x b, d.cache.railBasicBlocks x = some b → P x b) {e : Event}
    {d' : Dispatcher} (hstep : (dispatch h r cb elf cfgGenerator).step d e = some d') :
    d'.Reads elf ∧ ∀ x b, d'.cache.railBasicBlocks x = some b → P x b := by
  have hlooked (x : DWord) (b : RailBasicBlock) (hb : d.lookedUp.cache.railBasicBlocks x = some b) :
      P x b := by
    rcases lookedUp_record hb with hb | rfl
    · exact hall x b hb
    · exact hP.empty x
  refine ⟨hd.step hstep, ?_⟩
  cases e with
  | instrument f =>
      obtain rfl := Option.some.inj hstep
      rw [instrument_dispatcher]
      exact hlooked
  | call io f taken a =>
      obtain ⟨res, hstub, rfl⟩ := Option.map_eq_some_iff.mp hstep
      obtain ⟨s, next, hst⟩ := stub_step (StubOutcome.eq_returned hstub)
      obtain ⟨pc, hpc⟩ := hd.readerBehind (h := h) a
      refine hst.records hP.renamed hlooked fun _ x b hb => ?_
      rw [hpc] at hb
      exact hP.allocated hb

theorem RecordRule.start {P : DWord → RailBasicBlock → Prop} (hP : RecordRule h r elf P)
    (f : TrapFrame) {x : DWord} {b : RailBasicBlock}
    (hb : (init h r cb (rootDispatcher h elf cfgGenerator) f).dispatcher.cache.railBasicBlocks x =
      some b) : P x b := by
  obtain ⟨next, -, hinit⟩ := @init_dispatcher h r cb elf f cfgGenerator
  rw [hinit] at hb
  rcases lookup_record hb with hb | rfl
  · refine (@hP.allocated (elf.entry.setWidth 32) _ _ _ _ _ hb).elim (fun hroot => ?_) id
    cases hroot
  · exact hP.empty x

/-- What the allocators establish and renaming keeps holds of all records. -/
theorem RecordRule.run {P : DWord → RailBasicBlock → Prop} (hP : RecordRule h r elf P)
    (hrun : Run (dispatch h r cb elf cfgGenerator) ok l d) :
    d.Reads elf ∧ ∀ x b, d.cache.railBasicBlocks x = some b → P x b := by
  refine hrun.invariant (I := fun d => d.Reads elf ∧
    ∀ x b, d.cache.railBasicBlocks x = some b → P x b) ?_ ?_
  · rintro d ⟨f, rfl⟩
    exact ⟨reads_init f, fun x b => hP.start f⟩
  · intro d e d' ⟨hd, hall⟩ _ hstep
    exact hP.step hd hall hstep

end Run

/-! ### Concrete runs -/

def started (r : Rail) (elf : ElfReader) : Dispatcher :=
  (init requestedHost r idleCallbacks (rootDispatcher requestedHost elf none) fun _ => 0).dispatcher

def leaving (taken a : DWord) : Event := .call (fun _ => 0) (fun _ => 0) taken a

def exitFrame : TrapFrame := fun i => if i = 17 then SystemCall.exit else 0

theorem run_started (r : Rail) (elf : ElfReader) (ok : Dispatcher → Event → Prop) :
    Run (dispatch requestedHost r idleCallbacks elf none) ok [] (started r elf) :=
  .start ⟨fun _ => 0, rfl⟩

end RailTranslator
