import RailTranslator.Dispatcher

/-!
What the functions of the dispatcher do to the cache.

Callbacks see the cache through the records they are handed, but they cannot
change it, so `lastInst`, `successor` and the loops over routines leave it
alone. What remains of a call of `stub` that returns is said once, by
`stub_cases`: the successor is translated if it has no block, the exit is
linked, the successor becomes the current block.
-/

namespace RailTranslator

open Rv64

/-! ### Callbacks -/

theorem callInst_fst {cb : Callbacks} (p : InstRoutine → Bool) (inst : RvInst) (d : Dispatcher)
    (f : TrapFrame) (routines : List InstRoutine) :
    (Dispatcher.callInst cb p inst d f routines).1 =
      { d with calls := d.calls ++
          (routines.filter p).map fun routine => .inst routine.func inst } := by
  rw [Dispatcher.callInst]
  generalize routines.filter p = rs
  induction rs generalizing d f with
  | nil => simp
  | cons routine rs ih =>
      rw [List.foldl_cons, ih, List.map_cons]
      simp

theorem callBB_fst {cb : Callbacks} (p : BBRoutine → Bool) (b : RailBasicBlock) (d : Dispatcher)
    (f : TrapFrame) (routines : List BBRoutine) : (Dispatcher.callBB cb p b d f routines).1 =
      { d with calls := d.calls ++ (routines.filter p).map fun routine => .bb routine.func b } := by
  rw [Dispatcher.callBB]
  generalize routines.filter p = rs
  induction rs generalizing d f with
  | nil => simp
  | cons routine rs ih =>
      rw [List.foldl_cons, ih, List.map_cons]
      simp

/-- Nothing but the log of calls and the control flow graph has changed. -/
structure SameCache (d d' : Dispatcher) : Prop where
  cache : d'.cache = d.cache
  elfReader : d'.elfReader = d.elfReader

namespace SameCache

variable {d d' d'' : Dispatcher}

theorem refl (d : Dispatcher) : SameCache d d := ⟨rfl, rfl⟩

theorem trans (h : SameCache d d') (h' : SameCache d' d'') : SameCache d d'' :=
  ⟨h'.cache.trans h.cache, h'.elfReader.trans h.elfReader⟩

theorem addEdge (d : Dispatcher) (node1 node2 : String) : SameCache d (d.addEdge node1 node2) :=
  ⟨rfl, rfl⟩

theorem callInst (cb : Callbacks) (p : InstRoutine → Bool) (inst : RvInst) (d : Dispatcher)
    (f : TrapFrame) (routines : List InstRoutine) :
    SameCache d (Dispatcher.callInst cb p inst d f routines).1 := by
  rw [callInst_fst]
  exact ⟨rfl, rfl⟩

theorem callBB (cb : Callbacks) (p : BBRoutine → Bool) (railBB : RailBasicBlock) (d : Dispatcher)
    (f : TrapFrame) (routines : List BBRoutine) :
    SameCache d (Dispatcher.callBB cb p railBB d f routines).1 := by
  rw [callBB_fst]
  exact ⟨rfl, rfl⟩

theorem callPre (h : Host) (r : Rail) (cb : Callbacks) (bounded : Bool) (d : Dispatcher)
    (f : TrapFrame) (next : RailBasicBlock) :
    SameCache d (RailTranslator.callPre h r cb bounded d f next).1 := by
  simp only [RailTranslator.callPre]
  split_ifs
  · exact (callBB _ _ _ _ _ _).trans (callInst _ _ _ _ _ _)
  · exact callInst _ _ _ _ _ _
  · exact .refl d

theorem callPost (r : Rail) (cb : Callbacks) (s : Successor) (inst : RvInst) :
    SameCache s.dispatcher (RailTranslator.callPost r cb s inst).dispatcher := by
  simp only [RailTranslator.callPost]
  split_ifs
  · exact (((callBB _ _ _ _ _ _).trans (callInst _ _ _ _ _ _)).trans
      (callInst _ _ _ _ _ _)).trans (callInst _ _ _ _ _ _)
  · exact ((callInst _ _ _ _ _ _).trans (callInst _ _ _ _ _ _)).trans (callInst _ _ _ _ _ _)
  · exact ((callBB _ _ _ _ _ _).trans (callInst _ _ _ _ _ _)).trans (callInst _ _ _ _ _ _)
  · exact (callInst _ _ _ _ _ _).trans (callInst _ _ _ _ _ _)
  · exact .refl _

end SameCache

theorem callPost_successor (r : Rail) (cb : Callbacks) (s : Successor) (inst : RvInst) :
    (callPost r cb s inst).current = s.current ∧
      (callPost r cb s inst).nextBlockAddr = s.nextBlockAddr ∧
      (callPost r cb s inst).shouldNotExecLast = s.shouldNotExecLast := by
  simp only [callPost]
  split_ifs <;> exact ⟨rfl, rfl, rfl⟩

/-! ### The frame and the routines -/

def Rail.HasInst (r : Rail) (routine : InstRoutine) : Prop :=
  routine ∈ r.instructionRoutinesPre ∨ routine ∈ r.instructionRoutinesPost ∨
    ∃ t, routine ∈ r.instructionRoutinesTypedPre t ∨ routine ∈ r.instructionRoutinesTypedPost t

def Rail.HasBB (r : Rail) (routine : BBRoutine) : Prop :=
  routine ∈ r.basicBlockRoutinesPre ∨ routine ∈ r.basicBlockRoutinesPost

inductive RoutinesCalled (r : Rail) (cb : Callbacks) (f : TrapFrame) : TrapFrame → Prop
  | none : RoutinesCalled r cb f f
  | inst {f' : TrapFrame} {routine : InstRoutine} (hcalled : RoutinesCalled r cb f f')
      (hreg : r.HasInst routine) (inst : RvInst) :
      RoutinesCalled r cb f (cb.inst routine.func inst f')
  | bb {f' : TrapFrame} {routine : BBRoutine} (hcalled : RoutinesCalled r cb f f')
      (hreg : r.HasBB routine) (railBB : RailBasicBlock) :
      RoutinesCalled r cb f (cb.bb routine.func railBB f')

namespace RoutinesCalled

variable {r : Rail} {cb : Callbacks} {f f' : TrapFrame}

theorem callInst (hcalled : RoutinesCalled r cb f f') {routines : List InstRoutine}
    (hreg : ∀ routine ∈ routines, r.HasInst routine) (p : InstRoutine → Bool) (inst : RvInst)
    (d : Dispatcher) : RoutinesCalled r cb f (Dispatcher.callInst cb p inst d f' routines).2 := by
  have hfiltered : ∀ routine ∈ routines.filter p, r.HasInst routine := fun routine hmem =>
    hreg routine (List.mem_of_mem_filter hmem)
  rw [Dispatcher.callInst]
  generalize routines.filter p = rs at hfiltered
  induction rs generalizing d f' with
  | nil => exact hcalled
  | cons routine rs ih =>
      rw [List.foldl_cons]
      exact ih (hcalled.inst (hfiltered routine List.mem_cons_self) inst) _ fun x hx =>
        hfiltered x (List.mem_cons_of_mem _ hx)

theorem callBB (hcalled : RoutinesCalled r cb f f') {routines : List BBRoutine}
    (hreg : ∀ routine ∈ routines, r.HasBB routine) (p : BBRoutine → Bool) (b : RailBasicBlock)
    (d : Dispatcher) : RoutinesCalled r cb f (Dispatcher.callBB cb p b d f' routines).2 := by
  have hfiltered : ∀ routine ∈ routines.filter p, r.HasBB routine := fun routine hmem =>
    hreg routine (List.mem_of_mem_filter hmem)
  rw [Dispatcher.callBB]
  generalize routines.filter p = rs at hfiltered
  induction rs generalizing d f' with
  | nil => exact hcalled
  | cons routine rs ih =>
      rw [List.foldl_cons]
      exact ih (hcalled.bb (hfiltered routine List.mem_cons_self) b) _ fun x hx =>
        hfiltered x (List.mem_cons_of_mem _ hx)

theorem callPost {s : Successor} (hcalled : RoutinesCalled r cb f s.frame) (inst : RvInst) :
    RoutinesCalled r cb f (RailTranslator.callPost r cb s inst).frame := by
  have hbb : ∀ routine ∈ r.basicBlockRoutinesPost, r.HasBB routine := fun _ hmem => .inr hmem
  have hinst : ∀ routine ∈ r.instructionRoutinesPost, r.HasInst routine := fun _ hmem =>
    .inr (.inl hmem)
  have htyped (t : InstType) : ∀ routine ∈ r.instructionRoutinesTypedPost t, r.HasInst routine :=
    fun _ hmem => .inr (.inr ⟨t, .inr hmem⟩)
  simp only [RailTranslator.callPost]
  split_ifs
  · exact (((hcalled.callBB hbb _ _ _).callInst hinst _ _ _).callInst (htyped _) _ _ _).callInst
      (htyped _) _ _ _
  · exact ((hcalled.callInst hinst _ _ _).callInst (htyped _) _ _ _).callInst (htyped _) _ _ _
  · exact ((hcalled.callBB hbb _ _ _).callInst hinst _ _ _).callInst (htyped _) _ _ _
  · exact (hcalled.callInst hinst _ _ _).callInst (htyped _) _ _ _
  · exact hcalled

theorem callPre (hcalled : RoutinesCalled r cb f f') (h : Host) (bounded : Bool) (d : Dispatcher)
    (next : RailBasicBlock) :
    RoutinesCalled r cb f (RailTranslator.callPre h r cb bounded d f' next).2 := by
  have hbb : ∀ routine ∈ r.basicBlockRoutinesPre, r.HasBB routine := fun _ hmem => .inl hmem
  have hinst : ∀ routine ∈ r.instructionRoutinesPre, r.HasInst routine := fun _ hmem => .inl hmem
  simp only [RailTranslator.callPre]
  split_ifs
  · exact (hcalled.callBB hbb _ _ _).callInst hinst _ _ _
  · exact hcalled.callInst hinst _ _ _
  · exact hcalled

theorem eq_of_noCallbacks (hcalled : RoutinesCalled r cb f f') (hr : r.NoCallbacks) : f' = f := by
  induction hcalled with
  | none => rfl
  | inst _ hreg =>
      simp only [Rail.HasInst, hr.instPre, hr.instPost, hr.typedPre, hr.typedPost,
        List.not_mem_nil, or_self, exists_false] at hreg
  | bb _ hreg =>
      simp only [Rail.HasBB, hr.bbPre, hr.bbPost, List.not_mem_nil, or_self] at hreg

end RoutinesCalled

/-! ### What has been left, and the successor -/

theorem cache_lastInst (h : Host) (d : Dispatcher) (current : RailBasicBlock) (a : DWord) :
    (lastInst h d current a).2.cache = d.cache := by
  rw [lastInst]
  split_ifs <;> rfl

theorem calls_lastInst (h : Host) (d : Dispatcher) (current : RailBasicBlock) (a : DWord) :
    (lastInst h d current a).2.calls = d.calls ∧
      (lastInst h d current a).2.cfgGenerator = d.cfgGenerator := by
  rw [lastInst]
  split_ifs <;> exact ⟨rfl, rfl⟩

theorem elfReader_lastInst (h : Host) (d : Dispatcher) (current : RailBasicBlock) (a : DWord) :
    ∃ pc, (lastInst h d current a).2.elfReader = d.elfReader.setProgramCounter pc := by
  rw [lastInst]
  split_ifs
  · exact ⟨_, rfl⟩
  · exact ⟨d.elfReader.programCounter, rfl⟩

theorem SameCache.successor {r : Rail} {cb : Callbacks} {io : IoRequest → DWord} {d : Dispatcher}
    {f : TrapFrame} {current : RailBasicBlock} {last : LastInst} {taken : DWord} {s : Successor}
    (hs : RailTranslator.successor r cb io d f current last taken = .returned s) :
    SameCache d s.dispatcher := by
  obtain ⟨inst, exitType⟩ := last
  cases exitType with
  | directBranch =>
      simp only [RailTranslator.successor] at hs
      split_ifs at hs <;> cases hs <;> exact .addEdge _ _ _
  | indirectBranch => cases hs; exact .addEdge _ _ _
  | segmented => cases hs; exact .addEdge _ _ _
  | functionCall => cases hs; exact .refl d
  | functionReturn => cases hs; exact .refl d
  | syscall =>
      have hpre := SameCache.callInst cb (·.coversInt inst.address) inst d f
        (r.instructionRoutinesTypedPre .systemType)
      simp only [RailTranslator.successor] at hs
      split at hs
      · cases hs
      all_goals
        cases hs
        exact hpre.trans ((SameCache.callInst _ _ _ _ _ _).trans (.addEdge _ _ _))

namespace Dispatcher

def current (d : Dispatcher) : RailBasicBlock := (d.cache.lookup (d.cache.currentBB.setWidth 64)).1

def lookedUp (d : Dispatcher) : Dispatcher :=
  { d with cache := (d.cache.lookup (d.cache.currentBB.setWidth 64)).2 }

/-- The instruction `stub` believes has been left. -/
def left (h : Host) (d : Dispatcher) (a : DWord) : LastInst := (lastInst h d.lookedUp d.current a).1

end Dispatcher

theorem SameCache.instrument (h : Host) (r : Rail) (cb : Callbacks) (d : Dispatcher)
    (f : TrapFrame) : SameCache d.lookedUp (RailTranslator.instrument h r cb d f).dispatcher := by
  simp only [RailTranslator.instrument]
  split_ifs
  · exact (callInst _ _ _ d.lookedUp _ _).trans (callInst _ _ _ _ _ _)
  · exact callInst _ _ _ d.lookedUp _ _

/-! ### The whole call -/

def StubOutcome.toOption {α : Type} : StubOutcome α → Option α
  | .returned a => some a
  | .exited _ => none

theorem StubOutcome.eq_returned {α : Type} {o : StubOutcome α} {a : α}
    (h : o.toOption = some a) : o = .returned a := by
  cases o with
  | returned b => exact congrArg _ (Option.some.inj h)
  | exited => cases h

theorem exits_lookup (c : CodeCache) (a : DWord) : (c.lookup a).2.exits = c.exits := by
  rw [CodeCache.lookup]
  split <;> rfl

theorem memory_lookup (c : CodeCache) (a : DWord) : (c.lookup a).2.memory = c.memory := by
  rw [CodeCache.lookup]
  split <;> rfl

theorem railBasicBlocks_lookup {c : CodeCache} {x : DWord} {b : RailBasicBlock}
    (hb : c.railBasicBlocks x = some b) (a : DWord) :
    (c.lookup a).2.railBasicBlocks x = some b := by
  rw [CodeCache.lookup]
  split
  · exact hb
  · rename_i hnone
    have hne : x ≠ a := by
      rintro rfl
      rw [hnone] at hb
      cases hb
    rw [CodeCache.railBasicBlocks_insertAt, Function.update_of_ne hne, hb]

theorem allocateNext_of_some {h : Host} {r : Rail} {d : Dispatcher} {a : DWord}
    {b : RailBasicBlock} (hb : d.cache.railBasicBlocks a = some b) : allocateNext h r d a = d := by
  rw [allocateNext, hb]
  rfl

/-- The record of a segment is copied, with the address of the block it continues. -/
def CodeCache.renameSegment (c : CodeCache) (a : DWord) (next : RailBasicBlock)
    (basicBlockAddress : DWord) : CodeCache :=
  if next.type = .segmented then
    c.insertAt a { next with basicBlockAddress := basicBlockAddress }
  else c

section Link

variable {r : Rail} {c : CodeCache}

theorem memory_renameSegment (c : CodeCache) (a : DWord) (next : RailBasicBlock) (b : DWord) :
    (c.renameSegment a next b).memory = c.memory := by
  rw [CodeCache.renameSegment]
  split <;> rfl

theorem exits_renameSegment (c : CodeCache) (a : DWord) (next : RailBasicBlock) (b : DWord) :
    (c.renameSegment a next b).exits = c.exits := by
  rw [CodeCache.renameSegment]
  split <;> rfl

theorem length_linkExit (exitType : BasicBlockType) (a : DWord) (next : RailBasicBlock)
    (taken : DWord) : (linkExit r c exitType a next taken).memory.length = c.memory.length := by
  rw [linkExit]
  split
  · split
    · rw [link, CodeCache.patch, CodeCache.patch, List.length_set, List.length_set]
    · rfl
  · rfl

theorem exits_linkExit (exitType : BasicBlockType) (a : DWord) (next : RailBasicBlock)
    (taken : DWord) : (linkExit r c exitType a next taken).exits = c.exits := by
  rw [linkExit]
  split
  · split <;> rfl
  · rfl

theorem railBasicBlocks_linkExit (exitType : BasicBlockType) (a : DWord) (next : RailBasicBlock)
    (taken : DWord) :
    (linkExit r c exitType a next taken).railBasicBlocks = c.railBasicBlocks := by
  rw [linkExit]
  split
  · split <;> rfl
  · rfl

end Link

/-- How a call of `stub` that returns goes: the successor is `s`, `d'` is the
dispatcher that looks for its block, which is `next` in the end. -/
structure StubReturns (h : Host) (r : Rail) (cb : Callbacks) (io : IoRequest → DWord)
    (d : Dispatcher) (f : TrapFrame) (taken a : DWord) (res : Resume)
    (s : Successor) (d' : Dispatcher) (next : RailBasicBlock) : Prop where
  successor : ∃ d₀, RailTranslator.successor r cb io d₀ f d.current (d.left h a) taken = .returned s
  cache : d'.cache = d.lookedUp.cache
  elfReader : ∃ pc, d'.elfReader = d.elfReader.setProgramCounter pc
  registered : (allocateNext h r d' s.nextBlockAddr).cache.railBasicBlocks s.nextBlockAddr = some next
  firstAddr : next.firstAddr ≠ 0
  cache_res : res.dispatcher.cache = ((linkExit r (allocateNext h r d' s.nextBlockAddr).cache
    (d.left h a).exitType a next taken).renameSegment s.nextBlockAddr next
      s.current.basicBlockAddress).setCurrentBB next.firstAddr
  elfReader_res : res.dispatcher.elfReader = (allocateNext h r d' s.nextBlockAddr).elfReader
  returnVal : res.returnVal =
    if s.shouldNotExecLast then next.startLocationInCache else next.startLocationInCache - 4
  frame : r.NoCallbacks → res.frame = s.frame

theorem stub_of_returned {h : Host} {r : Rail} {cb : Callbacks} {io : IoRequest → DWord}
    {d : Dispatcher} {f : TrapFrame} {taken a : DWord} {s : Successor}
    (hs : successor r cb io (lastInst h d.lookedUp d.current a).2 f d.current (d.left h a) taken =
      .returned s) :
    stub h r cb io d f taken a = enterNext h r cb (callPost r cb s (d.left h a).inst)
      (d.left h a).exitType taken a := by
  simp only [Dispatcher.lookedUp, Dispatcher.current, Dispatcher.left] at hs ⊢
  simp only [stub, hs]

theorem stub_of_exited {h : Host} {r : Rail} {cb : Callbacks} {io : IoRequest → DWord}
    {d d' : Dispatcher} {f : TrapFrame} {taken a : DWord}
    (hs : successor r cb io (lastInst h d.lookedUp d.current a).2 f d.current (d.left h a) taken =
      .exited d') : stub h r cb io d f taken a = .exited d' := by
  simp only [Dispatcher.lookedUp, Dispatcher.current, Dispatcher.left] at hs
  simp only [stub, hs]

def Dispatcher.leave (h : Host) (r : Rail) (cb : Callbacks) (io : IoRequest → DWord)
    (d : Dispatcher) (f : TrapFrame) (taken a : DWord) : StubOutcome Successor :=
  successor r cb io (lastInst h d.lookedUp d.current a).2 f d.current (d.left h a) taken

def beforePre (h : Host) (r : Rail) (cb : Callbacks) (s : Successor) (last : LastInst)
    (taken a : DWord) (next : RailBasicBlock) : Dispatcher :=
  let d := allocateNext h r (callPost r cb s last.inst).dispatcher s.nextBlockAddr
  let cache := linkExit r d.cache last.exitType a next taken
  { d with cache := cache.renameSegment s.nextBlockAddr next s.current.basicBlockAddress }

/-- A call of `stub` that returns: the successor is `s`, and its block is
`next` when it is looked up. -/
structure StubStep (h : Host) (r : Rail) (cb : Callbacks) (io : IoRequest → DWord)
    (d : Dispatcher) (f : TrapFrame) (taken a : DWord) (res : Resume) (s : Successor)
    (next : RailBasicBlock) : Prop where
  leave : d.leave h r cb io f taken a = .returned s
  registered : (allocateNext h r (callPost r cb s (d.left h a).inst).dispatcher
    s.nextBlockAddr).cache.railBasicBlocks s.nextBlockAddr = some next
  firstAddr : next.firstAddr ≠ 0
  dispatcher : res.dispatcher =
    let d' := (callPre h r cb false (beforePre h r cb s (d.left h a) taken a next)
      (callPost r cb s (d.left h a).inst).frame next).1
    { d' with cache := d'.cache.setCurrentBB next.firstAddr }

theorem stub_enters {h : Host} {r : Rail} {cb : Callbacks} {io : IoRequest → DWord}
    {d : Dispatcher} {f : TrapFrame} {taken a : DWord} {res : Resume}
    (hs : stub h r cb io d f taken a = .returned res) :
    ∃ s next, StubStep h r cb io d f taken a res s next ∧
      res.frame = (callPre h r cb false (beforePre h r cb s (d.left h a) taken a next)
        (callPost r cb s (d.left h a).inst).frame next).2 ∧
      res.returnVal = if s.shouldNotExecLast then next.startLocationInCache
        else next.startLocationInCache - 4 := by
  rcases hleave : d.leave h r cb io f taken a with s | d'
  · rw [stub_of_returned hleave] at hs
    obtain ⟨hcur, haddr, hexec⟩ := callPost_successor r cb s (d.left h a).inst
    simp only [enterNext, haddr, hcur, hexec] at hs
    rcases hnext : (allocateNext h r (callPost r cb s (d.left h a).inst).dispatcher
        s.nextBlockAddr).cache.railBasicBlocks s.nextBlockAddr with _ | next
    · simp only [CodeCache.lookup, hnext, RailBasicBlock.empty, if_true] at hs
      cases hs
    · rw [CodeCache.lookup_of_some hnext] at hs
      by_cases hzero : next.firstAddr = 0
      · simp only [hzero, if_true] at hs
        cases hs
      · simp only [hzero, if_false] at hs
        cases hs
        exact ⟨s, next, ⟨hleave, hnext, hzero, rfl⟩, rfl, rfl⟩
  · rw [stub_of_exited hleave] at hs
    cases hs

theorem stub_returns {h : Host} {r : Rail} {cb : Callbacks} {io : IoRequest → DWord}
    {d : Dispatcher} {f : TrapFrame} {taken a : DWord} {s : Successor} {next : RailBasicBlock}
    (hleave : d.leave h r cb io f taken a = .returned s)
    (hnext : (allocateNext h r (callPost r cb s (d.left h a).inst).dispatcher
      s.nextBlockAddr).cache.railBasicBlocks s.nextBlockAddr = some next)
    (hfirst : next.firstAddr ≠ 0) : ∃ res, stub h r cb io d f taken a = .returned res := by
  obtain ⟨-, haddr, -⟩ := callPost_successor r cb s (d.left h a).inst
  rw [stub_of_returned hleave]
  simp only [enterNext, haddr, CodeCache.lookup_of_some hnext, hfirst, if_false]
  exact ⟨_, rfl⟩

theorem stub_cases {h : Host} {r : Rail} {cb : Callbacks} {io : IoRequest → DWord}
    {d : Dispatcher} {f : TrapFrame} {taken a : DWord} {res : Resume}
    (hs : stub h r cb io d f taken a = .returned res) :
    ∃ s d' next, StubReturns h r cb io d f taken a res s d' next := by
  obtain ⟨s, next, hst, hframe, hreturn⟩ := stub_enters hs
  have hsame := (SameCache.successor hst.leave).trans
    (SameCache.callPost r cb s (d.left h a).inst)
  have hpre := SameCache.callPre h r cb false (beforePre h r cb s (d.left h a) taken a next)
    (callPost r cb s (d.left h a).inst).frame next
  obtain ⟨pc, hpc⟩ := elfReader_lastInst h d.lookedUp d.current a
  refine ⟨s, (callPost r cb s (d.left h a).inst).dispatcher, next, ?_⟩
  exact {
    successor := ⟨_, hst.leave⟩
    cache := hsame.cache.trans (cache_lastInst _ _ _ _)
    elfReader := ⟨pc, hsame.elfReader.trans hpc⟩
    registered := hst.registered
    firstAddr := hst.firstAddr
    cache_res := by
      rw [hst.dispatcher]
      exact congrArg (·.setCurrentBB next.firstAddr) hpre.cache
    elfReader_res := by
      rw [hst.dispatcher]
      exact hpre.elfReader
    returnVal := hreturn
    frame := by
      intro hr
      rw [hframe]
      exact ((RoutinesCalled.none.callPost _).callPre h false _ next).eq_of_noCallbacks hr }

end RailTranslator
