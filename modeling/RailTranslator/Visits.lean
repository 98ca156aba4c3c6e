import RailTranslator.GuestTurns
import RailTranslator.IndirectExits

/-!
A visit to the dispatcher, in the mode without traces.

The block that is current is left; `stub` finds where the guest goes on, and
what its registers are then, in the frame of the context switch. The first part
says so for every instruction that ends a block, the second that the call lands
in the block of the successor, and the third that there is a state in which
`stub` returns.
-/

namespace RailTranslator

open Rv64 Transition

/-! ### Leaving the current block -/

def FrameOf (s : Machine) (f : TrapFrame) : Prop := ∀ i : Reg, i ≠ 0 → i ≠ sp → f i = s.regs i

structure LeavesFor (h : Host) (r : Rail) (cb : Callbacks) (io : IoRequest → DWord)
    (d : Dispatcher) (f : TrapFrame) (taken a : DWord) (s' : Machine) (succ : Successor) :
    Prop where
  leave : d.leave h r cb io f taken a = .returned succ
  next : succ.nextBlockAddr = s'.pc
  frame : FrameOf s' succ.frame
  notLast : succ.shouldNotExecLast = true

/-- The word `w` at an address, as the instruction that has been left. -/
def leftAt (h : Host) (pc : DWord) (w : Word) (type : BasicBlockType) : LastInst :=
  ⟨{ decodeInstruction h.junkInst w with address := pc.setWidth 32 }, type⟩

/-- The block that is current is registered, and the word at `last` ends it. -/
structure EndsAt (elf : ElfReader) (d : Dispatcher) (last : DWord) (type : BasicBlockType) :
    Prop where
  exits : ∀ x, d.cache.exits x = none
  truthful : Truthful elf d.current.firstAddr d.current
  lastAddr : d.current.lastAddr = last
  type : d.current.type = type

section Leave

variable {h : Host} {r : Rail} {cb : Callbacks} {io : IoRequest → DWord} {elf : ElfReader}
  {d : Dispatcher} {f : TrapFrame} {taken a : DWord} {s s' : Machine} {w : Word}

theorem Callbacks.KeepFrame.callInst (hcb : cb.KeepFrame) (p : InstRoutine → Bool)
    (inst : RvInst) (d : Dispatcher) (f : TrapFrame) (routines : List InstRoutine) :
    (Dispatcher.callInst cb p inst d f routines).2 = f := by
  rw [frame_callInst]
  generalize routines.filter p = rs
  induction rs with
  | nil => rfl
  | cons routine rs ih => rw [List.foldl_cons, hcb.inst, ih]

theorem EndsAt.left {type : BasicBlockType} (he : EndsAt elf d s.pc type)
    (hfetch : elf.fetch (s.pc.setWidth 32) = w) (a : DWord) :
    d.left h a = leftAt h s.pc w type := by
  rw [leftAt, left_of_exits he.exits, finalInst, he.type, he.truthful.terminalInst, he.lastAddr, hfetch]

theorem signExtend_behind {x : DWord} (hlow : x.toNat + 4 < 2 ^ 31) :
    (x.setWidth 32 + 4).signExtend 64 = x + 4 := by
  have hfour : (4 : BitVec 32).signExtend 64 = 4 := by decide
  rw [← hfour]
  refine signExtend_add_of_low ?_
  rw [hfour]
  bv_omega

theorem FrameOf.link {rd : Reg} {v x : DWord} (hf : FrameOf s f) (hrd : rd ≠ sp) :
    FrameOf ((s.setReg rd v).goto x) (if rd = 0 then f else f.set rd v) := by
  intro i hi hsp
  rw [Machine.regs_goto, Machine.regs_setReg]
  by_cases hlink : i = rd
  · subst hlink
    rw [if_neg hi, Regs.set_same _ _ hi]
    exact Function.update_self ..
  · rw [Regs.set_of_ne _ _ hlink]
    split
    · exact hf i hi hsp
    · exact (Function.update_of_ne hlink _ _).trans (hf i hi hsp)

/-- The exits of the blocks that are left directly, and the ends of segments. -/
theorem leavesFor_direct (he : EndsAt elf d s.pc .directBranch ∨ EndsAt elf d s.pc .segmented)
    (hlow : s.pc.toNat + 4 < 2 ^ 31)
    (hnext : elf.goesTo s.pc (decide (taken ≠ 0)) = s'.pc) (hlow' : s'.pc.toNat < 2 ^ 31)
    (hf : FrameOf s' (elf.goesWith s.pc f)) :
    ∃ succ, LeavesFor h r cb io d f taken a s' succ := by
  have hlast : d.current.lastAddr = s.pc := by
    rcases he with he | he <;> exact he.lastAddr
  have hexits : ∀ x, d.cache.exits x = none := by
    rcases he with he | he <;> exact he.exits
  have htruthful : Truthful elf d.current.firstAddr d.current := by
    rcases he with he | he <;> exact he.truthful
  have hjal : (s.pc + 4).toNat < 2 ^ 31 := by bv_omega
  obtain ⟨succ, hleave, haddr, hframe, hexec⟩ := @leave_direct h r cb io elf d f taken a d.current
    hexits rfl htruthful (he.imp EndsAt.type EndsAt.type)
    (by rw [hlast, hnext]; exact hlow') (fun _ => by rw [hlast]; exact hjal)
  rw [hlast] at haddr hframe
  exact ⟨succ, hleave, haddr.trans hnext, hframe ▸ hf, hexec⟩

theorem goesTo_eq (hfetch : elf.fetch (s.pc.setWidth 32) = w) (taken : Bool) :
    elf.goesTo s.pc taken = if w.opcode = Opcode.branch then
        s.pc + if taken then w.immB.signExtend 64 else 4
      else if w.opcode = Opcode.jal then s.pc + w.immJ.signExtend 64 else s.pc + 4 := by
  rw [← hfetch]
  rfl

theorem goesWith_eq (hfetch : elf.fetch (s.pc.setWidth 32) = w) (f : TrapFrame) :
    elf.goesWith s.pc f = if w.opcode = Opcode.jal ∧ w.rd ≠ 0 then f.set w.rd (s.pc + 4)
      else f := by
  rw [← hfetch]
  rfl

theorem taken_exitRoutine (w : Word) (s : Machine) :
    decide ((exitRoutine w s).taken ≠ 0) = leavesTaken w s := by
  rw [exitRoutine]
  cases leavesTaken w s <;> decide

theorem exitRoutine_ne (w : Word) (s : Machine) :
    exitRoutine w s ≠ .contextSwitchInstrument := by
  rw [exitRoutine]
  split <;> exact SwitchRoutine.noConfusion

/-- The dispatcher goes on with the guest in state `s'`, from a frame that holds
its registers in state `s`. -/
structure Continues (h : Host) (r : Rail) (cb : Callbacks) (io : IoRequest → DWord)
    (d : Dispatcher) (taken a : DWord) (s s' : Machine) : Prop where
  sp : s'.regs sp = s.regs sp
  mem : s'.mem = s.mem
  leaves : ∀ f, FrameOf s f → ∃ succ, LeavesFor h r cb io d f taken a s' succ

theorem continues_branch {i : Instr} (he : EndsAt elf d s.pc .directBranch)
    (hfetch : elf.fetch (s.pc.setWidth 32) = w) (hop : w.opcode = Opcode.branch)
    (hdec : Instr.decode w = some i) (hlow : s.pc.toNat + 4 < 2 ^ 31)
    (hlow' : (i.exec relocate s).pc.toNat < 2 ^ 31) :
    Continues h r cb io d (exitRoutine w s).taken a s (i.exec relocate s) := by
  cases decoded hdec with
  | @branch _ o =>
      have hexec : (Instr.branch o w.rs1 w.rs2 w.immB).exec relocate s =
          s.goto (s.pc + if leavesTaken w s then w.immB.signExtend 64 else 4) := by
        rw [leavesTaken_branch hop hdec, Instr.exec]
        split <;> rfl
      rw [hexec] at hlow' ⊢
      refine ⟨rfl, rfl, fun f hf => leavesFor_direct (.inl he) hlow ?_ hlow' ?_⟩
      · rw [taken_exitRoutine, goesTo_eq hfetch, if_pos hop]
        rfl
      · have hnot : ¬ (w.opcode = Opcode.jal ∧ w.rd ≠ 0) := by
          rw [hop]
          exact fun hand => absurd hand.1 (by decide)
        rw [goesWith_eq hfetch, if_neg hnot]
        exact hf
  | _ hop' => exact absurd (hop.symm.trans hop') (by decide)

theorem continues_jal (he : EndsAt elf d s.pc .directBranch)
    (hfetch : elf.fetch (s.pc.setWidth 32) = w) (hop : w.opcode = Opcode.jal) (hrd : w.rd ≠ sp)
    (hlow : s.pc.toNat + 4 < 2 ^ 31)
    (hlow' : ((Instr.jal w.rd w.immJ).exec relocate s).pc.toNat < 2 ^ 31) :
    Continues h r cb io d (exitRoutine w s).taken a s
      ((Instr.jal w.rd w.immJ).exec relocate s) := by
  have hnot : w.opcode ≠ Opcode.branch := by rw [hop]; decide
  refine ⟨Regs.set_of_ne _ _ (Ne.symm hrd), rfl, fun f hf =>
    leavesFor_direct (.inl he) hlow ?_ hlow' ?_⟩
  · rw [goesTo_eq hfetch, if_neg hnot, if_pos hop]
    rfl
  · have hlinked := hf.link (v := s.pc + 4) (x := s.pc + w.immJ.signExtend 64) hrd
    rw [goesWith_eq hfetch]
    by_cases h0 : w.rd = 0
    · rw [if_neg fun hand => hand.2 h0]
      rwa [if_pos h0] at hlinked
    · rw [if_pos ⟨hop, h0⟩]
      rwa [if_neg h0] at hlinked

theorem continues_jalr {rd rs1 : Reg} {off : BitVec 12}
    (hleft : d.left h a = leftAt h s.pc w .indirectBranch)
    (hdec : Instr.decode w = some (.jalr rd rs1 off)) (hrd : rd ≠ sp) (hzero : rs1 ≠ 0)
    (hsp : rs1 ≠ sp) (heven : (s.regs rs1 + off.signExtend 64) &&& 1 = 0)
    (hlow : s.pc.toNat + 4 < 2 ^ 31) :
    Continues h r cb io d taken a s ((Instr.jalr rd rs1 off).exec relocate s) := by
  have hbit : (s.regs rs1 + off.signExtend 64) &&& ~~~1#64 = s.regs rs1 + off.signExtend 64 := by
    have heven' : (s.regs rs1 + off.signExtend 64) &&& 1#64 = 0#64 := heven
    rw [and_not_one, heven']
    exact BitVec.sub_zero _
  have hexec : (Instr.jalr rd rs1 off).exec relocate s =
      (s.setReg rd (s.pc + 4)).goto (s.regs rs1 + off.signExtend 64) := by
    rw [Instr.exec, hbit]
  rw [hexec]
  refine ⟨Regs.set_of_ne _ _ (Ne.symm hrd), rfl, fun f hf => ?_⟩
  obtain ⟨succ, hleave, haddr, hframe⟩ :=
    @leave_jalr _ _ _ _ _ hdec r cb io d f taken a s.pc hleft
  rw [signExtend_behind hlow] at hframe
  refine ⟨succ, hleave, ?_, ?_, ?_⟩
  · rw [haddr, hf rs1 hzero hsp]
    rfl
  · rw [hframe]
    exact hf.link hrd
  · rw [Dispatcher.leave, hleft] at hleave
    cases hleave
    rfl

/-- Behind an instruction that a routine has ended the block with, `f` being
already the frame of the state behind it. -/
theorem leavesFor_cut (he : EndsAt elf d s.pc .segmented)
    (hfetch : elf.fetch (s.pc.setWidth 32) = w) (hnot : ¬ IsTerminal w)
    (hlow : s.pc.toNat + 4 < 2 ^ 31) (hpc : s'.pc = s.pc + 4) (hf : FrameOf s' f) :
    ∃ succ, LeavesFor h r cb io d f taken a s' succ := by
  have hbranch : w.opcode ≠ Opcode.branch := fun hop => hnot (.inl hop)
  have hjal : w.opcode ≠ Opcode.jal := fun hop => hnot (.inr (.inl hop))
  refine leavesFor_direct (.inr he) hlow ?_ ?_ ?_
  · rw [goesTo_eq hfetch, if_neg hbranch, if_neg hjal, hpc]
  · rw [hpc]
    bv_omega
  · rw [goesWith_eq hfetch, if_neg fun hand => hjal hand.1]
    exact hf

theorem successor_ecalled (hcb : cb.KeepFrame) {f' : TrapFrame}
    (hsys : handleSyscalls io f = .ecalled f') (d : Dispatcher) (current : RailBasicBlock)
    (inst : RvInst) :
    ∃ succ, successor r cb io d f current ⟨inst, .syscall⟩ taken = .returned succ ∧
      succ.nextBlockAddr = (inst.address + 4).signExtend 64 ∧ succ.frame = f' ∧
      succ.shouldNotExecLast = true := by
  simp only [successor, hcb.callInst, hsys]
  exact ⟨_, rfl, rfl, rfl, rfl⟩

theorem continues_write (hcb : cb.KeepFrame) (hleft : d.left h a = leftAt h s.pc w .syscall)
    (hlow : s.pc.toNat + 4 < 2 ^ 31)
    (hnumber : s.regs 17 = SystemCall.write ∨ s.regs 17 = SystemCall.writev) :
    Continues h r cb io d taken a s (answered io s) := by
  refine ⟨Regs.set_of_ne _ _ (by decide), rfl, fun f hf => ?_⟩
  have hnumber' : f 17 = SystemCall.write ∨ f 17 = SystemCall.writev := by
    rwa [hf 17 (by decide) (by decide)]
  have hsys : handleSyscalls io f =
      .ecalled (f.set a0 (io ⟨true, f a0, f a1 + dataBase, f a2⟩)) := by
    have hnot : ¬ (f 17 = SystemCall.read ∨ f 17 = SystemCall.readv) := by
      rcases hnumber' with h17 | h17 <;> rw [h17] <;> decide
    rw [handleSyscalls]
    simp only [if_neg hnot, if_pos hnumber']
    rfl
  rw [hf a0 (by decide) (by decide), hf a1 (by decide) (by decide),
    hf a2 (by decide) (by decide)] at hsys
  have hanswer := @FrameOf.link _ _ a0
    (io ⟨true, s.regs a0, s.regs a1 + dataBase, s.regs a2⟩) (s.pc + 4) hf (by decide)
  rw [if_neg (by decide)] at hanswer
  obtain ⟨succ, hsucc, haddr, hframe, hexec⟩ := @successor_ecalled r cb io f taken hcb _ hsys
    (lastInst h d.lookedUp d.current a).2 d.current (d.left h a).inst
  refine ⟨succ, ⟨?_, ?_, hframe ▸ hanswer, hexec⟩⟩
  · rw [Dispatcher.leave, ← hsucc, hleft]
    rfl
  · rw [haddr, hleft]
    exact signExtend_behind hlow

theorem leave_of_exit (hcb : cb.KeepFrame) (hleft : d.left h a = leftAt h s.pc w .syscall)
    (hnumber : s.regs 17 = SystemCall.exit ∨ s.regs 17 = SystemCall.exitGroup)
    (hf : FrameOf s f) : ∃ d', d.leave h r cb io f taken a = .exited (exitBinary r d') := by
  have hnumber' : f 17 = SystemCall.exit ∨ f 17 = SystemCall.exitGroup := by
    rwa [hf 17 (by decide) (by decide)]
  have hsys : handleSyscalls io f = .exit := by
    have hread : ¬ (f 17 = SystemCall.read ∨ f 17 = SystemCall.readv) := by
      rcases hnumber' with h17 | h17 <;> rw [h17] <;> decide
    have hwrite : ¬ (f 17 = SystemCall.write ∨ f 17 = SystemCall.writev) := by
      rcases hnumber' with h17 | h17 <;> rw [h17] <;> decide
    rw [handleSyscalls]
    simp only [if_neg hread, if_neg hwrite, if_pos hnumber']
  have hsucc (d₀ : Dispatcher) (current : RailBasicBlock) (inst : RvInst) :
      ∃ d', successor r cb io d₀ f current ⟨inst, .syscall⟩ taken = .exited (exitBinary r d') := by
    simp only [successor, hcb.callInst, hsys]
    exact ⟨_, rfl⟩
  obtain ⟨d', hd'⟩ := hsucc (lastInst h d.lookedUp d.current a).2 d.current (d.left h a).inst
  refine ⟨d', ?_⟩
  rw [Dispatcher.leave, ← hd', hleft]
  rfl

end Leave

/-! ### Landing in a block -/

structure Lands (res : Resume) (x : DWord) : Prop where
  current : res.dispatcher.cache.currentBB.setWidth 64 = x
  entered : ∃ next, res.dispatcher.cache.railBasicBlocks x = some next ∧ next ≠ .empty ∧
    res.returnVal = next.startLocationInCache

section Land

variable {h : Host} {r : Rail} {cb : Callbacks} {io : IoRequest → DWord} {elf : ElfReader}
  {cfgGenerator : Option CfgGenerator} {l : List (Dispatcher × Event)} {d : Dispatcher}
  {f : TrapFrame} {taken a : DWord} {s' : Machine} {succ : Successor} {b : RailBasicBlock}

/-- The call returns to the block that is registered for the successor. -/
theorem lands_of_registered (hcb : cb.KeepFrame) {next : RailBasicBlock}
    (hleaves : LeavesFor h r cb io d f taken a s' succ)
    (hregistered : (allocateNext h r (callPost r cb succ (d.left h a).inst).dispatcher
      succ.nextBlockAddr).cache.railBasicBlocks succ.nextBlockAddr = some next)
    (hfirst : next.firstAddr = s'.pc) (hne : s'.pc ≠ 0) (hlow : s'.pc.toNat < 2 ^ 31) :
    ∃ res, stub h r cb io d f taken a = .returned res ∧ res.frame = succ.frame ∧
      Lands res s'.pc := by
  obtain ⟨res, hres⟩ := stub_returns hleaves.leave hregistered (by rw [hfirst]; exact hne)
  obtain ⟨succ', next', hst, hframe, hreturn⟩ := stub_enters hres
  obtain rfl : succ = succ' := StubOutcome.returned.inj (hleaves.leave.symm.trans hst.leave)
  obtain rfl : next = next' := Option.some.inj (hregistered.symm.trans hst.registered)
  have hrecord := hst.record_next
  rw [hleaves.next] at hrecord
  rw [hleaves.notLast, if_pos rfl] at hreturn
  refine ⟨res, hres, ?_, ?_, _, hrecord, ?_, ?_⟩
  · rw [hframe]
    exact hcb.eq_of_called ((RoutinesCalled.none.callPost _).callPre h false _ next)
  · rw [hst.cache, CodeCache.currentBB_setCurrentBB, hfirst]
    bv_omega
  · -- a record of no block begins at zero
    intro hempty
    apply hne
    rw [← hfirst]
    have hzero := congrArg RailBasicBlock.firstAddr hempty
    split at hzero <;> exact hzero
  · rw [hreturn]
    split <;> rfl

theorem stub_lands (hlink : r.traceLinkingEnabled = false) (hcb : cb.KeepFrame)
    (hrun : Run (dispatch h r cb elf cfgGenerator) Any l d)
    (hb : d.cache.railBasicBlocks (d.cache.currentBB.setWidth 64) = some b)
    (hleaves : LeavesFor h r cb io d f taken a s' succ) (hnext : Enterable r elf s'.pc) :
    ∃ res, stub h r cb io d f taken a = .returned res ∧ res.frame = succ.frame ∧
      Lands res s'.pc := by
  have hexits := exits_run hlink hrun
  have hlookedUp : d.lookedUp.cache = d.cache := by
    rw [Dispatcher.lookedUp, CodeCache.lookup_of_some hb]
  have hint := asInt_of_low hnext.low
  obtain ⟨next, hfound, -, hfirst⟩ := found_guestBlock hlink hrun hnext.low hint hnext.block
  have hcache : (allocateNext h r (callPost r cb succ (d.left h a).inst).dispatcher
      succ.nextBlockAddr).cache =
        if (d.cache.railBasicBlocks s'.pc).isNone then (allocateBB h r d.elfReader d.cache s'.pc).2
        else d.cache := by
    rw [allocateNext_cache hleaves.leave, hlookedUp, readerBehind_of_exits hexits, allocate, hlink,
      hleaves.next]
    rfl
  refine lands_of_registered hcb hleaves ?_ hfirst hnext.ne_zero hnext.low
  rw [hcache, hleaves.next]
  exact hfound

end Land

/-! ### Returning to the cache -/

section Return

variable {h : Host} {depth : ℕ} {k : SwitchRoutine} {D : Set DWord} {s s' c ret : Machine}
  {start : DWord}

/-- A function can return with any registers in the frame and any answer. -/
theorem exists_returned (depth : ℕ) (call : Machine) (f : TrapFrame) (v : DWord) :
    ∃ ret, Returned depth call ret ∧ ret.regs a0 = v ∧
      ∀ i, i ≠ 0 → i ≠ sp → ret.mem.read (frameEntry (call.regs sp) i) 8 = f i := by
  let regs : Regs := ⟨fun i => if i = 0 then 0 else if i = sp then call.regs sp else f i, rfl⟩
  have hsp : regs sp = call.regs sp := rfl
  have hsaved := saved_stores (L := savedRegs.filter (· ≠ sp)) (by decide) { call with regs := regs }
  generalize execs direct { call with regs := regs } _ = ret at hsaved
  obtain ⟨hregs, hread, hframe⟩ := hsaved
  refine ⟨ret.setReg a0 v, ⟨?_, ?_, fun x hx _ => ?_⟩, Regs.set_same _ _ (by decide), ?_⟩
  · exact (Regs.set_of_ne _ _ (by decide)).trans (congrArg (· sp) hregs)
  · have hentry := hread sp (by decide)
    rwa [if_neg (by decide)] at hentry
  · exact hframe x hx
  · intro i hi hisp
    have hentry := hread i hi
    have hmem : i ∈ savedRegs.filter (· ≠ sp) := by
      rw [List.mem_filter]
      exact ⟨mem_savedRegs hi, decide_eq_true hisp⟩
    rw [if_pos hmem] at hentry
    refine hentry.trans ?_
    show (if i = 0 then 0 else if i = sp then call.regs sp else f i) = f i
    rw [if_neg hi, if_neg hisp]

/-- Behind the context switch the block at `start` is about to continue the
guest. -/
theorem entered_of_returned {e : Machine} (hat : AtHandler c e) (hagree : Agree D s c)
    (hdepth : depth + 256 ≤ 2 ^ 64) (hret : Returned depth (atStub k e) ret)
    (hval : ret.regs a0 = start) (heven : start.getLsbD 0 = false)
    (hframe : ∀ i, i ≠ 0 → i ≠ sp →
      ret.mem.read (frameEntry ((atStub k e).regs sp) i) 8 = s'.regs i)
    (hsp : s'.regs sp = s.regs sp) (hmem : s'.mem = s.mem) :
    Entered start (D ∪ stackBelow depth s) s' (execs direct ret restoreContext) := by
  have hcall := atCall_before k hat
  obtain ⟨hsp', hentry⟩ := frame_of_returned hat hret
  obtain ⟨hpc, hmem', hup, ht, hregs⟩ := execs_restoreContext hsp' hentry
  have hframeOf : frameOf c = frameOf s := by rw [frameOf, frameOf, hagree.regs]
  have hslot : slot s' = slot c := by rw [slot, slot, hsp, hagree.regs]
  have hcallSp : (atStub k e).regs sp = frameOf c := hcall.sp
  rw [hcallSp] at hframe
  constructor
  · rw [hpc, hval]
    exact and_not_one_of_even heven
  · intro x hx
    by_cases h0 : x = 0
    · rw [h0, Regs.zero, Regs.zero]
    · by_cases hxsp : x = sp
      · rw [hxsp, hup, hsp, hframeOf, frameOf]
        bv_omega
      · rw [hregs x h0 hxsp hx, hframe x h0 hxsp]
  · rw [hmem', hslot, ← frameEntry_t6, hframe t6 (by decide) (by decide)]
  · intro x hx
    rw [Set.mem_union, not_or] at hx
    have hnot : x ∉ bytes (frameOf s) 256 := fun hin => hx.2 (by
      simp only [stackBelow, mem_bytes] at *
      bv_omega)
    have hbelow : x ∉ bytes (frameOf s - BitVec.ofNat 64 depth) depth := fun hin => hx.2
      (bytes_subset _ (Nat.le_add_right _ _) hin)
    have hkept := hret.mem x
    rw [hcallSp, hframeOf] at hkept
    rw [hmem', hkept (fun hin => hnot (bytes_subset _ (by decide) hin)) hbelow, hmem]
    refine (hcall.mem x ?_).trans (hagree.mem x hx.1)
    rwa [hframeOf]

end Return

end RailTranslator
