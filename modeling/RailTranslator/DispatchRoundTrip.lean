import RailTranslator.Util

/-!
The way from a block into the dispatcher and back.

A block leaves with `inline_save` and enters a context switch with an
arbitrary `t6`; the called function sees the guest's registers in the frame,
may change them, and answers an address; the routine loads the registers and
jumps there, and `restore_scratch`, the first word of a block, completes `t6`.
The guest's stack pointer has moved four times by then.

The states in between are described by what they have to do with the guest
state `s` that was left: `AtHandler` when a routine is entered, `AtCall` when
the function is called, `Returned` when it has returned.
-/

namespace RailTranslator

open Rv64

/-! ### Entering a routine -/

/-- The guest state `s` has been left through `inline_save`; the routine is
entered in state `e`. -/
structure AtHandler (s e : Machine) : Prop where
  regs : ∀ x, x ≠ sp → x ≠ t6 → e.regs x = s.regs x
  sp : e.regs sp = slot s
  saved : e.mem.read (slot s) 8 = s.regs t6
  mem : ∀ x ∉ bytes (slot s) 16, e.mem x = s.mem x

variable {s e : Machine}

theorem bytes_subset (a : DWord) {m n : ℕ} (h : m ≤ n) : bytes a m ⊆ bytes a n :=
  fun _ hx => lt_of_lt_of_le hx h

theorem atHandler_inlineSave (s : Machine) (v : DWord) :
    AtHandler s ((execs direct s (saveInstrs t6)).setReg t6 v) := by
  rw [execs_saveInstrs (by decide)]
  refine ⟨fun x hsp ht => ?_, ?_, Mem.read_write_same _ _ _, fun x hx => ?_⟩
  · exact (Regs.set_of_ne _ _ ht).trans (Regs.set_of_ne _ _ hsp)
  · exact (Regs.set_of_ne _ _ (by decide)).trans (Regs.set_same _ _ (by decide))
  · exact Mem.write_of_not_mem fun hin => hx (bytes_subset _ (by decide) hin)

theorem AtHandler.store (h : AtHandler s e) (v : DWord) :
    AtHandler s (e.setMem (e.mem.write (slot s + 8) 8 v)) := by
  refine ⟨h.regs, h.sp, ?_, fun x hx => ?_⟩
  · refine (Mem.read_write_apart (by decide) (apart_of_le ?_ ?_)).trans h.saved <;> bv_omega
  · refine (Mem.write_of_not_mem fun hin => hx ?_).trans (h.mem x hx)
    simp only [mem_bytes] at *
    bv_omega

theorem AtHandler.setReg (h : AtHandler s e) (v : DWord) : AtHandler s (e.setReg t6 v) :=
  ⟨fun x hsp ht => (Regs.set_of_ne _ _ ht).trans (h.regs x hsp ht),
    (Regs.set_of_ne _ _ (by decide)).trans h.sp, h.saved, h.mem⟩

theorem AtHandler.goto (h : AtHandler s e) (a : DWord) : AtHandler s (e.goto a) :=
  ⟨h.regs, h.sp, h.saved, h.mem⟩

/-! ### Up to the call -/

def frameOf (s : Machine) : DWord := s.regs sp - 256

namespace SwitchRoutine

/-- The routine hands the address of the exit over in `a3`. -/
def IsTrace : SwitchRoutine → Prop
  | contextSwitchTraceExit | contextSwitchTraceExitTaken => True
  | _ => False

instance (k : SwitchRoutine) : Decidable k.IsTrace := by
  cases k <;> unfold IsTrace <;> infer_instance

def taken : SwitchRoutine → DWord
  | contextSwitchTraceExit | contextSwitch => 0
  | _ => 1

end SwitchRoutine

structure AtCall (routine : SwitchRoutine) (s e call : Machine) : Prop where
  sp : call.regs sp = frameOf s
  a0 : call.regs a0 = frameOf s
  a1 : call.regs a1 = routine.taken
  a3 : call.regs a3 = if routine.IsTrace then e.mem.read (slot s + 8) 8 else 0
  frame : ∀ i, i ≠ 0 → i ≠ Rv64.sp → call.mem.read (frameEntry (frameOf s) i) 8 = s.regs i
  frame_sp : call.mem.read (frameEntry (frameOf s) Rv64.sp) 8 = frameOf s
  mem : ∀ x ∉ bytes (frameOf s) 256, call.mem x = s.mem x

/-- The first three instructions undo `inline_save` and make room for the frame. -/
theorem execs_enter (h : AtHandler s e) :
    (execs direct e [.load .ld t6 sp 0, moveSp 16, moveSp (-256)]).regs =
        s.regs.set sp (frameOf s) ∧
      (execs direct e [.load .ld t6 sp 0, moveSp 16, moveSp (-256)]).mem = e.mem := by
  have hoff (a : DWord) : a + (0 : BitVec 12).signExtend 64 = a := by simp
  have hload : (Instr.load .ld t6 sp 0).exec direct e =
      (e.setReg t6 (s.regs t6)).goto (e.pc + 4) := by
    rw [exec_ld, h.sp, hoff, h.saved]
  refine ⟨Regs.eq_of_forall_ne_zero fun x hx => ?_, rfl⟩
  rw [execs_cons, hload]
  simp only [execs_cons, execs_nil, moveSp, Instr.exec, AluOp.eval, Machine.regs_goto,
    Machine.regs_setReg, Machine.setReg_goto, Machine.goto_goto]
  by_cases hsp : x = sp
  · subst hsp
    have hframe : slot s + 16 + -256 = frameOf s := by
      simp only [slot, frameOf]; bv_omega
    rw [Regs.set_same _ _ hx, Regs.set_same _ _ hx, Regs.set_same _ _ hx,
      Regs.set_of_ne _ _ (by decide), h.sp, hframe]
  · rw [Regs.set_of_ne _ _ hsp, Regs.set_of_ne _ _ hsp, Regs.set_of_ne _ _ hsp]
    by_cases ht : x = t6
    · subst ht; exact Regs.set_same _ _ hx
    · rw [Regs.set_of_ne _ _ ht, h.regs x hsp ht]

theorem mem_savedRegs {i : Reg} (hi : i ≠ 0) : i ∈ savedRegs := by
  revert i; decide

theorem mem_restoredRegs {i : Reg} (hi : i ≠ 0) (ht : i ≠ t6) : i ∈ restoredRegs := by
  revert i; decide

theorem saved_saveContext (h : AtHandler s e) :
    (execs direct e saveContext).regs = s.regs.set sp (frameOf s) ∧
      (∀ i, i ≠ 0 → (execs direct e saveContext).mem.read (frameEntry (frameOf s) i) 8 =
        (s.regs.set sp (frameOf s)) i) ∧
      ∀ x ∉ frameBytes (frameOf s), (execs direct e saveContext).mem x = e.mem x := by
  obtain ⟨hregs, hmem⟩ := execs_enter h
  rw [saveContext, execs_append]
  have hsave := saved_stores (L := savedRegs) (by decide)
    (execs direct e [.load .ld t6 sp 0, moveSp 16, moveSp (-256)])
  have hsp : (execs direct e [.load .ld t6 sp 0, moveSp 16, moveSp (-256)]).regs sp = frameOf s := by
    rw [hregs]; exact Regs.set_same _ _ (by decide)
  refine ⟨hsave.regs.trans hregs, fun i hi => ?_, fun x hx => ?_⟩
  · have := hsave.read i hi
    rwa [hsp, if_pos (mem_savedRegs hi), hregs] at this
  · have := hsave.frame x
    rw [hsp, hmem] at this
    exact this hx

/-- The arguments do not change memory, and `a3` is the doubleword behind the
registers or zero. -/
theorem execs_arguments (routine : SwitchRoutine) (s : Machine) :
    (execs direct s routine.arguments).mem = s.mem ∧
      (execs direct s routine.arguments).regs sp = s.regs sp ∧
      (execs direct s routine.arguments).regs a0 = s.regs sp ∧
      (execs direct s routine.arguments).regs a1 = routine.taken ∧
      (execs direct s routine.arguments).regs a3 =
        if routine.IsTrace then s.mem.read (s.regs sp + 248) 8 else 0 := by
  have h248 : (248 : BitVec 12).signExtend 64 = 248 := by decide
  cases routine <;> refine ⟨rfl, rfl, ?_, ?_, ?_⟩ <;>
    simp +decide only [SwitchRoutine.arguments, SwitchRoutine.taken, execs_cons,
      execs_nil, exec_mv, exec_li, exec_ld, h248, Machine.setReg_goto, Machine.goto_goto,
      Machine.regs_goto, Machine.regs_setReg, Machine.mem_goto, Machine.mem_setReg,
      Regs.set_apply, if_true, if_false]

theorem atCall_before (routine : SwitchRoutine) (h : AtHandler s e) :
    AtCall routine s e (execs direct e routine.before) := by
  obtain ⟨hregs, hread, hframe⟩ := saved_saveContext h
  have hsp : (execs direct e saveContext).regs sp = frameOf s := by
    rw [hregs]; exact Regs.set_same _ _ (by decide)
  rw [SwitchRoutine.before, execs_append]
  obtain ⟨amem, asp, aa0, aa1, aa3⟩ := execs_arguments routine (execs direct e saveContext)
  have hslot : frameOf s + 248 = slot s + 8 := by simp only [frameOf, slot]; bv_omega
  have hbehind : (execs direct e saveContext).mem.read (slot s + 8) 8 =
      e.mem.read (slot s + 8) 8 := by
    refine Mem.read_congr (by decide) fun x hx => hframe x fun hin => ?_
    simp only [frameBytes, slot, frameOf, mem_bytes] at *
    bv_omega
  rw [hsp] at asp aa0
  refine ⟨asp, aa0, aa1, ?_, fun i hi hisp => ?_, ?_, fun x hx => ?_⟩
  · rw [aa3, hsp, hslot, hbehind]
  · rw [amem, hread i hi, Regs.set_of_ne _ _ hisp]
  · rw [amem, hread sp (by decide), Regs.set_same _ _ (by decide)]
  · rw [amem, hframe x fun hin => hx (bytes_subset _ (by decide) hin)]
    refine h.mem x fun hin => hx ?_
    simp only [slot, frameOf, mem_bytes] at *
    bv_omega

/-! ### Behind the call -/

/-- A function that keeps the calling convention, called with its frame at
`sp`: it preserves `sp`, and at and above the frame it writes the entries of
the frame only, the one of `sp` excepted. What it uses of the stack below is
`d` bytes. -/
structure Returned (d : ℕ) (call ret : Machine) : Prop where
  sp : ret.regs sp = call.regs sp
  frame_sp : ret.mem.read (frameEntry (call.regs Rv64.sp) Rv64.sp) 8 =
    call.mem.read (frameEntry (call.regs Rv64.sp) Rv64.sp) 8
  mem : ∀ x ∉ frameBytes (call.regs Rv64.sp),
    x ∉ bytes (call.regs Rv64.sp - BitVec.ofNat 64 d) d → ret.mem x = call.mem x

/-- `restore_scratch`, the first word of a block. -/
def restoreScratchInstr : Instr := .load .ld t6 sp (-16)

theorem map_decode_restoreScratch :
    restoreScratch.map Instr.decode = [some restoreScratchInstr] := by
  decide +kernel

/-- The registers are loaded, the stack moves up and `t6` holds the address of
the jump. -/
theorem execs_restoreContext {b : DWord} {ret : Machine} (hsp : ret.regs sp = b)
    (hentry : ret.mem.read (frameEntry b sp) 8 = b) :
    (execs direct ret restoreContext).pc = ret.regs a0 &&& ~~~1#64 ∧
      (execs direct ret restoreContext).mem = ret.mem ∧
      (execs direct ret restoreContext).regs sp = b + 256 ∧
      (execs direct ret restoreContext).regs t6 = ret.regs a0 ∧
      ∀ i, i ≠ 0 → i ≠ sp → i ≠ t6 →
        (execs direct ret restoreContext).regs i = ret.mem.read (frameEntry b i) 8 := by
  have hmoved : (execs direct ret [mv t6 a0]).regs sp = b := by
    rw [← hsp]; rfl
  have hload := restored_loads restoredRegs (s := execs direct ret [mv t6 a0]) (by
    rw [hmoved]; exact hentry)
  rw [restoreContext, execs_append, execs_append]
  generalize execs direct (execs direct ret [mv t6 a0]) (restoredRegs.map loadReg) = s' at *
  obtain ⟨hmem, hregs⟩ := hload
  have hsp' : s'.regs sp = b := by
    rw [hregs sp (by decide), if_pos (by decide), hmoved]; exact hentry
  have ht : s'.regs t6 = ret.regs a0 := by
    rw [hregs t6 (by decide), if_neg (by decide), execs_cons, execs_nil, exec_mv]
    exact Regs.set_same _ _ (by decide)
  have hoff (a : DWord) : a + (0 : BitVec 12).signExtend 64 = a := by simp
  have hfin : execs direct s' [moveSp 256, .jalr 0 t6 0] =
      (s'.setReg sp (s'.regs sp + 256)).goto (s'.regs t6 &&& ~~~1#64) := by
    simp only [execs_cons, execs_nil, moveSp, Instr.exec, AluOp.eval, Machine.regs_goto,
      Machine.regs_setReg, Regs.set_of_ne _ _ (show t6 ≠ sp by decide), Machine.setReg_goto,
      Machine.goto_goto, hoff]
    exact congrArg (Machine.goto · _) (Machine.setReg_zero _ _)
  rw [hfin, ht, hsp']
  refine ⟨rfl, hmem.trans rfl, Regs.set_same _ _ (by decide), ?_, fun i h0 hisp hit => ?_⟩
  · exact (Regs.set_of_ne _ _ (by decide)).trans ht
  · refine (Regs.set_of_ne _ _ hisp).trans ?_
    rw [hregs i h0, if_pos (mem_restoredRegs h0 hit), hmoved]
    rfl

theorem frameEntry_t6 (s : Machine) : frameEntry (frameOf s) t6 = slot s := by
  have : BitVec.ofNat 64 (8 * (t6.toNat - 1)) = 240 := by decide
  simp only [frameEntry, frameOf, slot, this]
  bv_omega

/-- The exit of a trace: `inline_save`, the address of the exit in `t6`,
`sd t6, 8(sp)`, the address of the handler in `t6`. -/
def traceExitState (s : Machine) (exitAddress handler : DWord) : Machine :=
  (execs direct ((execs direct s (saveInstrs t6)).setReg t6 exitAddress)
    [.store .sd sp t6 8]).setReg t6 handler

theorem atHandler_traceExit (s : Machine) (exitAddress handler : DWord) :
    AtHandler s (traceExitState s exitAddress handler) ∧
      (traceExitState s exitAddress handler).mem.read (slot s + 8) 8 = exitAddress := by
  have hsave := atHandler_inlineSave s exitAddress
  have hstore : (Instr.store .sd sp t6 8).exec direct
      ((execs direct s (saveInstrs t6)).setReg t6 exitAddress) =
        (((execs direct s (saveInstrs t6)).setReg t6 exitAddress).setMem
          (((execs direct s (saveInstrs t6)).setReg t6 exitAddress).mem.write (slot s + 8) 8
            exitAddress)).goto
          (((execs direct s (saveInstrs t6)).setReg t6 exitAddress).pc + 4) := by
    rw [Instr.exec, effAddr, direct_apply, hsave.sp]
    rw [Machine.regs_setReg, Regs.set_same _ _ (by decide)]
    rfl
  rw [traceExitState, execs_cons, execs_nil, hstore]
  exact ⟨((hsave.store exitAddress).goto _).setReg handler, Mem.read_write_same _ _ _⟩

theorem frame_of_returned {routine : SwitchRoutine} (h : AtHandler s e) {d : ℕ} {ret : Machine}
    (hret : Returned d (execs direct e routine.before) ret) :
    ret.regs sp = frameOf s ∧ ret.mem.read (frameEntry (frameOf s) sp) 8 = frameOf s := by
  have hcall := atCall_before routine h
  have hentry := hret.frame_sp
  rw [hcall.sp] at hentry
  exact ⟨hret.sp.trans hcall.sp, hentry.trans hcall.frame_sp⟩

/-- From the frame the function has left to the guest state in which the next
block runs. -/
theorem restored_of_returned {routine : SwitchRoutine} (h : AtHandler s e) {d : ℕ}
    (hd : d + 256 ≤ 2 ^ 64) {ret : Machine}
    (hret : Returned d (execs direct e routine.before) ret) :
    (execs direct (execs direct ret restoreContext) [restoreScratchInstr]).regs sp = s.regs sp ∧
      (∀ i, i ≠ 0 → i ≠ sp →
        (execs direct (execs direct ret restoreContext) [restoreScratchInstr]).regs i =
          ret.mem.read (frameEntry (frameOf s) i) 8) ∧
      ∀ x ∉ bytes (frameOf s - BitVec.ofNat 64 d) (d + 256),
        (execs direct (execs direct ret restoreContext) [restoreScratchInstr]).mem x = s.mem x := by
  have hcall := atCall_before routine h
  obtain ⟨hsp, hentry⟩ := frame_of_returned h hret
  obtain ⟨-, hmem, hsp', -, hregs⟩ := execs_restoreContext hsp hentry
  have hup : frameOf s + 256 = s.regs sp := by simp only [frameOf]; bv_omega
  have hslot : s.regs sp + (-16 : BitVec 12).signExtend 64 = slot s := by
    have : (-16 : BitVec 12).signExtend 64 = -16#64 := by decide
    rw [this, slot]; bv_omega
  rw [hup] at hsp'
  have hlast : execs direct (execs direct ret restoreContext) [restoreScratchInstr] =
      ((execs direct ret restoreContext).setReg t6
        (ret.mem.read (frameEntry (frameOf s) t6) 8)).goto
          ((execs direct ret restoreContext).pc + 4) := by
    rw [execs_cons, execs_nil, restoreScratchInstr, exec_ld, hsp', hslot, hmem, frameEntry_t6]
  rw [hlast]
  refine ⟨(Regs.set_of_ne _ _ (by decide)).trans hsp', fun i h0 hisp => ?_, fun x hx => ?_⟩
  · by_cases hit : i = t6
    · subst hit; exact Regs.set_same _ _ h0
    · exact (Regs.set_of_ne _ _ hit).trans (hregs i h0 hisp hit)
  · rw [Machine.mem_goto, Machine.mem_setReg, hmem]
    have hframe := hret.mem x
    rw [hcall.sp] at hframe
    -- neither the frame nor what the function used below it
    rw [hframe (fun hin => hx ?_) (fun hin => hx ?_)]
    · refine hcall.mem x fun hin => hx ?_
      simp only [mem_bytes] at *
      bv_omega
    · simp only [frameBytes, mem_bytes] at *
      bv_omega
    · simp only [mem_bytes] at *
      omega

/-- For each context switch and every guest state: behind `inline_save` and
whatever is written to `t6` the called function sees the guest's registers in
the frame, and for the exits of a trace the stored address in `a3`; and when
it has returned, the routine jumps to the address it answered and with
`restore_scratch` every register but `sp` is what the function left in the
frame, `sp` is the guest's, and memory has changed only in the frame and in
the `d` bytes of stack the function used below it. -/
theorem dispatch_round_trip (routine : SwitchRoutine) (s : Machine) :
    (∀ v, AtHandler s ((execs direct s (saveInstrs t6)).setReg t6 v)) ∧
    (∀ exitAddress handler, AtHandler s (traceExitState s exitAddress handler) ∧
      (traceExitState s exitAddress handler).mem.read (slot s + 8) 8 = exitAddress) ∧
    ∀ e, AtHandler s e →
      AtCall routine s e (execs direct e routine.before) ∧
      ∀ d ret, d + 256 ≤ 2 ^ 64 → Returned d (execs direct e routine.before) ret →
        (execs direct ret restoreContext).pc = ret.regs a0 &&& ~~~1#64 ∧
        (execs direct (execs direct ret restoreContext) [restoreScratchInstr]).regs sp =
          s.regs sp ∧
        (∀ i, i ≠ 0 → i ≠ sp →
          (execs direct (execs direct ret restoreContext) [restoreScratchInstr]).regs i =
            ret.mem.read (frameEntry (frameOf s) i) 8) ∧
        ∀ x ∉ bytes (frameOf s - BitVec.ofNat 64 d) (d + 256),
          (execs direct (execs direct ret restoreContext) [restoreScratchInstr]).mem x =
            s.mem x := by
  refine ⟨atHandler_inlineSave s, atHandler_traceExit s, fun e he => ?_⟩
  refine ⟨atCall_before routine he, fun d ret hd hret => ?_⟩
  obtain ⟨hsp, hentry⟩ := frame_of_returned he hret
  exact ⟨(execs_restoreContext hsp hentry).1, restored_of_returned he hd hret⟩

/-- A guest with `x5 = 7` and zero elsewhere. -/
def sevenGuest : Machine where
  pc := 0
  regs := Regs.set ⟨fun _ => 0, Regs.const_zero⟩ 5 7
  mem _ := 0

def sevenCall : Machine :=
  execs direct ((execs direct sevenGuest (saveInstrs t6)).setReg t6 0)
    SwitchRoutine.contextSwitch.before

/-- The function has written 9 to the entry of `x6`, and answers `0x01000010`. -/
def nineReturned : Machine :=
  (sevenCall.setMem (sevenCall.mem.write (frameEntry (sevenCall.regs sp) 6) 8 9)).setReg a0
    0x01000010

theorem returned_nineReturned : Returned 0 sevenCall nineReturned where
  sp := Regs.set_of_ne _ _ (by decide)
  frame_sp := Mem.read_write_apart (by decide)
    (apart_frameEntry _ (by decide) (by decide) (by decide))
  mem _ hx _ := Mem.write_of_not_mem fun hin => hx (frameEntry_subset _ _ hin)

/-- The guest goes on where the function says, with its own `x5` and the `x6` of
the function. -/
theorem sevenGuest_round_trip :
    (execs direct nineReturned restoreContext).pc = 0x01000010 ∧
      (execs direct (execs direct nineReturned restoreContext) [restoreScratchInstr]).regs 5 = 7 ∧
      (execs direct (execs direct nineReturned restoreContext) [restoreScratchInstr]).regs 6 = 9 := by
  obtain ⟨hsave, -, hrun⟩ := dispatch_round_trip .contextSwitch sevenGuest
  obtain ⟨hcall, hback⟩ := hrun _ (hsave 0)
  obtain ⟨hpc, -, hregs, -⟩ := hback 0 nineReturned (by decide) returned_nineReturned
  have hsp : sevenCall.regs sp = frameOf sevenGuest := hcall.sp
  refine ⟨?_, ?_, ?_⟩
  · rw [hpc, nineReturned, Machine.regs_setReg, Regs.set_same _ _ (by decide)]
    decide
  · have hentry : nineReturned.mem.read (frameEntry (frameOf sevenGuest) 5) 8 =
        sevenCall.mem.read (frameEntry (frameOf sevenGuest) 5) 8 := by
      rw [← hsp]
      exact Mem.read_write_apart (by decide)
        (apart_frameEntry _ (by decide) (by decide) (by decide))
    rw [hregs 5 (by decide) (by decide), hentry]
    exact hcall.frame 5 (by decide) (by decide)
  · rw [hregs 6 (by decide) (by decide), ← hsp]
    exact Mem.read_write_same _ _ _

end RailTranslator
