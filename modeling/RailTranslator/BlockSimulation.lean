import RailTranslator.GuestRun
import RailTranslator.DispatchRoundTrip
import RailTranslator.CacheCode

/-!
A basic block and its translation.

`allocateBB` emits `restore_scratch`, the words of the straight part and the
exit that the terminal word asks for. The first half of this module reads the
loop for a text whose next words are such a block; the second half runs what
it has emitted.

The exit of a branch compares its operands when the stack pointer has already
moved down by sixteen, so a branch that reads `sp` may leave on the other
side; `StableBranch` excludes that.
-/

namespace RailTranslator

open Rv64

/-! ### The terminal word -/

def IsTerminal (w : Word) : Prop :=
  w.opcode = Opcode.branch ∨ w.opcode = Opcode.jal ∨ w.opcode = Opcode.jalr ∨
    w.opcode = Opcode.system

/-- The guest leaves a block at its terminal on the taken side: it jumps, or
its branch condition holds. -/
def leavesTaken (w : Word) (s : Machine) : Bool :=
  if w.opcode = Opcode.branch then
    match Instr.decode w with
    | some (.branch o rs1 rs2 _) => o.holds (s.regs rs1) (s.regs rs2)
    | _ => false
  else decide (w.opcode ≠ Opcode.system)

/-- A branch is one of the defined ones, and decides the same with the stack
pointer sixteen lower. -/
def StableBranch (w : Word) (s : Machine) : Prop :=
  w.opcode = Opcode.branch → ∃ o rs1 rs2 off, Instr.decode w = some (.branch o rs1 rs2 off) ∧
    o.holds ((s.regs.set sp (slot s)) rs1) ((s.regs.set sp (slot s)) rs2) =
      o.holds (s.regs rs1) (s.regs rs2)

theorem leavesTaken_branch {w : Word} {o : BranchOp} {rs1 rs2 : Reg} {off : BitVec 13}
    (hop : w.opcode = Opcode.branch) (hdec : Instr.decode w = some (.branch o rs1 rs2 off))
    (s : Machine) : leavesTaken w s = o.holds (s.regs rs1) (s.regs rs2) := by
  rw [leavesTaken, if_pos hop, hdec]

theorem leavesTaken_system {w : Word} (hop : w.opcode = Opcode.system) (s : Machine) :
    leavesTaken w s = false := by
  have hne : w.opcode ≠ Opcode.branch := by rw [hop]; decide
  rw [leavesTaken, if_neg hne]
  exact decide_eq_false fun h => h hop

theorem leavesTaken_jump {w : Word} (hne : w.opcode ≠ Opcode.branch)
    (hop : w.opcode ≠ Opcode.system) (s : Machine) : leavesTaken w s = true := by
  rw [leavesTaken, if_neg hne]
  exact decide_eq_true hop

theorem leavesTaken_congr (w : Word) {s c : Machine} (h : c.regs = s.regs) :
    leavesTaken w c = leavesTaken w s := by
  simp only [leavesTaken, h]

theorem StableBranch.congr {w : Word} {s c : Machine} (hs : StableBranch w s)
    (h : c.regs = s.regs) : StableBranch w c := by
  have hslot : slot c = slot s := by rw [slot, slot, h]
  intro hop
  rw [h, hslot]
  exact hs hop

theorem not_straight_of_isTerminal {w : Word} (hw : IsTerminal w) {i : Instr}
    (hdec : Instr.decode w = some i) : ¬ i.Straight := by
  intro hi
  cases bodyWord_of_straight hdec hi with
  | access h =>
      rcases hw with hw | hw | hw | hw <;> rcases h.opcode with h | h <;> rw [hw] at h <;>
        exact absurd h (by decide)
  | auipc h => rcases hw with hw | hw | hw | hw <;> rw [hw] at h <;> exact absurd h (by decide)
  | plain h =>
      rcases hw with hw | hw | hw | hw <;> rw [hw] at h <;> exact absurd h (by decide)

theorem ne_zero_of_isTerminal {w : Word} (hw : IsTerminal w) : w ≠ 0 := by
  rintro rfl
  exact absurd hw (by unfold IsTerminal; decide)

theorem ne_zero_of_decode {w : Word} {i : Instr} (hdec : Instr.decode w = some i) : w ≠ 0 := by
  rintro rfl
  have : Instr.decode 0 = none := by decide +kernel
  rw [this] at hdec
  cases hdec

/-! ### What the loop emits -/

def exitWords (h : Host) (w : Word) : List Word :=
  if w.opcode = Opcode.branch then branchExits h w
  else if w.opcode = Opcode.system then exitTo h.contextSwitch
  else exitTo h.contextSwitchTaken

def wordsBehind (w : Word) : List Word := if w.opcode = Opcode.system then [w] else []

section Emission

variable {h : Host} {r : Rail} {st : BBState}

theorem allocateBBTurn_body (hr : r.Uninstrumented) {i : Instr}
    (hdec : Instr.decode st.nextInst = some i) (hi : i.Straight) :
    allocateBBTurn h r st = .next
      (st.countInst.advance (bodyWords h (relocatedByScratch h) st.pc st.nextInst)) := by
  have hnext : st.countInst.nextInst = st.nextInst := rfl
  have hpc : st.countInst.pc = st.pc := rfl
  rw [allocateBBTurn_eq (hr.preInstrumented _ _)]
  cases bodyWord_of_straight hdec hi with
  | access hw =>
      by_cases hbase : i.base = sp
      · have hrs1 : (decodeInstruction h.junkInst st.nextInst).rs1 = regs.sp := by
          rw [hw.rs1_eq, hbase]
          rfl
        rw [bodyWords_of_access hw, if_pos hbase]
        rcases hw.opcodeOf_eq with hop | hop <;>
          simp [translateInst, hnext, hop, hrs1, hr.postInstrumented]
      · rw [bodyWords_of_access hw, if_neg hbase, ← hnext]
        exact translateInst_access hr hw hbase
  | auipc hop hi' =>
      have hcode : opcodeOf st.nextInst = Op.auipc := opcodeOf_eq_iff.mpr hop
      rw [bodyWords_of_auipc hop]
      simp [translateInst, hnext, hpc, hcode, hr.postInstrumented]
  | plain hop hi' =>
      have hcode : opcodeOf st.nextInst = st.nextInst.opcode.setWidth 32 := opcodeOf_eq _
      rw [bodyWords_of_plain hop]
      rcases hop with hop | hop | hop | hop | hop <;> rw [hop] at hcode <;>
        simp [translateInst, hnext, hcode, hr.postInstrumented]

theorem allocateBBTurn_terminal (hr : r.Uninstrumented) (hw : IsTerminal st.nextInst) :
    ∃ st' type, allocateBBTurn h r st = .return st' ∧
      st'.cache = (st.countInst.close h type st.pc st.nextInst (exitWords h st.nextInst)
        (wordsBehind st.nextInst)).cache := by
  have hnext : st.countInst.nextInst = st.nextInst := rfl
  have hpc : st.countInst.pc = st.pc := rfl
  have hcode : opcodeOf st.nextInst = st.nextInst.opcode.setWidth 32 := opcodeOf_eq _
  rw [allocateBBTurn_eq (hr.preInstrumented _ _)]
  rcases hw with hop | hop | hop | hop <;> rw [hop] at hcode <;>
    simp only [translateInst, hnext, hpc, hcode, exitWords, wordsBehind, hop]
  · exact ⟨_, .directBranch, rfl, rfl⟩
  · exact ⟨_, .directBranch, rfl, rfl⟩
  · exact ⟨_, .indirectBranch, rfl, rfl⟩
  · exact ⟨_, .syscall, rfl, rfl⟩

theorem allocateBBLoop_body (hr : r.Uninstrumented) (elf : ElfReader) (fuel : ℕ) {n : ℕ}
    {pc : BitVec 32} (helf : st.elfReader = elf.setProgramCounter pc) (hbody : BodyAt elf n pc) :
    ∃ st', allocateBBLoop h r (n + fuel) st = allocateBBLoop h r fuel st' ∧
      st'.elfReader = elf.setProgramCounter (pc + BitVec.ofNat 32 (4 * n)) ∧
      st'.cache = st.cache.emit (body h (relocatedByScratch h) elf n pc) ∧
      st'.railBB.firstAddr = st.railBB.firstAddr ∧
      st'.railBB.startLocationInCache = st.railBB.startLocationInCache := by
  induction n generalizing st pc with
  | zero =>
      refine ⟨st, by rw [Nat.zero_add], ?_, ?_, rfl, rfl⟩
      · rw [helf]
        exact congrArg elf.setProgramCounter (BitVec.add_zero _).symm
      · simp [body, CodeCache.emit]
  | succ n ih =>
      obtain ⟨⟨i, hdec, hi⟩, hrest⟩ := hbody
      have hnext : st.nextInst = elf.fetch pc := by rw [BBState.nextInst, helf]; rfl
      have hpc : st.pc = pc := by rw [BBState.pc, helf]; rfl
      rw [← hnext] at hdec
      have hturn := @allocateBBTurn_body h r st hr i hdec hi
      have hne : st.nextInst ≠ 0 := ne_zero_of_decode hdec
      have helf' : (st.countInst.advance (bodyWords h (relocatedByScratch h) st.pc
          st.nextInst)).elfReader = elf.setProgramCounter (pc + 4) :=
        congrArg ElfReader.incProgramCounter helf
      obtain ⟨st', hloop, hend, hcache, hfirst, hstart⟩ := ih helf' hrest
      refine ⟨st', ?_, ?_, ?_, hfirst, hstart⟩
      · rw [Nat.succ_add, allocateBBLoop, if_neg hne, hturn]
        exact hloop
      · have : pc + 4 + BitVec.ofNat 32 (4 * n) = pc + BitVec.ofNat 32 (4 * (n + 1)) := by bv_omega
        rw [hend, this]
      · rw [hcache, body, hpc, hnext]
        simp only [CodeCache.emit, BBState.advance, BBState.countInst, List.append_assoc]

/-- What `allocateBB` leaves behind for a block of `n` instructions and a
terminal word. -/
theorem allocateBB_block (hr : r.Uninstrumented) (elf : ElfReader) (cache : CodeCache)
    {start : DWord} {n : ℕ} (hbody : BodyAt elf n (start.setWidth 32))
    (hw : IsTerminal (elf.fetch (start.setWidth 32 + BitVec.ofNat 32 (4 * n)))) :
    (allocateBB h r elf cache start).2.memory = cache.memory ++ (restoreScratch ++
      (body h (relocatedByScratch h) elf n (start.setWidth 32) ++
        (exitWords h (elf.fetch (start.setWidth 32 + BitVec.ofNat 32 (4 * n))) ++
          wordsBehind (elf.fetch (start.setWidth 32 + BitVec.ofNat 32 (4 * n)))))) ∧
    ∃ b, (allocateBB h r elf cache start).2.railBasicBlocks
        ((start.setWidth 32).signExtend 64) = some b ∧
      b.firstAddr = (start.setWidth 32).signExtend 64 ∧
      b.startLocationInCache = cache.here h := by
  have hlt := hbody.lt_loopFuel fun i hdec => not_straight_of_isTerminal hw hdec
  obtain ⟨k, hk⟩ := Nat.exists_eq_add_of_lt hlt
  obtain ⟨st, hloop, helf, hcache, hfirst, hstart⟩ :=
    @allocateBBLoop_body h r (allocateBBStart h elf cache start) hr elf (k + 1) n _ rfl hbody
  have hnext : st.nextInst = elf.fetch (start.setWidth 32 + BitVec.ofNat 32 (4 * n)) := by
    rw [BBState.nextInst, helf]
    rfl
  rw [← hnext] at hw ⊢
  obtain ⟨st', type, hturn, hclose⟩ := @allocateBBTurn_terminal h r st hr hw
  have hdone : (allocateBB h r elf cache start).2 = st'.cache := by
    rw [allocateBB, hk, Nat.add_assoc, hloop, allocateBBLoop, if_neg (ne_zero_of_isTerminal hw),
      hturn]
  rw [hdone, hclose]
  refine ⟨?_, (st.countInst.close h type st.pc st.nextInst (exitWords h st.nextInst)
    (wordsBehind st.nextInst)).railBB, ?_, hfirst, hstart⟩
  · simp only [BBState.close, BBState.countInst, hcache, CodeCache.memory_insertBB,
      CodeCache.memory_emit, allocateBBStart, CodeCache.memory_setCurrentBB, List.append_assoc]
  · have hkey : st.railBB.firstAddr = (start.setWidth 32).signExtend 64 := hfirst
    simp only [BBState.close, BBState.countInst, CodeCache.railBasicBlocks_insertBB, hkey,
      Function.update_self]

end Emission

/-! ### What the emitted words do -/

theorem branch_of_decode {w : Word} {o : BranchOp} {rs1 rs2 : Reg} {off : BitVec 13}
    (hdec : Instr.decode w = some (.branch o rs1 rs2 off)) :
    w.opcode = Opcode.branch ∧ w.immB = off := by
  cases decoded hdec with
  | branch hop => exact ⟨hop, rfl⟩

theorem decode_branchWord {junk : RvInst} {w : Word} {o : BranchOp} {rs1 rs2 : Reg}
    {off imm : BitVec 13} (hop : w.opcode = Opcode.branch)
    (hdec : Instr.decode w = some (.branch o rs1 rs2 off)) (himm : imm.getLsbD 0 = false) :
    Instr.decode (encodeBtype { decodeBtype junk w with imm := imm.signExtend 32 }) =
      some (.branch o rs1 rs2 imm) := by
  cases decoded hdec with
  | branch _ ho =>
      rw [encodeBtype_setImm, hop]
      exact decode_branch ho himm

def exitRoutine (w : Word) (s : Machine) : SwitchRoutine :=
  if leavesTaken w s then .contextSwitchTaken else .contextSwitch

def atExit (s : Machine) (handler : DWord) : Machine :=
  ((spilled t6 s).setReg t6 handler).goto handler

theorem reaches_branchExits {h : Host} {code : Code} {a : DWord} {w : Word} (s : Machine)
    {o : BranchOp} {rs1 rs2 : Reg} {off : BitVec 13} (hop : w.opcode = Opcode.branch)
    (hdec : Instr.decode w = some (.branch o rs1 rs2 off))
    (hcode : CodeAt code a (branchExits h w)) :
    Reaches direct code (s.goto a) (atExit s (h.handler
      (if o.holds ((s.regs.set sp (slot s)) rs1) ((s.regs.set sp (slot s)) rs2) then
        .contextSwitchTaken else .contextSwitch))) := by
  rw [branchExits, List.append_assoc, List.append_assoc, List.append_assoc, List.append_assoc,
    ← List.append_assoc (insertLi h.contextSwitch _), codeAt_append, codeAt_append,
    codeAt_append] at hcode
  obtain ⟨hsave, hbranch, hnot, htaken⟩ := hcode
  refine (reaches_inlineSave s hsave).trans ?_
  have h7 : wordAddr a 2 + (20 : BitVec 13).signExtend 64 = wordAddr a 7 :=
    (wordAddr_add a 2 5).symm
  have hdec' := @decode_branchWord h.junkInst w o rs1 rs2 off 20 hop hdec (by decide)
  simp only [← wordAddr_add] at hnot htaken hbranch
  have hregs : (spilled t6 s).regs = s.regs.set sp (slot s) := rfl
  cases hholds : o.holds ((s.regs.set sp (slot s)) rs1) ((s.regs.set sp (slot s)) rs2) with
  | true =>
      refine (reaches_branch_taken (spilled t6 s) hbranch.1 hdec' (by rw [hregs]; exact hholds)
        h7).trans ?_
      exact reaches_handler (spilled t6 s) (h.liValue_handler .contextSwitchTaken) htaken
  | false =>
      refine (reaches_branch_not_taken (spilled t6 s) hbranch.1 hdec'
        (by rw [hregs]; exact hholds) (wordAddr_add_four a 2)).trans ?_
      exact reaches_handler (spilled t6 s) (h.liValue_handler .contextSwitch) hnot

theorem reaches_exitWords {h : Host} {code : Code} {a : DWord} {w : Word} (s : Machine)
    (hstable : StableBranch w s) (hcode : CodeAt code a (exitWords h w)) :
    Reaches direct code (s.goto a) (atExit s (h.handler (exitRoutine w s))) := by
  by_cases hop : w.opcode = Opcode.branch
  · obtain ⟨o, rs1, rs2, off, hdec, hsame⟩ := hstable hop
    rw [exitWords, if_pos hop] at hcode
    rw [exitRoutine, leavesTaken_branch hop hdec, ← hsame]
    exact reaches_branchExits s hop hdec hcode
  · rw [exitWords, if_neg hop] at hcode
    by_cases hsys : w.opcode = Opcode.system
    · rw [if_pos hsys] at hcode
      rw [exitRoutine, leavesTaken_system hsys]
      exact reaches_exitTo s (h.liValue_handler .contextSwitch) hcode
    · rw [if_neg hsys] at hcode
      rw [exitRoutine, leavesTaken_jump hop hsys]
      exact reaches_exitTo s (h.liValue_handler .contextSwitchTaken) hcode

/-- The first two instructions of a handler undo the spill of the exit. -/
theorem reloaded_atHandler {s e : Machine} (h : AtHandler s e) :
    (reloaded t6 e).regs = s.regs ∧
      ∀ x ∉ bytes (slot s) 16, (reloaded t6 e).mem x = s.mem x := by
  refine ⟨Regs.eq_of_forall_ne_zero fun x hx => ?_, h.mem⟩
  have hup : slot s + 16 = s.regs sp := by rw [slot]; bv_omega
  rw [reloaded, h.sp, h.saved, hup]
  by_cases hsp : x = sp
  · subst hsp
    exact Regs.set_same _ _ hx
  · refine (Regs.set_of_ne _ _ hsp).trans ?_
    by_cases ht : x = t6
    · subst ht
      exact Regs.set_same _ _ hx
    · exact (Regs.set_of_ne _ _ ht).trans (h.regs x hsp ht)

theorem reloaded_atExit (s : Machine) (handler : DWord) :
    (reloaded t6 (atExit s handler)).regs = s.regs ∧
      ∀ x ∉ bytes (slot s) 8, (reloaded t6 (atExit s handler)).mem x = s.mem x := by
  have hat := atHandler_inlineSave s handler
  rw [execs_saveInstrs (by decide)] at hat
  exact ⟨(reloaded_atHandler (hat.goto handler)).1, fun x hx => Mem.write_of_not_mem hx⟩

/-! ### The simulation -/

/-- The guest state `s` is about to be continued by the block at `start`: the
guest's `t6` lies in the slot below the stack, and the bytes `D` have been
spoiled before. -/
structure Entered (start : DWord) (D : Set DWord) (s c : Machine) : Prop where
  pc : c.pc = start
  regs : ∀ x, x ≠ t6 → c.regs x = s.regs x
  saved : c.mem.read (slot s) 8 = s.regs t6
  mem : ∀ x ∉ D, c.mem x = s.mem x

/-- `restore_scratch` completes the guest's registers. -/
theorem reaches_restoreScratch {code : Code} {start : DWord} {D : Set DWord} {s c : Machine}
    (hc : Entered start D s c) (hcode : CodeAt code start restoreScratch) :
    ∃ c', Reaches direct code c (c'.goto (wordAddr start 1)) ∧ Agree D s c' := by
  have hrun := @reaches_straight direct c _ _ _ [restoreScratchInstr] hcode
    map_decode_restoreScratch (by simp [restoreScratchInstr, Instr.Straight])
  have hslot : (c.goto start).regs sp + (-16 : BitVec 12).signExtend 64 = slot s := by
    have hneg : (-16 : BitVec 12).signExtend 64 = -16#64 := by decide
    rw [Machine.regs_goto, hc.regs sp (by decide), hneg, slot]
    bv_omega
  rw [execs_cons, execs_nil, restoreScratchInstr, exec_ld, hslot, Machine.mem_goto, hc.saved,
    ← hc.pc, Machine.goto_self] at hrun
  refine ⟨c.setReg t6 (s.regs t6), ?_, Regs.eq_of_forall_ne_zero fun x hx => ?_, hc.mem⟩
  · rw [← hc.pc]
    exact hrun
  · by_cases ht : x = t6
    · subst ht
      exact Regs.set_same _ _ hx
    · exact (Regs.set_of_ne _ _ ht).trans (hc.regs x ht)

/-- The block that `allocateBB` emits simulates the guest's basic block, as
long as no instruction of it is disturbed. The guest runs `n` instructions
from `s` to `s'`, where a terminal word stands; then the emitted block, entered
with the guest's `t6` below the stack, exits to the handler for the side on
which the guest leaves, and behind the handler's first two instructions the
registers are the guest's and so is memory outside the spoiled bytes. -/
theorem allocateBB_simulates (h : Host) {r : Rail} (hr : r.Uninstrumented) (elf : ElfReader)
    (cache : CodeCache) {n : ℕ} {D : Set DWord} {s s' : Machine}
    (hrun : run relocate elf.guestCode n s = some s')
    (hund : UndisturbedRun (fun _ => True) elf.guestCode n D s)
    (hterm : IsTerminal (elf.fetch (s'.pc.setWidth 32)))
    (hstable : StableBranch (elf.fetch (s'.pc.setWidth 32)) s')
    (hfit : (allocateBB h r elf cache s.pc).2.Fits) :
    ∃ b, (allocateBB h r elf cache s.pc).2.railBasicBlocks
        ((s.pc.setWidth 32).signExtend 64) = some b ∧
      b.firstAddr = (s.pc.setWidth 32).signExtend 64 ∧
      ∀ c, Entered b.startLocationInCache D s c →
        ∃ e, Exits direct ((allocateBB h r elf cache s.pc).2.code h) c e ∧
          e.pc = h.handler (exitRoutine (elf.fetch (s'.pc.setWidth 32)) s') ∧
          (execs direct e (loadInstrs t6)).regs = s'.regs ∧
          ∀ x ∉ spoiledBy elf.guestCode n D s ∪ bytes (slot s') 8,
            (execs direct e (loadInstrs t6)).mem x = s'.mem x := by
  obtain ⟨hbody, hend⟩ := bodyAt_of_run hrun hund
  rw [hend] at hterm hstable ⊢
  generalize hw : elf.fetch (s.pc.setWidth 32 + BitVec.ofNat 32 (4 * n)) = w at *
  obtain ⟨hmem, b, hb, hfirst, hstart⟩ :=
    @allocateBB_block h r hr elf cache s.pc n hbody (by rw [hw]; exact hterm)
  refine ⟨b, hb, hfirst, fun c hc => ?_⟩
  have hcode := @codeAt_emitted h _ hfit cache.memory _ ⟨[], (List.append_nil _).trans hmem.symm⟩
  rw [← CodeCache.memoryIndex, ← CodeCache.here, ← hstart, codeAt_append, codeAt_append,
    codeAt_append, hw] at hcode
  obtain ⟨hrestore, hbodyCode, hexit, -⟩ := hcode
  obtain ⟨c₁, hreach₁, hagree₁⟩ := reaches_restoreScratch hc hrestore
  obtain ⟨c₂, hreach₂, hagree₂⟩ :=
    reaches_body (rewrites_byScratch h) hrun hund hagree₁ hbodyCode
  have hexited := reaches_exitWords c₂ (hstable.congr hagree₂.regs) hexit
  have hslot : slot c₂ = slot s' := by rw [slot, slot, hagree₂.regs]
  -- the branch reads registers on which the copy agrees
  have hroutine : exitRoutine w c₂ = exitRoutine w s' := by
    rw [exitRoutine, exitRoutine, leavesTaken_congr w hagree₂.regs]
  obtain ⟨hregs, hframe⟩ := reloaded_atExit c₂ (h.handler (exitRoutine w c₂))
  refine ⟨_, ⟨(hreach₁.trans hreach₂).trans hexited, code_handler hfit _⟩,
    congrArg h.handler hroutine, ?_, fun x hx => ?_⟩
  · rw [execs_loadInstrs (by decide)]
    exact hregs.trans hagree₂.regs
  · rw [Set.mem_union, not_or] at hx
    rw [execs_loadInstrs (by decide)]
    exact (hframe x (hslot ▸ hx.2)).trans (hagree₂.mem x hx.1)

/-! ### Two blocks

A load through `x5` and a jump, run by a guest whose registers are zero but
for `sp` and whose memory holds a one where `x5` points to. In one block the
load goes to `x6`, in the other to `t6`, the register the translation uses
itself. -/

def loadGuest (pc : DWord) : Machine where
  pc := pc
  regs := Regs.set ⟨fun _ => 0, Regs.const_zero⟩ sp 0x40000000
  mem x := if x = dataBase then 1 else 0

def firstBlock (elf : ElfReader) : CodeCache :=
  (allocateBB requestedHost (.plain false) elf (allocateRoot requestedHost elf).2 0x10000).2

/-- `ld x6, 0(x5); jal x0, 8` -/
def loadX6Text : ElfReader := .ofWords 0x10000 [0x0002b303, 0x0080006f, 0x00000013]

/-- `ld x31, 0(x5); jal x0, 8` -/
def loadT6Text : ElfReader := .ofWords 0x10000 [0x0002bf83, 0x0080006f, 0x00000013]

theorem entered_loadGuest : Entered 0x01000010 (bytes 0x3ffffff0 8) (loadGuest 0x10000)
    (loadGuest 0x01000010) where
  pc := rfl
  regs _ _ := rfl
  saved := by decide +kernel
  mem _ _ := rfl

theorem undisturbed_loadX6 :
    UndisturbedRun (fun _ => True) loadX6Text.guestCode 1 (bytes 0x3ffffff0 8)
      (loadGuest 0x10000) := by
  intro w i hw hdec
  obtain rfl : (0x0002b303 : Word) = w := by
    have : loadX6Text.guestCode (loadGuest 0x10000).pc = some 0x0002b303 := by decide +kernel
    exact Option.some.inj (this.symm.trans hw)
  obtain rfl : Instr.load .ld 6 5 0 = i := by
    have : Instr.decode 0x0002b303 = some (.load .ld 6 5 0) := by decide +kernel
    exact Option.some.inj (this.symm.trans hdec)
  have hspills : Spills (.load .ld 6 5 0) := by decide
  refine ⟨{
    straight := trivial
    constant := fun _ _ h => nomatch h
    operands := fun _ => ⟨by decide, by decide, trivial⟩
    stores := fun _ hst => False.elim hst
    loads := fun _ _ => Or.inr ?_ }, trivial⟩
  have hslot : slot (loadGuest 0x10000) = 0x3ffffff0 := by decide +kernel
  have hfoot : Instr.footprint relocate (.load .ld 6 5 0) (loadGuest 0x10000) =
      bytes dataBase 8 := rfl
  rw [spillArea_of_spills hspills, hslot, hfoot, Set.union_self]
  exact apart_of_le (by decide +kernel) (by decide +kernel)

theorem loadX6_simulated : ∃ s' e,
    run relocate loadX6Text.guestCode 1 (loadGuest 0x10000) = some s' ∧
      Exits direct ((firstBlock loadX6Text).code requestedHost) (loadGuest 0x01000010) e ∧
      e.pc = requestedHost.handler .contextSwitchTaken ∧
      (execs direct e (loadInstrs t6)).regs = s'.regs := by
  obtain ⟨s', hrun⟩ := Option.isSome_iff_exists.mp (show
    (run relocate loadX6Text.guestCode 1 (loadGuest 0x10000)).isSome = true by decide +kernel)
  have hpc : s'.pc = 0x10004 := by
    have : (run relocate loadX6Text.guestCode 1 (loadGuest 0x10000)).map Machine.pc =
        some 0x10004 := by decide +kernel
    rw [hrun] at this
    exact Option.some.inj this
  have hword : loadX6Text.fetch (s'.pc.setWidth 32) = 0x0080006f := by rw [hpc]; decide +kernel
  have hnot : (0x0080006f : Word).opcode ≠ Opcode.branch := by decide
  have hlen : (firstBlock loadX6Text).memory.length = 23 := by decide +kernel
  obtain ⟨b, hb, -, hsim⟩ := allocateBB_simulates requestedHost (Rail.uninstrumented_plain false)
    loadX6Text (allocateRoot requestedHost loadX6Text).2 hrun undisturbed_loadX6
    (by rw [hword]; exact .inr (.inl (by decide)))
    (by rw [hword]; exact fun h => absurd h hnot)
    (by rw [CodeCache.Fits]; exact hlen.le.trans (by decide))
  have hstart : b.startLocationInCache = 0x01000010 := by
    have : ((firstBlock loadX6Text).railBasicBlocks 0x10000).map (·.startLocationInCache) =
        some 0x01000010 := by decide +kernel
    have hb' : (firstBlock loadX6Text).railBasicBlocks 0x10000 = some b := hb
    rw [hb'] at this
    exact Option.some.inj this
  rw [hstart] at hsim
  obtain ⟨e, hexits, hhandler, hregs, -⟩ := hsim _ entered_loadGuest
  refine ⟨s', e, hrun, hexits, ?_, hregs⟩
  rw [hhandler, hword]
  rfl

/-- A load into `t6` is lost: the guest has a one there, the translated block
the old zero. -/
theorem loadT6_lost : ∃ s' e,
    run relocate loadT6Text.guestCode 1 (loadGuest 0x10000) = some s' ∧
      Exits direct ((firstBlock loadT6Text).code requestedHost) (loadGuest 0x01000010) e ∧
      e.pc = requestedHost.handler .contextSwitchTaken ∧
      s'.regs t6 = 1 ∧ (execs direct e (loadInstrs t6)).regs t6 = 0 := by
  have hguest : (run relocate loadT6Text.guestCode 1 (loadGuest 0x10000)).map (·.regs t6) =
      some 1 := by decide +kernel
  have hcache : (run direct ((firstBlock loadT6Text).code requestedHost) 17
      (loadGuest 0x01000010)).map (fun e => (e.pc, (execs direct e (loadInstrs t6)).regs t6)) =
        some (0x00020200, 0) := by decide +kernel
  obtain ⟨s', hrun, ht⟩ := Option.map_eq_some_iff.mp hguest
  obtain ⟨e, hrun', he⟩ := Option.map_eq_some_iff.mp hcache
  obtain ⟨hpc, ht'⟩ := Prod.mk.inj he
  have hout : (firstBlock loadT6Text).code requestedHost e.pc = none := by
    rw [hpc]
    decide +kernel
  exact ⟨s', e, hrun, ⟨⟨17, hrun'⟩, hout⟩, hpc, ht, ht'⟩

end RailTranslator
