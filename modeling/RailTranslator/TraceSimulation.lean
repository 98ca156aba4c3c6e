import RailTranslator.BlockSimulation

/-!
A trace and its translation.

`allocateTrace` follows direct jumps: a block that ends in one is continued
with the block at its target, and of the jump only the link register remains.
`TraceRun` is the guest's run along such a path. The proof is an induction on
the number of jumps that may still be followed; one step of it is a straight
part, translated as in a basic block but for the rewriting of accesses, and
either a jump or the exit.
-/

namespace RailTranslator

open Rv64

/-! ### The guest along a trace -/

/-- The guest runs from `s` to `s'` along a trace that may follow `count` more
jumps, and nothing on the way is disturbed: at `s'` stands the word that ends
the trace. -/
inductive TraceRun (elf : ElfReader) :
    ℕ → Set DWord → Machine → Set DWord → Machine → Prop
  | stop {count : ℕ} {D : Set DWord} {s : Machine}
      (hterm : IsTerminal (elf.fetch (s.pc.setWidth 32)))
      (hstop : (elf.fetch (s.pc.setWidth 32)).opcode = Opcode.jal → count = 0)
      (hstable : StableBranch (elf.fetch (s.pc.setWidth 32)) s)
      (hpc : liValue s.pc = s.pc) : TraceRun elf count D s D s
  | inst {count : ℕ} {D D' : Set DWord} {s s' : Machine} {w : Word} {i : Instr}
      (hw : elf.guestCode s.pc = some w) (hdec : Instr.decode w = some i)
      (hi : Undisturbed Agreeable D s i)
      (hrest : TraceRun elf count (spoil D s i) (i.exec relocate s) D' s') :
      TraceRun elf count D s D' s'
  | jump {count : ℕ} {D D' : Set DWord} {s s' : Machine} {w : Word}
      (hw : elf.guestCode s.pc = some w) (hop : w.opcode = Opcode.jal)
      (hlink : w.rd = 0 ∨ liValue (s.pc + 4) = s.pc + 4)
      (htarget : (s.pc + w.immJ.signExtend 64).setWidth 32 ≠ 0)
      (hrest : TraceRun elf count D ((Instr.jal w.rd w.immJ).exec relocate s) D' s') :
      TraceRun elf (count + 1) D s D' s'

namespace TraceRun

variable {elf : ElfReader} {count : ℕ} {D D' : Set DWord} {s s' : Machine}

theorem reaches (h : TraceRun elf count D s D' s') : Reaches relocate elf.guestCode s s' := by
  induction h with
  | stop => exact .refl _
  | inst hw hdec hi hrest ih => exact (Reaches.one hw hdec).trans ih
  | jump hw hop hlink htarget hrest ih => exact (Reaches.one hw (decode_of_jal hop)).trans ih

end TraceRun

inductive AfterBody (elf : ElfReader) (s' : Machine) (D' : Set DWord) :
    ℕ → Set DWord → Machine → Prop
  | stop {count : ℕ} (hterm : IsTerminal (elf.fetch (s'.pc.setWidth 32)))
      (hstop : (elf.fetch (s'.pc.setWidth 32)).opcode = Opcode.jal → count = 0)
      (hstable : StableBranch (elf.fetch (s'.pc.setWidth 32)) s')
      (hpc : liValue s'.pc = s'.pc) : AfterBody elf s' D' count D' s'
  | jump {count : ℕ} {D : Set DWord} {s : Machine} {w : Word}
      (hw : elf.guestCode s.pc = some w) (hop : w.opcode = Opcode.jal)
      (hlink : w.rd = 0 ∨ liValue (s.pc + 4) = s.pc + 4)
      (htarget : (s.pc + w.immJ.signExtend 64).setWidth 32 ≠ 0)
      (hrest : TraceRun elf count D ((Instr.jal w.rd w.immJ).exec relocate s) D' s') :
      AfterBody elf s' D' (count + 1) D s

theorem AfterBody.isTerminal {elf : ElfReader} {s' : Machine} {D' : Set DWord} {count : ℕ}
    {D : Set DWord} {s : Machine} (h : AfterBody elf s' D' count D s) :
    IsTerminal (elf.fetch (s.pc.setWidth 32)) := by
  cases h with
  | stop hterm => exact hterm
  | jump hw hop =>
      rw [fetch_of_guestCode hw]
      exact .inr (.inl hop)

theorem TraceRun.body {elf : ElfReader} {count : ℕ} {D D' : Set DWord} {s s' : Machine}
    (h : TraceRun elf count D s D' s') : ∃ n s₁, run relocate elf.guestCode n s = some s₁ ∧
      UndisturbedRun Agreeable elf.guestCode n D s ∧
      AfterBody elf s' D' count (spoiledBy elf.guestCode n D s) s₁ := by
  induction h with
  | stop hterm hstop hstable hpc => exact ⟨0, _, rfl, trivial, .stop hterm hstop hstable hpc⟩
  | @inst count D D' s s' w i hw hdec hi hrest ih =>
      obtain ⟨n, s₁, hrun, hund, hafter⟩ := ih
      refine ⟨n + 1, s₁, ?_, fun w' i' hw' hdec' => ?_, ?_⟩
      · rw [run, step_eq hw hdec]
        exact hrun
      · obtain rfl : w = w' := Option.some.inj (hw.symm.trans hw')
        obtain rfl : i = i' := Option.some.inj (hdec.symm.trans hdec')
        exact ⟨hi, hund⟩
      · simpa only [spoiledBy, hw, Option.bind_some, hdec] using hafter
  | jump hw hop hlink htarget hrest =>
      exact ⟨0, _, rfl, trivial, .jump hw hop hlink htarget hrest⟩

/-! ### What the loop emits -/

def stubWords (h : Host) (pc : DWord) (w : Word) : List Word :=
  inlineSave ++
    if w.opcode = Opcode.branch then branchStub h pc w
    else if w.opcode = Opcode.system then traceExitTo pc h.contextSwitchTraceExit
    else traceExitTo pc h.contextSwitchTraceExitTaken

def linkWords (pc : BitVec 32) (w : Word) : List Word :=
  if w.rd = 0 then [] else insertLi ((pc + 4).signExtend 64) (w.rd.setWidth 32)

section Emission

variable {h : Host} {r : Rail} {st : TraceState} {count : ℕ}

theorem traceTurn_body (hr : r.Uninstrumented) {i : Instr}
    (hdec : Instr.decode st.nextInst = some i) (hi : i.Straight) :
    traceTurn h r count st = .next
      (st.countInst.advance (bodyWords h (relocatedInPlace h) st.pc st.nextInst)) := by
  cases bodyWord_of_straight hdec hi with
  | access hw =>
      by_cases hbase : i.base = sp
      · have hrs1 : (decodeInstruction h.junkInst st.nextInst).rs1 = regs.sp := by
          rw [hw.rs1_eq, hbase]
          rfl
        rw [bodyWords_of_access hw, if_pos hbase]
        rcases hw.opcodeOf_eq with hop | hop <;>
          simp [traceTurn, hop, hrs1, hr.postInstrumented, hr.inlineInst]
      · rw [bodyWords_of_access hw, if_neg hbase]
        exact traceTurn_access hr count hw hbase
  | auipc hop hi' =>
      have hcode : opcodeOf st.nextInst = Op.auipc := opcodeOf_eq_iff.mpr hop
      rw [bodyWords_of_auipc hop]
      simp [traceTurn, hcode, hr.postInstrumented]
  | plain hop hi' =>
      have hcode : opcodeOf st.nextInst = st.nextInst.opcode.setWidth 32 := opcodeOf_eq _
      rw [bodyWords_of_plain hop]
      rcases hop with hop | hop | hop | hop | hop <;> rw [hop] at hcode <;>
        simp [traceTurn, hcode, hr.postInstrumented, hr.inlineInst]

theorem traceTurn_jump (hr : r.Uninstrumented) (hcount : 0 < count)
    (hop : st.nextInst.opcode = Opcode.jal) :
    ∃ st', traceTurn h r count st = .return st' (st.pc + st.nextInst.immJ.signExtend 32) ∧
      st'.elfReader = st.elfReader ∧
      st'.cache.memory = st.cache.memory ++ linkWords st.pc st.nextInst ∧
      st'.railBB.firstAddr = st.railBB.firstAddr ∧
      st'.railBB.startLocationInCache = st.railBB.startLocationInCache := by
  have hcode : opcodeOf st.nextInst = Op.jal := opcodeOf_eq_iff.mpr hop
  have hbranch : ¬ Op.jal = Op.branch := by decide
  have hrd : (decodeJtype h.junkInst st.nextInst).rd = regs.zero ↔ st.nextInst.rd = 0 :=
    decodeJtype_rd_eq_zero_iff ..
  by_cases h0 : st.nextInst.rd = 0
  · simp only [traceTurn, TraceState.nextInst_countInst, TraceState.pc_countInst, hcode, hbranch,
      decodeJtype_imm, linkWords, hcount, ne_eq, hrd, h0, not_true, if_true, if_false]
    refine ⟨_, rfl, rfl, ?_, rfl, rfl⟩
    simp [TraceState.emit, TraceState.setType, TraceState.countInst, hr.bbInline, hr.inlineInst]
  · simp only [traceTurn, TraceState.nextInst_countInst, TraceState.pc_countInst, hcode, hbranch,
      decodeJtype_imm, linkWords, hcount, ne_eq, hrd, h0, not_false_eq_true, if_true, if_false]
    refine ⟨_, rfl, rfl, ?_, rfl, rfl⟩
    simp [TraceState.emit, TraceState.setType, TraceState.countInst, hr.bbInline, hr.inlineInst,
      decodeJtype_rd]

theorem traceTurn_stop (hr : r.Uninstrumented) (hw : IsTerminal st.nextInst)
    (hstop : st.nextInst.opcode = Opcode.jal → count = 0) :
    ∃ st', traceTurn h r count st = .return st' 0 ∧
      st'.cache.memory = st.cache.memory ++
        (stubWords h st.elfReader.pc st.nextInst ++ wordsBehind st.nextInst) ∧
      st'.railBB.firstAddr = st.railBB.firstAddr ∧
      st'.railBB.startLocationInCache = st.railBB.startLocationInCache := by
  have hcode : opcodeOf st.nextInst = st.nextInst.opcode.setWidth 32 := opcodeOf_eq _
  rcases hw with hop | hop | hop | hop <;> rw [hop] at hcode
  · simp only [traceTurn, TraceState.nextInst_countInst, hcode]
    refine ⟨_, rfl, ?_, rfl, rfl⟩
    simp [TraceState.emit, TraceState.setType, TraceState.countInst, TraceState.recordExit,
      hr.bbInline, hr.inlineInst, stubWords, wordsBehind, hop, branchStub]
  · obtain rfl := hstop hop
    simp only [traceTurn, TraceState.nextInst_countInst, hcode]
    refine ⟨_, rfl, ?_, rfl, rfl⟩
    simp [TraceState.emit, TraceState.setType, TraceState.countInst, TraceState.recordExit,
      hr.bbInline, hr.inlineInst, stubWords, wordsBehind, hop]
  · simp only [traceTurn, TraceState.nextInst_countInst, hcode]
    refine ⟨_, rfl, ?_, rfl, rfl⟩
    simp [TraceState.emit, TraceState.setType, TraceState.countInst, TraceState.recordExit,
      TraceState.markEnd, hr.bbInline, hr.inlineInst, stubWords, wordsBehind, hop]
  · simp only [traceTurn, TraceState.nextInst_countInst, hcode]
    refine ⟨_, rfl, ?_, rfl, rfl⟩
    simp [TraceState.emit, TraceState.setType, TraceState.countInst, TraceState.recordExit,
      TraceState.markEnd, TraceState.insertBB, hr.bbInline, hr.inlineInst, stubWords, wordsBehind,
      hop]

theorem traceLoop_body (hr : r.Uninstrumented) (elf : ElfReader) (fuel : ℕ) {n : ℕ}
    {pc : BitVec 32} (helf : st.elfReader = elf.setProgramCounter pc) (hbody : BodyAt elf n pc) :
    ∃ st', traceLoop h r count (n + fuel) st = traceLoop h r count fuel st' ∧
      st'.elfReader = elf.setProgramCounter (pc + BitVec.ofNat 32 (4 * n)) ∧
      st'.cache.memory = st.cache.memory ++ body h (relocatedInPlace h) elf n pc ∧
      st'.railBB.firstAddr = st.railBB.firstAddr ∧
      st'.railBB.startLocationInCache = st.railBB.startLocationInCache := by
  induction n generalizing st pc with
  | zero =>
      refine ⟨st, by rw [Nat.zero_add], ?_, ?_, rfl, rfl⟩
      · rw [helf]
        exact congrArg elf.setProgramCounter (BitVec.add_zero _).symm
      · exact (List.append_nil _).symm
  | succ n ih =>
      obtain ⟨⟨i, hdec, hi⟩, hrest⟩ := hbody
      have hnext : st.nextInst = elf.fetch pc := by rw [TraceState.nextInst, helf]; rfl
      have hpc : st.pc = pc := by rw [TraceState.pc, helf]; rfl
      rw [← hnext] at hdec
      have hturn := @traceTurn_body h r st count hr i hdec hi
      have hne : st.nextInst ≠ 0 := ne_zero_of_decode hdec
      have helf' : (st.countInst.advance (bodyWords h (relocatedInPlace h) st.pc
          st.nextInst)).elfReader = elf.setProgramCounter (pc + 4) :=
        congrArg ElfReader.incProgramCounter helf
      obtain ⟨st', hloop, hend, hcache, hfirst, hstart⟩ := ih helf' hrest
      refine ⟨st', ?_, ?_, ?_, hfirst, hstart⟩
      · rw [Nat.succ_add, traceLoop, if_neg hne, hturn]
        exact hloop
      · have : pc + 4 + BitVec.ofNat 32 (4 * n) = pc + BitVec.ofNat 32 (4 * (n + 1)) := by bv_omega
        rw [hend, this]
      · rw [hcache, body, hpc, hnext]
        simp only [TraceState.advance, TraceState.countInst, CodeCache.memory_emit,
          List.append_assoc]

end Emission

/-! ### What the emitted words do -/

def atTraceExit (s : Machine) (exitAddress handler : DWord) : Machine :=
  ((((spilled t6 s).setReg t6 exitAddress).setMem
    ((withSlot t6 s).mem.write (slot s + 8) 8 exitAddress)).setReg t6 handler).goto handler

def traceExitRoutine (w : Word) (s : Machine) : SwitchRoutine :=
  if leavesTaken w s then .contextSwitchTraceExitTaken else .contextSwitchTraceExit

theorem atHandler_atTraceExit (s : Machine) (exitAddress handler : DWord) :
    AtHandler s (atTraceExit s exitAddress handler) ∧
      (atTraceExit s exitAddress handler).mem.read (slot s + 8) 8 = exitAddress := by
  have hsave := atHandler_inlineSave s exitAddress
  rw [execs_saveInstrs (by decide)] at hsave
  exact ⟨((hsave.store exitAddress).setReg handler).goto handler, Mem.read_write_same _ _ _⟩

/-- What stands behind `inline_save` in the exit of a trace. -/
theorem reaches_traceExitTo {code : Code} {a pc handler : DWord} (s : Machine)
    (hli : liValue handler = handler) (hcode : CodeAt code a (traceExitTo pc handler)) :
    Reaches direct code ((spilled t6 s).goto a) (atTraceExit s (liValue pc) handler) := by
  rw [traceExitTo, List.append_assoc, List.append_assoc, codeAt_append, codeAt_append] at hcode
  obtain ⟨hpc, ⟨hsave, -⟩, hhandler⟩ := hcode
  refine (@reaches_insertLi direct _ (spilled t6 s) a pc t6 hpc).trans ?_
  have hdec : Instr.decode saveExitAddress = some (.store .sd sp t6 8) := by decide +kernel
  have hoff : (8 : BitVec 12).signExtend 64 = 8#64 := by decide
  have hsp : ((spilled t6 s).setReg t6 (liValue pc)).regs sp = slot s :=
    (Regs.set_of_ne _ _ (by decide)).trans (Regs.set_same _ _ (by decide))
  have ht : ((spilled t6 s).setReg t6 (liValue pc)).regs t6 = liValue pc :=
    Regs.set_same _ _ (by decide)
  have hrun := @reaches_handler direct _ (((spilled t6 s).setReg t6 (liValue pc)).setMem
    ((withSlot t6 s).mem.write (slot s + 8) 8 (liValue pc))) _ _ hli hhandler
  refine (reaches_at _ hsave hdec ?_).trans hrun
  rw [Instr.exec, effAddr, direct_apply, Machine.regs_goto, hsp, ht, hoff]
  rfl

theorem reaches_branchStub {h : Host} {code : Code} {a pc : DWord} {w : Word} (s : Machine)
    {o : BranchOp} {rs1 rs2 : Reg} {off : BitVec 13} (hop : w.opcode = Opcode.branch)
    (hdec : Instr.decode w = some (.branch o rs1 rs2 off))
    (hcode : CodeAt code a (stubWords h pc w)) :
    Reaches direct code (s.goto a) (atTraceExit s (liValue pc) (h.handler
      (if o.holds ((s.regs.set sp (slot s)) rs1) ((s.regs.set sp (slot s)) rs2) then
        .contextSwitchTraceExitTaken else .contextSwitchTraceExit))) := by
  rw [stubWords, codeAt_append, if_pos hop, branchStub, codeAt_cons, codeAt_append] at hcode
  obtain ⟨hsave, hbranch, hnot, htaken⟩ := hcode
  refine (reaches_inlineSave s hsave).trans ?_
  have hdec' := @decode_branchWord h.junkInst w o rs1 rs2 off 36 hop hdec (by decide)
  have h36 : wordAddr a 2 + (36 : BitVec 13).signExtend 64 = wordAddr (wordAddr a 2 + 4) 8 := by
    rw [wordAddr_add_four, ← wordAddr_add]
    exact (wordAddr_add a 2 9).symm
  have hregs : (spilled t6 s).regs = s.regs.set sp (slot s) := rfl
  cases hholds : o.holds ((s.regs.set sp (slot s)) rs1) ((s.regs.set sp (slot s)) rs2) with
  | true =>
      refine (reaches_branch_taken (spilled t6 s) hbranch hdec' (by rw [hregs]; exact hholds)
        h36).trans ?_
      exact reaches_traceExitTo s (h.liValue_handler .contextSwitchTraceExitTaken) htaken
  | false =>
      refine (reaches_branch_not_taken (spilled t6 s) hbranch hdec'
        (by rw [hregs]; exact hholds) rfl).trans ?_
      exact reaches_traceExitTo s (h.liValue_handler .contextSwitchTraceExit) hnot

theorem reaches_stubWords {h : Host} {code : Code} {a pc : DWord} {w : Word} (s : Machine)
    (hstable : StableBranch w s) (hcode : CodeAt code a (stubWords h pc w)) :
    Reaches direct code (s.goto a)
      (atTraceExit s (liValue pc) (h.handler (traceExitRoutine w s))) := by
  by_cases hop : w.opcode = Opcode.branch
  · obtain ⟨o, rs1, rs2, off, hdec, hsame⟩ := hstable hop
    rw [traceExitRoutine, leavesTaken_branch hop hdec, ← hsame]
    exact reaches_branchStub s hop hdec hcode
  · rw [stubWords, codeAt_append, if_neg hop] at hcode
    obtain ⟨hsave, hcode⟩ := hcode
    refine (reaches_inlineSave s hsave).trans ?_
    by_cases hsys : w.opcode = Opcode.system
    · rw [if_pos hsys] at hcode
      rw [traceExitRoutine, leavesTaken_system hsys]
      exact reaches_traceExitTo s (h.liValue_handler .contextSwitchTraceExit) hcode
    · rw [if_neg hsys] at hcode
      rw [traceExitRoutine, leavesTaken_jump hop hsys]
      exact reaches_traceExitTo s (h.liValue_handler .contextSwitchTraceExitTaken) hcode

theorem reaches_linkWords {code : Code} {a : DWord} {w : Word} {D : Set DWord} {s c : Machine}
    (hlink : w.rd = 0 ∨ liValue (s.pc + 4) = s.pc + 4)
    (hagree : Agree D s c) (hcode : CodeAt code a (linkWords (s.pc.setWidth 32) w)) :
    ∃ c', Reaches direct code (c.goto a)
        (c'.goto (wordAddr a (linkWords (s.pc.setWidth 32) w).length)) ∧
      Agree D ((Instr.jal w.rd w.immJ).exec relocate s) c' := by
  rw [linkWords] at hcode ⊢
  by_cases h0 : w.rd = 0
  · have hnop (m : Machine) (v : DWord) : m.setReg w.rd v = m := by
      rw [h0]
      exact m.setReg_zero v
    rw [if_pos h0, Instr.exec, hnop]
    exact ⟨c, by simpa using Reaches.refl (c.goto a), hagree.goto_left _⟩
  · rw [if_neg h0] at hcode ⊢
    have hval : liValue ((s.pc.setWidth 32 + 4).signExtend 64) = s.pc + 4 := by
      have hlow : low ((s.pc.setWidth 32 + 4).signExtend 64) = low (s.pc + 4) := by
        rw [low, low, BitVec.setWidth_add _ _ (by decide)]
        exact low_ofLow _
      rw [← hlink.resolve_left h0, liValue, liValue, hlow]
    refine ⟨_, reaches_insertLi c hcode, ?_⟩
    rw [hval]
    exact (hagree.setReg _ _).goto_left _

/-! ### The simulation -/

/-- A block of a trace: its straight part, and the turn at the word behind it. -/
theorem allocateTraceBlock_body {h : Host} {r : Rail} (hr : r.Uninstrumented) {elf : ElfReader}
    {n : ℕ} {pc pc' : BitVec 32} (hbody : BodyAt elf n pc)
    (hw : IsTerminal (elf.fetch (pc + BitVec.ofNat 32 (4 * n)))) {st : TraceState}
    (helf : st.elfReader = elf.setProgramCounter pc') (count : ℕ) :
    ∃ st', st'.elfReader = elf.setProgramCounter (pc + BitVec.ofNat 32 (4 * n)) ∧
      st'.cache.memory = st.cache.memory ++ body h (relocatedInPlace h) elf n pc ∧
      st'.railBB.firstAddr = st.railBB.firstAddr ∧
      st'.railBB.startLocationInCache = st.railBB.startLocationInCache ∧
      ∀ st'' a, traceTurn h r count st' = .return st'' a →
        allocateTraceBlock h r st pc count = (st'', a) := by
  have hlt := hbody.lt_loopFuel fun i hdec => not_straight_of_isTerminal hw hdec
  obtain ⟨k, hk⟩ := Nat.exists_eq_add_of_lt hlt
  obtain ⟨st', hloop, helf', hmem, hfirst, hstart⟩ :=
    @traceLoop_body h r { st with elfReader := st.elfReader.setProgramCounter pc } count hr elf
      (k + 1) n pc (by rw [helf]; rfl) hbody
  refine ⟨st', helf', hmem, hfirst, hstart, fun st'' a hturn => ?_⟩
  have hne : st'.nextInst ≠ 0 := by
    have hnext : st'.nextInst = elf.fetch (pc + BitVec.ofNat 32 (4 * n)) := by
      rw [TraceState.nextInst, helf']
      rfl
    rw [hnext]
    exact ne_zero_of_isTerminal hw
  rw [allocateTraceBlock, hk, Nat.add_assoc, hloop, traceLoop, if_neg hne, hturn]

/-- The words of a trace do what the guest does along it, and store the
address of the last word for the handler. -/
theorem traceBlocks_simulates {h : Host} {r : Rail} (hr : r.Uninstrumented) {elf : ElfReader}
    {count : ℕ} {D D' : Set DWord} {s s' : Machine} (htrace : TraceRun elf count D s D' s')
    {st : TraceState} {pc : BitVec 32} (helf : st.elfReader = elf.setProgramCounter pc) :
    ∃ words, (traceBlocks h r (count + 1) st (s.pc.setWidth 32)).cache.memory =
        st.cache.memory ++ words ∧
      (traceBlocks h r (count + 1) st (s.pc.setWidth 32)).railBB.firstAddr = st.railBB.firstAddr ∧
      (traceBlocks h r (count + 1) st (s.pc.setWidth 32)).railBB.startLocationInCache =
        st.railBB.startLocationInCache ∧
      ∀ (code : Code) (a : DWord) (c : Machine), CodeAt code a words → Agree D s c →
        ∃ c', Agree D' s' c' ∧ Reaches direct code (c.goto a) (atTraceExit c' s'.pc
          (h.handler (traceExitRoutine (elf.fetch (s'.pc.setWidth 32)) s'))) := by
  -- the rest of the trace is a trace of fewer blocks, from another address
  induction count using Nat.strong_induction_on generalizing D s st pc with
  | _ count ih =>
  obtain ⟨n, s₁, hrun, hund, hafter⟩ := htrace.body
  obtain ⟨hbody, hend⟩ := bodyAt_of_run hrun hund
  have hterm := hafter.isTerminal
  rw [hend] at hterm
  obtain ⟨st₁, helf₁, hmem₁, hfirst₁, hstart₁, hblock⟩ :=
    @allocateTraceBlock_body h r hr elf n _ pc hbody hterm st helf count
  have hnext₁ : st₁.nextInst = elf.fetch (s₁.pc.setWidth 32) := by
    rw [TraceState.nextInst, helf₁, hend]
    rfl
  have hpc₁ : st₁.pc = s₁.pc.setWidth 32 := by
    rw [TraceState.pc, helf₁, hend]
    rfl
  cases hafter with
  | stop hterm hstop hstable hpc =>
      rw [← hnext₁] at hterm hstop hstable ⊢
      obtain ⟨st₂, hturn, hmem₂, hfirst₂, hstart₂⟩ := @traceTurn_stop h r st₁ count hr hterm hstop
      have hdone : traceBlocks h r (count + 1) st (s.pc.setWidth 32) = st₂ := by
        rw [traceBlocks, hblock st₂ 0 hturn]
        exact if_pos rfl
      rw [hdone]
      refine ⟨_, by rw [hmem₂, hmem₁, List.append_assoc], hfirst₂.trans hfirst₁,
        hstart₂.trans hstart₁, fun code a c hcode hagree => ?_⟩
      obtain ⟨hbodyCode, hstub⟩ := codeAt_append.mp hcode
      obtain ⟨c', hreach, hagree'⟩ := reaches_body (rewrites_inPlace h) hrun hund hagree hbodyCode
      refine ⟨c', hagree', hreach.trans ?_⟩
      have hexit := reaches_stubWords c' (hstable.congr hagree'.regs) (codeAt_append.mp hstub).1
      -- the exit hands on the address of the last instruction
      have haddr : liValue st₁.elfReader.pc = s'.pc := by
        have : st₁.elfReader.pc = ofLow (low s'.pc) := congrArg ofLow hpc₁
        rw [this, liValue, low_ofLow]
        exact hpc
      rw [haddr, traceExitRoutine, leavesTaken_congr _ hagree'.regs] at hexit
      exact hexit
  | @jump k D₁ s₁ w hw hop hlink htarget hrest =>
      obtain rfl : st₁.nextInst = w := hnext₁.trans (fetch_of_guestCode hw)
      obtain ⟨st₂, hturn, helf₂, hmem₂, hfirst₂, hstart₂⟩ :=
        @traceTurn_jump h r st₁ (k + 1) hr (Nat.succ_pos k) hop
      have hnextAddr : st₁.pc + st₁.nextInst.immJ.signExtend 32 =
          ((Instr.jal st₁.nextInst.rd st₁.nextInst.immJ).exec relocate s₁).pc.setWidth 32 := by
        rw [hpc₁, Instr.exec, Machine.pc_goto]
        exact (low_add_signExtend _ _).symm
      rw [hnextAddr] at hturn
      -- the jump is followed, so the loop goes on at its target
      have hdone : traceBlocks h r (k + 1 + 1) st (s.pc.setWidth 32) =
          traceBlocks h r (k + 1) st₂
            (((Instr.jal st₁.nextInst.rd st₁.nextInst.immJ).exec relocate s₁).pc.setWidth 32) := by
        rw [traceBlocks, hblock st₂ _ hturn]
        exact if_neg htarget
      obtain ⟨words, hmem, hfirst, hstart, hrest'⟩ :=
        ih k (Nat.lt_succ_self k) hrest (helf₂.trans helf₁)
      rw [hdone]
      refine ⟨_, by rw [hmem, hmem₂, hmem₁, List.append_assoc, List.append_assoc],
        (hfirst.trans hfirst₂).trans hfirst₁, (hstart.trans hstart₂).trans hstart₁,
        fun code a c hcode hagree => ?_⟩
      obtain ⟨hbodyCode, hcode⟩ := codeAt_append.mp hcode
      obtain ⟨hlinkCode, hcode⟩ := codeAt_append.mp hcode
      rw [hpc₁] at hlinkCode hcode
      obtain ⟨c₁, hreach₁, hagree₁⟩ :=
        reaches_body (rewrites_inPlace h) hrun hund hagree hbodyCode
      obtain ⟨c₂, hreach₂, hagree₂⟩ := reaches_linkWords hlink hagree₁ hlinkCode
      obtain ⟨c', hagree', hreach'⟩ := hrest' code _ c₂ hcode hagree₂
      exact ⟨c', hagree', (hreach₁.trans hreach₂).trans hreach'⟩

/-- The trace that `allocateTrace` emits simulates the guest along its path. -/
theorem allocateTrace_simulates (h : Host) {r : Rail} (hr : r.Uninstrumented) (elf : ElfReader)
    (cache : CodeCache) {count : ℕ} {D D' : Set DWord} {s s' : Machine}
    (htrace : TraceRun elf count D s D' s')
    (hfit : (allocateTrace h r elf cache s.pc (count + 1)).2.Fits) :
    Reaches relocate elf.guestCode s s' ∧
    ∃ b, (allocateTrace h r elf cache s.pc (count + 1)).2.railBasicBlocks
        ((s.pc.setWidth 32).signExtend 64) = some b ∧
      b.firstAddr = (s.pc.setWidth 32).signExtend 64 ∧
      ∀ c, Entered b.startLocationInCache D s c →
        ∃ e, Exits direct ((allocateTrace h r elf cache s.pc (count + 1)).2.code h) c e ∧
          e.pc = h.handler (traceExitRoutine (elf.fetch (s'.pc.setWidth 32)) s') ∧
          e.mem.read (e.regs sp + 8) 8 = s'.pc ∧
          (execs direct e (loadInstrs t6)).regs = s'.regs ∧
          ∀ x ∉ D' ∪ bytes (slot s') 16, (execs direct e (loadInstrs t6)).mem x = s'.mem x := by
  refine ⟨htrace.reaches, ?_⟩
  obtain ⟨words, hmem, hfirst, hstart, hsim⟩ :=
    @traceBlocks_simulates h r hr elf count D D' s s' htrace
      (allocateTraceStart h elf cache s.pc) (s.pc.setWidth 32) rfl
  have hend : (allocateTrace h r elf cache s.pc (count + 1)).2 =
      (allocateTraceEnd h (traceBlocks h r (count + 1) (allocateTraceStart h elf cache s.pc)
        (s.pc.setWidth 32))).cache := rfl
  rw [hend] at hfit ⊢
  generalize traceBlocks h r (count + 1) (allocateTraceStart h elf cache s.pc)
    (s.pc.setWidth 32) = st at *
  have hcache : (allocateTraceEnd h st).cache.memory = cache.memory ++ (restoreScratch ++ words) := by
    rw [← List.append_assoc]
    exact hmem
  have hkey : st.railBB.firstAddr = (s.pc.setWidth 32).signExtend 64 := hfirst
  refine ⟨(allocateTraceEnd h st).railBB, ?_, hfirst, fun c hc => ?_⟩
  · simp only [allocateTraceEnd, TraceState.insertBB, CodeCache.railBasicBlocks_insertBB, hkey,
      Function.update_self]
  have hcode := @codeAt_emitted h _ hfit cache.memory _
    ⟨[], (List.append_nil _).trans hcache.symm⟩
  obtain ⟨hrestore, hwords⟩ := codeAt_append.mp hcode
  have hstart' : (allocateTraceEnd h st).railBB.startLocationInCache =
      wordAddr h.base cache.memory.length := hstart
  rw [hstart'] at hc
  obtain ⟨c₁, hreach₁, hagree₁⟩ := reaches_restoreScratch hc hrestore
  obtain ⟨c', hagree', hreach'⟩ := hsim _ _ c₁ hwords hagree₁
  -- the guest and the copy spill to the same slot
  have hslot : slot c' = slot s' := by rw [slot, slot, hagree'.regs]
  obtain ⟨hat, hread⟩ := atHandler_atTraceExit c' s'.pc
    (h.handler (traceExitRoutine (elf.fetch (s'.pc.setWidth 32)) s'))
  obtain ⟨hregs, hframe⟩ := reloaded_atHandler hat
  refine ⟨_, ⟨hreach₁.trans hreach', code_handler hfit _⟩, rfl, ?_, ?_, fun x hx => ?_⟩
  · rw [hat.sp]
    exact hread
  · rw [execs_loadInstrs (by decide)]
    exact hregs.trans hagree'.regs
  · rw [Set.mem_union, not_or] at hx
    rw [execs_loadInstrs (by decide)]
    exact (hframe x (hslot ▸ hx.2)).trans (hagree'.mem x hx.1)

/-! ### Two traces

A jump over one word, an access through `x5` and a system call. In one trace
the access is a load, in the other a store of the base itself. -/

def firstTrace (elf : ElfReader) : CodeCache :=
  (allocateTrace requestedHost (.plain true) elf (allocateRoot requestedHost elf).2 0x10000 2).2

/-- `jal x1, 8; nop; ld x6, 0(x5); ecall` -/
def loadTraceText : ElfReader :=
  .ofWords 0x10000 [0x008000ef, 0x00000013, 0x0002b303, 0x00000073, 0x00000013]

/-- `jal x1, 8; nop; sd x5, 0(x5); ecall` -/
def storeTraceText : ElfReader :=
  .ofWords 0x10000 [0x008000ef, 0x00000013, 0x0052b023, 0x00000073, 0x00000013]

def jumpedGuest : Machine := (Instr.jal 1 8).exec relocate (loadGuest 0x10000)

def loadedGuest : Machine := (Instr.load .ld 6 5 0).exec relocate jumpedGuest

theorem undisturbed_loadTrace :
    Undisturbed Agreeable (bytes 0x3ffffff0 8) jumpedGuest (.load .ld 6 5 0) where
  straight := trivial
  constant := fun _ _ h => nomatch h
  operands := fun _ => ⟨by decide, by decide, by decide⟩
  stores := fun _ hst => False.elim hst
  loads := by
    intro _ _
    have hspills : Spills (.load .ld 6 5 0) := by decide
    have hslot : slot jumpedGuest = 0x3ffffff0 := by decide +kernel
    have hfoot : Instr.footprint relocate (.load .ld 6 5 0) jumpedGuest = bytes dataBase 8 := rfl
    rw [spillArea_of_spills hspills, hslot, hfoot, Set.union_self]
    exact .inr (apart_of_le (by decide +kernel) (by decide +kernel))

theorem traceRun_loadTrace : TraceRun loadTraceText 1 (bytes 0x3ffffff0 8) (loadGuest 0x10000)
    (spoil (bytes 0x3ffffff0 8) jumpedGuest (.load .ld 6 5 0)) loadedGuest := by
  have hword : loadTraceText.fetch (loadedGuest.pc.setWidth 32) = 0x00000073 := by decide +kernel
  have hstop : TraceRun loadTraceText 0 (spoil (bytes 0x3ffffff0 8) jumpedGuest (.load .ld 6 5 0))
      loadedGuest (spoil (bytes 0x3ffffff0 8) jumpedGuest (.load .ld 6 5 0)) loadedGuest := by
    refine .stop ?_ (fun _ => rfl) ?_ (by decide +kernel)
    · rw [hword]
      exact .inr (.inr (.inr (by decide)))
    · rw [hword]
      exact fun h => absurd h (by decide)
  have hinst : TraceRun loadTraceText 0 (bytes 0x3ffffff0 8) jumpedGuest
      (spoil (bytes 0x3ffffff0 8) jumpedGuest (.load .ld 6 5 0)) loadedGuest :=
    .inst (w := 0x0002b303) (by decide +kernel) (by decide +kernel) undisturbed_loadTrace hstop
  have hjump : (Instr.jal (0x008000ef : Word).rd (0x008000ef : Word).immJ) = .jal 1 8 := by
    decide +kernel
  refine .jump (w := 0x008000ef) (by decide +kernel) (by decide) (.inr (by decide +kernel))
    (by decide +kernel) ?_
  rw [hjump]
  exact hinst

theorem loadTrace_simulated : ∃ e,
    Exits direct ((firstTrace loadTraceText).code requestedHost) (loadGuest 0x01000010) e ∧
      e.pc = requestedHost.handler .contextSwitchTraceExit ∧
      e.mem.read (e.regs sp + 8) 8 = 0x1000c ∧
      (execs direct e (loadInstrs t6)).regs = loadedGuest.regs := by
  have hlen : (firstTrace loadTraceText).memory.length = 32 := by decide +kernel
  obtain ⟨-, b, hb, -, hsim⟩ := allocateTrace_simulates requestedHost
    (Rail.uninstrumented_plain true) loadTraceText (allocateRoot requestedHost loadTraceText).2
    traceRun_loadTrace (by rw [CodeCache.Fits]; exact hlen.le.trans (by decide))
  have hstart : b.startLocationInCache = 0x01000010 := by
    have : ((firstTrace loadTraceText).railBasicBlocks 0x10000).map (·.startLocationInCache) =
        some 0x01000010 := by decide +kernel
    have hb' : (firstTrace loadTraceText).railBasicBlocks 0x10000 = some b := hb
    rw [hb'] at this
    exact Option.some.inj this
  rw [hstart] at hsim
  obtain ⟨e, hexits, hhandler, hread, hregs, -⟩ := hsim _ entered_loadGuest
  have hword : loadTraceText.fetch (loadedGuest.pc.setWidth 32) = 0x00000073 := by decide +kernel
  rw [hword] at hhandler
  exact ⟨e, hexits, hhandler, hread, hregs⟩

/-- A store of its own base leaves the base shifted: the guest has a zero in
`x5`, the translated trace the data offset. -/
theorem storeTrace_shifted : ∃ s' e,
    run relocate storeTraceText.guestCode 2 (loadGuest 0x10000) = some s' ∧
      Exits direct ((firstTrace storeTraceText).code requestedHost) (loadGuest 0x01000010) e ∧
      e.pc = requestedHost.handler .contextSwitchTraceExit ∧
      s'.regs 5 = 0 ∧ (execs direct e (loadInstrs t6)).regs 5 = dataBase := by
  have hguest : (run relocate storeTraceText.guestCode 2 (loadGuest 0x10000)).map (·.regs 5) =
      some 0 := by decide +kernel
  have hcache : (run direct ((firstTrace storeTraceText).code requestedHost) 25
      (loadGuest 0x01000010)).map (fun e => (e.pc, (execs direct e (loadInstrs t6)).regs 5)) =
        some (0x00020400, dataBase) := by decide +kernel
  obtain ⟨s', hrun, h5⟩ := Option.map_eq_some_iff.mp hguest
  obtain ⟨e, hrun', he⟩ := Option.map_eq_some_iff.mp hcache
  obtain ⟨hpc, h5'⟩ := Prod.mk.inj he
  have hout : (firstTrace storeTraceText).code requestedHost e.pc = none := by
    rw [hpc]
    decide +kernel
  exact ⟨s', e, hrun, ⟨⟨25, hrun'⟩, hout⟩, hpc, h5, h5'⟩

end RailTranslator
