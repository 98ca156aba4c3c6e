import RailTranslator.CacheCode
import RailTranslator.Dispatcher
import RailTranslator.DispatchRoundTrip

/-!
The block of an instruction with a typed PRE routine.

Such a block starts with `inline_save`, not with `restore_scratch`. It is
entered through `t6` like every block, so the first thing it does is to store
the address it was entered by over the guest's `t6`. The routine finds that
address in the frame, and the instruction runs with the address of its own
code in `t6`.
-/

namespace RailTranslator

open Rv64

/-! ### What is emitted -/

theorem allocateNextInst_emit (h : Host) (elfReader : ElfReader) (cache : CodeCache)
    (railBB : RailBasicBlock) :
    ∃ words type, allocateNextInst h elfReader cache railBB =
        (cache.emit words, { railBB with
          type := type, lastAddr := elfReader.pc, terminalInst := elfReader.getNextInstruction }) ∧
      (type = .syscall → opcodeOf elfReader.getNextInstruction = Op.system) := by
  dsimp only [allocateNextInst]
  split_ifs with hbranch hjal hjalr hauipc haccess hrs1 hsystem
  all_goals refine ⟨_, _, rfl, fun htype => ?_⟩
  -- only the block of a system instruction is one of type `syscall`
  all_goals first | exact hsystem | cases htype

/-- The pre-instrumented block: its words, and where its record says they start. -/
theorem allocatePreInst_spec (h : Host) (st : BBState) :
    (∃ rest, (allocatePreInst h st).cache.memory =
      st.cache.memory ++ (exitTo h.contextSwitchInstrument ++ rest)) ∧
    ∃ b, (allocatePreInst h st).cache.railBasicBlocks st.elfReader.pc = some b ∧
      b.firstAddr = st.elfReader.pc ∧ b.startLocationInCache = st.cache.here h ∧
      b.startInst = st.nextInst := by
  obtain ⟨words, type, hnext, -⟩ := allocateNextInst_emit h st.elfReader
    (st.cache.emit (exitTo h.contextSwitchInstrument))
    { h.junkBlock with
      firstAddr := st.elfReader.pc
      startInst := st.nextInst
      terminalInst := st.nextInst
      basicBlockAddress := st.railBB.basicBlockAddress
      startLocationInCache := st.cache.here h }
  simp only [allocatePreInst, hnext]
  exact ⟨⟨words, by simp⟩, _, Function.update_self _ _ _, rfl, rfl, rfl⟩

/-- A turn of `allocateBB` at an instruction with a typed PRE routine allocates
such a block, if there is none yet. -/
theorem allocateBBTurn_pre {h : Host} {r : Rail} {st : BBState}
    (hpre : preInstrumented r st.pc st.nextInst = true)
    (hnew : st.cache.railBasicBlocks st.elfReader.pc = none)
    (hfirst : st.allocatedPrev ≠ 0 → st.railBB.firstAddr ≠ st.elfReader.pc) :
    ∃ st', st'.elfReader = st.elfReader ∧
      allocateBBTurn h r st = .return (allocatePreInst h st') := by
  have hpre' : preInstrumented r st.countInst.pc st.countInst.nextInst = true := hpre
  by_cases hprev : st.allocatedPrev = 0
  · refine ⟨st.countInst, rfl, ?_⟩
    have hprev' : ¬ st.countInst.allocatedPrev ≠ 0 := by simpa [BBState.countInst] using hprev
    have hnone : ¬ (st.countInst.cache.railBasicBlocks st.countInst.elfReader.pc).isSome = true := by
      simp [BBState.countInst, hnew]
    simp only [allocateBBTurn, if_pos hpre', if_neg hprev', if_neg hnone]
  · refine ⟨st.countInst.close h .segmented (st.countInst.pc - 4)
      (st.countInst.elfReader.fetch (st.countInst.pc - 4)) (exitTo h.contextSwitch) [], rfl, ?_⟩
    have hprev' : st.countInst.allocatedPrev ≠ 0 := hprev
    have hnone : ¬ ((st.countInst.close h .segmented (st.countInst.pc - 4)
        (st.countInst.elfReader.fetch (st.countInst.pc - 4)) (exitTo h.contextSwitch)
          []).cache.railBasicBlocks (st.countInst.close h .segmented (st.countInst.pc - 4)
        (st.countInst.elfReader.fetch (st.countInst.pc - 4)) (exitTo h.contextSwitch)
          []).elfReader.pc).isSome = true := by
      have hne : st.elfReader.pc ≠ st.railBB.firstAddr := Ne.symm (hfirst hprev)
      simp [BBState.close, BBState.countInst, Function.update_of_ne hne, hnew]
    simp only [allocateBBTurn, if_pos hpre', if_pos hprev', if_neg hnone]

/-! ### What is executed -/

/-- The guest registers `G` at the entry of the block at `start`, as a context
switch leaves them: `t6` holds the address of the jump, which is four less
when a system instruction in front of the block is executed first, and the
guest's `t6` lies below the stack. -/
structure Delivered (start : DWord) (G : Regs) (E : Machine) : Prop where
  pc : E.pc = start
  regs : ∀ x, x ≠ t6 → E.regs x = G x
  entered : E.regs t6 = start ∨ E.regs t6 = start - 4
  saved : E.mem.read (G sp - 16) 8 = G t6

/-- The routine sees the guest's `t6` in the frame, and the instruction runs on
the guest's registers. -/
def Transparent (G : Regs) (call resumed : Machine) : Prop :=
  call.mem.read (frameEntry (call.regs sp) t6) 8 = G t6 ∧ resumed.regs = G

theorem returnVal_instrument {h : Host} {r : Rail} {cb : Callbacks} {d : Dispatcher} {f : TrapFrame}
    {b : RailBasicBlock} (hb : d.cache.railBasicBlocks (d.cache.currentBB.setWidth 64) = some b) :
    (instrument h r cb d f).returnVal = b.startLocationInCache + 24 := by
  simp only [instrument, CodeCache.lookup_of_some hb]

section Run

variable {h : Host} {c : CodeCache} {start : DWord} {G : Regs} {E : Machine}

/-- The block hands the address it was entered by to the routine as `t6`. -/
theorem reaches_instrument (hfit : c.Fits)
    (hcode : CodeAt (c.code h) start (exitTo h.contextSwitchInstrument))
    (hE : Delivered start G E) :
    ∃ e, Exits direct (c.code h) E e ∧ e.pc = h.handler .contextSwitchInstrument ∧
      AtHandler E e := by
  have hrun := reaches_exitTo E (h.liValue_handler .contextSwitchInstrument) hcode
  rw [← hE.pc, Machine.goto_self] at hrun
  refine ⟨_, ⟨hrun, code_handler hfit .contextSwitchInstrument⟩, rfl, ?_⟩
  have := atHandler_inlineSave E (h.handler .contextSwitchInstrument)
  rw [execs_saveInstrs (by decide)] at this
  exact (this.goto (h.handler .contextSwitchInstrument))

/-- Neither half of transparency survives: the address the block was entered by
and the address at which the instruction stands are different. -/
theorem not_transparent {e : Machine} (he : AtHandler E e) (hE : Delivered start G E) {n : ℕ}
    {ret : Machine}
    (hret : Returned n (execs direct e SwitchRoutine.contextSwitchInstrument.before) ret)
    (hresume : ret.regs a0 = start + 24) :
    ¬ Transparent G (execs direct e SwitchRoutine.contextSwitchInstrument.before)
      (execs direct ret restoreContext) := by
  rintro ⟨hframe, hregs⟩
  have hcall := atCall_before .contextSwitchInstrument he
  obtain ⟨hsp, hentry⟩ := frame_of_returned he hret
  obtain ⟨-, -, -, ht, -⟩ := execs_restoreContext hsp hentry
  rw [hcall.sp, hcall.frame t6 (by decide) (by decide)] at hframe
  rw [hregs, hresume] at ht
  rcases hE.entered with hent | hent <;> rw [hent, ht] at hframe <;> bv_omega

end Run

/-! ### Entering the block -/

def frameRegs (b guestSp : DWord) (m : Mem) : Regs :=
  ⟨fun i => if i = 0 then 0 else if i = sp then guestSp else m.read (frameEntry b i) 8, rfl⟩

/-- A context switch whose function answers the start of a block delivers the
registers of the frame there. -/
theorem delivered_of_returned {routine : SwitchRoutine} {s e ret : Machine} {start : DWord} {n : ℕ}
    (he : AtHandler s e) (hret : Returned n (execs direct e routine.before) ret)
    (hstart : ret.regs a0 = start) (heven : start.getLsbD 0 = false) :
    Delivered start (frameRegs (frameOf s) (s.regs sp) ret.mem)
      (execs direct ret restoreContext) := by
  obtain ⟨hsp, hentry⟩ := frame_of_returned he hret
  obtain ⟨hpc, hmem, hsp', ht, hregs⟩ := execs_restoreContext hsp hentry
  have hup : frameOf s + 256 = s.regs sp := by simp only [frameOf]; bv_omega
  rw [hup] at hsp'
  refine ⟨?_, fun x hx => ?_, .inl (ht.trans hstart), ?_⟩
  · rw [hpc, hstart, and_not_one_of_even heven]
  · by_cases h0 : x = 0
    · subst h0; exact (Regs.apply_zero _).trans (Regs.apply_zero _).symm
    · by_cases hxsp : x = sp
      · subst hxsp; exact hsp'
      · rw [hregs x h0 hxsp hx]
        exact ((if_neg h0).trans (if_neg hxsp)).symm
  · have hframe : frameRegs (frameOf s) (s.regs sp) ret.mem t6 =
        ret.mem.read (frameEntry (frameOf s) t6) 8 := rfl
    have hguestSp : frameRegs (frameOf s) (s.regs sp) ret.mem sp = s.regs sp := rfl
    rw [hframe, hguestSp, hmem, frameEntry_t6]
    rfl

/-! ### No pre-instrumented instruction is transparent -/

/-- The block that a turn of `allocateBB` has allocated for a pre-instrumented
instruction is never transparent: whatever the guest registers it is entered
with, and whatever the routine does with the frame, the routine is shown a
`t6` that is an address in the cache or the instruction is run with one. -/
theorem pre_instrumentation_never_transparent {h : Host} {r : Rail} {st st' : BBState}
    (hpre : preInstrumented r st.pc st.nextInst = true)
    (hnew : st.cache.railBasicBlocks st.elfReader.pc = none)
    (hfirst : st.allocatedPrev ≠ 0 → st.railBB.firstAddr ≠ st.elfReader.pc)
    (hturn : allocateBBTurn h r st = .return st') :
    ∃ b, st'.cache.railBasicBlocks st.elfReader.pc = some b ∧ b.firstAddr = st.elfReader.pc ∧
      ∀ (d : Dispatcher) (cb : Callbacks) (f : TrapFrame) (current : RailBasicBlock),
        st'.cache.memory <+: d.cache.memory → d.cache.Fits →
        d.cache.railBasicBlocks (d.cache.currentBB.setWidth 64) = some current →
        current.startLocationInCache = b.startLocationInCache →
        ∀ G E, Delivered b.startLocationInCache G E →
          ∃ e, Exits direct (d.cache.code h) E e ∧ e.pc = h.handler .contextSwitchInstrument ∧
            ∀ n ret,
              Returned n (execs direct e SwitchRoutine.contextSwitchInstrument.before) ret →
              ret.regs a0 = (instrument h r cb d f).returnVal →
              (execs direct ret restoreContext).pc = b.startLocationInCache + 24 ∧
              ¬ Transparent G (execs direct e SwitchRoutine.contextSwitchInstrument.before)
                (execs direct ret restoreContext) := by
  obtain ⟨st₀, hreader, hturn'⟩ := allocateBBTurn_pre (h := h) hpre hnew hfirst
  obtain rfl : st' = allocatePreInst h st₀ := by
    rw [hturn] at hturn'; injection hturn'
  obtain ⟨⟨rest, hmem⟩, b, hb, hbfirst, hbstart, -⟩ := allocatePreInst_spec h st₀
  rw [hreader] at hb hbfirst
  refine ⟨b, hb, hbfirst, fun d cb f current hprefix hfit hcurrent hsame G E hE => ?_⟩
  have hcode : CodeAt (d.cache.code h) b.startLocationInCache
      (exitTo h.contextSwitchInstrument) := by
    rw [hbstart]
    refine codeAt_emitted hfit (List.IsPrefix.trans ?_ hprefix)
    exact ⟨rest, by rw [hmem, List.append_assoc]⟩
  obtain ⟨e, hexits, hpc, hat⟩ := reaches_instrument hfit hcode hE
  refine ⟨e, hexits, hpc, fun n ret hret ha0 => ?_⟩
  -- `instrument` answers the word behind the six of the exit
  have hval : ret.regs a0 = b.startLocationInCache + 24 := by
    rw [ha0, returnVal_instrument hcurrent, hsame]
  have heven : (b.startLocationInCache + 24).getLsbD 0 = false := by
    refine getLsbD_zero_of_mod ?_
    have := toNat_wordAddr_base h (st₀.cache.memoryIndex + 6)
    rw [wordAddr_add] at this
    rw [hbstart]
    exact this
  refine ⟨?_, not_transparent hat hE hret hval⟩
  obtain ⟨hsp, hentry⟩ := frame_of_returned hat hret
  rw [(execs_restoreContext hsp hentry).1, hval, and_not_one_of_even heven]

/-! An `addi x5, x5, 1` with a PRE routine for its type, entered by a guest
whose registers are zero. -/

def preRail : Rail := { Rail.plain false with
  instructionRoutinesTypedPre := fun t => if t = .iType then [⟨0, 0, 0x7fffffff⟩] else []
  preInstrumentationRoutines := true
  instructionRoutinesEnd := 0x7fffffff }

/-- `addi x5, x5, 1; ecall` -/
def addiText : ElfReader := .ofWords 0x10000 [0x00128293, 0x00000073]

def addiStart : BBState :=
  allocateBBStart requestedHost addiText (allocateRoot requestedHost addiText).2 0x10000

def addiDispatcher : Dispatcher where
  elfReader := addiText
  cache := (allocatePreInst requestedHost addiStart.countInst).cache
  cfgGenerator := none
  calls := []

def zeroRegs : Regs := ⟨fun _ => 0, Regs.const_zero⟩

def addiEntry : Machine where
  pc := 0x01000014
  regs := zeroRegs.set t6 0x01000014
  mem _ := 0

theorem delivered_addiEntry : Delivered 0x01000014 zeroRegs addiEntry where
  pc := rfl
  regs _ hx := Regs.set_of_ne _ _ hx
  entered := .inl (Regs.set_same _ _ (by decide))
  saved := by decide +kernel

theorem fits_addiDispatcher : addiDispatcher.cache.Fits := by
  have : addiDispatcher.cache.memory.length = 18 := by decide +kernel
  rw [CodeCache.Fits, this]
  decide

def addiResumed (call : Machine) : Machine :=
  call.setReg a0
    (instrument requestedHost preRail idleCallbacks addiDispatcher fun _ => 0).returnVal

theorem returned_addiResumed (call : Machine) : Returned 0 call (addiResumed call) :=
  ⟨Regs.set_of_ne _ _ (by decide), rfl, fun _ _ _ => rfl⟩

theorem addiResumed_a0 (call : Machine) : (addiResumed call).regs a0 = 0x0100002c := by
  refine (Regs.set_same _ _ (by decide)).trans ?_
  decide +kernel

theorem codeAt_addiDispatcher : CodeAt (addiDispatcher.cache.code requestedHost) 0x01000014
    (exitTo requestedHost.contextSwitchInstrument) :=
  @codeAt_emitted _ _ fits_addiDispatcher addiStart.cache.memory _ (by decide +kernel)

/-- The routine finds the address of the block in the frame where the guest's
`t6` is zero, and the instruction is run with its own address in `t6`. -/
theorem addi_pre_shows_cache_address : ∃ e,
    Exits direct (addiDispatcher.cache.code requestedHost) addiEntry e ∧
      e.pc = requestedHost.handler .contextSwitchInstrument ∧
      (execs direct e SwitchRoutine.contextSwitchInstrument.before).mem.read
        (frameEntry (frameOf addiEntry) t6) 8 = 0x01000014 ∧
      (execs direct (addiResumed (execs direct e SwitchRoutine.contextSwitchInstrument.before))
        restoreContext).regs t6 = 0x0100002c ∧
      zeroRegs t6 = 0 ∧
      ¬ Transparent zeroRegs (execs direct e SwitchRoutine.contextSwitchInstrument.before)
        (execs direct (addiResumed (execs direct e SwitchRoutine.contextSwitchInstrument.before))
          restoreContext) := by
  obtain ⟨e, hexits, hpc, hat⟩ :=
    reaches_instrument fits_addiDispatcher codeAt_addiDispatcher delivered_addiEntry
  have hret := returned_addiResumed (execs direct e SwitchRoutine.contextSwitchInstrument.before)
  have ha0 := addiResumed_a0 (execs direct e SwitchRoutine.contextSwitchInstrument.before)
  obtain ⟨hsp, hentry⟩ := frame_of_returned hat hret
  obtain ⟨-, -, -, ht, -⟩ := execs_restoreContext hsp hentry
  refine ⟨e, hexits, hpc, ?_, ht.trans ha0, rfl,
    not_transparent hat delivered_addiEntry hret ha0⟩
  rw [(atCall_before .contextSwitchInstrument hat).frame t6 (by decide) (by decide)]
  exact Regs.set_same _ _ (by decide)

/-- A guest whose registers are zero has left its block, and `stub` has answered
the pre-instrumented one. -/
def addiReturned : Machine :=
  (execs direct ((execs direct ⟨0, zeroRegs, fun _ => 0⟩ (saveInstrs t6)).setReg t6 0)
    SwitchRoutine.contextSwitch.before).setReg a0 0x01000014

/-- The general statement at this block, where a context switch has brought the
guest. -/
theorem addi_never_transparent : ∃ G e, Delivered 0x01000014 G (execs direct addiReturned
      restoreContext) ∧ G t6 = 0 ∧
    Exits direct (addiDispatcher.cache.code requestedHost) (execs direct addiReturned
      restoreContext) e ∧
      ¬ Transparent G (execs direct e SwitchRoutine.contextSwitchInstrument.before)
        (execs direct (addiResumed (execs direct e SwitchRoutine.contextSwitchInstrument.before))
          restoreContext) := by
  obtain ⟨b, hb, -, hrun⟩ := @pre_instrumentation_never_transparent requestedHost preRail addiStart
    (allocatePreInst requestedHost addiStart.countInst) (by decide +kernel) rfl
    (fun hprev => absurd rfl hprev) rfl
  have hstart : b.startLocationInCache = 0x01000014 := by
    have : (addiDispatcher.cache.railBasicBlocks addiStart.elfReader.pc).map
        (·.startLocationInCache) = some 0x01000014 := by decide +kernel
    rw [addiDispatcher, hb] at this
    exact Option.some.inj this
  have hat := atHandler_inlineSave ⟨0, zeroRegs, fun _ => 0⟩ 0
  have hret : Returned 0 (execs direct _ SwitchRoutine.contextSwitch.before) addiReturned :=
    ⟨Regs.set_of_ne _ _ (by decide), rfl, fun _ _ _ => rfl⟩
  have hdelivered := delivered_of_returned hat hret (Regs.set_same _ _ (by decide)) (by decide)
  obtain ⟨e, hexits, -, hreturn⟩ := hrun addiDispatcher idleCallbacks (fun _ => 0) b
    List.prefix_rfl fits_addiDispatcher hb rfl _ _ (hstart ▸ hdelivered)
  refine ⟨_, e, hdelivered, ?_, hexits, (hreturn 0 _ (returned_addiResumed _) ?_).2⟩
  · exact (atCall_before .contextSwitch hat).frame t6 (by decide) (by decide)
  · exact Regs.set_same _ _ (by decide)

end RailTranslator
