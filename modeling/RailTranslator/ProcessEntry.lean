import RailTranslator.InitFrame
import RailTranslator.WholeRuns

/-!
How the process gets from `executeFirstBlock` to the guest's first instruction.

The cache begins with a jump to `init_switch`, which makes room on the host's
stack and calls `init`. `init` translates the block at the entry, writes the
guest's arguments and environment from its frame upwards, and returns the
block's address. `init_switch` clears the registers it knows of and jumps
there, without moving the stack back: the guest's stack begins where the words
of `init` begin.
-/

namespace RailTranslator

open Rv64 Transition ProcessStart

/-! ### `init_switch` behind its call -/

/-- `a0` to `a7`, `s0` to `s11` and `t0` to `t5`, in this order. -/
def clearedRegs : List Reg :=
  [10, 11, 12, 13, 14, 15, 16, 17, 8, 9, 18, 19, 20, 21, 22, 23, 24, 25, 26, 27, 5, 6, 7, 28, 29,
    30]

def initRestore : List Instr := mv t6 a0 :: (clearedRegs.map (li · 0) ++ [.jalr 0 t6 0])

/-- `init` has been called with its frame at `a0` and has returned: the words
of the guest's stack lie from there on, and what it uses below is `depth`
bytes. The registers that compiled code does not use are as they were. -/
structure InitReturned (a : RailArgs) (e : ElfFile) (depth : ℕ) (call ret : Machine) : Prop where
  sp : ret.regs sp = call.regs sp
  threaded : ∀ i : Reg, i = 3 ∨ i = 4 → ret.regs i = call.regs i
  words : ∀ i, i < (stackWords a e).length → ret.mem.read (stackAddr (call.regs a0) i) 8 =
    initStack a e (fun j => call.mem.read (stackAddr (call.regs a0) j) 8) i
  mem : ∀ x ∉ bytes (call.regs a0) (8 * (stackWords a e).length),
    x ∉ bytes (call.regs Rv64.sp - BitVec.ofNat 64 depth) depth → ret.mem x = call.mem x

/-- The guest as `init_switch` enters it: the first block will load `t6` from
the slot below the stack. -/
def guestEntry (elf : ElfReader) (ret : Machine) : Machine :=
  ((execs direct ret (clearedRegs.map (li · 0))).setReg t6 (ret.mem.read (slot ret) 8)).goto
    elf.entryAddr

/-- The guest stands in front of its first instruction, in a process whose
registers and memory were those of `s` when the code in the cache was called. -/
structure AtEntry (a : RailArgs) (e : ElfFile) (elf : ElfReader) (depth : ℕ) (s g : Machine) :
    Prop where
  pc : g.pc = elf.entryAddr
  sp : g.regs sp = s.regs sp - 512
  cleared : ∀ i ∈ clearedRegs, g.regs i = 0
  threaded : ∀ i : Reg, i = 3 ∨ i = 4 → g.regs i = s.regs i
  stack : 0 ≤ a.railArgc.toInt → Reads BitVec.toNat
    (fun i => g.mem.read (stackAddr (g.regs Rv64.sp) i) 8) { processStart a e with auxv := [] }
  mem : ∀ x ∉ bytes (g.regs Rv64.sp) (8 * (stackWords a e).length),
    x ∉ bytes (g.regs Rv64.sp - BitVec.ofNat 64 depth) depth → g.mem x = s.mem x

/-! ### The instructions -/

section Instrs

variable {h : Host} {elf : ElfReader} {a : RailArgs} {e : ElfFile} {depth : ℕ}
  {s call ret : Machine}

theorem execs_initSwitch (s : Machine) :
    (execs direct s initSwitch).regs sp = s.regs sp - 512 ∧
      (execs direct s initSwitch).regs a0 = s.regs sp - 512 ∧
      (∀ i : Reg, i = 3 ∨ i = 4 → (execs direct s initSwitch).regs i = s.regs i) ∧
      (execs direct s initSwitch).mem = s.mem := by
  have hlowered : s.regs sp + -512 = s.regs sp - 512 := by bv_omega
  refine ⟨?_, initFrame_eq s, ?_, rfl⟩
  · simp +decide only [initSwitch, execs_cons, execs_nil, exec_moveSp, exec_mv, exec_li,
      Machine.regs_goto, Machine.regs_setReg, Regs.set_apply, if_true, if_false]
    exact hlowered
  · rintro i (rfl | rfl) <;>
      simp +decide only [initSwitch, execs_cons, execs_nil, exec_moveSp, exec_mv, exec_li,
        Machine.regs_goto, Machine.regs_setReg, Regs.set_apply, if_false]

theorem execs_clear (L : List Reg) (s : Machine) :
    (execs direct s (L.map (li · 0))).mem = s.mem ∧
      ∀ i, (execs direct s (L.map (li · 0))).regs i = if i ∈ L then 0 else s.regs i := by
  induction L generalizing s with
  | nil => exact ⟨rfl, fun i => rfl⟩
  | cons r L ih =>
      obtain ⟨hmem, hregs⟩ := ih ((li r 0).exec direct s)
      rw [List.map_cons, execs_cons]
      refine ⟨hmem.trans (by rw [exec_li]; rfl), fun i => ?_⟩
      rw [hregs, exec_li, Machine.regs_goto, Machine.regs_setReg]
      by_cases hin : i ∈ L
      · rw [if_pos hin, if_pos (List.mem_cons_of_mem _ hin)]
      · rw [if_neg hin]
        by_cases hi : i = r
        · subst hi
          rw [if_pos List.mem_cons_self]
          by_cases h0 : i = 0
          · rw [h0, Regs.zero]
          · exact Regs.set_same _ _ h0
        · rw [if_neg (by simp [hi, hin]), Regs.set_of_ne _ _ hi]

theorem execs_initRestore (ret : Machine) :
    (execs direct ret initRestore).pc = ret.regs a0 &&& ~~~1#64 ∧
      (execs direct ret initRestore).mem = ret.mem ∧
      ∀ i, i ≠ t6 → (execs direct ret initRestore).regs i =
        (execs direct ret (clearedRegs.map (li · 0))).regs i := by
  have hoff (a : DWord) : a + (0 : BitVec 12).signExtend 64 = a := by simp
  have hjump (c : Machine) : execs direct c [.jalr 0 t6 0] = c.goto (c.regs t6 &&& ~~~1#64) := by
    simp only [execs_cons, execs_nil, Instr.exec, hoff]
    exact congrArg (Machine.goto · _) (Machine.setReg_zero _ _)
  obtain ⟨hmem, hregs⟩ := execs_clear clearedRegs ((mv t6 a0).exec direct ret)
  obtain ⟨hmem', hregs'⟩ := execs_clear clearedRegs ret
  rw [initRestore, execs_cons, execs_append, hjump]
  refine ⟨?_, ?_, fun i hi => ?_⟩
  · have ht : ((mv t6 a0).exec direct ret).regs t6 = ret.regs a0 := by
      rw [exec_mv]
      exact Regs.set_same _ _ (by decide)
    rw [Machine.pc_goto, hregs, if_neg (by decide), ht]
  · rw [Machine.mem_goto, hmem, exec_mv]
    rfl
  · have hmv : ((mv t6 a0).exec direct ret).regs i = ret.regs i := by
      rw [exec_mv]
      exact Regs.set_of_ne _ _ hi
    rw [Machine.regs_goto, hregs, hregs', hmv]

theorem mem_guestEntry (elf : ElfReader) (ret : Machine) :
    (guestEntry elf ret).mem = ret.mem := by
  rw [guestEntry, Machine.mem_goto, Machine.mem_setReg, (execs_clear _ _).1]

theorem regs_guestEntry (elf : ElfReader) (ret : Machine) (i : Reg) :
    (guestEntry elf ret).regs i = if i = t6 then ret.mem.read (slot ret) 8
      else if i ∈ clearedRegs then 0 else ret.regs i := by
  rw [guestEntry, Machine.regs_goto, Machine.regs_setReg]
  by_cases hi : i = t6
  · rw [hi, Regs.set_same _ _ (by decide), if_pos rfl]
  · rw [Regs.set_of_ne _ _ hi, if_neg hi, (execs_clear _ _).2]

theorem exits_root (h : Host) (elf : ElfReader) {s : Machine} (hpc : s.pc = h.base) :
    ∃ c, Exits direct ((allocateRoot h elf).2.code h) s c ∧ c.pc = h.initSwitch ∧
      (∀ i, i ≠ t6 → c.regs i = s.regs i) ∧ c.mem = s.mem := by
  have hli : liValue h.initSwitch = h.initSwitch := h.handlers_li _ (by simp)
  have hout : cacheSize ≤ (h.initSwitch - h.base).toNat := h.handlers_outside _ (by simp)
  have hfits : (allocateRoot h elf).2.Fits := by
    show 4 ≤ cacheSize / 4
    decide
  have hcode : CodeAt ((allocateRoot h elf).2.code h) h.base
      (insertLi h.initSwitch regs.t6 ++ [jalrInst]) := by
    have hat := @codeAt_emitted h _ hfits [] (insertLi h.initSwitch regs.t6 ++ [jalrInst])
      (List.prefix_refl _)
    rwa [List.length_nil, wordAddr_zero] at hat
  have hreach := @reaches_handler direct _ s _ _ hli hcode
  have hself : s.goto h.base = s := by rw [← hpc]; rfl
  rw [hself] at hreach
  refine ⟨_, ⟨hreach, image_eq_none ?_⟩, rfl, fun i hi => Regs.set_of_ne _ _ hi, rfl⟩
  rw [CodeCache.Fits] at hfits
  exact (Nat.mul_le_mul_left 4 hfits).trans hout

theorem atEntry_guestEntry {c : Machine} (hstart : ∀ i, i ≠ t6 → c.regs i = s.regs i)
    (hsame : c.mem = s.mem) (hret : InitReturned a e depth (execs direct c initSwitch) ret) :
    AtEntry a e elf depth s (guestEntry elf ret) := by
  obtain ⟨hsp, ha0, hthreaded, hmem⟩ := execs_initSwitch c
  generalize execs direct c initSwitch = call at hret hsp ha0 hthreaded hmem
  rw [hstart sp (by decide)] at hsp ha0
  have hguest : (guestEntry elf ret).regs sp = s.regs sp - 512 := by
    rw [regs_guestEntry, if_neg (by decide), if_neg (by decide), hret.sp, hsp]
  refine ⟨Machine.pc_goto _ _, hguest, fun i hi => ?_, fun i hi => ?_, fun hargc => ?_,
    fun x hx hx' => ?_⟩
  · have hnot : i ≠ t6 := by
      rintro rfl
      exact absurd hi (by decide)
    rw [regs_guestEntry, if_neg hnot, if_pos hi]
  · have hnot : i ≠ t6 ∧ i ∉ clearedRegs := by
      rcases hi with rfl | rfl <;> decide
    rw [regs_guestEntry, if_neg hnot.1, if_neg hnot.2, hret.threaded i hi, hthreaded i hi,
      hstart i hnot.1]
  · -- the words are already there
    have hwords : initStack a e (fun i => ret.mem.read (stackAddr (s.regs sp - 512) i) 8) =
        fun i => ret.mem.read (stackAddr (s.regs sp - 512) i) 8 := by
      funext i
      by_cases hi : i < (stackWords a e).length
      · rw [← ha0, hret.words i hi, initStack_eq, words_push_all, initStack_eq, words_push_all,
          if_pos (Nat.zero_le _), if_pos (Nat.zero_le _), Nat.sub_zero,
          List.getD_eq_getElem _ _ hi, List.getD_eq_getElem _ _ hi]
      · exact initStack_behind _ (Nat.not_lt.mp hi)
    rw [hguest, mem_guestEntry, ← hwords]
    exact initStack_reads hargc e _
  · rw [hguest] at hx hx'
    rw [mem_guestEntry, hret.mem x (by rwa [ha0]) (by rwa [hsp]), hmem, hsame]

end Instrs

/-! ### The first block -/

section Entry

variable {h : Host} {r : Rail} {cb : Callbacks} {elf : ElfReader}
  {cfgGenerator : Option CfgGenerator} {a : RailArgs} {e : ElfFile} {depth : ℕ}
  {s ret : Machine}

theorem returnVal_init {f : TrapFrame} {b : RailBasicBlock}
    (hb : (init h r cb (rootDispatcher h elf cfgGenerator) f).dispatcher.cache.railBasicBlocks
      elf.entryAddr = some b) :
    (init h r cb (rootDispatcher h elf cfgGenerator) f).returnVal = b.startLocationInCache := by
  obtain ⟨next, hnext, hinit⟩ := @init_dispatcher h r cb elf f cfgGenerator
  have hself := railBasicBlocks_lookup_self (allocateEntry h r elf).2 elf.entryAddr
  rw [hinit] at hb
  obtain rfl := Option.some.inj (hself.symm.trans hb)
  rw [init]
  rfl

theorem lands_init (hlink : r.traceLinkingEnabled = false)
    (hentry : Enterable r elf elf.entryAddr) (f : TrapFrame) :
    Lands (init h r cb (rootDispatcher h elf cfgGenerator) f) elf.entryAddr := by
  have hint := asInt_of_low hentry.low
  have hnone : (allocateRoot h elf).2.railBasicBlocks elf.entryAddr = none := rfl
  have hsome : ((allocateEntry h r elf).2.railBasicBlocks elf.entryAddr).isSome = true := by
    rw [allocateEntry, allocate, hlink]
    exact (@allocateBB_registers_iff h r elf (elf.entry.setWidth 32) _ _ hint hnone).mpr
      hentry.block
  obtain ⟨next, hnext⟩ := Option.isSome_iff_exists.mp hsome
  have hfirst : next.firstAddr = elf.entryAddr := by
    have hnext' := hnext
    rw [allocateEntry, allocate, hlink] at hnext'
    rcases @allocateBB_record h r elf next (elf.entry.setWidth 32) _ _ _ hnext' with
      hroot | ⟨-, hfirst, -⟩
    · cases hroot
    · exact hfirst
  obtain ⟨next', -, hinit⟩ := @init_dispatcher h r cb elf f cfgGenerator
  have hlookup := CodeCache.lookup_of_some hnext
  refine ⟨?_, next, ?_, ?_, ?_⟩
  · have hlow := hentry.low
    rw [hinit, hlookup, allocateEntry, currentBB_allocate, hint]
    bv_omega
  · rw [hinit, hlookup]
    exact hnext
  · rintro rfl
    exact hentry.ne_zero hfirst.symm
  · exact returnVal_init (by rw [hinit, hlookup]; exact hnext)

/-- Behind `init_switch` the block it jumps to is about to continue the guest. -/
theorem entered_initRestore {start : DWord} (hval : ret.regs a0 = start)
    (heven : start.getLsbD 0 = false) :
    Entered start ∅ (guestEntry elf ret) (execs direct ret initRestore) := by
  obtain ⟨hjump, hmem, hregs⟩ := execs_initRestore ret
  refine ⟨?_, fun i hi => ?_, ?_, fun x _ => ?_⟩
  · rw [hjump, hval]
    exact and_not_one_of_even heven
  · rw [hregs i hi, regs_guestEntry, if_neg hi, (execs_clear _ _).2]
  · have hslot : slot (guestEntry elf ret) = slot ret := by
      rw [slot, slot, regs_guestEntry, if_neg (by decide), if_neg (by decide)]
    rw [hmem, hslot, regs_guestEntry, if_pos rfl]
  · rw [hmem, mem_guestEntry]

/-- Behind `init_switch` the host is about to continue a guest at its entry. -/
theorem simulates_entry (hlink : r.traceLinkingEnabled = false) (hr : r.NoTypedPre)
    (hentry : Enterable r elf elf.entryAddr) {f : TrapFrame}
    (hval : ret.regs a0 = (init h r cb (rootDispatcher h elf cfgGenerator) f).returnVal) :
    Simulates h r cb elf cfgGenerator ⟨guestEntry elf ret, ∅⟩
      ⟨execs direct ret initRestore,
        (init h r cb (rootDispatcher h elf cfgGenerator) f).dispatcher⟩ := by
  have hrun : Run (dispatch h r cb elf cfgGenerator) Any []
      (init h r cb (rootDispatcher h elf cfgGenerator) f).dispatcher := .start ⟨f, rfl⟩
  obtain ⟨hcurrent, b, hb, hne, hstart⟩ := @lands_init h r cb elf cfgGenerator hlink hentry f
  obtain ⟨ps, q, e', hst⟩ := ((standing_run hlink hr hrun).2 _ b hb).resolve_left hne
  exact ⟨⟨[], hrun⟩, hcurrent, b, hb, hne, entered_initRestore (hval.trans hstart) hst.even⟩

/-- From the first word of the cache the process arrives at the guest's first
instruction: the cache leads to `init_switch`, and however `init` returns the
block it answers is about to continue a guest that stands at its entry. -/
theorem process_enters_guest (hlink : r.traceLinkingEnabled = false) (hr : r.NoTypedPre)
    (hentry : Enterable r elf elf.entryAddr) (hpc : s.pc = h.base) (f : TrapFrame) :
    ∃ c, Exits direct ((rootDispatcher h elf cfgGenerator).cache.code h) s c ∧
      c.pc = h.initSwitch ∧
      ∀ ret, InitReturned a e depth (execs direct c initSwitch) ret →
        ret.regs a0 = (init h r cb (rootDispatcher h elf cfgGenerator) f).returnVal →
        AtEntry a e elf depth s (guestEntry elf ret) ∧
          Simulates h r cb elf cfgGenerator ⟨guestEntry elf ret, ∅⟩
            ⟨execs direct ret initRestore,
              (init h r cb (rootDispatcher h elf cfgGenerator) f).dispatcher⟩ := by
  obtain ⟨c, hexits, hc, hstart, hsame⟩ := exits_root h elf hpc
  exact ⟨c, hexits, hc, fun ret hret hval =>
    ⟨atEntry_guestEntry hstart hsame hret, simulates_entry hlink hr hentry hval⟩⟩

/-- `init` can return with any answer, if the words are not more than memory
has room for. -/
theorem exists_initReturned {a : RailArgs} {e : ElfFile}
    (hlen : 8 * (stackWords a e).length < 2 ^ 64) (depth : ℕ) (call : Machine) (v : DWord) :
    ∃ ret, InitReturned a e depth call ret ∧ ret.regs a0 = v := by
  obtain ⟨b, hb⟩ : ∃ b, b = call.regs a0 := ⟨_, rfl⟩
  let mem : Mem := fun x => if (x - b).toNat < 8 * (stackWords a e).length then
    ((stackWords a e).getD ((x - b).toNat / 8) 0).extractLsb' (8 * ((x - b).toNat % 8)) 8
    else call.mem x
  refine ⟨{ call with mem := mem }.setReg a0 v, ⟨Regs.set_of_ne _ _ (by decide), fun i hi => ?_,
    fun i hi => ?_, fun x hx _ => if_neg (by rw [hb]; exact hx)⟩, Regs.set_same _ _ (by decide)⟩
  · rcases hi with rfl | rfl <;> exact Regs.set_of_ne _ _ (by decide)
  · rw [← hb, initStack_eq, words_push_all, if_pos (Nat.zero_le _), Nat.sub_zero,
      List.getD_eq_getElem _ _ hi, ← Mem.read_write_same mem (stackAddr b i) (stackWords a e)[i]]
    refine Mem.read_congr (by decide) fun x hx => ?_
    rw [Mem.write_of_mem hx]
    rw [mem_bytes] at hx
    have hoffset : (x - b).toNat = 8 * i + (x - stackAddr b i).toNat := by
      rw [stackAddr] at hx ⊢
      bv_omega
    have hindex : (x - b).toNat / 8 = i ∧ (x - b).toNat % 8 = (x - stackAddr b i).toNat := by
      omega
    show (if _ then _ else _) = _
    rw [if_pos (by omega), hindex.1, hindex.2, List.getD_eq_getElem _ _ hi]

theorem counting_enters : ∃ ret, AtEntry oneArg blankFile countingText 0 (loadGuest 0x01000000)
      (guestEntry countingText ret) ∧
    Simulates requestedHost (.plain false) idleCallbacks countingText none
      ⟨guestEntry countingText ret, ∅⟩
      ⟨execs direct ret initRestore, started (.plain false) countingText⟩ := by
  have hentry : countingText.entryAddr = 0x10000 := by decide +kernel
  obtain ⟨c, -, -, henter⟩ := @process_enters_guest requestedHost (.plain false) idleCallbacks
    countingText none oneArg blankFile 0 (loadGuest 0x01000000) rfl (noTypedPre_plain false)
    ⟨by rw [hentry]; decide, by rw [hentry]; decide, by rw [hentry]; exact hasBlock_counting⟩ rfl
    fun _ => 0
  obtain ⟨ret, hret, hval⟩ := @exists_initReturned oneArg blankFile
    (by rw [length_stackWords]; decide) 0 (execs direct c initSwitch) _
  exact ⟨ret, henter ret hret hval⟩

end Entry

end RailTranslator
