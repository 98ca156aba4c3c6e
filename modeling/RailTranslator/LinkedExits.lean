import RailTranslator.Linking

/-!
What linked exits do.

An exit that has been linked leads past `restore_scratch` of the successor's
block; an exit that has not goes through a routine and `stub` to the same
place. `Dispatched` is that second way, with the calling convention of
`stub`. For a branch both deliver the registers of the guest. For a jump the
link overwrites the last two words of the stub, behind the words that load
`t6`, and nothing writes the link register.
-/

namespace RailTranslator

open Rv64

/-! ### The way through the dispatcher -/

def frameAt (m : Mem) (b : DWord) : TrapFrame := fun i => m.read (frameEntry b i) 8

/-- The guest in state `s` leaves through an exit as it was emitted: routine
`k` finds the guest address `a` on the stack and calls `stub`, which answers
`res`; `s'` is the guest behind `restore_scratch` of the block it enters. -/
structure Dispatched (h : Host) (r : Rail) (cb : Callbacks) (io : IoRequest → DWord)
    (d : Dispatcher) (k : SwitchRoutine) (a : DWord) (s : Machine) (res : Resume)
    (s' : Machine) : Prop where
  intro ::
  run : ∃ e ret depth, AtHandler s e ∧ e.mem.read (slot s + 8) 8 = a ∧
    stub h r cb io d (frameAt (execs direct e k.before).mem ((execs direct e k.before).regs a0))
      ((execs direct e k.before).regs a1) ((execs direct e k.before).regs a3) = .returned res ∧
    depth + 256 ≤ 2 ^ 64 ∧ Returned depth (execs direct e k.before) ret ∧
    ret.regs a0 = res.returnVal ∧
    (∀ i, i ≠ 0 → i ≠ sp → ret.mem.read (frameEntry (frameOf s) i) 8 = res.frame i) ∧
    s' = execs direct (execs direct ret restoreContext) [restoreScratchInstr]

section

variable {h : Host} {r : Rail} {cb : Callbacks} {io : IoRequest → DWord} {d : Dispatcher}
  {k : SwitchRoutine} {a : DWord} {s s' : Machine} {res : Resume}

theorem Dispatched.spec (hk : k.IsTrace) (hd : Dispatched h r cb io d k a s res s') :
    ∃ f, (∀ i, i ≠ 0 → i ≠ sp → f i = s.regs i) ∧ stub h r cb io d f k.taken a = .returned res ∧
      s'.pc = (res.returnVal &&& ~~~1#64) + 4 ∧ s'.regs sp = s.regs sp ∧
      ∀ i, i ≠ 0 → i ≠ sp → s'.regs i = res.frame i := by
  obtain ⟨e, ret, depth, he, hstored, hstub, hdepth, hret, ha0, hframe, rfl⟩ := hd
  have hcall := atCall_before k he
  rw [hcall.a0, hcall.a1, hcall.a3, if_pos hk, hstored] at hstub
  obtain ⟨hsp, hentry⟩ := frame_of_returned he hret
  have hpc := (execs_restoreContext hsp hentry).1
  obtain ⟨hsp', hregs, -⟩ := restored_of_returned he hdepth hret
  have hstraight : restoreScratchInstr.Straight := trivial
  refine ⟨_, fun i h0 hi => hcall.frame i h0 hi, hstub, ?_, hsp', fun i h0 hi => ?_⟩
  · rw [execs_cons, execs_nil, Instr.pc_exec direct hstraight, hpc, ha0]
  · rw [hregs i h0 hi, hframe i h0 hi]

end

def sideRoutine (taken : Bool) : SwitchRoutine :=
  if taken then .contextSwitchTraceExitTaken else .contextSwitchTraceExit

theorem taken_sideRoutine (taken : Bool) : decide ((sideRoutine taken).taken ≠ 0) = taken := by
  cases taken <;> decide

def regsBehind (elf : ElfReader) (e : ExitStub) (regs : Regs) : Regs :=
  if (e.word elf).opcode = Opcode.jal then
    regs.set (e.word elf).rd ((e.pc + 4).signExtend 64)
  else regs

/-- Through the dispatcher an exit leads to the block that is registered for
the guest's successor, with the registers of the guest. A jump that links to
`sp` is left out: the routine restores `sp` itself. -/
theorem Dispatched.of_exit {h : Host} {r : Rail} {cb : Callbacks} {io : IoRequest → DWord}
    {d : Dispatcher} {elf : ElfReader} (hr : r.NoCallbacks) {pc₀ : BitVec 32}
    (hpc : d.elfReader = elf.setProgramCounter pc₀) {e : ExitStub} {taken : Bool}
    (hop : (e.word elf).opcode = Opcode.branch ∨ (e.word elf).opcode = Opcode.jal)
    (hsp : (e.word elf).opcode = Opcode.jal → (e.word elf).rd ≠ sp)
    (hcall : ExitCall h elf d (sideRoutine taken).taken e.address) {b : RailBasicBlock}
    (hb : d.cache.railBasicBlocks (e.successor elf taken) = some b)
    (hstart : b.startLocationInCache.toNat % 4 = 0) {s s' : Machine} {res : Resume}
    (hd : Dispatched h r cb io d (sideRoutine taken) e.address s res s') :
    s'.pc = b.startLocationInCache + 4 ∧ s'.regs = regsBehind elf e s.regs := by
  have htrace : (sideRoutine taken).IsTrace := by cases taken <;> trivial
  obtain ⟨f, hf, hstub, hpc', hsp', hregs⟩ := hd.spec htrace
  obtain ⟨t, d', next, hret⟩ := stub_cases hstub
  obtain ⟨d₀, hsucc⟩ := hret.successor
  -- what `stub` decodes is the instruction the exit stands for
  have haddr : e.address.setWidth 32 = e.pc := low_ofLow e.pc
  rw [hcall.left_eq hpc, haddr] at hsucc
  obtain ⟨hnext, hexec, hframe⟩ := successor_guestExit hop hsucc
  rw [taken_sideRoutine] at hnext
  have hlooked : d'.cache.railBasicBlocks t.nextBlockAddr = some b := by
    rw [hret.cache, hnext]
    exact railBasicBlocks_lookup hb _
  have hreg := hret.registered
  rw [allocateNext_of_some hlooked, hlooked] at hreg
  obtain rfl := Option.some.inj hreg
  have hval := hret.returnVal
  rw [hexec, if_pos rfl] at hval
  -- `sp` is restored by the routine, the other registers come from the frame
  refine ⟨?_, ?_⟩
  · rw [hpc', hval, and_not_one_of_even (getLsbD_zero_of_mod hstart)]
  · refine Regs.eq_of_forall_ne_zero fun i hi => ?_
    by_cases hisp : i = sp
    · rw [hisp, hsp', regsBehind]
      split_ifs with hjal
      · rw [Regs.set_of_ne _ _ (Ne.symm (hsp hjal))]
      · rfl
    · rw [hregs i hi hisp, hret.frame hr, hframe, regsBehind]
      by_cases hjal : (e.word elf).opcode = Opcode.jal
      · rw [if_pos hjal]
        by_cases hrd : (e.word elf).rd = i
        · rw [if_pos ⟨hjal, by rw [hrd]; exact hi⟩, hrd, Regs.set_same _ _ hi]
          exact Function.update_self ..
        · rw [Regs.set_of_ne _ _ (Ne.symm hrd)]
          split_ifs
          · exact (Function.update_of_ne (Ne.symm hrd) _ _).trans (hf i hi hisp)
          · exact hf i hi hisp
      · rw [if_neg hjal, if_neg fun hj => hjal hj.1]
        exact hf i hi hisp

/-! ### The two words of a link -/

def linkDistance (a start : DWord) : DWord := start + 4 - (a + 4)

theorem encode_jump (x : DWord) :
    encodeJtypeFields Op.jal regs.zero (x.setWidth 32) = jType (x.setWidth 21) 0 Opcode.jal := by
  have hword := @encodeJtypeFields_low Opcode.jal 0 (x.setWidth 32)
  rwa [BitVec.setWidth_setWidth_of_le _ (by decide)] at hword

theorem setWidth_even {x : DWord} (hx : x.toNat % 4 = 0) :
    (x.setWidth 21).getLsbD 0 = false := by
  rw [BitVec.getLsbD_setWidth, getLsbD_zero_of_mod hx]
  rfl

theorem linkDistance_aligned {a start : DWord} (ha : a.toNat % 4 = 0)
    (hstart : start.toNat % 4 = 0) : (linkDistance a start).toNat % 4 = 0 := by
  simp only [linkDistance]
  bv_omega

theorem decode_linkJump {a start : DWord} (ha : a.toNat % 4 = 0) (hstart : start.toNat % 4 = 0) :
    Instr.decode (encodeJtypeFields Op.jal regs.zero ((linkDistance a start).setWidth 32)) =
      some (.jal 0 ((linkDistance a start).setWidth 21)) := by
  rw [encode_jump]
  exact decode_jal (setWidth_even (linkDistance_aligned ha hstart))

theorem decode_linkPop : Instr.decode 0x01010113 = some (.opImm .add sp sp 16) := by
  decide +kernel

theorem reaches_linkPatch {code : Code} {a start : DWord} (m : Machine)
    (ha : a.toNat % 4 = 0) (hstart : start.toNat % 4 = 0)
    (hcode : CodeAt code a (linkPatch a start)) (hfit : InJumpRange (linkDistance a start)) :
    Reaches direct code (m.goto a) ((m.setReg sp (m.regs sp + 16)).goto (start + 4)) := by
  obtain ⟨hpop, hjump, -⟩ := hcode
  have hmoved : Reaches direct code (m.goto a)
      ((m.setReg sp (m.regs sp + 16)).goto (a + 4)) := reaches_at m hpop decode_linkPop rfl
  refine hmoved.trans ?_
  refine reaches_jump (m.setReg sp (m.regs sp + 16)) hjump (decode_linkJump ha hstart) ?_
  rw [(inJumpRange_iff _).mp hfit, linkDistance]
  bv_omega

/-! ### The reach of a link -/

def linkedJump (exitAddr taken : DWord) : DWord := exitAddr + (if taken = 0 then 4 else 36) + 4

theorem link_jump {c : CodeCache} {exitAddr taken : DWord} (start : DWord)
    (hin : (linkedJump exitAddr taken - 0x1000000).toNat / 4 < c.memoryIndex) :
    (link c exitAddr start taken).memory[(linkedJump exitAddr taken - 0x1000000).toNat / 4]? =
      some (encodeJtypeFields Op.jal regs.zero
        ((start + 4 - linkedJump exitAddr taken).setWidth 32)) := by
  simp only [link, CodeCache.patch]
  apply List.getElem?_set_self
  rw [List.length_set]
  exact hin

theorem decodeJtype_jump (junk : RvInst) {x : DWord} (hx : x.toNat % 4 = 0) :
    (decodeJtype junk (encodeJtypeFields Op.jal regs.zero (x.setWidth 32))).imm.signExtend 64 =
      (x.setWidth 21).signExtend 64 := by
  rw [encode_jump, decodeJtype_imm, immJ_jType _ _ _ (setWidth_even hx)]
  apply BitVec.eq_of_getLsbD_eq
  intro k hk
  simp only [BitVec.getLsbD_signExtend, hk, decide_true, Bool.true_and]
  grind

/-- The `jal` that links an exit to a block, on either side of a branch, leads
behind the first word of the block just if the distance fits into 21 bits. -/
theorem link_jump_iff (c : CodeCache) (junk : RvInst) {exitAddr start : DWord} (taken : DWord)
    (hexit : exitAddr.toNat % 4 = 0) (hstart : start.toNat % 4 = 0)
    (hin : (linkedJump exitAddr taken - 0x1000000).toNat / 4 < c.memoryIndex) :
    ∃ word, (link c exitAddr start taken).memory[
        (linkedJump exitAddr taken - 0x1000000).toNat / 4]? = some word ∧
      (linkedJump exitAddr taken + (decodeJtype junk word).imm.signExtend 64 = start + 4 ↔
        InJumpRange (start + 4 - linkedJump exitAddr taken)) := by
  refine ⟨_, link_jump start hin, ?_⟩
  have haligned : (start + 4 - linkedJump exitAddr taken).toNat % 4 = 0 := by
    unfold linkedJump
    split <;> bv_omega
  rw [decodeJtype_jump junk haligned, inJumpRange_iff, add_comm, ← eq_sub_iff_add_eq]

def fullCache : CodeCache := CodeCache.initial.emit (List.replicate 0x100000 0x00000013)

theorem memoryIndex_fullCache : fullCache.memoryIndex = 0x100000 := by
  rw [fullCache, CodeCache.memoryIndex, CodeCache.emit, List.length_append, List.length_replicate]
  rfl

/-- An exit and a block 960 KiB behind it. -/
theorem link_jump_near :
    ∃ word, (link fullCache 0x01000010 0x010f0000 1).memory[
        (linkedJump 0x01000010 1 - 0x1000000).toNat / 4]? = some word ∧
      linkedJump 0x01000010 1 + (decodeJtype requestedHost.junkInst word).imm.signExtend 64 =
        0x010f0000 + 4 := by
  obtain ⟨word, hword, hiff⟩ := @link_jump_iff fullCache requestedHost.junkInst 0x01000010
    0x010f0000 1 (by decide) (by decide) (by rw [memoryIndex_fullCache]; decide)
  exact ⟨word, hword, hiff.mpr (by decide)⟩

/-- An exit and a block 1.5 MiB behind it: the jump leads to an address before
the code cache. -/
theorem link_jump_far :
    ∃ word, (link fullCache 0x01000010 0x01180000 1).memory[
        (linkedJump 0x01000010 1 - 0x1000000).toNat / 4]? = some word ∧
      linkedJump 0x01000010 1 + (decodeJtype requestedHost.junkInst word).imm.signExtend 64 =
        0x00f80004 := by
  refine ⟨_, link_jump 0x01180000 (by rw [memoryIndex_fullCache]; decide), ?_⟩
  decide +kernel

/-! ### Runs with one linked exit -/

def startedWith (elf : ElfReader) : Dispatcher :=
  (init requestedHost (Rail.plain true) idleCallbacks (rootDispatcher requestedHost elf none)
    fun _ => 0).dispatcher

def takenOnce (elf : ElfReader) : StubOutcome Resume :=
  stub requestedHost (Rail.plain true) idleCallbacks (fun _ => 0) (startedWith elf) (fun _ => 0)
    1 0x10000

def historyOnce (elf : ElfReader) (d : Dispatcher) : History :=
  ((History.empty.record (startedWith elf).cache).record d.cache).patch d.cache 0x10000 true

/-- If the call returns, it is a run, and what it has done can be computed. -/
theorem linkRun_takenOnce (elf : ElfReader) {α : Type} (facts : CodeCache → α) {n : ℕ} {v : α}
    (hrun : ((takenOnce elf).toOption.map fun res =>
      (res.dispatcher.cache.memory.length, facts res.dispatcher.cache)) = some (n, v))
    (hn : n ≤ cacheSize / 4) (hstarted : (startedWith elf).cache.memory.length ≤ cacheSize / 4)
    (hrec : ((startedWith elf).cache.exits 0x10000).isSome) :
    ∃ d, LinkRun requestedHost (Rail.plain true) idleCallbacks elf d (historyOnce elf d) ∧
      facts d.cache = v := by
  obtain ⟨res, hres, hfacts⟩ := Option.map_eq_some_iff.mp hrun
  obtain ⟨hlen, hv⟩ := Prod.mk.inj hfacts
  have hstart : LinkRun requestedHost (Rail.plain true) idleCallbacks elf (startedWith elf)
      (History.empty.record (startedWith elf).cache) := .start hstarted
  have hfits : res.dispatcher.cache.Fits := by
    rw [CodeCache.Fits, hlen]
    exact hn
  have hcall : ExitCall requestedHost elf (startedWith elf) 1 0x10000 :=
    ⟨hrec, fun _ => by decide, fun h0 => absurd h0 (by decide)⟩
  exact ⟨_, hstart.call hcall (StubOutcome.eq_returned hres) hfits, hv⟩

/-- `beq x0, x0, 8`, and an `ecall` at its target. -/
def branchText : ElfReader := .ofWords 0x10000 [0x00000463, 0x00000013, 0x00000073, 0x00000013]

theorem branchText_linked : ∃ d,
    LinkRun requestedHost (Rail.plain true) idleCallbacks branchText d (historyOnce branchText d) ∧
      (d.cache.start 0x10008, d.cache.exits 0x10000) = (some 0x01000060, some 0x0100001c) :=
  linkRun_takenOnce branchText (fun c => (c.start 0x10008, c.exits 0x10000)) (n := 36)
    (by decide +kernel) (by decide) (by decide +kernel) (by decide +kernel)

/-! ### The stub of an exit -/

section Stub

variable {h : Host} {elf : ElfReader} {c : CodeCache} {H : History} {stubs : Set ExitStub}

theorem Linked.exists_stub (hl : Linked h elf c H stubs) {pc : BitVec 32} {E : DWord}
    (hrec : H.recorded (pc.signExtend 64) E) : ∃ e ∈ stubs, pc = e.pc ∧ E = e.exit h elf := by
  obtain ⟨e, he, haddr, hexit⟩ := hl.recorded _ _ hrec
  exact ⟨e, he, signExtend_inj.mp haddr, hexit⟩

theorem Linked.codeAt_stub (hl : Linked h elf c H stubs) {e : ExitStub} (he : e ∈ stubs) :
    ∃ ws, StubState h elf c H e ws ∧ CodeAt (c.code h) (wordAddr h.base e.index) ws := by
  obtain ⟨ws, hstate, hws⟩ := hl.stands e he
  have hfits := hl.fits
  rw [CodeCache.Fits, cacheSize] at hfits
  exact ⟨ws, hstate, hws.codeAt (by omega)⟩

end Stub

/-! ### Branches -/

section Branch

variable {h : Host} {r : Rail} {cb : Callbacks} {elf : ElfReader} {d : Dispatcher} {H : History}

theorem reaches_side {code : Code} {e : ExitStub} {ws : Bool → List Word} {o : BranchOp}
    {rs1 rs2 : Reg} {off : BitVec 13} (hop : (e.word elf).opcode = Opcode.branch)
    (hdec : Instr.decode (e.word elf) = some (.branch o rs1 rs2 off)) (h1 : rs1 ≠ sp)
    (h2 : rs2 ≠ sp) (hlen : (ws false).length = 8) (s : Machine)
    (hcode : CodeAt code (wordAddr h.base e.index)
      (inlineSave ++ e.branchWord h elf :: (ws false ++ ws true))) :
    Reaches direct code (s.goto (wordAddr h.base e.index)) ((spilled t6 s).goto
        (wordAddr h.base (e.sideIndex (o.holds (s.regs rs1) (s.regs rs2))))) ∧
      ∀ taken, CodeAt code (wordAddr h.base (e.sideIndex taken)) (ws taken) := by
  rw [codeAt_append, codeAt_cons, codeAt_append, hlen] at hcode
  obtain ⟨hsave, hbranch, hnot, htaken⟩ := hcode
  have hlen2 : inlineSave.length = 2 := rfl
  rw [hlen2, ← wordAddr_add] at hbranch
  rw [hlen2, ← wordAddr_add, wordAddr_add_four] at hnot htaken
  rw [← wordAddr_add] at htaken
  have hdec' := @decode_branchWord h.junkInst (e.word elf) o rs1 rs2 off 36 hop hdec (by decide)
  have hsides (taken : Bool) : CodeAt code (wordAddr h.base (e.sideIndex taken)) (ws taken) := by
    cases taken with
    | true => exact htaken
    | false => exact hnot
  refine ⟨(reaches_inlineSave s hsave).trans ?_, hsides⟩
  rw [← wordAddr_add]
  have hrs1 : (spilled t6 s).regs rs1 = s.regs rs1 := Regs.set_of_ne _ _ h1
  have hrs2 : (spilled t6 s).regs rs2 = s.regs rs2 := Regs.set_of_ne _ _ h2
  -- the two sides lie eight words apart, behind the branch
  have h36 : wordAddr h.base (e.index + 2) + (36 : BitVec 13).signExtend 64 =
      wordAddr h.base (e.sideIndex true) := by
    have hoff : (36 : BitVec 13).signExtend 64 = 36#64 := by decide
    rw [hoff, ExitStub.sideIndex, if_pos rfl, wordAddr, wordAddr]
    bv_omega
  cases hholds : o.holds (s.regs rs1) (s.regs rs2) with
  | true =>
      refine reaches_branch_taken (spilled t6 s) hbranch hdec' ?_ h36
      rw [hrs1, hrs2]
      exact hholds
  | false =>
      refine reaches_branch_not_taken (spilled t6 s) hbranch hdec' ?_ (wordAddr_add_four _ _)
      rw [hrs1, hrs2]
      exact hholds

/-- The state behind a link: the guest's registers, and the slot written. -/
theorem spilled_pop (s : Machine) (a : DWord) :
    (((spilled t6 s).setReg sp ((spilled t6 s).regs sp + 16)).goto a).regs = s.regs ∧
      ∀ x ∉ bytes (slot s) 8,
        (((spilled t6 s).setReg sp ((spilled t6 s).regs sp + 16)).goto a).mem x = s.mem x := by
  have hsp : (spilled t6 s).regs sp + 16 = s.regs sp := by
    have : (spilled t6 s).regs sp = slot s := Regs.set_same _ _ (by decide)
    rw [this, slot]
    bv_omega
  refine ⟨?_, fun x hx => Mem.write_of_not_mem hx⟩
  rw [hsp]
  show (s.regs.set sp (slot s)).set sp (s.regs sp) = s.regs
  rw [Regs.set_set, Regs.set_self]

theorem SideState.eq_emitted {c : CodeCache} {e : ExitStub} {taken : Bool} {ws : List Word}
    (hs : SideState h elf c H e taken ws) (hn : ¬ H.patched e.address (e.exit h elf) taken) :
    ws = e.sideWords h taken := by
  cases hs with
  | emitted => rfl
  | linked hp => exact absurd hp hn

theorem SideState.eq_linked {c : CodeCache} {e : ExitStub} {taken : Bool} {ws : List Word}
    (hs : SideState h elf c H e taken ws) (hp : H.patched e.address (e.exit h elf) taken) :
    ∃ start, c.start (e.successor elf taken) = some start ∧
      ws = linkPatch (wordAddr h.base (e.sideIndex taken)) start ++
        (e.sideWords h taken).drop 2 := by
  cases hs with
  | emitted hn => exact absurd hp hn
  | linked _ hb => exact ⟨_, hb, rfl⟩

theorem Linked.reaches_side {c : CodeCache} {stubs : Set ExitStub} (hl : Linked h elf c H stubs)
    {e : ExitStub} (he : e ∈ stubs) {o : BranchOp} {rs1 rs2 : Reg} {off : BitVec 13}
    (hdec : Instr.decode (e.word elf) = some (.branch o rs1 rs2 off)) (h1 : rs1 ≠ sp)
    (h2 : rs2 ≠ sp) (s : Machine) :
    (e.word elf).opcode = Opcode.branch ∧ (e.word elf).immB = off ∧
      ∃ ws, SideState h elf c H e (o.holds (s.regs rs1) (s.regs rs2)) ws ∧
        CodeAt (c.code h) (wordAddr h.base (e.sideIndex (o.holds (s.regs rs1) (s.regs rs2)))) ws ∧
        Reaches direct (c.code h) (s.goto (wordAddr h.base e.index)) ((spilled t6 s).goto
          (wordAddr h.base (e.sideIndex (o.holds (s.regs rs1) (s.regs rs2))))) := by
  obtain ⟨ws, hstate, hcode⟩ := hl.codeAt_stub he
  obtain ⟨hbranch, himm⟩ := branch_of_decode hdec
  cases hstate with
  | @branch sides hop hside =>
      obtain ⟨x, y, hshape⟩ := (hside false).shape
      have hlen : (sides false).length = 8 := by
        rw [hshape]
        rfl
      obtain ⟨hreach, hsides⟩ := RailTranslator.reaches_side hop hdec h1 h2 hlen s hcode
      exact ⟨hop, himm, _, hside _, hsides _, hreach⟩
  | jump hop => exact absurd (hop.symm.trans hbranch) (by decide)
  | linkedJump hop => exact absurd (hop.symm.trans hbranch) (by decide)
  | other hop => rcases hop with hop | hop <;> exact absurd (hop.symm.trans hbranch) (by decide)

/-- The exit stub of a branch that does not read `sp`, after any run, entered
in any guest state. On the side the guest takes it is as it was emitted unless
a call of `stub` has come through it on that side; otherwise, if the block of
the successor is near enough for a `jal`, it leads behind the first word of
that block with the registers of the guest, and that is where the exit as it
was emitted leads to through the dispatcher, with the same registers. -/
theorem linked_branch_transparent (hbase : h.base = 0x01000000) (hr : r.NoCallbacks)
    (hlink : r.traceLinkingEnabled = true) (hrun : LinkRun h r cb elf d H) {pc : BitVec 32}
    {E : DWord} (hrec : H.recorded (pc.signExtend 64) E) {o : BranchOp} {rs1 rs2 : Reg}
    {off : BitVec 13} (hdec : Instr.decode (elf.fetch pc) = some (.branch o rs1 rs2 off))
    (h1 : rs1 ≠ sp) (h2 : rs2 ≠ sp) (s : Machine) :
    let taken := o.holds (s.regs rs1) (s.regs rs2)
    let successor : DWord := (pc + if taken then off.signExtend 32 else 4).signExtend 64
    (¬ H.patched (pc.signExtend 64) E taken →
      Reaches direct (d.cache.code h) (s.goto (E - 8))
        (atTraceExit s (liValue (pc.signExtend 64)) (h.handler (sideRoutine taken)))) ∧
    (H.patched (pc.signExtend 64) E taken →
      ∃ b, d.cache.railBasicBlocks successor = some b ∧
        (InJumpRange (linkDistance (E + if taken then 36 else 4) b.startLocationInCache) →
          ∃ s', Reaches direct (d.cache.code h) (s.goto (E - 8)) s' ∧
            s'.pc = b.startLocationInCache + 4 ∧ s'.regs = s.regs ∧
            (∀ x ∉ bytes (slot s) 8, s'.mem x = s.mem x) ∧
            ∀ io res s'', liValue (pc.signExtend 64) = pc.signExtend 64 →
              ExitCall h elf d (sideRoutine taken).taken (pc.signExtend 64) →
              Dispatched h r cb io d (sideRoutine taken) (pc.signExtend 64) s res s'' →
              s''.pc = s'.pc ∧ s''.regs = s'.regs)) := by
  obtain ⟨⟨pc₀, hpc₀⟩, stubs, hl⟩ := hrun.linked hbase hlink
  obtain ⟨e, he, rfl, rfl⟩ := hl.exists_stub hrec
  obtain ⟨hop, himm, ws, hside, hcode, hreach⟩ := hl.reaches_side he hdec h1 h2 s
  intro taken successor
  change SideState h elf d.cache H e taken ws at hside
  change CodeAt (d.cache.code h) (wordAddr h.base (e.sideIndex taken)) ws at hcode
  have hstub : e.exit h elf - 8 = wordAddr h.base e.index := by
    rw [ExitStub.exit, exitAddress, if_pos hop, wordAddr, wordAddr]
    bv_omega
  have hsideAddr : e.exit h elf + (if taken then 36 else 4) =
      wordAddr h.base (e.sideIndex taken) := by
    rw [ExitStub.exit, exitAddress, if_pos hop, ExitStub.sideIndex, wordAddr, wordAddr]
    cases taken
    · simp only [Bool.false_eq_true, if_false]
      bv_omega
    · simp only [if_true]
      bv_omega
  have hsucc : e.successor elf taken = successor := by
    rw [ExitStub.successor, if_pos hop, himm]
  rw [hstub, hsideAddr]
  -- as it was emitted the side ends in the handler, linked it ends in a `jal`
  refine ⟨fun hn => hreach.trans ?_, fun hp => ?_⟩
  · have hwords : e.sideWords h taken = traceExitTo e.address (h.handler (sideRoutine taken)) := by
      cases taken <;> rfl
    rw [hside.eq_emitted hn, hwords] at hcode
    exact reaches_traceExitTo s (h.liValue_handler (sideRoutine taken)) hcode
  · obtain ⟨start, hstart, rfl⟩ := hside.eq_linked hp
    have haligned := hl.aligned _ _ hstart
    obtain ⟨b, hb, rfl⟩ := Option.map_eq_some_iff.mp hstart
    refine ⟨b, hsucc ▸ hb, fun hfit => ?_⟩
    have hlinked := reaches_linkPatch (spilled t6 s) (toNat_wordAddr_base h _) haligned
      (codeAt_append.mp hcode).1 hfit
    obtain ⟨hregs, hmem⟩ := spilled_pop s (b.startLocationInCache + 4)
    refine ⟨_, hreach.trans hlinked, rfl, hregs, hmem, fun io res s'' heven hcall hd => ?_⟩
    have hno : (e.word elf).opcode ≠ Opcode.jal := by rw [hop]; decide
    obtain ⟨hpc'', hregs''⟩ := hd.of_exit hr hpc₀ (.inl hop) (fun hj => absurd hj hno) hcall hb
      haligned
    refine ⟨hpc'', ?_⟩
    rw [hregs'', regsBehind, if_neg hno, hregs]

/-- The linked branch at the start of a text, entered by a guest. -/
theorem branchText_transparent : ∃ (d : Dispatcher) (s' : Machine),
    Reaches direct (d.cache.code requestedHost) ((loadGuest 0).goto 0x01000014) s' ∧
      s'.pc = 0x01000064 ∧ s'.regs = (loadGuest 0).regs := by
  obtain ⟨d, hrun, hfacts⟩ := branchText_linked
  obtain ⟨hstart, hexit⟩ := Prod.mk.inj hfacts
  have hrec : (historyOnce branchText d).recorded ((0x10000#32).signExtend 64) 0x0100001c :=
    .inr hexit
  have hpatched : (historyOnce branchText d).patched ((0x10000#32).signExtend 64) 0x0100001c true :=
    .inr ⟨rfl, hexit, rfl⟩
  have hdec : Instr.decode (branchText.fetch 0x10000#32) = some (.branch .beq 0 0 8) := by
    decide +kernel
  obtain ⟨-, hlinked⟩ := linked_branch_transparent rfl (Rail.uninstrumented_plain true).toNoCallbacks
    rfl hrun hrec hdec (by decide) (by decide) (loadGuest 0)
  obtain ⟨b, hb, hreach⟩ := hlinked hpatched
  have hblock : b.startLocationInCache = 0x01000060 := by
    have hsome : d.cache.railBasicBlocks 0x10008 = some b := hb
    rw [CodeCache.start, hsome] at hstart
    exact Option.some.inj hstart
  rw [hblock] at hreach
  obtain ⟨s', hrun', hpc, hregs, -⟩ := hreach (by decide +kernel)
  exact ⟨d, s', hrun', hpc, hregs⟩

end Branch

/-! ### Jumps -/

/-- What the first two words of `insertLi` leave in the register. -/
def partialLi (value : DWord) : DWord := upper (value.extractLsb' 12 20) + liHalf value

section Jump

variable {h : Host} {r : Rail} {cb : Callbacks} {elf : ElfReader} {d : Dispatcher} {H : History}

def linkedJumpInstrs (pc handler : DWord) : List Instr :=
  saveInstrs t6 ++ (liInstrs pc t6 ++ ([.store .sd sp t6 8] ++
    ((liInstrs handler t6).take 2 ++ [.opImm .add sp sp 16])))

theorem regs_linkedJumpInstrs (s : Machine) (pc handler : DWord) :
    (execs direct s (linkedJumpInstrs pc handler)).regs = s.regs.set t6 (partialLi handler) := by
  have hne : sp ≠ t6 := by decide
  have hsp : ((s.regs.set sp (slot s)).set t6 (partialLi handler)) sp + 16 = s.regs sp := by
    rw [Regs.set_of_ne _ _ hne, Regs.set_same _ _ (by decide), slot]
    bv_omega
  rw [linkedJumpInstrs, execs_append, execs_saveInstrs (by decide), execs_append, execs_liInstrs,
    execs_append, execs_append]
  have hregs : (spilled t6 s).regs = s.regs.set sp (slot s) := rfl
  simp only [execs_cons, execs_nil, liInstrs, List.take_succ_cons, List.take_zero, Instr.exec,
    AluOp.eval, Machine.regs_goto, Machine.regs_setReg, Machine.regs_setMem, hregs, Regs.set_set,
    Regs.set_same _ _ (show t6 ≠ 0 by decide)]
  have hP : upper (handler.extractLsb' 12 20) + liHalf handler = partialLi handler := rfl
  rw [hP, hsp, Regs.set_comm _ _ _ hne, Regs.set_set, Regs.set_comm _ _ _ hne.symm,
    Regs.set_self]

theorem run_linkedJump {code : Code} {a pc handler start : DWord} (s : Machine)
    (hcode : CodeAt code a ((inlineSave ++ traceExitTo pc handler).take 8 ++
      linkPatch (wordAddr a 8) start))
    (ha : a.toNat % 4 = 0) (hstart : start.toNat % 4 = 0) :
    ∃ s', run direct code 10 (s.goto a) = some s' ∧
      s'.pc = wordAddr a 9 + ((linkDistance (wordAddr a 8) start).setWidth 21).signExtend 64 ∧
      s'.regs = s.regs.set t6 (partialLi handler) := by
  have hsplit : (inlineSave ++ traceExitTo pc handler).take 8 ++ linkPatch (wordAddr a 8) start =
      (inlineSave ++ (insertLi pc regs.t6 ++ ([saveExitAddress] ++
        ((insertLi handler regs.t6).take 2 ++ [0x01010113])))) ++
          [encodeJtypeFields Op.jal regs.zero
            ((linkDistance (wordAddr a 8) start).setWidth 32)] := rfl
  rw [hsplit, codeAt_append] at hcode
  obtain ⟨hstraight, hjump, -⟩ := hcode
  have hdec : (inlineSave ++ (insertLi pc regs.t6 ++ ([saveExitAddress] ++
      ((insertLi handler regs.t6).take 2 ++ [0x01010113])))).map Instr.decode =
        (linkedJumpInstrs pc handler).map some := by
    have hsave : [saveExitAddress].map Instr.decode = [Instr.store .sd sp t6 8].map some := by
      decide +kernel
    have hli (v : DWord) : (insertLi v regs.t6).map Instr.decode = (liInstrs v t6).map some :=
      map_decode_insertLi v t6
    have hpop : ([0x01010113] : List Word).map Instr.decode =
        [Instr.opImm .add sp sp 16].map some := by
      decide +kernel
    simp only [List.map_append, linkedJumpInstrs, map_decode_inlineSave, hli, hsave, hpop,
      List.map_take]
  have hall : ∀ i ∈ linkedJumpInstrs pc handler, i.Straight := by
    simp [linkedJumpInstrs, saveInstrs, liInstrs, Instr.Straight]
  -- nine words run straight, the tenth is the `jal`
  have hrun := @run_straight direct s _ _ _ _ hstraight hdec hall
  have hpc := pc_execs direct hall (s.goto a)
  have hregs := regs_linkedJumpInstrs (s.goto a) pc handler
  generalize execs direct (s.goto a) (linkedJumpInstrs pc handler) = m at *
  have hjump' : code m.pc = some (encodeJtypeFields Op.jal regs.zero
      ((linkDistance (wordAddr a 8) start).setWidth 32)) := by
    rw [hpc]
    exact hjump
  have ha8 : (wordAddr a 8).toNat % 4 = 0 := by
    simp only [wordAddr]
    bv_omega
  have hstep := @step_eq direct code m _ _ hjump' (decode_linkJump ha8 hstart)
  have h9 : run direct code 9 (s.goto a) = some m := hrun
  have h10 : run direct code (9 + 1) (s.goto a) =
      some ((Instr.jal 0 ((linkDistance (wordAddr a 8) start).setWidth 21)).exec direct m) := by
    rw [run_add, h9, Option.bind_some, run, hstep]
    rfl
  refine ⟨_, h10, ?_, ?_⟩
  · rw [Instr.exec, Machine.pc_goto, hpc]
    rfl
  · rw [Instr.exec, Machine.regs_goto]
    exact (congrArg Machine.regs (Machine.setReg_zero _ _)).trans hregs

theorem set_t6_eq_set_iff (regs : Regs) (P v : DWord) (rd : Reg) :
    regs.set t6 P = regs.set rd v ↔
      (rd = t6 → P = v) ∧ (rd ≠ t6 → regs t6 = P ∧ (rd ≠ 0 → regs rd = v)) := by
  have hset (i : Reg) (w : DWord) (hi : i ≠ 0) (hw : regs i = w) : regs.set i w = regs := by
    rw [← hw, Regs.set_self]
  refine ⟨fun heq => ⟨?_, fun hne => ⟨?_, fun h0 => ?_⟩⟩, fun ⟨hsame, hother⟩ => ?_⟩
  · rintro rfl
    have := congrArg (fun r : Regs => r t6) heq
    simpa only [Regs.set_same _ _ (show t6 ≠ 0 by decide)] using this
  · have := congrArg (fun r : Regs => r t6) heq
    simp only [Regs.set_same _ _ (show t6 ≠ 0 by decide), Regs.set_of_ne _ _ (Ne.symm hne)] at this
    exact this.symm
  · have := congrArg (fun r : Regs => r rd) heq
    simpa only [Regs.set_same _ _ h0, Regs.set_of_ne _ _ hne] using this
  · by_cases hrd : rd = t6
    · rw [hsame hrd, hrd]
    · obtain ⟨ht, hv⟩ := hother hrd
      rw [hset t6 P (by decide) ht]
      by_cases h0 : rd = 0
      · rw [h0]
        exact (Regs.set_zero _ _).symm
      · exact (hset rd v h0 (hv h0)).symm

/-- When the ten words lead behind the first word of a block as the jump does. -/
theorem run_linkedJump_iff {code : Code} {a pc handler start : DWord} (s : Machine)
    (hcode : CodeAt code a ((inlineSave ++ traceExitTo pc handler).take 8 ++
      linkPatch (wordAddr a 8) start))
    (ha : a.toNat % 4 = 0) (hstart : start.toNat % 4 = 0) (rd : Reg) (v : DWord) :
    (∃ s', run direct code 10 (s.goto a) = some s' ∧ s'.pc = start + 4 ∧
        s'.regs = s.regs.set rd v) ↔
      InJumpRange (linkDistance (wordAddr a 8) start) ∧ (rd = t6 → partialLi handler = v) ∧
        (rd ≠ t6 → s.regs t6 = partialLi handler ∧ (rd ≠ 0 → s.regs rd = v)) := by
  obtain ⟨s', hrun, hpc, hregs⟩ := run_linkedJump s hcode ha hstart
  have hrange : s'.pc = start + 4 ↔ InJumpRange (linkDistance (wordAddr a 8) start) := by
    have h9 : wordAddr a 8 + 4 = wordAddr a 9 := wordAddr_add_four _ _
    rw [hpc, inJumpRange_iff, linkDistance, h9, add_comm, ← eq_sub_iff_add_eq]
  rw [← hrange, ← set_t6_eq_set_iff, ← hregs]
  constructor
  · rintro ⟨t, ht, htpc, htregs⟩
    obtain rfl : s' = t := Option.some.inj (hrun.symm.trans ht)
    exact ⟨htpc, htregs⟩
  · intro hback
    exact ⟨s', hrun, hback⟩

/-- `jal x1, 8`, and an `ecall` at its target. -/
def jumpText : ElfReader := .ofWords 0x10000 [0x008000ef, 0x00000013, 0x00000073, 0x00000013]

theorem jumpText_linked : ∃ d,
    LinkRun requestedHost (Rail.plain true) idleCallbacks jumpText d (historyOnce jumpText d) ∧
      (d.cache.start 0x10008, d.cache.exits 0x10000) = (some 0x0100003c, some 0x01000010) :=
  linkRun_takenOnce jumpText (fun c => (c.start 0x10008, c.exits 0x10000)) (n := 27)
    (by decide +kernel) (by decide) (by decide +kernel) (by decide +kernel)

/-- The exit stub of a jump, after any run in which a call has come through it,
entered in any guest state. Its ten words lead behind the first word of the
successor's block with the registers that the exit as it was emitted delivers
through the dispatcher, if and only if the block is near enough for a `jal`
and the registers do not show the difference between `t6` holding a part of a
handler's address and the link register holding the return address. -/
theorem linked_jump_transparent_iff (hbase : h.base = 0x01000000) (hr : r.NoCallbacks)
    (hlink : r.traceLinkingEnabled = true) (hrun : LinkRun h r cb elf d H) {pc : BitVec 32}
    {E : DWord} (hpatched : H.patched (pc.signExtend 64) E true)
    (hop : (elf.fetch pc).opcode = Opcode.jal) (s : Machine) :
    ∃ b, d.cache.railBasicBlocks
        ((pc + (elf.fetch pc).immJ.signExtend 32).signExtend 64) = some b ∧
      ((∃ s', run direct (d.cache.code h) 10 (s.goto (E + 4)) = some s' ∧
          s'.pc = b.startLocationInCache + 4 ∧
          s'.regs = s.regs.set (elf.fetch pc).rd ((pc + 4).signExtend 64)) ↔
        InJumpRange (linkDistance (E + 36) b.startLocationInCache) ∧
          ((elf.fetch pc).rd = t6 →
            partialLi h.contextSwitchTraceExitTaken = (pc + 4).signExtend 64) ∧
          ((elf.fetch pc).rd ≠ t6 → s.regs t6 = partialLi h.contextSwitchTraceExitTaken ∧
            ((elf.fetch pc).rd ≠ 0 → s.regs (elf.fetch pc).rd = (pc + 4).signExtend 64))) ∧
      ∀ io res s'', (elf.fetch pc).rd ≠ sp → liValue (pc.signExtend 64) = pc.signExtend 64 →
        ExitCall h elf d 1 (pc.signExtend 64) →
        Dispatched h r cb io d .contextSwitchTraceExitTaken (pc.signExtend 64) s res s'' →
        s''.pc = b.startLocationInCache + 4 ∧
          s''.regs = s.regs.set (elf.fetch pc).rd ((pc + 4).signExtend 64) := by
  obtain ⟨⟨pc₀, hpc₀⟩, stubs, hl⟩ := hrun.linked hbase hlink
  obtain ⟨e, he, rfl, rfl⟩ := hl.exists_stub (hl.patched _ _ _ hpatched)
  obtain ⟨ws, hstate, hcode⟩ := hl.codeAt_stub he
  have hne : (e.word elf).opcode ≠ Opcode.branch := by
    rw [ExitStub.word, hop]
    decide
  have hstub : e.exit h elf + 4 = wordAddr h.base e.index := by
    rw [ExitStub.exit, exitAddress, if_neg hne, wordAddr]
    bv_omega
  have hpatch : e.exit h elf + 36 = wordAddr (wordAddr h.base e.index) 8 := by
    rw [ExitStub.exit, exitAddress, if_neg hne, wordAddr, wordAddr]
    bv_omega
  have hsucc : e.successor elf true = (e.pc + (elf.fetch e.pc).immJ.signExtend 32).signExtend 64 :=
    if_neg hne
  rw [hstub, hpatch]
  cases hstate with
  | branch hop' => exact absurd hop' hne
  | jump hop' hn => exact absurd hpatched hn
  | other hop' => rcases hop' with hop' | hop' <;> exact absurd (hop'.symm.trans hop) (by decide)
  | @linkedJump start hop' hp hb =>
      have haligned := hl.aligned _ _ hb
      obtain ⟨b, hb', rfl⟩ := Option.map_eq_some_iff.mp hb
      refine ⟨b, hsucc ▸ hb', ?_, fun io res s'' hsp heven hcall hd => ?_⟩
      · rw [words_of_jal hop', wordAddr_add] at hcode
        exact run_linkedJump_iff s hcode (toNat_wordAddr_base h _) haligned _ _
      · have hd' : Dispatched h r cb io d (sideRoutine true) e.address s res s'' := hd
        obtain ⟨hpc'', hregs''⟩ := hd'.of_exit hr hpc₀ (.inr hop') (fun _ => hsp) hcall hb'
          haligned
        rw [regsBehind, if_pos hop'] at hregs''
        exact ⟨hpc'', hregs''⟩

/-- A guest whose registers do not show the difference. -/
theorem jumpText_transparent : ∃ (d : Dispatcher) (s' : Machine),
    run direct (d.cache.code requestedHost) 10
        ((((loadGuest 0).setReg t6 0x20300).setReg 1 0x10004).goto 0x01000014) = some s' ∧
      s'.pc = 0x01000040 ∧
      s'.regs = (((loadGuest 0).setReg t6 0x20300).setReg 1 0x10004).regs.set 1 0x10004 := by
  obtain ⟨d, hrun, hfacts⟩ := jumpText_linked
  obtain ⟨hstart, hexit⟩ := Prod.mk.inj hfacts
  have hpatched : (historyOnce jumpText d).patched ((0x10000#32).signExtend 64) 0x01000010 true :=
    .inr ⟨rfl, hexit, rfl⟩
  have hop : (jumpText.fetch 0x10000#32).opcode = Opcode.jal := by decide +kernel
  obtain ⟨b, hb, hiff, -⟩ := linked_jump_transparent_iff rfl
    (Rail.uninstrumented_plain true).toNoCallbacks rfl hrun hpatched hop
    (((loadGuest 0).setReg t6 0x20300).setReg 1 0x10004)
  have hblock : b.startLocationInCache = 0x0100003c := by
    have htarget : ((0x10000#32) + (jumpText.fetch 0x10000#32).immJ.signExtend 32).signExtend 64 =
        0x10008 := by decide +kernel
    rw [htarget] at hb
    rw [CodeCache.start, hb] at hstart
    exact Option.some.inj hstart
  have hrd : (jumpText.fetch 0x10000#32).rd = 1 := by decide +kernel
  rw [hblock, hrd] at hiff
  obtain ⟨s', hrun', hpc, hregs⟩ := hiff.mpr ⟨by decide +kernel, by decide,
    fun _ => ⟨by decide +kernel, fun _ => by decide +kernel⟩⟩
  exact ⟨d, s', hrun', hpc, hregs⟩

/-- A linked `jal x1` leaves the link register alone and a part of a handler's
address in `t6`. -/
theorem jumpText_link_lost : ∃ (d : Dispatcher) (H : History) (s' : Machine),
    LinkRun requestedHost (Rail.plain true) idleCallbacks jumpText d H ∧
      H.patched 0x10000 0x01000010 true ∧ d.cache.start 0x10008 = some 0x0100003c ∧
      run direct (d.cache.code requestedHost) 10 ((loadGuest 0).goto 0x01000014) = some s' ∧
      s'.pc = 0x01000040 ∧ s'.regs 1 = 0 ∧ s'.regs t6 = 0x20300 ∧ (loadGuest 0).regs t6 = 0 := by
  obtain ⟨d, hrun, hfacts⟩ := linkRun_takenOnce jumpText (fun c =>
    ((c.start 0x10008, c.exits 0x10000),
      (run direct (c.code requestedHost) 10 ((loadGuest 0).goto 0x01000014)).map
        fun s => (s.pc, s.regs 1, s.regs t6))) (n := 27)
    (v := ((some 0x0100003c, some 0x01000010), some (0x01000040, 0, 0x20300)))
    (by decide +kernel) (by decide) (by decide +kernel) (by decide +kernel)
  obtain ⟨hlinked, hmap⟩ := Prod.mk.inj hfacts
  obtain ⟨hstart, hexit⟩ := Prod.mk.inj hlinked
  obtain ⟨s', hrun', hs'⟩ := Option.map_eq_some_iff.mp hmap
  obtain ⟨hpc, hregs⟩ := Prod.mk.inj hs'
  obtain ⟨h1, ht6⟩ := Prod.mk.inj hregs
  exact ⟨d, _, s', hrun, .inr ⟨rfl, hexit, rfl⟩, hstart, hrun', hpc, h1, ht6, by decide⟩

end Jump

end RailTranslator
