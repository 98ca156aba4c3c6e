import RailTranslator.CurrentBlock
import RailTranslator.Linking
import RailTranslator.SyscallLayout

/-!
A block that is left through a branch, a jump or the end of a segment, without
traces, over whole runs.

`goesTo` is where the architecture has the guest go on behind an instruction.
In every reachable state the dispatcher goes there too: the records tell the
truth about the text, and an address is registered without a block only where
no block begins. `HasBlock` says which addresses those are not.
-/

namespace RailTranslator

open Rv64 Transition

/-! ### Where blocks begin -/

/-- The text runs on from `pc` to an instruction at which a block ends. -/
inductive HasBlock (r : Rail) (elf : ElfReader) : BitVec 32 → Prop
  | ends {pc : BitVec 32} (hne : elf.fetch pc ≠ 0)
      (hends : preInstrumented r pc (elf.fetch pc) = true ∨ IsTerminal (elf.fetch pc) ∨
        segmentsBB r pc (elf.fetch pc) = true) : HasBlock r elf pc
  | straight {pc : BitVec 32} (hne : elf.fetch pc ≠ 0) (hrest : HasBlock r elf (pc + 4)) :
      HasBlock r elf pc

def Allocatable (h : Host) (r : Rail) (elf : ElfReader) (a : DWord) : Prop :=
  ((allocateBB h r elf .initial a).2.railBasicBlocks a).isSome = true

section HasBlock

variable {h : Host} {r : Rail} {elf : ElfReader} {pc q : BitVec 32} {ps : List Piece} {e : BlockEnd}

theorem BlockWalk.hasBlock (hwalk : BlockWalk h r elf pc ps q e) (hexhausted : e ≠ .exhausted)
    (hendless : e ≠ .endless) : HasBlock r elf pc := by
  induction hwalk with
  | straight hin _ ih => exact .straight hin.ne_zero (ih hexhausted hendless)
  | stopped _ hw => exact .ends (ne_zero_of_isTerminal hw) (.inr (.inl hw))
  | segmented hne _ _ hends => exact .ends hne (.inr (.inr hends))
  | pre hne hpre => exact .ends hne (.inl hpre)
  | exhausted => exact absurd rfl hexhausted
  | endless => exact absurd rfl hendless

theorem Describes.setWidth_firstAddr {b : RailBasicBlock} {first last : BitVec 32}
    {type : BasicBlockType} (hdesc : Describes elf b first last type) :
    b.firstAddr.setWidth 32 = first := by
  rw [hdesc.firstAddr]
  exact low_ofLow first

theorem GuestBlock.hasBlock {b : RailBasicBlock} (hb : GuestBlock h r elf b) :
    HasBlock r elf (b.firstAddr.setWidth 32) := by
  cases hb with
  | closed hwalk he hdesc =>
      rw [hdesc.setWidth_firstAddr]
      rcases he with rfl | rfl <;> exact hwalk.hasBlock BlockEnd.noConfusion BlockEnd.noConfusion
  | cut hwalk _ hdesc =>
      rw [hdesc.setWidth_firstAddr]
      exact hwalk.hasBlock BlockEnd.noConfusion BlockEnd.noConfusion
  | pre hne hpre hdesc =>
      rw [hdesc.setWidth_firstAddr]
      exact .ends hne (.inl hpre)

theorem HasBlock.not_exhausted (hpc : HasBlock r elf pc) (hwalk : BlockWalk h r elf pc ps q e) :
    e ≠ .exhausted := by
  induction hwalk with
  | straight hin _ ih =>
      cases hpc with
      | ends _ hends => exact absurd hends hin.not_ends
      | straight _ hrest => exact ih hrest
  | exhausted h0 =>
      cases hpc with
      | ends hne => exact absurd h0 hne
      | straight hne => exact absurd h0 hne
  | stopped | segmented | pre | endless => exact BlockEnd.noConfusion

theorem HasBlock.exists_end (hpc : HasBlock r elf pc) :
    ∃ m : ℕ, ¬ InBlock r elf (pc + BitVec.ofNat 32 (4 * m)) := by
  induction hpc with
  | @ends pc hne hends =>
      refine ⟨0, fun hin => ?_⟩
      rw [show pc + BitVec.ofNat 32 (4 * 0) = pc from BitVec.add_zero pc] at hin
      exact hin.not_ends hends
  | @straight pc hne hrest ih =>
      obtain ⟨m, hm⟩ := ih
      refine ⟨m + 1, ?_⟩
      rwa [show pc + BitVec.ofNat 32 (4 * (m + 1)) = pc + 4 + BitVec.ofNat 32 (4 * m) by bv_omega]

theorem BlockWalk.inBlock_of_endless (hwalk : BlockWalk h r elf pc ps q e) (he : e = .endless)
    {i : ℕ} (hi : i < ps.length) : InBlock r elf (pc + BitVec.ofNat 32 (4 * i)) := by
  induction hwalk generalizing i with
  | @straight pc q ps e hin _ ih =>
      cases i with
      | zero =>
          rw [show pc + BitVec.ofNat 32 (4 * 0) = pc from BitVec.add_zero pc]
          exact hin
      | succ i =>
          have hrest := ih he (Nat.lt_of_succ_lt_succ hi)
          rwa [show pc + BitVec.ofNat 32 (4 * (i + 1)) = pc + 4 + BitVec.ofNat 32 (4 * i) by
            bv_omega]
  | endless => cases hi
  | stopped | segmented | pre | exhausted => cases he

theorem HasBlock.not_endless (hpc : HasBlock r elf pc) (hwalk : BlockWalk h r elf pc ps q e)
    (hlen : e = .endless → ps.length = loopFuel) : e ≠ .endless := by
  intro he
  obtain ⟨m, hm⟩ := hpc.exists_end
  have hfuel : loopFuel = 2 ^ 30 := rfl
  have hlt : m % 2 ^ 30 < ps.length := by
    rw [hlen he, hfuel]
    exact Nat.mod_lt _ (by decide)
  have hin := hwalk.inBlock_of_endless he hlt
  have hround : BitVec.ofNat 32 (4 * (m % 2 ^ 30)) = BitVec.ofNat 32 (4 * m) := by
    apply BitVec.eq_of_toNat_eq
    rw [BitVec.toNat_ofNat, BitVec.toNat_ofNat]
    omega
  rw [hround] at hin
  exact hm hin

/-- `allocateBB` registers a block for an address if and only if one begins
there. -/
theorem allocateBB_registers_iff {pc : BitVec 32} {c : CodeCache} {a : DWord} (hint : asInt a = a)
    (hnone : c.railBasicBlocks a = none) :
    ((allocateBB h r (elf.setProgramCounter pc) c a).2.railBasicBlocks a).isSome = true ↔
      HasBlock r elf (a.setWidth 32) := by
  constructor
  · intro hsome
    obtain ⟨b, hb⟩ := Option.isSome_iff_exists.mp hsome
    rcases allocateBB_record hb with hold | ⟨hguest, hfirst, -⟩
    · rw [hnone] at hold
      cases hold
    · rw [← hfirst]
      exact hguest.hasBlock
  · intro hblock
    obtain ⟨ps, q, e, c₁, hwalk, -, hmain, hpre, hend⟩ :=
      allocateBB_walk h r (elf.setProgramCounter pc) c a
    have hexhausted := hblock.not_exhausted hwalk.of_setProgramCounter
    have hendless := hblock.not_endless hwalk.of_setProgramCounter fun he => (hend he).2
    have hkey : (a.setWidth 32).signExtend 64 = a := hint
    -- the block of a pre-instrumented instruction leaves the others alone
    have hkeep {x : DWord} (hx : (c₁.railBasicBlocks x).isSome = true) :
        ((allocateBB h r (elf.setProgramCounter pc) c a).2.railBasicBlocks x).isSome = true := by
      generalize (allocateBB h r (elf.setProgramCounter pc) c a).2 = c' at hpre ⊢
      cases hpre with
      | none => exact hx
      | added hnew =>
          rw [CodeCache.railBasicBlocks_insertAt, Function.update_apply]
          split
          · rfl
          · exact hx
    cases hmain with
    | closed =>
        refine hkeep ?_
        rw [hkey, CodeCache.railBasicBlocks_insertAt, Function.update_self]
        rfl
    | cut =>
        refine hkeep ?_
        rw [hkey, CodeCache.railBasicBlocks_insertAt, Function.update_self]
        rfl
    | left he =>
        rcases he with ⟨rfl, rfl⟩ | he | he
        · have hq : q.signExtend 64 = a := by
            cases hwalk with
            | pre => exact hkey
          generalize (allocateBB h r (elf.setProgramCounter pc) c a).2 = c' at hpre ⊢
          cases hpre with
          | none he =>
              have hsome := he rfl
              rw [hq] at hsome
              change (c.railBasicBlocks a).isSome = true at hsome
              rw [hnone] at hsome
              cases hsome
          | added =>
              rw [hq, CodeCache.railBasicBlocks_insertAt, Function.update_self]
              rfl
        · exact absurd he hexhausted
        · exact absurd he hendless

end HasBlock

/-! ### Every block that begins is there or can be made -/

/-- The block that is current is registered, and where a block begins the
record is that of a block. -/
structure Dispatcher.NoGaps (r : Rail) (elf : ElfReader) (d : Dispatcher) : Prop where
  current : d.cache.currentBB.toNat < 2 ^ 31 →
    (d.cache.railBasicBlocks (d.cache.currentBB.setWidth 64)).isSome = true
  blocks : ∀ x b, d.cache.railBasicBlocks x = some b → x.toNat < 2 ^ 31 →
    HasBlock r elf (x.setWidth 32) → b ≠ .empty

section NoGaps

variable {h : Host} {r : Rail} {cb : Callbacks} {io : IoRequest → DWord} {elf : ElfReader}
  {cfgGenerator : Option CfgGenerator} {ok : Dispatcher → Event → Prop}
  {l : List (Dispatcher × Event)} {d : Dispatcher} {f : TrapFrame} {taken a : DWord} {res : Resume}
  {s : Successor} {next : RailBasicBlock}

theorem Dispatcher.NoGaps.lookedUp (hd : d.NoGaps r elf) : d.lookedUp.NoGaps r elf := by
  have hcurrentBB : d.lookedUp.cache.currentBB = d.cache.currentBB := currentBB_lookup _ _
  refine ⟨fun hlow => ?_, fun x b hb hx hblock => ?_⟩
  · rw [hcurrentBB] at hlow ⊢
    obtain ⟨b, hb⟩ := Option.isSome_iff_exists.mp (hd.current hlow)
    rw [Dispatcher.lookedUp, railBasicBlocks_lookup hb]
    rfl
  · rcases lookup_cases hb with hold | ⟨rfl, hnone, -⟩
    · exact hd.blocks x b hold hx hblock
    · rw [BitVec.toNat_setWidth, Nat.mod_eq_of_lt (by omega)] at hx
      have hsome := hd.current hx
      rw [hnone] at hsome
      cases hsome

theorem Dispatcher.NoGaps.stub (hlink : r.traceLinkingEnabled = false) (hd : d.NoGaps r elf)
    (hreads : d.Reads elf) (hst : StubStep h r cb io d f taken a res s next)
    (hkeyed : ∀ x b, res.dispatcher.cache.railBasicBlocks x = some b →
      b = .empty ∨ b.firstAddr = x ∧ asInt x = x) : res.dispatcher.NoGaps r elf := by
  constructor
  · intro hlow
    obtain ⟨hkey, hint⟩ := hst.key hkeyed
    have hcurrentBB : res.dispatcher.cache.currentBB = s.nextBlockAddr.setWidth 32 := by
      rw [← hkey]
      exact congrArg CodeCache.currentBB hst.cache
    rw [hcurrentBB] at hlow ⊢
    rw [setWidth_of_low hint hlow, hst.record_next]
    rfl
  · refine hst.records (P := fun x b => x.toNat < 2 ^ 31 → HasBlock r elf (x.setWidth 32) →
      b ≠ .empty) ?_ hd.lookedUp.blocks ?_
    · intro x b bb _ hseg _ _ hempty
      have htype := congrArg RailBasicBlock.type hempty
      change b.type = _ at htype
      rw [hseg] at htype
      cases htype
    · intro _ x b hb
      obtain ⟨pc, hpc⟩ := hreads.readerBehind (h := h) a
      rw [hpc, allocate, hlink] at hb
      exact (allocateBB_record hb).imp id fun hnew _ _ => hnew.1.ne_empty

theorem noGaps_init (hlink : r.traceLinkingEnabled = false) (f : TrapFrame) :
    (init h r cb (rootDispatcher h elf cfgGenerator) f).dispatcher.NoGaps r elf := by
  obtain ⟨next, -, hinit⟩ := @init_dispatcher h r cb elf f cfgGenerator
  have hentry : allocateEntry h r elf = allocateBB h r elf.jumpToEntry (allocateRoot h elf).2
      elf.entryAddr := by
    rw [allocateEntry, allocate, hlink]
    rfl
  have hint : asInt elf.entryAddr = elf.entryAddr := asInt_signExtend _
  rw [hinit]
  constructor
  · intro hlow
    have hcurrentBB : ((allocateEntry h r elf).2.lookup elf.entryAddr).2.currentBB =
        elf.entryAddr.setWidth 32 := by
      rw [currentBB_lookup, allocateEntry, currentBB_allocate, ElfReader.entryAddr, setWidth_asInt]
    show (((allocateEntry h r elf).2.lookup elf.entryAddr).2.railBasicBlocks _).isSome = true
    rw [show Dispatcher.cache _ = ((allocateEntry h r elf).2.lookup elf.entryAddr).2 from rfl,
      hcurrentBB] at hlow ⊢
    rw [setWidth_of_low hint hlow, railBasicBlocks_lookup_self]
    rfl
  · intro x b hb hx hblock
    rcases lookup_cases hb with hold | ⟨rfl, hnone, -⟩
    · rw [hentry] at hold
      rcases @allocateBB_record h r elf b (elf.entry.setWidth 32) _ _ _ hold with
        hroot | ⟨hguest, -⟩
      · cases hroot
      · exact hguest.ne_empty
    · rw [hentry] at hnone
      have hsome : ((allocateBB h r elf.jumpToEntry (allocateRoot h elf).2
          elf.entryAddr).2.railBasicBlocks elf.entryAddr).isSome = true :=
        (@allocateBB_registers_iff h r elf (elf.entry.setWidth 32) _ _ hint rfl).mpr hblock
      rw [hnone] at hsome
      cases hsome

theorem noGaps_run (hlink : r.traceLinkingEnabled = false)
    (hrun : Run (dispatch h r cb elf cfgGenerator) ok l d) : d.NoGaps r elf := by
  induction hrun with
  | start hs =>
      obtain ⟨f, rfl⟩ := hs
      exact noGaps_init hlink f
  | @next l d d' e hrun hok hstep ih =>
      have hkeyed := ((recordRule_keyed h r elf).run (hrun.next hok hstep)).2
      cases e with
      | instrument f =>
          obtain rfl := Option.some.inj hstep
          rw [instrument_dispatcher]
          exact ⟨ih.lookedUp.current, ih.lookedUp.blocks⟩
      | call io f taken a =>
          obtain ⟨res, hstub, rfl⟩ := Option.map_eq_some_iff.mp hstep
          obtain ⟨s, next, hst⟩ := stub_step (StubOutcome.eq_returned hstub)
          exact ih.stub hlink ((recordRule_keyed h r elf).run hrun).1 hst hkeyed

end NoGaps

/-! ### Callbacks that keep the frame -/

structure Callbacks.KeepFrame (cb : Callbacks) : Prop where
  inst : ∀ func inst f, cb.inst func inst f = f
  bb : ∀ func railBB f, cb.bb func railBB f = f

theorem Callbacks.KeepFrame.eq_of_called {r : Rail} {cb : Callbacks} (hcb : cb.KeepFrame)
    {f f' : TrapFrame} (hcalled : RoutinesCalled r cb f f') : f' = f := by
  induction hcalled with
  | none => rfl
  | inst _ _ inst ih => rw [hcb.inst, ih]
  | bb _ _ railBB ih => rw [hcb.bb, ih]

/-! ### The successor -/

/-- Where the guest goes on behind the instruction at `last`: at the target of
a branch that is taken and of a jump, and otherwise behind it. -/
def ElfReader.goesTo (elf : ElfReader) (last : DWord) (taken : Bool) : DWord :=
  let w := elf.fetch (last.setWidth 32)
  if w.opcode = Opcode.branch then last + if taken then w.immB.signExtend 64 else 4
  else if w.opcode = Opcode.jal then last + w.immJ.signExtend 64
  else last + 4

/-- The registers of the guest behind the instruction at `last`: a jump links. -/
def ElfReader.goesWith (elf : ElfReader) (last : DWord) (f : TrapFrame) : TrapFrame :=
  let w := elf.fetch (last.setWidth 32)
  if w.opcode = Opcode.jal ∧ w.rd ≠ 0 then f.set w.rd (last + 4) else f

theorem asInt_of_low {x : DWord} (hlow : x.toNat < 2 ^ 31) : asInt x = x := by
  have hmsb : (x.setWidth 32).msb = false := by
    rw [BitVec.msb_eq_false_iff_two_mul_lt, BitVec.toNat_setWidth]
    omega
  rw [asInt, BitVec.signExtend_eq_setWidth_of_msb_false hmsb]
  bv_omega

theorem signExtend_add_of_low {last : DWord} {i : BitVec 32}
    (hlow : (last + i.signExtend 64).toNat < 2 ^ 31) :
    (last.setWidth 32 + i).signExtend 64 = last + i.signExtend 64 := by
  have hsum : (last + i.signExtend 64).setWidth 32 = last.setWidth 32 + i := by
    rw [BitVec.setWidth_add _ _ (by decide)]
    exact congrArg (last.setWidth 32 + ·) (low_ofLow i)
  rw [← hsum]
  exact asInt_of_low hlow

section Successor

variable {h : Host} {r : Rail} {cb : Callbacks} {io : IoRequest → DWord} {elf : ElfReader}
  {d : Dispatcher} {f : TrapFrame} {taken a : DWord} {b : RailBasicBlock}

theorem guestExit_direct {pc : BitVec 32}
    (hop : (elf.fetch pc).opcode = Opcode.branch ∨ (elf.fetch pc).opcode = Opcode.jal) :
    guestExit h elf pc = ⟨{ decodeInstruction h.junkInst (elf.fetch pc) with address := pc },
      .directBranch⟩ := by
  have htype : (guestExit h elf pc).exitType = .directBranch := by
    rcases hop with hop | hop
    · rw [guestExit_branch hop]
    · rw [guestExit_jal hop]
  rw [← htype]
  rfl

/-- The successor of a block with a truthful record, if it is a guest address,
and the frame that is handed on. -/
theorem leave_direct (hexits : ∀ x, d.cache.exits x = none) (hcurrent : d.current = b)
    (hb : Truthful elf b.firstAddr b) (htype : b.type = .directBranch ∨ b.type = .segmented)
    (hnext : (elf.goesTo b.lastAddr (decide (taken ≠ 0))).toNat < 2 ^ 31)
    (hjal : (elf.fetch (b.lastAddr.setWidth 32)).opcode = Opcode.jal →
      (b.lastAddr + 4).toNat < 2 ^ 31) :
    ∃ s, d.leave h r cb io f taken a = .returned s ∧
      s.nextBlockAddr = elf.goesTo b.lastAddr (decide (taken ≠ 0)) ∧
      s.frame = elf.goesWith b.lastAddr f ∧ s.shouldNotExecLast = true := by
  have hfour : (4 : BitVec 32).signExtend 64 = 4 := by decide
  -- without traces the instruction is read from the record, which tells the truth
  have hleft : d.left h a =
      ⟨{ decodeInstruction h.junkInst (elf.fetch (b.lastAddr.setWidth 32)) with
        address := b.lastAddr.setWidth 32 }, b.type⟩ := by
    rw [left_of_exits hexits, hcurrent, ← hb.terminalInst]
    rfl
  have hleaves := hb.type
  rw [hb.terminalInst] at hleaves
  generalize hpc : b.lastAddr.setWidth 32 = pc at hleft hleaves hjal
  have hgoesTo : elf.goesTo b.lastAddr (decide (taken ≠ 0)) =
      if (elf.fetch pc).opcode = Opcode.branch then
        b.lastAddr + if decide (taken ≠ 0) then (elf.fetch pc).immB.signExtend 64 else 4
      else if (elf.fetch pc).opcode = Opcode.jal then b.lastAddr + (elf.fetch pc).immJ.signExtend 64
      else b.lastAddr + 4 := by
    rw [← hpc]
    rfl
  have hgoesWith : elf.goesWith b.lastAddr f =
      if (elf.fetch pc).opcode = Opcode.jal ∧ (elf.fetch pc).rd ≠ 0 then
        f.set (elf.fetch pc).rd (b.lastAddr + 4) else f := by
    rw [← hpc]
    rfl
  rw [hgoesTo] at hnext ⊢
  rw [hgoesWith]
  rcases htype with htype | htype <;> rw [htype] at hleft hleaves
  · -- a branch or a jump
    rw [← guestExit_direct hleaves] at hleft
    obtain ⟨s, hs⟩ : ∃ s, d.leave h r cb io f taken a = .returned s := by
      rw [Dispatcher.leave, hleft, guestExit_direct hleaves]
      simp only [successor]
      split_ifs <;> exact ⟨_, rfl⟩
    have hsucc := hs
    rw [Dispatcher.leave, hleft] at hsucc
    obtain ⟨haddr, hexec, hframe⟩ := successor_guestExit (e := ⟨0, pc⟩) hleaves hsucc
    refine ⟨s, hs, ?_, ?_, hexec⟩
    · rw [haddr, ExitStub.successor, ExitStub.word]
      subst hpc
      -- the dispatcher adds in 32 bits, the guest in 64; below `2 ^ 31` they agree
      split_ifs at hnext ⊢ with hop htaken hj
      · rw [signExtend_add_of_low, signExtend_signExtend (by decide)]
        rwa [signExtend_signExtend (by decide)]
      · rw [signExtend_add_of_low, hfour]
        rwa [hfour]
      · rw [signExtend_add_of_low, signExtend_signExtend (by decide)]
        rwa [signExtend_signExtend (by decide)]
      · exact absurd (hleaves.resolve_left hop) hj
    · rw [hframe, ExitStub.word]
      subst hpc
      split_ifs with hlinks
      · rw [signExtend_add_of_low, hfour]
        rw [hfour]
        exact hjal hlinks.1
      · rfl
  · -- the end of a segment
    have hbranch : (elf.fetch pc).opcode ≠ Opcode.branch := fun hop => hleaves.2 (.inl hop)
    have hnojal : (elf.fetch pc).opcode ≠ Opcode.jal := fun hop => hleaves.2 (.inr (.inl hop))
    rw [if_neg hbranch, if_neg hnojal] at hnext
    rw [if_neg hbranch, if_neg hnojal, if_neg fun hlinks => hnojal hlinks.1]
    rw [Dispatcher.leave, hleft]
    refine ⟨_, rfl, ?_, rfl, rfl⟩
    subst hpc
    rw [← hfour] at hnext ⊢
    exact signExtend_add_of_low hnext

end Successor

/-! ### The call -/

/-- The call has left the instruction at `last` for the block at `x`: the frame
is the guest's behind that instruction, the block is translated if and only if
none is registered, becomes the current one, and is entered at its start. -/
structure GoesOn (h : Host) (r : Rail) (elf : ElfReader) (d : Dispatcher) (f : TrapFrame)
    (last x : DWord) (res : Resume) : Prop where
  frame : res.frame = elf.goesWith last f
  cache : ∃ next bb, res.dispatcher.cache =
    ((if (d.cache.railBasicBlocks x).isNone then (allocateBB h r d.elfReader d.cache x).2
      else d.cache).renameSegment x next bb).setCurrentBB x
  translated : res.dispatcher.cache.memory ≠ d.cache.memory ↔ d.cache.railBasicBlocks x = none
  currentBB : res.dispatcher.cache.currentBB.setWidth 64 = x
  entered : ∃ next, res.dispatcher.cache.railBasicBlocks x = some next ∧ next.firstAddr = x ∧
    res.returnVal = next.startLocationInCache

section Call

variable {h : Host} {r : Rail} {cb : Callbacks} {io : IoRequest → DWord} {elf : ElfReader}
  {cfgGenerator : Option CfgGenerator} {l : List (Dispatcher × Event)} {d : Dispatcher}
  {f : TrapFrame} {taken a : DWord} {b : RailBasicBlock}

theorem readerBehind_of_exits (hexits : ∀ x, d.cache.exits x = none) (a : DWord) :
    d.readerBehind h a = d.elfReader := by
  have hnone : (d.lookedUp.cache.exits a).isSome = false := by
    rw [exits_lookedUp, hexits]
    rfl
  rw [Dispatcher.readerBehind, lastInst, if_neg]
  · rfl
  · rintro ⟨-, hsome⟩
    rw [hnone] at hsome
    cases hsome

theorem memory_lt_allocateBB (h : Host) (r : Rail) (elf : ElfReader) (c : CodeCache) (a : DWord) :
    c.memory.length < (allocateBB h r elf c a).2.memory.length := by
  obtain ⟨ps, q, e, c₁, -, -, hmain, hpre, -⟩ := allocateBB_walk h r elf c a
  have hpos : 0 < (walkedWords ps).length := by
    rw [walkedWords, List.length_append]
    exact Nat.add_pos_left (by decide) _
  refine Nat.lt_of_lt_of_le ?_ hpre.memory.length_le
  cases hmain with
  | closed =>
      show _ < (c.memory ++ (walkedWords ps ++ _)).length
      rw [List.length_append, List.length_append]
      omega
  | cut =>
      show _ < (c.memory ++ (walkedWords ps ++ _)).length
      rw [List.length_append, List.length_append]
      omega
  | left =>
      show _ < (c.memory ++ walkedWords ps).length
      rw [List.length_append]
      omega

/-- Whether a block can be made does not depend on the cache. -/
theorem allocatable_iff {x : DWord} (hint : asInt x = x) :
    Allocatable h r elf x ↔ HasBlock r elf (x.setWidth 32) :=
  @allocateBB_registers_iff h r elf elf.programCounter .initial x hint rfl

theorem found_guestBlock (hlink : r.traceLinkingEnabled = false)
    (hrun : Run (dispatch h r cb elf cfgGenerator) Any l d) {x : DWord} (hlow : x.toNat < 2 ^ 31)
    (hint : asInt x = x) (hblock : HasBlock r elf (x.setWidth 32)) :
    ∃ next, (if (d.cache.railBasicBlocks x).isNone then (allocateBB h r d.elfReader d.cache x).2
      else d.cache).railBasicBlocks x = some next ∧ GuestBlock h r elf next ∧
        next.firstAddr = x := by
  obtain ⟨⟨pc, hpc⟩, hrecords⟩ := (recordRule_guestBlock hlink).run hrun
  rcases hold : d.cache.railBasicBlocks x with _ | next
  · have hsome : ((allocateBB h r (elf.setProgramCounter pc) d.cache x).2.railBasicBlocks
        x).isSome = true := (allocateBB_registers_iff hint hold).mpr hblock
    obtain ⟨next, hnext⟩ := Option.isSome_iff_exists.mp hsome
    rcases allocateBB_record hnext with hkept | ⟨hguest, hfirst, -⟩
    · rw [hold] at hkept
      cases hkept
    · refine ⟨next, ?_, hguest, hfirst⟩
      rw [hpc]
      exact hnext
  · have hne := (noGaps_run hlink hrun).blocks x next hold hlow hblock
    obtain ⟨hguest, hfirst⟩ := (hrecords x next hold).resolve_left hne
    exact ⟨next, hold, hguest, hfirst⟩

/-- In every reachable state: when a block is left whose last instruction is a
branch or a jump, or that is a segment, the guest goes on where the architecture
says, if a block begins there. -/
theorem stub_goes_on (hlink : r.traceLinkingEnabled = false) (hcb : cb.KeepFrame)
    (hrun : Run (dispatch h r cb elf cfgGenerator) Any l d)
    (hb : d.cache.railBasicBlocks (d.cache.currentBB.setWidth 64) = some b) (hne : b ≠ .empty)
    (htype : b.type = .directBranch ∨ b.type = .segmented) (io : IoRequest → DWord)
    (f : TrapFrame) (taken a : DWord)
    (hjal : (elf.fetch (b.lastAddr.setWidth 32)).opcode = Opcode.jal →
      (b.lastAddr + 4).toNat < 2 ^ 31)
    (hzero : elf.goesTo b.lastAddr (decide (taken ≠ 0)) ≠ 0)
    (hlow : (elf.goesTo b.lastAddr (decide (taken ≠ 0))).toNat < 2 ^ 31)
    (halloc : Allocatable h r elf (elf.goesTo b.lastAddr (decide (taken ≠ 0)))) :
    ∃ s res, d.leave h r cb io f taken a = .returned s ∧
      s.nextBlockAddr = elf.goesTo b.lastAddr (decide (taken ≠ 0)) ∧
      stub h r cb io d f taken a = .returned res ∧
      GoesOn h r elf d f b.lastAddr s.nextBlockAddr res := by
  obtain ⟨-, hrecords⟩ := (recordRule_guestBlock hlink).run hrun
  have hexits := exits_run hlink hrun
  have hcurrent : d.current = b := by
    rw [Dispatcher.current, CodeCache.lookup_of_some hb]
  have hlookedUp : d.lookedUp.cache = d.cache := by
    rw [Dispatcher.lookedUp, CodeCache.lookup_of_some hb]
  obtain ⟨hguest, -⟩ := (hrecords _ b hb).resolve_left hne
  obtain ⟨s, hleave, haddr, hframe, hexec⟩ := @leave_direct h r cb io elf d f taken a b hexits
    hcurrent hguest.truthful htype hlow hjal
  rw [← haddr] at hzero hlow halloc
  have hint := asInt_of_low hlow
  obtain ⟨next, hnext, -, hfirst⟩ := found_guestBlock hlink hrun hlow hint
    ((allocatable_iff hint).mp halloc)
  -- the block is looked for in the cache the call has found
  have hfound : (allocateNext h r (callPost r cb s (d.left h a).inst).dispatcher
      s.nextBlockAddr).cache =
        if (d.cache.railBasicBlocks s.nextBlockAddr).isNone then
          (allocateBB h r d.elfReader d.cache s.nextBlockAddr).2
        else d.cache := by
    rw [allocateNext_cache hleave, hlookedUp, readerBehind_of_exits hexits, allocate, hlink]
    rfl
  rw [← hfound] at hnext
  obtain ⟨res, hres⟩ := stub_returns hleave hnext (by rw [hfirst]; exact hzero)
  obtain ⟨s', next', hst, hresFrame, hreturn⟩ := stub_enters hres
  obtain rfl : s = s' := by
    have hsame := hst.leave
    rw [hleave] at hsame
    exact StubOutcome.returned.inj hsame
  obtain rfl : next = next' := Option.some.inj (hnext.symm.trans hst.registered)
  -- only a segment is renamed behind the allocation, nothing is linked
  have hcache : res.dispatcher.cache =
      ((if (d.cache.railBasicBlocks s.nextBlockAddr).isNone then
          (allocateBB h r d.elfReader d.cache s.nextBlockAddr).2
        else d.cache).renameSegment s.nextBlockAddr next s.current.basicBlockAddress).setCurrentBB
          s.nextBlockAddr := by
    rw [hst.cache, hfirst, ← hfound]
    simp only [beforePre]
    rw [linkExit_self hlink]
  refine ⟨s, res, hleave, haddr, hres, ?_, ⟨next, _, hcache⟩, ?_, ?_, _, hst.record_next, ?_, ?_⟩
  · rw [hresFrame, ← hframe]
    exact hcb.eq_of_called ((RoutinesCalled.none.callPost _).callPre h false _ next)
  · rw [hcache, CodeCache.memory_setCurrentBB, memory_renameSegment]
    rcases d.cache.railBasicBlocks s.nextBlockAddr with _ | b'
    · refine iff_of_true (fun hsame => ?_) rfl
      have hlt := memory_lt_allocateBB h r d.elfReader d.cache s.nextBlockAddr
      exact absurd (congrArg List.length hsame) (by simp only [Option.isNone_none, if_true]; omega)
    · exact iff_of_false (fun hdiffers => hdiffers rfl) (Option.some_ne_none b')
  · rw [hcache, CodeCache.currentBB_setCurrentBB]
    bv_omega
  · split <;> exact hfirst
  · rw [hreturn, hexec, if_pos rfl]
    split <;> rfl

end Call

theorem keepFrame_idleCallbacks : idleCallbacks.KeepFrame :=
  ⟨fun _ _ _ => rfl, fun _ _ _ => rfl⟩

/-- `jal x1, 8; nop; jal x0, 0`, and a word behind it. -/
def callText : ElfReader := .ofWords 0x10000 [0x008000ef, 0x00000013, 0x0000006f, 0x00000013]

theorem callText_goes_on : ∃ (b : RailBasicBlock) (s : Successor) (res : Resume),
    b.lastAddr = 0x10000 ∧
    (started (.plain false) callText).leave requestedHost (.plain false) idleCallbacks (fun _ => 0)
      (fun _ => 0) 1 0 = .returned s ∧
    s.nextBlockAddr = callText.goesTo b.lastAddr (decide ((1 : DWord) ≠ 0)) ∧
    stub requestedHost (.plain false) idleCallbacks (fun _ => 0) (started (.plain false) callText)
      (fun _ => 0) 1 0 = .returned res ∧
    GoesOn requestedHost (.plain false) callText (started (.plain false) callText) (fun _ => 0)
      b.lastAddr s.nextBlockAddr res := by
  have hblock : ((started (.plain false) callText).cache.railBasicBlocks
      ((started (.plain false) callText).cache.currentBB.setWidth 64)).map (fun b =>
        (b.type, b.lastAddr)) = some (.directBranch, 0x10000) := by decide +kernel
  obtain ⟨b, hb, hfacts⟩ := Option.map_eq_some_iff.mp hblock
  obtain ⟨htype, hlast⟩ := Prod.mk.inj hfacts
  have hne : b ≠ .empty := by
    intro hempty
    rw [hempty] at hlast
    exact absurd hlast (by decide)
  obtain ⟨s, res, hleave, haddr, hres, hgoes⟩ := stub_goes_on (r := .plain false) rfl
    keepFrame_idleCallbacks (run_started _ callText _) hb hne (.inl htype) (fun _ => 0) (fun _ => 0)
    1 0 (by rw [hlast]; decide +kernel) (by rw [hlast]; decide +kernel)
    (by rw [hlast]; decide +kernel) (by
      rw [hlast]
      show Option.isSome _ = true
      decide +kernel)
  exact ⟨b, s, res, hlast, hleave, haddr, hres, hgoes⟩

end RailTranslator
