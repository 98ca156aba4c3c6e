import RailTranslator.CurrentBlock
import RailTranslator.Linking
import RailTranslator.Records
import RailTranslator.SyscallLayout

/-!
Which system instructions are emulated, over whole runs in either mode.

The translators and `stub` know a system instruction by its opcode alone, so
`handle_syscalls` is handed the frame of an `ebreak` or of a CSR instruction
as it is that of an `ecall`, and whether it does anything is a matter of `a7`.
Where it does nothing, `stub` returns to the word in front of the successor's
block, and `InFront` says when that is the instruction.
-/

namespace RailTranslator

open Rv64 Transition

/-! ### The type of a block that a system instruction ends -/

/-- What holds of every record an allocator makes while the cache has room for
what it emits. -/
structure FittingRule (h : Host) (r : Rail) (elf : ElfReader) (P : RailBasicBlock → Prop) :
    Prop where
  empty : P .empty
  renamed : ∀ {b : RailBasicBlock} (bb : DWord), P b → P { b with basicBlockAddress := bb }
  allocated : ∀ {pc : BitVec 32} {c : CodeCache} {a : DWord} {n : ℕ} {x : DWord}
    {b : RailBasicBlock}, 0 < n →
    (allocate h r (elf.setProgramCounter pc) c a n).2.memory.length < loopFuel →
    (allocate h r (elf.setProgramCounter pc) c a n).2.railBasicBlocks x = some b →
      c.railBasicBlocks x = some b ∨ P b

section Types

variable {h : Host} {r : Rail} {cb : Callbacks} {elf : ElfReader}
  {cfgGenerator : Option CfgGenerator} {ok : Dispatcher → Event → Prop}
  {l : List (Dispatcher × Event)} {d : Dispatcher} {P : RailBasicBlock → Prop}

theorem FittingRule.lookedUp (hP : FittingRule h r elf P)
    (hall : ∀ x b, d.cache.railBasicBlocks x = some b → P b) (x : DWord) (b : RailBasicBlock)
    (hb : d.lookedUp.cache.railBasicBlocks x = some b) : P b := by
  rcases lookedUp_record hb with hb | rfl
  · exact hall x b hb
  · exact hP.empty

theorem FittingRule.start (hP : FittingRule h r elf P) (f : TrapFrame)
    (hfits : (init h r cb (rootDispatcher h elf cfgGenerator) f).dispatcher.cache.memory.length <
      loopFuel) (x : DWord) (b : RailBasicBlock)
    (hb : (init h r cb (rootDispatcher h elf cfgGenerator) f).dispatcher.cache.railBasicBlocks x =
      some b) : P b := by
  obtain ⟨next, -, hinit⟩ := @init_dispatcher h r cb elf f cfgGenerator
  rw [hinit] at hb hfits
  rw [memory_lookup] at hfits
  rcases lookup_record hb with hb | rfl
  · refine (@FittingRule.allocated h r elf P hP (elf.entry.setWidth 32) _ _ 1 _ _ (by decide) hfits
      hb).elim (fun hroot => ?_) id
    cases hroot
  · exact hP.empty

theorem FittingRule.run (hP : FittingRule h r elf P)
    (hrun : Run (dispatch h r cb elf cfgGenerator) ok l d)
    (hfits : d.cache.memory.length < loopFuel) (x : DWord) (b : RailBasicBlock)
    (hb : d.cache.railBasicBlocks x = some b) : P b := by
  have hinv : d.Reads elf ∧ (d.cache.memory.length < loopFuel →
      ∀ x b, d.cache.railBasicBlocks x = some b → P b) := by
    refine hrun.invariant (I := fun d => d.Reads elf ∧ (d.cache.memory.length < loopFuel →
      ∀ x b, d.cache.railBasicBlocks x = some b → P b)) ?_ ?_
    · rintro d ⟨f, rfl⟩
      exact ⟨reads_init f, hP.start f⟩
    · intro d e d' ⟨hd, hall⟩ _ hstep
      refine ⟨hd.step hstep, fun hfits => ?_⟩
      have hlooked := hP.lookedUp (hall ((memory_le_of_step hstep).trans_lt hfits))
      cases e with
      | instrument f =>
          obtain rfl := Option.some.inj hstep
          rw [instrument_dispatcher]
          exact hlooked
      | call io f taken a =>
          obtain ⟨res, hstub, rfl⟩ := Option.map_eq_some_iff.mp hstep
          obtain ⟨s, next, hst⟩ := stub_step (StubOutcome.eq_returned hstub)
          obtain ⟨pc, hpc⟩ := hd.readerBehind (h := h) a
          refine hst.records (P := fun _ b => P b) (fun bb hb _ => hP.renamed bb hb) hlooked
            fun hnone x b hb => ?_
          have hmem := hst.memory_length
          rw [allocateNext_cache hst.leave, hnone, Option.isNone_none, if_pos rfl] at hmem
          rw [hpc] at hb hmem
          exact hP.allocated (by decide) (hmem ▸ hfits) hb
  exact hinv.2 hfits x b hb

theorem not_isTerminal_of_system {w : Word} (hw : ¬ IsTerminal w) : w.opcode ≠ Opcode.system :=
  fun hop => hw (.inr (.inr (.inr hop)))

theorem exitType_of_system {w : Word} (hop : w.opcode = Opcode.system) : exitType w = .syscall := by
  rw [exitType, hop]
  rfl

theorem GuestBlock.type_of_system {b : RailBasicBlock} (hb : GuestBlock h r elf b)
    (hop : b.terminalInst.opcode = Opcode.system) : b.type = .syscall := by
  cases hb with
  | closed hwalk he hdesc =>
      rw [hdesc.terminalInst] at hop
      rw [hdesc.type]
      rcases he with rfl | rfl
      · exact exitType_of_system hop
      · exact absurd hop (not_isTerminal_of_system (hwalk.of_closed (.inr rfl)).2)
  | cut hwalk hne hdesc =>
      rw [hdesc.terminalInst] at hop
      exact absurd hop (not_isTerminal_of_system (hwalk.of_cut rfl hne).not_terminal)
  | pre hne hpre hdesc =>
      rw [hdesc.terminalInst] at hop
      rw [hdesc.type, nextInstType, if_pos (.inr (.inr (.inr hop)))]
      exact exitType_of_system hop

/-- A block whose last instruction is a system instruction is typed so. -/
theorem fittingRule_system (h : Host) (r : Rail) (elf : ElfReader) :
    FittingRule h r elf fun b => b.terminalInst.opcode = Opcode.system → b.type = .syscall where
  empty hop := absurd hop (by decide)
  renamed _ hb := hb
  allocated {pc c a n x b} hn hfits hb := by
    rw [allocate] at hb hfits
    by_cases hlink : r.traceLinkingEnabled = true
    · rw [if_pos hlink] at hb hfits
      refine (allocateTrace_record hb).imp id ?_
      rintro ⟨-, ps, q, e, hwalk, hrec, hendless⟩ hop
      have hwalk' := hwalk.of_setProgramCounter
      have hterm : b.terminalInst = elf.fetch q := hrec.terminalInst
      obtain ⟨-, hsegmented, hlost, hempty⟩ := hwalk'.of_ended
      rw [hterm] at hop
      cases e with
      | stopped => exact (hrec.type rfl).trans (exitType_of_system hop)
      | segmented => exact absurd hop (not_isTerminal_of_system (hsegmented rfl).2)
      | lost =>
          rw [hlost rfl] at hop
          cases hop
      | exhausted =>
          rw [hwalk'.fetch_of_exhausted rfl] at hop
          cases hop
      | endless => exact absurd (hendless rfl) (Nat.not_le_of_gt hfits)
      | empty => exact absurd (hempty rfl) hn.ne'
    · rw [if_neg hlink] at hb
      exact (allocateBB_record hb).imp id fun hnew => hnew.1.type_of_system

end Types

/-! ### What is handed to `handle_syscalls` -/

def ecallWord : Word := 0x00000073

/-- The word `stub` takes for the last instruction. -/
def Dispatcher.leftWord (d : Dispatcher) (a : DWord) : Word :=
  if a ≠ 0 ∧ (d.cache.exits a).isSome then d.elfReader.fetch (a.setWidth 32)
  else d.current.terminalInst

/-- The frame `handle_syscalls` is handed, if it is invoked. -/
def Dispatcher.handled (h : Host) (r : Rail) (cb : Callbacks) (d : Dispatcher) (f : TrapFrame)
    (a : DWord) : Option TrapFrame :=
  if (d.left h a).exitType = .syscall then some (syscallFrame r cb (d.left h a).inst f) else none

/-- The guest address behind the instruction that has been left. -/
def Dispatcher.behindLeft (h : Host) (d : Dispatcher) (a : DWord) : DWord :=
  ((d.left h a).inst.address + 4).signExtend 64

/-- The word `w` stands in front of the block of `x`, or will when the block is
translated. -/
def Dispatcher.InFront (h : Host) (r : Rail) (elf : ElfReader) (d : Dispatcher) (x : DWord)
    (w : Word) : Prop :=
  match d.cache.railBasicBlocks x with
  | some b => d.cache.code h (b.startLocationInCache - 4) = some w
  | none => d.cache.memory.getLast? = some w ∧
      (r.traceLinkingEnabled = true ∨ preAt r elf x = false)

/-- At this call nothing but an environment call is emulated: any other word is
not handed to `handle_syscalls`, only routines change the frame, and `stub`
returns to an address at which the word stands. -/
structure OnlyEcalls (h : Host) (r : Rail) (cb : Callbacks) (io : IoRequest → DWord)
    (d : Dispatcher) (f : TrapFrame) (taken a : DWord) : Prop where
  handled : (d.handled h r cb f a).isSome = true → d.leftWord a = ecallWord
  others : d.leftWord a ≠ ecallWord → ∃ res, stub h r cb io d f taken a = .returned res ∧
    RoutinesCalled r cb f res.frame ∧
    res.dispatcher.cache.code h res.returnVal = some (d.leftWord a)

section Left

variable {h : Host} {r : Rail} {cb : Callbacks} {io : IoRequest → DWord} {elf : ElfReader}
  {cfgGenerator : Option CfgGenerator} {ok : Dispatcher → Event → Prop}
  {l : List (Dispatcher × Event)} {d : Dispatcher} {f g : TrapFrame} {taken a : DWord}
  {res : Resume} {s : Successor} {next : RailBasicBlock}

theorem exitType_left (hrun : Run (dispatch h r cb elf cfgGenerator) ok l d)
    (hfits : d.cache.memory.length < loopFuel) (hop : (d.leftWord a).opcode = Opcode.system) :
    (d.left h a).exitType = .syscall := by
  obtain ⟨⟨pc, hpc⟩, -⟩ := (recordRule_keyed h r elf).run hrun
  rw [Dispatcher.leftWord] at hop
  split at hop
  · rename_i hrec
    rw [left_recorded hpc hrec.1 hrec.2]
    rw [hpc] at hop
    exact guestExit_system hop
  · rename_i hrec
    have hleft : d.left h a = ⟨finalInst h d.current, d.current.type⟩ := by
      have hlooked : ¬ (a ≠ 0 ∧ (d.lookedUp.cache.exits a).isSome) := by
        rwa [exits_lookedUp]
      rw [Dispatcher.left, lastInst, if_neg hlooked]
      rfl
    rw [hleft]
    -- the record of the current block is one of a block, or has no instruction
    by_cases hne : d.current = .empty
    · rw [hne] at hop
      cases hop
    · exact (fittingRule_system h r elf).run hrun hfits _ _ (registered_current hne) hop

theorem frame_notEcalled {d₀ : Dispatcher} {current : RailBasicBlock} {inst : RvInst}
    (hnot : handleSyscalls io (syscallFrame r cb inst f) = .notEcalled)
    (hs : successor r cb io d₀ f current ⟨inst, .syscall⟩ taken = .returned s) :
    RoutinesCalled r cb f s.frame := by
  have htypedPre : ∀ routine ∈ r.instructionRoutinesTypedPre .systemType, r.HasInst routine :=
    fun _ hmem => .inr (.inr ⟨.systemType, .inl hmem⟩)
  have htypedPost : ∀ routine ∈ r.instructionRoutinesTypedPost .systemType, r.HasInst routine :=
    fun _ hmem => .inr (.inr ⟨.systemType, .inr hmem⟩)
  rw [syscallFrame, ← frame_callInst _ _ d₀] at hnot
  simp only [successor, hnot] at hs
  cases hs
  exact (RoutinesCalled.none.callInst htypedPre _ _ _).callInst htypedPost _ _ _

end Left

/-! ### The word that is executed -/

section Executed

variable {h : Host} {r : Rail} {cb : Callbacks} {io : IoRequest → DWord} {elf : ElfReader}
  {cfgGenerator : Option CfgGenerator} {ok : Dispatcher → Event → Prop}
  {l : List (Dispatcher × Event)} {d : Dispatcher} {f : TrapFrame} {taken a : DWord}
  {res : Resume} {s : Successor} {next : RailBasicBlock} {w : Word}

theorem memory_ne_nil (hrun : Run (dispatch h r cb elf cfgGenerator) ok l d) :
    d.cache.memory ≠ [] := by
  have hpos : 0 < d.cache.memory.length := by
    refine hrun.invariant (I := fun d => 0 < d.cache.memory.length) ?_ ?_
    · rintro d ⟨f, rfl⟩
      obtain ⟨next, -, hinit⟩ := @init_dispatcher h r cb elf f cfgGenerator
      have hroot : 0 < (allocateRoot h elf).2.memory.length := by
        show 0 < (insertLi h.initSwitch regs.t6 ++ [jalrInst]).length
        rw [List.length_append, List.length_singleton]
        omega
      have hle := (memory_allocate h r elf.jumpToEntry (allocateRoot h elf).2 elf.entryAddr
        1).length_le
      rw [hinit]
      show 0 < ((allocateEntry h r elf).2.lookup elf.entryAddr).2.memory.length
      rw [memory_lookup]
      exact hroot.trans_le hle
    · intro d e d' hpos _ hstep
      exact hpos.trans_le (memory_le_of_step hstep)
  exact List.ne_nil_of_length_pos hpos

/-- The last word of the cache stands in front of a block that is translated
now, unless the block enters through `context_switch_instrument`. -/
theorem allocate_behind {pc : BitVec 32} {c : CodeCache} {x : DWord} {n : ℕ} {b : RailBasicBlock}
    (hnone : c.railBasicBlocks x = none)
    (hb : (allocate h r (elf.setProgramCounter pc) c x n).2.railBasicBlocks x = some b) :
    (r.traceLinkingEnabled = true ∨ preAt r elf x = false) ∧ b.startLocationInCache = c.here h ∨
      ¬ (r.traceLinkingEnabled = true ∨ preAt r elf x = false) ∧ ∃ w,
        StandsBehind h (allocate h r (elf.setProgramCounter pc) c x n).2 b w ∧
          w.opcode ≠ Opcode.system := by
  rw [allocate] at hb ⊢
  by_cases hlink : r.traceLinkingEnabled = true
  · rw [if_pos hlink] at hb ⊢
    obtain ⟨-, hadd⟩ := allocateTrace_spec h r (elf.setProgramCounter pc) c x n
    by_cases hx : x = asInt x
    · obtain ⟨b', hb', -, hstart, -⟩ := hadd.record
      rw [← hx] at hb'
      obtain rfl := Option.some.inj (hb'.symm.trans hb)
      exact .inl ⟨.inl hlink, hstart⟩
    · rw [hadd.blocks x hx, hnone] at hb
      cases hb
  · rw [if_neg hlink] at hb ⊢
    obtain ⟨-, hadd⟩ := allocateBB_spec h r (elf.setProgramCounter pc) c x
    rcases hadd.of_setProgramCounter.start x b hnone hb with ⟨hpre, hstart⟩ | ⟨hpre, w, hw, hop⟩
    · exact .inl ⟨.inr hpre, hstart⟩
    · refine .inr ⟨?_, w, hw, hop⟩
      rw [hpre]
      rintro (h | h)
      · exact hlink h
      · cases h

/-- A call that leaves a system instruction and does not emulate it returns to
the word in front of the successor's block. -/
theorem executed_iff (hrun : Run (dispatch h r cb elf cfgGenerator) ok l d)
    (hsys : (d.left h a).exitType = .syscall)
    (hnot : handleSyscalls io (syscallFrame r cb (d.left h a).inst f) = .notEcalled)
    (hstub : stub h r cb io d f taken a = .returned res) (hfits : res.dispatcher.cache.Fits)
    (hop : w.opcode = Opcode.system) :
    res.dispatcher.cache.code h res.returnVal = some w ↔
      d.InFront h r elf (d.behindLeft h a) w := by
  obtain ⟨⟨pc, hpc⟩, -⟩ := (recordRule_keyed h r elf).run hrun
  obtain ⟨s, next, hst, -, hreturn⟩ := stub_enters hstub
  have hleft : d.left h a = ⟨(d.left h a).inst, .syscall⟩ := by
    rw [← hsys]
  have hsucc := hst.leave
  rw [Dispatcher.leave, hleft] at hsucc
  obtain ⟨haddr, hexec⟩ := successor_notEcalled hnot hsucc
  change s.nextBlockAddr = d.behindLeft h a at haddr
  rw [hexec, if_neg Bool.false_ne_true] at hreturn
  -- behind the allocation neither the renaming nor the linking touches the words
  have hmem : res.dispatcher.cache.memory = (allocateNext h r
      (callPost r cb s (d.left h a).inst).dispatcher s.nextBlockAddr).cache.memory := by
    rw [hst.cache, CodeCache.memory_setCurrentBB]
    simp only [beforePre]
    rw [memory_renameSegment, linkExit_other (by rw [hsys]; exact BasicBlockType.noConfusion)]
  have hlooked : d.lookedUp.cache.memory = d.cache.memory := memory_lookup _ _
  have hnext := hst.registered
  rw [allocateNext_cache hst.leave] at hmem hnext
  rw [hreturn, ← haddr]
  -- a new block stands behind the last word, an old one where it did
  rcases hb : d.lookedUp.cache.railBasicBlocks s.nextBlockAddr with _ | b
  · rw [hb, Option.isNone_none, if_pos rfl] at hmem hnext
    have hnone : d.cache.railBasicBlocks s.nextBlockAddr = none := by
      rcases hold : d.cache.railBasicBlocks s.nextBlockAddr with _ | b
      · rfl
      · rw [Dispatcher.lookedUp, railBasicBlocks_lookup hold] at hb
        cases hb
    obtain ⟨pc', hpc'⟩ := Dispatcher.Reads.readerBehind ⟨pc, hpc⟩ (h := h) a
    rw [hpc'] at hmem hnext
    simp only [Dispatcher.InFront, hnone]
    obtain ⟨w₀, hw₀⟩ := Option.ne_none_iff_exists'.mp
      (mt List.getLast?_eq_none_iff.mp (memory_ne_nil hrun))
    have hbehind {w' : Word} (hw' : StandsBehind h (allocate h r (elf.setProgramCounter pc')
        d.lookedUp.cache s.nextBlockAddr 10).2 next w') :
        res.dispatcher.cache.code h (next.startLocationInCache - 4) = some w' :=
      (hw'.mono (hmem ▸ List.prefix_rfl)).code hfits
    rcases allocate_behind hb hnext with ⟨hplain, hstart⟩ | ⟨hpre, w', hw', hne⟩
    · have hlast : d.lookedUp.cache.memory.getLast? = some w₀ := hlooked ▸ hw₀
      rw [hbehind ((standsBehind_here hlast hstart).mono (memory_allocate h r _ _ _ _)), hw₀]
      exact (and_iff_left hplain).symm
    · rw [hbehind hw']
      refine iff_of_false (fun heq => hne ?_) fun hand => hpre hand.2
      rw [Option.some.inj heq, hop]
  · rw [hb, Option.isNone_some, if_neg Bool.false_ne_true] at hmem hnext
    obtain rfl := Option.some.inj (hb.symm.trans hnext)
    have hold : d.cache.railBasicBlocks s.nextBlockAddr = some b := by
      refine (lookedUp_record hb).resolve_right fun hempty => hst.firstAddr ?_
      rw [hempty]
      rfl
    simp only [Dispatcher.InFront, hold]
    rw [CodeCache.code, CodeCache.code, hmem, hlooked]

/-- The call has not emulated the system instruction `w`: `handle_syscalls` has
done nothing, only routines have changed the frame, and `w` is executed next. -/
structure LeftAlone (h : Host) (r : Rail) (cb : Callbacks) (io : IoRequest → DWord)
    (d : Dispatcher) (f : TrapFrame) (a : DWord) (w : Word) (res : Resume) : Prop where
  notEcalled : handleSyscalls io (syscallFrame r cb (d.left h a).inst f) = .notEcalled
  frame : RoutinesCalled r cb f res.frame
  executed : res.dispatcher.cache.code h res.returnVal = some w

theorem leftAlone_iff (hrun : Run (dispatch h r cb elf cfgGenerator) ok l d)
    (hsys : (d.left h a).exitType = .syscall)
    (hstub : stub h r cb io d f taken a = .returned res) (hfits : res.dispatcher.cache.Fits)
    (hop : w.opcode = Opcode.system) : LeftAlone h r cb io d f a w res ↔
      ¬ Emulated (syscallFrame r cb (d.left h a).inst f 17) ∧
        d.InFront h r elf (d.behindLeft h a) w := by
  constructor
  · intro halone
    exact ⟨handleSyscalls_notEcalled_iff.mp halone.notEcalled,
      (executed_iff hrun hsys halone.notEcalled hstub hfits hop).mp halone.executed⟩
  · rintro ⟨hnumber, hfront⟩
    have hnot : handleSyscalls io (syscallFrame r cb (d.left h a).inst f) = .notEcalled :=
      handleSyscalls_notEcalled_iff.mpr hnumber
    refine ⟨hnot, ?_, (executed_iff hrun hsys hnot hstub hfits hop).mpr hfront⟩
    obtain ⟨s, next, hst, hframe, -⟩ := stub_enters hstub
    have hleft : d.left h a = ⟨(d.left h a).inst, .syscall⟩ := by
      rw [← hsys]
    have hsucc := hst.leave
    rw [Dispatcher.leave, hleft] at hsucc
    rw [hframe]
    exact ((frame_notEcalled hnot hsucc).callPost _).callPre h false _ next

/-- In every reachable state, in either mode: when a block is left whose last
word has the opcode of system instructions, nothing but an environment call is
emulated if and only if the word is `ecall`. Every other word is handed to
`handle_syscalls` as well; a call that returns has left it alone if and only if
`a7` holds no number that is emulated and the word stands in front of the block
that is entered. -/
theorem only_ecalls_iff (hrun : Run (dispatch h r cb elf cfgGenerator) Any l d)
    (hfits : d.cache.Fits) (hop : (d.leftWord a).opcode = Opcode.system)
    (io : IoRequest → DWord) (f : TrapFrame) (taken : DWord) :
    (OnlyEcalls h r cb io d f taken a ↔ d.leftWord a = ecallWord) ∧
      ∀ res, stub h r cb io d f taken a = .returned res → res.dispatcher.cache.Fits →
        (LeftAlone h r cb io d f a (d.leftWord a) res ↔
          ¬ Emulated (syscallFrame r cb (d.left h a).inst f 17) ∧
            d.InFront h r elf (d.behindLeft h a) (d.leftWord a)) := by
  have hlt := hfits.lt_loopFuel
  have hsys := exitType_left hrun hlt hop
  refine ⟨⟨fun honly => honly.handled ?_, fun hecall => ⟨fun _ => hecall, fun hne => ?_⟩⟩,
    fun res hres hfits' => leftAlone_iff hrun hsys hres hfits' hop⟩
  · rw [Dispatcher.handled, if_pos hsys]
    rfl
  · exact absurd hecall hne

theorem ecallText_left_alone : OnlyEcalls requestedHost (.plain false) idleCallbacks (fun _ => 0)
      (started (.plain false) ecallText) (fun _ => 0) 1 0 ∧
    ∃ res, stub requestedHost (.plain false) idleCallbacks (fun _ => 0)
        (started (.plain false) ecallText) (fun _ => 0) 1 0 = .returned res ∧
      LeftAlone requestedHost (.plain false) idleCallbacks (fun _ => 0)
        (started (.plain false) ecallText) (fun _ => 0) 0 ecallWord res := by
  have hword : (started (.plain false) ecallText).leftWord 0 = ecallWord := by decide +kernel
  obtain ⟨honly, halone⟩ := only_ecalls_iff (run_started (.plain false) ecallText _)
    (by rw [CodeCache.Fits]; decide +kernel) (by rw [hword]; decide) (fun _ => 0) (fun _ => 0) 1
  refine ⟨honly.mpr hword, ?_⟩
  have hstub : (stub requestedHost (.plain false) idleCallbacks (fun _ => 0)
      (started (.plain false) ecallText) (fun _ => 0) 1 0).toOption.map
        (fun res => res.dispatcher.cache.memory.length) = some 19 := by decide +kernel
  obtain ⟨res, hres, hlen⟩ := Option.map_eq_some_iff.mp hstub
  have hreturned := StubOutcome.eq_returned hres
  have hiff := halone res hreturned (by rw [CodeCache.Fits, hlen]; decide)
  rw [hword] at hiff
  refine ⟨res, hreturned, hiff.mpr ⟨by decide +kernel, ?_⟩⟩
  have hnone : (started (.plain false) ecallText).cache.railBasicBlocks
      ((started (.plain false) ecallText).behindLeft requestedHost 0) = none := by decide +kernel
  simp only [Dispatcher.InFront, hnone]
  exact ⟨by decide +kernel, .inr (by decide +kernel)⟩

/-- `ebreak; jal x0, 0`, and a word the translator does not read. -/
def ebreakText : ElfReader := .ofWords 0x10000 [0x00100073, 0x0000006f, 0x00000013]

/-- `a7` holds the number of `write`. -/
def ebreakFrame : TrapFrame := TrapFrame.set (fun _ => 0) 17 SystemCall.write

/-- An `ebreak` with the number of `write` in `a7` is emulated as one: `a0` is
the result of the host's `write`. -/
theorem ebreak_emulated : ∃ l d,
    Run (dispatch requestedHost (.plain false) idleCallbacks ebreakText none) Any l d ∧
      d.cache.Fits ∧ d.leftWord 0 = 0x00100073 ∧
      ¬ OnlyEcalls requestedHost (.plain false) idleCallbacks (fun _ => 5) d ebreakFrame 1 0 ∧
      ((stub requestedHost (.plain false) idleCallbacks (fun _ => 5) d ebreakFrame 1 0).toOption.map
        fun res => (ebreakFrame a0, res.frame a0)) = some (0, 5) := by
  have hword : (started (.plain false) ebreakText).leftWord 0 = 0x00100073 := by decide +kernel
  have hhandled : ((started (.plain false) ebreakText).handled requestedHost (.plain false)
      idleCallbacks ebreakFrame 0).isSome = true := by decide +kernel
  refine ⟨_, _, run_started (.plain false) ebreakText _, ?_, hword, fun honly => ?_,
    by decide +kernel⟩
  · rw [CodeCache.Fits]
    decide +kernel
  · have hecall := honly.handled hhandled
    rw [hword] at hecall
    exact absurd hecall (by decide)

end Executed

end RailTranslator
