import RailTranslator.BlockLayout
import RailTranslator.StubSpec

/-!
System calls the dispatcher does not emulate, over whole runs without traces.

`allocateBB` puts the system instruction behind the exit of its block, where
nothing jumps to it. To have it executed `stub` returns the address four bytes
in front of the successor's block, and that is the instruction only if the
successor has been translated right after it. `Explored` says what stands in
front of every block, in every reachable state.
-/

namespace RailTranslator

open Rv64

/-! ### The order of translation -/

/-- A block is registered, not the empty record that looking one up creates. -/
def CodeCache.Translated (c : CodeCache) (x : DWord) : Prop :=
  ∃ b, c.railBasicBlocks x = some b ∧ b.firstAddr ≠ 0

def ElfReader.wordBefore (elf : ElfReader) (x : DWord) : Word := elf.fetch (x.setWidth 32 - 4)

/-- The blocks translated on the way from `c` to `c'` while the last word of
the cache was the guest word in front of them, unless they enter through
`context_switch_instrument`. -/
def translatedInOrder (r : Rail) (elf : ElfReader) (c c' : CodeCache) : Set DWord :=
  {x | ¬ c.Translated x ∧ c'.Translated x ∧ c.memory.getLast? = some (elf.wordBefore x) ∧
    preAt r elf x = false}

/-- The states that `init` and calls of `stub` and `instrument` lead to, with
the blocks that have been translated in order. -/
inductive BlockRun (h : Host) (r : Rail) (cb : Callbacks) (elf : ElfReader) :
    Dispatcher → Set DWord → Prop
  | start (cfgGenerator : Option CfgGenerator) (f : TrapFrame) :
      BlockRun h r cb elf (init h r cb (rootDispatcher h elf cfgGenerator) f).dispatcher
        (translatedInOrder r elf (rootDispatcher h elf cfgGenerator).cache
          (init h r cb (rootDispatcher h elf cfgGenerator) f).dispatcher.cache)
  | call {io : IoRequest → DWord} {d : Dispatcher} {O : Set DWord} {f : TrapFrame}
      {taken a : DWord} {res : Resume} (hrun : BlockRun h r cb elf d O)
      (hstub : stub h r cb io d f taken a = .returned res) :
      BlockRun h r cb elf res.dispatcher
        (O ∪ translatedInOrder r elf d.cache res.dispatcher.cache)
  | instrument {d : Dispatcher} {O : Set DWord} (hrun : BlockRun h r cb elf d O)
      (f : TrapFrame) : BlockRun h r cb elf (instrument h r cb d f).dispatcher O

structure Explored (h : Host) (elf : ElfReader) (c : CodeCache) (O : Set DWord) : Prop where
  memory : c.memory ≠ []
  exits : ∀ a, c.exits a = none
  syscall : ∀ x b, c.railBasicBlocks x = some b → b.type = .syscall → SystemRecord elf b
  translated : ∀ x ∈ O, c.Translated x
  behind : ∀ x b, c.railBasicBlocks x = some b → b.firstAddr ≠ 0 →
    ∃ w, StandsBehind h c b w ∧
      ((elf.wordBefore x).opcode = Opcode.system → (w = elf.wordBefore x ↔ x ∈ O))

/-! ### One step -/

section Step

variable {h : Host} {r : Rail} {elf : ElfReader} {c c' : CodeCache} {O : Set DWord}

theorem translated_lookup (c : CodeCache) (a x : DWord) :
    (c.lookup a).2.Translated x ↔ c.Translated x := by
  rw [CodeCache.lookup]
  split
  · rfl
  · rename_i hnone
    rw [CodeCache.Translated, CodeCache.Translated, CodeCache.railBasicBlocks_insertAt]
    by_cases hx : x = a
    · -- the empty record is no block, and there was none before
      subst hx
      rw [Function.update_self, hnone]
      constructor
      · rintro ⟨b, hb, hfirst⟩
        obtain rfl := Option.some.inj hb
        exact absurd rfl hfirst
      · rintro ⟨b, hb, -⟩
        cases hb
    · rw [Function.update_of_ne hx]

theorem Explored.lookup (he : Explored h elf c O) (a : DWord) :
    Explored h elf (c.lookup a).2 O := by
  have hblocks (x : DWord) (b : RailBasicBlock) (hb : (c.lookup a).2.railBasicBlocks x = some b) :
      c.railBasicBlocks x = some b ∨ b = .empty := by
    rw [CodeCache.lookup] at hb
    split at hb
    · exact .inl hb
    · rw [CodeCache.railBasicBlocks_insertAt, Function.update_apply] at hb
      split at hb
      · exact .inr (Option.some.inj hb).symm
      · exact .inl hb
  refine ⟨by rw [memory_lookup]; exact he.memory, by rw [exits_lookup]; exact he.exits,
    fun x b hb htype => ?_, fun x hx => (translated_lookup c a x).mpr (he.translated x hx),
    fun x b hb hfirst => ?_⟩
  · rcases hblocks x b hb with hb' | rfl
    · exact he.syscall x b hb' htype
    · cases htype
  · rcases hblocks x b hb with hb' | rfl
    · obtain ⟨w, hw, hiff⟩ := he.behind x b hb' hfirst
      exact ⟨w, hw.mono (by rw [memory_lookup]), hiff⟩
    · exact absurd rfl hfirst

theorem translated_renameSegment {a : DWord} {next : RailBasicBlock}
    (hnext : c.railBasicBlocks a = some next) (b x : DWord) :
    (c.renameSegment a next b).Translated x ↔ c.Translated x := by
  rw [CodeCache.renameSegment]
  split
  · rw [CodeCache.Translated, CodeCache.Translated, CodeCache.railBasicBlocks_insertAt]
    by_cases hx : x = a
    · subst hx
      rw [Function.update_self, hnext]
      constructor
      · rintro ⟨b', hb', hfirst⟩
        obtain rfl := Option.some.inj hb'
        exact ⟨next, rfl, hfirst⟩
      · rintro ⟨b', hb', hfirst⟩
        obtain rfl := Option.some.inj hb'
        exact ⟨_, rfl, hfirst⟩
    · rw [Function.update_of_ne hx]
  · rfl

theorem record_renameSegment {a : DWord} {next : RailBasicBlock}
    (hnext : c.railBasicBlocks a = some next) (bb : DWord) :
    ∃ b, (c.renameSegment a next bb).railBasicBlocks a = some b ∧ b.firstAddr = next.firstAddr ∧
      b.startLocationInCache = next.startLocationInCache := by
  rw [CodeCache.renameSegment]
  split
  · exact ⟨_, Function.update_self _ _ _, rfl, rfl⟩
  · exact ⟨next, hnext, rfl, rfl⟩

theorem Explored.renameSegment (he : Explored h elf c O) {a : DWord} {next : RailBasicBlock}
    (hnext : c.railBasicBlocks a = some next) (bb : DWord) :
    Explored h elf (c.renameSegment a next bb) O := by
  rcases eq_or_ne next.type .segmented with hseg | hseg
  · have htrans (x : DWord) := translated_renameSegment hnext bb x
    have hrename : c.renameSegment a next bb =
        c.insertAt a { next with basicBlockAddress := bb } := if_pos hseg
    rw [hrename] at htrans ⊢
    refine ⟨he.memory, he.exits, fun x b hb htype => ?_, fun x hx => (htrans x).mpr
      (he.translated x hx), fun x b hb hfirst => ?_⟩
    · rw [CodeCache.railBasicBlocks_insertAt, Function.update_apply] at hb
      split at hb
      · obtain rfl := Option.some.inj hb
        exact absurd (hseg.symm.trans htype) (by decide)
      · exact he.syscall x b hb htype
    · rw [CodeCache.railBasicBlocks_insertAt, Function.update_apply] at hb
      by_cases hx : x = a
      · rw [if_pos hx] at hb
        obtain rfl := Option.some.inj hb
        rw [← hx] at hnext
        exact he.behind x next hnext hfirst
      · rw [if_neg hx] at hb
        exact he.behind x b hb hfirst
  · have hrename : c.renameSegment a next bb = c := if_neg hseg
    rw [hrename]
    exact he

theorem Explored.add (he : Explored h elf c O) {a : DWord} (hadd : BlockAdded h r elf a c c')
    (hnew : c.railBasicBlocks (asInt a) = none) :
    Explored h elf c' (O ∪ translatedInOrder r elf c c') := by
  -- the address is new, so no record is overwritten
  have hold (x : DWord) (b : RailBasicBlock) (hb : c.railBasicBlocks x = some b) :
      c'.railBasicBlocks x = some b := by
    refine hadd.old x b ?_ hb
    rintro rfl
    rw [hnew] at hb
    cases hb
  refine ⟨fun hnil => he.memory (List.prefix_nil.mp (hnil ▸ hadd.memory)),
    fun x => by rw [hadd.exits]; exact he.exits x, fun x b hb htype => ?_, fun x hx => ?_,
    fun x b hb hfirst => ?_⟩
  · rcases hb₀ : c.railBasicBlocks x with _ | b₀
    · exact hadd.syscall x b hb₀ hb htype
    · obtain rfl := Option.some.inj ((hold x b₀ hb₀).symm.trans hb)
      exact he.syscall x b₀ hb₀ htype
  · rcases hx with hx | hx
    · obtain ⟨b, hb, hfirst⟩ := he.translated x hx
      exact ⟨b, hold x b hb, hfirst⟩
    · exact hx.2.1
  · rcases hb₀ : c.railBasicBlocks x with _ | b₀
    · -- a new block
      have hnot : ¬ c.Translated x := by
        rintro ⟨b', hb', -⟩
        rw [hb₀] at hb'
        cases hb'
      have hnotO : x ∉ O := fun hx => hnot (he.translated x hx)
      rcases hadd.start x b hb₀ hb with ⟨hpre, hstart⟩ | ⟨hpre, w, hw, hop⟩
      · obtain ⟨w, hw⟩ := Option.ne_none_iff_exists'.mp (mt List.getLast?_eq_none_iff.mp he.memory)
        refine ⟨w, (standsBehind_here hw hstart).mono hadd.memory, fun _ => ?_⟩
        constructor
        · rintro rfl
          exact .inr ⟨hnot, ⟨b, hb, hfirst⟩, hw, hpre⟩
        · rintro (hx | hx)
          · exact absurd hx hnotO
          · exact Option.some.inj (hw.symm.trans hx.2.2.1)
      · refine ⟨w, hw, fun hsys => ?_⟩
        constructor
        · rintro rfl
          exact absurd hsys hop
        · rintro (hx | hx)
          · exact absurd hx hnotO
          · exact absurd (hx.2.2.2.symm.trans hpre) (by decide)
    · obtain rfl := Option.some.inj ((hold x b₀ hb₀).symm.trans hb)
      obtain ⟨w, hw, hiff⟩ := he.behind x b₀ hb₀ hfirst
      refine ⟨w, hw.mono hadd.memory, fun hsys => (hiff hsys).trans ?_⟩
      constructor
      · exact .inl
      · rintro (hx | hx)
        · exact hx
        · exact absurd ⟨b₀, hb₀, hfirst⟩ hx.1

end Step

/-! ### Runs -/

section Run

variable {h : Host} {r : Rail} {cb : Callbacks} {io : IoRequest → DWord} {elf : ElfReader}
  {d : Dispatcher} {O : Set DWord}

theorem Explored.allocateNext (hlink : r.traceLinkingEnabled = false)
    (he : Explored h elf d.cache O) {pc : BitVec 32} (hpc : d.elfReader = elf.setProgramCounter pc)
    {a : DWord} {next : RailBasicBlock}
    (hnext : (allocateNext h r d a).cache.railBasicBlocks a = some next) :
    (∃ pc, (allocateNext h r d a).elfReader = elf.setProgramCounter pc) ∧
      Explored h elf (allocateNext h r d a).cache
        (O ∪ translatedInOrder r elf d.cache (allocateNext h r d a).cache) := by
  rcases hreg : d.cache.railBasicBlocks a with _ | b
  · have halloc : RailTranslator.allocateNext h r d a =
        { d with
          elfReader := (allocateBB h r d.elfReader d.cache a).1
          cache := (allocateBB h r d.elfReader d.cache a).2 } := by
      rw [RailTranslator.allocateNext, hreg, hlink]
      rfl
    obtain ⟨⟨pc', hpc'⟩, hadd⟩ := allocateBB_spec h r d.elfReader d.cache a
    rw [halloc] at hnext ⊢
    rw [hpc] at hadd hpc' hnext ⊢
    refine ⟨⟨pc', hpc'⟩, ?_⟩
    -- an address that is no `int` would be registered under another key
    by_cases ha : a = asInt a
    · exact he.add hadd.of_setProgramCounter (ha ▸ hreg)
    · rw [hadd.foreign a ha, hreg] at hnext
      cases hnext
  · rw [allocateNext_of_some hreg]
    have hnone : translatedInOrder r elf d.cache d.cache = ∅ :=
      Set.eq_empty_iff_forall_notMem.mpr fun x hx => hx.1 hx.2.1
    rw [hnone, Set.union_empty]
    exact ⟨⟨pc, hpc⟩, he⟩

theorem linkExit_self (hlink : r.traceLinkingEnabled = false) (c : CodeCache)
    (exitType : BasicBlockType) (a : DWord) (next : RailBasicBlock) (taken : DWord) :
    linkExit r c exitType a next taken = c := by
  rw [linkExit, hlink]
  exact if_neg fun hboth => absurd hboth.1 (by decide)

theorem linkExit_other {exitType : BasicBlockType} (hne : exitType ≠ .directBranch) (c : CodeCache)
    (a : DWord) (next : RailBasicBlock) (taken : DWord) :
    linkExit r c exitType a next taken = c :=
  if_neg fun hboth => hne hboth.2

/-- A call of `stub` that returns. -/
theorem Explored.stub (hlink : r.traceLinkingEnabled = false) (he : Explored h elf d.cache O)
    {pc : BitVec 32} (hpc : d.elfReader = elf.setProgramCounter pc) {f : TrapFrame}
    {taken a : DWord} {res : Resume} (hstub : stub h r cb io d f taken a = .returned res) :
    (∃ pc, res.dispatcher.elfReader = elf.setProgramCounter pc) ∧
      Explored h elf res.dispatcher.cache
        (O ∪ translatedInOrder r elf d.cache res.dispatcher.cache) := by
  obtain ⟨s, d', next, hret⟩ := stub_cases hstub
  obtain ⟨pc₀, hpc₀⟩ := hret.elfReader
  rw [hpc, ElfReader.setProgramCounter_setProgramCounter] at hpc₀
  have he' : Explored h elf d'.cache O := by
    rw [hret.cache]
    exact he.lookup _
  obtain ⟨⟨pc', hpc'⟩, he₂⟩ := he'.allocateNext hlink hpc₀ hret.registered
  have hcache := hret.cache_res
  rw [linkExit_self hlink] at hcache
  have hnext := hret.registered
  have hreader := hret.elfReader_res
  generalize RailTranslator.allocateNext h r d' s.nextBlockAddr = d₂ at *
  have horder : translatedInOrder r elf d.cache res.dispatcher.cache =
      translatedInOrder r elf d'.cache d₂.cache := by
    ext x
    have hbefore : d'.cache.Translated x ↔ d.cache.Translated x := by
      rw [hret.cache]
      exact translated_lookup _ _ x
    have hafter : res.dispatcher.cache.Translated x ↔ d₂.cache.Translated x := by
      rw [hcache]
      exact translated_renameSegment hnext _ x
    have hmem : d'.cache.memory = d.cache.memory := by
      rw [hret.cache]
      exact memory_lookup _ _
    simp only [translatedInOrder, Set.mem_ofPred_eq, hbefore, hafter, hmem]
  refine ⟨⟨pc', hreader.trans hpc'⟩, ?_⟩
  have he₃ := he₂.renameSegment hnext s.current.basicBlockAddress
  rw [horder, hcache]
  exact ⟨he₃.memory, he₃.exits, he₃.syscall, he₃.translated, he₃.behind⟩

theorem init_block (hlink : r.traceLinkingEnabled = false) (cb : Callbacks) (d : Dispatcher)
    (f : TrapFrame) :
    (init h r cb d f).dispatcher.cache =
        ((allocateBB h r d.elfReader d.cache d.elfReader.pc).2.lookup d.elfReader.pc).2 ∧
      (init h r cb d f).dispatcher.elfReader =
        (allocateBB h r d.elfReader d.cache d.elfReader.pc).1 := by
  simp only [init, hlink, Bool.false_eq_true, if_false]
  exact ⟨(SameCache.callPre h r cb true _ _ _).cache, (SameCache.callPre h r cb true _ _ _).elfReader⟩

/-- What holds in every reachable state. -/
theorem BlockRun.explored (hlink : r.traceLinkingEnabled = false) (hrun : BlockRun h r cb elf d O) :
    (∃ pc, d.elfReader = elf.setProgramCounter pc) ∧ Explored h elf d.cache O := by
  induction hrun with
  | start cfgGenerator f =>
      obtain ⟨hcache, hreader⟩ := init_block (h := h) hlink cb (rootDispatcher h elf cfgGenerator) f
      obtain ⟨⟨pc, hpc⟩, hadd⟩ := allocateBB_spec h r (rootDispatcher h elf cfgGenerator).elfReader
        (rootDispatcher h elf cfgGenerator).cache (rootDispatcher h elf cfgGenerator).elfReader.pc
      have hroot : Explored h elf (rootDispatcher h elf cfgGenerator).cache ∅ :=
        { memory := List.cons_ne_nil _ _
          exits := fun _ => rfl
          syscall := fun x b hb => by cases hb
          translated := fun x hx => hx.elim
          behind := fun x b hb => by cases hb }
      have he := (hroot.add hadd.of_setProgramCounter rfl).lookup
        (rootDispatcher h elf cfgGenerator).elfReader.pc
      have horder : translatedInOrder r elf (rootDispatcher h elf cfgGenerator).cache
          (init h r cb (rootDispatcher h elf cfgGenerator) f).dispatcher.cache =
            translatedInOrder r elf (rootDispatcher h elf cfgGenerator).cache
              (allocateBB h r (rootDispatcher h elf cfgGenerator).elfReader
                (rootDispatcher h elf cfgGenerator).cache
                  (rootDispatcher h elf cfgGenerator).elfReader.pc).2 := by
        ext x
        simp only [translatedInOrder, Set.mem_ofPred_eq, hcache, translated_lookup]
      rw [horder, hcache]
      rw [Set.empty_union] at he
      exact ⟨⟨pc, hreader.trans hpc⟩, he⟩
  | call hrun hstub ih =>
      obtain ⟨⟨pc, hpc⟩, he⟩ := ih
      exact he.stub hlink hpc hstub
  | instrument hrun f ih =>
      obtain ⟨⟨pc, hpc⟩, he⟩ := ih
      obtain ⟨hcache, hreader⟩ := SameCache.instrument h r cb _ f
      rw [hcache, hreader]
      exact ⟨⟨pc, hpc⟩, he.lookup _⟩

/-! ### The call that is not emulated -/

def Emulated (number : DWord) : Prop :=
  number ∈ [SystemCall.read, SystemCall.write, SystemCall.readv, SystemCall.writev, SystemCall.exit,
    SystemCall.exitGroup]

instance (number : DWord) : Decidable (Emulated number) :=
  inferInstanceAs (Decidable (number ∈ _))

theorem handleSyscalls_notEcalled_iff {f : TrapFrame} :
    handleSyscalls io f = .notEcalled ↔ ¬ Emulated (f 17) := by
  rw [Emulated, handleSyscalls]
  simp only [List.mem_cons, List.not_mem_nil, or_false]
  split_ifs with hread hwrite hexit
  · exact iff_of_false not_false (not_not.mpr (by tauto))
  · exact iff_of_false not_false (not_not.mpr (by tauto))
  · exact iff_of_false not_false (not_not.mpr (by tauto))
  · exact iff_of_true rfl (by tauto)

def syscallFrame (r : Rail) (cb : Callbacks) (inst : RvInst) (f : TrapFrame) : TrapFrame :=
  ((r.instructionRoutinesTypedPre .systemType).filter (·.coversInt inst.address)).foldl
    (fun f routine => cb.inst routine.func inst f) f

theorem frame_callInst (p : InstRoutine → Bool) (inst : RvInst) (d : Dispatcher) (f : TrapFrame)
    (routines : List InstRoutine) :
    (Dispatcher.callInst cb p inst d f routines).2 =
      (routines.filter p).foldl (fun f routine => cb.inst routine.func inst f) f := by
  rw [Dispatcher.callInst]
  generalize routines.filter p = rs
  induction rs generalizing d f with
  | nil => rfl
  | cons routine rs ih =>
      rw [List.foldl_cons, List.foldl_cons]
      exact ih _ _

theorem successor_notEcalled {d₀ : Dispatcher} {f : TrapFrame} {current : RailBasicBlock}
    {inst : RvInst} {taken : DWord} {s : Successor}
    (hnot : handleSyscalls io (syscallFrame r cb inst f) = .notEcalled)
    (hs : successor r cb io d₀ f current ⟨inst, .syscall⟩ taken = .returned s) :
    s.nextBlockAddr = (inst.address + 4).signExtend 64 ∧ s.shouldNotExecLast = false := by
  rw [syscallFrame, ← frame_callInst _ _ d₀] at hnot
  simp only [successor, hnot] at hs
  cases hs
  exact ⟨rfl, rfl⟩

/-- The last instruction is still to be executed if it is a system instruction
that is not emulated. -/
theorem shouldNotExecLast_iff {d₀ : Dispatcher} {f : TrapFrame} {current : RailBasicBlock}
    {inst : RvInst} {type : BasicBlockType} {taken : DWord} {s : Successor}
    (hs : successor r cb io d₀ f current ⟨inst, type⟩ taken = .returned s) :
    s.shouldNotExecLast = false ↔
      type = .syscall ∧ ¬ Emulated (syscallFrame r cb inst f 17) := by
  by_cases htype : type = .syscall
  · subst htype
    rw [← @handleSyscalls_notEcalled_iff io]
    refine ⟨fun hexec => ⟨rfl, ?_⟩, fun hand => (successor_notEcalled hand.2 hs).2⟩
    rw [syscallFrame, ← frame_callInst _ _ d₀]
    simp only [successor] at hs
    split at hs
    · cases hs
    · cases hs
      cases hexec
    · assumption
  · refine iff_of_false (fun hexec => ?_) fun hand => htype hand.1
    cases type with
    | syscall => exact htype rfl
    | directBranch =>
        simp only [successor] at hs
        split_ifs at hs
        all_goals
          cases hs
          cases hexec
    | indirectBranch | segmented | functionCall | functionReturn =>
        simp only [successor] at hs
        cases hs
        cases hexec

def Dispatcher.behindCurrent (d : Dispatcher) : DWord :=
  (d.current.lastAddr.setWidth 32 + 4).signExtend 64

theorem Explored.current (he : Explored h elf d.cache O) (hsys : d.current.type = .syscall) :
    SystemRecord elf d.current := by
  rcases hb : d.cache.railBasicBlocks (d.cache.currentBB.setWidth 64) with _ | b
  · rw [Dispatcher.current, CodeCache.lookup, hb] at hsys
    cases hsys
  · have hcur : d.current = b := by rw [Dispatcher.current, CodeCache.lookup_of_some hb]
    rw [hcur] at hsys ⊢
    exact he.syscall _ _ hb hsys

theorem Explored.left (he : Explored h elf d.cache O) (a : DWord) :
    d.left h a = ⟨{ decodeInstruction h.junkInst d.current.terminalInst with
      address := d.current.lastAddr.setWidth 32 }, d.current.type⟩ := by
  have hnone : ¬ (a ≠ 0 ∧ (d.lookedUp.cache.exits a).isSome) := by
    rintro ⟨-, hsome⟩
    rw [Dispatcher.lookedUp, exits_lookup, he.exits] at hsome
    cases hsome
  rw [Dispatcher.left, lastInst, if_neg hnone]

theorem StandsBehind.code {c : CodeCache} {b : RailBasicBlock} {w : Word}
    (hw : StandsBehind h c b w) (hfits : c.Fits) : c.code h (b.startLocationInCache - 4) = some w := by
  obtain ⟨k, hk, hword⟩ := hw
  have hlt := (List.getElem?_eq_some_iff.mp hword).1
  rw [CodeCache.Fits, cacheSize] at hfits
  have hbefore : b.startLocationInCache - 4 = wordAddr h.base k := by
    rw [hk, ← wordAddr_add_four]
    simp
  rw [CodeCache.code, hbefore, image_wordAddr (by omega), hword]

/-- After any run without traces, whenever `stub` handles a block that a system
instruction has ended and the call is not emulated, it returns to the word in
front of the successor's block. That word is the system instruction of the
block if and only if the successor has been translated in order, now or
before. -/
theorem syscall_executed_iff (hlink : r.traceLinkingEnabled = false)
    (hrun : BlockRun h r cb elf d O) {f : TrapFrame} {taken a : DWord} {res : Resume}
    (hsys : d.current.type = .syscall)
    (hnot : handleSyscalls io (syscallFrame r cb (d.left h a).inst f) = .notEcalled)
    (hstub : stub h r cb io d f taken a = .returned res) (hfits : res.dispatcher.cache.Fits) :
    ∃ next, res.dispatcher.cache.railBasicBlocks d.behindCurrent = some next ∧
      res.returnVal + 4 = next.startLocationInCache ∧
      (res.dispatcher.cache.code h res.returnVal = some d.current.terminalInst ↔
        d.behindCurrent ∈ O ∨
          (¬ d.cache.Translated d.behindCurrent ∧
            d.cache.memory.getLast? = some d.current.terminalInst ∧
            preAt r elf d.behindCurrent = false)) := by
  obtain ⟨⟨pc, hpc⟩, he⟩ := hrun.explored hlink
  obtain ⟨-, he'⟩ := he.stub hlink hpc hstub
  obtain ⟨hterm, hop⟩ := he.current hsys
  obtain ⟨s, d', next, hret⟩ := stub_cases hstub
  obtain ⟨d₀, hsucc⟩ := hret.successor
  rw [he.left, hsys] at hsucc
  rw [he.left] at hnot
  obtain ⟨haddr, hexec⟩ := successor_notEcalled hnot hsucc
  change s.nextBlockAddr = d.behindCurrent at haddr
  -- the record of the successor, which may have been renamed
  obtain ⟨next', hnext, hfirst, hstart⟩ : ∃ next',
      res.dispatcher.cache.railBasicBlocks d.behindCurrent = some next' ∧
        next'.firstAddr ≠ 0 ∧ next'.startLocationInCache = next.startLocationInCache := by
    obtain ⟨next', hnext, hfirst, hstart⟩ :=
      record_renameSegment hret.registered s.current.basicBlockAddress
    rw [← haddr, hret.cache_res, linkExit_self hlink]
    exact ⟨next', hnext, hfirst ▸ hret.firstAddr, hstart⟩
  obtain ⟨w, hstands, hiff⟩ := he'.behind _ _ hnext hfirst
  have hreturn : res.returnVal = next'.startLocationInCache - 4 := by
    rw [hret.returnVal, hexec, ← hstart]
    rfl
  have hbefore : elf.wordBefore d.behindCurrent = d.current.terminalInst := by
    have hlow : d.behindCurrent.setWidth 32 = d.current.lastAddr.setWidth 32 + 4 := low_ofLow _
    rw [ElfReader.wordBefore, hlow, hterm]
    congr 1
    bv_omega
  refine ⟨next', hnext, ?_, ?_⟩
  · rw [hreturn, BitVec.sub_add_cancel]
  · rw [hreturn, hstands.code hfits, Option.some_inj, ← hbefore, hiff (hbefore ▸ hop)]
    refine or_congr_right ⟨fun hx => ⟨hx.1, hx.2.2⟩, fun hx => ⟨hx.1, ?_, hx.2⟩⟩
    exact ⟨next', hnext, hfirst⟩

/-! Two guests without routines: one whose system call is followed by the
block behind it, and one that has reached that block before. -/

/-- `ecall; jal x0, 0`, and a word the translator does not read. -/
def ecallText : ElfReader := .ofWords 0x10000 [0x00000073, 0x0000006f, 0x00000013]

/-- `jal x0, 8; ecall; jal x0, -4`, and a word the translator does not read. -/
def aroundText : ElfReader := .ofWords 0x10000 [0x0080006f, 0x00000073, 0xffdff06f, 0x00000013]

def begunWith (elf : ElfReader) : Dispatcher :=
  (init requestedHost (Rail.plain false) idleCallbacks (rootDispatcher requestedHost elf none)
    fun _ => 0).dispatcher

def takenFrom (d : Dispatcher) : StubOutcome Resume :=
  stub requestedHost (Rail.plain false) idleCallbacks (fun _ => 0) d (fun _ => 0) 1 0

theorem ecallText_executed : ∃ res, takenFrom (begunWith ecallText) = .returned res ∧
    res.dispatcher.cache.code requestedHost res.returnVal = some 0x00000073 := by
  have hrun : ((takenFrom (begunWith ecallText)).toOption.map
      fun res => res.dispatcher.cache.memory.length) = some 19 := by decide +kernel
  obtain ⟨res, hres, hlen⟩ := Option.map_eq_some_iff.mp hrun
  have hstub := StubOutcome.eq_returned hres
  have hfits : res.dispatcher.cache.Fits := by
    rw [CodeCache.Fits, hlen]
    decide
  have hbegun : BlockRun requestedHost (Rail.plain false) idleCallbacks ecallText
      (begunWith ecallText) _ := .start none fun _ => 0
  obtain ⟨next, -, -, hiff⟩ := syscall_executed_iff rfl hbegun
    (show (begunWith ecallText).current.type = .syscall by decide +kernel) rfl hstub hfits
  have hterm : (begunWith ecallText).current.terminalInst = 0x00000073 := by decide +kernel
  rw [hterm] at hiff
  refine ⟨res, hstub, hiff.mpr (.inr ⟨?_, by decide +kernel, by decide +kernel⟩)⟩
  rintro ⟨b, hb, -⟩
  have hnone : (begunWith ecallText).cache.railBasicBlocks (begunWith ecallText).behindCurrent =
      none := by decide +kernel
  rw [hnone] at hb
  cases hb

/-- The block behind the system call has been translated before, so `stub`
returns to the exit of another block. -/
theorem aroundText_executes_exit : ∃ d O res,
    BlockRun requestedHost (Rail.plain false) idleCallbacks aroundText d O ∧
      d.current.type = .syscall ∧ d.current.terminalInst = 0x00000073 ∧
      handleSyscalls (fun _ => 0) (fun _ => 0) = .notEcalled ∧ takenFrom d = .returned res ∧
      res.dispatcher.cache.code requestedHost res.returnVal = some jalrInst := by
  have hrun : ((takenFrom (begunWith aroundText)).toOption.bind fun res₁ =>
      (takenFrom res₁.dispatcher).toOption.bind fun res₂ =>
        (takenFrom res₂.dispatcher).toOption.map fun res =>
          (res₂.dispatcher.current.type, res₂.dispatcher.current.terminalInst,
            res.dispatcher.cache.code requestedHost res.returnVal)) =
      some (.syscall, 0x00000073, some jalrInst) := by decide +kernel
  obtain ⟨res₁, h₁, hrun⟩ := Option.bind_eq_some_iff.mp hrun
  obtain ⟨res₂, h₂, hrun⟩ := Option.bind_eq_some_iff.mp hrun
  obtain ⟨res, h₃, hfacts⟩ := Option.map_eq_some_iff.mp hrun
  obtain ⟨htype, hfacts⟩ := Prod.mk.inj hfacts
  obtain ⟨hterm, hcode⟩ := Prod.mk.inj hfacts
  have hbegun : BlockRun requestedHost (Rail.plain false) idleCallbacks aroundText
      (begunWith aroundText) _ := .start none fun _ => 0
  exact ⟨_, _, res, (hbegun.call (StubOutcome.eq_returned h₁)).call (StubOutcome.eq_returned h₂),
    htype, hterm, rfl, StubOutcome.eq_returned h₃, hcode⟩

end Run

end RailTranslator
