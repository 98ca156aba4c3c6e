import RailTranslator.DirectExits

/-!
The words of the blocks, over whole runs, in the mode without traces.

`allocateBB` appends a block to the cache and nothing overwrites it, so that
in every reachable state the words of every registered block stand where its
record says. What these words are depends on the guest's text and on the
routines that end blocks, but not on what has been translated before:
`BlockWalk.unique` and `translation_unique`.

Instructions with typed PRE routines are left out here. Their blocks begin
where another one has been cut, so what is translated there does depend on
what has been before.
-/

namespace RailTranslator

open Rv64 Transition

/-! ### A block that stands in the cache -/

/-- The block is the translation of the guest's block at `x`. -/
structure Stands (h : Host) (r : Rail) (elf : ElfReader) (c : CodeCache) (x : DWord)
    (b : RailBasicBlock) (ps : List Piece) (q : BitVec 32) (e : BlockEnd) : Prop where
  walk : BlockWalk h r elf (x.setWidth 32) ps q e
  ended : e = .stopped ∨ e = .segmented
  describes : Describes elf b (x.setWidth 32) q (e.type (elf.fetch q))
  words : c.Holds h b (walkedWords ps)

def CodeCache.StandsAt (h : Host) (r : Rail) (elf : ElfReader) (c : CodeCache) (x : DWord)
    (b : RailBasicBlock) : Prop :=
  b = .empty ∨ ∃ ps q e, Stands h r elf c x b ps q e

def Standing (h : Host) (r : Rail) (elf : ElfReader) (c : CodeCache) : Prop :=
  ∀ x b, c.railBasicBlocks x = some b → c.StandsAt h r elf x b

section Stands

variable {h : Host} {r : Rail} {elf : ElfReader} {c c' : CodeCache} {x : DWord}
  {b : RailBasicBlock} {ps : List Piece} {q : BitVec 32} {e : BlockEnd}

theorem Stands.mono (hb : Stands h r elf c x b ps q e) (hm : c.memory <+: c'.memory) :
    Stands h r elf c' x b ps q e :=
  ⟨hb.walk, hb.ended, hb.describes, hb.words.mono hm⟩

theorem CodeCache.StandsAt.mono (hb : c.StandsAt h r elf x b) (hm : c.memory <+: c'.memory) :
    c'.StandsAt h r elf x b := by
  rcases hb with hempty | ⟨ps, q, e, hst⟩
  · exact .inl hempty
  · exact .inr ⟨ps, q, e, hst.mono hm⟩

theorem Stands.renamed (hb : Stands h r elf c x b ps q e) (bb : DWord) :
    Stands h r elf c x { b with basicBlockAddress := bb } ps q e := by
  obtain ⟨front, hplace, hmem⟩ := hb.words
  exact ⟨hb.walk, hb.ended, ⟨hb.describes.firstAddr, hb.describes.lastAddr, hb.describes.startInst,
    hb.describes.terminalInst, hb.describes.type⟩, front,
    ⟨hplace.startLocationInCache, hplace.endLocationInCache⟩, hmem⟩

theorem Stands.not_endless (hb : Stands h r elf c x b ps q e) : e ≠ .endless := by
  rcases hb.ended with rfl | rfl <;> exact BlockEnd.noConfusion

theorem Stands.even (hb : Stands h r elf c x b ps q e) :
    b.startLocationInCache.getLsbD 0 = false := by
  obtain ⟨front, hplace, -⟩ := hb.words
  rw [hplace.startLocationInCache]
  exact getLsbD_zero_of_mod (toNat_wordAddr_base h _)

theorem Standing.of_records (hs : Standing h r elf c) (hm : c.memory <+: c'.memory)
    (hrec : ∀ x b, c'.railBasicBlocks x = some b → c.railBasicBlocks x = some b ∨ b = .empty) :
    Standing h r elf c' := by
  intro x b hb
  rcases hrec x b hb with hold | hempty
  · exact (hs x b hold).mono hm
  · exact .inl hempty

theorem Standing.lookup (hs : Standing h r elf c) (a : DWord) :
    Standing h r elf (c.lookup a).2 :=
  hs.of_records ((memory_lookup c a) ▸ List.prefix_rfl) fun _ _ hb => lookup_record hb

theorem Standing.setCurrentBB (hs : Standing h r elf c) (a : DWord) :
    Standing h r elf (c.setCurrentBB a) :=
  hs.of_records List.prefix_rfl fun _ _ hb => .inl hb

theorem Standing.renameSegment (hs : Standing h r elf c) {a : DWord} {next : RailBasicBlock}
    (hnext : c.railBasicBlocks a = some next) (bb : DWord) :
    Standing h r elf (c.renameSegment a next bb) := by
  rw [CodeCache.renameSegment]
  split
  · rename_i hseg
    intro x b hb
    rcases insertAt_cases hb with ⟨rfl, rfl⟩ | ⟨-, hb⟩
    · rcases hs x next hnext with rfl | ⟨ps, q, e, hst⟩
      · cases hseg
      · exact .inr ⟨ps, q, e, (hst.renamed bb).mono List.prefix_rfl⟩
    · exact (hs x b hb).mono List.prefix_rfl
  · exact hs

/-! ### The allocator -/

def Rail.NoTypedPre (r : Rail) : Prop := ∀ pc w, preInstrumented r pc w = false

theorem Standing.allocateBB (hr : r.NoTypedPre) (hs : Standing h r elf c) (pc : BitVec 32)
    (a : DWord) :
    Standing h r elf (RailTranslator.allocateBB h r (elf.setProgramCounter pc) c a).2 := by
  obtain ⟨ps, q, e, c₁, hwalk, -, hmain, hpre, -⟩ :=
    allocateBB_walk h r (elf.setProgramCounter pc) c a
  have hnone (he : e = .pre) : False := by
    have hpre' := (hwalk.of_pre he).2
    rw [hr] at hpre'
    cases hpre'
  have hold : Standing h r elf c₁ := by
    have hkeep (hrec : ∀ x b, c₁.railBasicBlocks x = some b →
        c.railBasicBlocks x = some b ∨ b = .empty) : Standing h r elf c₁ :=
      hs.of_records hmain.memory hrec
    cases hmain with
    | @closed _ b he hdesc hplace hbb =>
        intro x b' hb'
        rcases insertAt_cases hb' with ⟨rfl, rfl⟩ | ⟨-, hb'⟩
        · have hkey : ((a.setWidth 32).signExtend 64).setWidth 32 = a.setWidth 32 := low_ofLow _
          refine .inr ⟨ps, q, e, ?_, he, ?_, c.memory, hplace, ?_⟩
          · rw [hkey]
            exact hwalk.of_setProgramCounter
          · rw [hkey]
            exact hdesc.of_setProgramCounter
          · show c.memory ++ walkedWords ps <+: c.memory ++ (walkedWords ps ++ _)
            rw [← List.append_assoc]
            exact List.prefix_append _ _
        · exact (hs x b' hb').mono (List.prefix_append _ _)
    | cut => exact (hnone rfl).elim
    | left => exact hkeep fun _ _ hb => .inl hb
  generalize (RailTranslator.allocateBB h r (elf.setProgramCounter pc) c a).2 = c' at hpre ⊢
  cases hpre with
  | none => exact hold
  | added => exact (hnone rfl).elim

end Stands

/-! ### Over runs -/

section Run

variable {h : Host} {r : Rail} {cb : Callbacks} {io : IoRequest → DWord} {elf : ElfReader}
  {cfgGenerator : Option CfgGenerator} {ok : Dispatcher → Event → Prop}
  {l : List (Dispatcher × Event)} {d : Dispatcher} {f : TrapFrame} {taken a : DWord}
  {res : Resume} {s : Successor} {next : RailBasicBlock}

theorem StubStep.cache_of_noTraces (hlink : r.traceLinkingEnabled = false)
    (hst : StubStep h r cb io d f taken a res s next) :
    res.dispatcher.cache = ((allocateNext h r (callPost r cb s (d.left h a).inst).dispatcher
      s.nextBlockAddr).cache.renameSegment s.nextBlockAddr next
        s.current.basicBlockAddress).setCurrentBB next.firstAddr := by
  rw [hst.cache]
  simp only [beforePre]
  rw [linkExit_self hlink]

theorem Standing.stub (hlink : r.traceLinkingEnabled = false) (hr : r.NoTypedPre)
    (hs : Standing h r elf d.cache) (hd : d.Reads elf)
    (hst : StubStep h r cb io d f taken a res s next) :
    Standing h r elf res.dispatcher.cache := by
  rw [hst.cache_of_noTraces hlink]
  refine (Standing.renameSegment ?_ hst.registered _).setCurrentBB _
  rw [allocateNext_cache hst.leave]
  split
  · obtain ⟨pc, hpc⟩ := hd.readerBehind (h := h) a
    rw [hpc, allocate, hlink]
    exact (hs.lookup _).allocateBB hr pc _
  · exact hs.lookup _

/-- In every reachable state every registered block stands in the cache. -/
theorem standing_run (hlink : r.traceLinkingEnabled = false) (hr : r.NoTypedPre)
    (hrun : Run (dispatch h r cb elf cfgGenerator) ok l d) :
    d.Reads elf ∧ Standing h r elf d.cache := by
  refine hrun.invariant (I := fun d => d.Reads elf ∧ Standing h r elf d.cache) ?_ ?_
  · rintro d ⟨f, rfl⟩
    refine ⟨reads_init f, ?_⟩
    obtain ⟨next, -, hinit⟩ := @init_dispatcher h r cb elf f cfgGenerator
    rw [hinit]
    refine Standing.lookup ?_ _
    rw [allocateEntry, allocate, hlink]
    refine Standing.allocateBB hr (fun x b hb => ?_) (elf.entry.setWidth 32) _
    cases hb
  · rintro d e d' ⟨hd, hs⟩ - hstep
    refine ⟨hd.step hstep, ?_⟩
    cases e with
    | instrument f =>
        obtain rfl := Option.some.inj hstep
        rw [instrument_dispatcher]
        exact hs.lookup _
    | call io f taken a =>
        obtain ⟨res, hstub, rfl⟩ := Option.map_eq_some_iff.mp hstep
        obtain ⟨s, next, hst⟩ := stub_step (StubOutcome.eq_returned hstub)
        exact hs.stub hlink hr hd hst

/-! ### The order of translation -/

/-- The two records are of one block: they differ in the place in the cache
only, and in what a run has found out about the block. -/
structure SameBlock (b b' : RailBasicBlock) : Prop where
  firstAddr : b.firstAddr = b'.firstAddr
  lastAddr : b.lastAddr = b'.lastAddr
  startInst : b.startInst = b'.startInst
  terminalInst : b.terminalInst = b'.terminalInst
  type : b.type = b'.type

theorem Describes.sameBlock {b b' : RailBasicBlock} {first last : BitVec 32}
    {type : BasicBlockType} (hb : Describes elf b first last type)
    (hb' : Describes elf b' first last type) : SameBlock b b' :=
  ⟨hb.firstAddr.trans hb'.firstAddr.symm, hb.lastAddr.trans hb'.lastAddr.symm,
    hb.startInst.trans hb'.startInst.symm, hb.terminalInst.trans hb'.terminalInst.symm,
    hb.type.trans hb'.type.symm⟩

/-- What a guest address is translated to does not depend on what has been
executed before, nor on the routines' effects: in any two reachable states,
whatever blocks were translated in which order on the way to them, the blocks
of one address consist of the same words and describe the same instructions. -/
theorem translation_unique {cb' : Callbacks} {cfgGenerator' : Option CfgGenerator}
    {ok' : Dispatcher → Event → Prop} {l' : List (Dispatcher × Event)} {d' : Dispatcher}
    {x : DWord} {b b' : RailBasicBlock} (hlink : r.traceLinkingEnabled = false)
    (hr : r.NoTypedPre) (hrun : Run (dispatch h r cb elf cfgGenerator) ok l d)
    (hrun' : Run (dispatch h r cb' elf cfgGenerator') ok' l' d')
    (hb : d.cache.railBasicBlocks x = some b) (hne : b ≠ .empty)
    (hb' : d'.cache.railBasicBlocks x = some b') (hne' : b' ≠ .empty) :
    SameBlock b b' ∧ ∃ ws, d.cache.Holds h b ws ∧ d'.cache.Holds h b' ws := by
  obtain ⟨ps, q, e, hst⟩ := ((standing_run hlink hr hrun).2 x b hb).resolve_left hne
  obtain ⟨ps', q', e', hst'⟩ := ((standing_run hlink hr hrun').2 x b' hb').resolve_left hne'
  obtain ⟨rfl, rfl, rfl⟩ := hst.walk.unique hst'.walk hst.not_endless hst'.not_endless
  exact ⟨hst.describes.sameBlock hst'.describes, walkedWords ps, hst.words, hst'.words⟩

end Run

/-- `beq x0, x0, 8; jal x0, 4; jal x0, 0`, and a word behind it. -/
def detourText : ElfReader := .ofWords 0x10000 [0x00000463, 0x0040006f, 0x0000006f, 0x00000013]

/-- The block at 0x10008, reached through the branch and past it, stands in two
places. -/
theorem detourText_unique : ∃ (d d' : Dispatcher) (b b' : RailBasicBlock),
    b.startLocationInCache ≠ b'.startLocationInCache ∧ SameBlock b b' ∧
      ∃ ws, d.cache.Holds requestedHost b ws ∧ d'.cache.Holds requestedHost b' ws := by
  have hplain : (Rail.plain false).NoTypedPre := fun pc w =>
    (Rail.uninstrumented_plain false).preInstrumented pc w
  have hruns (es : List Event) (a : DWord) (hes : ((dispatch requestedHost (.plain false)
      idleCallbacks detourText none).replay (started (.plain false) detourText) es).bind (fun end_ =>
        (end_.2.cache.railBasicBlocks 0x10008).map (·.startLocationInCache)) = some a) :
      ∃ l d b, Run (dispatch requestedHost (.plain false) idleCallbacks detourText none) Any l d ∧
        d.cache.railBasicBlocks 0x10008 = some b ∧ b.startLocationInCache = a := by
    obtain ⟨⟨l, d⟩, hreplay, hfacts⟩ := Option.bind_eq_some_iff.mp hes
    obtain ⟨b, hb, ha⟩ := Option.map_eq_some_iff.mp hfacts
    exact ⟨_, d, b, (run_started _ _ Any).replay hreplay, hb, ha⟩
  have hne {b : RailBasicBlock} {a : DWord} (ha : b.startLocationInCache = a) (h0 : a ≠ 0) :
      b ≠ .empty := by
    rintro rfl
    exact h0 ha.symm
  obtain ⟨l, d, b, hrun, hb, ha⟩ := hruns [leaving 1 0] 0x01000040 (by decide +kernel)
  obtain ⟨l', d', b', hrun', hb', ha'⟩ :=
    hruns [leaving 0 0, leaving 1 0] 0x0100005c (by decide +kernel)
  refine ⟨d, d', b, b', by rw [ha, ha']; decide, ?_⟩
  exact translation_unique rfl hplain hrun hrun' hb (hne ha (by decide)) hb' (hne ha' (by decide))

end RailTranslator
