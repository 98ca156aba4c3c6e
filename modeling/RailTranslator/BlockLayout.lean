import RailTranslator.BlockWalk

/-!
What the allocation of a basic block adds to the cache, with any routines
registered.

`allocateBB` appends words and registers at most two blocks: the block it was
asked for, and the block of a pre-instrumented instruction that ends it. The
first one starts with the first word that is appended; a pre-instrumented
block starts behind the `restore_scratch` that is appended for the first one,
or behind the exit the first one has been closed with.
-/

namespace RailTranslator

open Rv64

def preAt (r : Rail) (elf : ElfReader) (x : DWord) : Bool :=
  preInstrumented r (x.setWidth 32) (elf.fetch (x.setWidth 32))

/-- A block starts behind the word `w`. -/
def StandsBehind (h : Host) (c : CodeCache) (b : RailBasicBlock) (w : Word) : Prop :=
  ∃ k, b.startLocationInCache = wordAddr h.base (k + 1) ∧ c.memory[k]? = some w

/-- The record of a block that a system instruction of the guest has ended. -/
structure SystemRecord (elf : ElfReader) (b : RailBasicBlock) : Prop where
  terminalInst : b.terminalInst = elf.fetch (b.lastAddr.setWidth 32)
  opcode : b.terminalInst.opcode = Opcode.system

/-- What `allocateBB` at address `a` does to the cache `c`. -/
structure BlockAdded (h : Host) (r : Rail) (elf : ElfReader) (a : DWord) (c c' : CodeCache) :
    Prop where
  memory : c.memory <+: c'.memory
  exits : c'.exits = c.exits
  foreign : ∀ x, x ≠ asInt x → c'.railBasicBlocks x = c.railBasicBlocks x
  old : ∀ x b, x ≠ asInt a → c.railBasicBlocks x = some b → c'.railBasicBlocks x = some b
  syscall : ∀ x b, c.railBasicBlocks x = none → c'.railBasicBlocks x = some b →
    b.type = .syscall → SystemRecord elf b
  start : ∀ x b, c.railBasicBlocks x = none → c'.railBasicBlocks x = some b →
    (preAt r elf x = false ∧ b.startLocationInCache = c.here h) ∨
      (preAt r elf x = true ∧ ∃ w, StandsBehind h c' b w ∧ w.opcode ≠ Opcode.system)

theorem BlockAdded.of_setProgramCounter {h : Host} {r : Rail} {elf : ElfReader} {pc : BitVec 32}
    {a : DWord} {c c' : CodeCache} (hadd : BlockAdded h r (elf.setProgramCounter pc) a c c') :
    BlockAdded h r elf a c c' where
  memory := hadd.memory
  exits := hadd.exits
  foreign := hadd.foreign
  old := hadd.old
  syscall x b hnone hb htype := by
    obtain ⟨hterm, hop⟩ := hadd.syscall x b hnone hb htype
    exact ⟨hterm, hop⟩
  start := hadd.start

theorem StandsBehind.mono {h : Host} {c c' : CodeCache} {b : RailBasicBlock} {w : Word}
    (hw : StandsBehind h c b w) (hm : c.memory <+: c'.memory) : StandsBehind h c' b w := by
  obtain ⟨k, hk, hword⟩ := hw
  obtain ⟨post, hpost⟩ := hm
  refine ⟨k, hk, ?_⟩
  rw [← hpost, List.getElem?_append_left (List.getElem?_eq_some_iff.mp hword).1]
  exact hword

theorem standsBehind_here {h : Host} {c : CodeCache} {b : RailBasicBlock} {w : Word}
    (hw : c.memory.getLast? = some w) (hb : b.startLocationInCache = c.here h) :
    StandsBehind h c b w := by
  rw [List.getLast?_eq_getElem?] at hw
  have hlt := (List.getElem?_eq_some_iff.mp hw).1
  refine ⟨c.memory.length - 1, ?_, hw⟩
  rw [hb, CodeCache.here, CodeCache.memoryIndex]
  congr 1
  omega

/-! ### The block of the walk -/

section Added

variable {h : Host} {r : Rail} {elf : ElfReader} {a x : DWord} {q : BitVec 32}
  {c c₁ c' : CodeCache} {ps : List Piece} {e : BlockEnd} {b : RailBasicBlock}

theorem Describes.systemRecord {first last : BitVec 32} {type : BasicBlockType}
    (hdesc : Describes elf b first last type) (hop : (elf.fetch last).opcode = Opcode.system) :
    SystemRecord elf b where
  terminalInst := by
    rw [hdesc.terminalInst, hdesc.lastAddr]
    exact congrArg elf.fetch (low_ofLow last).symm
  opcode := by
    rw [hdesc.terminalInst]
    exact hop

theorem opcode_of_exitType {w : Word} (hw : exitType w = .syscall) : w.opcode = Opcode.system := by
  unfold exitType at hw
  split_ifs at hw with hop
  exact hop

theorem MainAdded.blocks_of_ne (hadd : MainAdded h elf (a.setWidth 32) c ps q e c')
    (hx : x ≠ asInt a) : c'.railBasicBlocks x = c.railBasicBlocks x := by
  cases hadd with
  | closed => exact Function.update_of_ne hx _ _
  | cut => exact Function.update_of_ne hx _ _
  | left => rfl

/-- The block of the walk starts with the first word, at an instruction without
a typed PRE routine. -/
theorem MainAdded.record (hwalk : BlockWalk h r elf (a.setWidth 32) ps q e)
    (hadd : MainAdded h elf (a.setWidth 32) c ps q e c')
    (hnone : c.railBasicBlocks x = none) (hb : c'.railBasicBlocks x = some b) :
    preAt r elf x = false ∧ b.startLocationInCache = c.here h ∧
      (b.type = .syscall → SystemRecord elf b) := by
  have hpre (hne : ps ≠ []) : preAt r elf (asInt a) = false := by
    rw [preAt, setWidth_asInt]
    exact hwalk.not_pre_start hne
  cases hadd with
  | closed he hdesc hplace =>
      rcases insertAt_cases hb with ⟨rfl, rfl⟩ | ⟨-, hb'⟩
      · refine ⟨hpre (hwalk.ne_nil he), hplace.startLocationInCache, fun htype => ?_⟩
        rw [hdesc.type] at htype
        rcases he with rfl | rfl
        · exact hdesc.systemRecord (opcode_of_exitType htype)
        · cases htype
      · rw [CodeCache.railBasicBlocks_emit, CodeCache.railBasicBlocks_setCurrentBB, hnone] at hb'
        cases hb'
  | cut hne hdesc hplace =>
      rcases insertAt_cases hb with ⟨rfl, rfl⟩ | ⟨-, hb'⟩
      · refine ⟨hpre hne, hplace.startLocationInCache, fun htype => ?_⟩
        rw [hdesc.type] at htype
        cases htype
      · rw [CodeCache.railBasicBlocks_emit, CodeCache.railBasicBlocks_setCurrentBB, hnone] at hb'
        cases hb'
  | left =>
      rw [CodeCache.railBasicBlocks_emit, CodeCache.railBasicBlocks_setCurrentBB, hnone] at hb
      cases hb

/-! ### The block of a pre-instrumented instruction -/

/-- What stands in front of the block of a pre-instrumented instruction. -/
theorem MainAdded.last (hadd : MainAdded h elf (a.setWidth 32) c ps q .pre c') :
    ∃ w, c'.memory.getLast? = some w ∧ w.opcode ≠ Opcode.system := by
  cases hadd with
  | closed he => rcases he with he | he <;> cases he
  | cut =>
      refine ⟨jalrInst, ?_, by decide⟩
      simp [exitTo]
  | left he =>
      rcases he with ⟨-, rfl⟩ | he | he
      · refine ⟨0xff013f83, ?_, by decide⟩
        simp [walkedWords, restoreScratch]
      · cases he
      · cases he

theorem PreAdded.blocks_of_some (hadd : PreAdded h elf (a.setWidth 32) c q e c')
    (hb : c.railBasicBlocks x = some b) : c'.railBasicBlocks x = some b := by
  cases hadd with
  | none => exact hb
  | added hnew =>
      have hx : x ≠ q.signExtend 64 := by
        rintro rfl
        rw [hnew] at hb
        cases hb
      exact (Function.update_of_ne hx _ _).trans hb

theorem PreAdded.blocks_of_ne (hadd : PreAdded h elf (a.setWidth 32) c q e c')
    (hx : x ≠ asInt x) : c'.railBasicBlocks x = c.railBasicBlocks x := by
  cases hadd with
  | none => rfl
  | added =>
      have hne : x ≠ q.signExtend 64 := by
        rintro rfl
        exact hx (asInt_signExtend q).symm
      exact Function.update_of_ne hne _ _

/-- The block of a pre-instrumented instruction starts behind the words of the
walk. -/
theorem PreAdded.record (hwalk : BlockWalk h r elf (a.setWidth 32) ps q e)
    (hmain : MainAdded h elf (a.setWidth 32) c ps q e c₁)
    (hadd : PreAdded h elf (a.setWidth 32) c₁ q e c')
    (hnone : c₁.railBasicBlocks x = .none) (hb : c'.railBasicBlocks x = some b) :
    (preAt r elf x = true ∧ ∃ w, StandsBehind h c' b w ∧ w.opcode ≠ Opcode.system) ∧
      (b.type = .syscall → SystemRecord elf b) := by
  have hmem := hadd.memory
  cases hadd with
  | none =>
      rw [hnone] at hb
      cases hb
  | added hnew hdesc hplace =>
      rcases insertAt_cases hb with ⟨rfl, rfl⟩ | ⟨-, hb'⟩
      · obtain ⟨w, hw, hop⟩ := hmain.last
        have hq : (q.signExtend 64).setWidth 32 = q := low_ofLow q
        refine ⟨⟨?_, w, (standsBehind_here hw hplace.startLocationInCache).mono hmem, hop⟩,
          fun htype => hdesc.systemRecord (opcode_of_exitType ?_)⟩
        · rw [preAt, hq]
          exact (hwalk.of_pre rfl).2
        · rw [hdesc.type, nextInstType] at htype
          split at htype
          · exact htype
          · cases htype
      · rw [CodeCache.railBasicBlocks_emit, hnone] at hb'
        cases hb'

end Added

theorem allocateBB_spec (h : Host) (r : Rail) (elf : ElfReader) (c : CodeCache) (a : DWord) :
    (∃ pc, (allocateBB h r elf c a).1 = elf.setProgramCounter pc) ∧
      BlockAdded h r elf a c (allocateBB h r elf c a).2 := by
  obtain ⟨ps, q, e, c₁, hwalk, htext, hmain, hpre, -⟩ := allocateBB_walk h r elf c a
  refine ⟨htext, ?_⟩
  generalize (allocateBB h r elf c a).2 = c' at hpre
  exact {
    memory := hmain.memory.trans hpre.memory
    exits := hpre.exits.trans hmain.exits
    foreign := by
      intro x hx
      have hxa : x ≠ asInt a := by
        rintro rfl
        exact hx (asInt_signExtend _).symm
      rw [hpre.blocks_of_ne hx, hmain.blocks_of_ne hxa]
    old := by
      intro x b hx hb
      rw [← hmain.blocks_of_ne hx] at hb
      exact hpre.blocks_of_some hb
    syscall := by
      intro x b hnone hb
      cases hb₁ : c₁.railBasicBlocks x with
      | none => exact (hpre.record hwalk hmain hb₁ hb).2
      | some b₁ =>
          obtain rfl := Option.some.inj ((hpre.blocks_of_some hb₁).symm.trans hb)
          exact (hmain.record hwalk hnone hb₁).2.2
    start := by
      intro x b hnone hb
      cases hb₁ : c₁.railBasicBlocks x with
      | none => exact .inr (hpre.record hwalk hmain hb₁ hb).1
      | some b₁ =>
          obtain rfl := Option.some.inj ((hpre.blocks_of_some hb₁).symm.trans hb)
          obtain ⟨hnot, hstart, -⟩ := hmain.record hwalk hnone hb₁
          exact .inl ⟨hnot, hstart⟩ }

end RailTranslator
