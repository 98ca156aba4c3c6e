import RailTranslator.TraceLayout

/-!
What the allocation of a basic block does, with any routines registered.

The block of an address is a walk straight through the text, to the
instruction that ends it: one that ends a block by itself, one behind which a
POST routine ends it, or one that has a typed PRE routine and gets a block of
its own. `BlockWalk` is that walk; `MainAdded` is the block it leaves in the
cache, `PreAdded` the block of a pre-instrumented instruction, and
`allocateBB_walk` says that `allocateBB` does just that.
-/

namespace RailTranslator

open Rv64

/-! ### The walk -/

structure InBlock (r : Rail) (elf : ElfReader) (pc : BitVec 32) : Prop where
  ne_zero : elf.fetch pc ≠ 0
  not_pre : preInstrumented r pc (elf.fetch pc) = false
  not_terminal : ¬ IsTerminal (elf.fetch pc)
  not_segmented : segmentsBB r pc (elf.fetch pc) = false

/-- How the walk of a block ends: with the exit of its last instruction, with
the exit of a POST routine, in front of a pre-instrumented instruction, where
there is no text, or never. -/
inductive BlockEnd
  | stopped | segmented | pre | exhausted | endless
  deriving DecidableEq

def BlockEnd.type : BlockEnd → Word → BasicBlockType
  | .stopped, w => exitType w
  | _, _ => .segmented

/-- The instructions from an address to the end of the block, the address at
which it ends, and how. -/
inductive BlockWalk (h : Host) (r : Rail) (elf : ElfReader) :
    BitVec 32 → List Piece → BitVec 32 → BlockEnd → Prop
  | straight {pc q : BitVec 32} {ps : List Piece} {e : BlockEnd} (hin : InBlock r elf pc)
      (hrest : BlockWalk h r elf (pc + 4) ps q e) :
      BlockWalk h r elf pc (⟨pc, bbWords h pc (elf.fetch pc)⟩ :: ps) q e
  | stopped {pc : BitVec 32} (hpre : preInstrumented r pc (elf.fetch pc) = false)
      (hw : IsTerminal (elf.fetch pc)) :
      BlockWalk h r elf pc [⟨pc, exitWords h (elf.fetch pc)⟩] pc .stopped
  | segmented {pc : BitVec 32} (hne : elf.fetch pc ≠ 0)
      (hpre : preInstrumented r pc (elf.fetch pc) = false) (hw : ¬ IsTerminal (elf.fetch pc))
      (hends : segmentsBB r pc (elf.fetch pc) = true) :
      BlockWalk h r elf pc [⟨pc, bbWords h pc (elf.fetch pc) ++ exitTo h.contextSwitchTaken⟩] pc
        .segmented
  | pre {pc : BitVec 32} (hne : elf.fetch pc ≠ 0)
      (hpre : preInstrumented r pc (elf.fetch pc) = true) : BlockWalk h r elf pc [] pc .pre
  | exhausted {pc : BitVec 32} (h0 : elf.fetch pc = 0) : BlockWalk h r elf pc [] pc .exhausted
  | endless {pc : BitVec 32} : BlockWalk h r elf pc [] pc .endless

theorem BlockWalk.of_setProgramCounter {h : Host} {r : Rail} {elf : ElfReader}
    {x pc q : BitVec 32} {ps : List Piece} {e : BlockEnd}
    (hwalk : BlockWalk h r (elf.setProgramCounter x) pc ps q e) : BlockWalk h r elf pc ps q e := by
  induction hwalk with
  | straight hin _ ih =>
      exact .straight ⟨hin.ne_zero, hin.not_pre, hin.not_terminal, hin.not_segmented⟩ ih
  | stopped hpre hw => exact .stopped hpre hw
  | segmented hne hpre hw hends => exact .segmented hne hpre hw hends
  | pre hne hpre => exact .pre hne hpre
  | exhausted h0 => exact .exhausted h0
  | endless => exact .endless

section Ends

variable {h : Host} {r : Rail} {elf : ElfReader} {pc q q' : BitVec 32} {ps ps' : List Piece}
  {e e' : BlockEnd}

/-- Where no routine cuts a block, it ends by itself or with the text. -/
theorem BlockWalk.of_uncut (hseg : ∀ pc w, segmentsBB r pc w = false)
    (hnopre : ∀ pc w, preInstrumented r pc w = false) (hwalk : BlockWalk h r elf pc ps q e) :
    e ≠ .segmented ∧ e ≠ .pre := by
  induction hwalk with
  | straight _ _ ih => exact ih
  | segmented _ _ _ hends =>
      rw [hseg] at hends
      cases hends
  | pre _ hpre =>
      rw [hnopre] at hpre
      cases hpre
  | stopped | exhausted | endless => exact ⟨BlockEnd.noConfusion, BlockEnd.noConfusion⟩

theorem BlockWalk.ne_nil (hwalk : BlockWalk h r elf pc ps q e)
    (he : e = .stopped ∨ e = .segmented) : ps ≠ [] := by
  cases hwalk with
  | straight | stopped | segmented => exact List.cons_ne_nil _ _
  | pre | exhausted | endless => rcases he with he | he <;> cases he

theorem BlockWalk.not_pre_start (hwalk : BlockWalk h r elf pc ps q e) (hne : ps ≠ []) :
    preInstrumented r pc (elf.fetch pc) = false := by
  cases hwalk with
  | straight hin => exact hin.not_pre
  | stopped hpre => exact hpre
  | segmented _ hpre => exact hpre
  | pre | exhausted | endless => exact absurd rfl hne

theorem BlockWalk.of_pre (hwalk : BlockWalk h r elf pc ps q e) (he : e = .pre) :
    elf.fetch q ≠ 0 ∧ preInstrumented r q (elf.fetch q) = true := by
  induction hwalk with
  | straight _ _ ih => exact ih he
  | pre hne hpre => exact ⟨hne, hpre⟩
  | stopped | segmented | exhausted | endless => cases he

theorem InBlock.not_ends (hin : InBlock r elf pc) :
    ¬ (preInstrumented r pc (elf.fetch pc) = true ∨ IsTerminal (elf.fetch pc) ∨
      segmentsBB r pc (elf.fetch pc) = true) := by
  rintro (hpre | hw | hends)
  · rw [hin.not_pre] at hpre
    cases hpre
  · exact hin.not_terminal hw
  · rw [hin.not_segmented] at hends
    cases hends

theorem BlockWalk.unique (hwalk : BlockWalk h r elf pc ps q e)
    (hwalk' : BlockWalk h r elf pc ps' q' e') (he : e ≠ .endless) (he' : e' ≠ .endless) :
    ps = ps' ∧ q = q' ∧ e = e' := by
  induction hwalk generalizing ps' with
  | straight hin _ ih =>
      cases hwalk' with
      | straight _ hrest' =>
          obtain ⟨rfl, rfl, rfl⟩ := ih hrest' he
          exact ⟨rfl, rfl, rfl⟩
      | stopped _ hw => exact absurd hw hin.not_terminal
      | segmented _ _ _ hends => exact absurd (.inr (.inr hends)) hin.not_ends
      | pre _ hpre => exact absurd (.inl hpre) hin.not_ends
      | exhausted h0 => exact absurd h0 hin.ne_zero
      | endless => exact absurd rfl he'
  | stopped hpre hw =>
      cases hwalk' with
      | straight hin => exact absurd hw hin.not_terminal
      | stopped => exact ⟨rfl, rfl, rfl⟩
      | segmented _ _ hnot => exact absurd hw hnot
      | pre _ hpre' => rw [hpre] at hpre'; cases hpre'
      | exhausted h0 => exact absurd h0 (ne_zero_of_isTerminal hw)
      | endless => exact absurd rfl he'
  | segmented hne hpre hw hends =>
      cases hwalk' with
      | straight hin => exact absurd (.inr (.inr hends)) hin.not_ends
      | stopped _ hw' => exact absurd hw' hw
      | segmented => exact ⟨rfl, rfl, rfl⟩
      | pre _ hpre' => rw [hpre] at hpre'; cases hpre'
      | exhausted h0 => exact absurd h0 hne
      | endless => exact absurd rfl he'
  | pre hne hpre =>
      cases hwalk' with
      | straight hin => exact absurd (.inl hpre) hin.not_ends
      | stopped hpre' => rw [hpre] at hpre'; cases hpre'
      | segmented _ hpre' => rw [hpre] at hpre'; cases hpre'
      | pre => exact ⟨rfl, rfl, rfl⟩
      | exhausted h0 => exact absurd h0 hne
      | endless => exact absurd rfl he'
  | exhausted h0 =>
      cases hwalk' with
      | straight hin => exact absurd h0 hin.ne_zero
      | stopped _ hw => exact absurd h0 (ne_zero_of_isTerminal hw)
      | segmented hne => exact absurd h0 hne
      | pre hne => exact absurd h0 hne
      | exhausted => exact ⟨rfl, rfl, rfl⟩
      | endless => exact absurd rfl he'
  | endless => exact absurd rfl he

end Ends

/-! ### A single instruction -/

def nextInstType (w : Word) : BasicBlockType := if IsTerminal w then exitType w else .segmented

/-- The register through which `allocateNextInst` loads the handler's address
behind an instruction; the jump that follows goes through `t6`. -/
def exitReg (h : Host) (w : Word) : BitVec 32 :=
  if opcodeOf w = Op.store ∨ opcodeOf w = Op.load then
    scratchReg (decodeInstruction h.junkInst w).rs1
  else regs.t6

/-- The words `allocateNextInst` emits at address `start` of the cache. -/
def nextInstWords (h : Host) (start : DWord) (pc : BitVec 32) (w : Word) : List Word :=
  if w.opcode = Opcode.system then
    [encodeJtypeFields Op.jal regs.zero ((0 - start).setWidth 32), w]
  else if IsTerminal w then exitWords h w
  else bodyWords h (relocatedInPlace h) pc w ++
    (inlineSave ++ insertLi h.contextSwitchTaken (exitReg h w) ++ [jalrInst])

theorem allocateNextInst_eq (h : Host) (elf : ElfReader) (c : CodeCache) (b : RailBasicBlock) :
    allocateNextInst h elf c b =
      (c.emit (nextInstWords h (c.here h) elf.programCounter elf.getNextInstruction),
        { b with
          type := nextInstType elf.getNextInstruction
          lastAddr := elf.pc
          terminalInst := elf.getNextInstruction }) := by
  generalize hword : elf.getNextInstruction = w
  by_cases hw : IsTerminal w
  · have hcode : opcodeOf w = w.opcode.setWidth 32 := opcodeOf_eq _
    have hw' := hw
    rcases hw' with hop | hop | hop | hop <;> rw [hop] at hcode <;>
      simp only [allocateNextInst, hword, hcode, nextInstType, nextInstWords, if_pos hw, exitType,
        exitWords, hop] <;> rfl
  · have hsys : w.opcode ≠ Opcode.system := fun hop => hw (.inr (.inr (.inr hop)))
    rw [nextInstType, nextInstWords, if_neg hw, if_neg hsys, if_neg hw]
    rw [isTerminal_iff, not_or, not_or, not_or] at hw
    obtain ⟨hbranch, hjal, hjalr, hsystem⟩ := hw
    by_cases hauipc : opcodeOf w = Op.auipc
    · simp only [allocateNextInst, hword, hauipc, exitReg, bodyWords, if_true]
      rfl
    · by_cases haccess : opcodeOf w = Op.store ∨ opcodeOf w = Op.load
      · by_cases hrs1 : (decodeInstruction h.junkInst w).rs1 = regs.sp
        · simp only [allocateNextInst, hword, hbranch, hjal, hjalr, hauipc, haccess, exitReg,
            bodyWords, hrs1, if_true, if_false, ne_eq, not_true, and_false]
          rfl
        · simp only [allocateNextInst, hword, hbranch, hjal, hjalr, hauipc, haccess, exitReg,
            bodyWords, hrs1, if_true, if_false, ne_eq, not_false_eq_true, and_true]
      · simp only [allocateNextInst, hword, hbranch, hjal, hjalr, hauipc, haccess, hsystem, exitReg,
          bodyWords, if_false, false_and]
        rfl

/-! ### What is added -/

/-- The record of a block that reaches from `first` to `last`. -/
structure Describes (elf : ElfReader) (b : RailBasicBlock) (first last : BitVec 32)
    (type : BasicBlockType) : Prop where
  firstAddr : b.firstAddr = first.signExtend 64
  lastAddr : b.lastAddr = last.signExtend 64
  startInst : b.startInst = elf.fetch first
  terminalInst : b.terminalInst = elf.fetch last
  type : b.type = type

/-- The record of a block whose words stand from index `k` on. -/
structure Placed (h : Host) (b : RailBasicBlock) (k : ℕ) (ws : List Word) : Prop where
  startLocationInCache : b.startLocationInCache = wordAddr h.base k
  endLocationInCache : b.endLocationInCache = wordAddr h.base (k + ws.length)

def walkedWords (ps : List Piece) : List Word := restoreScratch ++ ps.flatMap (·.words)

/-- What the walk of a block leaves in the cache `c`. -/
inductive MainAdded (h : Host) (elf : ElfReader) (a : BitVec 32) (c : CodeCache)
    (ps : List Piece) (q : BitVec 32) : BlockEnd → CodeCache → Prop
  | closed {e : BlockEnd} {b : RailBasicBlock} (he : e = .stopped ∨ e = .segmented)
      (hdesc : Describes elf b a q (e.type (elf.fetch q)))
      (hplace : Placed h b c.memoryIndex (walkedWords ps))
      (hbb : b.basicBlockAddress = a.signExtend 64) :
      MainAdded h elf a c ps q e (((c.setCurrentBB (a.signExtend 64)).emit
        (walkedWords ps ++ wordsBehind (elf.fetch q))).insertAt (a.signExtend 64) b)
  | cut {b : RailBasicBlock} (hne : ps ≠ [])
      (hdesc : Describes elf b a (q - 4) .segmented)
      (hplace : Placed h b c.memoryIndex (walkedWords ps ++ exitTo h.contextSwitch))
      (hbb : b.basicBlockAddress = a.signExtend 64) :
      MainAdded h elf a c ps q .pre (((c.setCurrentBB (a.signExtend 64)).emit
        (walkedWords ps ++ exitTo h.contextSwitch)).insertAt (a.signExtend 64) b)
  | left {e : BlockEnd} (he : e = .pre ∧ ps = [] ∨ e = .exhausted ∨ e = .endless) :
      MainAdded h elf a c ps q e ((c.setCurrentBB (a.signExtend 64)).emit (walkedWords ps))

def preWords (h : Host) (k : ℕ) (q : BitVec 32) (w : Word) : List Word :=
  exitTo h.contextSwitchInstrument ++ nextInstWords h (wordAddr h.base (k + 6)) q w

/-- The block of a pre-instrumented instruction, in the cache `c` that the walk
from `a` has left. -/
inductive PreAdded (h : Host) (elf : ElfReader) (a : BitVec 32) (c : CodeCache) (q : BitVec 32) :
    BlockEnd → CodeCache → Prop
  | none {e : BlockEnd} (he : e = .pre → (c.railBasicBlocks (q.signExtend 64)).isSome) :
      PreAdded h elf a c q e c
  | added {b : RailBasicBlock} (hnew : c.railBasicBlocks (q.signExtend 64) = .none)
      (hdesc : Describes elf b q q (nextInstType (elf.fetch q)))
      (hplace : Placed h b c.memoryIndex (preWords h c.memoryIndex q (elf.fetch q)))
      (hbb : b.basicBlockAddress = a.signExtend 64) :
      PreAdded h elf a c q .pre ((c.emit (preWords h c.memoryIndex q (elf.fetch q))).insertAt
        (q.signExtend 64) b)

/-- A block that is found is the one just inserted or was there before. -/
theorem insertAt_cases {c : CodeCache} {b b' : RailBasicBlock} {x y : DWord}
    (hb : (c.insertAt y b).railBasicBlocks x = some b') :
    x = y ∧ b = b' ∨ x ≠ y ∧ c.railBasicBlocks x = some b' := by
  rw [CodeCache.railBasicBlocks_insertAt] at hb
  by_cases hx : x = y
  · subst hx
    rw [Function.update_self] at hb
    exact .inl ⟨rfl, Option.some_inj.mp hb⟩
  · rw [Function.update_of_ne hx] at hb
    exact .inr ⟨hx, hb⟩

section Added

variable {h : Host} {elf : ElfReader} {a q : BitVec 32} {c c' : CodeCache} {ps : List Piece}
  {e : BlockEnd}

theorem MainAdded.memory (hadd : MainAdded h elf a c ps q e c') : c.memory <+: c'.memory := by
  cases hadd with
  | closed => exact List.prefix_append _ _
  | cut => exact List.prefix_append _ _
  | left => exact List.prefix_append _ _

theorem PreAdded.memory (hadd : PreAdded h elf a c q e c') : c.memory <+: c'.memory := by
  cases hadd with
  | none => exact List.prefix_rfl
  | added => exact List.prefix_append _ _

theorem MainAdded.exits (hadd : MainAdded h elf a c ps q e c') : c'.exits = c.exits := by
  cases hadd <;> rfl

theorem PreAdded.exits (hadd : PreAdded h elf a c q e c') : c'.exits = c.exits := by
  cases hadd <;> rfl

theorem MainAdded.currentBB (hadd : MainAdded h elf a c ps q e c') :
    c'.currentBB = (a.signExtend 64).setWidth 32 := by
  cases hadd <;> rfl

theorem PreAdded.currentBB (hadd : PreAdded h elf a c q e c') : c'.currentBB = c.currentBB := by
  cases hadd <;> rfl

end Added

/-! ### The loop -/

/-- The state in which the loop that began at `a`, with the cache `c`, reads
the instruction at `pc`. -/
structure Turning (h : Host) (elf : ElfReader) (a : BitVec 32) (c : CodeCache) (ps : List Piece)
    (pc : BitVec 32) (st : BBState) : Prop where
  text : st.elfReader = elf.setProgramCounter pc
  cache : st.cache = (c.setCurrentBB (a.signExtend 64)).emit (walkedWords ps)
  firstAddr : st.railBB.firstAddr = a.signExtend 64
  startInst : st.railBB.startInst = elf.fetch a
  basicBlockAddress : st.railBB.basicBlockAddress = a.signExtend 64
  startLocationInCache : st.railBB.startLocationInCache = c.here h
  allocatedPrev : st.allocatedPrev = ps.length

/-- What `allocateBB` has done when its loop ends. -/
structure Finished (h : Host) (r : Rail) (elf : ElfReader) (a : BitVec 32) (c : CodeCache)
    (ps : List Piece) (q : BitVec 32) (e : BlockEnd) (st : BBState) : Prop where
  text : ∃ pc, st.elfReader = elf.setProgramCounter pc
  added : ∃ c₁, MainAdded h elf a c ps q e c₁ ∧ PreAdded h elf a c₁ q e st.cache
  endless : e = .endless → loopFuel ≤ st.cache.memory.length

section Loop

variable {h : Host} {r : Rail} {elf : ElfReader} {a pc : BitVec 32} {c : CodeCache}
  {ps : List Piece} {st : BBState}

theorem Turning.countInst (ht : Turning h elf a c ps pc st) : Turning h elf a c ps pc st.countInst :=
  ⟨ht.text, ht.cache, ht.firstAddr, ht.startInst, ht.basicBlockAddress, ht.startLocationInCache,
    ht.allocatedPrev⟩

theorem Turning.nextInst_eq (ht : Turning h elf a c ps pc st) : st.nextInst = elf.fetch pc := by
  rw [BBState.nextInst, ht.text]
  rfl

theorem Turning.pc_eq (ht : Turning h elf a c ps pc st) : st.pc = pc := by
  rw [BBState.pc, ht.text]
  rfl

theorem walkedWords_append (ps : List Piece) (p : Piece) :
    walkedWords (ps ++ [p]) = walkedWords ps ++ p.words := by
  simp [walkedWords]

theorem Turning.advance (ht : Turning h elf a c ps pc st) (words : List Word) :
    Turning h elf a c (ps ++ [⟨pc, words⟩]) (pc + 4) (st.advance words) where
  text := by
    rw [BBState.advance, ht.text]
    rfl
  cache := by
    rw [BBState.advance, ht.cache, walkedWords_append]
    simp [CodeCache.emit]
  firstAddr := ht.firstAddr
  startInst := ht.startInst
  basicBlockAddress := ht.basicBlockAddress
  startLocationInCache := ht.startLocationInCache
  allocatedPrev := by
    rw [List.length_append, List.length_singleton, ← ht.allocatedPrev]
    rfl

theorem Turning.close (ht : Turning h elf a c ps pc st) (type : BasicBlockType)
    (last : BitVec 32) (words after : List Word) :
    ∃ b, (st.close h type last (elf.fetch last) words after).cache =
        ((c.setCurrentBB (a.signExtend 64)).emit (walkedWords ps ++ words ++ after)).insertAt
          (a.signExtend 64) b ∧
      Describes elf b a last type ∧ Placed h b c.memoryIndex (walkedWords ps ++ words) ∧
      b.basicBlockAddress = a.signExtend 64 := by
  refine ⟨(st.close h type last (elf.fetch last) words after).railBB, ?_,
    ⟨ht.firstAddr, rfl, ht.startInst, rfl, rfl⟩, ⟨ht.startLocationInCache, ?_⟩,
    ht.basicBlockAddress⟩
  · rw [BBState.close, CodeCache.insertBB]
    simp only [ht.firstAddr, ht.cache, CodeCache.emit, List.append_assoc,
      CodeCache.memory_setCurrentBB]
  · show (st.cache.emit words).here h = _
    rw [CodeCache.here, CodeCache.memoryIndex, ht.cache]
    simp [CodeCache.memoryIndex]

theorem Turning.translateInst (ht : Turning h elf a c ps pc st)
    (hpre : preInstrumented r pc (elf.fetch pc) = false) (hne : elf.fetch pc ≠ 0) :
    (InBlock r elf pc ∧ translateInst h r st = .next (st.advance (bbWords h pc (elf.fetch pc)))) ∨
      ∃ p e st', BlockWalk h r elf pc [p] pc e ∧ translateInst h r st = .return st' ∧
        Finished h r elf a c (ps ++ [p]) pc e st' ∧ e ≠ .endless := by
  have hnext := ht.nextInst_eq
  have hpc := ht.pc_eq
  rcases translateInst_cases h r st with ⟨hw, hturn⟩ | ⟨hw, hends, hturn⟩ | ⟨hw, hends, hturn⟩
  · right
    obtain ⟨b, hcache, hdesc, hplace, hbb⟩ := ht.close (exitType (elf.fetch pc)) pc
      (exitWords h (elf.fetch pc)) (wordsBehind (elf.fetch pc))
    rw [hnext] at hw
    refine ⟨_, _, _, .stopped hpre hw, hturn, ⟨?_, ⟨_, ?_, .none (fun he => by cases he)⟩,
      BlockEnd.noConfusion⟩, BlockEnd.noConfusion⟩
    · rw [BBState.terminate, ht.text]
      split
      · exact ⟨pc + 4, rfl⟩
      · exact ⟨pc, rfl⟩
    · rw [← walkedWords_append ps ⟨pc, exitWords h (elf.fetch pc)⟩] at hcache hplace
      rw [BBState.terminate, hnext, hpc, hcache]
      exact .closed (.inl rfl) hdesc hplace hbb
  · right
    have hbehind : wordsBehind (elf.fetch pc) = [] := by
      rw [hnext] at hw
      exact if_neg fun hop => hw (.inr (.inr (.inr hop)))
    obtain ⟨b, hcache, hdesc, hplace, hbb⟩ := ht.close .segmented pc
      (bbWords h pc (elf.fetch pc) ++ exitTo h.contextSwitchTaken) []
    rw [hnext] at hw hends
    rw [hpc] at hends
    refine ⟨_, _, _, .segmented hne hpre hw hends, hturn, ⟨⟨pc, ?_⟩,
      ⟨_, ?_, .none (fun he => by cases he)⟩, BlockEnd.noConfusion⟩, BlockEnd.noConfusion⟩
    · exact ht.text
    · rw [← walkedWords_append ps
        ⟨pc, bbWords h pc (elf.fetch pc) ++ exitTo h.contextSwitchTaken⟩] at hcache hplace
      rw [BBState.segment, hnext, hpc, hcache, ← hbehind]
      exact .closed (.inr rfl) hdesc hplace hbb
  · left
    rw [hnext] at hw hends hturn
    rw [hpc] at hends hturn
    exact ⟨⟨hne, hpre, hw, hends⟩, hturn⟩

theorem preAdded_preInst (htext : st.elfReader = elf.setProgramCounter pc)
    (hbb : st.railBB.basicBlockAddress = a.signExtend 64)
    (hnew : st.cache.railBasicBlocks (pc.signExtend 64) = none) :
    PreAdded h elf a st.cache pc .pre (allocatePreInst h st).cache := by
  have hpc : st.elfReader.pc = pc.signExtend 64 := by
    rw [htext]
    rfl
  have hword : st.elfReader.getNextInstruction = elf.fetch pc := by
    rw [htext]
    rfl
  have hcounter : st.elfReader.programCounter = pc := by
    rw [htext]
    rfl
  have hhere : (st.cache.emit (exitTo h.contextSwitchInstrument)).here h =
      wordAddr h.base (st.cache.memoryIndex + 6) := by
    rw [CodeCache.here, CodeCache.memoryIndex, CodeCache.memory_emit, List.length_append,
      length_exitTo]
    rfl
  have hcache : ∃ b, (allocatePreInst h st).cache = (st.cache.emit (preWords h st.cache.memoryIndex
        pc (elf.fetch pc))).insertAt (pc.signExtend 64) b ∧
      Describes elf b pc pc (nextInstType (elf.fetch pc)) ∧
      Placed h b st.cache.memoryIndex (preWords h st.cache.memoryIndex pc (elf.fetch pc)) ∧
      b.basicBlockAddress = a.signExtend 64 := by
    simp only [allocatePreInst, allocateNextInst_eq, BBState.nextInst, hword, hcounter, hhere, hpc]
    refine ⟨{ h.junkBlock with
      firstAddr := pc.signExtend 64
      lastAddr := pc.signExtend 64
      startInst := elf.fetch pc
      terminalInst := elf.fetch pc
      type := nextInstType (elf.fetch pc)
      basicBlockAddress := st.railBB.basicBlockAddress
      startLocationInCache := st.cache.here h
      endLocationInCache := ((st.cache.emit (exitTo h.contextSwitchInstrument)).emit (nextInstWords h
        (wordAddr h.base (st.cache.memoryIndex + 6)) pc (elf.fetch pc))).here h }, ?_,
      ⟨rfl, rfl, rfl, rfl, rfl⟩, ⟨rfl, ?_⟩, hbb⟩
    · simp only [CodeCache.insertBB, CodeCache.emit, preWords, List.append_assoc]
    · simp only [CodeCache.here, CodeCache.memoryIndex, CodeCache.memory_emit, preWords,
        List.length_append, Nat.add_assoc]
  obtain ⟨b, hcache, hdesc, hplace, hbb'⟩ := hcache
  rw [hcache]
  exact .added hnew hdesc hplace hbb'

theorem Turning.pre (ht : Turning h elf a c ps pc st)
    (hpre : preInstrumented r pc (elf.fetch pc) = true) :
    ∃ st', allocateBBTurn h r st = .return st' ∧ Finished h r elf a c ps pc .pre st' := by
  have hcount := ht.countInst
  generalize hst : st.countInst = st₁ at hcount
  -- the block in front is closed, if there is one
  obtain ⟨st₂, hst₂, hadded, htext, hbb⟩ : ∃ st₂,
      (if st₁.allocatedPrev ≠ 0 then
        st₁.close h .segmented (st₁.pc - 4) (st₁.elfReader.fetch (st₁.pc - 4))
          (exitTo h.contextSwitch) []
      else st₁) = st₂ ∧ MainAdded h elf a c ps pc .pre st₂.cache ∧
        st₂.elfReader = elf.setProgramCounter pc ∧
        st₂.railBB.basicBlockAddress = a.signExtend 64 := by
    by_cases hprev : st₁.allocatedPrev = 0
    · refine ⟨st₁, if_neg (not_not.mpr hprev), ?_, hcount.text, hcount.basicBlockAddress⟩
      rw [hcount.cache]
      rw [hcount.allocatedPrev] at hprev
      exact .left (.inl ⟨rfl, List.length_eq_zero_iff.mp hprev⟩)
    · refine ⟨_, if_pos hprev, ?_, hcount.text, hcount.basicBlockAddress⟩
      obtain ⟨b, hcache, hdesc, hplace, hbb⟩ := hcount.close .segmented (pc - 4)
        (exitTo h.contextSwitch) []
      rw [List.append_nil] at hcache
      rw [hcount.pc_eq, hcount.text, ElfReader.fetch_setProgramCounter, hcache]
      refine .cut (fun hnil => hprev ?_) hdesc hplace hbb
      rw [hcount.allocatedPrev, hnil]
      rfl
  have hpc : st₂.elfReader.pc = pc.signExtend 64 := by
    rw [htext]
    rfl
  rw [← hcount.nextInst_eq, ← hcount.pc_eq] at hpre
  simp only [allocateBBTurn, hst, if_pos hpre, hst₂]
  by_cases hsome : (st₂.cache.railBasicBlocks st₂.elfReader.pc).isSome = true
  · rw [if_pos hsome]
    rw [hpc] at hsome
    exact ⟨st₂, rfl, ⟨pc, htext⟩, ⟨_, hadded, .none fun _ => hsome⟩, fun he => by cases he⟩
  · rw [if_neg hsome]
    rw [hpc, Option.not_isSome_iff_eq_none] at hsome
    exact ⟨_, rfl, ⟨pc, htext⟩, ⟨_, hadded, preAdded_preInst htext hbb hsome⟩,
      fun he => by cases he⟩

theorem Turning.finished (ht : Turning h elf a c ps pc st) {e : BlockEnd}
    (he : e = .exhausted ∨ e = .endless) (hend : e = .endless → loopFuel ≤ st.cache.memory.length) :
    Finished h r elf a c ps pc e st := by
  refine ⟨⟨pc, ht.text⟩, ⟨st.cache, ?_, .none fun hpre => ?_⟩, hend⟩
  · rw [ht.cache]
    exact .left (.inr he)
  · subst hpre
    rcases he with he | he <;> cases he

theorem length_bbWords_pos (pc : BitVec 32) (w : Word) : 0 < (bbWords h pc w).length := by
  rw [bbWords]
  split
  · rw [amoWords]
    simp only [List.length_append]
    split_ifs <;> simp [insertLi]
  · refine length_bodyWords_pos _ (fun w => ?_) pc w
    simp only [relocatedByScratch, List.length_append, insertLi, List.length_cons]
    omega

/-- The loop from the instruction at `pc` on; `hfront` is the way that lies
behind it. -/
theorem allocateBBLoop_walk (fuel : ℕ) {ps : List Piece} {pc : BitVec 32} {st : BBState}
    (ht : Turning h elf a c ps pc st) (hfuel : loopFuel ≤ st.cache.memory.length + fuel)
    (hfront : ∀ rest q e, BlockWalk h r elf pc rest q e → BlockWalk h r elf a (ps ++ rest) q e) :
    ∃ ps' q e, BlockWalk h r elf a ps' q e ∧
      Finished h r elf a c ps' q e (allocateBBLoop h r fuel st) ∧
      (e = .endless → ps'.length = ps.length + fuel) := by
  induction fuel generalizing ps pc st with
  | zero =>
      have hwalk := hfront [] pc .endless .endless
      rw [List.append_nil] at hwalk
      exact ⟨ps, pc, .endless, hwalk, ht.finished (.inr rfl) fun _ => hfuel, fun _ => rfl⟩
  | succ fuel ih =>
      rw [allocateBBLoop]
      by_cases h0 : st.nextInst = 0
      · rw [if_pos h0]
        rw [ht.nextInst_eq] at h0
        have hwalk := hfront [] pc .exhausted (.exhausted h0)
        rw [List.append_nil] at hwalk
        exact ⟨ps, pc, .exhausted, hwalk, ht.finished (.inl rfl) BlockEnd.noConfusion,
          BlockEnd.noConfusion⟩
      · rw [if_neg h0]
        rw [ht.nextInst_eq] at h0
        cases hpre : preInstrumented r pc (elf.fetch pc) with
        | true =>
            obtain ⟨st', hturn, hfin⟩ := ht.pre hpre
            have hwalk := hfront [] pc .pre (.pre h0 hpre)
            rw [List.append_nil] at hwalk
            rw [hturn]
            exact ⟨ps, pc, .pre, hwalk, hfin, BlockEnd.noConfusion⟩
        | false =>
            have hcount := ht.countInst
            rw [allocateBBTurn_eq (by rw [ht.nextInst_eq, ht.pc_eq]; exact hpre)]
            rcases hcount.translateInst hpre h0 with
              ⟨hin, hnext⟩ | ⟨p, e, st', hwalk, hret, hfin, hend⟩
            · rw [hnext]
              have ht' := hcount.advance (bbWords h pc (elf.fetch pc))
              have hfuel' : loopFuel ≤
                  (st.countInst.advance (bbWords h pc (elf.fetch pc))).cache.memory.length +
                    fuel := by
                have hpos := @length_bbWords_pos h pc (elf.fetch pc)
                have hlen : (st.countInst.advance (bbWords h pc (elf.fetch pc))).cache.memory.length =
                    st.cache.memory.length + (bbWords h pc (elf.fetch pc)).length :=
                  List.length_append
                omega
              obtain ⟨ps', q, e, hwalk, hfin, hlen⟩ := ih ht' hfuel' fun rest q e hwalk => by
                rw [List.append_assoc]
                exact hfront _ q e (.straight hin hwalk)
              refine ⟨ps', q, e, hwalk, hfin, fun he => ?_⟩
              rw [hlen he, List.length_append, List.length_singleton]
              omega
            · rw [hret]
              exact ⟨_, pc, e, hfront _ pc e hwalk, hfin, fun he => absurd he hend⟩

end Loop

/-- `allocateBB` walks from the address it is given, adds the block and, where
the walk has ended in front of a pre-instrumented instruction, the block of
that instruction. -/
theorem allocateBB_walk (h : Host) (r : Rail) (elf : ElfReader) (c : CodeCache) (a : DWord) :
    ∃ ps q e c₁, BlockWalk h r elf (a.setWidth 32) ps q e ∧
      (∃ pc, (allocateBB h r elf c a).1 = elf.setProgramCounter pc) ∧
      MainAdded h elf (a.setWidth 32) c ps q e c₁ ∧
      PreAdded h elf (a.setWidth 32) c₁ q e (allocateBB h r elf c a).2 ∧
      (e = .endless → loopFuel ≤ (allocateBB h r elf c a).2.memory.length ∧
        ps.length = loopFuel) := by
  have hstart : Turning h elf (a.setWidth 32) c [] (a.setWidth 32)
      (allocateBBStart h elf c a) := ⟨rfl, rfl, rfl, rfl, rfl, rfl, rfl⟩
  obtain ⟨ps, q, e, hwalk, hfin, hlen⟩ := allocateBBLoop_walk (r := r) loopFuel hstart
    (Nat.le_add_left _ _) fun rest q e hwalk => hwalk
  obtain ⟨c₁, hmain, hpre⟩ := hfin.added
  exact ⟨ps, q, e, c₁, hwalk, hfin.text, hmain, hpre, fun he =>
    ⟨hfin.endless he, (hlen he).trans (Nat.zero_add _)⟩⟩

end RailTranslator
