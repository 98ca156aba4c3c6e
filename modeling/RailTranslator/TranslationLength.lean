import RailTranslator.Runs

/-!
How many words the translation of a block takes.

What is emitted depends on the text and on the registered routines. The cache
it is emitted to only decides whether a pre-instrumented instruction has a
block already, and the words of a trace do not depend on it at all. So a
translation takes at most as many words as it takes in an empty cache.
-/

namespace RailTranslator

open Rv64

/-! ### Blocks -/

section Block

variable {h : Host} {r : Rail} {st : BBState}

theorem length_close (type : BasicBlockType) (lastAddr : BitVec 32) (terminalInst : Word)
    (words after : List Word) :
    (st.close h type lastAddr terminalInst words after).cache.memory.length =
      st.cache.memory.length + (words.length + after.length) := by
  show (st.cache.memory ++ words ++ after).length = _
  rw [List.length_append, List.length_append, Nat.add_assoc]

/-- The length of the words `allocateNextInst` emits does not depend on where
they stand. -/
theorem length_nextInstWords (start : DWord) (pc : BitVec 32) (w : Word) :
    (nextInstWords h start pc w).length = (nextInstWords h 0 pc w).length := by
  unfold nextInstWords
  split
  · simp only [List.length_cons, List.length_nil]
  · rfl

theorem length_allocatePreInst (st : BBState) : (allocatePreInst h st).cache.memory.length =
    st.cache.memory.length + (6 + (nextInstWords h 0 st.pc st.nextInst).length) := by
  unfold allocatePreInst BBState.pc BBState.nextInst
  simp only [allocateNextInst_eq, CodeCache.memory_insertBB, CodeCache.memory_emit,
    List.length_append, length_exitTo, length_nextInstWords (CodeCache.here _ _), Nat.add_assoc]

/-- The loop of `allocateBB` from a state on, with the reader `elf`, the block
that begins at `a`, and with words of the block already emitted if `cut`: it
adds at most `n` words, and just as many in a cache without blocks. -/
def BlockAdds (h : Host) (r : Rail) (fuel : ℕ) (elf : ElfReader) (a : DWord) (cut : Bool)
    (n : ℕ) : Prop :=
  ∀ st : BBState, st.elfReader = elf → st.railBB.firstAddr = a →
    (st.allocatedPrev ≠ 0 ↔ cut = true) →
    (allocateBBLoop h r fuel st).cache.memory.length ≤ st.cache.memory.length + n ∧
      ((∀ x, st.cache.railBasicBlocks x = none) →
        (allocateBBLoop h r fuel st).cache.memory.length = st.cache.memory.length + n)

variable {elf : ElfReader} {a : DWord} {cut : Bool} {fuel : ℕ}

theorem blockAdds_stop (hstop : ∀ st : BBState, st.elfReader = elf →
    allocateBBLoop h r fuel st = st) : BlockAdds h r fuel elf a cut 0 := by
  intro st hst _ _
  rw [hstop st hst]
  exact ⟨le_rfl, fun _ => rfl⟩

theorem blockAdds_pre (hne : elf.getNextInstruction ≠ 0)
    (hpre : preInstrumented r elf.programCounter elf.getNextInstruction = true) :
    ∃ n, BlockAdds h r (fuel + 1) elf a cut n := by
  refine ⟨(if cut then 6 else 0) + if cut = true ∧ elf.pc = a then 0
    else 6 + (nextInstWords h 0 elf.programCounter elf.getNextInstruction).length, ?_⟩
  intro st hst hfirst hprev
  -- the words in front, and whether the instruction has a block then
  obtain ⟨st₁, hst₁, htext, hlen, hknown⟩ : ∃ st₁,
      (if st.countInst.allocatedPrev ≠ 0 then
        st.countInst.close h .segmented (st.countInst.pc - 4)
          (st.countInst.elfReader.fetch (st.countInst.pc - 4)) (exitTo h.contextSwitch) []
      else st.countInst) = st₁ ∧ st₁.elfReader = elf ∧
        st₁.cache.memory.length = st.cache.memory.length + (if cut then 6 else 0) ∧
        (st₁.cache.railBasicBlocks elf.pc).isSome =
          ((st.cache.railBasicBlocks elf.pc).isSome || decide (cut = true ∧ elf.pc = a)) := by
    cases cut with
    | false =>
        have hzero : ¬ st.countInst.allocatedPrev ≠ 0 := fun hne =>
          Bool.false_ne_true (hprev.mp hne)
        refine ⟨st.countInst, if_neg hzero, hst, rfl, ?_⟩
        simp [BBState.countInst]
    | true =>
        refine ⟨_, if_pos (hprev.mpr rfl), hst, length_close _ _ _ _ _, ?_⟩
        show (Function.update st.cache.railBasicBlocks st.railBB.firstAddr _ elf.pc).isSome = _
        rw [hfirst]
        by_cases hpc : elf.pc = a
        · simp [hpc]
        · simp [hpc]
  have hturn : allocateBBLoop h r (fuel + 1) st =
      if (st₁.cache.railBasicBlocks elf.pc).isSome = true then st₁ else allocatePreInst h st₁ := by
    have hnext : st.nextInst ≠ 0 := by
      rw [BBState.nextInst, hst]
      exact hne
    have hpre' : preInstrumented r st.countInst.pc st.countInst.nextInst = true := by
      rw [BBState.pc, BBState.nextInst]
      show preInstrumented r st.elfReader.programCounter st.elfReader.getNextInstruction = true
      rw [hst]
      exact hpre
    rw [allocateBBLoop, if_neg hnext, allocateBBTurn]
    simp only [hpre', if_true, hst₁, htext]
    cases (st₁.cache.railBasicBlocks elf.pc).isSome <;> rfl
  have hown : (allocatePreInst h st₁).cache.memory.length = st₁.cache.memory.length +
      (6 + (nextInstWords h 0 elf.programCounter elf.getNextInstruction).length) := by
    rw [length_allocatePreInst, BBState.pc, BBState.nextInst, htext]
  rw [hturn, hknown]
  by_cases hself : cut = true ∧ elf.pc = a
  · rw [decide_eq_true hself, Bool.or_true, if_pos rfl, if_pos hself, hlen]
    exact ⟨by omega, fun _ => by omega⟩
  · rw [decide_eq_false hself, Bool.or_false, if_neg hself]
    constructor
    · split <;> omega
    · intro hnone
      rw [hnone elf.pc, if_neg (by decide)]
      omega

theorem blockAdds_return (hne : elf.getNextInstruction ≠ 0) {n : ℕ}
    (hturn : ∀ st : BBState, st.elfReader = elf → ∃ st', allocateBBTurn h r st = .return st' ∧
      st'.cache.memory.length = st.cache.memory.length + n) :
    BlockAdds h r (fuel + 1) elf a cut n := by
  intro st hst _ _
  obtain ⟨st', hreturn, hlen⟩ := hturn st hst
  have hnext : st.nextInst ≠ 0 := by
    rw [BBState.nextInst, hst]
    exact hne
  rw [allocateBBLoop, if_neg hnext, hreturn]
  exact ⟨hlen.le, fun _ => hlen⟩

theorem blockAdds_next (hne : elf.getNextInstruction ≠ 0) {words : List Word} {n : ℕ}
    (hturn : ∀ st : BBState, st.elfReader = elf →
      allocateBBTurn h r st = .next (st.countInst.advance words))
    (hrest : BlockAdds h r fuel elf.incProgramCounter a true n) :
    BlockAdds h r (fuel + 1) elf a cut (words.length + n) := by
  intro st hst hfirst _
  have hnext : st.nextInst ≠ 0 := by
    rw [BBState.nextInst, hst]
    exact hne
  have htext : (st.countInst.advance words).elfReader = elf.incProgramCounter := by
    show st.elfReader.incProgramCounter = _
    rw [hst]
  have hprev : (st.countInst.advance words).allocatedPrev ≠ 0 ↔ true = true :=
    ⟨fun _ => rfl, fun _ => Nat.succ_ne_zero _⟩
  have hlen : (st.countInst.advance words).cache.memory.length =
      st.cache.memory.length + words.length := List.length_append
  obtain ⟨hle, heq⟩ := hrest (st.countInst.advance words) htext hfirst hprev
  rw [allocateBBLoop, if_neg hnext, hturn st hst]
  dsimp only
  refine ⟨by omega, fun hnone => ?_⟩
  have hsame := heq hnone
  omega

/-- From every state on, the loop adds a number of words that does not depend
on the cache, but for a pre-instrumented instruction that has a block. -/
theorem exists_blockAdds (h : Host) (r : Rail) (fuel : ℕ) (elf : ElfReader) (a : DWord)
    (cut : Bool) : ∃ n, BlockAdds h r fuel elf a cut n := by
  -- `cut` says whether something stands in front of the instruction
  induction fuel generalizing elf cut with
  | zero => exact ⟨0, blockAdds_stop fun _ _ => rfl⟩
  | succ fuel ih =>
      by_cases hne : elf.getNextInstruction = 0
      · refine ⟨0, blockAdds_stop fun st hst => ?_⟩
        rw [allocateBBLoop, if_pos]
        rw [BBState.nextInst, hst, hne]
      cases hpre : preInstrumented r elf.programCounter elf.getNextInstruction with
      | true => exact blockAdds_pre hne hpre
      | false =>
          have hturn (st : BBState) (hst : st.elfReader = elf) :
              allocateBBTurn h r st = translateInst h r st.countInst := by
            subst hst
            exact allocateBBTurn_eq hpre
          have hnext (st : BBState) (hst : st.elfReader = elf) :
              st.countInst.nextInst = elf.getNextInstruction := by
            show st.elfReader.getNextInstruction = _
            rw [hst]
          have hpc (st : BBState) (hst : st.elfReader = elf) :
              st.countInst.pc = elf.programCounter := by
            show st.elfReader.programCounter = _
            rw [hst]
          by_cases hw : IsTerminal elf.getNextInstruction
          · refine ⟨(exitWords h elf.getNextInstruction).length +
              (wordsBehind elf.getNextInstruction).length, blockAdds_return hne ?_⟩
            intro st hst
            refine ⟨_, (hturn st hst).trans (translateInst_terminal ?_), ?_⟩
            · rw [hnext st hst]
              exact hw
            · rw [← hnext st hst]
              exact length_close _ _ _ _ _
          · have hstraight (st : BBState) (hst : st.elfReader = elf) :=
              (hturn st hst).trans (@translateInst_straight h r st.countInst
                (by rw [hnext st hst]; exact hw))
            cases hends : segmentsBB r elf.programCounter elf.getNextInstruction with
            | true =>
                refine ⟨(bbWords h elf.programCounter elf.getNextInstruction ++
                  exitTo h.contextSwitchTaken).length + 0, blockAdds_return hne ?_⟩
                intro st hst
                refine ⟨st.countInst.segment h, ?_, ?_⟩
                · rw [hstraight st hst, hpc st hst, hnext st hst, hends, if_pos rfl]
                · rw [← hnext st hst, ← hpc st hst]
                  exact length_close _ _ _ _ _
            | false =>
                obtain ⟨n, hn⟩ := ih elf.incProgramCounter true
                have hgo (st : BBState) (hst : st.elfReader = elf) : allocateBBTurn h r st =
                    .next (st.countInst.advance
                      (bbWords h elf.programCounter elf.getNextInstruction)) := by
                  rw [hstraight st hst, hpc st hst, hnext st hst, hends,
                    if_neg Bool.false_ne_true]
                exact ⟨_, blockAdds_next hne hgo hn⟩

theorem exists_length_allocateBB (h : Host) (r : Rail) (elf : ElfReader) (a : DWord) :
    ∃ n, ∀ (x : BitVec 32) (c : CodeCache),
      (allocateBB h r (elf.setProgramCounter x) c a).2.memory.length ≤ c.memory.length + n ∧
        ((∀ y, c.railBasicBlocks y = none) →
          (allocateBB h r (elf.setProgramCounter x) c a).2.memory.length =
            c.memory.length + n) := by
  obtain ⟨n, hn⟩ := exists_blockAdds h r loopFuel (elf.setProgramCounter (a.setWidth 32))
    (asInt a) false
  refine ⟨1 + n, fun x c => ?_⟩
  obtain ⟨hle, heq⟩ := hn (allocateBBStart h (elf.setProgramCounter x) c a) rfl rfl
    ⟨fun hne => absurd rfl hne, fun hcut => by cases hcut⟩
  have hlen : (allocateBBStart h (elf.setProgramCounter x) c a).cache.memory.length =
      c.memory.length + 1 := List.length_append
  rw [hlen] at hle heq
  constructor
  · rw [← Nat.add_assoc]
    exact hle
  · intro hnone
    rw [← Nat.add_assoc]
    exact heq hnone

end Block

/-! ### Traces -/

section Trace

variable {h : Host} {r : Rail} {i : ℕ} {elf : ElfReader}

structure Emitted (st st' : TraceState) (words : List Word) (elf' : ElfReader) : Prop where
  memory : st'.cache.memory = st.cache.memory ++ words
  elfReader : st'.elfReader = elf'

/-- What a turn of the loop of `allocateTraceBlock` emits depends on the reader
alone: it goes on behind the instruction, or it returns an address. -/
theorem exists_traceTurn (h : Host) (r : Rail) (i : ℕ) (elf : ElfReader) : ∃ words,
    (∀ st : TraceState, st.elfReader = elf → ∃ st', traceTurn h r i st = .next st' ∧
      Emitted st st' words elf.incProgramCounter) ∨
    ∃ a, ∀ st : TraceState, st.elfReader = elf → ∃ st', traceTurn h r i st = .return st' a ∧
      Emitted st st' words elf := by
  by_cases hw : IsTerminal elf.getNextInstruction
  · by_cases hfollow : elf.getNextInstruction.opcode = Opcode.jal ∧ 0 < i
    · refine ⟨inlineExit r elf.getNextInstruction ++
          linkWords elf.programCounter elf.getNextInstruction,
        .inr ⟨elf.programCounter + elf.getNextInstruction.immJ.signExtend 32, ?_⟩⟩
      intro st hst
      subst hst
      exact ⟨_, traceTurn_jal hfollow.1 hfollow.2, rfl, rfl⟩
    · have hstop : elf.getNextInstruction.opcode = Opcode.jal → i = 0 := fun hop =>
        Nat.eq_zero_of_not_pos fun hpos => hfollow ⟨hop, hpos⟩
      refine ⟨inlineExit r elf.getNextInstruction ++
        (stubWords h elf.pc elf.getNextInstruction ++ wordsBehind elf.getNextInstruction),
          .inr ⟨0, ?_⟩⟩
      intro st hst
      subst hst
      obtain ⟨st', hturn, hstopped⟩ := @traceStopped_turn h r i st hw hstop
      exact ⟨st', hturn, hstopped.memory, hstopped.elfReader⟩
  · cases hends : segmentsTrace r elf.programCounter elf.getNextInstruction with
    | true =>
        refine ⟨bodyWords h (relocatedInPlace h) elf.programCounter elf.getNextInstruction ++
          exitTo h.contextSwitchTaken ++ inlineSegment r elf.getNextInstruction,
            .inr ⟨0, ?_⟩⟩
        intro st hst
        subst hst
        have hturn := @traceTurn_eq h r i st hw
        have hends' : segmentsTrace r st.pc st.nextInst = true := hends
        rw [if_pos hends'] at hturn
        exact ⟨_, hturn, (moved_segment st _ _).memory, rfl⟩
    | false =>
        refine ⟨bodyWords h (relocatedInPlace h) elf.programCounter elf.getNextInstruction ++
          inlineBehind r elf.getNextInstruction, .inl ?_⟩
        intro st hst
        subst hst
        have hturn := @traceTurn_eq h r i st hw
        have hends' : ¬ segmentsTrace r st.pc st.nextInst = true := fun hend =>
          Bool.false_ne_true (hends.symm.trans hend)
        rw [if_neg hends'] at hturn
        exact ⟨_, hturn, rfl, rfl⟩

theorem Emitted.trans {st st₁ st' : TraceState} {words words' : List Word} {elf₁ elf' : ElfReader}
    (he : Emitted st st₁ words elf₁) (he' : Emitted st₁ st' words' elf') :
    Emitted st st' (words ++ words') elf' where
  memory := by rw [he'.memory, he.memory, List.append_assoc]
  elfReader := he'.elfReader

theorem emitted_refl (st : TraceState) : Emitted st st [] st.elfReader where
  memory := (List.append_nil _).symm
  elfReader := rfl

/-- The loop of a block emits the same words into every cache, leaves the
reader at the same place and returns the same address. -/
theorem exists_traceLoop (h : Host) (r : Rail) (i fuel : ℕ) (elf : ElfReader) :
    ∃ words elf' a, ∀ st : TraceState, st.elfReader = elf →
      (traceLoop h r i fuel st).2 = a ∧ Emitted st (traceLoop h r i fuel st).1 words elf' := by
  induction fuel generalizing elf with
  | zero =>
      refine ⟨[], elf, 0, fun st hst => ⟨rfl, ?_⟩⟩
      subst hst
      exact emitted_refl st
  | succ fuel ih =>
      by_cases hne : elf.getNextInstruction = 0
      · refine ⟨[], elf, 0, fun st hst => ?_⟩
        subst hst
        have hnext : st.nextInst = 0 := hne
        rw [traceLoop, if_pos hnext]
        exact ⟨rfl, emitted_refl st⟩
      obtain ⟨words, hnext | ⟨a, hreturn⟩⟩ := exists_traceTurn h r i elf
      · obtain ⟨words', elf', a, hrest⟩ := ih elf.incProgramCounter
        refine ⟨words ++ words', elf', a, fun st hst => ?_⟩
        obtain ⟨st', hturn, hemitted⟩ := hnext st hst
        obtain ⟨ha, hemitted'⟩ := hrest st' hemitted.elfReader
        subst hst
        have hword : st.nextInst ≠ 0 := hne
        rw [traceLoop, if_neg hword, hturn]
        exact ⟨ha, hemitted.trans hemitted'⟩
      · refine ⟨words, elf, a, fun st hst => ?_⟩
        obtain ⟨st', hturn, hemitted⟩ := hreturn st hst
        subst hst
        have hword : st.nextInst ≠ 0 := hne
        rw [traceLoop, if_neg hword, hturn]
        exact ⟨rfl, hemitted⟩

theorem exists_traceBlocks (h : Host) (r : Rail) (n : ℕ) (elf : ElfReader) (a : BitVec 32) :
    ∃ words, ∀ st : TraceState, st.elfReader = elf →
      (traceBlocks h r n st a).cache.memory = st.cache.memory ++ words := by
  induction n generalizing elf a with
  | zero => exact ⟨[], fun st _ => (List.append_nil _).symm⟩
  | succ n ih =>
      obtain ⟨words, elf', next, hloop⟩ :=
        exists_traceLoop h r n loopFuel (elf.setProgramCounter a)
      have hblock (st : TraceState) (hst : st.elfReader = elf) :
          (allocateTraceBlock h r st a n).2 = next ∧
            Emitted st (allocateTraceBlock h r st a n).1 words elf' := by
        subst hst
        obtain ⟨hnext, hemitted⟩ :=
          hloop { st with elfReader := st.elfReader.setProgramCounter a } rfl
        exact ⟨hnext, hemitted.memory, hemitted.elfReader⟩
      by_cases hend : next = 0
      · refine ⟨words, fun st hst => ?_⟩
        obtain ⟨hnext, hemitted⟩ := hblock st hst
        rw [traceBlocks]
        dsimp only
        rw [hnext, if_pos hend]
        exact hemitted.memory
      · obtain ⟨words', hrest⟩ := ih elf' next
        refine ⟨words ++ words', fun st hst => ?_⟩
        obtain ⟨hnext, hemitted⟩ := hblock st hst
        rw [traceBlocks]
        dsimp only
        rw [hnext, if_neg hend, hrest _ hemitted.elfReader, hemitted.memory, List.append_assoc]

/-- A trace is the same list of words in every cache. -/
theorem exists_memory_allocateTrace (h : Host) (r : Rail) (elf : ElfReader) (a : DWord) (n : ℕ) :
    ∃ words, ∀ (x : BitVec 32) (c : CodeCache),
      (allocateTrace h r (elf.setProgramCounter x) c a n).2.memory = c.memory ++ words := by
  obtain ⟨words, hwords⟩ :=
    exists_traceBlocks h r n (elf.setProgramCounter (a.setWidth 32)) (a.setWidth 32)
  refine ⟨restoreScratch ++ words, fun x c => ?_⟩
  have hblocks := hwords (allocateTraceStart h (elf.setProgramCounter x) c a) rfl
  rw [← List.append_assoc]
  exact hblocks

end Trace

/-! ### The length of a translation -/

/-- How many words the translation of the block at an address takes in an
empty cache; a trace has up to `n` blocks. -/
def translationLength (h : Host) (r : Rail) (elf : ElfReader) (a : DWord) (n : ℕ) : ℕ :=
  (allocate h r elf .initial a n).2.memoryIndex

theorem length_allocate_le (h : Host) (r : Rail) (elf : ElfReader) (x : BitVec 32)
    (c : CodeCache) (a : DWord) (n : ℕ) :
    (allocate h r (elf.setProgramCounter x) c a n).2.memory.length ≤
      c.memory.length + translationLength h r elf a n := by
  unfold translationLength CodeCache.memoryIndex allocate
  split
  · obtain ⟨words, hwords⟩ := exists_memory_allocateTrace h r elf a n
    have hempty : (allocateTrace h r elf .initial a n).2.memory = words :=
      hwords elf.programCounter .initial
    rw [hwords, hempty, List.length_append]
  · obtain ⟨m, hm⟩ := exists_length_allocateBB h r elf a
    have hempty : (allocateBB h r elf .initial a).2.memory.length = 0 + m :=
      (hm elf.programCounter .initial).2 fun _ => rfl
    rw [hempty, Nat.zero_add]
    exact (hm x c).1

end RailTranslator
