import RailTranslator.TraceSimulation

/-!
What one turn of a translation loop can do, with any routines registered.

Both loops look at the opcode and then at the routines, and come down to a few
cases: the instruction ends the block by itself, a POST routine ends the block
behind it, or the loop goes on; a trace also follows a jump. Everything that
is proved about the loops for arbitrary routines goes through
`translateInst_cases` and `traceTurn_cases`.
-/

namespace RailTranslator

open Rv64

instance (w : Word) : Decidable (IsTerminal w) := by unfold IsTerminal; infer_instance

def exitType (w : Word) : BasicBlockType :=
  if w.opcode = Opcode.system then .syscall
  else if w.opcode = Opcode.jalr then .indirectBranch
  else .directBranch

theorem isTerminal_iff (w : Word) : IsTerminal w ↔ opcodeOf w = Op.branch ∨ opcodeOf w = Op.jal ∨
    opcodeOf w = Op.jalr ∨ opcodeOf w = Op.system := by
  rw [IsTerminal, ← opcodeOf_eq_iff, ← opcodeOf_eq_iff, ← opcodeOf_eq_iff, ← opcodeOf_eq_iff]
  rfl

/-! ### Blocks -/

def segmentsBB (r : Rail) (pc : BitVec 32) (w : Word) : Bool :=
  if opcodeOf w = Op.auipc then postInstrumented r pc [.uType]
  else if opcodeOf w = Op.store ∨ opcodeOf w = Op.load then
    postInstrumented r pc [.memAccessType, .iType, .sType]
  else if opcodeOf w = Op.amo then false
  else postInstrumented r pc [getType (opcodeOf w)]

def bbWords (h : Host) (pc : BitVec 32) (w : Word) : List Word :=
  if opcodeOf w = Op.amo then amoWords h w else bodyWords h (relocatedByScratch h) pc w

/-- The block has ended by itself; behind a system instruction the program
counter has moved on. -/
def BBState.terminate (h : Host) (st : BBState) : BBState :=
  { st.close h (exitType st.nextInst) st.pc st.nextInst (exitWords h st.nextInst)
      (wordsBehind st.nextInst) with
    elfReader := if st.nextInst.opcode = Opcode.system then st.elfReader.incProgramCounter
      else st.elfReader }

def BBState.segment (h : Host) (st : BBState) : BBState :=
  st.close h .segmented st.pc st.nextInst
    (bbWords h st.pc st.nextInst ++ exitTo h.contextSwitchTaken) []

theorem translateInst_terminal {h : Host} {r : Rail} {st : BBState} (hw : IsTerminal st.nextInst) :
    translateInst h r st = .return (st.terminate h) := by
  have hcode : opcodeOf st.nextInst = st.nextInst.opcode.setWidth 32 := opcodeOf_eq _
  rcases hw with hop | hop | hop | hop <;> rw [hop] at hcode <;>
    simp only [translateInst, hcode, BBState.terminate, exitType, exitWords, wordsBehind, hop] <;>
    rfl

theorem translateInst_straight {h : Host} {r : Rail} {st : BBState}
    (hw : ¬ IsTerminal st.nextInst) :
    translateInst h r st = if segmentsBB r st.pc st.nextInst = true then .return (st.segment h)
      else .next (st.advance (bbWords h st.pc st.nextInst)) := by
  rw [isTerminal_iff, not_or, not_or, not_or] at hw
  obtain ⟨hbranch, hjal, hjalr, hsystem⟩ := hw
  by_cases hauipc : opcodeOf st.nextInst = Op.auipc
  · simp [translateInst, segmentsBB, bbWords, bodyWords, BBState.segment, hauipc]
  · by_cases haccess : opcodeOf st.nextInst = Op.store ∨ opcodeOf st.nextInst = Op.load
    · have hamo : opcodeOf st.nextInst ≠ Op.amo := by
        rcases haccess with h' | h' <;> rw [h'] <;> decide
      simp only [translateInst, segmentsBB, bbWords, bodyWords, BBState.segment, hbranch, hjal,
        hjalr, hauipc, haccess, hamo, if_true, if_false, true_and]
    · by_cases hamo : opcodeOf st.nextInst = Op.amo
      · simp [translateInst, segmentsBB, bbWords, hamo]
      · simp only [translateInst, segmentsBB, bbWords, bodyWords, BBState.segment, hbranch, hjal,
          hjalr, hauipc, haccess, hsystem, hamo, if_false, false_and]

/-- What `allocateBB` does at an instruction without a typed PRE routine. -/
theorem translateInst_cases (h : Host) (r : Rail) (st : BBState) :
    (IsTerminal st.nextInst ∧ translateInst h r st = .return (st.terminate h)) ∨
    (¬ IsTerminal st.nextInst ∧ segmentsBB r st.pc st.nextInst = true ∧
      translateInst h r st = .return (st.segment h)) ∨
    (¬ IsTerminal st.nextInst ∧ segmentsBB r st.pc st.nextInst = false ∧
      translateInst h r st = .next (st.advance (bbWords h st.pc st.nextInst))) := by
  by_cases hw : IsTerminal st.nextInst
  · exact .inl ⟨hw, translateInst_terminal hw⟩
  · have hturn := @translateInst_straight h r st hw
    cases hends : segmentsBB r st.pc st.nextInst with
    | true => exact .inr (.inl ⟨hw, rfl, by rw [hturn, hends, if_pos rfl]⟩)
    | false => exact .inr (.inr ⟨hw, rfl, by rw [hturn, hends, if_neg Bool.false_ne_true]⟩)

/-! ### Traces -/

def segmentsTrace (r : Rail) (pc : BitVec 32) (w : Word) : Bool :=
  if opcodeOf w = Op.auipc then postInstrumented r pc [.uType]
  else if opcodeOf w = Op.store ∨ opcodeOf w = Op.load then postInstrumented r pc [.memAccessType]
  else postInstrumented r pc [getType (opcodeOf w)]

def inlineBehind (r : Rail) (w : Word) : List Word :=
  if opcodeOf w = Op.auipc then []
  else if opcodeOf w = Op.store ∨ opcodeOf w = Op.load then
    inlineInst r [.memAccessType, getType (opcodeOf w)]
  else inlineInst r [getType (opcodeOf w)]

/-- The inline routines behind the exit of an instruction with a POST callback:
only the path of `auipc` emits them. -/
def inlineSegment (r : Rail) (w : Word) : List Word :=
  if opcodeOf w = Op.auipc then inlineInst r [.uType] else []

def inlineExit (r : Rail) (w : Word) : List Word :=
  r.inlineBBRoutinePost ++ inlineInst r
    (if w.opcode = Opcode.branch then [.bType]
    else if w.opcode = Opcode.jal then [.jType]
    else if w.opcode = Opcode.jalr then [.iType]
    else [.systemType, .iType])

/-- What `exits` holds for the exit stub that starts at index `k`: the address
of the branch, but for the other exits the address in front of the stub. -/
def exitAddress (h : Host) (k : ℕ) (w : Word) : DWord :=
  if w.opcode = Opcode.branch then wordAddr h.base (k + 2) else wordAddr h.base k - 4

theorem inlineExit_branch {r : Rail} {w : Word} (hop : w.opcode = Opcode.branch) :
    inlineExit r w = r.inlineBBRoutinePost ++ inlineInst r [.bType] := by
  rw [inlineExit, hop]
  rfl

theorem inlineExit_jal {r : Rail} {w : Word} (hop : w.opcode = Opcode.jal) :
    inlineExit r w = r.inlineBBRoutinePost ++ inlineInst r [.jType] := by
  rw [inlineExit, hop]
  rfl

theorem inlineExit_jalr {r : Rail} {w : Word} (hop : w.opcode = Opcode.jalr) :
    inlineExit r w = r.inlineBBRoutinePost ++ inlineInst r [.iType] := by
  rw [inlineExit, hop]
  rfl

theorem inlineExit_system {r : Rail} {w : Word} (hop : w.opcode = Opcode.system) :
    inlineExit r w = r.inlineBBRoutinePost ++ inlineInst r [.systemType, .iType] := by
  rw [inlineExit, hop]
  rfl

structure TraceStopped (h : Host) (r : Rail) (st st' : TraceState) : Prop where
  elfReader : st'.elfReader = st.elfReader
  currentBB : st'.cache.currentBB = st.cache.currentBB
  memory : st'.cache.memory = st.cache.memory ++ (inlineExit r st.nextInst ++
    (stubWords h st.elfReader.pc st.nextInst ++ wordsBehind st.nextInst))
  exits : st'.cache.exits = Function.update st.cache.exits st.elfReader.pc
    (some (exitAddress h (st.cache.memory ++ inlineExit r st.nextInst).length st.nextInst))
  blocks : ∀ a, a ≠ st.railBB.firstAddr →
    st'.cache.railBasicBlocks a = st.cache.railBasicBlocks a
  firstAddr : st'.railBB.firstAddr = st.railBB.firstAddr
  startLocationInCache : st'.railBB.startLocationInCache = st.railBB.startLocationInCache
  startInst : st'.railBB.startInst = st.railBB.startInst
  type : st'.railBB.type = exitType st.nextInst

/-- What a turn of the loop of `allocateTraceBlock` does. -/
inductive TraceStep (h : Host) (r : Rail) (count : ℕ) (st : TraceState) : TraceTurn → Prop
  | straight (hw : ¬ IsTerminal st.nextInst) (hends : segmentsTrace r st.pc st.nextInst = false) :
      TraceStep h r count st (.next (st.countInst.advance
        (bodyWords h (relocatedInPlace h) st.pc st.nextInst ++ inlineBehind r st.nextInst)))
  | segment (hw : ¬ IsTerminal st.nextInst) (hends : segmentsTrace r st.pc st.nextInst = true)
      (after : List Word) : TraceStep h r count st (.return ((st.countInst.segment h
        (bodyWords h (relocatedInPlace h) st.pc st.nextInst)).emit after) 0)
  | followed (hop : st.nextInst.opcode = Opcode.jal) (hcount : 0 < count) :
      TraceStep h r count st (.return ((st.countInst.setType .directBranch).emit
        (inlineExit r st.nextInst ++ linkWords st.pc st.nextInst))
          (st.pc + st.nextInst.immJ.signExtend 32))
  | stopped {st' : TraceState} (hw : IsTerminal st.nextInst)
      (hstop : st.nextInst.opcode = Opcode.jal → count = 0) (hst : TraceStopped h r st st') :
      TraceStep h r count st (.return st' 0)

section Trace

variable {h : Host} {r : Rail} {count : ℕ} {st : TraceState}

theorem emit_nil (st : TraceState) : st.emit [] = st := by
  rw [TraceState.emit, CodeCache.emit, List.append_nil]

theorem traceTurn_eq (hw : ¬ IsTerminal st.nextInst) :
    traceTurn h r count st = if segmentsTrace r st.pc st.nextInst = true then
        .return ((st.countInst.segment h
          (bodyWords h (relocatedInPlace h) st.pc st.nextInst)).emit
            (inlineSegment r st.nextInst)) 0
      else .next (st.countInst.advance
        (bodyWords h (relocatedInPlace h) st.pc st.nextInst ++ inlineBehind r st.nextInst)) := by
  rw [isTerminal_iff, not_or, not_or, not_or] at hw
  obtain ⟨hbranch, hjal, hjalr, hsystem⟩ := hw
  simp only [segmentsTrace, bodyWords, inlineBehind, inlineSegment]
  simp only [traceTurn, TraceState.nextInst_countInst, TraceState.pc_countInst, hbranch, hjal,
    hjalr, if_false]
  by_cases hauipc : opcodeOf st.nextInst = Op.auipc
  · simp only [hauipc, if_true, List.append_nil]
    rfl
  · by_cases haccess : opcodeOf st.nextInst = Op.store ∨ opcodeOf st.nextInst = Op.load
    · simp only [hauipc, haccess, if_true, if_false, true_and, emit_nil]
      rfl
    · simp only [hauipc, haccess, hsystem, if_false, false_and, emit_nil]
      rfl

theorem traceTurn_straight (hw : ¬ IsTerminal st.nextInst) :
    TraceStep h r count st (traceTurn h r count st) := by
  rw [traceTurn_eq hw]
  cases hends : segmentsTrace r st.pc st.nextInst with
  | true =>
      rw [if_pos rfl]
      exact .segment hw hends _
  | false =>
      rw [if_neg Bool.false_ne_true]
      exact .straight hw hends

theorem traceTurn_jal (hop : st.nextInst.opcode = Opcode.jal) (hcount : 0 < count) :
    traceTurn h r count st = .return ((st.countInst.setType .directBranch).emit
      (inlineExit r st.nextInst ++ linkWords st.pc st.nextInst))
        (st.pc + st.nextInst.immJ.signExtend 32) := by
  have hcode : opcodeOf st.nextInst = Op.jal := opcodeOf_eq_iff.mpr hop
  have hbranch : ¬ Op.jal = Op.branch := by decide
  have hrd : (decodeJtype h.junkInst st.nextInst).rd = regs.zero ↔ st.nextInst.rd = 0 :=
    decodeJtype_rd_eq_zero_iff ..
  simp only [traceTurn, TraceState.nextInst_countInst, TraceState.pc_countInst, hcode, hbranch,
    decodeJtype_imm, hcount, ne_eq, hrd, if_true, if_false]
  rw [inlineExit_jal hop, linkWords]
  by_cases h0 : st.nextInst.rd = 0
  · simp only [h0, not_true, if_true, if_false, List.append_nil]
  · simp only [h0, not_false_eq_true, if_true, if_false, decodeJtype_rd, TraceState.emit,
      CodeCache.emit, List.append_assoc]

theorem traceStopped_turn (hw : IsTerminal st.nextInst)
    (hstop : st.nextInst.opcode = Opcode.jal → count = 0) :
    ∃ st', traceTurn h r count st = .return st' 0 ∧ TraceStopped h r st st' := by
  have hcode : opcodeOf st.nextInst = st.nextInst.opcode.setWidth 32 := opcodeOf_eq _
  rcases hw with hop | hop | hop | hop <;> rw [hop] at hcode
  · simp only [traceTurn, TraceState.nextInst_countInst, hcode]
    refine ⟨_, rfl, rfl, rfl, ?_, ?_, fun _ _ => rfl, rfl, rfl, rfl, ?_⟩
    · simp [TraceState.emit, TraceState.setType, TraceState.countInst, TraceState.recordExit,
        inlineExit_branch hop, stubWords, wordsBehind, hop, branchStub]
    · -- the exit of a branch is recorded behind the branch word
      have haddr : wordAddr h.base (st.cache.memory ++ (r.inlineBBRoutinePost ++
          inlineInst r [.bType] ++ inlineSave) ++
            (branchStub h st.elfReader.pc st.nextInst).take 1).length - 4 =
          exitAddress h (st.cache.memory ++ inlineExit r st.nextInst).length st.nextInst := by
        have hlen : (st.cache.memory ++ (r.inlineBBRoutinePost ++ inlineInst r [.bType] ++
            inlineSave) ++ (branchStub h st.elfReader.pc st.nextInst).take 1).length =
              (st.cache.memory ++ inlineExit r st.nextInst).length + 2 + 1 := by
          simp [inlineExit_branch hop, branchStub, inlineSave]
          omega
        rw [hlen, ← wordAddr_add_four, exitAddress, if_pos hop]
        exact BitVec.add_sub_cancel _ _
      rw [← haddr]
      rfl
    · rw [exitType, hop]
      rfl
  · obtain rfl := hstop hop
    simp only [traceTurn, TraceState.nextInst_countInst, hcode]
    refine ⟨_, rfl, rfl, rfl, ?_, ?_, fun _ _ => rfl, rfl, rfl, rfl, ?_⟩
    · simp [TraceState.emit, TraceState.setType, TraceState.countInst, TraceState.recordExit,
        inlineExit_jal hop, stubWords, wordsBehind, hop]
    · rw [inlineExit_jal hop, exitAddress, hop]
      rfl
    · rw [exitType, hop]
      rfl
  · simp only [traceTurn, TraceState.nextInst_countInst, hcode]
    refine ⟨_, rfl, rfl, rfl, ?_, ?_, fun _ _ => rfl, rfl, rfl, rfl, ?_⟩
    · simp [TraceState.emit, TraceState.setType, TraceState.countInst, TraceState.recordExit,
        TraceState.markEnd, inlineExit_jalr hop, stubWords, wordsBehind, hop]
    · rw [inlineExit_jalr hop, exitAddress, hop]
      rfl
    · rw [exitType, hop]
      rfl
  · simp only [traceTurn, TraceState.nextInst_countInst, hcode]
    refine ⟨_, rfl, rfl, rfl, ?_, ?_, fun a ha => Function.update_of_ne ha _ _, rfl, rfl, rfl, ?_⟩
    · simp [TraceState.emit, TraceState.setType, TraceState.countInst, TraceState.recordExit,
        TraceState.markEnd, TraceState.insertBB, inlineExit_system hop, stubWords, wordsBehind,
        hop]
    · rw [inlineExit_system hop, exitAddress, hop]
      rfl
    · rw [exitType, hop]
      rfl

theorem traceTurn_cases (h : Host) (r : Rail) (count : ℕ) (st : TraceState) :
    TraceStep h r count st (traceTurn h r count st) := by
  by_cases hw : IsTerminal st.nextInst
  · by_cases hfollow : st.nextInst.opcode = Opcode.jal ∧ 0 < count
    · rw [traceTurn_jal hfollow.1 hfollow.2]
      exact .followed hfollow.1 hfollow.2
    · have hstop : st.nextInst.opcode = Opcode.jal → count = 0 := fun hop =>
        Nat.eq_zero_of_not_pos fun hpos => hfollow ⟨hop, hpos⟩
      obtain ⟨st', hturn, hst⟩ := @traceStopped_turn h r count st hw hstop
      rw [hturn]
      exact .stopped hw hstop hst
  · exact traceTurn_straight hw

end Trace

end RailTranslator
