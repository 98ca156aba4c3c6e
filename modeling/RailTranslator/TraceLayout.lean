import RailTranslator.Turns
import RailTranslator.Rv64.Patch

/-!
What the allocation of a trace does, with any routines registered.

The trace of an address is a walk through the text: straight on, over the
jumps it follows, to the instruction that ends it. `TraceWalk` is that walk,
with the words that are emitted for each instruction, and `allocateTrace_walk`
says that `allocateTrace` emits those words and completes the record where the
walk has ended. `TraceAdded` is what the invariants of runs need of it.
-/

namespace RailTranslator

open Rv64

/-! ### The walk -/

structure Piece where
  pc : BitVec 32
  words : List Word

/-- How a trace ends: with an exit stub, with the exit of a POST callback, with
a jump to address zero, where there is no text, or never; and a trace of no
blocks is empty. -/
inductive TraceEnd
  | stopped | segmented | lost | exhausted | endless | empty
  deriving DecidableEq

structure InTrace (r : Rail) (elf : ElfReader) (pc : BitVec 32) : Prop where
  ne_zero : elf.fetch pc ≠ 0
  not_terminal : ¬ IsTerminal (elf.fetch pc)
  not_segmented : segmentsTrace r pc (elf.fetch pc) = false

def jumpTarget (elf : ElfReader) (pc : BitVec 32) : BitVec 32 :=
  pc + (elf.fetch pc).immJ.signExtend 32

/-- A trace of up to `i` blocks from an address: its instructions, the address
of the last one, and how it ends. -/
inductive TraceWalk (h : Host) (r : Rail) (elf : ElfReader) :
    ℕ → BitVec 32 → List Piece → BitVec 32 → TraceEnd → Prop
  | straight {i : ℕ} {pc q : BitVec 32} {ps : List Piece} {e : TraceEnd} (hin : InTrace r elf pc)
      (hrest : TraceWalk h r elf (i + 1) (pc + 4) ps q e) :
      TraceWalk h r elf (i + 1) pc (⟨pc, bodyWords h (relocatedInPlace h) pc (elf.fetch pc) ++
        inlineBehind r (elf.fetch pc)⟩ :: ps) q e
  | followed {i : ℕ} {pc q : BitVec 32} {ps : List Piece} {e : TraceEnd}
      (hop : (elf.fetch pc).opcode = Opcode.jal) (hi : 0 < i) (htarget : jumpTarget elf pc ≠ 0)
      (hrest : TraceWalk h r elf i (jumpTarget elf pc) ps q e) :
      TraceWalk h r elf (i + 1) pc (⟨pc, inlineExit r (elf.fetch pc) ++
        linkWords pc (elf.fetch pc)⟩ :: ps) q e
  | lost {i : ℕ} {pc : BitVec 32} (hop : (elf.fetch pc).opcode = Opcode.jal) (hi : 0 < i)
      (htarget : jumpTarget elf pc = 0) :
      TraceWalk h r elf (i + 1) pc [⟨pc, inlineExit r (elf.fetch pc) ++
        linkWords pc (elf.fetch pc)⟩] pc .lost
  | stopped {i : ℕ} {pc : BitVec 32} (hw : IsTerminal (elf.fetch pc))
      (hstop : (elf.fetch pc).opcode = Opcode.jal → i = 0) :
      TraceWalk h r elf (i + 1) pc [⟨pc, inlineExit r (elf.fetch pc) ++
        (stubWords h (pc.signExtend 64) (elf.fetch pc) ++ wordsBehind (elf.fetch pc))⟩] pc .stopped
  | segmented {i : ℕ} {pc : BitVec 32} (hne : elf.fetch pc ≠ 0) (hw : ¬ IsTerminal (elf.fetch pc))
      (hends : segmentsTrace r pc (elf.fetch pc) = true) (after : List Word) :
      TraceWalk h r elf (i + 1) pc [⟨pc, bodyWords h (relocatedInPlace h) pc (elf.fetch pc) ++
        exitTo h.contextSwitchTaken ++ after⟩] pc .segmented
  | exhausted {i : ℕ} {pc : BitVec 32} (h0 : elf.fetch pc = 0) :
      TraceWalk h r elf (i + 1) pc [] pc .exhausted
  | endless {i : ℕ} {pc : BitVec 32} : TraceWalk h r elf (i + 1) pc [] pc .endless
  | empty {pc : BitVec 32} : TraceWalk h r elf 0 pc [] pc .empty

theorem TraceWalk.of_setProgramCounter {h : Host} {r : Rail} {elf : ElfReader} {x : BitVec 32}
    {i : ℕ} {pc q : BitVec 32} {ps : List Piece} {e : TraceEnd}
    (hwalk : TraceWalk h r (elf.setProgramCounter x) i pc ps q e) :
    TraceWalk h r elf i pc ps q e := by
  induction hwalk with
  | straight hin _ ih => exact .straight ⟨hin.ne_zero, hin.not_terminal, hin.not_segmented⟩ ih
  | followed hop hi htarget _ ih => exact .followed hop hi htarget ih
  | lost hop hi htarget => exact .lost hop hi htarget
  | stopped hw hstop => exact .stopped hw hstop
  | segmented hne hw hends after => exact @TraceWalk.segmented h r elf _ _ hne hw hends after
  | exhausted h0 => exact .exhausted h0
  | endless => exact .endless
  | empty => exact .empty

section Unique

variable {h : Host} {r : Rail} {elf : ElfReader} {i : ℕ} {pc q q' : BitVec 32}
  {ps ps' : List Piece} {e e' : TraceEnd}

theorem Rail.NoCallbacks.segmentsTrace (hr : r.NoCallbacks) (pc : BitVec 32) (w : Word) :
    segmentsTrace r pc w = false := by
  rw [RailTranslator.segmentsTrace]
  split
  · exact hr.postInstrumented pc _
  · split <;> exact hr.postInstrumented pc _

theorem TraceWalk.unique (hr : r.NoCallbacks) (hwalk : TraceWalk h r elf i pc ps q e)
    (hwalk' : TraceWalk h r elf i pc ps' q' e') (he : e ≠ .endless) (he' : e' ≠ .endless) :
    ps = ps' ∧ q = q' ∧ e = e' := by
  induction hwalk generalizing ps' with
  | straight hin _ ih =>
      cases hwalk' with
      | straight _ hrest =>
          obtain ⟨rfl, rfl, rfl⟩ := ih hrest he
          exact ⟨rfl, rfl, rfl⟩
      | followed hop | lost hop => exact absurd (.inr (.inl hop)) hin.not_terminal
      | stopped hw => exact absurd hw hin.not_terminal
      | segmented _ _ hends => rw [hr.segmentsTrace] at hends; cases hends
      | exhausted h0 => exact absurd h0 hin.ne_zero
      | endless => exact absurd rfl he'
  | followed hop hi htarget _ ih =>
      cases hwalk' with
      | straight hin => exact absurd (.inr (.inl hop)) hin.not_terminal
      | followed _ _ _ hrest =>
          obtain ⟨rfl, rfl, rfl⟩ := ih hrest he
          exact ⟨rfl, rfl, rfl⟩
      | lost _ _ h0 => exact absurd h0 htarget
      | stopped _ hstop => exact absurd (hstop hop) (Nat.pos_iff_ne_zero.mp hi)
      | segmented _ hw => exact absurd (.inr (.inl hop)) hw
      | exhausted h0 => exact absurd h0 (ne_zero_of_isTerminal (.inr (.inl hop)))
      | endless => exact absurd rfl he'
  | lost hop hi htarget =>
      cases hwalk' with
      | straight hin => exact absurd (.inr (.inl hop)) hin.not_terminal
      | followed _ _ hne => exact absurd htarget hne
      | lost => exact ⟨rfl, rfl, rfl⟩
      | stopped _ hstop => exact absurd (hstop hop) (Nat.pos_iff_ne_zero.mp hi)
      | segmented _ hw => exact absurd (.inr (.inl hop)) hw
      | exhausted h0 => exact absurd h0 (ne_zero_of_isTerminal (.inr (.inl hop)))
      | endless => exact absurd rfl he'
  | stopped hw hstop =>
      cases hwalk' with
      | straight hin => exact absurd hw hin.not_terminal
      | followed hop hi | lost hop hi => exact absurd (hstop hop) (Nat.pos_iff_ne_zero.mp hi)
      | stopped => exact ⟨rfl, rfl, rfl⟩
      | segmented _ hw' => exact absurd hw hw'
      | exhausted h0 => exact absurd h0 (ne_zero_of_isTerminal hw)
      | endless => exact absurd rfl he'
  | segmented _ _ hends =>
      rw [hr.segmentsTrace] at hends
      cases hends
  | exhausted h0 =>
      cases hwalk' with
      | straight hin => exact absurd h0 hin.ne_zero
      | followed hop | lost hop => exact absurd h0 (ne_zero_of_isTerminal (.inr (.inl hop)))
      | stopped hw => exact absurd h0 (ne_zero_of_isTerminal hw)
      | segmented hne => exact absurd h0 hne
      | exhausted => exact ⟨rfl, rfl, rfl⟩
      | endless => exact absurd rfl he'
  | endless => exact absurd rfl he
  | empty =>
      cases hwalk'
      exact ⟨rfl, rfl, rfl⟩

end Unique

/-- The state behind a walk that has begun in `st`. -/
structure Walked (h : Host) (elf : ElfReader) (st : TraceState) (ps : List Piece)
    (q : BitVec 32) (e : TraceEnd) (st' : TraceState) : Prop where
  text : st'.elfReader = elf.setProgramCounter q
  currentBB : st'.cache.currentBB = st.cache.currentBB
  memory : st'.cache.memory = st.cache.memory ++ ps.flatMap (·.words)
  blocks : ∀ a, a ≠ st.railBB.firstAddr →
    st'.cache.railBasicBlocks a = st.cache.railBasicBlocks a
  firstAddr : st'.railBB.firstAddr = st.railBB.firstAddr
  startLocationInCache : st'.railBB.startLocationInCache = st.railBB.startLocationInCache
  startInst : st'.railBB.startInst = st.railBB.startInst
  exits : e ≠ .stopped → st'.cache.exits = st.cache.exits
  stub : e = .stopped → ∃ front : List Word, ps.flatMap (·.words) = front ++
      (stubWords h (q.signExtend 64) (elf.fetch q) ++ wordsBehind (elf.fetch q)) ∧
    st'.cache.exits = Function.update st.cache.exits (q.signExtend 64)
      (some (exitAddress h (st.cache.memory.length + front.length) (elf.fetch q)))
  type : e = .stopped → st'.railBB.type = exitType (elf.fetch q)
  type_segmented : e = .segmented → st'.railBB.type = .segmented
  type_lost : e = .lost → st'.railBB.type = .directBranch
  endless : e = .endless → loopFuel ≤ st'.cache.memory.length

structure Moved (st st' : TraceState) (words : List Word) : Prop where
  currentBB : st'.cache.currentBB = st.cache.currentBB
  memory : st'.cache.memory = st.cache.memory ++ words
  blocks : ∀ a, a ≠ st.railBB.firstAddr →
    st'.cache.railBasicBlocks a = st.cache.railBasicBlocks a
  firstAddr : st'.railBB.firstAddr = st.railBB.firstAddr
  startLocationInCache : st'.railBB.startLocationInCache = st.railBB.startLocationInCache
  startInst : st'.railBB.startInst = st.railBB.startInst
  exits : st'.cache.exits = st.cache.exits

section Walk

variable {h : Host} {r : Rail} {elf : ElfReader} {st st₁ st' : TraceState} {ps : List Piece}
  {q : BitVec 32} {e : TraceEnd}

theorem Walked.cons {words : List Word} (hm : Moved st st₁ words)
    (hw : Walked h elf st₁ ps q e st') (pc : BitVec 32) :
    Walked h elf st (⟨pc, words⟩ :: ps) q e st' where
  text := hw.text
  currentBB := hw.currentBB.trans hm.currentBB
  memory := by rw [hw.memory, hm.memory, List.flatMap_cons, List.append_assoc]
  blocks a ha := (hw.blocks a (by rwa [hm.firstAddr])).trans (hm.blocks a ha)
  firstAddr := hw.firstAddr.trans hm.firstAddr
  startLocationInCache := hw.startLocationInCache.trans hm.startLocationInCache
  startInst := hw.startInst.trans hm.startInst
  exits he := (hw.exits he).trans hm.exits
  stub he := by
    obtain ⟨front, hps, hex⟩ := hw.stub he
    refine ⟨words ++ front, by rw [List.flatMap_cons, hps, List.append_assoc], ?_⟩
    rw [hex, hm.exits, hm.memory, List.length_append, List.length_append, Nat.add_assoc]
  type := hw.type
  type_segmented := hw.type_segmented
  type_lost := hw.type_lost
  endless := hw.endless

theorem Moved.walked {words : List Word} (hm : Moved st st' words)
    (htext : st'.elfReader = elf.setProgramCounter q) (hstop : e ≠ .stopped)
    (hseg : e = .segmented → st'.railBB.type = .segmented)
    (hlost : e = .lost → st'.railBB.type = .directBranch)
    (hend : e = .endless → loopFuel ≤ st'.cache.memory.length)
    (hps : ps.flatMap (·.words) = words) : Walked h elf st ps q e st' where
  text := htext
  currentBB := hm.currentBB
  memory := by rw [hm.memory, hps]
  blocks := hm.blocks
  firstAddr := hm.firstAddr
  startLocationInCache := hm.startLocationInCache
  startInst := hm.startInst
  exits _ := hm.exits
  stub he := absurd he hstop
  type he := absurd he hstop
  type_segmented := hseg
  type_lost := hlost
  endless := hend

theorem moved_refl (st : TraceState) : Moved st st [] :=
  ⟨rfl, (List.append_nil _).symm, fun _ _ => rfl, rfl, rfl, rfl, rfl⟩

theorem moved_advance (st : TraceState) (words : List Word) :
    Moved st (st.countInst.advance words) words :=
  ⟨rfl, rfl, fun _ _ => rfl, rfl, rfl, rfl, rfl⟩

theorem moved_followed (st : TraceState) (words : List Word) :
    Moved st ((st.countInst.setType .directBranch).emit words) words :=
  ⟨rfl, rfl, fun _ _ => rfl, rfl, rfl, rfl, rfl⟩

theorem moved_segment (st : TraceState) (words after : List Word) :
    Moved st ((st.countInst.segment h words).emit after)
      (words ++ exitTo h.contextSwitchTaken ++ after) :=
  ⟨rfl, List.append_assoc _ _ _, fun _ ha => Function.update_of_ne ha _ _, rfl, rfl, rfl, rfl⟩

theorem TraceStopped.walked (hs : TraceStopped h r st st')
    (htext : st.elfReader = elf.setProgramCounter q) :
    Walked h elf st [⟨q, inlineExit r (elf.fetch q) ++
      (stubWords h (q.signExtend 64) (elf.fetch q) ++ wordsBehind (elf.fetch q))⟩] q .stopped
        st' := by
  have hnext : st.nextInst = elf.fetch q := by rw [TraceState.nextInst, htext]; rfl
  have hpc : st.elfReader.pc = q.signExtend 64 := by rw [htext]; rfl
  have hmem := hs.memory
  have hexits := hs.exits
  have htype := hs.type
  rw [hnext] at hmem hexits htype
  rw [hpc] at hmem hexits
  refine ⟨hs.elfReader.trans htext, hs.currentBB, ?_, hs.blocks, hs.firstAddr, hs.startLocationInCache,
    hs.startInst, fun he => absurd rfl he, fun _ => ?_, fun _ => htype, fun he => ?_, fun he => ?_,
    fun he => ?_⟩
  · rw [hmem, List.flatMap_cons, List.flatMap_nil, List.append_nil]
  · refine ⟨inlineExit r (elf.fetch q), List.flatMap_singleton _ _, ?_⟩
    rw [hexits, List.length_append]
  · cases he
  · cases he
  · cases he

theorem length_bodyWords_pos (rewrite : Word → List Word) (hrw : ∀ w, 0 < (rewrite w).length)
    (pc : BitVec 32) (w : Word) : 0 < (bodyWords h rewrite pc w).length := by
  rw [bodyWords]
  split_ifs
  · simp [auipcWords, insertLi]
  · exact hrw w
  · simp

theorem length_relocatedInPlace_pos (w : Word) : 0 < (relocatedInPlace h w).length := by
  simp only [relocatedInPlace, List.length_append, insertLi, List.length_cons]
  omega

/-- The loop of a block; `next` is what the trace does at the target of a jump
that it follows. -/
theorem traceLoop_walk {i : ℕ} (next : TraceState → BitVec 32 → TraceState)
    (hnext : ∀ st pc a, st.elfReader = elf.setProgramCounter pc → a ≠ 0 → 0 < i →
      ∃ ps q e, TraceWalk h r elf i a ps q e ∧ Walked h elf st ps q e (next st a))
    (fuel : ℕ) (st : TraceState) {pc : BitVec 32} (htext : st.elfReader = elf.setProgramCounter pc)
    (hfuel : loopFuel ≤ st.cache.memory.length + fuel) :
    ∃ ps q e, TraceWalk h r elf (i + 1) pc ps q e ∧
      Walked h elf st ps q e (if (traceLoop h r i fuel st).2 = 0 then (traceLoop h r i fuel st).1
        else next (traceLoop h r i fuel st).1 (traceLoop h r i fuel st).2) := by
  induction fuel generalizing st pc with
  | zero =>
      refine ⟨[], pc, .endless, .endless, ?_⟩
      exact (moved_refl st).walked htext (by decide) (fun he => by cases he)
        (fun he => by cases he) (fun _ => hfuel) rfl
  | succ fuel ih =>
      have hword : st.nextInst = elf.fetch pc := by rw [TraceState.nextInst, htext]; rfl
      have hpc : st.pc = pc := by rw [TraceState.pc, htext]; rfl
      rw [traceLoop]
      by_cases h0 : st.nextInst = 0
      · rw [if_pos h0, if_pos rfl]
        refine ⟨[], pc, .exhausted, .exhausted (hword ▸ h0), ?_⟩
        exact (moved_refl st).walked htext (by decide) (fun he => by cases he)
          (fun he => by cases he) (fun he => by cases he) rfl
      · rw [if_neg h0]
        have hstep := traceTurn_cases h r i st
        -- the walk follows the turn: on, out behind a segment, to the target, or out
        generalize hturn : traceTurn h r i st = turn at hstep
        cases hstep with
        | straight hw hends =>
            rw [hword] at h0 hw
            rw [hword, hpc] at hends
            rw [hword, hpc]
            have hpos := @length_bodyWords_pos h _ (@length_relocatedInPlace_pos h) pc (elf.fetch pc)
            have hmoved := moved_advance st (bodyWords h (relocatedInPlace h) pc (elf.fetch pc) ++
              inlineBehind r (elf.fetch pc))
            have htext' : (st.countInst.advance (bodyWords h (relocatedInPlace h) pc
                (elf.fetch pc) ++ inlineBehind r (elf.fetch pc))).elfReader =
                  elf.setProgramCounter (pc + 4) :=
              congrArg ElfReader.incProgramCounter htext
            obtain ⟨ps, q, e, hwalk, hwalked⟩ := ih _ htext' (by
              rw [hmoved.memory, List.length_append, List.length_append]
              omega)
            exact ⟨_, q, e, .straight ⟨h0, hw, hends⟩ hwalk, hwalked.cons hmoved pc⟩
        | segment hw hends after =>
            rw [hword] at h0 hw
            rw [hword, hpc] at hends
            rw [hword, hpc]
            refine ⟨_, pc, .segmented, .segmented h0 hw hends after, ?_⟩
            exact (moved_segment st _ after).walked htext (by decide) (fun _ => rfl)
              (fun he => by cases he) (fun he => by cases he) (List.append_nil _)
        | followed hop hcount =>
            rw [hword] at hop
            rw [hword, hpc]
            by_cases htarget : jumpTarget elf pc = 0
            · rw [if_pos (show pc + (elf.fetch pc).immJ.signExtend 32 = 0 from htarget)]
              refine ⟨_, pc, .lost, .lost hop hcount htarget, ?_⟩
              exact (moved_followed st _).walked htext (by decide) (fun he => by cases he)
                (fun _ => rfl) (fun he => by cases he) (List.append_nil _)
            · rw [if_neg (show pc + (elf.fetch pc).immJ.signExtend 32 ≠ 0 from htarget)]
              obtain ⟨ps, q, e, hwalk, hwalked⟩ := hnext
                ((st.countInst.setType .directBranch).emit (inlineExit r (elf.fetch pc) ++
                  linkWords pc (elf.fetch pc))) pc (jumpTarget elf pc) htext htarget hcount
              exact ⟨_, q, e, .followed hop hcount htarget hwalk,
                hwalked.cons (moved_followed st _) pc⟩
        | stopped hw hstop hst =>
            rw [hword] at hw hstop
            exact ⟨_, pc, .stopped, .stopped hw hstop, hst.walked htext⟩

theorem traceBlocks_walk (h : Host) (r : Rail) (elf : ElfReader) (i : ℕ) (st : TraceState)
    {pc : BitVec 32} (htext : st.elfReader = elf.setProgramCounter pc) (a : BitVec 32)
    (hpc : i = 0 → pc = a) :
    ∃ ps q e, TraceWalk h r elf i a ps q e ∧ Walked h elf st ps q e (traceBlocks h r i st a) := by
  induction i generalizing st pc a with
  | zero =>
      refine ⟨[], a, .empty, .empty, ?_⟩
      exact (moved_refl st).walked (hpc rfl ▸ htext) (by decide) (fun he => by cases he)
        (fun he => by cases he) (fun he => by cases he) rfl
  | succ i ih =>
      have hstart : ({ st with elfReader := st.elfReader.setProgramCounter a } :
          TraceState).elfReader = elf.setProgramCounter a := by rw [htext]; rfl
      obtain ⟨ps, q, e, hwalk, hw⟩ := @traceLoop_walk h r elf i (traceBlocks h r i)
        (fun st pc a htext _ hi => ih st htext a fun h0 => absurd h0 (Nat.pos_iff_ne_zero.mp hi))
        loopFuel { st with elfReader := st.elfReader.setProgramCounter a } a hstart
        (Nat.le_add_left _ _)
      refine ⟨ps, q, e, hwalk, ?_⟩
      have hblocks : traceBlocks h r (i + 1) st a =
          (if (traceLoop h r i loopFuel
              { st with elfReader := st.elfReader.setProgramCounter a }).2 = 0 then
            (traceLoop h r i loopFuel
              { st with elfReader := st.elfReader.setProgramCounter a }).1
          else traceBlocks h r i (traceLoop h r i loopFuel
              { st with elfReader := st.elfReader.setProgramCounter a }).1 (traceLoop h r i loopFuel
                { st with elfReader := st.elfReader.setProgramCounter a }).2) := rfl
      rw [hblocks]
      exact ⟨hw.text, hw.currentBB, hw.memory, hw.blocks, hw.firstAddr, hw.startLocationInCache, hw.startInst,
        hw.exits, hw.stub, hw.type, hw.type_segmented, hw.type_lost, hw.endless⟩

end Walk

/-! ### The trace -/

/-- An address as the translator keeps it, in an `int`. -/
def asInt (a : DWord) : DWord := (a.setWidth 32).signExtend 64

@[simp] theorem setWidth_asInt (a : DWord) : (asInt a).setWidth 32 = a.setWidth 32 :=
  low_ofLow (a.setWidth 32)

theorem asInt_signExtend (pc : BitVec 32) : asInt (pc.signExtend 64) = pc.signExtend 64 :=
  congrArg (BitVec.signExtend 64) (low_ofLow pc)

structure TraceRecord (h : Host) (elf : ElfReader) (a : DWord) (c c' : CodeCache) (q : BitVec 32)
    (e : TraceEnd) (b : RailBasicBlock) : Prop where
  firstAddr : b.firstAddr = asInt a
  startInst : b.startInst = elf.getNextInstruction
  lastAddr : b.lastAddr = q.signExtend 64
  terminalInst : b.terminalInst = elf.fetch q
  type : e = .stopped → b.type = exitType (elf.fetch q)
  type_segmented : e = .segmented → b.type = .segmented
  type_lost : e = .lost → b.type = .directBranch
  startLocationInCache : b.startLocationInCache = c.here h
  endLocationInCache : b.endLocationInCache = c'.here h

/-- `allocateTrace` emits the words of the walk and registers the trace. -/
theorem allocateTrace_walk (h : Host) (r : Rail) (elf : ElfReader) (c : CodeCache) (a : DWord)
    (count : ℕ) : ∃ ps q e,
    TraceWalk h r elf count (a.setWidth 32) ps q e ∧
      (allocateTrace h r elf c a count).1 = elf.setProgramCounter q ∧
      (allocateTrace h r elf c a count).2.memory =
        c.memory ++ (restoreScratch ++ ps.flatMap (·.words)) ∧
      (∀ x, x ≠ asInt a → (allocateTrace h r elf c a count).2.railBasicBlocks x =
        c.railBasicBlocks x) ∧
      (∃ b, (allocateTrace h r elf c a count).2.railBasicBlocks (asInt a) = some b ∧
        TraceRecord h elf a c (allocateTrace h r elf c a count).2 q e b) ∧
      (e ≠ .stopped → (allocateTrace h r elf c a count).2.exits = c.exits) ∧
      (e = .stopped → ∃ k, c.memory.length < k ∧
        StandsAt (allocateTrace h r elf c a count).2.memory k
          (stubWords h (q.signExtend 64) (elf.fetch q)) ∧
        (allocateTrace h r elf c a count).2.exits = Function.update c.exits (q.signExtend 64)
          (some (exitAddress h k (elf.fetch q)))) ∧
      (e = .endless → loopFuel ≤ (allocateTrace h r elf c a count).2.memory.length) ∧
      (allocateTrace h r elf c a count).2.currentBB = (asInt a).setWidth 32 := by
  have htext : (allocateTraceStart h elf c a).elfReader =
      elf.setProgramCounter (a.setWidth 32) := rfl
  obtain ⟨ps, q, e, hwalk, hw⟩ := traceBlocks_walk h r elf count (allocateTraceStart h elf c a)
    htext (a.setWidth 32) fun _ => rfl
  have hfirst : (allocateTraceStart h elf c a).railBB.firstAddr = asInt a := rfl
  refine ⟨ps, q, e, hwalk, ?_⟩
  rw [allocateTrace]
  -- only the record is left to complete behind the loop
  generalize traceBlocks h r count (allocateTraceStart h elf c a) (a.setWidth 32) = st' at *
  have hkey : st'.railBB.firstAddr = asInt a := hw.firstAddr.trans hfirst
  refine ⟨hw.text, ?_, fun x hx => ?_, ?_, hw.exits, fun he => ?_, hw.endless, hw.currentBB⟩
  · exact hw.memory.trans (List.append_assoc _ _ _)
  · refine (Function.update_of_ne ?_ _ _).trans (hw.blocks x ?_)
    · rwa [← hkey] at hx
    · rwa [← hfirst] at hx
  · refine ⟨(allocateTraceEnd h st').railBB, ?_, hkey, hw.startInst, ?_, ?_, hw.type,
      hw.type_segmented, hw.type_lost, hw.startLocationInCache, rfl⟩
    · rw [← hkey]
      exact Function.update_self st'.railBB.firstAddr _ st'.cache.railBasicBlocks
    · show st'.elfReader.pc = _
      rw [hw.text]
      rfl
    · show st'.elfReader.getNextInstruction = _
      rw [hw.text]
      rfl
  · obtain ⟨front, hps, hex⟩ := hw.stub he
    refine ⟨_, ?_, ⟨(allocateTraceStart h elf c a).cache.memory ++ front,
      wordsBehind (elf.fetch q), List.length_append, ?_⟩, hex⟩
    · show c.memory.length < (c.memory ++ restoreScratch).length + front.length
      rw [List.length_append, restoreScratch, List.length_singleton]
      omega
    · show st'.cache.memory = _
      rw [hw.memory, hps, List.append_assoc]

/-- A trace that ends with an exit stub: the exit is recorded where its words
stand. -/
theorem allocateTrace_stopped {h : Host} {r : Rail} (hr : r.NoCallbacks) {elf : ElfReader}
    {c : CodeCache} {a : DWord} {count : ℕ} {ps : List Piece} {q : BitVec 32}
    (hwalk : TraceWalk h r elf count (a.setWidth 32) ps q .stopped)
    (hfinite : (allocateTrace h r elf c a count).2.memory.length < loopFuel) :
    ∃ front : List Word, ps.flatMap (·.words) = front ++
        (stubWords h (q.signExtend 64) (elf.fetch q) ++ wordsBehind (elf.fetch q)) ∧
      (allocateTrace h r elf c a count).2.exits = Function.update c.exits (q.signExtend 64)
        (some (exitAddress h (c.memory.length + 1 + front.length) (elf.fetch q))) := by
  obtain ⟨ps', q', e', hwalk', hw⟩ := traceBlocks_walk h r elf count
    (allocateTraceStart h elf c a) rfl (a.setWidth 32) fun _ => rfl
  have hfinite' : e' ≠ .endless := fun he => absurd (hw.endless he) (Nat.not_le.mpr hfinite)
  obtain ⟨rfl, rfl, rfl⟩ := hwalk.unique hr hwalk' TraceEnd.noConfusion hfinite'
  obtain ⟨front, hps, hex⟩ := hw.stub rfl
  refine ⟨front, hps, hex.trans ?_⟩
  have hlen : (allocateTraceStart h elf c a).cache.memory.length = c.memory.length + 1 :=
    List.length_append
  rw [hlen]
  rfl

/-- A block that is found behind `allocateTrace` was there before or is the trace. -/
theorem allocateTrace_record {h : Host} {r : Rail} {elf : ElfReader} {c : CodeCache} {a x : DWord}
    {count : ℕ} {b : RailBasicBlock}
    (hb : (allocateTrace h r elf c a count).2.railBasicBlocks x = some b) :
    c.railBasicBlocks x = some b ∨ x = asInt a ∧ ∃ ps q e,
      TraceWalk h r elf count (a.setWidth 32) ps q e ∧
        TraceRecord h elf a c (allocateTrace h r elf c a count).2 q e b ∧
        (e = .endless → loopFuel ≤ (allocateTrace h r elf c a count).2.memory.length) := by
  obtain ⟨ps, q, e, hwalk, -, -, hblocks, ⟨b', hb', hrec⟩, -, -, hendless, -⟩ :=
    allocateTrace_walk h r elf c a count
  by_cases hx : x = asInt a
  · subst hx
    obtain rfl := Option.some.inj (hb'.symm.trans hb)
    exact .inr ⟨rfl, ps, q, e, hwalk, hrec, hendless⟩
  · rw [hblocks x hx] at hb
    exact .inl hb

/-- What `allocateTrace` does to the cache `c` of a guest `elf`. -/
structure TraceAdded (h : Host) (elf : ElfReader) (a : DWord) (c c' : CodeCache) : Prop where
  memory : c.memory <+: c'.memory
  blocks : ∀ x, x ≠ asInt a → c'.railBasicBlocks x = c.railBasicBlocks x
  record : ∃ b, c'.railBasicBlocks (asInt a) = some b ∧ b.firstAddr = asInt a ∧
    b.startLocationInCache = c.here h ∧ b.endLocationInCache = c'.here h
  exits : c'.exits = c.exits ∨ ∃ (k : ℕ) (pc : BitVec 32), c.memory.length < k ∧
    IsTerminal (elf.fetch pc) ∧
    StandsAt c'.memory k (stubWords h (pc.signExtend 64) (elf.fetch pc)) ∧
    c'.exits = Function.update c.exits (pc.signExtend 64)
      (some (exitAddress h k (elf.fetch pc)))

theorem TraceWalk.isTerminal {h : Host} {r : Rail} {elf : ElfReader} {i : ℕ} {pc q : BitVec 32}
    {ps : List Piece} {e : TraceEnd} (hwalk : TraceWalk h r elf i pc ps q e) (he : e = .stopped) :
    IsTerminal (elf.fetch q) := by
  induction hwalk with
  | straight _ _ ih => exact ih he
  | followed _ _ _ _ ih => exact ih he
  | stopped hw _ => exact hw
  | lost | segmented | exhausted | endless | empty => cases he

theorem allocateTrace_spec (h : Host) (r : Rail) (elf : ElfReader) (c : CodeCache) (a : DWord)
    (count : ℕ) :
    (∃ pc, (allocateTrace h r elf c a count).1 = elf.setProgramCounter pc) ∧
      TraceAdded h elf a c (allocateTrace h r elf c a count).2 := by
  obtain ⟨ps, q, e, hwalk, htext, hmem, hblocks, ⟨b, hb, hrec⟩, hexits, hstub, -⟩ :=
    allocateTrace_walk h r elf c a count
  refine ⟨⟨q, htext⟩, ⟨_, hmem.symm⟩, hblocks, ⟨b, hb, hrec.firstAddr, hrec.startLocationInCache,
    hrec.endLocationInCache⟩, ?_⟩
  by_cases he : e = .stopped
  · obtain ⟨k, hk, hstands, hex⟩ := hstub he
    exact .inr ⟨k, q, hk, hwalk.isTerminal he, hstands, hex⟩
  · exact .inl (hexits he)

end RailTranslator
