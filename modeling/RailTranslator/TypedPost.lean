import RailTranslator.Instrumentation

/-!
One typed POST routine, without traces.

The allocator decides where a block ends by the opcode, the dispatcher decides
by the decoded type whether to call the routine. Over whole runs the routine
is called for just the instructions of its type in the blocks that have been
left.
-/

namespace RailTranslator

open Rv64 Transition

/-- The types by which a POST routine may be registered, but for system
instructions and those the decoder calls `R_TYPE`. -/
def postTypes : List InstType := [.iType, .sType, .uType, .bType, .jType, .memAccessType]

/-- The routine `f` for one type of instructions, and nothing else. -/
def typedPost (T : InstType) (f : ℕ) : Rail := (Rail.plain false).addInstrumentInstType T f .post

/-- The instruction has the type, or is an access if that is what is asked
for. -/
def Matches (T : InstType) (inst : RvInst) : Bool :=
  inst.type = T ∨ T = .memAccessType ∧ (inst.opcode = Op.load ∨ inst.opcode = Op.store)

def expectedCalls (h : Host) (elf : ElfReader) (T : InstType) (f : ℕ)
    (l : List (Dispatcher × Event)) : List Call :=
  ((l.flatMap (exitedInsts h elf)).filter (Matches T)).map (.inst f)

section

variable {h : Host} {cb : Callbacks} {elf : ElfReader} {cfgGenerator : Option CfgGenerator}
  {ok : Dispatcher → Event → Prop} {l : List (Dispatcher × Event)} {d : Dispatcher} {T : InstType}
  {f : ℕ}

/-! ### What is registered -/

theorem typedPost_other {t : InstType} (ht : t ≠ T) :
    (typedPost T f).instructionRoutinesTypedPost t = [] :=
  Function.update_of_ne ht _ _

theorem typedPost_self :
    (typedPost T f).instructionRoutinesTypedPost T = [InstRoutine.unbounded f] :=
  Function.update_self T _ _

/-- Blocks end where the list of types contains the registered one. -/
theorem postInstrumented_typedPost (pc : BitVec 32) (types : List InstType) :
    postInstrumented (typedPost T f) pc types = decide (T ∈ types) := by
  have hbounds := (Rail.defaultBounds_addInstrumentInstType (r := Rail.plain false) T f
    .post).shouldInstrument pc
  have hany : (types.any fun t => !((typedPost T f).instructionRoutinesTypedPost t).isEmpty) =
      decide (T ∈ types) := by
    rw [Bool.eq_iff_iff, List.any_eq_true, decide_eq_true_eq]
    constructor
    · rintro ⟨t, ht, hsome⟩
      by_cases heq : t = T
      · exact heq ▸ ht
      · rw [typedPost_other heq] at hsome
        cases hsome
    · intro hT
      refine ⟨T, hT, ?_⟩
      rw [typedPost_self]
      rfl
  rw [postInstrumented, hany, typedPost, hbounds, Bool.and_true]
  rfl

theorem not_pre_typedPost (pc : BitVec 32) (w : Word) :
    preInstrumented (typedPost T f) pc w = false := rfl

/-! ### Both decisions -/

theorem InBlock.not_matches (hT : T ∈ postTypes) {pc : BitVec 32}
    (hin : InBlock (typedPost T f) elf pc) : Matches T (guestInst h elf pc) = false := by
  have htype : (guestInst h elf pc).type = getType (opcodeOf (elf.fetch pc)) :=
    type_decodeInstruction _ _
  have haccess : ((guestInst h elf pc).opcode = Op.load ∨ (guestInst h elf pc).opcode = Op.store) ↔
      (opcodeOf (elf.fetch pc) = Op.load ∨ opcodeOf (elf.fetch pc) = Op.store) :=
    access_decodeInstruction _ _
  have hends := hin.not_segmented
  have hw := hin.not_terminal
  rw [isTerminal_iff, not_or, not_or, not_or] at hw
  simp only [segmentsBB, postInstrumented_typedPost] at hends
  rw [Matches, decide_eq_false_iff_not, htype, haccess]
  generalize opcodeOf (elf.fetch pc) = opcode at *
  -- the three paths on which the allocator asks for routines
  by_cases hauipc : opcode = Op.auipc
  · subst hauipc
    have hT : T ≠ .uType := by simpa using hends
    rintro (h' | ⟨-, h' | h'⟩)
    · exact hT h'.symm
    · exact absurd h' (by decide)
    · exact absurd h' (by decide)
  · rw [if_neg hauipc] at hends
    by_cases hmem : opcode = Op.store ∨ opcode = Op.load
    · rw [if_pos hmem] at hends
      have hT : T ≠ .memAccessType ∧ T ≠ .iType ∧ T ≠ .sType := by simpa using hends
      rintro (h' | ⟨h', -⟩)
      · rcases hmem with rfl | rfl
        · exact hT.2.2 h'.symm
        · exact hT.2.1 h'.symm
      · exact hT.1 h'
    · rw [if_neg hmem] at hends
      rintro (h' | ⟨-, h'⟩)
      · by_cases hamo : opcode = Op.amo
        · -- an atomic is decoded as `R_TYPE`, by which no routine is registered here
          subst hamo
          rw [← h'] at hT
          exact absurd hT (by decide)
        · rw [if_neg hamo] at hends
          rw [h'] at hends
          simp at hends
      · exact hmem h'.symm

/-- The instructions of a block are of the type, except perhaps the last one,
if it is not. -/
theorem BlockWalk.filter_matches (hT : T ∈ postTypes) {a q : BitVec 32} {ps : List Piece}
    {e : BlockEnd} (hwalk : BlockWalk h (typedPost T f) elf a ps q e)
    (he : e = .stopped ∨ e = .segmented) :
    ((ps.map (·.pc)).map (guestInst h elf)).filter (Matches T) =
      [guestInst h elf q].filter (Matches T) := by
  induction hwalk with
  | straight hin _ ih =>
      rw [List.map_cons, List.map_cons, List.filter_cons_of_neg, ih he]
      rw [hin.not_matches hT]
      exact Bool.false_ne_true
  | stopped | segmented => rfl
  | pre | exhausted | endless => rcases he with he | he <;> cases he

theorem calls_typedPost (hT : T ∈ postTypes) {current : RailBasicBlock} {inst : RvInst}
    (hcovers : (InstRoutine.unbounded f).covers current.lastAddr = true)
    (htype : inst.type ≠ .memAccessType) (type : BasicBlockType) :
    systemCalls (typedPost T f) ⟨inst, type⟩ ++ postCalls (typedPost T f) current inst =
      ([inst].filter (Matches T)).map (.inst f) := by
  have hsystem : T ≠ .systemType := by
    rintro rfl
    exact absurd hT (by decide)
  have hsyscalls : systemCalls (typedPost T f) ⟨inst, type⟩ = [] := by
    rw [systemCalls, typedPost_other hsystem.symm]
    split <;> rfl
  have hcall : instCalls (·.covers current.lastAddr) inst
      ((typedPost T f).instructionRoutinesTypedPost T) = [.inst f inst] := by
    rw [typedPost_self, instCalls, List.filter_cons, if_pos hcovers]
    rfl
  have hnone {t : InstType} (ht : t ≠ T) : instCalls (·.covers current.lastAddr) inst
      ((typedPost T f).instructionRoutinesTypedPost t) = [] := by
    rw [typedPost_other ht]
    rfl
  have hflag : (typedPost T f).postInstrumentationRoutines = true := rfl
  have hpost : postCalls (typedPost T f) current inst =
      instCalls (·.covers current.lastAddr) inst
          ((typedPost T f).instructionRoutinesTypedPost inst.type) ++
        if inst.opcode = Op.load ∨ inst.opcode = Op.store then
          instCalls (·.covers current.lastAddr) inst
            ((typedPost T f).instructionRoutinesTypedPost .memAccessType)
        else [] := by
    rw [postCalls, if_pos hflag]
    split <;> rfl
  rw [hsyscalls, hpost, List.nil_append, List.filter_cons]
  -- a memory access routine is in the second list, any other one in the first
  by_cases hmem : T = .memAccessType
  · have hne : inst.type ≠ T := hmem ▸ htype
    rw [hnone hne, ← hmem, hcall, List.nil_append]
    by_cases haccess : inst.opcode = Op.load ∨ inst.opcode = Op.store
    · have hmatch : Matches T inst = true := decide_eq_true (.inr ⟨hmem, haccess⟩)
      rw [if_pos haccess, if_pos hmatch]
      rfl
    · have hmatch : ¬ Matches T inst = true := by
        rw [Matches, decide_eq_true_eq]
        exact not_or.mpr ⟨hne, fun hboth => haccess hboth.2⟩
      rw [if_neg haccess, if_neg hmatch]
      rfl
  · rw [hnone (Ne.symm hmem), ite_self, List.append_nil]
    by_cases heq : inst.type = T
    · have hmatch : Matches T inst = true := decide_eq_true (.inl heq)
      rw [heq, hcall, if_pos hmatch]
      rfl
    · have hmatch : ¬ Matches T inst = true := by
        rw [Matches, decide_eq_true_eq]
        exact not_or.mpr ⟨heq, fun hboth => hmem hboth.1⟩
      rw [hnone heq, if_neg hmatch]
      rfl

/-! ### Runs -/

/-- The calls a call of `stub` makes when it has left the current block. -/
theorem calls_left (hT : T ∈ postTypes) (hrange : elf.InRange)
    (hrun : Run (dispatch h (typedPost T f) cb elf cfgGenerator) ok l d)
    {io : IoRequest → DWord} {g : TrapFrame} {taken a : DWord} {s : Successor}
    (hs : d.leave h (typedPost T f) cb io g taken a = .returned s) :
    systemCalls (typedPost T f) (d.left h a) ++
        postCalls (typedPost T f) s.current (d.left h a).inst =
      ((exitedInsts h elf (d, .call io g taken a)).filter (Matches T)).map (.inst f) := by
  have hleft := @left_of_exits h d (exits_run rfl hrun) a
  have hcur : s.current = { d.current with takenBlock := s.current.takenBlock } :=
    successor_current hs
  rw [hleft]
  rcases current_guestBlock (h := h) rfl hrun with hempty | hblock
  · -- the word of an empty record is decoded as an unknown instruction
    have hmatch : Matches T (finalInst h .empty) = false := by
      have htype : (finalInst h .empty).type = .rType := type_decodeInstruction _ _
      have hop : ¬ ((finalInst h .empty).opcode = Op.load ∨
          (finalInst h .empty).opcode = Op.store) := by
        rw [finalInst, access_decodeInstruction]
        decide
      rw [Matches, htype, decide_eq_false_iff_not]
      rintro (rfl | ⟨-, haccess⟩)
      · exact absurd hT (by decide)
      · exact hop haccess
    have hcovers : (InstRoutine.unbounded f).covers s.current.lastAddr = true := by
      rw [hcur, hempty]
      rfl
    rw [hempty, calls_typedPost hT hcovers, exitedInsts, if_pos hempty, List.filter_cons, hmatch]
    · rfl
    · rw [finalInst, type_decodeInstruction]
      exact getType_ne_memAccessType _
  · obtain ⟨x, q, ps, e, hwalk, he, hdesc⟩ := hblock.of_not_pre fun pc => not_pre_typedPost pc _
    have hne : d.current ≠ .empty := by
      intro hempty
      have hstart := hdesc.terminalInst
      rw [hempty] at hstart
      exact hwalk.fetch_end he hstart.symm
    -- the routines see the instruction at which the walk of the block ends
    have hfinal : finalInst h d.current = guestInst h elf q := by
      have hlow : d.current.lastAddr.setWidth 32 = q := by
        rw [hdesc.lastAddr]
        exact low_ofLow q
      rw [finalInst, hdesc.terminalInst, hlow]
      rfl
    have hcovers : (InstRoutine.unbounded f).covers s.current.lastAddr = true := by
      have hlast : s.current.lastAddr = q.signExtend 64 := by
        rw [hcur]
        exact hdesc.lastAddr
      rw [hlast]
      exact InstRoutine.covers_unbounded f (hrange q (hwalk.fetch_end he))
    rw [hfinal, calls_typedPost hT hcovers, exitedInsts, if_neg hne,
      hdesc.covered hrange hwalk he, hwalk.filter_matches hT he]
    rw [guestInst, type_decodeInstruction]
    exact getType_ne_memAccessType _

/-- In every run the routine has been called for the instructions of its type
in the blocks that have been left, in their order, each as often as its block
has been left; and so it has when a call of `stub` ends the process without an
exit system call. -/
theorem typedPost_complete (hT : T ∈ postTypes) (hrange : elf.InRange)
    (hrun : Run (dispatch h (typedPost T f) cb elf cfgGenerator) Any l d) :
    d.calls = expectedCalls h elf T f l ∧
      ∀ io g taken a d' s, d.leave h (typedPost T f) cb io g taken a = .returned s →
        stub h (typedPost T f) cb io d g taken a = .exited d' →
          d'.calls = expectedCalls h elf T f (l ++ [(d, .call io g taken a)]) := by
  have hsnoc (l : List (Dispatcher × Event)) (p : Dispatcher × Event) :
      expectedCalls h elf T f (l ++ [p]) = expectedCalls h elf T f l ++
        ((exitedInsts h elf p).filter (Matches T)).map (.inst f) := by
    rw [expectedCalls, List.flatMap_append, List.flatMap_singleton, List.filter_append,
      List.map_append]
    rfl
  have hcalls : d.calls = expectedCalls h elf T f l := by
    induction hrun with
    | start hs =>
        obtain ⟨g, rfl⟩ := hs
        obtain ⟨next, -, hinit⟩ := @init_dispatcher h (typedPost T f) cb elf g cfgGenerator
        rw [hinit]
        rfl
    | @next l d d' e hrun _ hstep ih =>
        rw [hsnoc, ← ih]
        cases e with
        | instrument g =>
            obtain rfl := Option.some.inj hstep
            rw [instrument_dispatcher, instrumentCalls]
            split <;> rfl
        | call io g taken a =>
            obtain ⟨res, hstub, rfl⟩ := Option.map_eq_some_iff.mp hstep
            obtain ⟨s, next, hst⟩ := stub_step (StubOutcome.eq_returned hstub)
            have hpre : preCalls h (typedPost T f) false next = [] := rfl
            rw [hst.calls, calls_left hT hrange hrun hst.leave, hpre, List.append_nil]
  refine ⟨hcalls, fun io g taken a d' s hs hexit => ?_⟩
  rcases stub_exited hexit with hleave | ⟨s', d₁, hleave, rfl, hcalls₁⟩
  · rw [hs] at hleave
    cases hleave
  · rw [calls_exitBinary rfl, hcalls₁, calls_left hT hrange hrun hleave, hcalls, hsnoc]

/-- `nop; beq x0, x0, 8` at the entry, and another branch at the target. -/
def countedText : ElfReader :=
  .ofWords 0x10000 [0x00000013, 0x00000463, 0x00000013, 0x00000463, 0x00000013]

theorem countedText_inRange : countedText.InRange := inRange_ofWords (by decide) (by decide)

theorem countedText_complete : ∃ l d,
    Run (dispatch requestedHost (typedPost .bType 7) idleCallbacks countedText none) Any l d ∧
      d.calls = expectedCalls requestedHost countedText .bType 7 l ∧
      d.calls = [.inst 7 (guestInst requestedHost countedText 0x10004)] := by
  have hstep : ((dispatch requestedHost (typedPost .bType 7) idleCallbacks countedText none).step
      (started (typedPost .bType 7) countedText) (leaving 1 0)).isSome = true := by
    decide +kernel
  obtain ⟨d, hd⟩ := Option.isSome_iff_exists.mp hstep
  have hrun := (run_started (typedPost .bType 7) countedText Any).next trivial hd
  have hcalls := (typedPost_complete (by decide) countedText_inRange hrun).1
  refine ⟨_, d, hrun, hcalls, ?_⟩
  have hexpected : (exitedInsts requestedHost countedText
      (started (typedPost .bType 7) countedText, leaving 1 0)).filter (Matches .bType) =
        [guestInst requestedHost countedText 0x10004] := by
    decide +kernel
  rw [hcalls, expectedCalls, List.nil_append, List.flatMap_singleton, hexpected]
  rfl

end

end RailTranslator
