import RailTranslator.Instrumentation

/-!
Single stepping: a routine for all instructions, without traces.

Every path of the translation loop ends the block at an instrumented
instruction but that of the atomics, which goes on. So a block covers one
instruction unless it begins with an atomic, and in the runs that leave no
block with an atomic at its head the routine is called once for every
instruction. The system call by which the process ends is the exception: the
POST routines are behind it.
-/

namespace RailTranslator

open Rv64 Transition

/-- A routine for all instructions is registered, with default bounds and no
typed PRE routine. -/
structure Rail.Steps (r : Rail) : Prop where
  routine : r.instructionRoutinesPre ≠ [] ∨ r.instructionRoutinesPost ≠ []
  bounds : r.DefaultBounds
  typedPre : ∀ t, r.instructionRoutinesTypedPre t = []

def instCallsOf (n : ℕ) (calls : List Call) : List RvInst :=
  calls.filterMap fun
    | .inst func inst => if func = n then some inst else none
    | _ => none

def RegisteredOnce (n : ℕ) (routines : List InstRoutine) : Prop :=
  routines.filter (·.func = n) = [.unbounded n]

def NotRegistered (n : ℕ) (routines : List InstRoutine) : Prop :=
  routines.filter (·.func = n) = []

structure Rail.StepsPost (r : Rail) (n : ℕ) : Prop where
  flag : r.postInstrumentationRoutines = true
  post : RegisteredOnce n r.instructionRoutinesPost
  pre : NotRegistered n r.instructionRoutinesPre
  typed : ∀ t, NotRegistered n (r.instructionRoutinesTypedPost t)

structure Rail.StepsPre (r : Rail) (n : ℕ) : Prop where
  flag : r.preInstrumentationRoutines = true
  pre : RegisteredOnce n r.instructionRoutinesPre
  post : NotRegistered n r.instructionRoutinesPost
  typed : ∀ t, NotRegistered n (r.instructionRoutinesTypedPost t)

def LeavesNoAtomic (d : Dispatcher) : Event → Prop
  | .call _ _ _ _ => d.current ≠ .empty ∧ opcodeOf d.current.startInst ≠ Op.amo
  | .instrument _ => True

/-- The block that is left ends with a system call that ends the process. -/
def LeavesForGood (d : Dispatcher) (f : TrapFrame) : Prop :=
  d.current.type = .syscall ∧ (f 17 = SystemCall.exit ∨ f 17 = SystemCall.exitGroup)

instance (d : Dispatcher) (f : TrapFrame) : Decidable (LeavesForGood d f) := by
  unfold LeavesForGood
  infer_instance

section

variable {h : Host} {r : Rail} {cb : Callbacks} {elf : ElfReader}
  {cfgGenerator : Option CfgGenerator} {ok : Dispatcher → Event → Prop}
  {l : List (Dispatcher × Event)} {d : Dispatcher} {b : RailBasicBlock} {a q : BitVec 32}
  {ps : List Piece} {e : BlockEnd} {n : ℕ}

/-! ### Blocks -/

theorem Rail.Steps.postInstrumented (hr : r.Steps) (pc : BitVec 32) (types : List InstType) :
    postInstrumented r pc types = true := by
  have hsome : (!r.instructionRoutinesPre.isEmpty || !r.instructionRoutinesPost.isEmpty) = true := by
    rcases hr.routine with hne | hne
    · rw [← List.isEmpty_eq_false_iff] at hne
      rw [hne]
      rfl
    · rw [← List.isEmpty_eq_false_iff] at hne
      rw [hne, Bool.not_false, Bool.or_true]
  rw [RailTranslator.postInstrumented, hsome, hr.bounds.shouldInstrument]
  rfl

theorem Rail.Steps.preInstrumented (hr : r.Steps) (pc : BitVec 32) (w : Word) :
    preInstrumented r pc w = false := by
  simp [RailTranslator.preInstrumented, hr.typedPre]

theorem Rail.Steps.inBlock (hr : r.Steps) {pc : BitVec 32} (hin : InBlock r elf pc) :
    opcodeOf (elf.fetch pc) = Op.amo := by
  have hends := hin.not_segmented
  simp only [segmentsBB, hr.postInstrumented] at hends
  by_contra hamo
  split_ifs at hends

theorem isTerminal_ne_amo {w : Word} (hw : IsTerminal w) : opcodeOf w ≠ Op.amo := by
  rw [isTerminal_iff] at hw
  rcases hw with hop | hop | hop | hop <;> rw [hop] <;> decide

theorem segmentsBB_ne_amo {pc : BitVec 32} {w : Word} (hends : segmentsBB r pc w = true) :
    opcodeOf w ≠ Op.amo := by
  intro hamo
  have hauipc : Op.amo ≠ Op.auipc := by decide
  have haccess : ¬ (Op.amo = Op.store ∨ Op.amo = Op.load) := by decide
  rw [segmentsBB, hamo, if_neg hauipc, if_neg haccess, if_pos rfl] at hends
  cases hends

theorem BlockWalk.single (hr : r.Steps) (hwalk : BlockWalk h r elf a ps q e)
    (he : e = .stopped ∨ e = .segmented) :
    opcodeOf (elf.fetch a) ≠ Op.amo ∧ q = a ∧ ps.length = 1 ∨
      opcodeOf (elf.fetch a) = Op.amo ∧ 2 ≤ ps.length := by
  cases hwalk with
  | straight hin hrest =>
      have hpos := List.length_pos_iff.mpr (hrest.ne_nil he)
      refine .inr ⟨hr.inBlock hin, ?_⟩
      rw [List.length_cons]
      omega
  | stopped _ hw => exact .inl ⟨isTerminal_ne_amo hw, rfl, rfl⟩
  | segmented _ _ _ hends => exact .inl ⟨segmentsBB_ne_amo hends, rfl, rfl⟩
  | pre | exhausted | endless => rcases he with he | he <;> cases he

theorem length_exitWords_pos (h : Host) (w : Word) : 0 < (exitWords h w).length := by
  rw [exitWords]
  split_ifs <;> simp [branchExits, exitTo, inlineSave]

theorem BlockWalk.length_le (hwalk : BlockWalk h r elf a ps q e) :
    ps.length ≤ (ps.flatMap (·.words)).length := by
  induction hwalk with
  | @straight pc q ps e hin _ ih =>
      have hpos : 0 < (Piece.mk pc (bbWords h pc (elf.fetch pc))).words.length :=
        length_bbWords_pos pc _
      rw [List.flatMap_cons, List.length_append, List.length_cons]
      omega
  | stopped _ hw =>
      rw [List.flatMap_singleton]
      exact length_exitWords_pos h _
  | segmented =>
      rw [List.flatMap_singleton, List.length_append]
      exact Nat.lt_add_right _ (length_bbWords_pos _ _)
  | pre | exhausted | endless => exact Nat.zero_le _

/-- Of a list that has been filtered, one value for each element with a property. -/
theorem filterMap_filter {α β : Type} (p : α → Bool) (has : α → Prop) [DecidablePred has] (y : β)
    (xs : List α) : (xs.filter p).filterMap (fun x => if has x then some y else none) =
      ((xs.filter (has ·)).filter p).map fun _ => y := by
  induction xs with
  | nil => rfl
  | cons x xs ih =>
      rw [List.filter_cons, List.filter_cons]
      by_cases hp : p x = true
      · rw [if_pos hp]
        by_cases hhas : has x
        · rw [if_pos (decide_eq_true hhas), List.filter_cons, if_pos hp, List.map_cons, ← ih]
          exact List.filterMap_cons_some (if_pos hhas)
        · rw [if_neg (by simpa using hhas), ← ih]
          exact List.filterMap_cons_none (if_neg hhas)
      · rw [if_neg hp]
        by_cases hhas : has x
        · rw [if_pos (decide_eq_true hhas), List.filter_cons, if_neg hp, ih]
        · rw [if_neg (by simpa using hhas), ih]

theorem instCallsOf_append (n : ℕ) (calls calls' : List Call) :
    instCallsOf n (calls ++ calls') = instCallsOf n calls ++ instCallsOf n calls' :=
  List.filterMap_append

theorem instCallsOf_instCalls (n : ℕ) (p : InstRoutine → Bool) (inst : RvInst)
    (routines : List InstRoutine) : instCallsOf n (instCalls p inst routines) =
      ((routines.filter (·.func = n)).filter p).map fun _ => inst := by
  rw [instCallsOf, instCalls, List.filterMap_map]
  exact filterMap_filter p (fun routine => routine.func = n) inst routines

theorem instCallsOf_bbCalls (n : ℕ) (p : BBRoutine → Bool) (b : RailBasicBlock)
    (routines : List BBRoutine) : instCallsOf n (bbCalls p b routines) = [] := by
  rw [bbCalls]
  induction routines.filter p with
  | nil => rfl
  | cons routine routines ih => exact ih

theorem NotRegistered.calls {routines : List InstRoutine} (hn : NotRegistered n routines)
    (p : InstRoutine → Bool) (inst : RvInst) : instCallsOf n (instCalls p inst routines) = [] := by
  rw [instCallsOf_instCalls, hn]
  rfl

theorem RegisteredOnce.calls {routines : List InstRoutine} (hn : RegisteredOnce n routines)
    {p : InstRoutine → Bool} (hp : p (.unbounded n) = true) (inst : RvInst) :
    instCallsOf n (instCalls p inst routines) = [inst] := by
  rw [instCallsOf_instCalls, hn, List.filter_cons, if_pos hp]
  rfl

theorem Rail.Steps.systemCalls (hr : r.Steps)
    (hn : ∀ t, NotRegistered n (r.instructionRoutinesTypedPost t)) (last : LastInst) :
    instCallsOf n (systemCalls r last) = [] := by
  rw [RailTranslator.systemCalls]
  split
  · rw [hr.typedPre, instCallsOf_append, (hn _).calls]
    rfl
  · rfl

theorem NotRegistered.preCalls (hn : NotRegistered n r.instructionRoutinesPre) (bounded : Bool)
    (next : RailBasicBlock) : instCallsOf n (preCalls h r bounded next) = [] := by
  rw [RailTranslator.preCalls]
  split
  · split_ifs <;> simp only [instCallsOf_append, instCallsOf_bbCalls, hn.calls] <;> rfl
  · rfl

/-- A POST routine is called once, for the instruction that has been left. -/
theorem Rail.StepsPost.calls_leave (hr : r.Steps) (hn : r.StepsPost n) {current : RailBasicBlock}
    {last : LastInst} (hcovers : (InstRoutine.unbounded n).covers current.lastAddr = true) :
    instCallsOf n (RailTranslator.systemCalls r last ++ postCalls r current last.inst) =
      [last.inst] := by
  have hpost : instCallsOf n (postCalls r current last.inst) = [last.inst] := by
    rw [postCalls, if_pos hn.flag]
    split_ifs <;> simp only [instCallsOf_append, instCallsOf_bbCalls, (hn.typed _).calls,
      @RegisteredOnce.calls n _ hn.post (·.covers current.lastAddr) hcovers] <;> rfl
  rw [instCallsOf_append, hr.systemCalls hn.typed, hpost]
  rfl

theorem Rail.StepsPost.calls (hr : r.Steps) (hn : r.StepsPost n) {current next : RailBasicBlock}
    {last : LastInst} (hcovers : (InstRoutine.unbounded n).covers current.lastAddr = true) :
    instCallsOf n (systemCalls r last ++ postCalls r current last.inst ++
      preCalls h r false next) = [last.inst] := by
  rw [instCallsOf_append, hn.calls_leave hr hcovers, hn.pre.preCalls]
  rfl

/-- A PRE routine is called once, for the first instruction of the block that
is entered. -/
theorem Rail.StepsPre.calls_enter (hn : r.StepsPre n) {next : RailBasicBlock} (bounded : Bool)
    (hcovers : (InstRoutine.unbounded n).covers next.firstAddr = true) :
    instCallsOf n (preCalls h r bounded next) = [firstInst h next] := by
  rw [preCalls, if_pos hn.flag]
  split_ifs <;> simp only [instCallsOf_append, instCallsOf_bbCalls,
    @RegisteredOnce.calls n _ hn.pre (·.covers next.firstAddr) hcovers] <;> rfl

theorem Rail.StepsPre.calls_leave (hr : r.Steps) (hn : r.StepsPre n) {current : RailBasicBlock}
    {last : LastInst} :
    instCallsOf n (systemCalls r last ++ postCalls r current last.inst) = [] := by
  have hpost : instCallsOf n (postCalls r current last.inst) = [] := by
    rw [postCalls]
    split
    · split_ifs <;> simp only [instCallsOf_append, instCallsOf_bbCalls, (hn.typed _).calls,
        hn.post.calls] <;> rfl
    · rfl
  rw [instCallsOf_append, hr.systemCalls hn.typed, hpost]
  rfl

/-! ### Runs -/

theorem exited_single (hr : r.Steps) (hlink : r.traceLinkingEnabled = false)
    (hrange : elf.InRange) (hrun : Run (dispatch h r cb elf cfgGenerator) ok l d)
    {io : IoRequest → DWord} {g : TrapFrame} {taken a : DWord}
    (hok : LeavesNoAtomic d (.call io g taken a)) :
    exitedInsts h elf (d, .call io g taken a) = [finalInst h d.current] ∧
      finalInst h d.current = firstInst h d.current ∧
      (InstRoutine.unbounded n).covers d.current.lastAddr = true := by
  obtain ⟨hne, hamo⟩ := hok
  have hblock := (current_guestBlock (h := h) hlink hrun).resolve_left hne
  obtain ⟨x, q, ps, e, hwalk, he, hdesc⟩ := hblock.of_not_pre fun pc => hr.preInstrumented pc _
  rw [hdesc.startInst] at hamo
  obtain ⟨-, rfl, hlen⟩ := (hwalk.single hr he).resolve_right fun hboth => hamo hboth.1
  have hfirst : d.current.firstAddr.setWidth 32 = q := by
    rw [hdesc.firstAddr]
    exact low_ofLow q
  have hlast : d.current.lastAddr.setWidth 32 = q := by
    rw [hdesc.lastAddr]
    exact low_ofLow q
  refine ⟨?_, ?_, ?_⟩
  · rw [exitedInsts, if_neg hne, hdesc.covered hrange hwalk he, hwalk.pcs, hlen, finalInst,
      hdesc.terminalInst, hlast]
    rfl
  · rw [finalInst, firstInst, hdesc.terminalInst, hdesc.startInst, hlast, hfirst]
  · rw [hdesc.lastAddr]
    exact InstRoutine.covers_unbounded n (hrange q (hwalk.fetch_end he))

theorem Rail.Steps.instrumentCalls (hr : r.Steps) (current : RailBasicBlock) :
    instrumentCalls h r current = [] := by
  rw [RailTranslator.instrumentCalls, hr.typedPre, hr.typedPre]
  split <;> rfl

theorem Rail.StepsPost.run (hr : r.Steps) (hn : r.StepsPost n)
    (hlink : r.traceLinkingEnabled = false) (hrange : elf.InRange)
    (hrun : Run (dispatch h r cb elf cfgGenerator) LeavesNoAtomic l d) :
    instCallsOf n d.calls = l.flatMap (exitedInsts h elf) := by
  induction hrun with
  | start hs =>
      obtain ⟨g, rfl⟩ := hs
      obtain ⟨next, -, hinit⟩ := @init_dispatcher h r cb elf g cfgGenerator
      rw [hinit]
      exact hn.pre.preCalls true next
  | @next l d d' e hrun hok hstep ih =>
      rw [List.flatMap_append, List.flatMap_singleton, ← ih]
      cases e with
      | instrument g =>
          obtain rfl := Option.some.inj hstep
          rw [instrument_of_nil (hr.instrumentCalls _), exitedInsts, List.append_nil]
          rfl
      | call io g taken a =>
          obtain ⟨res, hstub, rfl⟩ := Option.map_eq_some_iff.mp hstep
          obtain ⟨s, next, hst⟩ := stub_step (StubOutcome.eq_returned hstub)
          obtain ⟨hexited, -, hcovers⟩ := exited_single (n := n) hr hlink hrange hrun hok
          have hleft := left_of_exits (h := h) (exits_run hlink hrun) a
          have hcur : s.current.lastAddr = d.current.lastAddr := by rw [hst.current_eq]
          rw [← hcur] at hcovers
          rw [hst.calls, instCallsOf_append, hn.calls hr hcovers, hexited, hleft]

theorem Rail.StepsPre.run (hr : r.Steps) (hn : r.StepsPre n)
    (hlink : r.traceLinkingEnabled = false) (hrange : elf.InRange)
    (hrun : Run (dispatch h r cb elf cfgGenerator) LeavesNoAtomic l d) :
    instCallsOf n d.calls = l.flatMap (exitedInsts h elf) ++ [firstInst h d.current] := by
  have hcovers {b : RailBasicBlock} (hb : b = .empty ∨ GuestBlock h r elf b) :
      (InstRoutine.unbounded n).covers b.firstAddr = true := by
    rcases hb with rfl | hblock
    · rfl
    · obtain ⟨x, hx, hne⟩ := hblock.fetch_first
      rw [hx]
      exact InstRoutine.covers_unbounded n (hrange x hne)
  induction hrun with
  | start hs =>
      have hstart : Run (dispatch h r cb elf cfgGenerator) Any [] _ := .start hs
      have hcurrent := current_guestBlock hlink hstart
      obtain ⟨g, rfl⟩ := hs
      have hinit' := @current_init h r cb elf cfgGenerator hlink hrange g
      obtain ⟨next, hnext, hinit⟩ := @init_dispatcher h r cb elf g cfgGenerator
      rw [← hnext] at hinit'
      rw [hinit'] at hcurrent ⊢
      rw [hinit]
      exact hn.calls_enter true (hcovers hcurrent)
  | @next l d d' e hrun hok hstep ih =>
      have hrun' := hrun.next hok hstep
      rw [List.flatMap_append, List.flatMap_singleton]
      cases e with
      | instrument g =>
          obtain rfl := Option.some.inj hstep
          rw [instrument_of_nil (hr.instrumentCalls _), current_lookedUp, exitedInsts,
            List.append_nil]
          exact ih
      | call io g taken a =>
          obtain ⟨res, hstub, rfl⟩ := Option.map_eq_some_iff.mp hstep
          obtain ⟨s, next, hst⟩ := stub_step (StubOutcome.eq_returned hstub)
          obtain ⟨hexited, hsame, -⟩ := exited_single (n := n) hr hlink hrange hrun hok
          obtain ⟨hblock, -, -, hcurrent⟩ := hst.entered hlink hrange hrun'
          have hfirst : firstInst h next = firstInst h res.dispatcher.current := by
            rw [hcurrent]
            split <;> rfl
          have hnext : (InstRoutine.unbounded n).covers next.firstAddr = true := by
            have haddr : next.firstAddr = res.dispatcher.current.firstAddr := by
              rw [hcurrent]
              split <;> rfl
            rw [haddr]
            exact hcovers (.inr hblock)
          -- behind a block nothing of `n` is called, in front of the next one its first instruction
          rw [hst.calls, instCallsOf_append, ih, instCallsOf_append, hn.calls_leave hr,
            hn.calls_enter false hnext, hexited, hsame, hfirst]
          simp only [List.nil_append]

/-! ### The call that ends the process -/

theorem handleSyscalls_exit_iff (io : IoRequest → DWord) (f : TrapFrame) :
    handleSyscalls io f = .exit ↔ f 17 = SystemCall.exit ∨ f 17 = SystemCall.exitGroup := by
  simp only [handleSyscalls]
  split_ifs with hread hwrite hexit
  · refine iff_of_false (fun h => by cases h) ?_
    rcases hread with hnum | hnum <;> rw [hnum] <;> decide
  · refine iff_of_false (fun h => by cases h) ?_
    rcases hwrite with hnum | hnum <;> rw [hnum] <;> decide
  · exact iff_of_true rfl hexit
  · exact iff_of_false (fun h => by cases h) hexit

/-- Without routines in front of system calls the frame says whether `stub`
comes to its POST loops. -/
theorem Rail.Steps.leave_exited_iff (hr : r.Steps) {io : IoRequest → DWord} {f : TrapFrame}
    {taken a : DWord} (hleft : d.left h a = ⟨finalInst h d.current, d.current.type⟩) :
    (∃ d', d.leave h r cb io f taken a = .exited d') ↔ LeavesForGood d f := by
  rw [LeavesForGood, Dispatcher.leave, hleft, ← handleSyscalls_exit_iff io]
  generalize (lastInst h d.lookedUp d.current a).2 = d₀
  rcases d.current.type
  case syscall =>
    have hnone (p : InstRoutine → Bool) (inst : RvInst) :
        Dispatcher.callInst cb p inst d₀ f [] = (d₀, f) := rfl
    simp only [successor, hr.typedPre, hnone, true_and]
    cases handleSyscalls io f with
    | exit => exact iff_of_true ⟨_, rfl⟩ rfl
    | ecalled f' =>
        refine iff_of_false ?_ fun hexit => by cases hexit
        rintro ⟨d', hexit⟩
        cases hexit
    | notEcalled =>
        refine iff_of_false ?_ fun hexit => by cases hexit
        rintro ⟨d', hexit⟩
        cases hexit
  case directBranch =>
    refine iff_of_false ?_ fun hgood => by cases hgood.1
    rintro ⟨d', hexit⟩
    simp only [successor] at hexit
    split_ifs at hexit
  all_goals
    refine iff_of_false ?_ fun hgood => by cases hgood.1
    rintro ⟨d', hexit⟩
    cases hexit

theorem instCallsOf_exitBinary (n : ℕ) (d : Dispatcher) :
    instCallsOf n (exitBinary r d).calls = instCallsOf n d.calls := by
  have hexit (func : ℕ) : instCallsOf n (d.calls ++ [.exit func]) = instCallsOf n d.calls := by
    rw [instCallsOf_append]
    exact List.append_nil _
  rw [exitBinary]
  rcases r.exitRoutine with _ | func <;> rcases hg : d.cfgGenerator with _ | g
  · rfl
  · rfl
  · exact hexit func
  · exact hexit func

theorem Rail.Steps.calls_ended (hr : r.Steps)
    {io : IoRequest → DWord} {f : TrapFrame} {taken a : DWord} {d' : Dispatcher}
    (hleft : d.left h a = ⟨finalInst h d.current, d.current.type⟩)
    (hstub : stub h r cb io d f taken a = .exited d') :
    LeavesForGood d f ∧ instCallsOf n d'.calls = instCallsOf n d.calls ∨
      ¬ LeavesForGood d f ∧ ∃ current : RailBasicBlock, current.lastAddr = d.current.lastAddr ∧
        instCallsOf n d'.calls = instCallsOf n d.calls ++ instCallsOf n
          (RailTranslator.systemCalls r (d.left h a) ++
            postCalls r current (d.left h a).inst) := by
  rcases stub_exited hstub with hleave | ⟨s, d₁, hleave, rfl, hcalls⟩
  · obtain ⟨-, d₁, rfl, hcalls, -⟩ := leave_exited hleave
    refine .inl ⟨(hr.leave_exited_iff hleft).mp ⟨_, hleave⟩, ?_⟩
    rw [instCallsOf_exitBinary, hcalls, hr.typedPre]
    exact congrArg (instCallsOf n) (List.append_nil _)
  · have hgood : ¬ LeavesForGood d f := by
      intro hgood
      obtain ⟨d₂, hleave'⟩ := (hr.leave_exited_iff hleft).mpr hgood
      rw [hleave] at hleave'
      cases hleave'
    refine .inr ⟨hgood, s.current, ?_, ?_⟩
    · rw [successor_current hleave]
    · rw [instCallsOf_exitBinary, hcalls, instCallsOf_append]

/-- The POST routine is not called for the system call that ends the process. -/
theorem Rail.StepsPost.ended (hr : r.Steps) (hn : r.StepsPost n)
    (hlink : r.traceLinkingEnabled = false) (hrange : elf.InRange)
    (hrun : Run (dispatch h r cb elf cfgGenerator) ok l d) {io : IoRequest → DWord}
    {f : TrapFrame} {taken a : DWord} {d' : Dispatcher}
    (hok : LeavesNoAtomic d (.call io f taken a))
    (hstub : stub h r cb io d f taken a = .exited d') :
    instCallsOf n d'.calls = instCallsOf n d.calls ++
      if LeavesForGood d f then [] else exitedInsts h elf (d, .call io f taken a) := by
  have hleft := left_of_exits (h := h) (exits_run hlink hrun) a
  obtain ⟨hexited, -, hcovers⟩ := exited_single (n := n) hr hlink hrange hrun hok
  rcases hr.calls_ended (n := n) hleft hstub with ⟨hgood, hcalls⟩ | ⟨hgood, b, hlast, hcalls⟩
  · rw [if_pos hgood, List.append_nil, hcalls]
  · rw [← hlast] at hcovers
    rw [if_neg hgood, hcalls, hn.calls_leave hr hcovers, hexited, hleft]

/-- A PRE routine has been called when that instruction was entered. -/
theorem Rail.StepsPre.ended (hr : r.Steps) (hn : r.StepsPre n)
    (hlink : r.traceLinkingEnabled = false) (hrun : Run (dispatch h r cb elf cfgGenerator) ok l d)
    {io : IoRequest → DWord} {f : TrapFrame} {taken a : DWord} {d' : Dispatcher}
    (hstub : stub h r cb io d f taken a = .exited d') :
    instCallsOf n d'.calls = instCallsOf n d.calls := by
  have hleft := left_of_exits (h := h) (exits_run hlink hrun) a
  rcases hr.calls_ended (n := n) hleft hstub with ⟨-, hcalls⟩ | ⟨-, b, -, hcalls⟩
  · exact hcalls
  · rw [hcalls, hn.calls_leave hr, List.append_nil]

/-- Every instruction is reported behind it, by the routine 7. -/
def stepping : Rail := (Rail.plain false).addInstrumentInstAll 7 .post

theorem steps_stepping : stepping.Steps where
  routine := .inr (List.cons_ne_nil _ _)
  bounds := Rail.defaultBounds_addInstrumentInstAll 7 .post
  typedPre _ := rfl

theorem stepsPost_stepping : stepping.StepsPost 7 where
  flag := rfl
  post := rfl
  pre := rfl
  typed _ := rfl

end

end RailTranslator
