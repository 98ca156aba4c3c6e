import RailTranslator.SingleStep
import RailTranslator.WholeRuns

/-!
What the routines see of the guest's run, without traces.

The translator is there for its routines: what they are called with should be
what the guest does. A routine for all instructions cuts the guest's run into
turns of one instruction, and the calls of the routine are these instructions
in their order. A routine for all blocks is called with the blocks the guest
runs through, in their order.
-/

namespace RailTranslator

open Rv64 Transition

/-! ### Single instructions -/

section Single

variable {h : Host} {r : Rail} {cb : Callbacks} {depth n : ℕ} {io : IoRequest → DWord}
  {elf : ElfReader} {cfgGenerator : Option CfgGenerator} {D : Set DWord} {s s' : Machine}
  {g g' : Guest} {x x' : HostState}

theorem Rail.Steps.noTypedPre (hr : r.Steps) : r.NoTypedPre := fun pc w => hr.preInstrumented pc w

theorem Rail.Steps.segmentsBB (hr : r.Steps) (pc : BitVec 32) {w : Word}
    (hamo : opcodeOf w ≠ Op.amo) : segmentsBB r pc w = true := by
  simp only [RailTranslator.segmentsBB, hr.postInstrumented]
  split_ifs <;> rfl

theorem ne_amo_of_decode {w : Word} {i : Instr} (hdec : Instr.decode w = some i) :
    opcodeOf w ≠ Op.amo := by
  intro hamo
  have hop : w.opcode = Opcode.amo := opcodeOf_eq_iff.mp hamo
  simp [Instr.decode, hop] at hdec

theorem decode_of_step (hstep : step relocate elf.guestCode s = some s') :
    ∃ w i, elf.guestCode s.pc = some w ∧ Instr.decode w = some i := by
  rcases hw : elf.guestCode s.pc with _ | w
  · rw [step_none_of_code_none hw] at hstep
    cases hstep
  · rw [step, hw, Option.bind_some, Option.map_eq_some_iff] at hstep
    obtain ⟨i, hdec, -⟩ := hstep
    exact ⟨w, i, rfl, hdec⟩

theorem RunsOn.eq_zero (hr : r.Steps) (hrun : RunsOn r elf n D s s') : n = 0 ∧ s = s' := by
  cases n with
  | zero => exact ⟨rfl, Option.some.inj hrun.run⟩
  | succ n =>
      have hfirst := hrun.run
      rw [Rv64.run, Option.bind_eq_some_iff] at hfirst
      obtain ⟨s₁, hstep, -⟩ := hfirst
      obtain ⟨w, i, hw, hdec⟩ := decode_of_step hstep
      have hunbroken := hrun.unbroken.1
      rw [fetch_of_guestCode hw, hr.segmentsBB _ (ne_amo_of_decode hdec)] at hunbroken
      cases hunbroken

/-- With a routine for all instructions a turn of the guest is one instruction. -/
theorem GuestTurn.single (hr : r.Steps) (ht : GuestTurn r elf depth io g g') :
    GuestStep elf io g.machine g'.machine ∧
      opcodeOf (elf.fetch (g.machine.pc.setWidth 32)) ≠ Op.amo := by
  cases ht with
  | @ended n D s s₁ s' w hrun hw hterm _ _ hstep =>
      obtain ⟨rfl, rfl⟩ := hrun.eq_zero hr
      refine ⟨hstep, ?_⟩
      show opcodeOf (elf.fetch (s.pc.setWidth 32)) ≠ Op.amo
      rw [fetch_of_guestCode hw]
      exact isTerminal_ne_amo hterm
  | @cut n D s s₁ s' w hrun hw _ _ hrun' =>
      obtain ⟨rfl, rfl⟩ := hrun.eq_zero hr
      have hstep : step relocate elf.guestCode s = some s' := by
        rw [run, Option.bind_eq_some_iff] at hrun'
        obtain ⟨s₁, hstep, hrest⟩ := hrun'
        obtain rfl := Option.some.inj hrest
        exact hstep
      obtain ⟨w', i, hw', hdec⟩ := decode_of_step hstep
      refine ⟨.inst hstep, ?_⟩
      show opcodeOf (elf.fetch (s.pc.setWidth 32)) ≠ Op.amo
      rw [fetch_of_guestCode hw']
      exact ne_amo_of_decode hdec

theorem Simulates.current_eq (hlink : r.traceLinkingEnabled = false) (hr : r.NoTypedPre)
    (hsim : Simulates h r cb elf cfgGenerator g x) : ∃ b ps q e,
      x.dispatcher.current = b ∧ b ≠ .empty ∧
        Stands h r elf x.dispatcher.cache g.machine.pc b ps q e := by
  obtain ⟨⟨l, hrun⟩, hcurrent, b, hb, hne, -⟩ := hsim
  obtain ⟨ps, q, e, hst⟩ := ((standing_run hlink hr hrun).2 _ b hb).resolve_left hne
  refine ⟨b, ps, q, e, ?_, hne, hst⟩
  rw [Dispatcher.current, CodeCache.lookup_of_some (hcurrent ▸ hb)]

/-- The first instruction of the current block is the guest's next one. -/
theorem Simulates.firstInst_eq (hlink : r.traceLinkingEnabled = false) (hr : r.NoTypedPre)
    (hsim : Simulates h r cb elf cfgGenerator g x) :
    firstInst h x.dispatcher.current = guestInst h elf (g.machine.pc.setWidth 32) := by
  obtain ⟨b, ps, q, e, rfl, -, hst⟩ := hsim.current_eq hlink hr
  have hlow : x.dispatcher.current.firstAddr.setWidth 32 = g.machine.pc.setWidth 32 := by
    rw [hst.describes.firstAddr]
    exact low_ofLow _
  rw [firstInst, hst.describes.startInst, hlow]
  rfl

theorem Simulates.leavesNoAtomic (hlink : r.traceLinkingEnabled = false) (hr : r.Steps)
    (hsim : Simulates h r cb elf cfgGenerator g x) (hturn : GuestTurn r elf depth io g g') :
    x.dispatcher.current ≠ .empty ∧ opcodeOf x.dispatcher.current.startInst ≠ Op.amo := by
  obtain ⟨b, ps, q, e, rfl, hne, hst⟩ := hsim.current_eq hlink hr.noTypedPre
  refine ⟨hne, ?_⟩
  rw [hst.describes.startInst]
  exact (hturn.single hr).2

/-- A turn calls the POST routine with the instruction it has executed. -/
theorem Simulates.calls_post (hlink : r.traceLinkingEnabled = false) (hr : r.Steps)
    (hcb : cb.KeepFrame) (hdepth : depth + 256 ≤ 2 ^ 64) (hrange : elf.InRange)
    (hn : r.StepsPost n) (hsim : Simulates h r cb elf cfgGenerator g x)
    (hturn : GuestTurn r elf depth io g g') (hhost : HostTurn h r cb depth io x x') :
    instCallsOf n x'.dispatcher.calls = instCallsOf n x.dispatcher.calls ++
      [guestInst h elf (g.machine.pc.setWidth 32)] := by
  obtain ⟨-, io', f, taken, a, res, hstub, hx', -⟩ :=
    hsim.visited hlink hr.noTypedPre hcb hdepth hturn hhost
  obtain ⟨s, next, hst⟩ := stub_step hstub
  obtain ⟨l, hrun⟩ := hsim.reachable
  have hok : LeavesNoAtomic x.dispatcher (.call io' f taken a) :=
    hsim.leavesNoAtomic hlink hr hturn
  obtain ⟨-, hsame, hcovers⟩ := exited_single (n := n) hr hlink hrange hrun hok
  have hcur : s.current.lastAddr = x.dispatcher.current.lastAddr := by rw [hst.current_eq]
  rw [← hcur] at hcovers
  rw [hx', hst.calls, instCallsOf_append, hn.calls hr hcovers,
    left_of_exits (exits_run hlink hrun) a, hsame, hsim.firstInst_eq hlink hr.noTypedPre]

theorem Simulates.calls_pre (hlink : r.traceLinkingEnabled = false) (hr : r.Steps)
    (hcb : cb.KeepFrame) (hdepth : depth + 256 ≤ 2 ^ 64) (hrange : elf.InRange)
    (hn : r.StepsPre n) (hsim : Simulates h r cb elf cfgGenerator g x)
    (hturn : GuestTurn r elf depth io g g') (hhost : HostTurn h r cb depth io x x') :
    instCallsOf n x'.dispatcher.calls = instCallsOf n x.dispatcher.calls ++
      [guestInst h elf (g'.machine.pc.setWidth 32)] := by
  obtain ⟨hsim', io', f, taken, a, res, hstub, hx', -⟩ :=
    hsim.visited hlink hr.noTypedPre hcb hdepth hturn hhost
  obtain ⟨s, next, hst⟩ := stub_step hstub
  have hinst := hsim'.firstInst_eq hlink hr.noTypedPre
  obtain ⟨l, hrun⟩ := hsim'.reachable
  rw [hx'] at hinst hrun
  obtain ⟨hblock, -, -, hcurrent⟩ := hst.entered hlink hrange hrun
  have haddr : next.firstAddr = res.dispatcher.current.firstAddr := by
    rw [hcurrent]
    split <;> rfl
  have hfirst : firstInst h next = firstInst h res.dispatcher.current := by
    rw [hcurrent]
    split <;> rfl
  have hcovers : (InstRoutine.unbounded n).covers next.firstAddr = true := by
    obtain ⟨y, hy, hne⟩ := hblock.fetch_first
    rw [haddr, hy]
    exact InstRoutine.covers_unbounded n (hrange y hne)
  rw [hx', hst.calls, instCallsOf_append, instCallsOf_append, hn.calls_leave hr,
    hn.calls_enter false hcovers, hfirst, hinst, List.nil_append]

theorem steps_single (hr : r.Steps) {l : List (IoRequest → DWord)}
    (hturns : Steps (GuestTurn r elf depth) l g g') :
    Steps (GuestStep elf) l g.machine g'.machine := by
  induction hturns with
  | nil g => exact .nil g.machine
  | cons hturn _ ih => exact .cons (hturn.single hr).1 ih

/-- The instruction trace that a routine for all instructions records is that of
the guest: along every run that is followed, a turn is one instruction; what is
added to the calls of a POST routine are the instructions that are executed, in
their order, and to those of a PRE routine the instructions that are next. -/
theorem instructions_observed (hlink : r.traceLinkingEnabled = false) (hr : r.Steps)
    (hcb : cb.KeepFrame) (hdepth : depth + 256 ≤ 2 ^ 64) (hrange : elf.InRange)
    (hsim : Simulates h r cb elf cfgGenerator g x) {l : List (IoRequest → DWord)}
    (hturns : Steps (GuestTurn r elf depth) l g g') (hhost : Steps (HostTurn h r cb depth) l x x') :
    Steps (GuestStep elf) l g.machine g'.machine ∧
      (∀ n insts, r.StepsPost n → Seen (GuestTurn r elf depth)
          (fun g _ => guestInst h elf (g.machine.pc.setWidth 32)) l g g' insts →
        instCallsOf n x'.dispatcher.calls = instCallsOf n x.dispatcher.calls ++ insts) ∧
      ∀ n insts, r.StepsPre n → Seen (GuestTurn r elf depth)
          (fun _ g' => guestInst h elf (g'.machine.pc.setWidth 32)) l g g' insts →
        instCallsOf n x'.dispatcher.calls = instCallsOf n x.dispatcher.calls ++ insts := by
  have hfollows := @follows h r cb depth elf cfgGenerator hlink hr.noTypedPre hcb hdepth
  refine ⟨steps_single hr hturns, fun n insts hn hseen => ?_, fun n insts hn hseen => ?_⟩
  · exact hfollows.logged (fun x => instCallsOf n x.dispatcher.calls)
      (fun hsim hturn hhost => hsim.calls_post hlink hr hcb hdepth hrange hn hturn hhost)
      hsim hseen hhost
  · exact hfollows.logged (fun x => instCallsOf n x.dispatcher.calls)
      (fun hsim hturn hhost => hsim.calls_pre hlink hr hcb hdepth hrange hn hturn hhost)
      hsim hseen hhost

end Single

/-- A turn of `countingText` under the routine for all instructions is the addition. -/
theorem turn_stepping (io : IoRequest → DWord) : ∃ g',
    GuestTurn stepping countingText 0 io firstGuest g' := by
  have hadd : countingText.guestCode (loadGuest 0x10000).pc = some 0x00128293 := by decide +kernel
  have hadd' : Instr.decode 0x00128293 = some (.opImm .add 5 5 1) := by decide +kernel
  have hpc : ((Instr.opImm .add 5 5 1).exec relocate (loadGuest 0x10000)).pc = 0x10004 := by
    rw [Instr.pc_exec relocate (undisturbed_addi (fun _ => True) ∅ (loadGuest 0x10000) 5 5 1).straight]
    rfl
  have hrun : RunsOn stepping countingText 0 (bytes 0x3ffffff0 8) (loadGuest 0x10000)
      (loadGuest 0x10000) := ⟨rfl, trivial, trivial⟩
  have hjump : countingText.fetch 0x10004 = 0xffdff06f := by decide +kernel
  have hblock : HasBlock stepping countingText 0x10004 := by
    refine .ends ?_ (.inr (.inl ?_)) <;> rw [hjump]
    · decide
    · exact .inr (.inl (by decide))
  refine ⟨_, .cut hrun hadd (steps_stepping.segmentsBB _ (by decide)) (by decide)
    (run_addi hadd hadd') (undisturbedRun_addi hadd hadd') ⟨?_, ?_, ?_⟩⟩
  · rw [hpc]
    decide
  · rw [hpc]
    decide
  · rw [hpc]
    exact hblock

theorem stepping_observed : ∃ x',
    Steps (HostTurn requestedHost stepping idleCallbacks 0) [fun _ => 0]
      (firstHost stepping countingText) x' ∧
    instCallsOf 7 x'.dispatcher.calls = [guestInst requestedHost countingText 0x10000] := by
  obtain ⟨g', hturn⟩ := turn_stepping fun _ => 0
  have hfirst := @simulates_first stepping countingText (by decide +kernel) (by decide +kernel)
  have hfits : (firstHost stepping countingText).dispatcher.cache.Fits := by
    rw [CodeCache.Fits]
    decide +kernel
  have hdepth : 0 + 256 ≤ 2 ^ 64 := by decide
  obtain ⟨x', hhost⟩ := (follows rfl steps_stepping.noTypedPre keepFrame_idleCallbacks
    hdepth).progress hfirst hturn (not_not_intro hfits)
  obtain ⟨-, hpost, -⟩ := instructions_observed rfl steps_stepping keepFrame_idleCallbacks hdepth
    (inRange_ofWords (by decide) (by decide)) hfirst (.single hturn) (.single hhost)
  exact ⟨x', .single hhost, hpost 7 _ stepsPost_stepping (.cons hturn (.nil g'))⟩

/-! ### Blocks -/

structure Rail.BlocksOnly (r : Rail) : Prop where
  pre : r.instructionRoutinesPre = []
  post : r.instructionRoutinesPost = []
  typedPre : ∀ t, r.instructionRoutinesTypedPre t = []
  typedPost : ∀ t, r.instructionRoutinesTypedPost t = []

def bbCallsOf (n : ℕ) (calls : List Call) : List RailBasicBlock :=
  calls.filterMap fun
    | .bb func b => if func = n then some b else none
    | _ => none

structure Rail.WatchesPost (r : Rail) (n : ℕ) : Prop where
  flag : r.postInstrumentationRoutines = true
  post : r.basicBlockRoutinesPost.filter (·.func = n) = [.unbounded n]
  pre : r.basicBlockRoutinesPre.filter (·.func = n) = []

structure Rail.WatchesPre (r : Rail) (n : ℕ) : Prop where
  flag : r.preInstrumentationRoutines = true
  pre : r.basicBlockRoutinesPre.filter (·.func = n) = [.unbounded n]
  post : r.basicBlockRoutinesPost.filter (·.func = n) = []

section Blocks

variable {h : Host} {r : Rail} {cb : Callbacks} {depth n : ℕ} {io : IoRequest → DWord}
  {elf : ElfReader} {cfgGenerator : Option CfgGenerator} {g g' : Guest} {x x' : HostState}
  {b current next : RailBasicBlock}

theorem Rail.BlocksOnly.postInstrumented (hr : r.BlocksOnly) (pc : BitVec 32)
    (types : List InstType) : postInstrumented r pc types = false := by
  simp [RailTranslator.postInstrumented, hr.pre, hr.post, hr.typedPost]

theorem Rail.BlocksOnly.noTypedPre (hr : r.BlocksOnly) : r.NoTypedPre := by
  intro pc w
  simp [preInstrumented, hr.typedPre]

theorem Rail.BlocksOnly.segmentsBB (hr : r.BlocksOnly) (pc : BitVec 32) (w : Word) :
    segmentsBB r pc w = false := by
  simp only [RailTranslator.segmentsBB, hr.postInstrumented, ite_self]

theorem BlockWalk.stopped_of_blocksOnly (hr : r.BlocksOnly) {pc q : BitVec 32} {ps : List Piece}
    {e : BlockEnd} (hwalk : BlockWalk h r elf pc ps q e) (he : e = .stopped ∨ e = .segmented) :
    e = .stopped :=
  he.resolve_right (hwalk.of_uncut hr.segmentsBB hr.noTypedPre).1

theorem Stands.type_ne (hr : r.BlocksOnly) {c : CodeCache} {y : DWord} {ps : List Piece}
    {q : BitVec 32} {e : BlockEnd} (hst : Stands h r elf c y b ps q e) : b.type ≠ .segmented := by
  rw [hst.describes.type, hst.walk.stopped_of_blocksOnly hr hst.ended, BlockEnd.type, exitType]
  split_ifs <;> exact BasicBlockType.noConfusion

theorem bbCallsOf_append (n : ℕ) (calls calls' : List Call) :
    bbCallsOf n (calls ++ calls') = bbCallsOf n calls ++ bbCallsOf n calls' :=
  List.filterMap_append

theorem bbCallsOf_instCalls (n : ℕ) (p : InstRoutine → Bool) (inst : RvInst)
    (routines : List InstRoutine) : bbCallsOf n (instCalls p inst routines) = [] := by
  rw [instCalls]
  induction routines.filter p with
  | nil => rfl
  | cons routine routines ih => exact ih

theorem bbCallsOf_bbCalls (n : ℕ) (p : BBRoutine → Bool) (b : RailBasicBlock)
    (routines : List BBRoutine) : bbCallsOf n (bbCalls p b routines) =
      ((routines.filter (·.func = n)).filter p).map fun _ => b := by
  rw [bbCallsOf, bbCalls, List.filterMap_map]
  exact filterMap_filter p (fun routine => routine.func = n) b routines

theorem bbCallsOf_nil {routines : List BBRoutine} (hn : routines.filter (·.func = n) = [])
    (p : BBRoutine → Bool) (b : RailBasicBlock) : bbCallsOf n (bbCalls p b routines) = [] := by
  rw [bbCallsOf_bbCalls, hn]
  rfl

theorem bbCallsOf_once {routines : List BBRoutine}
    (hn : routines.filter (·.func = n) = [.unbounded n]) {p : BBRoutine → Bool}
    (hp : p (.unbounded n) = true) (b : RailBasicBlock) :
    bbCallsOf n (bbCalls p b routines) = [b] := by
  rw [bbCallsOf_bbCalls, hn, List.filter_cons, if_pos hp]
  rfl

theorem bbCallsOf_systemCalls (last : LastInst) : bbCallsOf n (systemCalls r last) = [] := by
  rw [systemCalls]
  split
  · rw [bbCallsOf_append, bbCallsOf_instCalls, bbCallsOf_instCalls]
    rfl
  · rfl

theorem Rail.WatchesPost.calls (hn : r.WatchesPost n) {last : LastInst}
    (htype : current.type ≠ .segmented)
    (hcovers : (BBRoutine.unbounded n).covers current.firstAddr current.lastAddr = true) :
    bbCallsOf n (systemCalls r last ++ postCalls r current last.inst ++ preCalls h r false next) =
      [current] := by
  have hpost : bbCallsOf n (postCalls r current last.inst) = [current] := by
    rw [postCalls, if_pos hn.flag, if_pos htype]
    split_ifs <;> simp only [bbCallsOf_append, bbCallsOf_instCalls,
      bbCallsOf_once (p := (·.covers current.firstAddr current.lastAddr)) hn.post hcovers] <;> rfl
  have hpre : bbCallsOf n (preCalls h r false next) = [] := by
    rw [preCalls]
    split
    · split_ifs <;> simp only [bbCallsOf_append, bbCallsOf_instCalls, bbCallsOf_nil hn.pre] <;> rfl
    · rfl
  rw [bbCallsOf_append, bbCallsOf_append, bbCallsOf_systemCalls, hpost, hpre]
  rfl

theorem Rail.WatchesPre.calls (hn : r.WatchesPre n) {last : LastInst}
    (htype : next.type ≠ .segmented) :
    bbCallsOf n (systemCalls r last ++ postCalls r current last.inst ++ preCalls h r false next) =
      [next] := by
  have hpost : bbCallsOf n (postCalls r current last.inst) = [] := by
    rw [postCalls]
    split
    · split_ifs <;> simp only [bbCallsOf_append, bbCallsOf_instCalls, bbCallsOf_nil hn.post] <;> rfl
    · rfl
  have hpre : bbCallsOf n (preCalls h r false next) = [next] := by
    rw [preCalls, if_pos hn.flag, if_pos htype, bbCallsOf_append, bbCallsOf_instCalls,
      bbCallsOf_once hn.pre (by rfl)]
    rfl
  rw [bbCallsOf_append, bbCallsOf_append, bbCallsOf_systemCalls, hpost, hpre]
  rfl

theorem Simulates.firstAddr_eq (hlink : r.traceLinkingEnabled = false) (hr : r.NoTypedPre)
    (hrange : elf.InRange) (hsim : Simulates h r cb elf cfgGenerator g x) :
    x.dispatcher.current.firstAddr = g.machine.pc := by
  obtain ⟨b, ps, q, e, rfl, -, hst⟩ := hsim.current_eq hlink hr
  have hlow := hrange _ (hst.walk.fetch_start (hst.walk.ne_nil hst.ended))
  have hnat := toNat_signExtend hlow
  have hcurrent := hsim.current
  rw [hst.describes.firstAddr]
  bv_omega

theorem BBRoutine.covers_unbounded (func : ℕ) (a : DWord) {b : BitVec 32} (hb : b.toNat < 2 ^ 31) :
    (BBRoutine.unbounded func).covers a (b.signExtend 64) = true := by
  have hnat := toNat_signExtend hb
  rw [BBRoutine.covers]
  have hupper : (BBRoutine.unbounded func).upperBound.signExtend 64 = 0x7fffffff := by
    show intMax.signExtend 64 = _
    decide
  have hlower : (BBRoutine.unbounded func).lowerBound.signExtend 64 = 0 := by
    show (0 : BitVec 32).signExtend 64 = _
    decide
  rw [hupper, hlower, BitVec.ule, BitVec.ule, Bool.and_eq_true, decide_eq_true_eq,
    decide_eq_true_eq]
  constructor <;> bv_omega

/-- A turn calls the POST routine with the block that it has run through. -/
theorem Simulates.bbCalls_post (hlink : r.traceLinkingEnabled = false) (hr : r.BlocksOnly)
    (hcb : cb.KeepFrame) (hdepth : depth + 256 ≤ 2 ^ 64) (hrange : elf.InRange)
    (hn : r.WatchesPost n) (hsim : Simulates h r cb elf cfgGenerator g x)
    (hturn : GuestTurn r elf depth io g g') (hhost : HostTurn h r cb depth io x x') :
    (bbCallsOf n x'.dispatcher.calls).map (·.firstAddr) =
      (bbCallsOf n x.dispatcher.calls).map (·.firstAddr) ++ [g.machine.pc] := by
  obtain ⟨-, io', f, taken, a, res, hstub, hx', -⟩ :=
    hsim.visited hlink hr.noTypedPre hcb hdepth hturn hhost
  obtain ⟨s, next, hst⟩ := stub_step hstub
  have hfirst := hsim.firstAddr_eq hlink hr.noTypedPre hrange
  obtain ⟨b, ps, q, e, rfl, -, hstands⟩ := hsim.current_eq hlink hr.noTypedPre
  have hcovers := BBRoutine.covers_unbounded n x.dispatcher.current.firstAddr
    (hrange q (hstands.walk.fetch_end hstands.ended))
  rw [← hstands.describes.lastAddr] at hcovers
  have htype := hstands.type_ne hr
  have hcur := hst.current_eq
  have hcalls := @Rail.WatchesPost.calls h r n s.current next hn (x.dispatcher.left h a)
    (by rw [hcur]; exact htype) (by rw [hcur]; exact hcovers)
  rw [hx', hst.calls, bbCallsOf_append, hcalls, List.map_append, List.map_singleton, ← hfirst, hcur]

theorem Simulates.bbCalls_pre (hlink : r.traceLinkingEnabled = false) (hr : r.BlocksOnly)
    (hcb : cb.KeepFrame) (hdepth : depth + 256 ≤ 2 ^ 64) (hrange : elf.InRange)
    (hn : r.WatchesPre n) (hsim : Simulates h r cb elf cfgGenerator g x)
    (hturn : GuestTurn r elf depth io g g') (hhost : HostTurn h r cb depth io x x') :
    (bbCallsOf n x'.dispatcher.calls).map (·.firstAddr) =
      (bbCallsOf n x.dispatcher.calls).map (·.firstAddr) ++ [g'.machine.pc] := by
  obtain ⟨hsim', io', f, taken, a, res, hstub, hx', -⟩ :=
    hsim.visited hlink hr.noTypedPre hcb hdepth hturn hhost
  obtain ⟨s, next, hst⟩ := stub_step hstub
  have hfirst := hsim'.firstAddr_eq hlink hr.noTypedPre hrange
  obtain ⟨b, ps, q, e, hb, -, hstands⟩ := hsim'.current_eq hlink hr.noTypedPre
  obtain ⟨l, hrun⟩ := hsim'.reachable
  rw [hx'] at hfirst hb hrun
  obtain ⟨-, -, -, hcurrent⟩ := hst.entered hlink hrange hrun
  have htype := hstands.type_ne hr
  have hnext : next.firstAddr = b.firstAddr ∧ next.type = b.type := by
    rw [← hb, hcurrent]
    split <;> exact ⟨rfl, rfl⟩
  have hcalls := @Rail.WatchesPre.calls h r n s.current next hn (x.dispatcher.left h a)
    (by rw [hnext.2]; exact htype)
  rw [hx', hst.calls, bbCallsOf_append, hcalls, List.map_append, List.map_singleton, hnext.1, ← hb,
    hfirst]

/-- The blocks that a routine for all blocks records are those of the guest:
along every run that is followed, what is added to the calls of a POST routine
are the blocks the guest has run through, in their order, and to those of a PRE
routine the blocks it goes on with. -/
theorem blocks_observed (hlink : r.traceLinkingEnabled = false) (hr : r.BlocksOnly)
    (hcb : cb.KeepFrame) (hdepth : depth + 256 ≤ 2 ^ 64) (hrange : elf.InRange)
    (hsim : Simulates h r cb elf cfgGenerator g x) {l : List (IoRequest → DWord)}
    (hhost : Steps (HostTurn h r cb depth) l x x') :
    (∀ n heads, r.WatchesPost n →
      Seen (GuestTurn r elf depth) (fun g _ => g.machine.pc) l g g' heads →
        (bbCallsOf n x'.dispatcher.calls).map (·.firstAddr) =
          (bbCallsOf n x.dispatcher.calls).map (·.firstAddr) ++ heads) ∧
      ∀ n heads, r.WatchesPre n →
        Seen (GuestTurn r elf depth) (fun _ g' => g'.machine.pc) l g g' heads →
          (bbCallsOf n x'.dispatcher.calls).map (·.firstAddr) =
            (bbCallsOf n x.dispatcher.calls).map (·.firstAddr) ++ heads := by
  have hfollows := @follows h r cb depth elf cfgGenerator hlink hr.noTypedPre hcb hdepth
  refine ⟨fun n heads hn hseen => ?_, fun n heads hn hseen => ?_⟩
  · exact hfollows.logged (fun x => (bbCallsOf n x.dispatcher.calls).map (·.firstAddr))
      (fun hsim hturn hhost => hsim.bbCalls_post hlink hr hcb hdepth hrange hn hturn hhost)
      hsim hseen hhost
  · exact hfollows.logged (fun x => (bbCallsOf n x.dispatcher.calls).map (·.firstAddr))
      (fun hsim hturn hhost => hsim.bbCalls_pre hlink hr hcb hdepth hrange hn hturn hhost)
      hsim hseen hhost

end Blocks

/-- Every block is reported in front of it, by the routine 7. -/
def watching : Rail := (Rail.plain false).addInstrumentBBAll 7 .pre

theorem blocksOnly_watching : watching.BlocksOnly where
  pre := rfl
  post := rfl
  typedPre _ := rfl
  typedPost _ := rfl

theorem watchesPre_watching : watching.WatchesPre 7 where
  flag := rfl
  pre := rfl
  post := rfl

theorem watching_observed : ∃ x',
    Steps (HostTurn requestedHost watching idleCallbacks 0) [fun _ => 0]
      (firstHost watching countingText) x' ∧
    (bbCallsOf 7 x'.dispatcher.calls).map (·.firstAddr) = [0x10000, 0x10000] := by
  obtain ⟨g', hpc, -, hturn⟩ := @turn_counting _ blocksOnly_watching.segmentsBB (fun _ => 0)
    firstGuest rfl
  have hfirst := @simulates_first watching countingText (by decide +kernel) (by decide +kernel)
  have hfits : (firstHost watching countingText).dispatcher.cache.Fits := by
    rw [CodeCache.Fits]
    decide +kernel
  have hdepth : 0 + 256 ≤ 2 ^ 64 := by decide
  obtain ⟨x', hhost⟩ := (follows rfl blocksOnly_watching.noTypedPre keepFrame_idleCallbacks
    hdepth).progress hfirst hturn (not_not_intro hfits)
  obtain ⟨-, hpre⟩ := blocks_observed rfl blocksOnly_watching keepFrame_idleCallbacks hdepth
    (inRange_ofWords (by decide) (by decide)) hfirst (.single hhost)
  have hheads := hpre 7 _ watchesPre_watching (.cons hturn (.nil g'))
  rw [hpc] at hheads
  have hstart : (bbCallsOf 7 (firstHost watching countingText).dispatcher.calls).map
      (·.firstAddr) = [0x10000] := by
    decide +kernel
  rw [hstart] at hheads
  exact ⟨x', .single hhost, hheads⟩

end RailTranslator
