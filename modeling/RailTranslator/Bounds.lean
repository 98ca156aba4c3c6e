import RailTranslator.Instrumentation

/-!
Registered bounds.

A routine of a bounded registration may be called for an instruction, or a
block, between its bounds. The dispatcher makes its calls in loops that test
the bounds in different ways, and some do not test them: the loop over PRE
routines for blocks in `stub`, the loops over typed PRE routines in
`instrument`, and for the exit of a trace the loops over POST routines, which
look at the last instruction of the record instead. `WithinBounds` says of a
step that these loops do no harm.
-/

namespace RailTranslator

open Rv64 Transition

/-! ### Registrations -/

inductive Registration
  | bbAll (func : ℕ) (iPoint : InsertPoint) (lowerBound upperBound : BitVec 32)
  | instAll (func : ℕ) (iPoint : InsertPoint) (lowerBound upperBound : BitVec 32)
  | instType (type : InstType) (func : ℕ) (iPoint : InsertPoint) (lowerBound upperBound : BitVec 32)

namespace Registration

def instRoutine : Registration → Option InstRoutine
  | bbAll _ _ _ _ => none
  | instAll func _ lowerBound upperBound => some ⟨func, lowerBound, upperBound⟩
  | instType _ func _ lowerBound upperBound => some ⟨func, lowerBound, upperBound⟩

def bbRoutine : Registration → Option BBRoutine
  | bbAll func _ lowerBound upperBound => some ⟨func, lowerBound, upperBound⟩
  | instAll _ _ _ _ => none
  | instType _ _ _ _ _ => none

def Ordered : Registration → Prop
  | bbAll _ _ lowerBound upperBound => lowerBound.toInt ≤ upperBound.toInt
  | instAll _ _ lowerBound upperBound => lowerBound.toInt ≤ upperBound.toInt
  | instType _ _ _ lowerBound upperBound => lowerBound.toInt ≤ upperBound.toInt

end Registration

def Rail.register (r : Rail) : Registration → Rail
  | .bbAll func iPoint lowerBound upperBound =>
      r.addInstrumentBBAllIn func iPoint lowerBound upperBound
  | .instAll func iPoint lowerBound upperBound =>
      r.addInstrumentInstAllIn func iPoint lowerBound upperBound
  | .instType type func iPoint lowerBound upperBound =>
      r.addInstrumentInstTypeIn type func iPoint lowerBound upperBound

def InstRoutine.Within (routine : InstRoutine) (inst : RvInst) : Prop :=
  routine.lowerBound.toInt ≤ inst.address.toInt ∧ inst.address.toInt ≤ routine.upperBound.toInt

def BBRoutine.Within (routine : BBRoutine) (b : RailBasicBlock) : Prop :=
  routine.lowerBound.toInt ≤ b.firstAddr.toInt ∧ b.lastAddr.toInt ≤ routine.upperBound.toInt

/-- The call is one that a registration asks for. -/
def Allowed (gs : List Registration) : Call → Prop
  | .inst func inst => ∃ g ∈ gs, ∃ routine, g.instRoutine = some routine ∧ routine.func = func ∧
      routine.Within inst
  | .bb func b => ∃ g ∈ gs, ∃ routine, g.bbRoutine = some routine ∧ routine.func = func ∧
      routine.Within b
  | .exit _ => True

/-- Every routine of `r` comes from one of the registrations. -/
structure Rail.From (gs : List Registration) (r : Rail) : Prop where
  instPre : ∀ routine ∈ r.instructionRoutinesPre, ∃ g ∈ gs, g.instRoutine = some routine
  instPost : ∀ routine ∈ r.instructionRoutinesPost, ∃ g ∈ gs, g.instRoutine = some routine
  typedPre : ∀ t, ∀ routine ∈ r.instructionRoutinesTypedPre t,
    ∃ g ∈ gs, g.instRoutine = some routine
  typedPost : ∀ t, ∀ routine ∈ r.instructionRoutinesTypedPost t,
    ∃ g ∈ gs, g.instRoutine = some routine
  bbPre : ∀ routine ∈ r.basicBlockRoutinesPre, ∃ g ∈ gs, g.bbRoutine = some routine
  bbPost : ∀ routine ∈ r.basicBlockRoutinesPost, ∃ g ∈ gs, g.bbRoutine = some routine

section Registrations

variable {r : Rail} {g : Registration} {gs gs' : List Registration}

theorem Rail.NoCallbacks.from (hr : r.NoCallbacks) : r.From [] where
  instPre := by rw [hr.instPre]; exact nofun
  instPost := by rw [hr.instPost]; exact nofun
  typedPre t := by rw [hr.typedPre]; exact nofun
  typedPost t := by rw [hr.typedPost]; exact nofun
  bbPre := by rw [hr.bbPre]; exact nofun
  bbPost := by rw [hr.bbPost]; exact nofun

/-- A list of routines to which that of a further registration is added. -/
theorem routines_snoc {α : Type} {of : Registration → Option α} {routines : List α} {routine : α}
    (hof : of g = some routine) (hall : ∀ x ∈ routines, ∃ g ∈ gs, of g = some x) :
    ∀ x ∈ routines ++ [routine], ∃ g' ∈ gs ++ [g], of g' = some x := by
  intro x hx
  rcases List.mem_append.mp hx with hx | hx
  · obtain ⟨g', hg', hof'⟩ := hall x hx
    exact ⟨g', List.mem_append_left _ hg', hof'⟩
  · obtain rfl := List.mem_singleton.mp hx
    exact ⟨g, List.mem_append_right _ (List.mem_singleton_self g), hof⟩

theorem Rail.From.mono (hr : r.From gs) (hsub : ∀ g ∈ gs, g ∈ gs') : r.From gs' where
  instPre routine hin := (hr.instPre routine hin).imp fun _ hg => ⟨hsub _ hg.1, hg.2⟩
  instPost routine hin := (hr.instPost routine hin).imp fun _ hg => ⟨hsub _ hg.1, hg.2⟩
  typedPre t routine hin := (hr.typedPre t routine hin).imp fun _ hg => ⟨hsub _ hg.1, hg.2⟩
  typedPost t routine hin := (hr.typedPost t routine hin).imp fun _ hg => ⟨hsub _ hg.1, hg.2⟩
  bbPre routine hin := (hr.bbPre routine hin).imp fun _ hg => ⟨hsub _ hg.1, hg.2⟩
  bbPost routine hin := (hr.bbPost routine hin).imp fun _ hg => ⟨hsub _ hg.1, hg.2⟩

theorem Rail.From.register (hr : r.From gs) (g : Registration) :
    (r.register g).From (gs ++ [g]) := by
  have hmono : r.From (gs ++ [g]) := hr.mono fun _ hg => List.mem_append_left _ hg
  cases g with
  | bbAll func iPoint lowerBound upperBound =>
      cases iPoint with
      | pre => exact { hmono with bbPre := routines_snoc rfl hr.bbPre }
      | post => exact { hmono with bbPost := routines_snoc rfl hr.bbPost }
  | instAll func iPoint lowerBound upperBound =>
      cases iPoint with
      | pre =>
          exact ⟨routines_snoc rfl hr.instPre, hmono.instPost, hmono.typedPre, hmono.typedPost,
            hmono.bbPre, hmono.bbPost⟩
      | post =>
          exact ⟨hmono.instPre, routines_snoc rfl hr.instPost, hmono.typedPre, hmono.typedPost,
            hmono.bbPre, hmono.bbPost⟩
  | instType type func iPoint lowerBound upperBound =>
      cases iPoint with
      | pre =>
          refine ⟨hmono.instPre, hmono.instPost, fun t => ?_, hmono.typedPost, hmono.bbPre,
            hmono.bbPost⟩
          by_cases ht : t = type
          · subst ht
            have hlist : (r.register (.instType t func .pre lowerBound
                upperBound)).instructionRoutinesTypedPre t = r.instructionRoutinesTypedPre t ++
                  [⟨func, lowerBound, upperBound⟩] := Function.update_self _ _ _
            rw [hlist]
            exact routines_snoc rfl (hr.typedPre t)
          · have hlist : (r.register (.instType type func .pre lowerBound
                upperBound)).instructionRoutinesTypedPre t = r.instructionRoutinesTypedPre t :=
              Function.update_of_ne ht _ _
            rw [hlist]
            exact hmono.typedPre t
      | post =>
          refine ⟨hmono.instPre, hmono.instPost, hmono.typedPre, fun t => ?_, hmono.bbPre,
            hmono.bbPost⟩
          by_cases ht : t = type
          · subst ht
            have hlist : (r.register (.instType t func .post lowerBound
                upperBound)).instructionRoutinesTypedPost t = r.instructionRoutinesTypedPost t ++
                  [⟨func, lowerBound, upperBound⟩] := Function.update_self _ _ _
            rw [hlist]
            exact routines_snoc rfl (hr.typedPost t)
          · have hlist : (r.register (.instType type func .post lowerBound
                upperBound)).instructionRoutinesTypedPost t = r.instructionRoutinesTypedPost t :=
              Function.update_of_ne ht _ _
            rw [hlist]
            exact hmono.typedPost t

theorem Rail.From.registerAll (hr : r.From gs) (gs' : List Registration) :
    (gs'.foldl Rail.register r).From (gs ++ gs') := by
  induction gs' generalizing r gs with
  | nil =>
      rw [List.append_nil]
      exact hr
  | cons g gs' ih =>
      have hrest := ih (hr.register g)
      rw [List.append_assoc] at hrest
      exact hrest

end Registrations

/-! ### The tests -/

/-- The block does not begin at a negative and end at a non-negative address. -/
def Unwrapped (b : RailBasicBlock) : Prop := b.firstAddr.msb = true → b.lastAddr.msb = true

theorem toInt_signExtend_eq (x : BitVec 32) : (x.signExtend 64).toInt = x.toInt :=
  BitVec.toInt_signExtend_of_le (by decide)

/-- The unsigned test of the bounds is as good as the signed one. -/
theorem within_of_unsigned {lo hi : BitVec 32} {x y : DWord} (hle : lo.toInt ≤ hi.toInt)
    (hwrap : x.msb = true → y.msb = true) (hlo : (lo.signExtend 64).ule x = true)
    (hhi : y.ule (hi.signExtend 64) = true) : lo.toInt ≤ x.toInt ∧ y.toInt ≤ hi.toInt := by
  have hL := toInt_signExtend_eq lo
  have hH := toInt_signExtend_eq hi
  rw [← hL, ← hH] at hle ⊢
  clear hL hH
  rw [BitVec.ule, decide_eq_true_eq] at hlo hhi
  rw [BitVec.msb_eq_decide, BitVec.msb_eq_decide, decide_eq_true_eq, decide_eq_true_eq] at hwrap
  generalize lo.signExtend 64 = L at *
  generalize hi.signExtend 64 = H at *
  simp only [BitVec.toInt_eq_toNat_cond] at hle ⊢
  have hx := x.isLt
  have hy := y.isLt
  split_ifs at hle ⊢ <;> omega

/-- The test of an instruction's bounds against an address of a record. -/
theorem InstRoutine.within_of_covers {routine : InstRoutine} {x : DWord} {inst : RvInst}
    (hle : routine.lowerBound.toInt ≤ routine.upperBound.toInt)
    (hcovers : routine.covers x = true) (haddr : inst.address = x.setWidth 32) :
    routine.Within inst := by
  rw [InstRoutine.covers, Bool.and_eq_true] at hcovers
  obtain ⟨hlo, hhi⟩ := within_of_unsigned hle id hcovers.1 hcovers.2
  have hmin := @BitVec.le_toInt 32 routine.lowerBound
  have hmax := @BitVec.toInt_lt 32 routine.upperBound
  -- between two `int`s the low half is the whole address
  have hlow : (x.setWidth 32).toInt = x.toInt := by
    simp only [BitVec.toInt_eq_toNat_cond, BitVec.toNat_setWidth] at hlo hhi ⊢
    have hx := x.isLt
    split_ifs at hlo hhi ⊢ <;> omega
  rw [Within, haddr, hlow]
  exact ⟨hlo, hhi⟩

theorem InstRoutine.within_of_coversInt {routine : InstRoutine} {inst : RvInst}
    (hcovers : routine.coversInt inst.address = true) : routine.Within inst := by
  rw [InstRoutine.coversInt, Bool.and_eq_true, BitVec.sle, BitVec.sle, decide_eq_true_eq,
    decide_eq_true_eq] at hcovers
  exact hcovers

theorem BBRoutine.within_of_covers {routine : BBRoutine} {b : RailBasicBlock}
    (hle : routine.lowerBound.toInt ≤ routine.upperBound.toInt) (hwrap : Unwrapped b)
    (hcovers : routine.covers b.firstAddr b.lastAddr = true) : routine.Within b := by
  rw [BBRoutine.covers, Bool.and_eq_true] at hcovers
  exact within_of_unsigned hle hwrap hcovers.1 hcovers.2

/-! ### Which steps do no harm -/

def Rail.postRoutines (r : Rail) (inst : RvInst) : List InstRoutine :=
  r.instructionRoutinesPost ++ r.instructionRoutinesTypedPost inst.type ++
    if inst.opcode = Op.load ∨ inst.opcode = Op.store then
      r.instructionRoutinesTypedPost .memAccessType
    else []

/-- The bounds are not looked at where they are exceeded. A call of `stub` that
reports a recorded exit reports the last instruction of the current block, or
the instruction it reports lies within the bounds of the POST routines for it
that pass the test of that block; a block that is entered lies within
the bounds of all PRE routines for blocks, unless it is a segment; an
instruction that enters through `instrument` lies within the bounds of the
typed PRE routines that are called for it. -/
def WithinBounds (h : Host) (r : Rail) (cb : Callbacks) (d : Dispatcher) : Event → Prop
  | .call io f taken a =>
      ((a ≠ 0 ∧ (d.cache.exits a).isSome → a.setWidth 32 = d.current.lastAddr.setWidth 32) ∨
        ∀ routine ∈ r.postRoutines (d.left h a).inst, routine.covers d.current.lastAddr = true →
          routine.coversInt (d.left h a).inst.address = true) ∧
      ∀ next, d.entering h r cb io f taken a = some next → next.type ≠ .segmented →
        ∀ routine ∈ r.basicBlockRoutinesPre, routine.covers next.firstAddr next.lastAddr = true
  | .instrument _ =>
      (∀ routine ∈ r.instructionRoutinesTypedPre (firstInst h d.current).type,
        routine.coversInt (firstInst h d.current).address = true) ∧
      ((firstInst h d.current).opcode = Op.load ∨ (firstInst h d.current).opcode = Op.store →
        (r.instructionRoutinesStart.signExtend 64).ule d.current.firstAddr = true →
          d.current.firstAddr.ule (r.instructionRoutinesEnd.signExtend 64) = true →
            ∀ routine ∈ r.instructionRoutinesTypedPre .memAccessType,
              routine.coversInt (firstInst h d.current).address = true)

/-! ### Calls -/

section Calls

variable {gs : List Registration} {inst : RvInst} {b : RailBasicBlock}

theorem allowed_instCalls {routines : List InstRoutine} {p : InstRoutine → Bool}
    (hfrom : ∀ routine ∈ routines, ∃ g ∈ gs, g.instRoutine = some routine)
    (hp : ∀ routine ∈ routines, p routine = true → routine.Within inst) :
    ∀ call ∈ instCalls p inst routines, Allowed gs call := by
  intro call hcall
  obtain ⟨routine, hin, rfl⟩ := List.mem_map.mp hcall
  rw [List.mem_filter] at hin
  obtain ⟨g, hg, hof⟩ := hfrom routine hin.1
  exact ⟨g, hg, routine, hof, rfl, hp routine hin.1 hin.2⟩

theorem allowed_bbCalls {routines : List BBRoutine} {p : BBRoutine → Bool}
    (hfrom : ∀ routine ∈ routines, ∃ g ∈ gs, g.bbRoutine = some routine)
    (hp : ∀ routine ∈ routines, p routine = true → routine.Within b) :
    ∀ call ∈ bbCalls p b routines, Allowed gs call := by
  intro call hcall
  obtain ⟨routine, hin, rfl⟩ := List.mem_map.mp hcall
  rw [List.mem_filter] at hin
  obtain ⟨g, hg, hof⟩ := hfrom routine hin.1
  exact ⟨g, hg, routine, hof, rfl, hp routine hin.1 hin.2⟩

theorem allowed_append {calls calls' : List Call} (hcalls : ∀ call ∈ calls, Allowed gs call)
    (hcalls' : ∀ call ∈ calls', Allowed gs call) : ∀ call ∈ calls ++ calls', Allowed gs call := by
  intro call hcall
  rcases List.mem_append.mp hcall with hcall | hcall
  · exact hcalls call hcall
  · exact hcalls' call hcall

theorem allowed_ite {c : Prop} [Decidable c] {calls : List Call}
    (hcalls : c → ∀ call ∈ calls, Allowed gs call) :
    ∀ call ∈ (if c then calls else []), Allowed gs call := by
  intro call hcall
  split at hcall
  · exact hcalls (by assumption) call hcall
  · cases hcall

variable {h : Host} {r : Rail} (hr : r.From gs) (hord : ∀ g ∈ gs, g.Ordered)

include hord

theorem bounds_of_inst {routine : InstRoutine}
    (hfrom : ∃ g ∈ gs, g.instRoutine = some routine) :
    routine.lowerBound.toInt ≤ routine.upperBound.toInt := by
  obtain ⟨g, hg, hof⟩ := hfrom
  have hle := hord g hg
  cases g with
  | bbAll => cases hof
  | instAll =>
      obtain rfl := Option.some.inj hof
      exact hle
  | instType =>
      obtain rfl := Option.some.inj hof
      exact hle

theorem bounds_of_bb {routine : BBRoutine}
    (hfrom : ∃ g ∈ gs, g.bbRoutine = some routine) :
    routine.lowerBound.toInt ≤ routine.upperBound.toInt := by
  obtain ⟨g, hg, hof⟩ := hfrom
  have hle := hord g hg
  cases g with
  | bbAll =>
      obtain rfl := Option.some.inj hof
      exact hle
  | instAll => cases hof
  | instType => cases hof

include hr

omit hord in
theorem allowed_systemCalls (last : LastInst) : ∀ call ∈ systemCalls r last, Allowed gs call := by
  rw [systemCalls]
  refine allowed_ite fun _ => allowed_append ?_ ?_
  · exact allowed_instCalls (hr.typedPre _) fun _ _ hp => InstRoutine.within_of_coversInt hp
  · exact allowed_instCalls (hr.typedPost _) fun _ _ hp => InstRoutine.within_of_coversInt hp

theorem allowed_postCalls (hwrap : Unwrapped b)
    (hlast : inst.address = b.lastAddr.setWidth 32 ∨ ∀ routine ∈ r.postRoutines inst,
      routine.covers b.lastAddr = true → routine.coversInt inst.address = true) :
    ∀ call ∈ postCalls r b inst, Allowed gs call := by
  have hinst {routines : List InstRoutine}
      (hfrom : ∀ routine ∈ routines, ∃ g ∈ gs, g.instRoutine = some routine)
      (hpost : ∀ routine ∈ routines, routine ∈ r.postRoutines inst) :
      ∀ call ∈ instCalls (·.covers b.lastAddr) inst routines, Allowed gs call := by
    refine allowed_instCalls hfrom fun routine hin hp => ?_
    rcases hlast with haddr | hall
    · exact InstRoutine.within_of_covers (bounds_of_inst hord (hfrom routine hin)) hp
        haddr
    · exact InstRoutine.within_of_coversInt (hall routine (hpost routine hin) hp)
  rw [postCalls]
  refine allowed_ite fun _ => allowed_append (allowed_append (allowed_append ?_ ?_) ?_) ?_
  · refine allowed_ite fun _ => allowed_bbCalls hr.bbPost fun routine hin hp => ?_
    exact BBRoutine.within_of_covers (bounds_of_bb hord (hr.bbPost routine hin)) hwrap hp
  · refine hinst hr.instPost fun routine hin => ?_
    exact List.mem_append_left _ (List.mem_append_left _ hin)
  · refine hinst (hr.typedPost _) fun routine hin => ?_
    exact List.mem_append_left _ (List.mem_append_right _ hin)
  · refine allowed_ite fun haccess => hinst (hr.typedPost _) fun routine hin => ?_
    rw [Rail.postRoutines, if_pos haccess]
    exact List.mem_append_right _ hin

theorem allowed_preCalls (hwrap : Unwrapped b) (bounded : Bool)
    (hbounded : bounded = false → b.type ≠ .segmented → ∀ routine ∈ r.basicBlockRoutinesPre,
      routine.covers b.firstAddr b.lastAddr = true) :
    ∀ call ∈ preCalls h r bounded b, Allowed gs call := by
  rw [preCalls]
  refine allowed_ite fun _ => allowed_append (allowed_ite fun hseg => ?_) ?_
  · refine allowed_bbCalls hr.bbPre fun routine hin hp => ?_
    have hcovers : routine.covers b.firstAddr b.lastAddr = true := by
      cases bounded with
      | false => exact hbounded rfl hseg routine hin
      | true => exact hp
    exact BBRoutine.within_of_covers (bounds_of_bb hord (hr.bbPre routine hin)) hwrap
      hcovers
  · refine allowed_instCalls hr.instPre fun routine hin hp => ?_
    exact InstRoutine.within_of_covers (bounds_of_inst hord (hr.instPre routine hin)) hp
      rfl

omit hord in
theorem allowed_instrumentCalls {cb : Callbacks} {d : Dispatcher} {f : TrapFrame}
    (hok : WithinBounds h r cb d (.instrument f)) :
    ∀ call ∈ instrumentCalls h r d.current, Allowed gs call := by
  rw [instrumentCalls]
  refine allowed_append ?_ (allowed_ite fun haccess => ?_)
  · exact allowed_instCalls (hr.typedPre _) fun routine hin _ =>
      InstRoutine.within_of_coversInt (hok.1 routine hin)
  · refine allowed_instCalls (hr.typedPre _) fun routine hin hp => ?_
    rw [Bool.and_eq_true] at hp
    exact InstRoutine.within_of_coversInt (hok.2 haccess hp.1 hp.2 routine hin)

end Calls

/-! ### Blocks do not run through address zero -/

section Wrap

variable {h : Host} {r : Rail} {elf : ElfReader} {cb : Callbacks}
  {cfgGenerator : Option CfgGenerator} {ok : Dispatcher → Event → Prop}
  {l : List (Dispatcher × Event)} {d : Dispatcher}

theorem TraceWalk.of_fetch_zero {i : ℕ} {pc q : BitVec 32} {ps : List Piece} {e : TraceEnd}
    (hwalk : TraceWalk h r elf i pc ps q e) (h0 : elf.fetch pc = 0) : q = pc := by
  cases hwalk with
  | straight hin => exact absurd h0 hin.ne_zero
  | followed hop =>
      rw [h0] at hop
      cases hop
  | lost | stopped | segmented | exhausted | endless | empty => rfl

theorem msb_signExtend (x : BitVec 32) : (x.signExtend 64).msb = x.msb := by
  simp [BitVec.msb_signExtend]

theorem fetch_of_msb (hrange : elf.InRange) {pc : BitVec 32} (hmsb : pc.msb = true) :
    elf.fetch pc = 0 := by
  by_contra hne
  have hlt := hrange pc hne
  rw [BitVec.msb_eq_decide, decide_eq_true_eq] at hmsb
  omega

theorem recordRule_unwrapped (hrange : elf.InRange) :
    RecordRule h r elf fun _ b => Unwrapped b where
  empty _ hmsb := hmsb
  renamed _ hb _ := hb
  allocated {pc c a n x b} hb := by
    rw [allocate] at hb
    by_cases hlink : r.traceLinkingEnabled = true
    · rw [if_pos hlink] at hb
      refine (allocateTrace_record hb).imp id ?_
      rintro ⟨-, ps, q, e, hwalk, hrec, -⟩ hmsb
      rw [hrec.firstAddr, asInt, msb_signExtend] at hmsb
      rw [hrec.lastAddr, msb_signExtend,
        hwalk.of_setProgramCounter.of_fetch_zero (fetch_of_msb hrange hmsb)]
      exact hmsb
    · rw [if_neg hlink] at hb
      refine (allocateBB_record hb).imp id ?_
      rintro ⟨hblock, -, -⟩ hmsb
      obtain ⟨y, hy, hne⟩ := hblock.fetch_first
      rw [hy, msb_signExtend] at hmsb
      exact absurd (fetch_of_msb hrange hmsb) hne

theorem unwrapped_current (hrange : elf.InRange)
    (hrun : Run (dispatch h r cb elf cfgGenerator) ok l d) : Unwrapped d.current := by
  have hrec := ((recordRule_unwrapped hrange).run hrun).2
  rw [Dispatcher.current, CodeCache.lookup]
  rcases hb : d.cache.railBasicBlocks (d.cache.currentBB.setWidth 64) with _ | b
  · exact fun hmsb => hmsb
  · exact hrec _ b hb

end Wrap

/-! ### Runs -/

section Run

variable {h : Host} {r : Rail} {elf : ElfReader} {cb : Callbacks}
  {cfgGenerator : Option CfgGenerator} {l : List (Dispatcher × Event)} {d : Dispatcher}
  {gs : List Registration}

/-- The address the dispatcher gives to the instruction that has been left. -/
theorem address_left (d : Dispatcher) (a : DWord) : (d.left h a).inst.address =
    if a ≠ 0 ∧ (d.cache.exits a).isSome then a.setWidth 32 else d.current.lastAddr.setWidth 32 := by
  rw [Dispatcher.left, lastInst, exits_lookedUp]
  split <;> rfl

theorem allowed_leave (hr : r.From gs) (hord : ∀ g ∈ gs, g.Ordered) (hrange : elf.InRange)
    {ok : Dispatcher → Event → Prop} (hrun : Run (dispatch h r cb elf cfgGenerator) ok l d)
    {io : IoRequest → DWord} {f : TrapFrame} {taken a : DWord} {s : Successor}
    (hs : d.leave h r cb io f taken a = .returned s)
    (hok : WithinBounds h r cb d (.call io f taken a)) :
    ∀ call ∈ systemCalls r (d.left h a) ++ postCalls r s.current (d.left h a).inst,
      Allowed gs call := by
  have hcur : s.current = { d.current with takenBlock := s.current.takenBlock } :=
    successor_current hs
  have hwrap : Unwrapped s.current := by
    rw [hcur]
    exact unwrapped_current hrange hrun
  have hlast : (d.left h a).inst.address = s.current.lastAddr.setWidth 32 ∨
      ∀ routine ∈ r.postRoutines (d.left h a).inst, routine.covers s.current.lastAddr = true →
        routine.coversInt (d.left h a).inst.address = true := by
    rw [hcur]
    refine hok.1.imp (fun hsame => ?_) id
    rw [address_left]
    split
    · exact hsame (by assumption)
    · rfl
  exact allowed_append (allowed_systemCalls hr _) (allowed_postCalls hr hord hwrap hlast)

/-- The calls of a run: those of `instrument`, and of `stub` those behind a block
and those in front of the next one. -/
theorem allowed_run (hfrom : r.From gs) (hord : ∀ g ∈ gs, g.Ordered) (hrange : elf.InRange)
    (hrun : Run (dispatch h r cb elf cfgGenerator) (WithinBounds h r cb) l d) :
    ∀ call ∈ d.calls, Allowed gs call := by
  induction hrun with
  | start hs =>
      obtain ⟨f, rfl⟩ := hs
      obtain ⟨next, hnext, hinit⟩ := @init_dispatcher h r cb elf f cfgGenerator
      rw [hinit]
      have hwrap : Unwrapped next := by
        refine @RecordRule.start h r cb elf cfgGenerator _ (recordRule_unwrapped hrange) f
          elf.entryAddr next ?_
        rw [hinit, hnext]
        exact railBasicBlocks_lookup_self _ _
      exact allowed_preCalls hfrom hord hwrap true fun hb => by cases hb
  | @next l d d' e hrun hok hstep ih =>
      have hrun' := hrun.next hok hstep
      cases e with
      | instrument f =>
          obtain rfl := Option.some.inj hstep
          rw [instrument_dispatcher]
          exact allowed_append ih (allowed_instrumentCalls hfrom hok)
      | call io f taken a =>
          obtain ⟨res, hstub, rfl⟩ := Option.map_eq_some_iff.mp hstep
          obtain ⟨s, next, hst⟩ := stub_step (StubOutcome.eq_returned hstub)
          have hwrap : Unwrapped next := by
            have hrec := ((recordRule_unwrapped hrange).run hrun').2 _ _ hst.record_next
            split at hrec
            · exact hrec
            · exact hrec
          -- the bounds that are not looked at are those of the block that is entered
          have hentering : d.entering h r cb io f taken a = some next := by
            rw [Dispatcher.entering, hst.leave]
            exact hst.registered
          rw [hst.calls]
          refine allowed_append ih (allowed_append ?_ ?_)
          · exact allowed_leave hfrom hord hrange hrun hst.leave hok
          · exact allowed_preCalls hfrom hord hwrap false fun _ hseg => hok.2 next hentering hseg

/-- In every run whose steps stay within the bounds where these are not looked
at, every call is one that a registration asks for. -/
theorem bounds_respected {r₀ : Rail} (hr₀ : r₀.NoCallbacks) (hord : ∀ g ∈ gs, g.Ordered)
    (hr : r = gs.foldl Rail.register r₀) (hrange : elf.InRange)
    (hrun : Run (dispatch h r cb elf cfgGenerator) (WithinBounds h r cb) l d) :
    (∀ call ∈ d.calls, Allowed gs call) ∧
      ∀ io f taken a d', WithinBounds h r cb d (.call io f taken a) →
        stub h r cb io d f taken a = .exited d' → ∀ call ∈ d'.calls, Allowed gs call := by
  have hfrom : r.From gs := by
    rw [hr]
    exact hr₀.from.registerAll gs
  have hcalls := allowed_run hfrom hord hrange hrun
  refine ⟨hcalls, fun io f taken a d' hok hexit => ?_⟩
  rcases stub_exited hexit with hleave | ⟨s, d₁, hleave, rfl, hcalls₁⟩
  · obtain ⟨-, d₁, rfl, hcalls₁, -, -⟩ := leave_exited hleave
    have hall : ∀ call ∈ d₁.calls, Allowed gs call := by
      rw [hcalls₁]
      exact allowed_append hcalls (allowed_instCalls (hfrom.typedPre _) fun _ _ hp =>
        InstRoutine.within_of_coversInt hp)
    intro call hcall
    rcases mem_calls_exitBinary hcall with hmem | ⟨func, rfl⟩
    · exact hall call hmem
    · trivial
  · have hall : ∀ call ∈ d₁.calls, Allowed gs call := by
      rw [hcalls₁]
      exact allowed_append hcalls (allowed_leave hfrom hord hrange hrun hleave hok)
    intro call hcall
    rcases mem_calls_exitBinary hcall with hmem | ⟨func, rfl⟩
    · exact hall call hmem
    · trivial

/-! Two blocks, and a routine for the first one. It is called behind the block
only there, but in front of the other block too. -/

/-- Two blocks that both consist of `beq x0, x0, 8`. -/
def twoBlocksText : ElfReader :=
  .ofWords 0x10000 [0x00000463, 0x00000013, 0x00000463, 0x00000013]

/-- The routine 3 for the blocks from `0x10000` to `0x10004`. -/
def firstBlockOnly (iPoint : InsertPoint) : List Registration := [.bbAll 3 iPoint 0x10000 0x10004]

theorem firstBlockOnly_respected : ∃ l d,
    Run (dispatch requestedHost ((firstBlockOnly .post).foldl Rail.register (Rail.plain false))
      idleCallbacks twoBlocksText none) Any l d ∧
    d.calls.length = 1 ∧ ∀ call ∈ d.calls, Allowed (firstBlockOnly .post) call := by
  have hstep : ((dispatch requestedHost
      ((firstBlockOnly .post).foldl Rail.register (Rail.plain false)) idleCallbacks twoBlocksText
        none).step (started ((firstBlockOnly .post).foldl Rail.register (Rail.plain false))
          twoBlocksText) (leaving 1 0)).map (·.calls.length) = some 1 := by
    decide +kernel
  obtain ⟨d, hd, hlen⟩ := Option.map_eq_some_iff.mp hstep
  have hok : WithinBounds requestedHost
      ((firstBlockOnly .post).foldl Rail.register (Rail.plain false)) idleCallbacks
        (started ((firstBlockOnly .post).foldl Rail.register (Rail.plain false)) twoBlocksText)
          (leaving 1 0) :=
    ⟨.inl fun hrecorded => absurd rfl hrecorded.1, fun _ _ _ => nofun⟩
  have hord : ∀ g ∈ firstBlockOnly .post, g.Ordered := by
    intro g hg
    obtain rfl := List.mem_singleton.mp hg
    show (0x10000 : BitVec 32).toInt ≤ (0x10004 : BitVec 32).toInt
    decide
  exact ⟨_, d, (run_started _ twoBlocksText _).next trivial hd, hlen,
    (bounds_respected (Rail.uninstrumented_plain false).toNoCallbacks hord rfl
      (inRange_ofWords (by decide) (by decide)) ((run_started _ twoBlocksText _).next hok hd)).1⟩

theorem firstBlockOnly_exceeded : ∃ l d b,
    Run (dispatch requestedHost ((firstBlockOnly .pre).foldl Rail.register (Rail.plain false))
      idleCallbacks twoBlocksText none) Any l d ∧
    .bb 3 b ∈ d.calls ∧ b.firstAddr = 0x10008 ∧ ¬ Allowed (firstBlockOnly .pre) (.bb 3 b) := by
  have hstep : ((dispatch requestedHost
      ((firstBlockOnly .pre).foldl Rail.register (Rail.plain false)) idleCallbacks twoBlocksText
        none).step (started ((firstBlockOnly .pre).foldl Rail.register (Rail.plain false))
          twoBlocksText) (leaving 1 0)).map (fun d => d.calls.any fun call =>
            match call with
            | .bb func b => func == 3 && b.firstAddr == 0x10008 && b.lastAddr == 0x10008
            | _ => false) = some true := by
    decide +kernel
  obtain ⟨d, hd, hany⟩ := Option.map_eq_some_iff.mp hstep
  obtain ⟨call, hmem, hcall⟩ := List.any_eq_true.mp hany
  cases call with
  | inst | exit => cases hcall
  | bb func b =>
      simp only [Bool.and_eq_true, beq_iff_eq] at hcall
      obtain ⟨⟨rfl, hfirst⟩, hlast⟩ := hcall
      refine ⟨_, d, b, (run_started _ twoBlocksText _).next trivial hd, hmem, hfirst, ?_⟩
      rintro ⟨g, hg, routine, hof, -, -, hupper⟩
      obtain rfl := List.mem_singleton.mp hg
      obtain rfl := Option.some.inj hof
      rw [hlast] at hupper
      exact absurd hupper (by decide)

end Run

end RailTranslator
