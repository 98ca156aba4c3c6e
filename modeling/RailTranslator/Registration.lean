import RailTranslator.Dispatcher

/-!
`rail.cpp`: registering routines.

A routine goes to the end of the list of its kind and its insert point, and
the flag of the insert point is set. Routines for instructions also move the
bounds by which the allocators decide whether an instruction is instrumented:
an unbounded registration sets them, a bounded one only widens them. Routines
for basic blocks leave them alone.
-/

namespace RailTranslator

open Rv64

inductive InsertPoint
  | pre | post
  deriving DecidableEq, Repr

/-- `std::numeric_limits<int>::max()` -/
def intMax : BitVec 32 := 0x7fffffff

/-- A routine with the bounds its structure is initialised with. -/
def InstRoutine.unbounded (func : ℕ) : InstRoutine where
  func := func
  lowerBound := 0
  upperBound := intMax

def BBRoutine.unbounded (func : ℕ) : BBRoutine where
  func := func
  lowerBound := 0
  upperBound := intMax

namespace Rail

variable (r : Rail)

/-! ### The lists -/

def pushBB (routine : BBRoutine) : InsertPoint → Rail
  | .pre => { r with
      basicBlockRoutinesPre := r.basicBlockRoutinesPre ++ [routine]
      preInstrumentationRoutines := true }
  | .post => { r with
      basicBlockRoutinesPost := r.basicBlockRoutinesPost ++ [routine]
      postInstrumentationRoutines := true }

def pushInst (routine : InstRoutine) : InsertPoint → Rail
  | .pre => { r with
      instructionRoutinesPre := r.instructionRoutinesPre ++ [routine]
      preInstrumentationRoutines := true }
  | .post => { r with
      instructionRoutinesPost := r.instructionRoutinesPost ++ [routine]
      postInstrumentationRoutines := true }

def pushTyped (type : InstType) (routine : InstRoutine) : InsertPoint → Rail
  | .pre => { r with
      instructionRoutinesTypedPre := Function.update r.instructionRoutinesTypedPre type
        (r.instructionRoutinesTypedPre type ++ [routine])
      preInstrumentationRoutines := true }
  | .post => { r with
      instructionRoutinesTypedPost := Function.update r.instructionRoutinesTypedPost type
        (r.instructionRoutinesTypedPost type ++ [routine])
      postInstrumentationRoutines := true }

def resetBounds : Rail :=
  { r with instructionRoutinesStart := 0, instructionRoutinesEnd := intMax }

def widenBounds (lowerBound upperBound : BitVec 32) : Rail :=
  { r with
    instructionRoutinesStart :=
      if lowerBound.slt r.instructionRoutinesStart then lowerBound else r.instructionRoutinesStart
    instructionRoutinesEnd :=
      if r.instructionRoutinesEnd.slt upperBound then upperBound else r.instructionRoutinesEnd }

/-! ### The interface -/

def addInstrumentBBAll (func : ℕ) (iPoint : InsertPoint) : Rail :=
  r.pushBB (.unbounded func) iPoint

def addInstrumentBBAllIn (func : ℕ) (iPoint : InsertPoint) (lowerBound upperBound : BitVec 32) :
    Rail :=
  r.pushBB ⟨func, lowerBound, upperBound⟩ iPoint

def addInstrumentInstAll (func : ℕ) (iPoint : InsertPoint) : Rail :=
  r.resetBounds.pushInst (.unbounded func) iPoint

def addInstrumentInstAllIn (func : ℕ) (iPoint : InsertPoint) (lowerBound upperBound : BitVec 32) :
    Rail :=
  (r.widenBounds lowerBound upperBound).pushInst ⟨func, lowerBound, upperBound⟩ iPoint

def addInstrumentInstType (type : InstType) (func : ℕ) (iPoint : InsertPoint) : Rail :=
  r.resetBounds.pushTyped type (.unbounded func) iPoint

def addInstrumentInstTypeIn (type : InstType) (func : ℕ) (iPoint : InsertPoint)
    (lowerBound upperBound : BitVec 32) : Rail :=
  (r.widenBounds lowerBound upperBound).pushTyped type ⟨func, lowerBound, upperBound⟩ iPoint

def addInlineInstforInstRoutine (instruction : Word) : Rail :=
  { r with inlineInstRoutinePost := r.inlineInstRoutinePost ++ [instruction] }

def addInlineInstforInstTypeRoutine (instruction : Word) (type : InstType) : Rail :=
  { r with
    inlineInstRoutinesTypedPost := Function.update r.inlineInstRoutinesTypedPost type
      (r.inlineInstRoutinesTypedPost type ++ [instruction]) }

def setExitRoutine (func : ℕ) : Rail := { r with exitRoutine := some func }

/-! ### Bounds -/

/-- The bounds the allocators look at, after an unbounded registration. -/
def DefaultBounds : Prop := r.instructionRoutinesStart = 0 ∧ r.instructionRoutinesEnd = intMax

variable {r}

theorem DefaultBounds.shouldInstrument (hr : r.DefaultBounds) (pc : BitVec 32) :
    RailTranslator.shouldInstrument r pc = true := by
  have hend : intMax.slt pc = false := by
    have hlt := @BitVec.toInt_lt 32 pc
    have hmax : intMax.toInt = 2 ^ 31 - 1 := by decide
    rw [BitVec.slt, hmax]
    exact decide_eq_false (by omega)
  rw [RailTranslator.shouldInstrument, hr.2, hend, Bool.and_false]
  rfl

theorem defaultBounds_addInstrumentInstAll (func : ℕ) (iPoint : InsertPoint) :
    (r.addInstrumentInstAll func iPoint).DefaultBounds := by
  cases iPoint with
  | pre => exact ⟨rfl, rfl⟩
  | post => exact ⟨rfl, rfl⟩

theorem defaultBounds_addInstrumentInstType (type : InstType) (func : ℕ) (iPoint : InsertPoint) :
    (r.addInstrumentInstType type func iPoint).DefaultBounds := by
  cases iPoint with
  | pre => exact ⟨rfl, rfl⟩
  | post => exact ⟨rfl, rfl⟩

end Rail

theorem toNat_signExtend {a : BitVec 32} (ha : a.toNat < 2 ^ 31) :
    (a.signExtend 64).toNat = a.toNat := by
  have hmsb : a.msb = false := by
    rw [BitVec.msb_eq_decide]
    exact decide_eq_false (by omega)
  rw [BitVec.signExtend_eq_setWidth_of_msb_false hmsb, BitVec.toNat_setWidth]
  omega

theorem InstRoutine.covers_unbounded (func : ℕ) {a : BitVec 32} (ha : a.toNat < 2 ^ 31) :
    (InstRoutine.unbounded func).covers (a.signExtend 64) = true := by
  have hnat := toNat_signExtend ha
  rw [InstRoutine.covers]
  have hupper : (InstRoutine.unbounded func).upperBound.signExtend 64 = 0x7fffffff := by
    show intMax.signExtend 64 = _
    decide
  have hlower : (InstRoutine.unbounded func).lowerBound.signExtend 64 = 0 := by
    show (0 : BitVec 32).signExtend 64 = _
    decide
  rw [hupper, hlower, BitVec.ule, BitVec.ule, Bool.and_eq_true, decide_eq_true_eq,
    decide_eq_true_eq]
  constructor <;> bv_omega

end RailTranslator
