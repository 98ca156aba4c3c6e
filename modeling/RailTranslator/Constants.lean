import RailTranslator.CacheCode
import RailTranslator.Emitted
import RailTranslator.Registration

/-!
Constants that are assembled by hand.

`insertLi` and its three copies in `rail.cpp` load the upper twenty bits of the
low half of a value and add half of the rest twice. The halves are rounded
down, so that the constant arrives without its lowest bit. Addresses of code
have no lowest bit, and what a tool counts with has one.
-/

namespace RailTranslator

open Rv64

/-! ### Words that load a value -/

/-- Wherever the words stand, they put the value into the register and change
nothing else. -/
def Materialises (reg : Reg) (value : DWord) (ws : List Word) : Prop :=
  ∀ (code : Code) (a : DWord) (s : Machine), CodeAt code a ws →
    run direct code ws.length (s.goto a) =
      some ((s.setReg reg value).goto (wordAddr a ws.length))

section Materialises

variable {reg : Reg} {value value' : DWord} {ws : List Word}

theorem Materialises.unique (h : Materialises reg value ws) (h' : Materialises reg value' ws)
    (hreg : reg ≠ 0) (hfit : 4 * ws.length ≤ 2 ^ 64) : value = value' := by
  have hcode := @codeAt_image_self 0 ws hfit
  let s : Machine := ⟨0, ⟨fun _ => 0, Regs.const_zero⟩, fun _ => 0⟩
  have heq := (h _ 0 s hcode).symm.trans (h' _ 0 s hcode)
  have hregs := congrArg (fun s : Machine => s.regs reg) (Option.some.inj heq)
  simp only [Machine.regs_goto, Machine.regs_setReg, Regs.set_same _ _ hreg] at hregs
  exact hregs

theorem materialises_insertLi (value : DWord) (reg : Reg) :
    Materialises reg (liValue value) (insertLi value (reg.setWidth 32)) := by
  intro code a s hcode
  have hrun := @run_straight direct s _ _ _ _ hcode (map_decode_insertLi value reg)
    (straight_liInstrs value reg)
  rw [execs_liInstrs] at hrun
  exact hrun

theorem materialises_insertLi_iff (hreg : reg ≠ 0) :
    Materialises reg value (insertLi value (reg.setWidth 32)) ↔ liValue value = value := by
  constructor
  · intro h
    exact (materialises_insertLi value reg).unique h hreg (by rw [length_insertLi]; decide)
  · intro heq
    have h := materialises_insertLi value reg
    rwa [heq] at h

end Materialises

/-! ### Which values arrive -/

theorem getLsbD_zero_liValue (v : DWord) : (liValue v).getLsbD 0 = false := by
  simp [liValue, ofLow]

theorem liValue_eq_iff {v : DWord} :
    liValue v = v ↔ v.getLsbD 0 = false ∧ -2 ^ 31 ≤ v.toInt ∧ v.toInt < 2 ^ 31 := by
  constructor
  · intro h
    have hodd := getLsbD_zero_liValue v
    rw [h] at hodd
    refine ⟨hodd, ?_⟩
    rw [← h, liValue, ofLow, BitVec.toInt_signExtend_of_le (by omega)]
    exact ⟨BitVec.le_toInt _, BitVec.toInt_lt⟩
  · rintro ⟨heven, hlo, hhi⟩
    have hlow : low v &&& ~~~1#32 = low v := by
      apply BitVec.eq_of_getLsbD_eq
      intro i hi
      have hmask : (~~~1#32).getLsbD i = decide (i ≠ 0) := by
        revert i
        decide
      rw [BitVec.getLsbD_and, hmask]
      cases i with
      | zero =>
          rw [low, BitVec.getLsbD_setWidth, heven]
          rfl
      | succ i => simp
    rw [liValue, hlow, ofLow, low]
    exact signExtend_setWidth_of_fits (by decide) (by omega) (by omega)

/-! ### `insertLi` -/

theorem liValue_signExtend_iff {x : BitVec 32} :
    liValue (x.signExtend 64) = x.signExtend 64 ↔ x.getLsbD 0 = false := by
  have hbit : (x.signExtend 64).getLsbD 0 = x.getLsbD 0 := by
    rw [BitVec.getLsbD_signExtend]
    simp
  have hrange : (x.signExtend 64).toInt = x.toInt := BitVec.toInt_signExtend_of_le (by omega)
  rw [liValue_eq_iff, hbit, hrange]
  exact and_iff_left ⟨BitVec.le_toInt _, BitVec.toInt_lt⟩

/-- What the translators load: handlers, the data offset, and from an even
program counter the address of the instruction, the one behind it and the
result of an `auipc`. -/
inductive Loaded32 (h : Host) : DWord → Prop
  | handler (k : SwitchRoutine) : Loaded32 h (h.handler k)
  | dataOffset : Loaded32 h (dataOffset.signExtend 64)
  | address {pc : BitVec 32} (heven : pc.getLsbD 0 = false) : Loaded32 h (pc.signExtend 64)
  | returnAddress {pc : BitVec 32} (heven : pc.getLsbD 0 = false) :
      Loaded32 h ((pc + 4).signExtend 64)
  | auipc {pc : BitVec 32} (w : Word) (heven : pc.getLsbD 0 = false) :
      Loaded32 h (auipcValue h pc w)

theorem Loaded32.liValue_eq {h : Host} {v : DWord} (hv : Loaded32 h v) : liValue v = v := by
  have hadd (pc x : BitVec 32) (hpc : pc.getLsbD 0 = false) (hx : x.getLsbD 0 = false) :
      (pc + x).getLsbD 0 = false := by
    rw [BitVec.getLsbD_add (by decide), hpc, hx]
    simp
  cases hv with
  | handler k => exact h.liValue_handler k
  | dataOffset => decide
  | address heven => exact liValue_signExtend_iff.mpr heven
  | returnAddress heven => exact liValue_signExtend_iff.mpr (hadd _ _ heven (by decide))
  | auipc w heven =>
      refine liValue_signExtend_iff.mpr (hadd _ _ heven ?_)
      rw [BitVec.getLsbD_shiftLeft]
      rfl

/-- The three words load the low half of the value without its lowest bit,
sign extended, so that exactly the even values from -2^31 to 2^31 arrive, and
all that the translators load. -/
theorem insertLi_materialises (value : DWord) {reg : Reg} (hreg : reg ≠ 0) :
    Materialises reg ((value.setWidth 32 &&& ~~~1#32).signExtend 64)
        (insertLi value (reg.setWidth 32)) ∧
      (Materialises reg value (insertLi value (reg.setWidth 32)) ↔
        value.getLsbD 0 = false ∧ -2 ^ 31 ≤ value.toInt ∧ value.toInt < 2 ^ 31) ∧
      ∀ h, Loaded32 h value → Materialises reg value (insertLi value (reg.setWidth 32)) := by
  have hiff := @materialises_insertLi_iff reg value hreg
  refine ⟨materialises_insertLi value reg, hiff.trans liValue_eq_iff, ?_⟩
  intro h hv
  exact hiff.mpr hv.liValue_eq

theorem insertLi_materialises_handler :
    Materialises t6 0x00020200 (insertLi 0x00020200 regs.t6) :=
  (@insertLi_materialises 0x00020200 t6 (by decide)).2.2 requestedHost
    (.handler .contextSwitchTaken)

/-! ### The copies in `rail.cpp` -/

namespace Rail

variable (r : Rail)

/-- The words are assembled as in `insertLi`. -/
def addInlineLiforInstRoutine (value : DWord) (reg : BitVec 32) : Rail :=
  { r with inlineInstRoutinePost := r.inlineInstRoutinePost ++ insertLi value reg }

def addInlineLiforInstTypeRoutine (value : DWord) (reg : BitVec 32) (type : InstType) : Rail :=
  { r with
    inlineInstRoutinesTypedPost := Function.update r.inlineInstRoutinesTypedPost type
      (r.inlineInstRoutinesTypedPost type ++ insertLi value reg) }

def addInlineLiforBBRoutine (value : DWord) (reg : BitVec 32) : Rail :=
  { r with inlineBBRoutinePost := r.inlineBBRoutinePost ++ insertLi value reg }

end Rail

inductive InlineLi
  | inst
  | instType (type : InstType)
  | bb

namespace InlineLi

def add (r : Rail) (value : DWord) (reg : BitVec 32) : InlineLi → Rail
  | inst => r.addInlineLiforInstRoutine value reg
  | instType type => r.addInlineLiforInstTypeRoutine value reg type
  | bb => r.addInlineLiforBBRoutine value reg

def words (r : Rail) : InlineLi → List Word
  | inst => r.inlineInstRoutinePost
  | instType type => r.inlineInstRoutinesTypedPost type
  | bb => r.inlineBBRoutinePost

def appended (r : Rail) (value : DWord) (reg : BitVec 32) (k : InlineLi) : List Word :=
  (k.words (k.add r value reg)).drop (k.words r).length

theorem appended_eq (r : Rail) (value : DWord) (reg : BitVec 32) (k : InlineLi) :
    k.appended r value reg = insertLi value reg := by
  have hwords : k.words (k.add r value reg) = k.words r ++ insertLi value reg := by
    cases k with
    | inst => rfl
    | instType type => exact Function.update_self _ _ _
    | bb => rfl
  rw [appended, hwords, List.drop_left]

end InlineLi

/-- A constant below 2^31 is loaded when it is even. -/
theorem addInlineLi_materialises_iff (k : InlineLi) (r : Rail) {value : DWord}
    (hvalue : value.toNat < 2 ^ 31) {reg : Reg} (hreg : reg ≠ 0) :
    Materialises reg value (k.appended r value (reg.setWidth 32)) ↔ value.getLsbD 0 = false := by
  have hint : value.toInt = value.toNat := BitVec.toInt_eq_toNat_of_lt (by omega)
  rw [InlineLi.appended_eq, materialises_insertLi_iff hreg, liValue_eq_iff, hint]
  refine and_iff_left ⟨?_, ?_⟩ <;> omega

theorem addInlineLi_materialises_two :
    Materialises t6 2 (InlineLi.inst.appended (.plain true) 2 regs.t6) :=
  (@addInlineLi_materialises_iff .inst (.plain true) 2 (by decide) t6 (by decide)).mpr
    (by decide)

/-- A counter cannot be set to one. -/
theorem addInlineLi_loses_one : ¬ ∀ (k : InlineLi) (r : Rail) (value : DWord) (reg : Reg),
    value.toNat < 2 ^ 31 → reg ≠ 0 →
      Materialises reg value (k.appended r value (reg.setWidth 32)) := by
  intro h
  have hone := h .inst (.plain true) 1 t5 (by decide) (by decide)
  rw [InlineLi.appended_eq] at hone
  have hbad := (materialises_insertLi 1 t5).unique hone (by decide) (by decide)
  exact absurd hbad (by decide)

end RailTranslator
