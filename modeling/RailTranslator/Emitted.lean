import RailTranslator.CodeCache
import RailTranslator.Fields
import RailTranslator.Rv64.Access

/-!
The emitted words as instructions.

An emission site of the translator writes words that it assembled itself or
copied from `util.S`. This module reads them back: for every sequence that
occurs more than once it gives the instructions the words decode to and the
state they lead to, so that the proofs about blocks and traces run
instructions and never look at a word.
-/

namespace RailTranslator

open Rv64

/-! ### Loading a constant -/

/-- The operand of the two additions of `insertLi`, half of the low twelve bits. -/
def liHalf (value : DWord) : DWord := ((value.extractLsb' 1 11).setWidth 12).signExtend 64

def liInstrs (value : DWord) (reg : Reg) : List Instr :=
  [.lui reg (value.extractLsb' 12 20), .opImm .add reg reg (liHalf value),
    .opImm .add reg reg (liHalf value)]

theorem luiWord_eq (value : DWord) (reg : Reg) :
    Op.lui ||| reg.setWidth 32 <<< 7 ||| (value >>> 12 &&& 0xfffff).setWidth 32 <<< 12 =
      uType (value.extractLsb' 12 20) reg Opcode.lui := by
  have hmask : ∀ i < 64, (0xfffff#64).getLsbD i = decide (i < 20) := by decide
  have hop : ∀ i < 32, Op.lui.getLsbD i = Opcode.lui.getLsbD i := by decide
  refine BitVec.eq_of_getLsbD_eq fun i hi => ?_
  simp only [uType, BitVec.getLsbD_or, BitVec.getLsbD_shiftLeft, BitVec.getLsbD_append,
    BitVec.getLsbD_setWidth, BitVec.getLsbD_and, BitVec.getLsbD_ushiftRight,
    BitVec.getLsbD_extractLsb', hi, decide_true, Bool.true_and]
  have := hmask (i - 12)
  have := hop i hi
  grind

theorem addiWord_eq (value : DWord) (reg : Reg) :
    Op.opimm ||| reg.setWidth 32 <<< 7 ||| RvFunct.addi <<< 12 ||| reg.setWidth 32 <<< 15 |||
        ((value &&& 0xfff).setWidth 32 >>> 1) <<< 20 =
      iType ((value.extractLsb' 1 11).setWidth 12) reg 0 reg Opcode.opImm := by
  have hmask : ∀ i < 64, (0xfff#64).getLsbD i = decide (i < 12) := by decide
  have hop : ∀ i < 32, Op.opimm.getLsbD i = Opcode.opImm.getLsbD i := by decide
  refine BitVec.eq_of_getLsbD_eq fun i hi => ?_
  simp only [iType, BitVec.getLsbD_or, BitVec.getLsbD_shiftLeft, BitVec.getLsbD_append,
    BitVec.getLsbD_setWidth, BitVec.getLsbD_and, BitVec.getLsbD_ushiftRight,
    BitVec.getLsbD_extractLsb', hi, decide_true, Bool.true_and]
  have := hmask (1 + (i - 20))
  have := hop i hi
  grind

theorem map_decode_insertLi (value : DWord) (reg : Reg) :
    (insertLi value (reg.setWidth 32)).map Instr.decode = (liInstrs value reg).map some := by
  simp only [insertLi, luiWord_eq, addiWord_eq, List.map_cons, List.map_nil, decode_lui,
    decode_addi, liInstrs, liHalf]

theorem straight_liInstrs (value : DWord) (reg : Reg) : ∀ i ∈ liInstrs value reg, i.Straight := by
  simp [liInstrs, Instr.Straight]

@[simp] theorem length_insertLi (value : DWord) (reg : BitVec 32) :
    (insertLi value reg).length = 3 := rfl

theorem upper_add_half (value : DWord) :
    upper (value.extractLsb' 12 20) + liHalf value + liHalf value = liValue value := by
  have hdouble : liHalf value + liHalf value = (value.extractLsb' 1 11 ++ 0#1).setWidth 64 := by
    have hlt : (value.extractLsb' 1 11).toNat < 2 ^ 11 := BitVec.isLt _
    have hmsb : ((value.extractLsb' 1 11).setWidth 12).msb = false := by
      rw [BitVec.msb_eq_false_iff_two_mul_lt, BitVec.toNat_setWidth]; omega
    rw [liHalf, BitVec.signExtend_eq_setWidth_of_msb_false hmsb]
    generalize value.extractLsb' 1 11 = x at *
    have : (x ++ 0#1).toNat = 2 * x.toNat := by
      rw [BitVec.toNat_append]; simp [Nat.shiftLeft_eq]; omega
    bv_omega
  have hdisjoint : upper (value.extractLsb' 12 20) &&&
      (value.extractLsb' 1 11 ++ 0#1).setWidth 64 = 0#64 := by
    refine BitVec.eq_of_getLsbD_eq fun i hi => ?_
    simp only [upper, BitVec.getLsbD_and, BitVec.getLsbD_signExtend, BitVec.getLsbD_append,
      BitVec.getLsbD_setWidth, BitVec.getLsbD_extractLsb', BitVec.getLsbD_zero, hi, decide_true,
      Bool.true_and]
    grind
  have hmask : ∀ i < 32, (~~~1#32).getLsbD i = decide (i ≠ 0) := by decide
  rw [BitVec.add_assoc, hdouble, BitVec.add_eq_or_of_and_eq_zero _ _ hdisjoint]
  refine BitVec.eq_of_getLsbD_eq fun i hi => ?_
  simp only [upper, liValue, ofLow, low, BitVec.getLsbD_or, BitVec.getLsbD_signExtend,
    BitVec.getLsbD_append, BitVec.getLsbD_setWidth, BitVec.getLsbD_extractLsb',
    BitVec.getLsbD_zero, BitVec.getLsbD_and, BitVec.msb_eq_getLsbD_last, hi, decide_true,
    Bool.true_and]
  have := hmask i
  have := hmask 31
  grind

variable {tr : Reg → DWord → DWord} {code : Code}

theorem execs_liInstrs (s : Machine) (value : DWord) (reg : Reg) :
    execs tr s (liInstrs value reg) =
      (s.setReg reg (liValue value)).goto (wordAddr s.pc 3) := by
  have hpc : s.pc + 4 + 4 + 4 = wordAddr s.pc 3 := by simp only [wordAddr]; bv_omega
  simp only [liInstrs, execs_cons, execs_nil, Instr.exec, AluOp.eval, Machine.setReg_goto,
    Machine.setReg_setReg, Machine.regs_goto, Machine.regs_setReg, Machine.pc_goto,
    Machine.goto_goto, hpc]
  by_cases hreg : reg = 0
  · subst hreg; simp
  · rw [Regs.set_same _ _ hreg, Regs.set_same _ _ hreg, upper_add_half]

theorem reaches_insertLi (s : Machine) {a value : DWord} {reg : Reg}
    (hcode : CodeAt code a (insertLi value (reg.setWidth 32))) :
    Reaches tr code (s.goto a) ((s.setReg reg (liValue value)).goto (wordAddr a 3)) := by
  have := @reaches_straight tr s _ _ _ _ hcode (map_decode_insertLi value reg)
    (straight_liInstrs value reg)
  rwa [execs_liInstrs] at this

/-! ### The scratch register -/

def scratch (rs1 : Reg) : Reg := if rs1 = t6 then t5 else t6

theorem scratchReg_setWidth (rs1 : Reg) :
    scratchReg (rs1.setWidth 32) = (scratch rs1).setWidth 32 := by
  revert rs1; decide

theorem scratch_ne (rs1 : Reg) : scratch rs1 ≠ rs1 := by revert rs1; decide

theorem scratch_ne_sp (rs1 : Reg) : scratch rs1 ≠ sp := by revert rs1; decide

theorem scratch_ne_zero (rs1 : Reg) : scratch rs1 ≠ 0 := by revert rs1; decide

def saveInstrs (t : Reg) : List Instr := [.opImm .add sp sp (-16), .store .sd sp t 0]

def loadInstrs (t : Reg) : List Instr := [.load .ld t sp 0, .opImm .add sp sp 16]

theorem map_decode_inlineSave : inlineSave.map Instr.decode = (saveInstrs t6).map some := by
  decide +kernel

theorem map_decode_saveScratch (rs1 : Reg) :
    (saveScratch (scratchReg (rs1.setWidth 32))).map Instr.decode =
      (saveInstrs (scratch rs1)).map some := by
  revert rs1; decide +kernel

theorem map_decode_loadScratch (rs1 : Reg) :
    (loadScratch (scratchReg (rs1.setWidth 32))).map Instr.decode =
      (loadInstrs (scratch rs1)).map some := by
  revert rs1; decide +kernel

@[simp] theorem length_saveScratch (reg : BitVec 32) : (saveScratch reg).length = 2 := by
  unfold saveScratch; split <;> rfl

@[simp] theorem length_loadScratch (reg : BitVec 32) : (loadScratch reg).length = 2 := by
  unfold loadScratch; split <;> rfl

def slot (s : Machine) : DWord := s.regs sp - 16

def withSlot (t : Reg) (s : Machine) : Machine :=
  s.setMem (s.mem.write (slot s) 8 (s.regs t))

def spilled (t : Reg) (s : Machine) : Machine := (withSlot t s).setReg sp (slot s)

def reloaded (t : Reg) (s : Machine) : Machine :=
  (s.setReg t (s.mem.read (s.regs sp) 8)).setReg sp (s.regs sp + 16)

@[simp] theorem slot_goto (s : Machine) (a : DWord) : slot (s.goto a) = slot s := rfl

@[simp] theorem withSlot_goto (t : Reg) (s : Machine) (a : DWord) :
    withSlot t (s.goto a) = (withSlot t s).goto a := rfl

@[simp] theorem regs_withSlot (t : Reg) (s : Machine) : (withSlot t s).regs = s.regs := rfl

@[simp] theorem spilled_goto (t : Reg) (s : Machine) (a : DWord) :
    spilled t (s.goto a) = (spilled t s).goto a := rfl

@[simp] theorem reloaded_goto (t : Reg) (s : Machine) (a : DWord) :
    reloaded t (s.goto a) = (reloaded t s).goto a := rfl

theorem execs_saveInstrs {t : Reg} (ht : t ≠ sp) (s : Machine) :
    execs direct s (saveInstrs t) = (spilled t s).goto (wordAddr s.pc 2) := by
  have hpc : s.pc + 4 + 4 = wordAddr s.pc 2 := by simp only [wordAddr]; bv_omega
  have hsp : s.regs sp + (-16) = s.regs sp - 16 := by bv_omega
  have hoff (a : DWord) : a + (0 : BitVec 12).signExtend 64 = a := by simp
  simp only [saveInstrs, execs_cons, execs_nil, Instr.exec, AluOp.eval, effAddr, direct_apply,
    StoreOp.size, Machine.regs_goto, Machine.regs_setReg, Machine.mem_goto, Machine.mem_setReg,
    Machine.pc_goto, Machine.setMem_goto, Machine.setMem_setReg, Machine.goto_goto,
    Regs.set_of_ne _ _ ht, Regs.set_same _ _ (show sp ≠ 0 by decide), hpc, hsp, hoff]
  rfl

theorem execs_loadInstrs {t : Reg} (ht : t ≠ sp) (s : Machine) :
    execs direct s (loadInstrs t) = (reloaded t s).goto (wordAddr s.pc 2) := by
  have hpc : s.pc + 4 + 4 = wordAddr s.pc 2 := by simp only [wordAddr]; bv_omega
  have hoff (a : DWord) : a + (0 : BitVec 12).signExtend 64 = a := by simp
  simp only [loadInstrs, execs_cons, execs_nil, Instr.exec, AluOp.eval, effAddr, direct_apply,
    LoadOp.size, LoadOp.extend, Machine.regs_goto, Machine.regs_setReg, Machine.pc_goto,
    Machine.setReg_goto, Machine.goto_goto, Regs.set_of_ne _ _ (Ne.symm ht), hpc, hoff]
  rfl

theorem reaches_saveScratch (s : Machine) {a : DWord} {rs1 : Reg}
    (hcode : CodeAt code a (saveScratch (scratchReg (rs1.setWidth 32)))) :
    Reaches direct code (s.goto a) ((spilled (scratch rs1) s).goto (wordAddr a 2)) := by
  have := @reaches_straight direct s _ _ _ _ hcode (map_decode_saveScratch rs1)
    (by simp [saveInstrs, Instr.Straight])
  rwa [execs_saveInstrs (scratch_ne_sp rs1)] at this

theorem reaches_loadScratch (s : Machine) {a : DWord} {rs1 : Reg}
    (hcode : CodeAt code a (loadScratch (scratchReg (rs1.setWidth 32)))) :
    Reaches direct code (s.goto a) ((reloaded (scratch rs1) s).goto (wordAddr a 2)) := by
  have := @reaches_straight direct s _ _ _ _ hcode (map_decode_loadScratch rs1)
    (by simp [loadInstrs, Instr.Straight])
  rwa [execs_loadInstrs (scratch_ne_sp rs1)] at this

theorem reaches_inlineSave (s : Machine) {a : DWord} (hcode : CodeAt code a inlineSave) :
    Reaches direct code (s.goto a) ((spilled t6 s).goto (wordAddr a 2)) := by
  have := @reaches_straight direct s _ _ _ _ hcode map_decode_inlineSave
    (by simp [saveInstrs, Instr.Straight])
  rwa [execs_saveInstrs (by decide)] at this

/-! ### Jumping through `t6` -/

/-- `jalr` clears bit 0 of its target, which an even address does not have. -/
theorem and_not_one_of_even {a : DWord} (ha : a.getLsbD 0 = false) : a &&& ~~~1#64 = a := by
  have hmask : ∀ i < 64, (~~~1#64).getLsbD i = decide (i ≠ 0) := by decide
  refine BitVec.eq_of_getLsbD_eq fun i hi => ?_
  rw [BitVec.getLsbD_and, hmask i hi]
  by_cases h0 : i = 0
  · rw [h0, ha, Bool.false_and]
  · simp [h0]

theorem and_not_one_of_liValue {a : DWord} (ha : liValue a = a) : a &&& ~~~1#64 = a := by
  refine and_not_one_of_even ?_
  rw [← ha]
  simp [liValue, ofLow]

theorem reaches_jalr (s : Machine) {a : DWord} (hcode : code a = some jalrInst) :
    Reaches tr code (s.goto a) (s.goto (s.regs t6 &&& ~~~1#64)) := by
  have hoff : s.regs t6 + (0 : BitVec 12).signExtend 64 = s.regs t6 := by simp
  refine reaches_at s (i := .jalr 0 t6 0) hcode (by decide +kernel) ?_
  rw [Instr.exec, Machine.regs_goto, hoff]
  simp

theorem reaches_handler (s : Machine) {a handler : DWord} (hli : liValue handler = handler)
    (hcode : CodeAt code a (insertLi handler regs.t6 ++ [jalrInst])) :
    Reaches tr code (s.goto a) ((s.setReg t6 handler).goto handler) := by
  obtain ⟨hload, hjump, -⟩ := codeAt_append.mp hcode
  have hrun := @reaches_insertLi tr _ s a handler t6 hload
  rw [hli] at hrun
  refine hrun.trans ?_
  have hjalr := @reaches_jalr tr _ (s.setReg t6 handler) _ hjump
  rw [Machine.regs_setReg, Regs.set_same _ _ (by decide), and_not_one_of_liValue hli] at hjalr
  exact hjalr

theorem reaches_exitTo (s : Machine) {a handler : DWord} (hli : liValue handler = handler)
    (hcode : CodeAt code a (exitTo handler)) :
    Reaches direct code (s.goto a) (((spilled t6 s).setReg t6 handler).goto handler) := by
  rw [exitTo, List.append_assoc] at hcode
  obtain ⟨hsave, hrest⟩ := codeAt_append.mp hcode
  exact (reaches_inlineSave s hsave).trans (reaches_handler _ hli hrest)

@[simp] theorem length_exitTo (handler : DWord) : (exitTo handler).length = 6 := rfl

end RailTranslator
