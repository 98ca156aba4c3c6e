import RailTranslator.AmoEffect
import RailTranslator.ScratchOperands

/-!
Which atomics survive the words emitted for them.

An atomic that is emitted as it is does its work at the relocated address
whenever its base is a register of its own. Of the others those survive that
have no effect to lose: a load-reserved into `x0`, and the atomics with only
`x0` as operands that store what they read.
-/

namespace RailTranslator

open Rv64

/-- Wherever the words stand, they run from `s` to their end, and there
registers and memory are those of `s'`. -/
def StepsIn (words : List Word) (s s' : Machine) : Prop :=
  ∀ p, Steps (image p words) (s.goto p) (s'.goto (wordAddr p words.length))

/-- The words leave the registers and all memory but the spill slot as the
atomic at the relocated address leaves them. -/
def AmoEndsAs (words : List Word) (a : Amo) (s : Machine) : Prop :=
  ∃ s', StepsIn words s s' ∧ Agree (bytes (slot s) 8) (a.exec relocate s) s'

def AmoOffSlot (a : Amo) (s : Machine) : Prop :=
  Apart (slot s) 8 (relocate a.rs1 (s.regs a.rs1)) a.width.size

/-- No operand is `sp` or the scratch register. -/
structure PlainOperands (a : Amo) : Prop where
  rd_sp : a.rd ≠ sp
  rs1_sp : a.rs1 ≠ sp
  rs2_sp : a.rs2 ≠ sp
  rd_scratch : a.rd ≠ scratch a.rs1
  rs2_scratch : a.rs2 ≠ scratch a.rs1

/-- With a second operand of zero these store what they read. -/
def KeepsZero : AmoOp → Prop
  | .add | .xor | .or | .maxu => True
  | _ => False

def Survives (a : Amo) : Prop :=
  match a.op with
  | .lr => a.rd = 0
  | .sc => False
  | op => a.rs1 ≠ 0 ∧ a.rd ≠ a.rs1 ∧ a.rs2 ≠ a.rs1 ∨
      a.rs1 = 0 ∧ a.rd = 0 ∧ a.rs2 = 0 ∧ KeepsZero op

theorem StepsIn.unique {words : List Word} {s s₁ s₂ : Machine} (hfit : 4 * words.length < 2 ^ 64)
    (h₁ : StepsIn words s s₁) (h₂ : StepsIn words s s₂) :
    s₁.regs = s₂.regs ∧ s₁.mem = s₂.mem := by
  have hend : image 0 words (wordAddr 0 words.length) = none := image_end hfit
  have heq := (h₁ 0).unique (h₂ 0) hend hend
  have hregs : (s₁.goto _).regs = (s₂.goto _).regs := congrArg Machine.regs heq
  have hmem : (s₁.goto _).mem = (s₂.goto _).mem := congrArg Machine.mem heq
  exact ⟨hregs, hmem⟩

section Moves

variable {w : Word} {a : Amo} {s : Machine} {h : Host}

theorem length_amoTail_le (a : Amo) : (amoTail a).length ≤ 1 := by
  rw [amoTail]
  split <;> simp

theorem stepsIn_amoWords (hw : AmoWord w a) (hbase : a.rs1 ≠ sp) (s : Machine) :
    StepsIn (amoWords h w) s (amoEffect a s) := by
  intro p
  have hlen := @length_amoWords w a h hw hbase
  have htail := length_amoTail_le a
  exact steps_amoWords hw hbase s (codeAt_image_self (by omega))

theorem amoEndsAs_iff (hw : AmoWord w a) (hbase : a.rs1 ≠ sp) :
    AmoEndsAs (amoWords h w) a s ↔ Agree (bytes (slot s) 8) (a.exec relocate s) (amoEffect a s) := by
  have hin := @stepsIn_amoWords w a h hw hbase s
  constructor
  · rintro ⟨s', hin', hagree⟩
    have hlen := @length_amoWords w a h hw hbase
    have htail := length_amoTail_le a
    obtain ⟨hregs, hmem⟩ := hin.unique (by omega) hin'
    exact ⟨hregs.trans hagree.regs, fun x hx => (congrFun hmem x).trans (hagree.mem x hx)⟩
  · intro hagree
    exact ⟨_, hin, hagree⟩

/-! ### Undoing the preparation -/

theorem reloaded_readied {t : Reg} {m : Machine} (ht : t ≠ sp) (v : DWord)
    (hread : m.mem.read (slot m) 8 = m.regs t) :
    reloaded t ((m.setReg sp (slot m)).setReg t v) = m := by
  have hsp : ((m.setReg sp (slot m)).setReg t v).regs sp = slot m := by
    simp only [Machine.regs_setReg]
    rw [Regs.set_of_ne _ _ (Ne.symm ht), Regs.set_same _ _ (by decide)]
  have hup : slot m + 16 = m.regs sp := by
    rw [slot]
    bv_omega
  simp only [reloaded, hsp, Machine.mem_setReg, hread, hup, Machine.setReg_setReg]
  rw [Machine.setReg_comm _ _ _ (Ne.symm ht), Machine.setReg_setReg, Machine.setReg_comm _ _ _ ht]
  simp

theorem unmoved_moved {m : Machine} (hbase : a.rs1 ≠ sp) :
    unmoved a (((m.setReg sp (slot m)).setReg (scratch a.rs1) dataBase).setReg a.rs1
        (m.regs a.rs1 + dataBase)) =
      (m.setReg sp (slot m)).setReg (scratch a.rs1) dataBase := by
  have hscr := scratch_ne a.rs1
  generalize hready : (m.setReg sp (slot m)).setReg (scratch a.rs1) dataBase = ready
  have hregb : ready.regs a.rs1 = m.regs a.rs1 := by
    rw [← hready, Machine.regs_setReg, Machine.regs_setReg,
      Regs.set_of_ne _ _ (Ne.symm hscr), Regs.set_of_ne _ _ hbase]
  have hregt : ready.regs (scratch a.rs1) = dataBase := by
    rw [← hready]
    exact Regs.set_same _ _ (scratch_ne_zero _)
  by_cases h0 : a.rs1 = 0
  · -- writes to `x0` are lost
    rw [unmoved, h0]
    simp
  · have hback : m.regs a.rs1 + dataBase - dataBase = m.regs a.rs1 := by bv_omega
    rw [unmoved, Machine.setReg_setReg, Machine.regs_setReg, Regs.set_same _ _ h0,
      Regs.set_of_ne _ _ hscr, hregt, hback, ← hregb, Machine.setReg_self]

theorem unmoved_goto (m : Machine) (p : DWord) :
    unmoved a (m.goto p) = (unmoved a m).goto p := rfl

theorem readied_eq : readied a s =
    ((withSlot (scratch a.rs1) s).setReg sp (slot (withSlot (scratch a.rs1) s))).setReg
      (scratch a.rs1) dataBase := rfl

/-! ### The atomics that survive -/

theorem amoBodyEffect_of_plain (hlr : a.op ≠ .lr) (hsc : a.op ≠ .sc) (m : Machine) :
    amoBodyEffect a m = a.execAt (m.regs a.rs1) m := by
  rw [amoBodyEffect]
  cases hop : a.op with
  | lr => exact absurd hop hlr
  | sc => exact absurd hop hsc
  | _ => rfl

/-- The preparation commutes with an atomic that does not name its registers. -/
theorem execAt_readied (hp : PlainOperands a) (x : DWord) (m : Machine) (u v : DWord) :
    a.execAt x ((m.setReg sp u).setReg (scratch a.rs1) v) =
      ((a.execAt x m).setReg sp u).setReg (scratch a.rs1) v := by
  rw [Amo.execAt_setReg (Ne.symm hp.rd_scratch) (Ne.symm hp.rs2_scratch),
    Amo.execAt_setReg (Ne.symm hp.rd_sp) (Ne.symm hp.rs2_sp)]

/-- An atomic with a base of its own is moved and moved back. -/
theorem amoEffect_eq_execAt (hp : PlainOperands a) (hlr : a.op ≠ .lr) (hsc : a.op ≠ .sc)
    (h0 : a.rs1 ≠ 0) (hrd : a.rd ≠ a.rs1) (hrs2 : a.rs2 ≠ a.rs1) (hoff : AmoOffSlot a s) :
    amoEffect a s =
      a.execAt (relocate a.rs1 (s.regs a.rs1)) (withSlot (scratch a.rs1) s) := by
  have hreadied := @regs_readied_base a s hp.rs1_sp
  -- the atomic between the spill and the reloading, at any address off the slot
  have hrestore (x : DWord) (hx : Apart (slot s) 8 x a.width.size) :
      reloaded (scratch a.rs1)
          (((a.execAt x (withSlot (scratch a.rs1) s)).setReg sp (slot s)).setReg
            (scratch a.rs1) dataBase) =
        a.execAt x (withSlot (scratch a.rs1) s) := by
    have hsp : (a.execAt x (withSlot (scratch a.rs1) s)).regs sp = s.regs sp :=
      Amo.regs_execAt_of_ne (Ne.symm hp.rd_sp)
    have hslot : slot (a.execAt x (withSlot (scratch a.rs1) s)) = slot s := by
      rw [slot, hsp, slot]
    have hread : (a.execAt x (withSlot (scratch a.rs1) s)).mem.read (slot s) 8 =
        (a.execAt x (withSlot (scratch a.rs1) s)).regs (scratch a.rs1) := by
      rw [Amo.mem_execAt, Amo.read_memAt (by decide) hx,
        Amo.regs_execAt_of_ne (Ne.symm hp.rd_scratch)]
      exact Mem.read_write_same _ _ _
    have hdone := reloaded_readied (scratch_ne_sp a.rs1) dataBase (hslot.symm ▸ hread)
    rwa [hslot] at hdone
  rw [AmoOffSlot] at hoff
  cases hlt : (s.regs a.rs1).slt dataBase with
  | true =>
      have haddr : ((readied a s).setReg a.rs1 (s.regs a.rs1 + dataBase)).regs a.rs1 =
          s.regs a.rs1 + dataBase := Regs.set_same _ _ h0
      rw [relocate_of_slt hp.rs1_sp hlt] at hoff ⊢
      simp only [amoEffect, hlt, if_true, if_neg hsc]
      rw [amoBodyEffect_of_plain hlr hsc, haddr, Amo.execAt_setReg (Ne.symm hrd) (Ne.symm hrs2),
        readied_eq, execAt_readied hp]
      have hbase : (a.execAt (s.regs a.rs1 + dataBase) (withSlot (scratch a.rs1) s)).regs a.rs1 =
          s.regs a.rs1 := Amo.regs_execAt_of_ne (Ne.symm hrd)
      have hsp : (a.execAt (s.regs a.rs1 + dataBase) (withSlot (scratch a.rs1) s)).regs sp =
          s.regs sp := Amo.regs_execAt_of_ne (Ne.symm hp.rd_sp)
      have hundo := @unmoved_moved a
        (a.execAt (s.regs a.rs1 + dataBase) (withSlot (scratch a.rs1) s)) hp.rs1_sp
      rw [hbase, slot, hsp] at hundo
      rw [show slot (withSlot (scratch a.rs1) s) = s.regs sp - 16 from rfl, hundo]
      exact hrestore _ hoff
  | false =>
      rw [relocate_of_not_slt hlt] at hoff ⊢
      simp only [amoEffect, hlt, Bool.false_eq_true, if_false, if_neg hsc]
      rw [amoBodyEffect_of_plain hlr hsc, hreadied, readied_eq, execAt_readied hp]
      exact hrestore _ hoff

/-- Where the word in the place of the atomic has no effect, all the words
have none. -/
theorem amoEffect_idle (hbase : a.rs1 ≠ sp) (hsc : a.op ≠ .sc)
    (hidle : ∀ m, ∃ p, amoBodyEffect a m = m.goto p) (s : Machine) :
    ∃ p, amoEffect a s = (withSlot (scratch a.rs1) s).goto p := by
  have hread : (withSlot (scratch a.rs1) s).mem.read (slot (withSlot (scratch a.rs1) s)) 8 =
      (withSlot (scratch a.rs1) s).regs (scratch a.rs1) := Mem.read_write_same _ _ _
  have hdone := reloaded_readied (scratch_ne_sp a.rs1) dataBase hread
  cases hlt : (s.regs a.rs1).slt dataBase with
  | true =>
      obtain ⟨p, hp⟩ := hidle ((readied a s).setReg a.rs1 (s.regs a.rs1 + dataBase))
      refine ⟨p, ?_⟩
      simp only [amoEffect, hlt, if_true, if_neg hsc]
      have hundo := @unmoved_moved a (withSlot (scratch a.rs1) s) hbase
      rw [hp, unmoved_goto, readied_eq, ← regs_withSlot (scratch a.rs1) s, hundo, reloaded_goto,
        hdone]
  | false =>
      obtain ⟨p, hp⟩ := hidle (readied a s)
      refine ⟨p, ?_⟩
      simp only [amoEffect, hlt, Bool.false_eq_true, if_false, if_neg hsc]
      rw [hp, readied_eq, reloaded_goto, hdone]

/-- An atomic that stores what it reads, and returns it to `x0`, has no effect. -/
theorem execAt_idle {x : DWord} (hrd : a.rd = 0) (hmem : a.memAt x s = s.mem) :
    a.execAt x s = s.goto (s.pc + 4) := by
  rw [Amo.execAt, hmem, hrd, Machine.setMem_self]
  exact congrArg (Machine.goto · _) (Machine.setReg_zero _ _)

theorem extend_zero (width : AmoWidth) : width.extend 0 = 0 := by
  cases width <;> decide

theorem stored_zero {o : AmoOp} (ho : KeepsZero o) (v : DWord) : o.stored v 0 = some v := by
  cases o with
  | add => exact congrArg some (BitVec.add_zero v)
  | xor => exact congrArg some (BitVec.xor_zero)
  | or => exact congrArg some (BitVec.or_zero)
  | maxu =>
      have hnot : v.ult 0 = false := by
        simp [BitVec.ult]
      rw [AmoOp.stored, hnot]
      rfl
  | _ => exact ho.elim

theorem execAt_keepsZero (hrd : a.rd = 0) (hrs2 : a.rs2 = 0) (ho : KeepsZero a.op) (x : DWord)
    (m : Machine) : a.execAt x m = m.goto (m.pc + 4) := by
  apply execAt_idle hrd
  apply Amo.memAt_of_stored_old
  rw [hrs2, show m.regs 0 = 0 from m.regs.zero, extend_zero]
  exact stored_zero ho _

theorem execAt_lr_zero (hlr : a.op = .lr) (hrd : a.rd = 0) (x : DWord) (m : Machine) :
    a.execAt x m = m.goto (m.pc + 4) := by
  apply execAt_idle hrd
  rw [Amo.memAt, hlr]
  rfl

theorem survives_of_plain (hlr : a.op ≠ .lr) (hsc : a.op ≠ .sc) :
    Survives a ↔ a.rs1 ≠ 0 ∧ a.rd ≠ a.rs1 ∧ a.rs2 ≠ a.rs1 ∨
      a.rs1 = 0 ∧ a.rd = 0 ∧ a.rs2 = 0 ∧ KeepsZero a.op := by
  rw [Survives]
  cases hop : a.op with
  | lr => exact absurd hop hlr
  | sc => exact absurd hop hsc
  | _ => exact Iff.rfl

theorem agree_of_survives (hp : PlainOperands a) (hok : Survives a) (hoff : AmoOffSlot a s) :
    Agree (bytes (slot s) 8) (a.exec relocate s) (amoEffect a s) := by
  have hslot := agree_withSlot (scratch a.rs1) s
  -- the atomics without an effect
  have hnone (hsc : a.op ≠ .sc) (hidle : ∀ m, ∃ p, amoBodyEffect a m = m.goto p)
      (hexec : ∃ p, a.exec relocate s = s.goto p) :
      Agree (bytes (slot s) 8) (a.exec relocate s) (amoEffect a s) := by
    obtain ⟨p, hp'⟩ := amoEffect_idle hp.rs1_sp hsc hidle s
    obtain ⟨q, hq⟩ := hexec
    rw [hp', hq]
    exact (hslot.goto_left q).goto_right p
  by_cases hsc : a.op = .sc
  · rw [Survives, hsc] at hok
    exact hok.elim
  by_cases hlr : a.op = .lr
  · rw [Survives, hlr] at hok
    have hrd : a.rd = 0 := hok
    refine hnone hsc (fun m => ⟨m.pc, ?_⟩) ⟨_, execAt_lr_zero hlr hrd _ s⟩
    rw [amoBodyEffect, hlr, hrd]
    exact Machine.setReg_zero _ _
  rw [survives_of_plain hlr hsc] at hok
  obtain ⟨h0, hrd, hrs2⟩ | ⟨-, hrd, hrs2, hkeeps⟩ := hok
  · rw [amoEffect_eq_execAt hp hlr hsc h0 hrd hrs2 hoff]
    exact Amo.agree_execAt hslot
      (Set.disjoint_left.mpr fun x hx hin => (Apart.not_mem hoff hin) hx)
  · refine hnone hsc (fun m => ⟨m.pc + 4, ?_⟩) ⟨_, execAt_keepsZero hrd hrs2 hkeeps _ s⟩
    rw [amoBodyEffect_of_plain hlr hsc]
    exact execAt_keepsZero hrd hrs2 hkeeps _ m

/-! ### A state that tells the others apart

The base is zero, so the access is moved to the data offset, where a
doubleword of choice stands in a memory of zeros. -/

def amoProbe (a : Amo) (src old : DWord) : Machine where
  pc := 0
  regs := Regs.set (Regs.set ⟨fun _ => 0, Regs.const_zero⟩ sp (dataBase + 0x100000000)) a.rs2 src
  mem := Mem.write (fun _ => 0) dataBase 8 old

variable {src old : DWord}

theorem slot_amoProbe (hp : PlainOperands a) :
    slot (amoProbe a src old) = dataBase + 0x100000000 - 16 := by
  refine congrArg (· - 16) ((Regs.set_of_ne _ _ (Ne.symm hp.rs2_sp)).trans ?_)
  exact Regs.set_same _ _ (by decide)

theorem regs_amoProbe_of_ne {x : Reg} (hx : x ≠ a.rs2) (hsp : x ≠ sp) :
    (amoProbe a src old).regs x = 0 :=
  (Regs.set_of_ne _ _ hx).trans (Regs.set_of_ne _ _ hsp)

theorem regs_amoProbe_zero {x : Reg} (hsp : x ≠ sp) : (amoProbe a 0 old).regs x = 0 := by
  by_cases hx : x = a.rs2
  · by_cases h0 : a.rs2 = 0
    · rw [hx, h0]
      exact (amoProbe a 0 old).regs.zero
    · rw [hx]
      exact Regs.set_same _ _ h0
  · exact regs_amoProbe_of_ne hx hsp

theorem mem_amoProbe_of_not_mem {x : DWord} (hx : x ∉ bytes dataBase 8) :
    (amoProbe a src old).mem x = 0 := by
  show Mem.write (fun _ => 0) dataBase 8 old x = 0
  rw [Mem.write_of_not_mem hx]

theorem apart_amoProbe (hp : PlainOperands a) :
    Apart (slot (amoProbe a src old)) 8 dataBase a.width.size := by
  have hsize := a.size_le
  rw [slot_amoProbe hp]
  generalize dataBase = d
  exact apart_of_le (by bv_omega) (by bv_omega)

theorem withSlot_amoProbe (hp : PlainOperands a) :
    withSlot (scratch a.rs1) (amoProbe a src old) = amoProbe a src old := by
  have hscr : (amoProbe a src old).regs (scratch a.rs1) = 0 :=
    regs_amoProbe_of_ne (Ne.symm hp.rs2_scratch) (scratch_ne_sp _)
  rw [withSlot, hscr]
  refine (congrArg (amoProbe a src old).setMem (funext fun x => ?_)).trans (Machine.setMem_self _)
  by_cases hx : x ∈ bytes (slot (amoProbe a src old)) 8
  · rw [Mem.write_of_mem hx, mem_amoProbe_of_not_mem]
    · exact BitVec.extractLsb'_zero
    · rw [slot_amoProbe hp] at hx
      rw [mem_bytes] at hx ⊢
      bv_omega
  · exact Mem.write_of_not_mem hx

theorem relocate_amoProbe (hp : PlainOperands a) (hz : (amoProbe a src old).regs a.rs1 = 0) :
    relocate a.rs1 ((amoProbe a src old).regs a.rs1) = dataBase := by
  rw [hz, relocate_of_slt hp.rs1_sp (by decide)]
  exact BitVec.zero_add _

theorem amoOffSlot_amoProbe (hp : PlainOperands a) (hz : (amoProbe a src old).regs a.rs1 = 0) :
    AmoOffSlot a (amoProbe a src old) := by
  rw [AmoOffSlot, relocate_amoProbe hp hz]
  exact apart_amoProbe hp

/-- The state in which the word in the place of the atomic is executed. -/
def moved (a : Amo) (s : Machine) : Machine := (readied a s).setReg a.rs1 dataBase

theorem mem_moved (hp : PlainOperands a) :
    (moved a (amoProbe a src old)).mem = (amoProbe a src old).mem := by
  have hmem := congrArg Machine.mem (@withSlot_amoProbe a src old hp)
  exact hmem

theorem regs_moved_scratch : (moved a s).regs (scratch a.rs1) = dataBase :=
  (Regs.set_of_ne _ _ (scratch_ne _)).trans regs_readied_scratch

theorem base_of_zero (hz : s.regs a.rs1 = 0) :
    (s.regs a.rs1).slt dataBase = true ∧ s.regs a.rs1 + dataBase = dataBase := by
  rw [hz]
  exact ⟨by decide, BitVec.zero_add _⟩

theorem mem_amoEffect (hz : s.regs a.rs1 = 0) :
    (amoEffect a s).mem = (amoBodyEffect a (moved a s)).mem := by
  obtain ⟨hlt, hsum⟩ := base_of_zero hz
  simp only [amoEffect, hlt, if_true, hsum]
  split <;> rfl

theorem regs_amoEffect (hz : s.regs a.rs1 = 0) (hsc : a.op ≠ .sc) {x : Reg}
    (ht : x ≠ scratch a.rs1) (hsp : x ≠ sp) :
    (amoEffect a s).regs x = (unmoved a (amoBodyEffect a (moved a s))).regs x := by
  obtain ⟨hlt, hsum⟩ := base_of_zero hz
  simp only [amoEffect, hlt, if_true, hsum, if_neg hsc, reloaded, Machine.regs_setReg]
  rw [Regs.set_of_ne _ _ hsp, Regs.set_of_ne _ _ ht]
  rfl

/-- The accessed bytes are off the slot, and the state is not treated as the
atomic treats it. -/
def Separated (a : Amo) (s : Machine) : Prop :=
  AmoOffSlot a s ∧ ¬ Agree (bytes (slot s) 8) (a.exec relocate s) (amoEffect a s)

theorem exec_amoProbe (hp : PlainOperands a) (hz : (amoProbe a src old).regs a.rs1 = 0) :
    a.exec relocate (amoProbe a src old) = a.execAt dataBase (amoProbe a src old) := by
  rw [Amo.exec, relocate_amoProbe hp hz]

theorem old_amoProbe : a.old dataBase (amoProbe a src old) = a.width.extend old :=
  Amo.old_write rfl

theorem separated_of_rd (hp : PlainOperands a) (hz : (amoProbe a src old).regs a.rs1 = 0)
    (hsc : a.op ≠ .sc) (h0 : a.rd ≠ 0)
    (hne : (unmoved a (amoBodyEffect a (moved a (amoProbe a src old)))).regs a.rd ≠
      a.op.returned (a.width.extend old)) : Separated a (amoProbe a src old) := by
  refine ⟨amoOffSlot_amoProbe hp hz, fun hagree => hne ?_⟩
  have hreg := congrFun (congrArg Regs.val hagree.regs) a.rd
  rw [exec_amoProbe hp hz, Amo.regs_execAt, Regs.set_same _ _ h0, old_amoProbe,
    regs_amoEffect hz hsc hp.rd_scratch hp.rd_sp] at hreg
  exact hreg

theorem separated_of_byte (hp : PlainOperands a) (hz : (amoProbe a src old).regs a.rs1 = 0)
    {j : ℕ} (hj : j < a.width.size)
    (hne : (amoBodyEffect a (moved a (amoProbe a src old))).mem (dataBase + BitVec.ofNat 64 j) ≠
      a.memAt dataBase (amoProbe a src old) (dataBase + BitVec.ofNat 64 j)) :
    Separated a (amoProbe a src old) := by
  refine ⟨amoOffSlot_amoProbe hp hz, fun hagree => hne ?_⟩
  have hin : dataBase + BitVec.ofNat 64 j ∈ bytes dataBase a.width.size := by
    have hsize := a.size_le
    rw [mem_bytes]
    generalize dataBase = d
    bv_omega
  have hbyte := hagree.mem _ fun hslot => (apart_amoProbe hp).not_mem hslot hin
  rw [exec_amoProbe hp hz, Amo.mem_execAt, mem_amoEffect hz] at hbyte
  exact hbyte

/-! ### The atomics that do not survive -/

/-- A second operand of zero changes this, if the atomic changes anything then. -/
def changedByZero : AmoOp → DWord
  | .max => -1
  | _ => 1

theorem stored_zero_ne : ∀ (width : AmoWidth) (o : AmoOp), o ≠ .lr → ¬ KeepsZero o →
    (o.stored (width.extend (changedByZero o)) (width.extend 0)).map (·.extractLsb' 0 8) ≠
      some ((changedByZero o).extractLsb' 0 8) := by
  intro width o hlr hkeeps
  cases width <;> cases o <;> first | exact absurd rfl hlr | exact absurd trivial hkeeps | decide

/-- A second operand and a value that it changes. -/
def changedBy : AmoOp → DWord × DWord
  | .and | .min | .minu => (0, 1)
  | _ => (1, 0)

theorem stored_ne : ∀ (width : AmoWidth) (o : AmoOp), o ≠ .lr →
    (o.stored (width.extend (changedBy o).2) (width.extend (changedBy o).1)).map
      (·.extractLsb' 0 8) ≠ some ((changedBy o).2.extractLsb' 0 8) := by
  intro width o hlr
  cases width <;> cases o <;> first | exact absurd rfl hlr | decide

/-- A value on which the data offset and zero do not act alike. -/
def toldApart : AmoOp → DWord
  | .or | .max | .maxu => 0
  | _ => dataBase

theorem stored_dataBase_ne : ∀ (width : AmoWidth) (o : AmoOp), o ≠ .lr →
    (o.stored (width.extend (toldApart o)) (width.extend dataBase)).map (·.extractLsb' 24 8) ≠
      (o.stored (width.extend (toldApart o)) (width.extend 0)).map (·.extractLsb' 24 8) := by
  intro width o hlr
  cases width <;> cases o <;> first | exact absurd rfl hlr | decide

/-- Where the words leave the byte at the data offset as it is, an atomic that
changes it is told apart. -/
theorem separated_of_untouched (hp : PlainOperands a) (hlr : a.op ≠ .lr)
    (hz : (amoProbe a src old).regs a.rs1 = 0)
    (hkept : (amoBodyEffect a (moved a (amoProbe a src old))).mem dataBase =
      (amoProbe a src old).mem dataBase)
    (hne : (a.op.stored (a.width.extend old)
      (a.width.extend ((amoProbe a src old).regs a.rs2))).map (·.extractLsb' 0 8) ≠
        some (old.extractLsb' 0 8)) : Separated a (amoProbe a src old) := by
  have hhere : dataBase + BitVec.ofNat 64 0 = dataBase := BitVec.add_zero _
  apply separated_of_byte hp hz a.size_pos
  rw [hhere, hkept]
  intro hsame
  have hbyte := @Amo.map_stored a (amoProbe a src old) dataBase hlr 0 a.size_pos
  rw [old_amoProbe, hhere, ← hsame] at hbyte
  have hprobe : (amoProbe a src old).mem dataBase = old.extractLsb' 0 8 := by
    have hin : dataBase ∈ bytes dataBase 8 := by
      rw [mem_bytes]
      decide
    show Mem.write (fun _ => 0) dataBase 8 old dataBase = _
    rw [Mem.write_of_mem hin, BitVec.sub_self]
    rfl
  rw [hprobe] at hbyte
  exact hne hbyte

theorem separated_sc (hp : PlainOperands a) (hsc : a.op = .sc) :
    Separated a (amoProbe a 0 (changedByZero a.op)) := by
  have hlr : a.op ≠ .lr := by
    rw [hsc]
    decide
  apply @separated_of_untouched a 0 (changedByZero a.op) hp hlr (regs_amoProbe_zero hp.rs1_sp)
  · have hbody (m : Machine) : amoBodyEffect a m = m := by
      rw [amoBodyEffect, hsc]
    rw [hbody, mem_moved hp]
  · rw [regs_amoProbe_zero hp.rs2_sp]
    apply stored_zero_ne a.width a.op hlr
    rw [hsc]
    exact id

theorem separated_lr (hp : PlainOperands a) (hlr : a.op = .lr) (h0 : a.rd ≠ 0) :
    Separated a (amoProbe a 0 1) := by
  have hz : (amoProbe a 0 1).regs a.rs1 = 0 := regs_amoProbe_zero hp.rs1_sp
  have hsc : a.op ≠ .sc := by
    rw [hlr]
    decide
  apply separated_of_rd hp hz hsc h0
  have hbody (m : Machine) : amoBodyEffect a m =
      m.setReg a.rd ((comparison a.width).eval (m.regs a.rs1) 0) := by
    rw [amoBodyEffect, hlr]
  have hcompare : (comparison a.width).eval ((moved a (amoProbe a 0 1)).regs a.rs1) 0 = 0 := by
    by_cases hb : a.rs1 = 0
    · rw [hb, show (moved a (amoProbe a 0 1)).regs 0 = 0 from Regs.zero _]
      cases a.width <;> decide
    · rw [show (moved a (amoProbe a 0 1)).regs a.rs1 = dataBase from Regs.set_same _ _ hb]
      cases a.width <;> decide
  have hloaded : a.op.returned (a.width.extend 1) = 1 := by
    rw [hlr]
    cases a.width <;> decide
  rw [hbody, hcompare, hloaded, unmoved, Machine.regs_setReg]
  by_cases hrd : a.rd = a.rs1
  · rw [hrd, Regs.set_same _ _ (hrd ▸ h0), Machine.regs_setReg, Regs.set_same _ _ (hrd ▸ h0),
      Regs.set_of_ne _ _ (scratch_ne _), regs_moved_scratch]
    decide
  · rw [Regs.set_of_ne _ _ hrd, Machine.regs_setReg, Regs.set_same _ _ h0]
    decide

/-- The base is moved back though the atomic has overwritten it. -/
theorem separated_overwritten (hp : PlainOperands a) (hlr : a.op ≠ .lr) (hsc : a.op ≠ .sc)
    (h0 : a.rs1 ≠ 0) (hrd : a.rd = a.rs1) : Separated a (amoProbe a 0 0) := by
  have hz : (amoProbe a 0 0).regs a.rs1 = 0 := regs_amoProbe_zero hp.rs1_sp
  apply separated_of_rd hp hz hsc (hrd ▸ h0)
  have hb : (moved a (amoProbe a 0 0)).regs a.rs1 = dataBase := Regs.set_same _ _ h0
  have hold : a.old dataBase (moved a (amoProbe a 0 0)) = a.width.extend 0 :=
    Amo.old_write (mem_moved hp)
  rw [amoBodyEffect_of_plain hlr hsc, hb, unmoved, Machine.regs_setReg, hrd,
    Regs.set_same _ _ h0, Amo.regs_execAt, hrd, Regs.set_same _ _ h0,
    Regs.set_of_ne _ _ (scratch_ne _), regs_moved_scratch, hold]
  generalize a.op.returned (a.width.extend 0) = v
  have hD : dataBase.toNat = 0x9000000 := by decide
  bv_omega

theorem separated_unmoved_rd (hp : PlainOperands a) (hlr : a.op ≠ .lr) (hsc : a.op ≠ .sc)
    (h0 : a.rs1 = 0) (hrd : a.rd ≠ 0) : Separated a (amoProbe a 0 1) := by
  have hz : (amoProbe a 0 1).regs a.rs1 = 0 := regs_amoProbe_zero hp.rs1_sp
  apply separated_of_rd hp hz hsc hrd
  have hb : (moved a (amoProbe a 0 1)).regs a.rs1 = 0 := by
    rw [h0]
    exact Regs.zero _
  have hread : (moved a (amoProbe a 0 1)).mem.read 0 a.width.size = 0 := by
    have hsize := a.size_le
    rw [mem_moved hp]
    apply Mem.read_eq_zero a.size_lt
    intro x hx
    apply mem_amoProbe_of_not_mem
    have hD : dataBase.toNat = 0x9000000 := by decide
    rw [mem_bytes] at hx ⊢
    bv_omega
  have hsame : unmoved a (amoBodyEffect a (moved a (amoProbe a 0 1))) =
      amoBodyEffect a (moved a (amoProbe a 0 1)) := by
    rw [unmoved, h0]
    exact Machine.setReg_zero _ _
  rw [hsame, amoBodyEffect_of_plain hlr hsc, hb, Amo.regs_execAt, Regs.set_same _ _ hrd, Amo.old,
    hread]
  cases a.width <;> cases hop : a.op <;> first | exact absurd hop hlr | exact absurd hop hsc | decide

/-- A base of `x0` is not moved, and the atomic changes another place. -/
theorem separated_unmoved_mem (hp : PlainOperands a) (hlr : a.op ≠ .lr) (hsc : a.op ≠ .sc)
    (h0 : a.rs1 = 0) (hkeeps : ¬ (a.rs2 = 0 ∧ KeepsZero a.op)) : ∃ s, Separated a s := by
  have hkept (src old : DWord) : (amoBodyEffect a (moved a (amoProbe a src old))).mem dataBase =
      (amoProbe a src old).mem dataBase := by
    have hb : (moved a (amoProbe a src old)).regs a.rs1 = 0 := by
      rw [h0]
      exact Regs.zero _
    rw [amoBodyEffect_of_plain hlr hsc, hb, Amo.mem_execAt, Amo.memAt_of_not_mem, mem_moved hp]
    have hsize := a.size_le
    have hD : dataBase.toNat = 0x9000000 := by decide
    rw [mem_bytes]
    bv_omega
  by_cases hrs2 : a.rs2 = 0
  · refine ⟨_, @separated_of_untouched a 0 (changedByZero a.op) hp hlr
      (regs_amoProbe_zero hp.rs1_sp) (hkept _ _) ?_⟩
    rw [regs_amoProbe_zero hp.rs2_sp]
    exact stored_zero_ne a.width a.op hlr fun hz => hkeeps ⟨hrs2, hz⟩
  · have hz : (amoProbe a (changedBy a.op).1 (changedBy a.op).2).regs a.rs1 = 0 := by
      rw [h0]
      exact Regs.zero _
    refine ⟨_, separated_of_untouched hp hlr hz (hkept _ _) ?_⟩
    rw [show (amoProbe a (changedBy a.op).1 (changedBy a.op).2).regs a.rs2 = (changedBy a.op).1
      from Regs.set_same _ _ hrs2]
    exact stored_ne a.width a.op hlr

theorem separated_moved_operand (hp : PlainOperands a) (hlr : a.op ≠ .lr) (hsc : a.op ≠ .sc)
    (h0 : a.rs1 ≠ 0) (hrs2 : a.rs2 = a.rs1) : Separated a (amoProbe a 0 (toldApart a.op)) := by
  have hz : (amoProbe a 0 (toldApart a.op)).regs a.rs1 = 0 := regs_amoProbe_zero hp.rs1_sp
  have h3 : 3 < a.width.size := by cases a.width <;> decide
  apply separated_of_byte hp hz h3
  have hb : (moved a (amoProbe a 0 (toldApart a.op))).regs a.rs1 = dataBase :=
    Regs.set_same _ _ h0
  have hold : a.old dataBase (moved a (amoProbe a 0 (toldApart a.op))) =
      a.width.extend (toldApart a.op) := Amo.old_write (mem_moved hp)
  rw [amoBodyEffect_of_plain hlr hsc, hb, Amo.mem_execAt]
  intro hsame
  have hgot := @Amo.map_stored a (moved a (amoProbe a 0 (toldApart a.op))) dataBase hlr 3 h3
  have hwanted := @Amo.map_stored a (amoProbe a 0 (toldApart a.op)) dataBase hlr 3 h3
  rw [hold, hrs2, hb, hsame] at hgot
  rw [old_amoProbe, regs_amoProbe_zero hp.rs2_sp, ← hgot] at hwanted
  exact stored_dataBase_ne a.width a.op hlr hwanted.symm

theorem exists_separated (hp : PlainOperands a) (hno : ¬ Survives a) : ∃ s, Separated a s := by
  by_cases hsc : a.op = .sc
  · exact ⟨_, separated_sc hp hsc⟩
  by_cases hlr : a.op = .lr
  · rw [Survives, hlr] at hno
    exact ⟨_, separated_lr hp hlr hno⟩
  rw [survives_of_plain hlr hsc, not_or] at hno
  obtain ⟨hown, hkeeps⟩ := hno
  by_cases h0 : a.rs1 = 0
  · by_cases hrd : a.rd = 0
    · exact separated_unmoved_mem hp hlr hsc h0 fun hk => hkeeps ⟨h0, hrd, hk⟩
    · exact ⟨_, separated_unmoved_rd hp hlr hsc h0 hrd⟩
  · by_cases hrd : a.rd = a.rs1
    · exact ⟨_, separated_overwritten hp hlr hsc h0 hrd⟩
    · have hrs2 : a.rs2 = a.rs1 := by
        by_contra hne
        exact hown ⟨h0, hrd, hne⟩
      exact ⟨_, separated_moved_operand hp hlr hsc h0 hrs2⟩

/-- The words emitted for an atomic whose operands are neither `sp` nor the
scratch register do what the atomic does at the relocated address, in every
state in which the accessed bytes are not those of the spill slot, just if the
atomic is one of those that survive. -/
theorem amoWords_endsAs_iff (h : Host) (hw : AmoWord w a) (hp : PlainOperands a) :
    (∀ s, AmoOffSlot a s → AmoEndsAs (amoWords h w) a s) ↔ Survives a := by
  constructor
  · intro hall
    by_contra hno
    obtain ⟨s, hoff, hnot⟩ := exists_separated hp hno
    exact hnot ((amoEndsAs_iff hw hp.rs1_sp).mp (hall s hoff))
  · intro hok s hoff
    exact (amoEndsAs_iff hw hp.rs1_sp).mpr (agree_of_survives hp hok hoff)

end Moves

/-- `amoadd.d x5, x7, (x6)` -/
def amoaddD : Amo := ⟨.add, .dword, 0, 5, 6, 7⟩

theorem amoWord_amoaddD : AmoWord 0x007332af amoaddD := ⟨by decide, by decide +kernel⟩

theorem plainOperands_amoaddD : PlainOperands amoaddD :=
  ⟨by decide, by decide, by decide, by decide, by decide⟩

theorem amoWords_endsAs_amoaddD :
    AmoOffSlot amoaddD (amoProbe amoaddD 2 1) ∧
      AmoEndsAs (amoWords requestedHost 0x007332af) amoaddD (amoProbe amoaddD 2 1) := by
  have hoff : AmoOffSlot amoaddD (amoProbe amoaddD 2 1) :=
    amoOffSlot_amoProbe plainOperands_amoaddD (by decide)
  exact ⟨hoff, (amoWords_endsAs_iff requestedHost amoWord_amoaddD plainOperands_amoaddD).mpr
    (.inl ⟨by decide, by decide, by decide⟩) _ hoff⟩

/-- `lr.d x5, (x6)` -/
def lrD : Amo := ⟨.lr, .dword, 0, 5, 6, 0⟩

theorem amoWord_lrD : AmoWord 0x100332af lrD := ⟨by decide, by decide +kernel⟩

theorem plainOperands_lrD : PlainOperands lrD :=
  ⟨by decide, by decide, by decide, by decide, by decide⟩

/-- `lr.d x5, (x6)` does not load the doubleword 1 from the relocated address. -/
theorem amoWords_loses_lrD :
    AmoWord 0x100332af lrD ∧ PlainOperands lrD ∧ AmoOffSlot lrD (amoProbe lrD 0 1) ∧
      ¬ AmoEndsAs (amoWords requestedHost 0x100332af) lrD (amoProbe lrD 0 1) := by
  have hsep : Separated lrD (amoProbe lrD 0 1) :=
    separated_lr plainOperands_lrD rfl (by decide)
  refine ⟨amoWord_lrD, plainOperands_lrD, hsep.1, fun hends => hsep.2 ?_⟩
  exact (amoEndsAs_iff amoWord_lrD plainOperands_lrD.rs1_sp).mp hends

end RailTranslator
