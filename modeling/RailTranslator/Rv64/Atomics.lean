import RailTranslator.Rv64.Amo
import RailTranslator.Rv64.Agree
import Mathlib.Logic.Relation

/-!
Atomics on a machine with one hart.

There a reservation that is made is held: a load-reserved loads, a
store-conditional stores and reports success, and the other atomics read,
compute and write. `Amo.execAt` is an atomic with its address made explicit,
and like an access it may be moved past a write to a register it does not
name. `Steps` runs code in which atomics stand among the other instructions.
-/

namespace Rv64

/-! ### What an atomic does -/

def AmoWidth.size : AmoWidth → ℕ
  | .word => 4
  | .dword => 8

def AmoWidth.extend : AmoWidth → DWord → DWord
  | .word, v => (v.setWidth 32).signExtend 64
  | .dword, v => v

/-- What is stored, given what was there and the second operand. Sign
extension keeps the order of words, signed and unsigned. -/
def AmoOp.stored : AmoOp → DWord → DWord → Option DWord
  | .lr, _, _ => none
  | .sc, _, v | .swap, _, v => some v
  | .add, old, v => some (old + v)
  | .xor, old, v => some (old ^^^ v)
  | .and, old, v => some (old &&& v)
  | .or, old, v => some (old ||| v)
  | .min, old, v => some (if old.slt v then old else v)
  | .max, old, v => some (if old.slt v then v else old)
  | .minu, old, v => some (if old.ult v then old else v)
  | .maxu, old, v => some (if old.ult v then v else old)

/-- A store-conditional reports success, the others return what was there. -/
def AmoOp.returned : AmoOp → DWord → DWord
  | .sc, _ => 0
  | _, old => old

namespace Amo

def old (a : Amo) (x : DWord) (s : Machine) : DWord :=
  a.width.extend (s.mem.read x a.width.size)

def memAt (a : Amo) (x : DWord) (s : Machine) : Mem :=
  match a.op.stored (a.old x s) (a.width.extend (s.regs a.rs2)) with
  | none => s.mem
  | some v => s.mem.write x a.width.size v

def execAt (x : DWord) (s : Machine) (a : Amo) : Machine :=
  ((s.setMem (a.memAt x s)).setReg a.rd (a.op.returned (a.old x s))).goto (s.pc + 4)

def exec (tr : Reg → DWord → DWord) (a : Amo) (s : Machine) : Machine :=
  a.execAt (tr a.rs1 (s.regs a.rs1)) s

variable {a : Amo} {s : Machine} {x v : DWord} {r : Reg}

theorem size_le (a : Amo) : a.width.size ≤ 8 := by
  cases a.width <;> decide

theorem size_lt (a : Amo) : a.width.size < 2 ^ 64 := by
  cases a.width <;> decide

theorem size_pos (a : Amo) : 0 < a.width.size := by
  cases a.width <;> decide

theorem mem_execAt : (a.execAt x s).mem = a.memAt x s := rfl

theorem regs_execAt : (a.execAt x s).regs = s.regs.set a.rd (a.op.returned (a.old x s)) := rfl

theorem regs_execAt_of_ne (hr : r ≠ a.rd) : (a.execAt x s).regs r = s.regs r :=
  Regs.set_of_ne _ _ hr

theorem old_setReg : a.old x (s.setReg r v) = a.old x s := rfl

theorem memAt_setReg (hr : r ≠ a.rs2) : a.memAt x (s.setReg r v) = a.memAt x s := by
  rw [memAt, memAt, old_setReg, Machine.regs_setReg, Regs.set_of_ne _ _ (Ne.symm hr)]
  rfl

/-- An atomic may be moved before a write to a register it does not name. -/
theorem execAt_setReg (hrd : r ≠ a.rd) (hrs2 : r ≠ a.rs2) :
    a.execAt x (s.setReg r v) = (a.execAt x s).setReg r v := by
  rw [execAt, execAt, memAt_setReg hrs2, old_setReg, Machine.setMem_setReg,
    Machine.setReg_comm _ _ _ hrd]
  rfl

theorem memAt_of_not_mem {y : DWord} (hy : y ∉ bytes x a.width.size) :
    a.memAt x s y = s.mem y := by
  rw [memAt]
  cases a.op.stored (a.old x s) (a.width.extend (s.regs a.rs2)) with
  | none => rfl
  | some v => exact Mem.write_of_not_mem hy

theorem read_memAt {y : DWord} {k : ℕ} (hk : k < 2 ^ 64) (h : Apart y k x a.width.size) :
    (a.memAt x s).read y k = s.mem.read y k :=
  Mem.read_congr hk fun _ hz => memAt_of_not_mem (h.not_mem hz)

/-- Atomics at one address keep agreement outside bytes they do not read. -/
theorem agree_execAt {D : Set DWord} {s c : Machine} (h : Agree D s c)
    (hD : Disjoint (bytes x a.width.size) D) : Agree D (a.execAt x s) (a.execAt x c) := by
  have hold : a.old x c = a.old x s := by
    rw [old, old, h.read a.size_lt hD]
  refine ⟨?_, fun y hy => ?_⟩
  · rw [regs_execAt, regs_execAt, hold, h.regs]
  · rw [mem_execAt, mem_execAt, memAt, memAt, hold, h.regs]
    cases a.op.stored (a.old x s) (a.width.extend (s.regs a.rs2)) with
    | none => exact h.mem y hy
    | some v => exact (h.write x v a.width.size).mem y fun hin => hy hin.1

theorem map_stored (hlr : a.op ≠ .lr) {j : ℕ} (hj : j < a.width.size) :
    (a.op.stored (a.old x s) (a.width.extend (s.regs a.rs2))).map (·.extractLsb' (8 * j) 8) =
      some (a.memAt x s (x + BitVec.ofNat 64 j)) := by
  have hsize := a.size_le
  have hoff : (x + BitVec.ofNat 64 j - x).toNat = j := by bv_omega
  have hin : x + BitVec.ofNat 64 j ∈ bytes x a.width.size := by
    rw [mem_bytes, hoff]
    exact hj
  rw [memAt]
  cases hst : a.op.stored (a.old x s) (a.width.extend (s.regs a.rs2)) with
  | none =>
      cases hop : a.op with
      | lr => exact absurd hop hlr
      | _ =>
          rw [hop] at hst
          cases hst
  | some v =>
      have hbyte := @Mem.write_of_mem s.mem _ _ _ v hin
      rw [hoff] at hbyte
      exact congrArg some hbyte.symm

theorem getLsbD_old {k : ℕ} (hk : k < 8 * a.width.size) :
    (a.old x s).getLsbD k = (s.mem (x + BitVec.ofNat 64 (k / 8))).getLsbD (k % 8) := by
  have hsize := a.size_le
  have hread := Mem.getLsbD_read s.mem x a.width.size k (by omega)
  rw [decide_eq_true hk, Bool.true_and] at hread
  rw [← hread, old]
  cases hwidth : a.width with
  | word =>
      have h32 : k < 32 := by
        rw [hwidth] at hk
        exact hk
      simp only [AmoWidth.extend, BitVec.getLsbD_signExtend, BitVec.getLsbD_setWidth, h32,
        decide_true, Bool.true_and, if_true]
      simp [show k < 64 by omega]
  | dword => rfl

theorem write_old : s.mem.write x a.width.size (a.old x s) = s.mem := by
  funext y
  by_cases hy : y ∈ bytes x a.width.size
  · have hj : (y - x).toNat < a.width.size := hy
    have hsize := a.size_le
    rw [Mem.write_of_mem hy]
    apply BitVec.eq_of_getLsbD_eq
    intro k hk
    have hdiv : (8 * (y - x).toNat + k) / 8 = (y - x).toNat := by omega
    have hmod : (8 * (y - x).toNat + k) % 8 = k := by omega
    have hback : x + BitVec.ofNat 64 (y - x).toNat = y := by bv_omega
    rw [BitVec.getLsbD_extractLsb', getLsbD_old (by omega), hdiv, hmod, hback]
    simp [hk]
  · exact Mem.write_of_not_mem hy

theorem memAt_of_stored_old
    (h : a.op.stored (a.old x s) (a.width.extend (s.regs a.rs2)) = some (a.old x s)) :
    a.memAt x s = s.mem := by
  rw [memAt, h]
  exact write_old

theorem old_write {m : Mem} (hm : s.mem = m.write x 8 v) : a.old x s = a.width.extend v := by
  rw [old, hm]
  cases a.width with
  | dword => exact Mem.read_write_same _ _ _
  | word =>
      simp only [AmoWidth.extend, AmoWidth.size]
      congr 1
      apply BitVec.eq_of_getLsbD_eq
      intro k hk
      have hin : x + BitVec.ofNat 64 (k / 8) ∈ bytes x 8 := by
        rw [mem_bytes]
        bv_omega
      have hoff : (x + BitVec.ofNat 64 (k / 8) - x).toNat = k / 8 := by bv_omega
      have hsum : 8 * (k / 8) + k % 8 = k := by omega
      rw [BitVec.getLsbD_setWidth, BitVec.getLsbD_setWidth, Mem.getLsbD_read _ _ _ _ (by omega),
        Mem.write_of_mem hin, hoff, BitVec.getLsbD_extractLsb', hsum]
      simp [hk, show k % 8 < 8 by omega]

end Amo

/-! ### Runs with atomics -/

def stepAtomic (code : Code) (s : Machine) : Option Machine :=
  (code s.pc).bind fun w =>
    if w.opcode = Opcode.amo then (Amo.decode w).map (·.exec direct s)
    else (Instr.decode w).map (Instr.exec direct s)

def Steps (code : Code) : Machine → Machine → Prop :=
  Relation.ReflTransGen fun s s' => stepAtomic code s = some s'

section Runs

variable {code : Code} {s s' : Machine}

theorem stepAtomic_of_instr {w : Word} {i : Instr} (hw : code s.pc = some w)
    (hi : Instr.decode w = some i) : stepAtomic code s = some (i.exec direct s) := by
  have hop : w.opcode ≠ Opcode.amo := by
    intro hamo
    have hmem := opcode_of_decode hi
    rw [hamo] at hmem
    exact absurd hmem (by decide)
  rw [stepAtomic, hw, Option.bind_some, if_neg hop, hi]
  rfl

theorem stepAtomic_of_amo {w : Word} {a : Amo} (hw : code s.pc = some w)
    (hop : w.opcode = Opcode.amo) (ha : Amo.decode w = some a) :
    stepAtomic code s = some (a.exec direct s) := by
  rw [stepAtomic, hw, Option.bind_some, if_pos hop, ha]
  rfl

theorem steps_of_reaches (h : Reaches direct code s s') : Steps code s s' := by
  obtain ⟨n, hrun⟩ := h
  induction n generalizing s with
  | zero =>
      rw [run] at hrun
      cases hrun
      exact .refl
  | succ n ih =>
      obtain ⟨w, i, hw, hi, hrest⟩ := exists_of_run_succ hrun
      exact .head (stepAtomic_of_instr hw hi) (ih hrest)

theorem steps_amo (s : Machine) {p : DWord} {w : Word} {a : Amo} (hw : code p = some w)
    (hop : w.opcode = Opcode.amo) (ha : Amo.decode w = some a) :
    Steps code (s.goto p) ((a.execAt (s.regs a.rs1) s).goto (p + 4)) :=
  .single (stepAtomic_of_amo hw hop ha)

theorem Steps.unique {s₁ s₂ : Machine} (h₁ : Steps code s s₁) (h₂ : Steps code s s₂)
    (he₁ : code s₁.pc = none) (he₂ : code s₂.pc = none) : s₁ = s₂ := by
  have hstop {t t' : Machine} (ht : code t.pc = none) (hrun : Steps code t t') : t = t' := by
    rcases hrun.cases_head with heq | ⟨u, hu, -⟩
    · exact heq
    · rw [stepAtomic, ht] at hu
      cases hu
  have hdet : Relator.RightUnique fun s s' => stepAtomic code s = some s' := by
    intro t u u' hu hu'
    exact Option.some.inj (hu.symm.trans hu')
  rcases Relation.ReflTransGen.total_of_right_unique hdet h₁ h₂ with hto | hto
  · exact hstop he₁ hto
  · exact (hstop he₂ hto).symm

end Runs

end Rv64
