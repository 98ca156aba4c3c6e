import RailTranslator.Rv64.Run

/-!
Loads and stores taken together.

A translator that rewrites memory accesses treats a load and a store alike: it
looks at the base register, the data register and the displacement, and it
may compute the address somewhere else. `Instr.accessAt` is an access with the
address made explicit. What matters about it is that it commutes with a write
to any register other than its data register, so that whatever was prepared
around the access can be moved past it.
-/

namespace Rv64

namespace Instr

def IsAccess : Instr → Prop
  | .load .. | .store .. => True
  | _ => False

def IsStore : Instr → Prop
  | .store .. => True
  | _ => False

instance (i : Instr) : Decidable i.IsAccess :=
  match i with
  | .load .. | .store .. => .isTrue trivial
  | .lui .. | .auipc .. | .jal .. | .jalr .. | .branch .. | .opImm .. | .op .. => .isFalse id

instance (i : Instr) : Decidable i.IsStore :=
  match i with
  | .store .. => .isTrue trivial
  | .lui .. | .auipc .. | .jal .. | .jalr .. | .branch .. | .load .. | .opImm .. | .op .. =>
      .isFalse id

def base : Instr → Reg
  | .load _ _ rs1 _ | .store _ rs1 _ _ => rs1
  | _ => 0

def data : Instr → Reg
  | .load _ rd _ _ => rd
  | .store _ _ rs2 _ => rs2
  | _ => 0

def disp : Instr → DWord
  | .load _ _ _ off | .store _ _ _ off => off.signExtend 64
  | _ => 0

def width : Instr → ℕ
  | .load o .. => o.size
  | .store o .. => o.size
  | _ => 0

def setBase (r : Reg) : Instr → Instr
  | .load o rd _ off => .load o rd r off
  | .store o _ rs2 off => .store o r rs2 off
  | i => i

theorem setBase_base (i : Instr) : i.setBase i.base = i := by cases i <;> rfl

def accessAt (a : DWord) (s : Machine) : Instr → Machine
  | .load o rd _ _ => (s.setReg rd (o.extend (s.mem.read a o.size))).goto (s.pc + 4)
  | .store o _ rs2 _ => (s.setMem (s.mem.write a o.size (s.regs rs2))).goto (s.pc + 4)
  | _ => s

def footprint (tr : Reg → DWord → DWord) (i : Instr) (s : Machine) : Set DWord :=
  bytes (tr i.base (s.regs i.base) + i.disp) i.width

theorem width_le (i : Instr) : i.width ≤ 8 := by
  cases i with
  | load o => exact o.size_le
  | store o => exact o.size_le
  | _ => exact Nat.zero_le 8

theorem width_pos {i : Instr} (h : i.IsAccess) : 0 < i.width := by
  cases i with
  | load o => cases o <;> simp [width, LoadOp.size]
  | store o => cases o <;> simp [width, StoreOp.size]
  | _ => exact h.elim

theorem width_lt (i : Instr) : i.width < 2 ^ 64 :=
  lt_of_le_of_lt i.width_le (by decide)

/-- An access uses the address its base register and its displacement give. -/
theorem exec_access {i : Instr} (h : i.IsAccess) (tr : Reg → DWord → DWord) (s : Machine) :
    i.exec tr s = i.accessAt (tr i.base (s.regs i.base) + i.disp) s := by
  cases i <;> first | rfl | exact h.elim

theorem straight_of_isAccess {i : Instr} (h : i.IsAccess) : i.Straight := by
  cases i <;> trivial

theorem regs_accessAt_of_ne {i : Instr} {x : Reg} (hx : x ≠ i.data) (a : DWord) (s : Machine) :
    (i.accessAt a s).regs x = s.regs x := by
  cases i with
  | load o rd rs1 off => exact Regs.set_of_ne _ _ hx
  | _ => rfl

theorem read_accessAt {i : Instr} {a b : DWord} {k : ℕ} (hk : k < 2 ^ 64) {s : Machine}
    (h : i.IsStore → Apart b k a i.width) : (i.accessAt a s).mem.read b k = s.mem.read b k := by
  cases i with
  | store o rs1 rs2 off => exact Mem.read_write_apart hk (h trivial)
  | _ => rfl

/-- An access may be moved before a write to another register. -/
theorem accessAt_setReg {i : Instr} {x : Reg} (hx : x ≠ i.data) (a v : DWord) (s : Machine) :
    i.accessAt a (s.setReg x v) = (i.accessAt a s).setReg x v := by
  cases i with
  | load o rd rs1 off =>
      have hrd : x ≠ rd := hx
      simp only [accessAt, Machine.mem_setReg, Machine.setReg_comm s _ _ hrd]
      rfl
  | store o rs1 rs2 off =>
      have hrs2 : rs2 ≠ x := Ne.symm hx
      simp only [accessAt, Machine.regs_setReg, Regs.set_of_ne _ _ hrs2]
      rfl
  | _ => rfl

theorem accessAt_setReg_data {i : Instr} (h : i.IsAccess) (hs : ¬ i.IsStore) (a v : DWord)
    (s : Machine) : i.accessAt a (s.setReg i.data v) = i.accessAt a s := by
  cases i with
  | load o rd rs1 off => simp [accessAt, data]
  | store => exact (hs trivial).elim
  | _ => exact h.elim

theorem accessAt_goto {i : Instr} (h : i.IsAccess) (a p : DWord) (s : Machine) :
    i.accessAt a (s.goto p) = (i.accessAt a s).goto (p + 4) := by
  cases i <;> first | rfl | exact h.elim

variable {code : Code}

theorem reaches_access (s : Machine) {a : DWord} {w : Word} {i : Instr} (h : i.IsAccess)
    (hw : code a = some w) (hdec : Instr.decode w = some i) :
    Reaches direct code (s.goto a)
      ((i.accessAt (s.regs i.base + i.disp) s).goto (a + 4)) := by
  refine reaches_at s hw hdec ?_
  rw [exec_access h, accessAt_goto h, direct_apply, Machine.regs_goto]

theorem isAccess_setBase {i : Instr} (h : i.IsAccess) (r : Reg) : (i.setBase r).IsAccess := by
  cases i <;> trivial

theorem accessAt_setBase (i : Instr) (r : Reg) (a : DWord) (s : Machine) :
    (i.setBase r).accessAt a s = i.accessAt a s := by
  cases i <;> rfl

theorem base_setBase {i : Instr} (h : i.IsAccess) (r : Reg) : (i.setBase r).base = r := by
  cases i <;> first | rfl | exact h.elim

@[simp] theorem disp_setBase (i : Instr) (r : Reg) : (i.setBase r).disp = i.disp := by
  cases i <;> rfl

end Instr

end Rv64
