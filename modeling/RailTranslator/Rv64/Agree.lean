import RailTranslator.Rv64.Access

/-!
Two machines whose memories differ in a known set of bytes.

A translated program keeps words of its own in memory, in places the original
program does not use. The relation for comparing the two is `Agree D`: equal
registers, and equal memory outside the set `D` of bytes that have been used
so. An instruction keeps it when what it loads lies outside `D`, and a store
takes the bytes it writes out of `D`, because both machines have just written
the same value there. Program counters are not compared: the two programs
stand in different places.
-/

namespace Rv64

/-- The same registers, and the same memory but for the bytes in `D`. -/
structure Agree (D : Set DWord) (s c : Machine) : Prop where
  regs : c.regs = s.regs
  mem : ∀ x ∉ D, c.mem x = s.mem x

namespace Agree

variable {D E : Set DWord} {s c : Machine}

theorem mono (h : Agree D s c) (hsub : D ⊆ E) : Agree E s c :=
  ⟨h.regs, fun x hx => h.mem x fun hin => hx (hsub hin)⟩

theorem goto_left (h : Agree D s c) (a : DWord) : Agree D (s.goto a) c := ⟨h.regs, h.mem⟩

theorem goto_right (h : Agree D s c) (a : DWord) : Agree D s (c.goto a) := ⟨h.regs, h.mem⟩

theorem setReg (h : Agree D s c) (r : Reg) (v : DWord) : Agree D (s.setReg r v) (c.setReg r v) := by
  refine ⟨?_, h.mem⟩
  simp only [Machine.regs_setReg, h.regs]

theorem write_right (h : Agree D s c) (a v : DWord) (n : ℕ) :
    Agree (D ∪ bytes a n) s (c.setMem (c.mem.write a n v)) := by
  refine ⟨h.regs, fun x hx => ?_⟩
  rw [Set.mem_union, not_or] at hx
  exact (Mem.write_of_not_mem hx.2).trans (h.mem x hx.1)

theorem write (h : Agree D s c) (a v : DWord) (n : ℕ) :
    Agree (D \ bytes a n) (s.setMem (s.mem.write a n v)) (c.setMem (c.mem.write a n v)) := by
  refine ⟨h.regs, fun x hx => ?_⟩
  by_cases hin : x ∈ bytes a n
  · exact (Mem.write_of_mem hin).trans (Mem.write_of_mem hin).symm
  · have hD : x ∉ D := fun hD => hx ⟨hD, hin⟩
    exact (Mem.write_of_not_mem hin).trans ((h.mem x hD).trans (Mem.write_of_not_mem hin).symm)

theorem read (h : Agree D s c) {a : DWord} {n : ℕ} (hn : n < 2 ^ 64)
    (hD : Disjoint (bytes a n) D) : c.mem.read a n = s.mem.read a n :=
  Mem.read_congr hn fun x hx => h.mem x (Set.disjoint_left.mp hD hx)

end Agree

namespace Instr

def written (tr : Reg → DWord → DWord) (i : Instr) (s : Machine) : Set DWord :=
  {x | i.IsStore ∧ x ∈ i.footprint tr s}

theorem written_of_not_isStore {i : Instr} (h : ¬ i.IsStore) (tr : Reg → DWord → DWord)
    (s : Machine) : i.written tr s = ∅ :=
  Set.eq_empty_of_forall_notMem fun _ hx => h hx.1

theorem written_of_isStore {i : Instr} (h : i.IsStore) (tr : Reg → DWord → DWord)
    (s : Machine) : i.written tr s = i.footprint tr s :=
  Set.ext fun _ => and_iff_right h

/-- What an instruction loads, if it loads anything, is the same on both sides. -/
def LoadsOutside (tr : Reg → DWord → DWord) (D : Set DWord) (i : Instr) (s : Machine) : Prop :=
  i.IsAccess → ¬ i.IsStore → i.data = 0 ∨ Disjoint (i.footprint tr s) D

/-- A straight instruction other than `auipc` keeps agreement. -/
theorem agree_exec {tr : Reg → DWord → DWord} {D : Set DWord} {s c : Machine} {i : Instr}
    (h : Agree D s c) (hi : i.Straight) (hauipc : ∀ rd imm, i ≠ .auipc rd imm)
    (hload : i.LoadsOutside tr D s) : Agree (D \ i.written tr s) (i.exec tr s) (i.exec tr c) := by
  cases i with
  | load o rd rs1 off =>
      rw [written_of_not_isStore id, Set.sdiff_empty]
      have heff : effAddr tr c rs1 off = effAddr tr s rs1 off := by rw [effAddr, h.regs]; rfl
      rw [Instr.exec, Instr.exec, heff]
      -- a load into `x0` may read anything
      rcases hload trivial id with h0 | hdisj
      · have hrd : rd = 0 := h0
        have hnop (m : Machine) (v : DWord) : m.setReg rd v = m := by
          rw [hrd]
          exact m.setReg_zero v
        rw [hnop, hnop]
        exact (h.goto_left _).goto_right _
      · have hread := h.read (Instr.width_lt (.load o rd rs1 off)) hdisj
        have hsame : c.mem.read (effAddr tr s rs1 off) o.size =
            s.mem.read (effAddr tr s rs1 off) o.size := hread
        rw [hsame]
        exact ((h.setReg _ _).goto_left _).goto_right _
  | store o rs1 rs2 off =>
      have hst : (Instr.store o rs1 rs2 off).IsStore := trivial
      rw [written_of_isStore hst]
      have heff : effAddr tr c rs1 off = effAddr tr s rs1 off := by rw [effAddr, h.regs]; rfl
      rw [Instr.exec, Instr.exec, heff, h.regs]
      exact ((h.write _ _ _).goto_left _).goto_right _
  | auipc rd imm => exact absurd rfl (hauipc rd imm)
  | lui rd imm =>
      rw [written_of_not_isStore id, Set.sdiff_empty]
      exact ((h.setReg _ _).goto_left _).goto_right _
  | opImm o rd rs1 imm =>
      rw [written_of_not_isStore id, Set.sdiff_empty, Instr.exec, Instr.exec, h.regs]
      exact ((h.setReg _ _).goto_left _).goto_right _
  | op o rd rs1 rs2 =>
      rw [written_of_not_isStore id, Set.sdiff_empty, Instr.exec, Instr.exec, h.regs]
      exact ((h.setReg _ _).goto_left _).goto_right _
  | jal => exact hi.elim
  | jalr => exact hi.elim
  | branch => exact hi.elim

end Instr

end Rv64
