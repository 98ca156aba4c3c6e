import RailTranslator.RewritingsAgree
import RailTranslator.Rv64.Agree

/-!
The operands a relocated access gets right.

Around the access `sp` is 16 lower than the guest's, and the scratch register
holds an address. A load or store may name either of them as the register that
is loaded or stored, and then the sequence loses what was loaded, or stores a
value of its own. With every other operand the sequence does what the
instruction does at the relocated address.
-/

namespace RailTranslator

open Rv64

/-- Wherever the words stand, they leave the registers and all memory but the
spill slot as the instruction at the relocated address leaves them. -/
def EndsAs (words : List Word) (i : Instr) (s : Machine) : Prop :=
  ∃ s', EndsIn words s s' ∧ Agree (bytes (slot s) 8) (i.exec relocate s) s'

def OffSlot (i : Instr) (s : Machine) : Prop :=
  Apart (slot s) 8 (relocate i.base (s.regs i.base) + i.disp) i.width

section Operands

variable {h : Host} {i : Instr} {s : Machine} {w : Word}

/-! ### Operands the sequence does not use -/

theorem agree_withSlot (t : Reg) (s : Machine) : Agree (bytes (slot s) 8) s (withSlot t s) := by
  refine ⟨rfl, fun x hx => ?_⟩
  exact Mem.write_of_not_mem hx

theorem auipc_not_isAccess {rd : Reg} {imm : BitVec 20} (hacc : i.IsAccess) :
    i ≠ .auipc rd imm := by
  rintro rfl
  exact hacc

theorem endsAs_relocatedByScratch (hw : AccessWord w i) (hbase : i.base ≠ sp)
    (hsp : i.data ≠ sp) (ht : i.data ≠ scratch i.base) (hoff : OffSlot i s) :
    EndsAs (relocatedByScratch h w) i s := by
  refine ⟨_, endsIn_relocatedByScratch hw hbase hsp ht hoff, ?_⟩
  have hkeep : (bytes (slot s) 8 \ i.written relocate s) ⊆ bytes (slot s) 8 :=
    Set.sdiff_subset
  apply Agree.mono _ hkeep
  apply Instr.agree_exec (agree_withSlot _ s) (Instr.straight_of_isAccess hw.isAccess)
  · intro rd imm
    exact auipc_not_isAccess hw.isAccess
  · intro _ _
    right
    exact Set.disjoint_left.mpr fun x hx hslot => (Apart.not_mem hoff hslot) hx

/-! ### The registers the sequence uses -/

theorem endsIn_accessed (hw : AccessWord w i) (hbase : i.base ≠ sp) (s : Machine) :
    EndsIn (relocatedByScratch h w) s
      (reloaded (scratch i.base) (i.accessAt (relocate i.base (s.regs i.base) + i.disp)
        (preparedWith (scratchAt dataOffset (s.regs i.base)) i s))) := by
  apply endsIn_of_reaches
  · rw [length_relocatedByScratch hw]
    decide
  · intro code a hcode
    have hrun := @reaches_relocatedAt i s _ _ h dataOffset _ hw hbase hcode
    rw [relocateAt_dataOffset] at hrun
    rw [length_relocatedByScratch hw]
    exact hrun

theorem EndsAs.agree {words : List Word} {s' : Machine} (hends : EndsAs words i s)
    (hin : EndsIn words s s') :
    s'.regs = (i.exec relocate s).regs ∧
      ∀ x ∉ bytes (slot s) 8, s'.mem x = (i.exec relocate s).mem x := by
  obtain ⟨s'', hin', hagree⟩ := hends
  obtain ⟨hregs, hmem⟩ := hin.unique hin'
  refine ⟨hregs.trans hagree.regs, fun x hx => ?_⟩
  rw [hmem]
  exact hagree.mem x hx

theorem regs_preparedWith_sp {v : DWord} : (preparedWith v i s).regs sp = slot s := by
  simp only [preparedWith, spilled, Machine.regs_setReg]
  rw [Regs.set_of_ne _ _ (Ne.symm (scratch_ne_sp _)), Regs.set_same _ _ (by decide)]

theorem mem_accessAt_store {a : DWord} (hst : i.IsStore) :
    (i.accessAt a s).mem a = (s.regs i.data).extractLsb' 0 8 := by
  cases i with
  | store o rs1 rs2 off =>
      have hin : a ∈ bytes a o.size := by
        rw [mem_bytes, BitVec.sub_self]
        cases o <;> decide
      refine (Mem.write_of_mem hin).trans ?_
      rw [BitVec.sub_self]
      rfl
  | _ => exact hst.elim

/-- If a store ends as it should, the register it stores has kept its low byte. -/
theorem EndsAs.stored_byte (hw : AccessWord w i) (hbase : i.base ≠ sp) (hst : i.IsStore)
    (hoff : OffSlot i s) (hends : EndsAs (relocatedByScratch h w) i s) :
    ((preparedWith (scratchAt dataOffset (s.regs i.base)) i s).regs i.data).extractLsb' 0 8 =
      (s.regs i.data).extractLsb' 0 8 := by
  have hmem := (hends.agree (endsIn_accessed hw hbase s)).2
  rw [Instr.exec_access hw.isAccess] at hmem
  have hfirst : relocate i.base (s.regs i.base) + i.disp ∉ bytes (slot s) 8 := by
    intro hin
    refine Apart.not_mem hoff hin ?_
    rw [mem_bytes, BitVec.sub_self]
    exact Instr.width_pos hw.isAccess
  rw [← mem_accessAt_store hst, ← mem_accessAt_store hst]
  exact hmem _ hfirst

theorem read_preparedWith {v a : DWord} {k : ℕ} (hk : k < 2 ^ 64)
    (hoff : Apart (slot s) 8 a k) : (preparedWith v i s).mem.read a k = s.mem.read a k :=
  Mem.read_write_apart hk hoff.symm

/-- A load into `sp` is 16 off, and a store of `sp` stores the lowered one. -/
theorem not_endsAs_of_sp (hw : AccessWord w i) (hbase : i.base ≠ sp) (hsp : i.data = sp)
    (hoff : OffSlot i s) : ¬ EndsAs (relocatedByScratch h w) i s := by
  intro hends
  have hregs := (hends.agree (endsIn_accessed hw hbase s)).1
  have hstored := fun hst => hends.stored_byte hw hbase hst hoff
  rw [Instr.exec_access hw.isAccess] at hregs
  have hacc := hw.isAccess
  unfold OffSlot at hoff
  generalize relocate i.base (s.regs i.base) + i.disp = a at *
  cases i with
  | load o rd rs1 off =>
      have hrd : rd = sp := hsp
      have hreg := congrFun (congrArg Regs.val hregs) sp
      have hread := read_preparedWith (i := .load o rd rs1 off)
        (v := scratchAt dataOffset (s.regs rs1)) (Instr.width_lt (.load o rd rs1 off)) hoff
      simp only [reloaded, Instr.accessAt, Machine.regs_setReg, Machine.regs_goto, hrd,
        Instr.base, Regs.set_same _ _ (show sp ≠ 0 by decide)] at hreg
      simp only [Instr.width, hrd] at hread
      rw [hread] at hreg
      -- the sum of a value and 16 is not the value
      generalize o.extend _ = value at hreg
      bv_omega
  | store o rs1 rs2 off =>
      rw [hsp, regs_preparedWith_sp, slot] at hstored
      have hnat := congrArg BitVec.toNat (hstored trivial)
      simp only [BitVec.extractLsb'_toNat] at hnat
      bv_omega
  | _ => exact hacc.elim

theorem offSlot_probe (hbase : i.base ≠ sp) : OffSlot i (probe i) := by
  rw [OffSlot, relocate_probe hbase]
  exact apart_probe

def scratchProbe (i : Instr) : Machine := (probe i).setReg (scratch i.base) 1

theorem offSlot_scratchProbe (hbase : i.base ≠ sp) : OffSlot i (scratchProbe i) := by
  have hb : (scratchProbe i).regs i.base = (probe i).regs i.base :=
    Regs.set_of_ne _ _ (Ne.symm (scratch_ne _))
  have hs : slot (scratchProbe i) = slot (probe i) :=
    congrArg (· - 16) (Regs.set_of_ne _ _ (Ne.symm (scratch_ne_sp _)))
  rw [OffSlot, hb, hs, relocate_probe hbase]
  exact apart_probe

theorem regs_reloaded_scratch {a v : DWord} (hst : ¬ i.IsStore) (hsp : i.data ≠ sp) :
    (reloaded (scratch i.base) (i.accessAt a (preparedWith v i s))).regs (scratch i.base) =
      s.regs (scratch i.base) := by
  have hslot : (i.accessAt a (preparedWith v i s)).regs sp = slot s :=
    (Instr.regs_accessAt_of_ne (Ne.symm hsp) _ _).trans regs_preparedWith_sp
  have hread : (i.accessAt a (preparedWith v i s)).mem.read (slot s) 8 =
      s.regs (scratch i.base) :=
    (Instr.read_accessAt (by decide) fun h => absurd h hst).trans (Mem.read_write_same _ _ _)
  rw [reloaded, hslot, hread, Machine.regs_setReg, Regs.set_of_ne _ _ (scratch_ne_sp _)]
  exact Regs.set_same _ _ (scratch_ne_zero _)

theorem not_endsAs_of_load_scratch (hw : AccessWord w i) (hbase : i.base ≠ sp)
    (ht : i.data = scratch i.base) (hst : ¬ i.IsStore) :
    ¬ EndsAs (relocatedByScratch h w) i (probe i) := by
  intro hends
  have hregs := (hends.agree (endsIn_accessed hw hbase _)).1
  rw [Instr.exec_access hw.isAccess, relocate_probe hbase] at hregs
  have hreg := congrFun (congrArg Regs.val hregs) (scratch i.base)
  rw [regs_reloaded_scratch hst (ht ▸ scratch_ne_sp _), regs_probe (scratch_ne_sp _)] at hreg
  have hacc := hw.isAccess
  cases i with
  | load o rd rs1 off =>
      have hrd : scratch rs1 = rd := ht.symm
      have hone : (probe (.load o rd rs1 off)).mem.read (dataBase + off.signExtend 64) o.size =
          1 := by
        cases o <;> exact read_probe (by decide)
      simp only [Instr.base, hrd, Instr.accessAt, Instr.disp, Machine.regs_goto,
        Machine.regs_setReg, hone] at hreg
      rw [Regs.set_same _ _ (hrd ▸ scratch_ne_zero _)] at hreg
      cases o <;> exact absurd hreg (by decide)
  | store o rs1 rs2 off => exact hst trivial
  | _ => exact hacc.elim

/-- What is stored from the scratch register is the address part the sequence
put there. -/
theorem not_endsAs_of_store_scratch (hw : AccessWord w i) (hbase : i.base ≠ sp)
    (ht : i.data = scratch i.base) (hst : i.IsStore) :
    ¬ EndsAs (relocatedByScratch h w) i (scratchProbe i) := by
  intro hends
  have hstored := hends.stored_byte hw hbase hst (offSlot_scratchProbe hbase)
  have hb : (scratchProbe i).regs i.base = 0 :=
    (Regs.set_of_ne _ _ (Ne.symm (scratch_ne _))).trans (regs_probe hbase)
  have hone : (scratchProbe i).regs (scratch i.base) = 1 := Regs.set_same _ _ (scratch_ne_zero _)
  rw [ht, regs_preparedWith_scratch, hb, hone] at hstored
  exact absurd hstored (by decide +kernel)

/-- The words emitted for a load or store with a base other than `sp` do what
the instruction does at the relocated address, in every state in which the
accessed bytes are not those of the spill slot, just if the register that is
loaded or stored is neither `sp` nor the scratch register. -/
theorem relocatedByScratch_endsAs_iff (hw : AccessWord w i) (hbase : i.base ≠ sp) :
    (∀ s, OffSlot i s → EndsAs (relocatedByScratch h w) i s) ↔
      i.data ≠ sp ∧ i.data ≠ scratch i.base := by
  constructor
  · intro hall
    constructor
    · intro hsp
      have hoff := offSlot_scratchProbe hbase
      exact not_endsAs_of_sp hw hbase hsp hoff (hall _ hoff)
    · intro ht
      by_cases hst : i.IsStore
      · exact not_endsAs_of_store_scratch hw hbase ht hst (hall _ (offSlot_scratchProbe hbase))
      · exact not_endsAs_of_load_scratch hw hbase ht hst (hall _ (offSlot_probe hbase))
  · rintro ⟨hsp, ht⟩ s hoff
    exact endsAs_relocatedByScratch hw hbase hsp ht hoff

end Operands

theorem relocatedByScratch_endsAs_ld :
    OffSlot (.load .ld 5 6 0) (probe (.load .ld 5 6 0)) ∧
      EndsAs (relocatedByScratch requestedHost 0x00033283) (.load .ld 5 6 0)
        (probe (.load .ld 5 6 0)) := by
  have hoff : OffSlot (.load .ld 5 6 0) (probe (.load .ld 5 6 0)) := offSlot_probe (by decide)
  exact ⟨hoff, (relocatedByScratch_endsAs_iff accessWord_ld (by decide)).mpr (by decide) _ hoff⟩

/-- `ld x31, 0(x6)` -/
theorem accessWord_ld_t6 : AccessWord 0x00033f83 (.load .ld 31 6 0) :=
  ⟨.inl (by decide), by decide +kernel⟩

/-- `ld x31, 0(x6)` loads into the scratch register: the doubleword 1 that
stands at the relocated address does not arrive. -/
theorem relocatedByScratch_loses_ld_t6 :
    AccessWord 0x00033f83 (.load .ld 31 6 0) ∧
      OffSlot (.load .ld 31 6 0) (probe (.load .ld 31 6 0)) ∧
      ¬ EndsAs (relocatedByScratch requestedHost 0x00033f83) (.load .ld 31 6 0)
        (probe (.load .ld 31 6 0)) := by
  have hbase : (Instr.load .ld 31 6 0).base ≠ sp := by decide
  exact ⟨accessWord_ld_t6, offSlot_probe hbase,
    not_endsAs_of_load_scratch accessWord_ld_t6 hbase (by decide) id⟩

end RailTranslator
