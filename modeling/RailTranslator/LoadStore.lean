import RailTranslator.AllocateTrace
import RailTranslator.Emitted

/-!
The two rewritings of a load or store.

`relocatedByScratch` computes the relocated address in the scratch register
and uses the instruction with that register as its base; `relocatedInPlace`
moves the base register itself and moves it back. Both are measured against
one reference, the original instruction under the base translation
`relocate`, run on a memory in which the spill slot has been written: the
first rewriting is that instruction whenever the data register is not one the
sequence uses, the second one needs more.
-/

namespace RailTranslator

open Rv64

def dataBase : DWord := dataOffset.signExtend 64

/-- What a base register other than `sp` stands for: an address below the
offset is one of the guest's own data addresses. -/
def relocate (r : Reg) (v : DWord) : DWord :=
  if r ≠ sp ∧ v.slt dataBase then v + dataBase else v

theorem relocate_of_slt {r : Reg} {v : DWord} (hr : r ≠ sp) (h : v.slt dataBase = true) :
    relocate r v = v + dataBase :=
  if_pos ⟨hr, h⟩

theorem relocate_of_not_slt {r : Reg} {v : DWord} (h : v.slt dataBase = false) :
    relocate r v = v :=
  if_neg (by simp [h])

theorem liValue_dataOffset : liValue (dataOffset.signExtend 64) = dataBase := by decide +kernel

/-! ### The words of a load or store -/

structure AccessWord (w : Word) (i : Instr) : Prop where
  opcode : w.opcode = Opcode.load ∨ w.opcode = Opcode.store
  decode : Instr.decode w = some i

namespace AccessWord

variable {w : Word} {i : Instr} (hw : AccessWord w i) (junk : RvInst)

include hw

theorem cases : (w.opcode = Opcode.load ∧ ∃ o, LoadOp.ofFunct3 w.funct3 = some o ∧
      i = .load o w.rd w.rs1 w.immI) ∨
    (w.opcode = Opcode.store ∧ ∃ o, StoreOp.ofFunct3 w.funct3 = some o ∧
      i = .store o w.rs1 w.rs2 w.immS) := by
  obtain ⟨hop | hop, hdec⟩ := hw
  · rw [decode_of_load hop, Option.map_eq_some_iff] at hdec
    obtain ⟨o, ho, rfl⟩ := hdec
    exact .inl ⟨hop, o, ho, rfl⟩
  · rw [decode_of_store hop, Option.map_eq_some_iff] at hdec
    obtain ⟨o, ho, rfl⟩ := hdec
    exact .inr ⟨hop, o, ho, rfl⟩

theorem isAccess : i.IsAccess := by
  obtain ⟨_, o, _, rfl⟩ | ⟨_, o, _, rfl⟩ := hw.cases <;> trivial

theorem opcodeOf_eq : opcodeOf w = Op.load ∨ opcodeOf w = Op.store :=
  hw.opcode.imp opcodeOf_eq_iff.mpr opcodeOf_eq_iff.mpr

theorem rs1_eq : (decodeInstruction junk w).rs1 = i.base.setWidth 32 := by
  obtain ⟨hop, o, _, rfl⟩ | ⟨hop, o, _, rfl⟩ := hw.cases
  · rw [decodeInstruction_itype (by simp [hop]), decodeItype_rs1]; rfl
  · rw [decodeInstruction_stype hop, decodeStype_rs1]; rfl

theorem shiftBack_iff :
    (((decodeInstruction junk w).type = .iType ∧
          (decodeInstruction junk w).rs1 ≠ (decodeInstruction junk w).rd) ∨
        ((decodeInstruction junk w).type = .sType ∧
          (decodeInstruction junk w).rs1 ≠ (decodeInstruction junk w).rs2)) ↔
      i.base ≠ i.data := by
  obtain ⟨hop, o, _, rfl⟩ | ⟨hop, o, _, rfl⟩ := hw.cases
  · rw [decodeInstruction_itype (by simp [hop]), decodeItype_rs1, decodeItype_rd]
    simp [decodeItype, setWidth_inj, Instr.base, Instr.data]
  · rw [decodeInstruction_stype hop, decodeStype_rs1, decodeStype_rs2]
    simp [decodeStype, setWidth_inj, Instr.base, Instr.data]

theorem decode_setBase (r : Reg) :
    Instr.decode (encodeInstruction { decodeInstruction junk w with rs1 := r.setWidth 32 }) =
      some (i.setBase r) := by
  obtain ⟨hop, o, ho, rfl⟩ | ⟨hop, o, ho, rfl⟩ := hw.cases
  · have hword : encodeInstruction { decodeItype junk w with rs1 := r.setWidth 32 } =
        iType w.immI r w.funct3 w.rd Opcode.load := by
      have hopc : (decodeItype junk w).opcode = Opcode.load.setWidth 32 := by
        rw [decodeItype_opcode, hop]
      have hload : (decodeItype junk w).opcode = Op.load := hopc
      rw [← encodeItypeFields_eq, ← hopc, ← decodeItype_rd junk, ← decodeItype_funct3 junk,
        ← decodeItype_imm junk]
      simp [encodeInstruction, hload, encodeItype, encodeItypeFields]
    rw [decodeInstruction_itype (by simp [hop]), hword, decode_load _ ho]
    rfl
  · have hword : encodeInstruction { decodeStype junk w with rs1 := r.setWidth 32 } =
        sType w.immS w.rs2 r w.funct3 Opcode.store := by
      have hopc : (decodeStype junk w).opcode = Opcode.store.setWidth 32 := by
        rw [decodeStype_opcode, hop]
      have hstore : (decodeStype junk w).opcode = Op.store := hopc
      rw [← encodeStypeFields_eq, ← hopc, ← decodeStype_rs2 junk, ← decodeStype_funct3 junk,
        ← decodeStype_imm junk]
      simp [encodeInstruction, hstore, encodeStype, encodeStypeFields]
    rw [decodeInstruction_stype hop, hword, decode_store _ ho]
    rfl

end AccessWord

theorem decode_bltWord (rs1 rs2 : Reg) :
    Instr.decode (encodeBtypeFields Op.branch (rs1.setWidth 32) (rs2.setWidth 32)
      RvFunct.blt 12) = some (.branch .blt rs1 rs2 12) :=
  (congrArg Instr.decode (encodeBtypeFields_eq Opcode.branch rs1 rs2 4 12)).trans
    (decode_branch rfl rfl)

theorem decode_addWord (rd rs1 rs2 : Reg) :
    Instr.decode (encodeRtypeFields Op.op (rd.setWidth 32) RvFunct.add (rs1.setWidth 32)
      (rs2.setWidth 32) 0) = some (.op .add rd rs1 rs2) :=
  (congrArg Instr.decode (encodeRtypeFields_eq Opcode.op 0 rd rs1 rs2 0)).trans decode_add

theorem decode_subWord (rd rs1 rs2 : Reg) :
    Instr.decode (encodeRtypeFields Op.op (rd.setWidth 32) RvFunct.add (rs1.setWidth 32)
      (rs2.setWidth 32) RvFunct.subFunct7) = some (.op .sub rd rs1 rs2) :=
  (congrArg Instr.decode (encodeRtypeFields_eq Opcode.op 0x20 rd rs1 rs2 0)).trans decode_sub

/-! ### Around the access -/

variable {i : Instr} {s : Machine} {t : Reg} {code : Code}

/-- An access that uses neither `sp` nor the scratch register is not
disturbed by the spill around it: reloading brings its own result back. -/
theorem reloaded_accessAt {v a : DWord} (htsp : t ≠ sp) (hsp : i.data ≠ sp) (ht : i.data ≠ t)
    (hslot : i.IsStore → Apart (slot s) 8 a i.width) :
    reloaded t (i.accessAt a ((spilled t s).setReg t v)) = i.accessAt a (withSlot t s) := by
  have hread : (i.accessAt a (withSlot t s)).mem.read (slot s) 8 = s.regs t := by
    rw [Instr.read_accessAt (by decide) hslot]
    simp [withSlot]
  have hregt : (i.accessAt a (withSlot t s)).regs t = s.regs t :=
    Instr.regs_accessAt_of_ne (Ne.symm ht) a _
  have hregsp : (i.accessAt a (withSlot t s)).regs sp = s.regs sp :=
    Instr.regs_accessAt_of_ne (Ne.symm hsp) a _
  have hup : slot s + 16 = s.regs sp := by rw [slot]; bv_omega
  rw [Instr.accessAt_setReg (Ne.symm ht), spilled, Instr.accessAt_setReg (Ne.symm hsp)]
  generalize i.accessAt a (withSlot t s) = s' at *
  have hsp' : ((s'.setReg sp (slot s)).setReg t v).regs sp = slot s := by
    simp only [Machine.regs_setReg]
    rw [Regs.set_of_ne _ _ (Ne.symm htsp), Regs.set_same _ _ (by decide)]
  simp only [reloaded, hsp', Machine.mem_setReg, hread, hup, Machine.setReg_setReg]
  rw [Machine.setReg_comm _ _ _ (Ne.symm htsp), Machine.setReg_setReg, ← hregsp, ← hregt,
    Machine.setReg_comm _ _ _ htsp]
  simp

/-! ### The access of `allocateBB` -/

/-- The state behind the spill and the constant, where the base is compared. -/
def prepared (i : Instr) (s : Machine) : Machine :=
  (spilled (scratch i.base) s).setReg (scratch i.base) dataBase

/-- The sequence of `allocateBB` for a data offset of any value. -/
def relocatedAt (h : Host) (offset : BitVec 32) (nextInst : Word) : List Word :=
  let decodedInst := decodeInstruction h.junkInst nextInst
  let scratch_reg := scratchReg decodedInst.rs1
  saveScratch scratch_reg ++ insertLi (offset.signExtend 64) scratch_reg ++
    [encodeBtypeFields Op.branch decodedInst.rs1 scratch_reg RvFunct.blt 12,
     nextInst,
     0x00c0006f,
     encodeRtypeFields Op.op scratch_reg RvFunct.add decodedInst.rs1 scratch_reg 0,
     encodeInstruction { decodedInst with rs1 := scratch_reg }] ++
    loadScratch scratch_reg

/-- What a base register stands for then: the offset it is compared with is the
one the three words of `insertLi` load. -/
def relocateAt (offset : BitVec 32) (r : Reg) (v : DWord) : DWord :=
  let base := liValue (offset.signExtend 64)
  if r ≠ sp ∧ v.slt base then v + base else v

def scratchAt (offset : BitVec 32) (v : DWord) : DWord :=
  let base := liValue (offset.signExtend 64)
  if v.slt base then v + base else base

theorem relocateAt_dataOffset : relocateAt dataOffset = relocate := by
  funext r v
  rw [relocateAt, relocate, liValue_dataOffset]

variable {w : Word} {h : Host} {offset : BitVec 32}

theorem relocatedAt_eq (hw : AccessWord w i) :
    relocatedAt h offset w = saveScratch (scratchReg (i.base.setWidth 32)) ++
      (insertLi (offset.signExtend 64) ((scratch i.base).setWidth 32) ++
        ([encodeBtypeFields Op.branch (i.base.setWidth 32) ((scratch i.base).setWidth 32)
            RvFunct.blt 12,
          w,
          0x00c0006f,
          encodeRtypeFields Op.op ((scratch i.base).setWidth 32) RvFunct.add
            (i.base.setWidth 32) ((scratch i.base).setWidth 32) 0,
          encodeInstruction { decodeInstruction h.junkInst w with
            rs1 := (scratch i.base).setWidth 32 }] ++
        loadScratch (scratchReg (i.base.setWidth 32)))) := by
  simp only [relocatedAt, hw.rs1_eq, scratchReg_setWidth, List.append_assoc]

theorem length_relocatedAt (hw : AccessWord w i) : (relocatedAt h offset w).length = 12 := by
  rw [relocatedAt_eq hw]
  simp

def preparedWith (v : DWord) (i : Instr) (s : Machine) : Machine :=
  (spilled (scratch i.base) s).setReg (scratch i.base) v

theorem regs_preparedWith_base (hbase : i.base ≠ sp) (v : DWord) :
    (preparedWith v i s).regs i.base = s.regs i.base := by
  simp only [preparedWith, spilled, withSlot, Machine.regs_setReg, Machine.regs_setMem]
  rw [Regs.set_of_ne _ _ (Ne.symm (scratch_ne _)), Regs.set_of_ne _ _ hbase]

theorem regs_preparedWith_scratch (v : DWord) :
    (preparedWith v i s).regs (scratch i.base) = v :=
  Regs.set_same _ _ (scratch_ne_zero _)

theorem reaches_preparedWith {a : DWord} {rest : List Word}
    (hcode : CodeAt code a (saveScratch (scratchReg (i.base.setWidth 32)) ++
      (insertLi (offset.signExtend 64) ((scratch i.base).setWidth 32) ++ rest))) :
    Reaches direct code (s.goto a)
      ((preparedWith (liValue (offset.signExtend 64)) i s).goto (wordAddr a 5)) := by
  obtain ⟨hsave, hcode⟩ := codeAt_append.mp hcode
  obtain ⟨hli, -⟩ := codeAt_append.mp hcode
  rw [length_saveScratch] at hli
  refine (reaches_saveScratch s hsave).trans ?_
  have := @reaches_insertLi direct _ (spilled (scratch i.base) s) _ _ _ hli
  rwa [← wordAddr_add] at this

/-- The sequence comes to the access: the instruction itself, or the same one
with the scratch register as its base. The address is the relocated one, and
behind the access control comes to the words that reload the scratch register. -/
theorem reaches_access_relocatedAt {a : DWord} (hw : AccessWord w i) (hbase : i.base ≠ sp)
    (hcode : CodeAt code a (relocatedAt h offset w)) : ∃ (pc : DWord) (u : Word) (r : Reg),
      Reaches direct code (s.goto a)
        ((preparedWith (scratchAt offset (s.regs i.base)) i s).goto pc) ∧
      code pc = some u ∧ Instr.decode u = some (i.setBase r) ∧
      (preparedWith (scratchAt offset (s.regs i.base)) i s).regs r =
        relocateAt offset i.base (s.regs i.base) ∧
      ∀ s' : Machine, Reaches direct code (s'.goto (pc + 4)) (s'.goto (wordAddr a 10)) := by
  have hacc : i.IsAccess := hw.isAccess
  rw [relocatedAt_eq hw] at hcode
  have hprepared := @reaches_preparedWith i s _ _ _ _ hcode
  rw [codeAt_append, codeAt_append, codeAt_append] at hcode
  obtain ⟨-, -, hmid, -⟩ := hcode
  simp only [length_saveScratch, length_insertLi, codeAt_cons, ← wordAddr_add,
    wordAddr_add_four, Nat.reduceAdd] at hmid
  obtain ⟨hblt, hinst, hjump, hadd, hre, -⟩ := hmid
  generalize hv : liValue (offset.signExtend 64) = base at hprepared
  have hregb := @regs_preparedWith_base i s hbase base
  have hregt : (preparedWith base i s).regs (scratch i.base) = base :=
    regs_preparedWith_scratch base
  have h8 : wordAddr a 5 + (12 : BitVec 13).signExtend 64 = wordAddr a 8 :=
    (wordAddr_add a 5 3).symm
  have h10 : wordAddr a 7 + (12 : BitVec 21).signExtend 64 = wordAddr a 10 :=
    (wordAddr_add a 7 3).symm
  -- the branch compares the base with what `insertLi` has loaded
  cases hlt : (s.regs i.base).slt base with
  | true =>
      have hscr : scratchAt offset (s.regs i.base) = s.regs i.base + base := by
        rw [scratchAt, hv, if_pos hlt]
      refine ⟨wordAddr a 9, _, scratch i.base, ?_, hre, hw.decode_setBase _ _, ?_, fun s' => ?_⟩
      · refine (hprepared.trans (reaches_branch_taken (preparedWith base i s) hblt
          (decode_bltWord _ _) (by rw [hregb, hregt]; exact hlt) h8)).trans ?_
        have hsum := @reaches_op direct _ (preparedWith base i s) _ _ _ _ _ _ hadd
          (decode_addWord _ _ _)
        rw [hregb, hregt, preparedWith, Machine.setReg_setReg, wordAddr_add_four] at hsum
        rw [hscr]
        exact hsum
      · rw [regs_preparedWith_scratch, hscr, relocateAt, hv, if_pos ⟨hbase, hlt⟩]
      · rw [wordAddr_add_four]
        exact .refl _
  | false =>
      have hscr : scratchAt offset (s.regs i.base) = base := by
        rw [scratchAt, hv, if_neg (by simp [hlt])]
      rw [hscr]
      refine ⟨wordAddr a 6, _, i.base, ?_, hinst, ?_, ?_, fun s' => ?_⟩
      · exact hprepared.trans (reaches_branch_not_taken (preparedWith base i s) hblt
          (decode_bltWord _ _) (by rw [hregb, hregt]; exact hlt) (wordAddr_add_four _ _))
      · rw [hw.decode, Instr.setBase_base]
      · rw [hregb, relocateAt, hv, if_neg (by simp [hlt])]
      · rw [wordAddr_add_four]
        exact reaches_jump _ hjump (by decide +kernel) h10

/-- What the sequence does, whatever its registers are: an access at the
relocated address, between the words that spill and reload. -/
theorem reaches_relocatedAt {a : DWord} (hw : AccessWord w i) (hbase : i.base ≠ sp)
    (hcode : CodeAt code a (relocatedAt h offset w)) :
    Reaches direct code (s.goto a)
      ((reloaded (scratch i.base) (i.accessAt
        (relocateAt offset i.base (s.regs i.base) + i.disp)
        (preparedWith (scratchAt offset (s.regs i.base)) i s))).goto (wordAddr a 12)) := by
  have hacc : i.IsAccess := hw.isAccess
  obtain ⟨pc, u, r, hrun, hu, hdec, haddr, hback⟩ :=
    @reaches_access_relocatedAt i s _ _ h _ _ hw hbase hcode
  refine hrun.trans ?_
  generalize scratchAt offset (s.regs i.base) = v at *
  have haccess := Instr.reaches_access (preparedWith v i s) (Instr.isAccess_setBase hacc r) hu hdec
  rw [Instr.base_setBase hacc, Instr.disp_setBase, Instr.accessAt_setBase, haddr] at haccess
  refine (haccess.trans (hback _)).trans ?_
  rw [relocatedAt_eq hw] at hcode
  rw [codeAt_append, codeAt_append, codeAt_append] at hcode
  obtain ⟨-, -, -, hload⟩ := hcode
  simp only [length_saveScratch, length_insertLi, List.length_cons, List.length_nil,
    ← wordAddr_add, Nat.reduceAdd] at hload
  have hreload := reaches_loadScratch (i.accessAt
    (relocateAt offset i.base (s.regs i.base) + i.disp) (preparedWith v i s)) hload
  rwa [← wordAddr_add] at hreload

/-- The sequence of `allocateBB` is the instruction under `relocate`, run with
the scratch register in the slot below the stack. -/
theorem reaches_relocatedByScratch {a : DWord} (hw : AccessWord w i) (hbase : i.base ≠ sp)
    (hsp : i.data ≠ sp) (ht : i.data ≠ scratch i.base)
    (hslot : i.IsStore →
      Apart (slot s) 8 (relocate i.base (s.regs i.base) + i.disp) i.width)
    (hcode : CodeAt code a (relocatedByScratch h w)) :
    Reaches direct code (s.goto a)
      ((i.exec relocate (withSlot (scratch i.base) s)).goto (wordAddr a 12)) := by
  have hrun := @reaches_relocatedAt i s _ _ h dataOffset _ hw hbase hcode
  rw [relocateAt_dataOffset, preparedWith,
    reloaded_accessAt (scratch_ne_sp i.base) hsp ht hslot] at hrun
  rw [Instr.exec_access hw.isAccess]
  exact hrun

theorem reaches_prepared {a : DWord} {rest : List Word}
    (hcode : CodeAt code a (saveScratch (scratchReg (i.base.setWidth 32)) ++
      (insertLi (dataOffset.signExtend 64) ((scratch i.base).setWidth 32) ++ rest))) :
    Reaches direct code (s.goto a) ((prepared i s).goto (wordAddr a 5)) := by
  have hprepared := @reaches_preparedWith i s _ _ _ _ hcode
  rwa [liValue_dataOffset] at hprepared

theorem regs_prepared_base (hbase : i.base ≠ sp) :
    (prepared i s).regs i.base = s.regs i.base :=
  regs_preparedWith_base hbase dataBase

theorem regs_prepared_scratch : (prepared i s).regs (scratch i.base) = dataBase :=
  regs_preparedWith_scratch dataBase

/-! ### The access of `allocateTraceBlock` and `allocateNextInst` -/

def shifted (i : Instr) (s : Machine) : Machine :=
  s.setReg i.base (s.regs i.base + dataBase)

/-- The base register is moved back unless it is the data register. -/
def shiftBack (i : Instr) (s : Machine) : Machine :=
  if i.base ≠ i.data then s.setReg i.base (s.regs i.base - dataBase) else s

def inPlaceAddr (i : Instr) (s : Machine) : DWord :=
  (if (s.regs i.base).slt dataBase then (shifted i s).regs i.base else s.regs i.base) + i.disp

def inPlace (i : Instr) (s : Machine) : Machine :=
  if (s.regs i.base).slt dataBase then
    shiftBack i (i.accessAt (inPlaceAddr i s) (withSlot (scratch i.base) (shifted i s)))
  else i.accessAt (inPlaceAddr i s) (withSlot (scratch i.base) s)

theorem relocatedInPlace_eq (hw : AccessWord w i) :
    relocatedInPlace h w = saveScratch (scratchReg (i.base.setWidth 32)) ++
      (insertLi (dataOffset.signExtend 64) ((scratch i.base).setWidth 32) ++
        ([encodeBtypeFields Op.branch (i.base.setWidth 32) ((scratch i.base).setWidth 32)
            RvFunct.blt 12,
          w,
          0x0100006f,
          encodeRtypeFields Op.op (i.base.setWidth 32) RvFunct.add
            (i.base.setWidth 32) ((scratch i.base).setWidth 32) 0,
          w,
          if i.base ≠ i.data then
            encodeRtypeFields Op.op (i.base.setWidth 32) RvFunct.add (i.base.setWidth 32)
              ((scratch i.base).setWidth 32) RvFunct.subFunct7
          else 0x00000013] ++
        loadScratch (scratchReg (i.base.setWidth 32)))) := by
  have hback := hw.shiftBack_iff h.junkInst
  rw [hw.rs1_eq] at hback
  simp only [relocatedInPlace, hw.rs1_eq, hback, scratchReg_setWidth, List.append_assoc]

theorem slot_shifted (hbase : i.base ≠ sp) : slot (shifted i s) = slot s := by
  simp only [slot, shifted, Machine.regs_setReg, Regs.set_of_ne _ _ (Ne.symm hbase)]

theorem prepared_shifted (hbase : i.base ≠ sp) :
    (prepared i s).setReg i.base (s.regs i.base + dataBase) =
      (spilled (scratch i.base) (shifted i s)).setReg (scratch i.base) dataBase := by
  have hslot : slot (shifted i s) = slot s := slot_shifted hbase
  have hscr : (shifted i s).regs (scratch i.base) = s.regs (scratch i.base) :=
    Regs.set_of_ne _ _ (scratch_ne _)
  rw [prepared, spilled, spilled, withSlot, withSlot, hslot, hscr, shifted, Machine.mem_setReg,
    Machine.setMem_setReg, Machine.setReg_comm _ _ _ (scratch_ne _),
    Machine.setReg_comm _ _ _ (Ne.symm hbase)]

theorem reloaded_shiftBack (hbase : i.base ≠ sp) :
    reloaded (scratch i.base) (shiftBack i s) = shiftBack i (reloaded (scratch i.base) s) := by
  unfold shiftBack
  split
  · have hregb : (reloaded (scratch i.base) s).regs i.base = s.regs i.base := by
      simp only [reloaded, Machine.regs_setReg]
      rw [Regs.set_of_ne _ _ hbase, Regs.set_of_ne _ _ (Ne.symm (scratch_ne _))]
    rw [hregb]
    simp only [reloaded, Machine.mem_setReg, Machine.regs_setReg,
      Regs.set_of_ne _ _ (Ne.symm hbase)]
    rw [Machine.setReg_comm _ _ _ (Ne.symm (scratch_ne _)), Machine.setReg_comm _ _ _ hbase]
  · rfl

theorem reaches_shiftBack {a v : DWord} {u : Word} (ht : i.data ≠ scratch i.base)
    (hu : u = if i.base ≠ i.data then
        encodeRtypeFields Op.op (i.base.setWidth 32) RvFunct.add (i.base.setWidth 32)
          ((scratch i.base).setWidth 32) RvFunct.subFunct7
      else 0x00000013)
    (hcode : code a = some u) :
    Reaches direct code
      ((i.accessAt v ((spilled (scratch i.base) s).setReg (scratch i.base) dataBase)).goto a)
      ((shiftBack i
        (i.accessAt v ((spilled (scratch i.base) s).setReg (scratch i.base) dataBase))).goto
          (a + 4)) := by
  by_cases hne : i.base ≠ i.data
  · rw [hu, if_pos hne] at hcode
    have hscr := Instr.regs_accessAt_of_ne (Ne.symm ht) v
      ((spilled (scratch i.base) s).setReg (scratch i.base) dataBase)
    rw [Machine.regs_setReg, Regs.set_same _ _ (scratch_ne_zero _)] at hscr
    have hsub := @reaches_op direct _ (i.accessAt v
      ((spilled (scratch i.base) s).setReg (scratch i.base) dataBase)) _ _ _ _ _ _ hcode
      (decode_subWord _ _ _)
    rw [hscr] at hsub
    rw [shiftBack, if_pos hne]
    exact hsub
  · rw [hu, if_neg hne] at hcode
    rw [shiftBack, if_neg hne]
    refine reaches_at _ (i := .opImm .add 0 0 0) hcode (by decide +kernel) ?_
    simp [Instr.exec]

/-- The sequence of `allocateTraceBlock` and `allocateNextInst` computes `inPlace`. -/
theorem reaches_relocatedInPlace {a : DWord} (hw : AccessWord w i) (hbase : i.base ≠ sp)
    (hsp : i.data ≠ sp) (ht : i.data ≠ scratch i.base)
    (hslot : i.IsStore → Apart (slot s) 8 (inPlaceAddr i s) i.width)
    (hcode : CodeAt code a (relocatedInPlace h w)) :
    Reaches direct code (s.goto a) ((inPlace i s).goto (wordAddr a 13)) := by
  have hacc : i.IsAccess := hw.isAccess
  rw [relocatedInPlace_eq hw] at hcode
  refine (reaches_prepared hcode).trans ?_
  rw [codeAt_append, codeAt_append, codeAt_append] at hcode
  obtain ⟨-, -, hmid, hload⟩ := hcode
  simp only [length_saveScratch, length_insertLi, codeAt_cons, ← wordAddr_add,
    wordAddr_add_four, Nat.reduceAdd] at hmid hload
  obtain ⟨hblt, hinst, hjump, hadd, hinst', hback, -⟩ := hmid
  have hregb : (prepared i s).regs i.base = s.regs i.base := regs_prepared_base hbase
  have hregt : (prepared i s).regs (scratch i.base) = dataBase := regs_prepared_scratch
  have h8 : wordAddr a 5 + (12 : BitVec 13).signExtend 64 = wordAddr a 8 :=
    (wordAddr_add a 5 3).symm
  have h11 : wordAddr a 7 + (16 : BitVec 21).signExtend 64 = wordAddr a 11 :=
    (wordAddr_add a 7 4).symm
  -- a base below the data is shifted in place and shifted back
  cases hlt : (s.regs i.base).slt dataBase with
  | true =>
      refine (reaches_branch_taken (prepared i s) hblt (decode_bltWord _ _)
        (by rw [hregb, hregt]; exact hlt) h8).trans ?_
      refine (reaches_op (prepared i s) hadd (decode_addWord _ _ _)).trans ?_
      rw [hregb, hregt, AluOp.eval, prepared_shifted hbase, wordAddr_add_four]
      refine (Instr.reaches_access _ hacc hinst' hw.decode).trans ?_
      have haddr : ((spilled (scratch i.base) (shifted i s)).setReg (scratch i.base)
          dataBase).regs i.base + i.disp = inPlaceAddr i s := by
        rw [inPlaceAddr, if_pos hlt, ← @regs_prepared_base i (shifted i s) hbase]
        rfl
      rw [wordAddr_add_four, haddr]
      refine (reaches_shiftBack ht rfl hback).trans ?_
      have hrun := reaches_loadScratch (shiftBack i (i.accessAt (inPlaceAddr i s)
        ((spilled (scratch i.base) (shifted i s)).setReg (scratch i.base) dataBase))) hload
      rw [reloaded_shiftBack hbase, reloaded_accessAt (scratch_ne_sp i.base) hsp ht
        (by rwa [slot_shifted hbase]), ← wordAddr_add] at hrun
      rw [inPlace, if_pos hlt, wordAddr_add_four]
      exact hrun
  | false =>
      refine (reaches_branch_not_taken (prepared i s) hblt (decode_bltWord _ _)
        (by rw [hregb, hregt]; exact hlt) (wordAddr_add_four _ _)).trans ?_
      refine (Instr.reaches_access (prepared i s) hacc hinst hw.decode).trans ?_
      rw [wordAddr_add_four]
      -- the access as it is, and the jump over the other one
      refine (reaches_jump _ hjump (by decide +kernel) h11).trans ?_
      have hrun := reaches_loadScratch (i.accessAt (inPlaceAddr i s) (prepared i s)) hload
      rw [prepared, reloaded_accessAt (scratch_ne_sp i.base) hsp ht hslot, ← wordAddr_add] at hrun
      rw [inPlace, hlt, if_neg Bool.false_ne_true]
      rw [inPlaceAddr, hlt, if_neg Bool.false_ne_true, ← hregb] at hrun ⊢
      exact hrun

/-- Unless the base register is `x0`, or is itself stored, the sequence is the
instruction under `relocate`. -/
theorem inPlace_eq (hacc : i.IsAccess) (hbase : i.base ≠ sp) (h0 : i.base ≠ 0)
    (hst : i.IsStore → i.base ≠ i.data) :
    inPlace i s = i.exec relocate (withSlot (scratch i.base) s) := by
  rw [Instr.exec_access hacc, regs_withSlot]
  cases hlt : (s.regs i.base).slt dataBase with
  | false => rw [inPlace, inPlaceAddr, hlt, relocate_of_not_slt hlt]; rfl
  | true =>
      have hmoved : (shifted i s).regs i.base = s.regs i.base + dataBase := Regs.set_same _ _ h0
      have hwith : withSlot (scratch i.base) (shifted i s) =
          (withSlot (scratch i.base) s).setReg i.base (s.regs i.base + dataBase) := by
        rw [withSlot, slot_shifted hbase, shifted, Machine.regs_setReg,
          Regs.set_of_ne _ _ (scratch_ne _)]
        rfl
      rw [inPlace, if_pos hlt, inPlaceAddr, if_pos hlt, hmoved, relocate_of_slt hbase hlt, hwith]
      by_cases hne : i.base = i.data
      · have hnst : ¬ i.IsStore := fun h => hst h hne
        rw [shiftBack, if_neg (not_not.mpr hne), hne, Instr.accessAt_setReg_data hacc hnst]
      · have hregb := Instr.regs_accessAt_of_ne hne (s.regs i.base + dataBase + i.disp)
          (withSlot (scratch i.base) s)
        have hback : s.regs i.base + dataBase - dataBase = s.regs i.base := by bv_omega
        rw [Instr.accessAt_setReg hne, shiftBack, if_pos hne, Machine.setReg_setReg,
          Machine.regs_setReg, Regs.set_same _ _ h0, hback]
        rw [regs_withSlot] at hregb
        generalize i.accessAt _ _ = s' at *
        rw [← hregb, Machine.setReg_self]

/-- Register `x0` cannot be moved: the access is not relocated. -/
theorem inPlace_zero (h0 : i.base = 0) :
    inPlace i s = i.accessAt i.disp (withSlot (scratch i.base) s) := by
  have hsame : shifted i s = s := by rw [shifted, h0]; simp
  have hzero : s.regs i.base = 0 := by rw [h0]; exact s.regs.zero
  have hlt : (s.regs i.base).slt dataBase = true := by rw [hzero]; decide
  have haddr : inPlaceAddr i s = i.disp := by
    rw [inPlaceAddr, if_pos hlt, hsame, hzero]
    exact BitVec.zero_add _
  rw [inPlace, if_pos hlt, hsame, haddr, shiftBack]
  split
  · rw [h0]; simp
  · rfl

end RailTranslator
