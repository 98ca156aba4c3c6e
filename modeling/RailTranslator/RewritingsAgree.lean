import RailTranslator.LoadStore

/-!
Where the load/store rewritings of the three translators agree.

They agree on every state for every instruction but two kinds. A base of `x0`
cannot be moved in place, so `allocateTraceBlock` and `allocateNextInst`
leave the access where it was while `allocateBB` relocates it; and a store
whose data register is its base stores the moved base and never moves it
back.
-/

namespace RailTranslator

open Rv64

/-! ### What the translators emit for a load or store -/

section Emission

variable {h : Host} {r : Rail} {i : Instr}

theorem rs1_ne_sp {w : Word} (hw : AccessWord w i) (hbase : i.base ≠ sp) (junk : RvInst) :
    (decodeInstruction junk w).rs1 ≠ 2#32 := by
  rw [hw.rs1_eq]
  exact fun heq => hbase ((setWidth_inj (by decide)).mp (heq.trans (by decide : _ = sp.setWidth 32)))

theorem translateInst_access (hr : r.Uninstrumented) {st : BBState}
    (hw : AccessWord st.nextInst i) (hbase : i.base ≠ sp) :
    translateInst h r st = .next (st.advance (relocatedByScratch h st.nextInst)) := by
  have hrs1 := rs1_ne_sp hw hbase h.junkInst
  rcases hw.opcodeOf_eq with hop | hop <;>
    simp [translateInst, hop, hrs1, hr.postInstrumented]

theorem traceTurn_access (hr : r.Uninstrumented) (count : ℕ) {st : TraceState}
    (hw : AccessWord st.nextInst i) (hbase : i.base ≠ sp) :
    traceTurn h r count st =
      .next (st.countInst.advance (relocatedInPlace h st.nextInst)) := by
  have hrs1 := rs1_ne_sp hw hbase h.junkInst
  rcases hw.opcodeOf_eq with hop | hop <;>
    simp [traceTurn, hop, hrs1, hr.postInstrumented, hr.inlineInst]

/-- A load or store of `allocateNextInst`, and the block exit behind it. -/
theorem allocateNextInst_access {elfReader : ElfReader} (cache : CodeCache)
    (railBB : RailBasicBlock) (hw : AccessWord elfReader.getNextInstruction i)
    (hbase : i.base ≠ sp) :
    (allocateNextInst h elfReader cache railBB).1 =
      cache.emit (relocatedInPlace h elfReader.getNextInstruction ++
        (inlineSave ++ insertLi h.contextSwitchTaken ((scratch i.base).setWidth 32) ++
          [jalrInst])) := by
  have hrs1 := rs1_ne_sp hw hbase h.junkInst
  rw [hw.rs1_eq] at hrs1
  rcases hw.opcodeOf_eq with hop | hop <;>
    simp [allocateNextInst, hop, hrs1, hw.rs1_eq, scratchReg_setWidth]

end Emission

/-! ### Running a sequence by itself -/

/-- Wherever the words are placed, they run from `s` to their end, and there
registers and memory are those of `s'`. -/
def EndsIn (words : List Word) (s s' : Machine) : Prop :=
  ∀ a, Exits direct (image a words) (s.goto a) (s'.goto (wordAddr a words.length))

theorem EndsIn.unique {words : List Word} {s s₁ s₂ : Machine} (h₁ : EndsIn words s s₁)
    (h₂ : EndsIn words s s₂) : s₁.regs = s₂.regs ∧ s₁.mem = s₂.mem := by
  have heq := (h₁ 0).unique (h₂ 0)
  have hregs : (s₁.goto _).regs = (s₂.goto _).regs := congrArg Machine.regs heq
  have hmem : (s₁.goto _).mem = (s₂.goto _).mem := congrArg Machine.mem heq
  exact ⟨hregs, hmem⟩

theorem endsIn_of_reaches {words : List Word} {s s' : Machine} (hlen : words.length < 64)
    (hrun : ∀ (code : Code) (a : DWord), CodeAt code a words →
      Reaches direct code (s.goto a) (s'.goto (wordAddr a words.length))) :
    EndsIn words s s' :=
  fun a => ⟨hrun _ a (codeAt_image_self (by omega)), image_end (by omega)⟩

section Sequences

variable {h : Host} {i : Instr} {s : Machine} {w : Word}

theorem length_relocatedByScratch (hw : AccessWord w i) :
    (relocatedByScratch h w).length = 12 :=
  @length_relocatedAt i w h dataOffset hw

theorem length_relocatedInPlace (hw : AccessWord w i) : (relocatedInPlace h w).length = 13 := by
  rw [relocatedInPlace_eq hw]; simp

theorem endsIn_relocatedByScratch (hw : AccessWord w i) (hbase : i.base ≠ sp)
    (hsp : i.data ≠ sp) (ht : i.data ≠ scratch i.base)
    (hslot : Apart (slot s) 8 (relocate i.base (s.regs i.base) + i.disp) i.width) :
    EndsIn (relocatedByScratch h w) s (i.exec relocate (withSlot (scratch i.base) s)) := by
  refine endsIn_of_reaches (by rw [length_relocatedByScratch hw]; decide) fun code a hcode => ?_
  rw [length_relocatedByScratch hw]
  exact reaches_relocatedByScratch hw hbase hsp ht (fun _ => hslot) hcode

theorem endsIn_relocatedInPlace (hw : AccessWord w i) (hbase : i.base ≠ sp)
    (hsp : i.data ≠ sp) (ht : i.data ≠ scratch i.base)
    (hslot : i.IsStore → Apart (slot s) 8 (inPlaceAddr i s) i.width) :
    EndsIn (relocatedInPlace h w) s (inPlace i s) := by
  refine endsIn_of_reaches (by rw [length_relocatedInPlace hw]; decide) fun code a hcode => ?_
  rw [length_relocatedInPlace hw]
  exact reaches_relocatedInPlace hw hbase hsp ht hslot hcode

end Sequences

/-- The base is not `x0`, or what is loaded through it is discarded; and a
store does not store its own base. -/
def Agreeable (i : Instr) : Prop :=
  (i.base = 0 → ¬ i.IsStore ∧ i.data = 0) ∧ (i.IsStore → i.base ≠ i.data)

instance (i : Instr) : Decidable (Agreeable i) := by unfold Agreeable; infer_instance

section Agree

variable {i : Instr}

/-- A load into `x0` has no effect, whatever the address. -/
theorem accessAt_discard (hacc : i.IsAccess) (hst : ¬ i.IsStore) (hd : i.data = 0) (a b : DWord)
    (s : Machine) : i.accessAt a s = i.accessAt b s := by
  cases i with
  | load o rd rs1 off =>
      have hrd : rd = 0 := hd
      simp [Instr.accessAt, hrd]
  | store => exact (hst trivial).elim
  | _ => exact hacc.elim

theorem inPlace_eq_exec (hacc : i.IsAccess) (hbase : i.base ≠ sp) (hagree : Agreeable i)
    (s : Machine) : inPlace i s = i.exec relocate (withSlot (scratch i.base) s) := by
  by_cases h0 : i.base = 0
  · obtain ⟨hst, hd⟩ := hagree.1 h0
    rw [inPlace_zero h0, Instr.exec_access hacc]
    exact accessAt_discard hacc hst hd _ _ _
  · exact inPlace_eq hacc hbase h0 hagree.2

theorem inPlaceAddr_eq (hbase : i.base ≠ sp) (h0 : i.base ≠ 0) (s : Machine) :
    inPlaceAddr i s = relocate i.base (s.regs i.base) + i.disp := by
  rw [inPlaceAddr]
  cases hlt : (s.regs i.base).slt dataBase with
  | true =>
      rw [if_pos rfl, relocate_of_slt hbase hlt, shifted, Machine.regs_setReg,
        Regs.set_same _ _ h0]
  | false => rw [if_neg Bool.false_ne_true, relocate_of_not_slt hlt]

end Agree

/-! ### A state that tells the rewritings apart

All registers but `sp` are zero, the only byte that is not zero is the one the
relocated access starts with, and the stack is far away from both places. -/

def probe (i : Instr) : Machine where
  pc := 0
  regs := Regs.set ⟨fun _ => 0, Regs.const_zero⟩ sp (dataBase + i.disp + 0x100000000)
  mem x := if x = dataBase + i.disp then 1 else 0

section Probe

variable {i : Instr}

theorem regs_probe {x : Reg} (hx : x ≠ sp) : (probe i).regs x = 0 := Regs.set_of_ne _ _ hx

theorem slot_probe : slot (probe i) = dataBase + i.disp + 0x100000000 - 16 :=
  congrArg (· - 16) (Regs.set_same _ _ (by decide))

theorem mem_probe_of_ne {x : DWord} (hx : x ≠ dataBase + i.disp) : (probe i).mem x = 0 :=
  if_neg hx

theorem mem_probe_self : (probe i).mem (dataBase + i.disp) = 1 := if_pos rfl

theorem apart_probe : Apart (slot (probe i)) 8 (dataBase + i.disp) i.width := by
  have := i.width_le
  rw [slot_probe]
  exact apart_of_le (by bv_omega) (by bv_omega)

theorem apart_probe_disp : Apart (slot (probe i)) 8 i.disp i.width := by
  have := i.width_le
  have hD : dataBase.toNat = 0x9000000 := by decide
  rw [slot_probe]
  exact apart_of_le (by bv_omega) (by bv_omega)

theorem not_mem_disp : dataBase + i.disp ∉ bytes i.disp i.width := by
  have := i.width_le
  have hD : dataBase.toNat = 0x9000000 := by decide
  rw [mem_bytes]
  bv_omega

theorem relocate_probe (hbase : i.base ≠ sp) :
    relocate i.base ((probe i).regs i.base) + i.disp = dataBase + i.disp := by
  rw [regs_probe hbase, relocate_of_slt hbase (by decide)]
  exact congrArg (· + i.disp) (BitVec.zero_add _)

theorem withSlot_probe {t : Reg} (ht : t ≠ sp) : withSlot t (probe i) = probe i := by
  rw [withSlot, regs_probe ht]
  refine (congrArg (probe i).setMem (funext fun x => ?_)).trans (Machine.setMem_self _)
  by_cases hx : x ∈ bytes (slot (probe i)) 8
  · have hne : x ≠ dataBase + i.disp := by
      rintro rfl
      rw [slot_probe, mem_bytes] at hx
      bv_omega
    rw [Mem.write_of_mem hx, mem_probe_of_ne hne]
    exact BitVec.extractLsb'_zero
  · exact Mem.write_of_not_mem hx

theorem read_probe {n : ℕ} (hn : n ≤ 7) : (probe i).mem.read (dataBase + i.disp) (n + 1) = 1 := by
  have hrest : (probe i).mem.read (dataBase + i.disp + 1) n = 0 := by
    refine Mem.read_eq_zero (by omega) fun x hx => mem_probe_of_ne ?_
    rintro rfl
    rw [mem_bytes] at hx
    bv_omega
  rw [Mem.read, hrest, mem_probe_self]
  decide

theorem read_probe_disp : (probe i).mem.read i.disp i.width = 0 := by
  refine Mem.read_eq_zero i.width_lt fun x hx => mem_probe_of_ne ?_
  rintro rfl
  exact not_mem_disp hx

/-- With a base of `x0` the relocated access and the one that stays are told
apart by the register that is loaded, or by the byte that is stored. -/
theorem probe_of_base_zero (hacc : i.IsAccess) (hsp : i.data ≠ sp)
    (h0 : i.base = 0) (hd : ¬ (¬ i.IsStore ∧ i.data = 0)) :
    ¬ ((i.exec relocate (probe i)).regs = (inPlace i (probe i)).regs ∧
      (i.exec relocate (probe i)).mem = (inPlace i (probe i)).mem) := by
  have hbase : i.base ≠ sp := by rw [h0]; decide
  rintro ⟨hregs, hmem⟩
  rw [inPlace_zero h0, withSlot_probe (scratch_ne_sp _), Instr.exec_access hacc,
    relocate_probe hbase] at hregs hmem
  cases i with
  | load o rd rs1 off =>
      have hrd : rd ≠ 0 := fun h => hd ⟨id, h⟩
      have hone : (probe (.load o rd rs1 off)).mem.read (dataBase + off.signExtend 64) o.size = 1 := by
        cases o <;> exact read_probe (by decide)
      have hzero : (probe (.load o rd rs1 off)).mem.read (off.signExtend 64) o.size = 0 :=
        read_probe_disp
      have hreg := congrFun (congrArg Regs.val hregs) rd
      simp only [Instr.accessAt, Instr.disp, Machine.regs_goto, Machine.regs_setReg,
        Regs.set_same _ _ hrd, hone, hzero] at hreg
      cases o <;> exact absurd hreg (by decide)
  | store o rs1 rs2 off =>
      have hpos : 0 < o.size := by cases o <;> decide
      have hbyte := congrFun hmem (dataBase + off.signExtend 64)
      have hin : dataBase + off.signExtend 64 ∈ bytes (dataBase + off.signExtend 64) o.size := by
        simpa using hpos
      have hout : dataBase + off.signExtend 64 ∉ bytes (off.signExtend 64) o.size :=
        @not_mem_disp (.store o rs1 rs2 off)
      have hself := @mem_probe_self (.store o rs1 rs2 off)
      simp only [Instr.disp] at hself
      simp only [Instr.accessAt, Instr.disp, Machine.mem_goto, Machine.mem_setMem,
        Mem.write_of_mem hin, Mem.write_of_not_mem hout, hself] at hbyte
      have hrs2 : (probe (.store o rs1 rs2 off)).regs rs2 = 0 := regs_probe hsp
      rw [hrs2] at hbyte
      simp at hbyte
  | _ => exact hacc.elim

theorem probe_of_store_base (hst : i.IsStore) (hbase : i.base ≠ sp) (h0 : i.base ≠ 0)
    (hd : i.base = i.data) :
    (i.exec relocate (probe i)).regs ≠ (inPlace i (probe i)).regs := by
  intro hregs
  have hlt : ((probe i).regs i.base).slt dataBase = true := by rw [regs_probe hbase]; decide
  cases i with
  | store o rs1 rs2 off =>
      have hreg := congrFun (congrArg Regs.val hregs) rs1
      rw [inPlace, if_pos hlt, shiftBack, if_neg (not_not.mpr hd)] at hreg
      simp only [Instr.exec, Instr.accessAt, Machine.regs_goto, Machine.regs_setMem,
        regs_withSlot] at hreg
      have hmoved : (shifted (.store o rs1 rs2 off) (probe (.store o rs1 rs2 off))).regs rs1 =
          (probe (.store o rs1 rs2 off)).regs rs1 + dataBase := Regs.set_same _ _ h0
      have hzero : (probe (.store o rs1 rs2 off)).regs rs1 = 0 := regs_probe hbase
      rw [hmoved, hzero] at hreg
      exact absurd hreg (by decide)
  | _ => exact hst.elim

end Probe

/-- The three sequences end in the same registers and memory, from every state
in which the accessed bytes are not the spill slot. -/
def EndAlike (i : Instr) (inBB inTrace inNextInst : List Word) : Prop :=
  ∀ s, Apart (slot s) 8 (relocate i.base (s.regs i.base) + i.disp) i.width →
    ∃ s', EndsIn inBB s s' ∧ EndsIn inTrace s s' ∧ EndsIn inNextInst s s'

section Main

variable {h : Host} {i : Instr} {w : Word}

theorem endAlike_iff (hw : AccessWord w i) (hbase : i.base ≠ sp) (hsp : i.data ≠ sp)
    (ht : i.data ≠ scratch i.base) :
    EndAlike i (relocatedByScratch h w) (relocatedInPlace h w) (relocatedInPlace h w) ↔
      Agreeable i := by
  have hacc : i.IsAccess := hw.isAccess
  constructor
  · intro halike
    -- the probe is a state in which the two ways end differently
    by_contra hnot
    have hslot : Apart (slot (probe i)) 8
        (relocate i.base ((probe i).regs i.base) + i.disp) i.width := by
      rw [relocate_probe hbase]
      exact apart_probe
    obtain ⟨s', hbb, htrace, -⟩ := halike (probe i) hslot
    have hslotIn : Apart (slot (probe i)) 8 (inPlaceAddr i (probe i)) i.width := by
      by_cases h0 : i.base = 0
      · have hzero : inPlaceAddr i (probe i) = i.disp := by
          rw [inPlaceAddr, shifted, h0]
          simp [regs_probe]
        rw [hzero]
        exact apart_probe_disp
      · rwa [inPlaceAddr_eq hbase h0]
    have hbb' := @endsIn_relocatedByScratch h _ _ _ hw hbase hsp ht hslot
    have htrace' := @endsIn_relocatedInPlace h _ _ _ hw hbase hsp ht fun _ => hslotIn
    rw [withSlot_probe (scratch_ne_sp _)] at hbb'
    obtain ⟨hr₁, hm₁⟩ := hbb'.unique hbb
    obtain ⟨hr₂, hm₂⟩ := htrace'.unique htrace
    have hregs := hr₁.trans hr₂.symm
    have hmem := hm₁.trans hm₂.symm
    by_cases h0 : i.base = 0
    · refine probe_of_base_zero hacc hsp h0 (fun hd => hnot ⟨fun _ => hd, ?_⟩) ⟨hregs, hmem⟩
      exact fun hst => (hd.1 hst).elim
    · have hst : i.IsStore ∧ i.base = i.data := by
        by_contra hgood
        exact hnot ⟨fun h => (h0 h).elim, fun hst heq => hgood ⟨hst, heq⟩⟩
      exact probe_of_store_base hst.1 hbase h0 hst.2 hregs
  · intro hagree s hslot
    have hbb := @endsIn_relocatedByScratch h _ _ _ hw hbase hsp ht hslot
    have htrace : EndsIn (relocatedInPlace h w) s (inPlace i s) := by
      refine endsIn_relocatedInPlace hw hbase hsp ht fun hst => ?_
      have h0 : i.base ≠ 0 := fun h0 => (hagree.1 h0).1 hst
      rwa [inPlaceAddr_eq hbase h0]
    rw [inPlace_eq_exec hacc hbase hagree] at htrace
    exact ⟨_, hbb, htrace, htrace⟩

/-- For a load or store whose base is not `sp` and whose data register is
neither `sp` nor the scratch register, the sequences that `allocateBB`,
`allocateTraceBlock` and `allocateNextInst` emit end in the same registers and
the same memory, from every state in which the accessed bytes are not the
spill slot, exactly when the base is not `x0` (a load into `x0` apart) and a
store does not store its base. -/
theorem rewritings_agree_iff (h : Host) {r : Rail} (hr : r.Uninstrumented) (count : ℕ)
    (hw : AccessWord w i) (hbase : i.base ≠ sp) (hsp : i.data ≠ sp)
    (ht : i.data ≠ scratch i.base) (bb : BBState) (hbb : bb.nextInst = w) (trace : TraceState)
    (htrace : trace.nextInst = w) (elfReader : ElfReader)
    (helf : elfReader.getNextInstruction = w) (cache : CodeCache) (railBB : RailBasicBlock) :
    ∃ inBB inTrace inNextInst : List Word,
      translateInst h r bb = .next (bb.advance inBB) ∧
      traceTurn h r count trace = .next (trace.countInst.advance inTrace) ∧
      (allocateNextInst h elfReader cache railBB).1 = cache.emit (inNextInst ++
        (inlineSave ++ insertLi h.contextSwitchTaken ((scratch i.base).setWidth 32) ++
          [jalrInst])) ∧
      (EndAlike i inBB inTrace inNextInst ↔ Agreeable i) := by
  refine ⟨relocatedByScratch h w, relocatedInPlace h w, relocatedInPlace h w, ?_, ?_, ?_,
    endAlike_iff hw hbase hsp ht⟩
  · rw [← hbb] at hw ⊢
    exact translateInst_access hr hw hbase
  · rw [← htrace] at hw ⊢
    exact traceTurn_access hr count hw hbase
  · rw [← helf] at hw ⊢
    exact allocateNextInst_access cache railBB hw hbase

end Main

/-- `sd x5, 0(x5)` -/
theorem accessWord_sd_own_base : AccessWord 0x0052b023 (.store .sd 5 5 0) :=
  ⟨.inr (by decide), by decide +kernel⟩

/-- `ld x5, 0(x6)` -/
theorem accessWord_ld : AccessWord 0x00033283 (.load .ld 5 6 0) :=
  ⟨.inl (by decide), by decide +kernel⟩

/-- `sd x5, 0(x5)` is a store of the kind that is rewritten in two ways. -/
theorem sd_own_base_differs :
    (Instr.store .sd 5 5 0).base ≠ sp ∧ (Instr.store .sd 5 5 0).data ≠ sp ∧
      (Instr.store .sd 5 5 0).data ≠ scratch (Instr.store .sd 5 5 0).base ∧
      AccessWord 0x0052b023 (.store .sd 5 5 0) ∧
      ¬ EndAlike (.store .sd 5 5 0) (relocatedByScratch requestedHost 0x0052b023)
        (relocatedInPlace requestedHost 0x0052b023) (relocatedInPlace requestedHost 0x0052b023) := by
  refine ⟨by decide, by decide, by decide, accessWord_sd_own_base, fun halike => ?_⟩
  have := (endAlike_iff accessWord_sd_own_base (by decide) (by decide) (by decide)).mp halike
  exact absurd this (by decide)

def ldText : ElfReader := .ofWords 0x10000 [0x00033283, 0x00000013]

theorem ld_agrees :
    ∃ inBB inTrace inNextInst : List Word,
      translateInst requestedHost (.plain false) ⟨ldText, .initial, .empty, 0⟩ =
        .next (BBState.advance ⟨ldText, .initial, .empty, 0⟩ inBB) ∧
      traceTurn requestedHost (.plain false) 1 ⟨ldText, .initial, .empty⟩ =
        .next ((TraceState.countInst ⟨ldText, .initial, .empty⟩).advance inTrace) ∧
      (allocateNextInst requestedHost ldText .initial .empty).1 =
        CodeCache.initial.emit (inNextInst ++ (inlineSave ++
          insertLi requestedHost.contextSwitchTaken ((scratch 6).setWidth 32) ++ [jalrInst])) ∧
      EndAlike (.load .ld 5 6 0) inBB inTrace inNextInst := by
  have hnext : ldText.getNextInstruction = 0x00033283 := by decide +kernel
  obtain ⟨inBB, inTrace, inNextInst, hbb, htrace, hni, hiff⟩ :=
    rewritings_agree_iff requestedHost (Rail.uninstrumented_plain false) 1 accessWord_ld
      (by decide) (by decide) (by decide) ⟨ldText, .initial, .empty, 0⟩ hnext
      ⟨ldText, .initial, .empty⟩ hnext ldText hnext .initial .empty
  exact ⟨inBB, inTrace, inNextInst, hbb, htrace, hni, hiff.mpr (by decide)⟩

end RailTranslator
