import RailTranslator.RewritingsAgree
import RailTranslator.Rv64.Agree

/-!
The straight part of a translated block.

Both translators turn the instructions in front of a jump into words one after
the other, and treat them alike but for the rewriting of a load or store,
which is a parameter here. The reference is the guest's own code, run with
base registers relocated.

The cache code keeps a register in the slot below the stack while it
relocates an access, so the guest and its translation differ in the bytes that
have been used as a slot since the guest last wrote them. That set is carried
along (`spoil`), and `Undisturbed` says when an instruction of the guest
survives its translation: what it loads has not been spoiled, its operands are
not the registers the rewriting needs for itself, and a constant computed at
translation time is one `insertLi` can load.
-/

namespace RailTranslator

open Rv64

/-! ### Instructions that are disturbed -/

/-- The translation of the instruction uses the slot below the stack. -/
def Spills (i : Instr) : Prop := i.IsAccess ∧ i.base ≠ sp

instance (i : Instr) : Decidable (Spills i) := by unfold Spills; infer_instance

/-- The bytes that differ when the access itself takes place. -/
def spillArea (D : Set DWord) (s : Machine) (i : Instr) : Set DWord :=
  {x | x ∈ D ∨ Spills i ∧ x ∈ bytes (slot s) 8}

/-- The bytes that differ behind an instruction. -/
def spoil (D : Set DWord) (s : Machine) (i : Instr) : Set DWord :=
  spillArea D s i \ i.written relocate s

/-- The instruction, executed in state `s` with the bytes `D` spoiled, does
the same in its translation. `ok` is what the rewriting of an access demands
beyond the registers it uses. -/
structure Undisturbed (ok : Instr → Prop) (D : Set DWord) (s : Machine) (i : Instr) : Prop where
  straight : i.Straight
  constant : ∀ rd imm, i = .auipc rd imm →
    rd = 0 ∨ liValue (s.pc + upper imm) = s.pc + upper imm
  operands : Spills i → i.data ≠ sp ∧ i.data ≠ scratch i.base ∧ ok i
  stores : Spills i → i.IsStore → Disjoint (bytes (slot s) 8) (i.footprint relocate s)
  loads : i.LoadsOutside relocate (spillArea D s i) s

theorem spillArea_of_spills {D : Set DWord} {s : Machine} {i : Instr} (h : Spills i) :
    spillArea D s i = D ∪ bytes (slot s) 8 :=
  Set.ext fun _ => or_congr_right (and_iff_right h)

theorem spillArea_of_not_spills {D : Set DWord} {s : Machine} {i : Instr} (h : ¬ Spills i) :
    spillArea D s i = D :=
  Set.ext fun _ => ⟨fun hx => hx.resolve_right fun hs => h hs.1, .inl⟩

/-! ### The words of an instruction -/

/-- What is emitted for an instruction inside a block, where `rewrite` treats
the loads and stores whose base is not `sp`. -/
def bodyWords (h : Host) (rewrite : Word → List Word) (pc : BitVec 32) (w : Word) : List Word :=
  if opcodeOf w = Op.auipc then auipcWords h pc w
  else if (opcodeOf w = Op.store ∨ opcodeOf w = Op.load) ∧
      (decodeInstruction h.junkInst w).rs1 ≠ regs.sp then rewrite w
  else [w]

/-- The rewriting of an access is the access with relocated base, run with
the scratch register in the slot. -/
def Rewrites (ok : Instr → Prop) (rewrite : Word → List Word) : Prop :=
  ∀ {w : Word} {i : Instr} {c : Machine} {code : Code} {a : DWord},
    AccessWord w i → i.base ≠ sp → i.data ≠ sp → i.data ≠ scratch i.base → ok i →
    (i.IsStore → Disjoint (bytes (slot c) 8) (i.footprint relocate c)) →
    CodeAt code a (rewrite w) →
    Reaches direct code (c.goto a)
      ((i.exec relocate (withSlot (scratch i.base) c)).goto (wordAddr a (rewrite w).length))

theorem rewrites_byScratch (h : Host) : Rewrites (fun _ => True) (relocatedByScratch h) := by
  intro w i c code a hw hbase hsp ht _ hstore hcode
  rw [length_relocatedByScratch hw]
  exact reaches_relocatedByScratch hw hbase hsp ht hstore hcode

theorem rewrites_inPlace (h : Host) : Rewrites Agreeable (relocatedInPlace h) := by
  intro w i c code a hw hbase hsp ht hok hstore hcode
  rw [length_relocatedInPlace hw, ← inPlace_eq_exec hw.isAccess hbase hok]
  refine reaches_relocatedInPlace hw hbase hsp ht (fun hst => ?_) hcode
  rw [inPlaceAddr_eq hbase fun h0 => (hok.1 h0).1 hst]
  exact hstore hst

section Instruction

variable {h : Host} {ok : Instr → Prop} {rewrite : Word → List Word} {w : Word} {i : Instr}

/-- The instruction computes in registers, without the program counter. -/
def IsPlain : Instr → Prop
  | .lui .. | .opImm .. | .op .. => True
  | _ => False

inductive BodyWord (w : Word) (i : Instr) : Prop
  | access (hw : AccessWord w i)
  | auipc (hop : w.opcode = Opcode.auipc) (hi : i = .auipc w.rd w.immU)
  | plain (hop : w.opcode = Opcode.lui ∨ w.opcode = Opcode.opImm ∨ w.opcode = Opcode.opImm32 ∨
      w.opcode = Opcode.op ∨ w.opcode = Opcode.op32) (hi : IsPlain i)

theorem bodyWord_of_straight (hdec : Instr.decode w = some i) (hi : i.Straight) :
    BodyWord w i := by
  cases decoded hdec with
  | lui hop => exact .plain (.inl hop) trivial
  | auipc hop => exact .auipc hop rfl
  | jal hop => exact hi.elim
  | jalr hop hf3 => exact hi.elim
  | branch hop ho => exact hi.elim
  | load hop ho => exact .access ⟨.inl hop, hdec⟩
  | store hop ho => exact .access ⟨.inr hop, hdec⟩
  | opImm hop hp => exact .plain (.inr (.inl hop)) trivial
  | opImm32 hop hp => exact .plain (.inr (.inr (.inl hop))) trivial
  | op hop ho => exact .plain (.inr (.inr (.inr (.inl hop)))) trivial
  | op32 hop ho => exact .plain (.inr (.inr (.inr (.inr hop)))) trivial

theorem bodyWords_of_auipc (hop : w.opcode = Opcode.auipc) (pc : BitVec 32) :
    bodyWords h rewrite pc w = auipcWords h pc w := by
  have : opcodeOf w = Op.auipc := opcodeOf_eq_iff.mpr hop
  rw [bodyWords, if_pos this]

theorem bodyWords_of_plain (hop : w.opcode = Opcode.lui ∨ w.opcode = Opcode.opImm ∨
    w.opcode = Opcode.opImm32 ∨ w.opcode = Opcode.op ∨ w.opcode = Opcode.op32)
    (pc : BitVec 32) : bodyWords h rewrite pc w = [w] := by
  have hcode : opcodeOf w = w.opcode.setWidth 32 := opcodeOf_eq w
  rcases hop with hop | hop | hop | hop | hop <;> rw [hop] at hcode <;>
    simp [bodyWords, hcode]

theorem bodyWords_of_access (hw : AccessWord w i) (pc : BitVec 32) :
    bodyWords h rewrite pc w = if i.base = sp then [w] else rewrite w := by
  have hrs1 : (decodeInstruction h.junkInst w).rs1 = regs.sp ↔ i.base = sp := by
    rw [hw.rs1_eq]
    exact @setWidth_inj 5 (by decide) i.base sp
  have hnot : opcodeOf w ≠ Op.auipc := by
    rcases hw.opcodeOf_eq with hop | hop <;> rw [hop] <;> decide
  rw [bodyWords, if_neg hnot]
  by_cases hbase : i.base = sp
  · rw [if_pos hbase, if_neg fun hc => hc.2 (hrs1.mpr hbase)]
  · rw [if_neg hbase, if_pos ⟨hw.opcodeOf_eq.symm, fun hc => hbase (hrs1.mp hc)⟩]

/-! ### What an instruction does, and what its words do -/

theorem exec_relocate_of_sp (hbase : i.base = sp) (s : Machine) :
    i.exec relocate s = i.exec direct s := by
  have hsp (v : DWord) : relocate sp v = v := if_neg fun hc => hc.1 rfl
  cases i with
  | load o rd rs1 off =>
      have : rs1 = sp := hbase
      simp only [Instr.exec, effAddr, this, hsp, direct_apply]
  | store o rs1 rs2 off =>
      have : rs1 = sp := hbase
      simp only [Instr.exec, effAddr, this, hsp, direct_apply]
  | _ => rfl

theorem exec_of_isPlain (hi : IsPlain i) (tr tr' : Reg → DWord → DWord) (s : Machine) :
    i.exec tr s = i.exec tr' s := by
  cases i <;> first | rfl | exact hi.elim

/-- The constant of `auipc`, computed with the low half of the program counter. -/
theorem liValue_auipcValue (pc : DWord) (w : Word) :
    liValue (auipcValue h (pc.setWidth 32) w) = liValue (pc + upper w.immU) := by
  have hlow : low (auipcValue h (pc.setWidth 32) w) = low (pc + upper w.immU) := by
    have himm : (w.immU.setWidth 32) <<< 12 = (w.immU ++ 0#12) := by
      refine BitVec.eq_of_getLsbD_eq fun j hj => ?_
      simp only [BitVec.getLsbD_shiftLeft, BitVec.getLsbD_setWidth, BitVec.getLsbD_append,
        BitVec.getLsbD_zero, hj, decide_true, Bool.true_and]
      grind
    have hadd : low (pc + upper w.immU) = pc.setWidth 32 + (w.immU ++ 0#12) := by
      rw [low, upper, BitVec.setWidth_add _ _ (by decide)]
      congr 1
      exact low_ofLow _
    rw [hadd, auipcValue, decodeUtype_imm, himm]
    exact low_ofLow _
  rw [liValue, liValue, hlow]

theorem exec_goto (hi : i.Straight) (hauipc : ∀ rd imm, i ≠ .auipc rd imm)
    (tr : Reg → DWord → DWord) (s : Machine) (a : DWord) :
    i.exec tr (s.goto a) = (i.exec tr s).goto (a + 4) := by
  cases i with
  | auipc rd imm => exact absurd rfl (hauipc rd imm)
  | _ => first | rfl | exact hi.elim

theorem reaches_unchanged {c : Machine} {code : Code} {a : DWord}
    (hdec : Instr.decode w = some i) (hi : i.Straight) (hauipc : ∀ rd imm, i ≠ .auipc rd imm)
    (hsame : i.exec relocate c = i.exec direct c) (hcode : CodeAt code a [w]) :
    Reaches direct code (c.goto a) ((i.exec relocate c).goto (wordAddr a 1)) := by
  refine reaches_at c hcode.1 hdec ?_
  rw [exec_goto hi hauipc, hsame]
  rfl

/-- The words of an undisturbed instruction do what the instruction does. -/
theorem reaches_bodyWords (hrewrite : Rewrites ok rewrite) {D : Set DWord} {s c : Machine}
    {code : Code} {a : DWord} (hdec : Instr.decode w = some i) (hi : Undisturbed ok D s i)
    (hagree : Agree D s c) (hcode : CodeAt code a (bodyWords h rewrite (s.pc.setWidth 32) w)) :
    ∃ c', Reaches direct code (c.goto a)
        (c'.goto (wordAddr a (bodyWords h rewrite (s.pc.setWidth 32) w).length)) ∧
      Agree (spoil D s i) (i.exec relocate s) c' := by
  have hloads := hi.loads
  cases bodyWord_of_straight hdec hi.straight with
  | access hw =>
      have hnot : ∀ rd imm, i ≠ .auipc rd imm := by
        rintro rd imm rfl
        exact hw.isAccess.elim
      rw [bodyWords_of_access hw] at hcode ⊢
      by_cases hbase : i.base = sp
      · rw [if_pos hbase] at hcode ⊢
        rw [spoil, spillArea_of_not_spills fun hs => hs.2 hbase] at *
        exact ⟨_, reaches_unchanged hdec hi.straight hnot (exec_relocate_of_sp hbase c) hcode,
          Instr.agree_exec hagree hi.straight hnot hloads⟩
      · have hspills : Spills i := ⟨hw.isAccess, hbase⟩
        obtain ⟨hsp, ht, hok⟩ := hi.operands hspills
        rw [if_neg hbase] at hcode ⊢
        have hslot : slot c = slot s := by rw [slot, slot, hagree.regs]
        -- the copy and the guest access the same bytes
        have hfoot : i.footprint relocate c = i.footprint relocate s := by
          rw [Instr.footprint, Instr.footprint, hagree.regs]
        have hrun := @hrewrite w i c code a hw hbase hsp ht hok
          (fun hst => by rw [hslot, hfoot]; exact hi.stores hspills hst) hcode
        refine ⟨_, hrun, ?_⟩
        have hspilled : Agree (spillArea D s i) s (withSlot (scratch i.base) c) := by
          rw [spillArea_of_spills hspills, ← hslot]
          exact hagree.write_right _ _ _
        exact Instr.agree_exec hspilled hi.straight hnot hloads
  | auipc hop hi' =>
      have hacc : ¬ i.IsAccess := by rw [hi']; exact id
      have hst : ¬ i.IsStore := by rw [hi']; exact id
      rw [bodyWords_of_auipc hop] at hcode ⊢
      rw [spoil, spillArea_of_not_spills fun hs => hacc hs.1, Instr.written_of_not_isStore hst,
        Set.sdiff_empty]
      have hcode' : CodeAt code a (insertLi (auipcValue h (s.pc.setWidth 32) w)
          (w.rd.setWidth 32)) := by
        rw [← decodeUtype_rd h.junkInst]
        exact hcode
      refine ⟨_, reaches_insertLi c hcode', ?_⟩
      rw [liValue_auipcValue, hi']
      -- either nothing is loaded, or the constant is the one the guest computes
      rcases hi.constant _ _ hi' with h0 | hval
      · have hnop (m : Machine) (v : DWord) : m.setReg w.rd v = m := by
          rw [h0]
          exact m.setReg_zero v
        rw [Instr.exec, hnop, hnop]
        exact hagree.goto_left _
      · rw [hval]
        exact (hagree.setReg _ _).goto_left _
  | plain hop hi' =>
      have hnot : ∀ rd imm, i ≠ .auipc rd imm := by
        rintro rd imm rfl
        exact hi'.elim
      have hacc : ¬ i.IsAccess := by cases i <;> first | exact id | exact hi'.elim
      rw [bodyWords_of_plain hop] at hcode ⊢
      rw [spoil, spillArea_of_not_spills fun hs => hacc hs.1] at *
      exact ⟨_, reaches_unchanged hdec hi.straight hnot (exec_of_isPlain hi' _ _ c) hcode,
        Instr.agree_exec hagree hi.straight hnot hloads⟩

end Instruction

/-! ### Runs -/

/-- The next `n` instructions of the guest are undisturbed, one after the other. -/
def UndisturbedRun (ok : Instr → Prop) (guest : Code) : ℕ → Set DWord → Machine → Prop
  | 0, _, _ => True
  | n + 1, D, s => ∀ w i, guest s.pc = some w → Instr.decode w = some i →
      Undisturbed ok D s i ∧ UndisturbedRun ok guest n (spoil D s i) (i.exec relocate s)

def spoiledBy (guest : Code) : ℕ → Set DWord → Machine → Set DWord
  | 0, D, _ => D
  | n + 1, D, s =>
      match (guest s.pc).bind Instr.decode with
      | none => D
      | some i => spoiledBy guest n (spoil D s i) (i.exec relocate s)

def body (h : Host) (rewrite : Word → List Word) (elf : ElfReader) : ℕ → BitVec 32 → List Word
  | 0, _ => []
  | n + 1, pc => bodyWords h rewrite pc (elf.fetch pc) ++ body h rewrite elf n (pc + 4)

theorem fetch_of_guestCode {elf : ElfReader} {a : DWord} {w : Word}
    (hw : elf.guestCode a = some w) : elf.fetch (a.setWidth 32) = w := by
  rw [ElfReader.guestCode] at hw
  split_ifs at hw
  exact Option.some.inj hw

section Runs

variable {h : Host} {ok : Instr → Prop} {rewrite : Word → List Word} {elf : ElfReader}

/-- The words of `n` undisturbed instructions do what the instructions do. -/
theorem reaches_body (hrewrite : Rewrites ok rewrite) {n : ℕ} {D : Set DWord} {s s' c : Machine}
    {code : Code} {a : DWord} (hrun : run relocate elf.guestCode n s = some s')
    (hund : UndisturbedRun ok elf.guestCode n D s) (hagree : Agree D s c)
    (hcode : CodeAt code a (body h rewrite elf n (s.pc.setWidth 32))) :
    ∃ c', Reaches direct code (c.goto a)
        (c'.goto (wordAddr a (body h rewrite elf n (s.pc.setWidth 32)).length)) ∧
      Agree (spoiledBy elf.guestCode n D s) s' c' := by
  induction n generalizing D s c a with
  | zero =>
      obtain rfl : s = s' := Option.some.inj hrun
      exact ⟨c, by simpa [body] using Reaches.refl (c.goto a), hagree⟩
  | succ n ih =>
      obtain ⟨w, i, hw, hdec, hrest⟩ := exists_of_run_succ hrun
      obtain ⟨hi, hund'⟩ := hund w i hw hdec
      have hfetch := fetch_of_guestCode hw
      have hpc : (i.exec relocate s).pc.setWidth 32 = s.pc.setWidth 32 + 4 := by
        rw [Instr.pc_exec relocate hi.straight, BitVec.setWidth_add _ _ (by decide)]
        rfl
      rw [body, hfetch] at hcode ⊢
      obtain ⟨hfirst, hcode'⟩ := codeAt_append.mp hcode
      obtain ⟨c₁, hreach, hagree'⟩ := reaches_bodyWords hrewrite hdec hi hagree hfirst
      rw [← hpc] at hcode' ⊢
      obtain ⟨c', hreach', hagree''⟩ := ih hrest hund' hagree' hcode'
      refine ⟨c', ?_, ?_⟩
      · rw [List.length_append, wordAddr_add]
        exact hreach.trans hreach'
      · simpa only [spoiledBy, hw, Option.bind_some, hdec] using hagree''

/-- `n` words from `pc` on are instructions that are not jumps. -/
def BodyAt (elf : ElfReader) : ℕ → BitVec 32 → Prop
  | 0, _ => True
  | n + 1, pc => (∃ i, Instr.decode (elf.fetch pc) = some i ∧ i.Straight) ∧ BodyAt elf n (pc + 4)

theorem bodyAt_of_run {n : ℕ} {D : Set DWord} {s s' : Machine}
    (hrun : run relocate elf.guestCode n s = some s')
    (hund : UndisturbedRun ok elf.guestCode n D s) :
    BodyAt elf n (s.pc.setWidth 32) ∧
      s'.pc.setWidth 32 = s.pc.setWidth 32 + BitVec.ofNat 32 (4 * n) := by
  induction n generalizing D s with
  | zero =>
      obtain rfl : s = s' := Option.some.inj hrun
      exact ⟨trivial, (BitVec.add_zero _).symm⟩
  | succ n ih =>
      obtain ⟨w, i, hw, hdec, hrest⟩ := exists_of_run_succ hrun
      obtain ⟨hi, hund'⟩ := hund w i hw hdec
      have hpc : (i.exec relocate s).pc.setWidth 32 = s.pc.setWidth 32 + 4 := by
        rw [Instr.pc_exec relocate hi.straight, BitVec.setWidth_add _ _ (by decide)]
        rfl
      obtain ⟨hbody, hend⟩ := ih hrest hund'
      rw [hpc] at hbody hend
      refine ⟨⟨⟨i, ?_, hi.straight⟩, hbody⟩, ?_⟩
      · rw [fetch_of_guestCode hw, hdec]
      · rw [hend]
        bv_omega

theorem BodyAt.get {n k : ℕ} {pc : BitVec 32} (hbody : BodyAt elf n pc) (hk : k < n) :
    ∃ i, Instr.decode (elf.fetch (pc + BitVec.ofNat 32 (4 * k))) = some i ∧ i.Straight := by
  induction n generalizing k pc with
  | zero => omega
  | succ n ih =>
      cases k with
      | zero => simpa using hbody.1
      | succ k =>
          have hpc : pc + BitVec.ofNat 32 (4 * (k + 1)) = pc + 4 + BitVec.ofNat 32 (4 * k) := by
            bv_omega
          rw [hpc]
          exact ih hbody.2 (by omega)

/-- The words of a block: the program counter does not come round before a
word that is not one of them. -/
theorem BodyAt.lt_loopFuel {n : ℕ} {pc : BitVec 32} (hbody : BodyAt elf n pc)
    (hend : ∀ i, Instr.decode (elf.fetch (pc + BitVec.ofNat 32 (4 * n))) = some i →
      ¬ i.Straight) : n < loopFuel := by
  by_contra hge
  have hfuel : loopFuel = 2 ^ 30 := rfl
  obtain ⟨i, hdec, hi⟩ := hbody.get (show n - 2 ^ 30 < n by omega)
  have hsame : BitVec.ofNat 32 (4 * (n - 2 ^ 30)) = BitVec.ofNat 32 (4 * n) := by
    refine BitVec.eq_of_toNat_eq ?_
    rw [BitVec.toNat_ofNat, BitVec.toNat_ofNat]
    omega
  rw [hsame] at hdec
  exact hend i hdec hi

end Runs

end RailTranslator
