import RailTranslator.RewritingsAgree
import RailTranslator.RoundTrip
import RailTranslator.Rv64.Atomics

/-!
What the words emitted for an atomic do.

`allocateBB` moves the base register of an atomic by the data offset and moves
it back, and it replaces a load-reserved and a store-conditional by words that
it means to be a load and a store. They carry the opcode of register
operations: the one compares its base with zero, the other does nothing at
all. The remaining atomics are emitted as they are, and moving the base goes
wrong where the base is `x0`, is overwritten by the atomic, or is its second
operand too.
-/

namespace RailTranslator

open Rv64

/-! ### The words -/

structure AmoWord (w : Word) (a : Amo) : Prop where
  opcode : w.opcode = Opcode.amo
  decode : Amo.decode w = some a

def amoBody (w : Word) (a : Amo) : Word :=
  match a.op with
  | .lr => rType 0 0 a.rs1 w.funct3 a.rd Opcode.op
  | .sc => rType 0 a.rs2 a.rs1 w.funct3 0 Opcode.op
  | _ => w

/-- Behind a store-conditional its result is cleared. -/
def amoTail (a : Amo) : List Word :=
  if a.op = .sc then [rType 0 0 0 0 a.rd Opcode.op] else []

theorem iType_zero {rs1 rd : Reg} {f3 : BitVec 3} {op : BitVec 7} :
    iType 0 rs1 f3 rd op = rType 0 0 rs1 f3 rd op := by
  refine BitVec.eq_of_getLsbD_eq fun k hk => ?_
  simp only [iType, rType, BitVec.getLsbD_append]
  grind

theorem sType_zero {rs1 rs2 : Reg} {f3 : BitVec 3} {op : BitVec 7} :
    sType 0 rs2 rs1 f3 op = rType 0 rs2 rs1 f3 0 op := by
  refine BitVec.eq_of_getLsbD_eq fun k hk => ?_
  simp only [sType, rType, BitVec.getLsbD_append, BitVec.getLsbD_extractLsb']
  grind

theorem encodeInstruction_of_rtype (junk : RvInst) {w : Word}
    (h : w.opcode = Opcode.op ∨ w.opcode = Opcode.amo) :
    encodeInstruction (decodeInstruction junk w) = w := by
  apply encodeInstruction_decodeInstruction (f := .r) junk
  rcases h with h | h
  · rw [show opcodeOf w = Op.op from opcodeOf_eq_iff.mpr h]
    rfl
  · rw [show opcodeOf w = Op.amo from opcodeOf_eq_iff.mpr h]
    rfl

theorem kind_iff : ∀ k : BitVec 5, ∀ o ∈ AmoOp.ofFunct5 k,
    (k.setWidth 32 = RvFunct.lrFunct7 ↔ o = .lr) ∧
      (k.setWidth 32 = RvFunct.scFunct7 ↔ o = .sc) := by
  decide +kernel

theorem width_funct3 : ∀ k : BitVec 3, ∀ o ∈ AmoWidth.ofFunct3 k,
    (if k.setWidth 32 = (0x2 : BitVec 32) then RvFunct.lw else RvFunct.ld) = k.setWidth 32 := by
  decide +kernel

namespace AmoWord

variable {w : Word} {a : Amo} (hw : AmoWord w a) (junk : RvInst)

include hw

theorem decoded : decodeInstruction junk w = decodeRtype junk w :=
  decodeInstruction_rtype (.inr (.inr hw.opcode))

theorem rd_eq : (decodeInstruction junk w).rd = a.rd.setWidth 32 := by
  rw [hw.decoded, decodeRtype_rd, (amo_decode_fields hw.decode).2.2.2.1]

theorem rs1_eq : (decodeInstruction junk w).rs1 = a.rs1.setWidth 32 := by
  rw [hw.decoded, decodeRtype_rs1, (amo_decode_fields hw.decode).2.2.2.2.1]

theorem rs2_eq : (decodeInstruction junk w).rs2 = a.rs2.setWidth 32 := by
  rw [hw.decoded, decodeRtype_rs2, (amo_decode_fields hw.decode).2.2.2.2.2.1]

theorem kind_eq :
    (decodeInstruction junk w).funct7.sshiftRight 2 = (Word.funct5 w).setWidth 32 := by
  rw [hw.decoded, decodeRtype_funct7]
  refine BitVec.eq_of_getLsbD_eq fun k hk => ?_
  simp only [BitVec.getLsbD_sshiftRight, Word.funct7, Word.funct5, BitVec.getLsbD_setWidth,
    BitVec.getLsbD_extractLsb', hk]
  grind

theorem isLr_iff :
    (decodeInstruction junk w).funct7.sshiftRight 2 = RvFunct.lrFunct7 ↔ a.op = .lr := by
  rw [hw.kind_eq]
  exact (kind_iff _ _ (amo_decode_fields hw.decode).1).1

theorem isSc_iff :
    (decodeInstruction junk w).funct7.sshiftRight 2 = RvFunct.scFunct7 ↔ a.op = .sc := by
  rw [hw.kind_eq]
  exact (kind_iff _ _ (amo_decode_fields hw.decode).1).2

theorem body_eq :
    (if (decodeInstruction junk w).funct7.sshiftRight 2 = RvFunct.lrFunct7 then
      encodeItypeFields Op.op (decodeInstruction junk w).rd
        (if (decodeInstruction junk w).funct3 = 0x2 then RvFunct.lw else RvFunct.ld)
        (decodeInstruction junk w).rs1 0
    else if (decodeInstruction junk w).funct7.sshiftRight 2 = RvFunct.scFunct7 then
      encodeStypeFields Op.op
        (if (decodeInstruction junk w).funct3 = 0x2 then RvFunct.sw else RvFunct.sd)
        (decodeInstruction junk w).rs1 (decodeInstruction junk w).rs2 0
    else w) = amoBody w a := by
  have hwidth := width_funct3 _ _ (amo_decode_fields hw.decode).2.1
  have hfunct3 : (decodeInstruction junk w).funct3 = w.funct3.setWidth 32 := by
    rw [hw.decoded, decodeRtype_funct3]
  simp only [hw.isLr_iff, hw.isSc_iff, hw.rd_eq, hw.rs1_eq, hw.rs2_eq, hfunct3, hwidth, amoBody]
  cases hop : a.op with
  | lr =>
      rw [if_pos rfl]
      exact (encodeItypeFields_eq Opcode.op a.rd a.rs1 w.funct3 0).trans iType_zero
  | sc =>
      rw [if_neg (by decide), if_pos rfl]
      exact (encodeStypeFields_eq Opcode.op a.rs1 a.rs2 w.funct3 0).trans sType_zero
  | _ => rfl

theorem opcode_body : (amoBody w a).opcode = Opcode.op ∨ (amoBody w a).opcode = Opcode.amo := by
  rw [amoBody]
  cases a.op with
  | lr => exact .inl (opcode_rType ..)
  | sc => exact .inl (opcode_rType ..)
  | _ => exact .inr hw.opcode

theorem rs1_body : (decodeInstruction junk (amoBody w a)).rs1 = a.rs1.setWidth 32 := by
  rw [decodeInstruction_rtype (hw.opcode_body.imp_right .inr), decodeRtype_rs1]
  congr 1
  rw [amoBody]
  cases a.op with
  | lr => exact rs1_rType ..
  | sc => exact rs1_rType ..
  | _ => exact (amo_decode_fields hw.decode).2.2.2.2.1.symm

theorem tail_eq :
    (if (decodeInstruction junk w).funct7.sshiftRight 2 = 0x3 then
      [encodeItypeFields Op.op (decodeInstruction junk w).rd RvFunct.addi regs.zero 0]
    else []) = amoTail a := by
  have hclear : encodeItypeFields Op.op (a.rd.setWidth 32) RvFunct.addi regs.zero 0 =
      rType 0 0 0 0 a.rd Opcode.op :=
    (encodeItypeFields_eq Opcode.op a.rd 0 0 0).trans iType_zero
  rw [hw.rd_eq, hclear, amoTail]
  exact if_congr (hw.isSc_iff junk) rfl rfl

theorem amoWords_eq (h : Host) (hbase : a.rs1 ≠ sp) :
    amoWords h w = saveScratch (scratchReg (a.rs1.setWidth 32)) ++
      (insertLi (dataOffset.signExtend 64) ((scratch a.rs1).setWidth 32) ++
        ([encodeBtypeFields Op.branch (a.rs1.setWidth 32) ((scratch a.rs1).setWidth 32)
            RvFunct.blt 12,
          amoBody w a,
          0x0100006f,
          encodeRtypeFields Op.op (a.rs1.setWidth 32) RvFunct.add
            (a.rs1.setWidth 32) ((scratch a.rs1).setWidth 32) 0,
          amoBody w a,
          encodeRtypeFields Op.op (a.rs1.setWidth 32) RvFunct.add
            (a.rs1.setWidth 32) ((scratch a.rs1).setWidth 32) RvFunct.subFunct7] ++
        (loadScratch (scratchReg (a.rs1.setWidth 32)) ++ amoTail a))) := by
  have hsp : a.rs1.setWidth 32 ≠ regs.sp := by
    rw [show regs.sp = sp.setWidth 32 from rfl, Ne, setWidth_inj (by decide)]
    exact hbase
  have hbody := hw.body_eq h.junkInst
  have htail := hw.tail_eq h.junkInst
  have hrs1 := hw.rs1_eq h.junkInst
  simp only [amoWords]
  rw [hbody, htail, hrs1, hw.rs1_body, if_pos hsp, encodeInstruction_of_rtype _ hw.opcode_body]
  simp only [scratchReg_setWidth, List.append_assoc]

end AmoWord

/-! ### What the words do -/

def comparison : AmoWidth → AluOp
  | .word => .slt
  | .dword => .sltu

def amoBodyEffect (a : Amo) (s : Machine) : Machine :=
  match a.op with
  | .lr => s.setReg a.rd ((comparison a.width).eval (s.regs a.rs1) 0)
  | .sc => s
  | _ => a.execAt (s.regs a.rs1) s

def readied (a : Amo) (s : Machine) : Machine :=
  (spilled (scratch a.rs1) s).setReg (scratch a.rs1) dataBase

/-- The base is moved down by what the scratch register holds. -/
def unmoved (a : Amo) (s : Machine) : Machine :=
  s.setReg a.rs1 (s.regs a.rs1 - s.regs (scratch a.rs1))

def amoEffect (a : Amo) (s : Machine) : Machine :=
  let accessed :=
    if (s.regs a.rs1).slt dataBase then
      unmoved a (amoBodyEffect a ((readied a s).setReg a.rs1 (s.regs a.rs1 + dataBase)))
    else amoBodyEffect a (readied a s)
  let restored := reloaded (scratch a.rs1) accessed
  if a.op = .sc then restored.setReg a.rd 0 else restored

section Effect

variable {w : Word} {a : Amo} {s : Machine} {h : Host} {code : Code}

theorem decode_compare {rd rs1 rs2 : Reg} {f3 : BitVec 3} {width : AmoWidth}
    (hf3 : AmoWidth.ofFunct3 f3 = some width) :
    Instr.decode (rType 0 rs2 rs1 f3 rd Opcode.op) =
      some (.op (comparison width) rd rs1 rs2) := by
  rw [decode_of_op (opcode_rType ..), funct3_rType, funct7_rType, rd_rType, rs1_rType, rs2_rType]
  rw [AmoWidth.ofFunct3] at hf3
  split_ifs at hf3 with h2 h3
  · cases hf3
    rw [h2]
    rfl
  · cases hf3
    rw [h3]
    rfl

theorem steps_body (hw : AmoWord w a) (s : Machine) {p : DWord}
    (hcode : code p = some (amoBody w a)) :
    Steps code (s.goto p) ((amoBodyEffect a s).goto (p + 4)) := by
  have hf3 := (amo_decode_fields hw.decode).2.1
  rw [amoBody] at hcode
  rw [amoBodyEffect]
  cases hop : a.op with
  | lr =>
      rw [hop] at hcode
      have hrun := @reaches_op direct _ s _ _ _ _ _ _ hcode (decode_compare hf3)
      rw [show s.regs 0 = 0 from s.regs.zero] at hrun
      exact steps_of_reaches hrun
  | sc =>
      rw [hop] at hcode
      have hrun := @reaches_op direct _ s _ _ _ _ _ _ hcode (decode_compare hf3)
      rw [show s.setReg 0 _ = s from Machine.setReg_zero _ _] at hrun
      exact steps_of_reaches hrun
  | _ =>
      rw [hop] at hcode
      exact steps_amo s hcode hw.opcode hw.decode

theorem regs_readied_base (hbase : a.rs1 ≠ sp) : (readied a s).regs a.rs1 = s.regs a.rs1 := by
  simp only [readied, spilled, withSlot, Machine.regs_setReg, Machine.regs_setMem]
  rw [Regs.set_of_ne _ _ (Ne.symm (scratch_ne _)), Regs.set_of_ne _ _ hbase]

theorem regs_readied_scratch : (readied a s).regs (scratch a.rs1) = dataBase :=
  Regs.set_same _ _ (scratch_ne_zero _)

theorem reaches_readied {p : DWord} {rest : List Word}
    (hcode : CodeAt code p (saveScratch (scratchReg (a.rs1.setWidth 32)) ++
      (insertLi (dataOffset.signExtend 64) ((scratch a.rs1).setWidth 32) ++ rest))) :
    Reaches direct code (s.goto p) ((readied a s).goto (wordAddr p 5)) := by
  obtain ⟨hsave, hcode⟩ := codeAt_append.mp hcode
  obtain ⟨hli, -⟩ := codeAt_append.mp hcode
  rw [length_saveScratch] at hli
  refine (reaches_saveScratch s hsave).trans ?_
  have hrun := @reaches_insertLi direct _ (spilled (scratch a.rs1) s) _ _ _ hli
  rwa [liValue_dataOffset, ← wordAddr_add] at hrun

theorem length_amoWords (hw : AmoWord w a) (hbase : a.rs1 ≠ sp) :
    (amoWords h w).length = 13 + (amoTail a).length := by
  rw [hw.amoWords_eq h hbase]
  simp only [List.length_append, length_saveScratch, length_insertLi, length_loadScratch,
    List.length_cons, List.length_nil]
  omega

/-- The words that take the place of an atomic compute `amoEffect`. -/
theorem steps_amoWords (hw : AmoWord w a) (hbase : a.rs1 ≠ sp) (s : Machine) {p : DWord}
    (hcode : CodeAt code p (amoWords h w)) :
    Steps code (s.goto p) ((amoEffect a s).goto (wordAddr p (amoWords h w).length)) := by
  rw [length_amoWords hw hbase]
  rw [hw.amoWords_eq h hbase] at hcode
  refine (steps_of_reaches (reaches_readied hcode)).trans ?_
  rw [codeAt_append, codeAt_append, codeAt_append, codeAt_append] at hcode
  obtain ⟨-, -, hmid, hload, htail⟩ := hcode
  simp only [length_saveScratch, length_insertLi, length_loadScratch, List.length_cons,
    List.length_nil, codeAt_cons, ← wordAddr_add, wordAddr_add_four, Nat.reduceAdd]
    at hmid hload htail
  obtain ⟨hblt, hbody, hjump, hadd, hbody', hsub, -⟩ := hmid
  have h8 : wordAddr p 5 + (12 : BitVec 13).signExtend 64 = wordAddr p 8 :=
    (wordAddr_add p 5 3).symm
  have h11 : wordAddr p 7 + (16 : BitVec 21).signExtend 64 = wordAddr p 11 :=
    (wordAddr_add p 7 4).symm
  -- behind the access both ways meet
  have hend (m : Machine) : Steps code (m.goto (wordAddr p 11))
      ((if a.op = .sc then (reloaded (scratch a.rs1) m).setReg a.rd 0
        else reloaded (scratch a.rs1) m).goto (wordAddr p (13 + (amoTail a).length))) := by
    have hreload := reaches_loadScratch m hload
    rw [← wordAddr_add] at hreload
    refine (steps_of_reaches hreload).trans ?_
    by_cases hsc : a.op = .sc
    · rw [amoTail, if_pos hsc] at htail ⊢
      rw [if_pos hsc]
      have hclear := @reaches_op direct _ (reloaded (scratch a.rs1) m) _ _ _ _ _ _ htail.1
        decode_add
      have hzero : AluOp.add.eval ((reloaded (scratch a.rs1) m).regs 0)
          ((reloaded (scratch a.rs1) m).regs 0) = 0 := by
        rw [show (reloaded (scratch a.rs1) m).regs 0 = 0 from (reloaded _ m).regs.zero]
        rfl
      rw [hzero, wordAddr_add_four] at hclear
      exact steps_of_reaches hclear
    · rw [amoTail, if_neg hsc, if_neg hsc]
      exact .refl
  cases hlt : (s.regs a.rs1).slt dataBase with
  | true =>
      have hholds : BranchOp.blt.holds ((readied a s).regs a.rs1)
          ((readied a s).regs (scratch a.rs1)) = true := by
        rw [regs_readied_base hbase, regs_readied_scratch]
        exact hlt
      -- a base below the data is moved up for the access and back
      have htaken : Reaches direct code ((readied a s).goto (wordAddr p 5))
          ((readied a s).goto (wordAddr p 8)) :=
        reaches_branch_taken (readied a s) hblt (decode_bltWord _ _) hholds h8
      have hmove := @reaches_op direct _ (readied a s) _ _ _ _ _ _ hadd (decode_addWord _ _ _)
      rw [regs_readied_base hbase, regs_readied_scratch, AluOp.eval, wordAddr_add_four] at hmove
      refine (steps_of_reaches (htaken.trans hmove)).trans ?_
      refine (steps_body hw _ hbody').trans ?_
      have hback := @reaches_op direct _ (amoBodyEffect a
        ((readied a s).setReg a.rs1 (s.regs a.rs1 + dataBase))) _ _ _ _ _ _ hsub
        (decode_subWord _ _ _)
      rw [wordAddr_add_four] at hback ⊢
      refine (steps_of_reaches hback).trans ?_
      simp only [amoEffect, hlt, if_true]
      exact hend _
  | false =>
      have hholds : BranchOp.blt.holds ((readied a s).regs a.rs1)
          ((readied a s).regs (scratch a.rs1)) = false := by
        rw [regs_readied_base hbase, regs_readied_scratch]
        exact hlt
      refine (steps_of_reaches (reaches_branch_not_taken (readied a s) hblt (decode_bltWord _ _)
        hholds (wordAddr_add_four _ _))).trans ?_
      refine (steps_body hw _ hbody).trans ?_
      rw [wordAddr_add_four]
      refine (steps_of_reaches (reaches_jump _ hjump (by decide +kernel) h11)).trans ?_
      simp only [amoEffect, hlt, Bool.false_eq_true, if_false]
      exact hend _

end Effect

end RailTranslator
