import RailTranslator.Instrumentation
import RailTranslator.Rv64.Paths

/-!
The paths through emitted words.

Every emission site either passes control through its last word or leads out
to a handler of `util.S`, whatever the words of the guest are: an encoder
never makes a jump out of a word that is none, and the jumps the translator
writes itself have fixed displacements.
-/

namespace RailTranslator

open Rv64

/-! ### Opcodes of assembled words -/

section Encoders

variable (op : Word) (rd f3 rs1 rs2 f7 imm : BitVec 32)

theorem opcode_or (v w : Word) : Word.opcode (v ||| w) = v.opcode ||| w.opcode := by
  refine BitVec.eq_of_getLsbD_eq fun i hi => ?_
  simp only [Word.opcode, BitVec.getLsbD_or, BitVec.getLsbD_extractLsb', hi, decide_true,
    Bool.true_and]

theorem opcode_shiftLeft (w : Word) {k : ℕ} (hk : 7 ≤ k) : Word.opcode (w <<< k) = 0 := by
  refine BitVec.eq_of_getLsbD_eq fun i hi => ?_
  simp only [Word.opcode, BitVec.getLsbD_shiftLeft, BitVec.getLsbD_extractLsb']
  grind

theorem opcode_and_mask (w : Word) : Word.opcode (w &&& 127#32) = w.opcode := by
  have h7 : w &&& 127#32 = (w.extractLsb' 0 7).setWidth 32 := mask w 7
  refine BitVec.eq_of_getLsbD_eq fun i hi => ?_
  rw [h7]
  simp only [Word.opcode, BitVec.getLsbD_setWidth, BitVec.getLsbD_extractLsb', hi, decide_true,
    Bool.true_and, zero_add]
  grind

theorem opcode_encodeRtypeFields : (encodeRtypeFields op rd f3 rs1 rs2 f7).opcode = op.opcode := by
  simp [encodeRtypeFields, opcode_or, opcode_shiftLeft]

theorem opcode_encodeItypeFields : (encodeItypeFields op rd f3 rs1 imm).opcode = op.opcode := by
  simp [encodeItypeFields, opcode_or, opcode_shiftLeft]

theorem opcode_encodeStypeFields : (encodeStypeFields op f3 rs1 rs2 imm).opcode = op.opcode := by
  simp [encodeStypeFields, opcode_or, opcode_shiftLeft, opcode_and_mask]

theorem opcode_encodeJtypeFields : (encodeJtypeFields op rd imm).opcode = op.opcode := by
  simp [encodeJtypeFields, opcode_or, opcode_shiftLeft]

theorem encodeBtypeFields_cut (imm : BitVec 13) :
    encodeBtypeFields op rs1 rs2 f3 (imm.signExtend 32) =
      bType imm (rs2.setWidth 5) (rs1.setWidth 5) (f3.setWidth 3) (op.setWidth 7) := by
  have cut (x : BitVec 32) (k : ℕ) : x &&& BitVec.ofNat 32 (2 ^ k - 1) =
      (x.setWidth k).setWidth 32 &&& BitVec.ofNat 32 (2 ^ k - 1) := by
    rw [mask, mask]
    refine BitVec.eq_of_getLsbD_eq fun i hi => ?_
    simp only [BitVec.getLsbD_setWidth, BitVec.getLsbD_extractLsb', hi, decide_true,
      Bool.true_and, zero_add]
    grind
  have c3 : f3 &&& 0x7 = (f3.setWidth 3).setWidth 32 &&& 0x7 := cut f3 3
  have c5 (x : BitVec 32) : x &&& 0x1F = (x.setWidth 5).setWidth 32 &&& 0x1F := cut x 5
  rw [← encodeBtypeFields_eq]
  simp only [encodeBtypeFields, c3, c5 rs1, c5 rs2]
  congr 7
  exact cut op 7

end Encoders

/-- A word that is encoded again keeps its opcode, or becomes `addi x0, x0, 0`. -/
theorem opcode_encodeInstruction (inst : RvInst) :
    (encodeInstruction inst).opcode = Word.opcode inst.opcode ∨
      (encodeInstruction inst).opcode = Opcode.opImm := by
  rw [encodeInstruction]
  split_ifs
  · exact .inl (opcode_encodeRtypeFields ..)
  · exact .inl (opcode_encodeItypeFields ..)
  · exact .inl (opcode_encodeStypeFields ..)
  · left
    simp [encodeUtype, opcode_or, opcode_shiftLeft]
  · left
    simp [encodeBtype, opcode_or, opcode_shiftLeft, opcode_and_mask]
  · exact .inl (opcode_encodeJtypeFields ..)
  · exact .inr rfl

/-! ### Straight words -/

theorem fallsThrough_of_not_isTerminal {w : Word} (hw : ¬ IsTerminal w) : FallsThrough w := by
  rw [IsTerminal, not_or, not_or, not_or] at hw
  exact ⟨hw.1, hw.2.1, hw.2.2.1⟩

theorem fallsThrough_encodeInstruction {w : Word} {inst : RvInst} (hw : FallsThrough w)
    (hop : inst.opcode = opcodeOf w ∨ inst.opcode = 0) : FallsThrough (encodeInstruction inst) := by
  rcases opcode_encodeInstruction inst with hinst | hinst
  · rcases hop with hop | hop
    · have hmask : Word.opcode (opcodeOf w) = w.opcode := opcode_and_mask w
      rw [hop, hmask] at hinst
      rw [FallsThrough, hinst]
      exact hw
    · rw [hop] at hinst
      exact fallsThrough_of_opcode hinst (by decide)
  · exact fallsThrough_of_opcode hinst (by decide)

theorem fallsThrough_op {w : Word} (hop : w.opcode = Opcode.op) : FallsThrough w :=
  fallsThrough_of_opcode hop (by decide)

theorem insertLi_eq (value : DWord) (reg : Reg) : insertLi value (reg.setWidth 32) =
    [uType (value.extractLsb' 12 20) reg Opcode.lui,
      iType ((value.extractLsb' 1 11).setWidth 12) reg 0 reg Opcode.opImm,
      iType ((value.extractLsb' 1 11).setWidth 12) reg 0 reg Opcode.opImm] := by
  simp only [insertLi, luiWord_eq, addiWord_eq]

section Passing

variable {x : Reg} {h : Host} {w : Word}

theorem passes_insertLi (value : DWord) (reg : Reg) :
    Passes x (insertLi value (reg.setWidth 32)) := by
  rw [insertLi_eq]
  exact passes_of_forall ⟨fallsThrough_of_opcode (opcode_uType ..) (by decide),
    fallsThrough_of_opcode (opcode_iType ..) (by decide),
    fallsThrough_of_opcode (opcode_iType ..) (by decide)⟩

theorem passes_inlineSave : Passes x inlineSave := passes_of_forall (by decide)

theorem passes_restoreScratch : Passes x restoreScratch := passes_of_forall (by decide)

theorem passes_saveScratch (reg : BitVec 32) : Passes x (saveScratch reg) := by
  rw [saveScratch]
  split
  · exact passes_inlineSave
  · exact passes_of_forall (by decide)

theorem passes_loadScratch (reg : BitVec 32) : Passes x (loadScratch reg) := by
  rw [loadScratch]
  split <;> exact passes_of_forall (by decide)

theorem passes_insertLi_scratchReg (value : DWord) (rs1 : BitVec 32) :
    Passes x (insertLi value (scratchReg rs1)) := by
  rw [scratchReg]
  split
  · exact passes_insertLi value t5
  · exact passes_insertLi value t6

theorem passes_relocation (rs1 reg : BitVec 32) {j : Word} {ys : List Word} {n : ℕ}
    (hw : FallsThrough w) (hj : j.opcode = Opcode.jal) (hn : ys.length = n)
    (hover : j.immJ.signExtend 64 = BitVec.ofNat 64 (4 * (n + 1)))
    (hys : ys.Forall FallsThrough) :
    Passes x (encodeBtypeFields Op.branch rs1 reg RvFunct.blt 12 :: ([w] ++ (j :: ys))) := by
  have hword : encodeBtypeFields Op.branch rs1 reg RvFunct.blt 12 = bType 12 (reg.setWidth 5)
      (rs1.setWidth 5) 4 Opcode.branch := encodeBtypeFields_cut Op.branch RvFunct.blt rs1 reg 12
  rw [hword]
  refine passes_choice (opcode_bType ..) ?_ hj (hn ▸ hover) hw.passes (passes_of_forall hys)
  rw [immB_bType _ _ _ _ _ (by decide)]
  rfl

theorem passes_relocatedByScratch (hw : FallsThrough w) : Passes x (relocatedByScratch h w) := by
  refine Passes.append (Passes.append (Passes.append (passes_saveScratch _)
    (passes_insertLi_scratchReg _ _)) ?_) (passes_loadScratch _)
  refine passes_relocation (n := 2) _ _ hw (by decide) rfl (by decide) ⟨?_, ?_⟩
  · exact fallsThrough_op (opcode_encodeRtypeFields ..)
  · exact fallsThrough_encodeInstruction hw ((opcode_decodeInstruction _ w).imp id And.left)

theorem passes_relocatedInPlace (hw : FallsThrough w) : Passes x (relocatedInPlace h w) := by
  refine Passes.append (Passes.append (Passes.append (passes_saveScratch _)
    (passes_insertLi_scratchReg _ _)) ?_) (passes_loadScratch _)
  refine passes_relocation (n := 3) _ _ hw (by decide) rfl (by decide) ⟨?_, ?_, ?_⟩
  · exact fallsThrough_op (opcode_encodeRtypeFields ..)
  · exact hw
  · split
    · exact fallsThrough_op (opcode_encodeRtypeFields ..)
    · decide

theorem passes_amoWords (hw : FallsThrough w) : Passes x (amoWords h w) := by
  unfold amoWords
  extract_lets decodedInst kind newInst newDecodedInst rs1 scratch_reg access
  have hnewInst : FallsThrough newInst := by
    unfold newInst
    split
    · exact fallsThrough_op (opcode_encodeItypeFields ..)
    · split
      · exact fallsThrough_op (opcode_encodeStypeFields ..)
      · exact hw
  refine Passes.append ?_ ?_
  · unfold access
    split
    · refine Passes.append (Passes.append (Passes.append (passes_saveScratch _)
        (passes_insertLi_scratchReg _ _)) ?_) (passes_loadScratch _)
      refine passes_relocation (n := 3) _ _ hnewInst (by decide) rfl (by decide) ⟨?_, ?_, ?_⟩
      · exact fallsThrough_op (opcode_encodeRtypeFields ..)
      · exact fallsThrough_encodeInstruction hnewInst
          ((opcode_decodeInstruction _ newInst).imp id And.left)
      · exact fallsThrough_op (opcode_encodeRtypeFields ..)
    · exact hnewInst.passes
  · split
    · exact FallsThrough.passes (fallsThrough_op (opcode_encodeItypeFields ..))
    · exact passes_nil x

theorem passes_bodyWords {rewrite : Word → List Word} (hrewrite : Passes x (rewrite w))
    (hw : FallsThrough w) (pc : BitVec 32) : Passes x (bodyWords h rewrite pc w) := by
  rw [bodyWords]
  split
  · rw [auipcWords, decodeUtype_rd]
    exact passes_insertLi _ _
  · split
    · exact hrewrite
    · exact hw.passes

theorem passes_bbWords (hw : FallsThrough w) (pc : BitVec 32) : Passes x (bbWords h pc w) := by
  rw [bbWords]
  split
  · exact passes_amoWords hw
  · exact passes_bodyWords (passes_relocatedByScratch hw) hw pc

theorem passes_linkWords (pc : BitVec 32) (w : Word) : Passes x (linkWords pc w) := by
  rw [linkWords]
  split
  · exact passes_nil x
  · exact passes_insertLi _ _

end Passing

/-! ### Exits -/

/-- The address of one of the routines of `util.S` that call the translator. -/
def Host.IsHandler (h : Host) (a : DWord) : Prop := ∃ k : SwitchRoutine, a = h.handler k

section Leaving

variable {h : Host}

theorem leadsOut_jump {value : DWord} (hvalue : liValue value = value) :
    LeadsOut t6 (· = value) (insertLi value regs.t6 ++ [jalrInst]) := by
  have hjalr : jalrInst = iType 0 t6 0 0 Opcode.jalr := by decide
  have hload : insertLi value regs.t6 = _ := insertLi_eq value t6
  rw [hload, hjalr]
  rintro code a t ⟨hlui, haddi, haddi', hjump, -⟩
  refine .step hlui fun pc' t' hflow => ?_
  obtain ⟨rfl, ht, -⟩ := (fallsThrough_of_opcode (opcode_uType ..) (by decide)).flow_iff.mp hflow
  refine .step haddi fun pc' t' hflow => ?_
  obtain ⟨rfl, -, ht'⟩ := (fallsThrough_of_opcode (opcode_iType ..) (by decide)).flow_iff.mp hflow
  refine .step haddi' fun pc' t' hflow => ?_
  obtain ⟨rfl, -, ht''⟩ := (fallsThrough_of_opcode (opcode_iType ..) (by decide)).flow_iff.mp hflow
  refine .step hjump fun pc' t' hflow => .arrived ?_
  rw [flow_jalr (opcode_iType ..)] at hflow
  have hpc := hflow (rs1_iType ..)
  rw [ht'' (opcode_iType ..) (funct3_iType ..) (rd_iType ..) (rs1_iType ..),
    ht' (opcode_iType ..) (funct3_iType ..) (rd_iType ..) (rs1_iType ..),
    ht (opcode_uType ..) (rd_uType ..), immU_uType, immI_iType, immI_iType] at hpc
  have hsum := upper_add_half value
  rw [liHalf] at hsum
  have hoff : value + (0 : BitVec 12).signExtend 64 = value := by simp
  rw [hpc, hsum, hvalue, hoff]
  exact and_not_one_of_liValue hvalue

theorem leadsOut_handler (k : SwitchRoutine) :
    LeadsOut t6 h.IsHandler (insertLi (h.handler k) regs.t6 ++ [jalrInst]) :=
  (leadsOut_jump (h.liValue_handler k)).mono fun _ ha => ⟨k, ha⟩

theorem leadsOut_exitTo (k : SwitchRoutine) :
    LeadsOut t6 h.IsHandler (exitTo (h.handler k)) := by
  rw [exitTo, List.append_assoc]
  exact passes_inlineSave.leadsOut (leadsOut_handler k)

theorem leadsOut_traceExitTo (pc : DWord) (k : SwitchRoutine) :
    LeadsOut t6 h.IsHandler (traceExitTo pc (h.handler k)) := by
  rw [traceExitTo, List.append_assoc]
  have hpass : Passes t6 (insertLi pc regs.t6 ++ [saveExitAddress]) :=
    (passes_insertLi pc t6).append (FallsThrough.passes (by decide))
  exact hpass.leadsOut (leadsOut_handler k)

variable {w : Word}

theorem leadsOut_branchExits (hop : w.opcode = Opcode.branch) :
    LeadsOut t6 h.IsHandler (branchExits h w) := by
  have hword : encodeBtype { decodeBtype h.junkInst w with imm := 20 } =
      bType 20 w.rs2 w.rs1 w.funct3 w.opcode := encodeBtype_setImm h.junkInst w 20
  have hexits : branchExits h w = inlineSave ++ (bType 20 w.rs2 w.rs1 w.funct3 w.opcode ::
      ((insertLi (h.handler .contextSwitch) regs.t6 ++ [jalrInst]) ++
        (insertLi (h.handler .contextSwitchTaken) regs.t6 ++ [jalrInst]))) := by
    simp only [branchExits, hword, List.append_assoc]
    rfl
  rw [hexits]
  refine passes_inlineSave.leadsOut (leadsOut_branch ?_ ?_ (leadsOut_handler _)
    (leadsOut_handler _))
  · rw [opcode_bType, hop]
  · rw [immB_bType _ _ _ _ _ (by decide)]
    rfl

theorem leadsOut_exitWords (w : Word) : LeadsOut t6 h.IsHandler (exitWords h w) := by
  rw [exitWords]
  split
  · exact leadsOut_branchExits ‹_›
  · split
    · exact leadsOut_exitTo .contextSwitch
    · exact leadsOut_exitTo .contextSwitchTaken

theorem leadsOut_branchStub (pc : DWord) (hop : w.opcode = Opcode.branch) :
    LeadsOut t6 h.IsHandler (branchStub h pc w) := by
  have hword : encodeBtype { decodeBtype h.junkInst w with imm := 36 } =
      bType 36 w.rs2 w.rs1 w.funct3 w.opcode := encodeBtype_setImm h.junkInst w 36
  rw [branchStub, hword]
  refine leadsOut_branch ?_ ?_ (leadsOut_traceExitTo pc .contextSwitchTraceExit)
    (leadsOut_traceExitTo pc .contextSwitchTraceExitTaken)
  · rw [opcode_bType, hop]
  · rw [immB_bType _ _ _ _ _ (by decide)]
    rfl

theorem leadsOut_stubWords (pc : DWord) (w : Word) :
    LeadsOut t6 h.IsHandler (stubWords h pc w) := by
  rw [stubWords]
  refine passes_inlineSave.leadsOut ?_
  split
  · exact leadsOut_branchStub pc ‹_›
  · split
    · exact leadsOut_traceExitTo pc .contextSwitchTraceExit
    · exact leadsOut_traceExitTo pc .contextSwitchTraceExitTaken

end Leaving

end RailTranslator
