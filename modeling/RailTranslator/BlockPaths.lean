import Mathlib.Tactic.IntervalCases
import RailTranslator.EmittedPaths

/-!
Whether a block can be left through its end.

A block is registered with the words between its start and its end.
`CodeCache.Leaves` says that every path through them comes to a handler of
`util.S`, from the start of the block and, where `context_switch_instrument`
sends control back into the block, from there. `blocks_leave_iff` says for
which blocks that is so: for every block of `allocateBB` but those of a few
pre-instrumented instructions, and for the traces that come to an exit before
the text or the jumps they follow come to an end.
-/

namespace RailTranslator

open Rv64

/-! ### The code of a block -/

def CodeCache.blockCode (h : Host) (c : CodeCache) (b : RailBasicBlock) : Code := fun x =>
  if x - b.startLocationInCache < b.endLocationInCache - b.startLocationInCache then c.code h x
  else none

/-- The block begins by asking for the PRE routines of its instruction. -/
def CodeCache.AsksForPre (h : Host) (c : CodeCache) (b : RailBasicBlock) : Prop :=
  CodeAt (c.blockCode h b) b.startLocationInCache (exitTo h.contextSwitchInstrument)

/-- Every path through the block ends at a handler. A block that asks for PRE
routines is entered again behind the six words of that. -/
def CodeCache.Leaves (h : Host) (c : CodeCache) (b : RailBasicBlock) : Prop :=
  (∀ t, Leads t6 (c.blockCode h b) h.IsHandler b.startLocationInCache t) ∧
    (c.AsksForPre h b →
      ∀ t, Leads t6 (c.blockCode h b) h.IsHandler (b.startLocationInCache + 24) t)

section Blocks

variable {h : Host} {c : CodeCache} {b : RailBasicBlock} {front ws back : List Word}

theorem blockCode_eq (hmem : c.memory = front ++ (ws ++ back))
    (hlen : c.memory.length ≤ cacheSize / 4) (hplace : Placed h b front.length ws) :
    c.blockCode h b = image b.startLocationInCache ws := by
  rw [hmem, List.length_append, List.length_append, cacheSize] at hlen
  funext x
  have hsize : b.endLocationInCache - b.startLocationInCache = BitVec.ofNat 64 (4 * ws.length) := by
    rw [hplace.startLocationInCache, hplace.endLocationInCache]
    simp only [wordAddr]
    bv_omega
  rw [CodeCache.blockCode, hsize]
  by_cases hin : (x - b.startLocationInCache).toNat < 4 * ws.length
  · have hlt : x - b.startLocationInCache < BitVec.ofNat 64 (4 * ws.length) := by
      rw [BitVec.lt_def, BitVec.toNat_ofNat]
      omega
    have hbase : (x - h.base).toNat = 4 * front.length + (x - b.startLocationInCache).toNat := by
      rw [hplace.startLocationInCache] at hin ⊢
      simp only [wordAddr] at hin ⊢
      bv_omega
    rw [if_pos hlt, CodeCache.code, image, image, hbase, hmem]
    rw [Nat.mul_add_mod]
    split
    · rw [Nat.mul_add_div (by omega), List.getElem?_append_right (Nat.le_add_right _ _),
        Nat.add_sub_cancel_left, List.getElem?_append_left (by omega)]
    · rfl
  · have hge : ¬ x - b.startLocationInCache < BitVec.ofNat 64 (4 * ws.length) := by
      rw [BitVec.lt_def, BitVec.toNat_ofNat]
      omega
    rw [if_neg hge, image_eq_none (by omega)]

theorem handler_apart {k n : ℕ} (hlt : k + n < cacheSize / 4) {a : DWord} (ha : h.IsHandler a) :
    4 * n < (a - wordAddr h.base k).toNat := by
  obtain ⟨routine, rfl⟩ := ha
  have hout := h.handler_outside routine
  rw [cacheSize] at hlt hout
  simp only [wordAddr]
  bv_omega

theorem image_handler {k : ℕ} (hlt : k + ws.length < cacheSize / 4) {a : DWord}
    (ha : h.IsHandler a) : image (wordAddr h.base k) ws a = none :=
  image_eq_none (handler_apart hlt ha).le

theorem not_isHandler_end {k n : ℕ} (hlt : k + n < cacheSize / 4) :
    ¬ h.IsHandler (wordAddr (wordAddr h.base k) n) := by
  intro ha
  have hout := handler_apart hlt ha
  rw [cacheSize] at hlt
  simp only [wordAddr] at hout
  bv_omega

end Blocks

/-! ### Behind a pre-instrumented instruction -/

/-- Where the exit behind a system instruction goes, if it stands at `start`:
the jump is meant for address zero, and its displacement is cut to 21 bits. -/
def toStubRegion (start : DWord) : DWord := start + ((0 - start).setWidth 21).signExtend 64

/-- The exit behind a pre-instrumented instruction is one: the instruction is
no access through `t6`, and no system instruction, unless the jump behind that
happens to go to a handler or back into the words that ask for PRE routines,
before they load `t6`. -/
def PreExits (h : Host) (start : DWord) (w : Word) : Prop :=
  (w.opcode = Opcode.system → h.IsHandler (toStubRegion (start + 24)) ∨
    toStubRegion (start + 24) ∈ [start, start + 4, start + 8]) ∧
  ¬ ((w.opcode = Opcode.load ∨ w.opcode = Opcode.store) ∧ w.rs1 = t6)

section Pre

variable {h : Host} {k : ℕ} {q : BitVec 32} {w : Word}

theorem rs1_decodeInstruction_access (junk : RvInst)
    (hop : w.opcode = Opcode.load ∨ w.opcode = Opcode.store) :
    (decodeInstruction junk w).rs1 = w.rs1.setWidth 32 := by
  rcases hop with hop | hop
  · rw [decodeInstruction_itype (by simp [hop]), decodeItype_rs1]
  · rw [decodeInstruction_stype hop, decodeStype_rs1]

theorem access_iff : (opcodeOf w = Op.store ∨ opcodeOf w = Op.load) ↔
    (w.opcode = Opcode.load ∨ w.opcode = Opcode.store) := by
  rw [or_comm]
  exact or_congr (@opcodeOf_eq_iff w Opcode.load) (@opcodeOf_eq_iff w Opcode.store)

theorem exitReg_eq_t5 (hop : w.opcode = Opcode.load ∨ w.opcode = Opcode.store)
    (hrs1 : w.rs1 = t6) : exitReg h w = regs.t5 := by
  rw [exitReg, if_pos (access_iff.mpr hop), rs1_decodeInstruction_access _ hop, hrs1]
  rfl

theorem exitReg_eq_t6 (hw : ¬ ((w.opcode = Opcode.load ∨ w.opcode = Opcode.store) ∧ w.rs1 = t6)) :
    exitReg h w = regs.t6 := by
  rw [exitReg]
  split
  · rename_i hop
    rw [access_iff] at hop
    rw [rs1_decodeInstruction_access _ hop, scratchReg_setWidth, scratch,
      if_neg fun hrs1 => hw ⟨hop, hrs1⟩]
    rfl
  · rfl

/-- The exit of an instruction that is neither a system instruction nor an
access through `t6`. -/
theorem leadsOut_nextInstWords (start : DWord) (hsys : w.opcode ≠ Opcode.system)
    (hacc : ¬ ((w.opcode = Opcode.load ∨ w.opcode = Opcode.store) ∧ w.rs1 = t6)) :
    LeadsOut t6 h.IsHandler (nextInstWords h start q w) := by
  rw [nextInstWords, if_neg hsys]
  split
  · exact leadsOut_exitWords w
  · rename_i hw
    have hfalls := fallsThrough_of_not_isTerminal hw
    rw [exitReg_eq_t6 hacc]
    exact (passes_bodyWords (passes_relocatedInPlace hfalls) hfalls q).leadsOut
      (leadsOut_exitTo .contextSwitchTaken)

/-- Behind an access through `t6` the jump goes wherever the register points. -/
theorem not_leads_access {code : Code} {a e : DWord} (start : DWord)
    (hop : w.opcode = Opcode.load ∨ w.opcode = Opcode.store) (hrs1 : w.rs1 = t6)
    (hcode : CodeAt code a (nextInstWords h start q w)) (hout : ∀ x, h.IsHandler x → code x = none)
    (he : code e = none) (heven : e &&& ~~~1#64 = e) (hnot : ¬ h.IsHandler e) :
    ¬ ∀ t, Leads t6 code h.IsHandler a t := by
  intro hleads
  have hw : ¬ IsTerminal w := by
    rw [IsTerminal]
    rcases hop with hop | hop <;> rw [hop] <;> decide
  have hfalls := fallsThrough_of_not_isTerminal hw
  have hsys : w.opcode ≠ Opcode.system := fun h' => hw (.inr (.inr (.inr h')))
  rw [nextInstWords, if_neg hsys, if_neg hw, exitReg_eq_t5 hop hrs1] at hcode
  have hload : insertLi h.contextSwitchTaken regs.t5 = _ := insertLi_eq h.contextSwitchTaken t5
  rw [hload] at hcode
  generalize hbody : bodyWords h (relocatedInPlace h) q w = body at hcode
  generalize (h.contextSwitchTaken.extractLsb' 1 11).setWidth 12 = lo at hcode
  generalize h.contextSwitchTaken.extractLsb' 12 20 = hi at hcode
  have hsplit : body ++ (inlineSave ++ [uType hi t5 Opcode.lui, iType lo t5 0 t5 Opcode.opImm,
      iType lo t5 0 t5 Opcode.opImm] ++ [jalrInst]) =
      (body ++ (inlineSave ++ [uType hi t5 Opcode.lui, iType lo t5 0 t5 Opcode.opImm])) ++
        [iType lo t5 0 t5 Opcode.opImm, jalrInst] := by
    simp only [List.append_assoc, List.cons_append, List.nil_append]
  have hpass : Passes t6 (body ++ (inlineSave ++
      [uType hi t5 Opcode.lui, iType lo t5 0 t5 Opcode.opImm])) := by
    rw [← hbody]
    refine (passes_bodyWords (passes_relocatedInPlace hfalls) hfalls q).append
      (passes_inlineSave.append (passes_of_forall ⟨?_, ?_⟩))
    · exact fallsThrough_of_opcode (opcode_uType ..) (by decide)
    · exact fallsThrough_of_opcode (opcode_iType ..) (by decide)
  rw [hsplit, codeAt_append] at hcode
  obtain ⟨hfront, haddi, hjalr, -⟩ := hcode
  obtain ⟨_, t, rfl, hleads'⟩ := (hpass code a 0 hfront).through (hleads 0) hout
  -- the last word in front of the jump leaves `t6` as it is, and nothing is known of it
  have hjump := hleads'.next hout haddi _ e
    ((fallsThrough_of_opcode (opcode_iType ..) (by decide)).flow_iff.mpr ⟨rfl, fun hlui => ?_,
      fun _ _ hrd => ?_⟩)
  · have hleft := hjump.next hout hjalr e e
      ((flow_jalr (by decide)).mpr fun _ => ?_)
    · exact hnot (hleft.arrives he)
    · have hoff : e + (Word.immI jalrInst).signExtend 64 = e := BitVec.add_zero e
      rw [hoff, heven]
  · rw [opcode_iType] at hlui
    exact absurd hlui (by decide)
  · rw [rd_iType] at hrd
    exact absurd hrd (by decide)

/-- Nothing is known behind a word that adds to a register of which nothing is
known. -/
theorem leads_behind_addi {code : Code} {ok : DWord → Prop} {x : Reg} {a : DWord} {lo : BitVec 12}
    (hout : ∀ b, ok b → code b = none) (hw : code a = some (iType lo x 0 x Opcode.opImm))
    (hleads : ∀ t, Leads x code ok a t) (t : DWord) : Leads x code ok (a + 4) t := by
  refine (hleads (t - lo.signExtend 64)).next hout hw _ _ ?_
  rw [(fallsThrough_of_opcode (opcode_iType ..) (by decide)).flow_iff, opcode_iType, immI_iType]
  exact ⟨rfl, fun hop => absurd hop (by decide), fun _ _ _ _ => (BitVec.sub_add_cancel t _).symm⟩

theorem flow_toStubRegion {start pc' t t' : DWord} (hstart : start.toNat % 4 = 0) :
    Flow t6 (encodeJtypeFields Op.jal regs.zero ((0 - start).setWidth 32)) start t pc' t' ↔
      pc' = toStubRegion start ∧ t' = t := by
  have hword : encodeJtypeFields Op.jal regs.zero ((0 - start).setWidth 32) =
      jType (((0 - start).setWidth 32).setWidth 21) 0 Opcode.jal :=
    encodeJtypeFields_low Opcode.jal 0 _
  have hcut : ((0 - start).setWidth 32).setWidth 21 = (0 - start).setWidth 21 :=
    BitVec.setWidth_setWidth_of_le _ (by omega)
  have heven : ((0 - start).setWidth 21).getLsbD 0 = false := by
    rw [BitVec.getLsbD_setWidth, Bool.and_eq_false_iff]
    right
    refine getLsbD_zero_of_mod ?_
    bv_omega
  rw [hword, hcut, flow_jal (opcode_jType ..), immJ_jType _ _ _ heven, rd_jType, toStubRegion]
  exact and_congr_right fun _ => ⟨fun h' => h' (by decide), fun h' _ => h'⟩

/-- Entered behind the first word that loads `t6`, an exit leads anywhere. -/
theorem not_leads_inside_exit {code : Code} {a e handler : DWord} {ok : DWord → Prop}
    (hcode : CodeAt code a (exitTo handler)) (hout : ∀ x, ok x → code x = none)
    (he : code e = none) (heven : e &&& ~~~1#64 = e) (hnot : ¬ ok e) {j : ℕ}
    (hj : j = 3 ∨ j = 4 ∨ j = 5) : ¬ ∀ t, Leads t6 code ok (wordAddr a j) t := by
  have hload : insertLi handler regs.t6 = _ := insertLi_eq handler t6
  rw [exitTo, hload] at hcode
  obtain ⟨-, -, -, haddi, haddi', hjalr, -⟩ := hcode
  simp only [BitVec.add_assoc] at haddi haddi' hjalr
  have hdead5 : ¬ ∀ t, Leads t6 code ok (wordAddr a 5) t := by
    intro hleads
    have hoff : e + (Word.immI jalrInst).signExtend 64 = e := BitVec.add_zero e
    have hleft := (hleads e).next hout hjalr e 0
      ((flow_jalr (by decide)).mpr fun _ => by rw [hoff, heven])
    exact hnot (hleft.arrives he)
  have hdead4 : ¬ ∀ t, Leads t6 code ok (wordAddr a 4) t := by
    refine fun hleads => hdead5 fun t => ?_
    rw [← wordAddr_add_four]
    exact leads_behind_addi hout haddi' hleads t
  rcases hj with rfl | rfl | rfl
  · refine fun hleads => hdead4 fun t => ?_
    rw [← wordAddr_add_four]
    exact leads_behind_addi hout haddi hleads t
  · exact hdead4
  · exact hdead5

theorem leads_exit {code : Code} {a x : DWord} (routine : SwitchRoutine)
    (hcode : CodeAt code a (exitTo (h.handler routine))) (hx : x ∈ [a, a + 4, a + 8]) (t : DWord) :
    Leads t6 code h.IsHandler x t := by
  simp only [List.mem_cons, List.not_mem_nil, or_false] at hx
  rcases hx with rfl | rfl | rfl
  · exact leadsOut_exitTo routine _ _ _ hcode
  · have hsave : Passes t6 [0x01f13023] := FallsThrough.passes (by decide)
    exact hsave.leadsOut (leadsOut_handler routine) _ _ _ hcode.2
  · have hadd : a + 4 + 4 = a + 8 := by bv_omega
    refine leadsOut_handler routine code _ t ?_
    rw [← hadd]
    exact hcode.2.2

/-- The block of a pre-instrumented system instruction, where it is entered
again. -/
theorem leads_system_iff (hlt : k + 8 < cacheSize / 4) {start : DWord}
    (hstart : start = wordAddr h.base k) (hop : w.opcode = Opcode.system) :
    (∀ t, Leads t6 (image start (exitTo h.contextSwitchInstrument ++
      [encodeJtypeFields Op.jal regs.zero ((0 - (start + 24)).setWidth 32), w])) h.IsHandler
        (start + 24) t) ↔
      h.IsHandler (toStubRegion (start + 24)) ∨
        toStubRegion (start + 24) ∈ [start, start + 4, start + 8] := by
  generalize hws : exitTo h.contextSwitchInstrument ++
    [encodeJtypeFields Op.jal regs.zero ((0 - (start + 24)).setWidth 32), w] = ws
  have hlen : ws.length = 8 := by rw [← hws]; rfl
  have hmod6 : (start + 24).toNat % 4 = 0 := by
    have := toNat_wordAddr_base h k
    rw [← hstart] at this
    bv_omega
  have hout : ∀ x, h.IsHandler x → image start ws x = none := fun x hx =>
    hstart ▸ image_handler (by rw [hlen]; exact hlt) hx
  have hat (j : ℕ) (hj : j < 8) : image start ws (wordAddr start j) = ws[j]? :=
    image_wordAddr (by omega)
  have hcode : CodeAt (image start ws) start (exitTo h.contextSwitchInstrument) := by
    have hall := @codeAt_image_self start ws (by omega)
    rw [← hws, codeAt_append] at hall
    rw [← hws]
    exact hall.1
  have hjal : image start ws (start + 24) =
      some (encodeJtypeFields Op.jal regs.zero ((0 - (start + 24)).setWidth 32)) :=
    (hat 6 (by omega)).trans (by rw [← hws]; rfl)
  constructor
  · intro hleads
    have hnext (t : DWord) : Leads t6 (image start ws) h.IsHandler (toStubRegion (start + 24)) t :=
      (hleads t).next hout hjal _ _ ((flow_toStubRegion hmod6).mpr ⟨rfl, rfl⟩)
    have hend : image start ws (wordAddr start 8) = none := by
      rw [← hlen]
      exact image_end (by omega)
    have hnot : ¬ h.IsHandler (wordAddr start 8) := hstart ▸ not_isHandler_end hlt
    have heven : wordAddr start 8 &&& ~~~1#64 = wordAddr start 8 := by
      refine and_not_one_of_even (getLsbD_zero_of_mod ?_)
      rw [hstart, ← wordAddr_add]
      exact toNat_wordAddr_base h _
    -- words 3 to 5 load and use an address of which only a part is in `t6`
    have hdead (j : ℕ) (hj : j = 3 ∨ j = 4 ∨ j = 5) :
        ¬ ∀ t, Leads t6 (image start ws) h.IsHandler (wordAddr start j) t :=
      not_leads_inside_exit hcode hout hend heven hnot hj
    generalize htarget : toStubRegion (start + 24) = target at hnext
    cases hword : image start ws target with
    | none => exact .inl ((hnext 0).arrives hword)
    | some v =>
        -- the jump goes to one of the eight words of the block
        obtain ⟨j, rfl, hj⟩ := exists_of_image hword
        have hlt8 : j < 8 := hlen ▸ (List.getElem?_eq_some_iff.mp hj).1
        right
        interval_cases j
        · exact List.mem_cons.mpr (.inl (wordAddr_zero start))
        · exact List.mem_cons_of_mem _ List.mem_cons_self
        · exact List.mem_cons_of_mem _ (List.mem_cons_of_mem _ List.mem_cons_self)
        · exact absurd hnext (hdead 3 (.inl rfl))
        · exact absurd hnext (hdead 4 (.inr (.inl rfl)))
        · exact absurd hnext (hdead 5 (.inr (.inr rfl)))
        · refine absurd (hnext 0) (not_leads_of_loop hjal (fun hhandler => ?_) fun t => ?_)
          · have hnone := hout _ hhandler
            rw [hword] at hnone
            cases hnone
          · exact (flow_toStubRegion hmod6).mpr ⟨htarget.symm, rfl⟩
        · have hfalls : FallsThrough w := fallsThrough_of_opcode hop (by decide)
          have hw : image start ws (wordAddr start 7) = some w :=
            (hat 7 (by omega)).trans (by rw [← hws]; rfl)
          have hleft := (hnext 0).next hout hw (wordAddr start 8) 0 (hfalls.flow_iff.mpr
            ⟨(wordAddr_add_four start 7).symm, fun hlui => ?_, fun himm => ?_⟩)
          · exact absurd (hleft.arrives hend) hnot
          · rw [hop] at hlui
            exact absurd hlui (by decide)
          · rw [hop] at himm
            exact absurd himm (by decide)
  · rintro htarget t
    refine .step hjal fun pc' t' hflow => ?_
    obtain ⟨rfl, rfl⟩ := (flow_toStubRegion hmod6).mp hflow
    rcases htarget with hhandler | hmem
    · exact .arrived hhandler
    · exact leads_exit .contextSwitchInstrument hcode hmem t'

end Pre

/-! ### Blocks of `allocateBB` -/

section Basic

variable {h : Host} {r : Rail} {elf : ElfReader} {c c' : CodeCache} {a pc q : BitVec 32}
  {ps : List Piece} {e : BlockEnd} {b : RailBasicBlock}

theorem InBlock.fallsThrough (hin : InBlock r elf pc) : FallsThrough (elf.fetch pc) :=
  fallsThrough_of_not_isTerminal hin.not_terminal

theorem BlockWalk.leadsOut (hwalk : BlockWalk h r elf pc ps q e)
    (he : e = .stopped ∨ e = .segmented) : LeadsOut t6 h.IsHandler (ps.flatMap (·.words)) := by
  induction hwalk with
  | straight hin _ ih =>
      rw [List.flatMap_cons]
      exact (passes_bbWords hin.fallsThrough _).leadsOut (ih he)
  | stopped =>
      rw [List.flatMap_cons]
      exact (leadsOut_exitWords _).append _
  | segmented hne hpre hw hends =>
      rw [List.flatMap_cons]
      exact ((passes_bbWords (fallsThrough_of_not_isTerminal hw) _).leadsOut
        (leadsOut_exitTo .contextSwitchTaken)).append _
  | pre | exhausted | endless => rcases he with he | he <;> cases he

/-- The words of a walk that stands in front of a pre-instrumented instruction. -/
theorem BlockWalk.passes (hwalk : BlockWalk h r elf pc ps q e) (he : e = .pre) :
    Passes t6 (ps.flatMap (·.words)) := by
  induction hwalk with
  | straight hin _ ih =>
      rw [List.flatMap_cons]
      exact (passes_bbWords hin.fallsThrough _).append (ih he)
  | pre => exact passes_nil _
  | stopped | segmented | exhausted | endless => cases he

theorem leads_of_leadsOut {front ws back : List Word} (hmem : c.memory = front ++ (ws ++ back))
    (hroom : c.memory.length < cacheSize / 4) (hplace : Placed h b front.length ws)
    (hws : LeadsOut t6 h.IsHandler ws) (t : DWord) :
    Leads t6 (c.blockCode h b) h.IsHandler b.startLocationInCache t := by
  rw [blockCode_eq hmem hroom.le hplace]
  refine hws.leads_image ?_ t
  have hlen := congrArg List.length hmem
  rw [List.length_append, List.length_append] at hlen
  rw [cacheSize] at hroom
  omega

/-- A block that begins by reloading the scratch register does not ask for PRE
routines. -/
theorem not_asksForPre {front ws back : List Word}
    (hmem : c.memory = front ++ (restoreScratch ++ ws ++ back))
    (hroom : c.memory.length < cacheSize / 4)
    (hplace : Placed h b front.length (restoreScratch ++ ws)) : ¬ c.AsksForPre h b := by
  rw [CodeCache.AsksForPre, blockCode_eq hmem hroom.le hplace]
  intro hcode
  have hfirst : image b.startLocationInCache (restoreScratch ++ ws) b.startLocationInCache =
      some 0xff013f83 := by
    have hat := @image_wordAddr b.startLocationInCache (restoreScratch ++ ws) 0 (by omega)
    rwa [wordAddr_zero] at hat
  have hsave := hcode.1
  rw [hfirst] at hsave
  exact absurd hsave (by decide)

theorem leaves_pre_iff {front back : List Word} {w : Word} (hmem : c.memory =
      front ++ (preWords h front.length q w ++ back)) (hroom : c.memory.length < cacheSize / 4)
    (hplace : Placed h b front.length (preWords h front.length q w)) :
    c.Leaves h b ↔ PreExits h b.startLocationInCache w := by
  have hlen := congrArg List.length hmem
  rw [List.length_append, List.length_append] at hlen
  have hlt : front.length + (preWords h front.length q w).length < cacheSize / 4 := by omega
  have hsize : 4 * (preWords h front.length q w).length < 2 ^ 64 := by
    rw [cacheSize] at hlt
    omega
  have hstart := hplace.startLocationInCache
  have hcode := @codeAt_image_self b.startLocationInCache _ hsize.le
  have hout : ∀ x, h.IsHandler x →
      image b.startLocationInCache (preWords h front.length q w) x = none :=
    fun x hx => hstart ▸ image_handler hlt hx
  have hasks := (codeAt_append.mp hcode).1
  have hnext : CodeAt (image b.startLocationInCache (preWords h front.length q w))
      (b.startLocationInCache + 24) (nextInstWords h (wordAddr h.base (front.length + 6)) q w) :=
    (codeAt_append.mp hcode).2
  -- the exit in front always leads out, so the words behind it decide
  have hleaves : c.Leaves h b ↔ ∀ t, Leads t6
      (image b.startLocationInCache (preWords h front.length q w)) h.IsHandler
        (b.startLocationInCache + 24) t := by
    rw [CodeCache.Leaves, CodeCache.AsksForPre, blockCode_eq hmem hroom.le hplace]
    refine ⟨fun hleads => hleads.2 hasks, fun hleads => ⟨fun t => ?_, fun _ => hleads⟩⟩
    exact leadsOut_exitTo .contextSwitchInstrument _ _ t hasks
  rw [hleaves]
  -- a jump to the stub region, or words that end in the jump through `t6`
  by_cases hsys : w.opcode = Opcode.system
  · have hacc : ¬ ((w.opcode = Opcode.load ∨ w.opcode = Opcode.store) ∧ w.rs1 = t6) := by
      rw [hsys]
      exact fun hacc => absurd hacc.1 (by decide)
    have hwords : nextInstWords h (wordAddr h.base (front.length + 6)) q w =
        [encodeJtypeFields Op.jal regs.zero ((0 - (b.startLocationInCache + 24)).setWidth 32),
          w] := by
      rw [nextInstWords, if_pos hsys, hstart, wordAddr_add]
      rfl
    rw [preWords, hwords] at hlt ⊢
    rw [leads_system_iff hlt hstart hsys]
    exact ⟨fun htarget => ⟨fun _ => htarget, hacc⟩, fun hpre => hpre.1 hsys⟩
  · refine ⟨fun hleads => ⟨fun hop => absurd hop hsys, ?_⟩, fun hpre t => ?_⟩
    · rintro ⟨hop, hrs1⟩
      refine not_leads_access _ hop hrs1 hnext hout (image_end hsize) ?_ ?_ hleads
      · refine and_not_one_of_even (getLsbD_zero_of_mod ?_)
        rw [hstart, ← wordAddr_add]
        exact toNat_wordAddr_base h _
      · rw [hstart]
        exact not_isHandler_end hlt
    · exact leadsOut_nextInstWords _ hsys hpre.2 _ _ t hnext

/-- The block that a walk leaves in the cache, whatever is emitted behind it. -/
theorem MainAdded.leaves {c₁ : CodeCache} {x : DWord} (hwalk : BlockWalk h r elf a ps q e)
    (hmain : MainAdded h elf a c ps q e c₁) (hmem : c₁.memory <+: c'.memory)
    (hroom : c'.memory.length < cacheSize / 4) (hb : c₁.railBasicBlocks x = some b)
    (hnew : c.railBasicBlocks x ≠ some b) :
    x = a.signExtend 64 ∧ preInstrumented r a (elf.fetch a) = false ∧ c'.Leaves h b := by
  obtain ⟨back, hmem⟩ := hmem
  cases hmain with
  | closed he hdesc hplace hbb =>
      rcases insertAt_cases hb with ⟨rfl, rfl⟩ | ⟨-, hb'⟩
      · have hmem' : c'.memory = c.memory ++ (restoreScratch ++ ps.flatMap (·.words) ++
            (wordsBehind (elf.fetch q) ++ back)) := by
          rw [← hmem]
          simp only [CodeCache.memory_insertAt, CodeCache.memory_emit,
            CodeCache.memory_setCurrentBB, walkedWords, List.append_assoc]
        refine ⟨rfl, hwalk.not_pre_start (hwalk.ne_nil he), fun t => ?_, fun hasks => ?_⟩
        · exact leads_of_leadsOut hmem' hroom hplace
            (passes_restoreScratch.leadsOut (hwalk.leadsOut he)) t
        · exact absurd hasks (not_asksForPre hmem' hroom hplace)
      · exact absurd hb' hnew
  | cut hne hdesc hplace hbb =>
      rcases insertAt_cases hb with ⟨rfl, rfl⟩ | ⟨-, hb'⟩
      · rw [walkedWords, List.append_assoc] at hplace
        have hmem' : c'.memory = c.memory ++ (restoreScratch ++ (ps.flatMap (·.words) ++
            exitTo h.contextSwitch) ++ back) := by
          rw [← hmem]
          simp only [CodeCache.memory_insertAt, CodeCache.memory_emit,
            CodeCache.memory_setCurrentBB, walkedWords, List.append_assoc]
        refine ⟨rfl, hwalk.not_pre_start hne, fun t => ?_, fun hasks => ?_⟩
        · exact leads_of_leadsOut hmem' hroom hplace (passes_restoreScratch.leadsOut
            ((hwalk.passes rfl).leadsOut (leadsOut_exitTo .contextSwitch))) t
        · exact absurd hasks (not_asksForPre hmem' hroom hplace)
      · exact absurd hb' hnew
  | left he => exact absurd hb hnew

theorem allocateBB_leaves_iff (elf : ElfReader) (c : CodeCache) (a x : DWord)
    (hroom : (allocateBB h r elf c a).2.memory.length < cacheSize / 4)
    (hb : (allocateBB h r elf c a).2.railBasicBlocks x = some b)
    (hnew : c.railBasicBlocks x ≠ some b) : (allocateBB h r elf c a).2.Leaves h b ↔
      (preInstrumented r (x.setWidth 32) (elf.fetch (x.setWidth 32)) = true →
        PreExits h b.startLocationInCache (elf.fetch (x.setWidth 32))) := by
  obtain ⟨ps, q, e, c₁, hwalk, -, hmain, hpre, -⟩ := allocateBB_walk h r elf c a
  generalize (allocateBB h r elf c a).2 = c' at *
  by_cases hx : e = .pre ∧ x = q.signExtend 64 ∧ c₁.railBasicBlocks x ≠ some b
  · obtain ⟨he, rfl, hnew₁⟩ := hx
    have hinst := (hwalk.of_pre he).2
    have hq : (q.signExtend 64).setWidth 32 = q := low_ofLow q
    rw [hq]
    cases hpre with
    | none => exact absurd hb hnew₁
    | @added b' hfresh hdesc hplace hbb =>
        rcases insertAt_cases hb with ⟨-, rfl⟩ | ⟨hne, -⟩
        · have hmem : ((c₁.emit (preWords h c₁.memoryIndex q (elf.fetch q))).insertAt
              (q.signExtend 64) b').memory = c₁.memory ++
                (preWords h c₁.memory.length q (elf.fetch q) ++ []) := by
            rw [List.append_nil]
            rfl
          rw [leaves_pre_iff hmem hroom hplace]
          exact ⟨fun hex _ => hex, fun hex => hex hinst⟩
        · exact absurd rfl hne
  · have hb₁ : c₁.railBasicBlocks x = some b := by
      cases hpre with
      | none => exact hb
      | added hfresh hdesc hplace hbb =>
          by_contra hnew₁
          rcases insertAt_cases hb with ⟨rfl, -⟩ | ⟨-, hb'⟩
          · exact hx ⟨rfl, rfl, hnew₁⟩
          · exact hnew₁ hb'
    obtain ⟨rfl, hinst, hleaves⟩ := hmain.leaves hwalk hpre.memory hroom hb₁ hnew
    rw [← asInt, setWidth_asInt, hinst]
    exact ⟨fun _ hfalse => absurd hfalse Bool.false_ne_true, fun _ => hleaves⟩

end Basic

/-! ### Traces -/

/-- The registered inline words are entered at the first and left behind the
last. -/
structure Rail.InlinePasses (r : Rail) : Prop where
  bb : Passes t6 r.inlineBBRoutinePost
  inst : Passes t6 r.inlineInstRoutinePost
  typed : ∀ t, Passes t6 (r.inlineInstRoutinesTypedPost t)

/-- The trace of up to `i` blocks from an address comes to an instruction
behind which it is left: one that ends it by itself, or one behind which a
POST routine ends it. On the way it goes on to the next instruction or to the
target of a jump, which must not be address zero, and there must be blocks
left for it. -/
inductive ExitsTrace (r : Rail) (elf : ElfReader) : ℕ → BitVec 32 → Prop
  | stopped {i : ℕ} {pc : BitVec 32} (hw : IsTerminal (elf.fetch pc))
      (hstop : (elf.fetch pc).opcode = Opcode.jal → i = 0) : ExitsTrace r elf (i + 1) pc
  | segmented {i : ℕ} {pc : BitVec 32} (hne : elf.fetch pc ≠ 0) (hw : ¬ IsTerminal (elf.fetch pc))
      (hends : segmentsTrace r pc (elf.fetch pc) = true) : ExitsTrace r elf (i + 1) pc
  | straight {i : ℕ} {pc : BitVec 32} (hin : InTrace r elf pc)
      (hrest : ExitsTrace r elf (i + 1) (pc + 4)) : ExitsTrace r elf (i + 1) pc
  | followed {i : ℕ} {pc : BitVec 32} (hop : (elf.fetch pc).opcode = Opcode.jal) (hi : 0 < i)
      (htarget : jumpTarget elf pc ≠ 0) (hrest : ExitsTrace r elf i (jumpTarget elf pc)) :
      ExitsTrace r elf (i + 1) pc

section Trace

variable {h : Host} {r : Rail} {elf : ElfReader} {i : ℕ} {pc q : BitVec 32} {ps : List Piece}
  {e : TraceEnd} {b : RailBasicBlock}

theorem Rail.InlinePasses.inlineInst (hr : r.InlinePasses) (types : List InstType) :
    Passes t6 (inlineInst r types) := by
  refine hr.inst.append ?_
  induction types with
  | nil => exact passes_nil _
  | cons t types ih =>
      rw [List.flatMap_cons]
      exact (hr.typed t).append ih

theorem Rail.InlinePasses.inlineExit (hr : r.InlinePasses) (w : Word) :
    Passes t6 (inlineExit r w) :=
  hr.bb.append (hr.inlineInst _)

theorem Rail.InlinePasses.inlineBehind (hr : r.InlinePasses) (w : Word) :
    Passes t6 (inlineBehind r w) := by
  rw [RailTranslator.inlineBehind]
  split
  · exact passes_nil _
  · split <;> exact hr.inlineInst _

theorem Rail.Uninstrumented.inlinePasses (hr : r.Uninstrumented) : r.InlinePasses where
  bb := hr.bbInline ▸ passes_nil _
  inst := hr.instInline ▸ passes_nil _
  typed t := hr.typedInline t ▸ passes_nil _

theorem InTrace.fallsThrough (hin : InTrace r elf pc) : FallsThrough (elf.fetch pc) :=
  fallsThrough_of_not_isTerminal hin.not_terminal

theorem passes_traceWords {w : Word} (hw : FallsThrough w) (pc : BitVec 32) :
    Passes t6 (bodyWords h (relocatedInPlace h) pc w) :=
  passes_bodyWords (passes_relocatedInPlace hw) hw pc

theorem TraceWalk.leadsOut (hr : r.InlinePasses) (hwalk : TraceWalk h r elf i pc ps q e)
    (he : e = .stopped ∨ e = .segmented) : LeadsOut t6 h.IsHandler (ps.flatMap (·.words)) := by
  induction hwalk with
  | straight hin _ ih =>
      rw [List.flatMap_cons]
      exact ((passes_traceWords hin.fallsThrough _).append (hr.inlineBehind _)).leadsOut (ih he)
  | followed hop hi htarget _ ih =>
      rw [List.flatMap_cons]
      exact ((hr.inlineExit _).append (passes_linkWords _ _)).leadsOut (ih he)
  | stopped hw hstop =>
      rw [List.flatMap_cons]
      exact ((hr.inlineExit _).leadsOut ((leadsOut_stubWords _ _).append _)).append _
  | segmented hne hw hends after =>
      rw [List.flatMap_cons]
      have hpass := passes_traceWords (h := h) (fallsThrough_of_not_isTerminal hw)
      exact ((hpass _).leadsOut (leadsOut_exitTo .contextSwitchTaken)).append after |>.append _
  | lost | exhausted | endless | empty => rcases he with he | he <;> cases he

theorem TraceWalk.passes (hr : r.InlinePasses) (hwalk : TraceWalk h r elf i pc ps q e)
    (hstop : e ≠ .stopped) (hseg : e ≠ .segmented) : Passes t6 (ps.flatMap (·.words)) := by
  induction hwalk with
  | straight hin _ ih =>
      rw [List.flatMap_cons]
      exact ((passes_traceWords hin.fallsThrough _).append (hr.inlineBehind _)).append
        (ih hstop hseg)
  | followed hop hi htarget _ ih =>
      rw [List.flatMap_cons]
      exact ((hr.inlineExit _).append (passes_linkWords _ _)).append (ih hstop hseg)
  | lost =>
      rw [List.flatMap_cons]
      exact ((hr.inlineExit _).append (passes_linkWords _ _)).append (passes_nil _)
  | stopped => exact absurd rfl hstop
  | segmented => exact absurd rfl hseg
  | exhausted | endless | empty => exact passes_nil _

theorem not_exitsTrace (h0 : elf.fetch pc = 0) : ¬ ExitsTrace r elf i pc := by
  intro hex
  cases hex with
  | stopped hw => exact absurd h0 (ne_zero_of_isTerminal hw)
  | segmented hne => exact absurd h0 hne
  | straight hin => exact absurd h0 hin.ne_zero
  | followed hop => exact absurd h0 (ne_zero_of_isTerminal (.inr (.inl hop)))

theorem TraceWalk.exits_iff (hwalk : TraceWalk h r elf i pc ps q e) (hend : e ≠ .endless) :
    ExitsTrace r elf i pc ↔ e = .stopped ∨ e = .segmented := by
  induction hwalk with
  | straight hin _ ih =>
      rw [← ih hend]
      refine ⟨fun hex => ?_, .straight hin⟩
      cases hex with
      | stopped hw => exact absurd hw hin.not_terminal
      | segmented _ _ hends => rw [hin.not_segmented] at hends; cases hends
      | straight _ hrest => exact hrest
      | followed hop => exact absurd (.inr (.inl hop)) hin.not_terminal
  | followed hop hi htarget _ ih =>
      rw [← ih hend]
      refine ⟨fun hex => ?_, .followed hop hi htarget⟩
      cases hex with
      | stopped _ hstop => exact absurd (hstop hop) (Nat.pos_iff_ne_zero.mp hi)
      | segmented _ hw => exact absurd (.inr (.inl hop)) hw
      | straight hin => exact absurd (.inr (.inl hop)) hin.not_terminal
      | followed _ _ _ hrest => exact hrest
  | lost hop hi htarget =>
      refine ⟨fun hex => ?_, fun he => by rcases he with he | he <;> cases he⟩
      cases hex with
      | stopped _ hstop => exact absurd (hstop hop) (Nat.pos_iff_ne_zero.mp hi)
      | segmented _ hw => exact absurd (.inr (.inl hop)) hw
      | straight hin => exact absurd (.inr (.inl hop)) hin.not_terminal
      | followed _ _ hne => exact absurd htarget hne
  | stopped hw hstop => exact ⟨fun _ => .inl rfl, fun _ => .stopped hw hstop⟩
  | segmented hne hw hends => exact ⟨fun _ => .inr rfl, fun _ => .segmented hne hw hends⟩
  | exhausted h0 =>
      exact ⟨fun hex => absurd hex (not_exitsTrace h0),
        fun he => by rcases he with he | he <;> cases he⟩
  | endless => exact absurd rfl hend
  | empty =>
      refine ⟨fun hex => ?_, fun he => by rcases he with he | he <;> cases he⟩
      cases hex

theorem allocateTrace_leaves_iff (hr : r.InlinePasses) (elf : ElfReader) (c : CodeCache)
    (a x : DWord) (count : ℕ)
    (hroom : (allocateTrace h r elf c a count).2.memory.length < cacheSize / 4)
    (hb : (allocateTrace h r elf c a count).2.railBasicBlocks x = some b)
    (hnew : c.railBasicBlocks x ≠ some b) : (allocateTrace h r elf c a count).2.Leaves h b ↔
      ExitsTrace r elf count (a.setWidth 32) := by
  obtain ⟨ps, q, e, hwalk, -, hmem, hblocks, ⟨b', hb', hrec⟩, -, -, hend, -⟩ :=
    allocateTrace_walk h r elf c a count
  generalize (allocateTrace h r elf c a count).2 = c' at *
  obtain rfl : x = asInt a := by
    by_contra hx
    exact hnew ((hblocks x hx).symm.trans hb)
  obtain rfl : b = b' := Option.some_inj.mp (hb.symm.trans hb')
  have hfinite : e ≠ .endless := by
    intro he
    have hfull := hend he
    rw [loopFuel] at hfull
    rw [cacheSize] at hroom
    omega
  have hmem' : c'.memory = c.memory ++ (restoreScratch ++ ps.flatMap (·.words) ++ []) := by
    rw [hmem, List.append_nil]
  have hplace : Placed h b c.memory.length (restoreScratch ++ ps.flatMap (·.words)) := by
    refine ⟨hrec.startLocationInCache, hrec.endLocationInCache.trans ?_⟩
    rw [CodeCache.here, CodeCache.memoryIndex, hmem, List.length_append]
  have hasks : ¬ c'.AsksForPre h b := not_asksForPre hmem' hroom hplace
  rw [hwalk.exits_iff hfinite]
  constructor
  · intro hleaves
    -- a trace without an exit runs on to where no word stands
    by_contra he
    rw [not_or] at he
    have hlen := congrArg List.length hmem'
    rw [List.append_nil, List.length_append] at hlen
    have hlt : c.memory.length + (restoreScratch ++ ps.flatMap (·.words)).length < cacheSize / 4 :=
      hlen ▸ hroom
    have hleads := hleaves.1 0
    rw [blockCode_eq hmem' hroom.le hplace] at hleads
    refine (passes_restoreScratch.append (hwalk.passes hr he.1 he.2)).not_leads_image ?_
      (fun x hx => ?_) ?_ hleads
    · rw [cacheSize] at hlt
      omega
    · rw [hplace.startLocationInCache]
      exact image_handler hlt hx
    · rw [hplace.startLocationInCache]
      exact not_isHandler_end hlt
  · intro he
    exact ⟨leads_of_leadsOut hmem' hroom hplace
      (passes_restoreScratch.leadsOut (hwalk.leadsOut hr he)), fun h' => absurd h' hasks⟩

end Trace

/-! ### All blocks -/

/-- A machine that enters such a block runs to a handler, unless it stops on the
way at a word that does not decode. -/
theorem CodeCache.Leaves.reaches {h : Host} {c : CodeCache} {b : RailBasicBlock}
    (hleaves : c.Leaves h b) (tr : Reg → DWord → DWord) {s : Machine}
    (hpc : s.pc = b.startLocationInCache ∨
      c.AsksForPre h b ∧ s.pc = b.startLocationInCache + 24) :
    ∃ s', Reaches tr (c.blockCode h b) s s' ∧
      (h.IsHandler s'.pc ∨ ∃ w, c.blockCode h b s'.pc = some w ∧ Instr.decode w = none) := by
  have ht6 : t6 ≠ 0 := by decide
  refine leads_reaches ht6 tr ?_
  rcases hpc with hpc | ⟨hasks, hpc⟩ <;> rw [hpc]
  · exact hleaves.1 _
  · exact hleaves.2 hasks _

/-- Every path through a block that has just been registered ends at a
handler, exactly if: it is a block of `allocateBB`, and the exit behind its
instruction, if that is pre-instrumented, is one; or it is a trace, and the
trace comes to an exit. Machines that enter such a block take these paths. -/
theorem blocks_leave_iff (h : Host) {r : Rail} (hr : r.InlinePasses) (elf : ElfReader)
    (c : CodeCache) (a x : DWord) (b : RailBasicBlock) (hnew : c.railBasicBlocks x ≠ some b) :
    ((allocateBB h r elf c a).2.memory.length < cacheSize / 4 →
      (allocateBB h r elf c a).2.railBasicBlocks x = some b →
      ((allocateBB h r elf c a).2.Leaves h b ↔
        (preInstrumented r (x.setWidth 32) (elf.fetch (x.setWidth 32)) = true →
          PreExits h b.startLocationInCache (elf.fetch (x.setWidth 32))))) ∧
    (∀ count, (allocateTrace h r elf c a count).2.memory.length < cacheSize / 4 →
      (allocateTrace h r elf c a count).2.railBasicBlocks x = some b →
      ((allocateTrace h r elf c a count).2.Leaves h b ↔
        ExitsTrace r elf count (a.setWidth 32))) ∧
    ∀ c' : CodeCache, c'.Leaves h b → ∀ tr s, s.pc = b.startLocationInCache ∨
        c'.AsksForPre h b ∧ s.pc = b.startLocationInCache + 24 →
      ∃ s', Reaches tr (c'.blockCode h b) s s' ∧
        (h.IsHandler s'.pc ∨ ∃ w, c'.blockCode h b s'.pc = some w ∧ Instr.decode w = none) :=
  ⟨fun hroom hb => allocateBB_leaves_iff elf c a x hroom hb hnew,
    fun count hroom hb => allocateTrace_leaves_iff hr elf c a x count hroom hb hnew,
    fun _ hleaves tr _ hpc => hleaves.reaches tr hpc⟩

/-- A block and a trace that are left through their exits only. -/
theorem blocks_leave_load :
    (∃ b, (firstBlock loadX6Text).railBasicBlocks 0x10000 = some b ∧
      (firstBlock loadX6Text).Leaves requestedHost b) ∧
    ∃ b, (firstTrace loadTraceText).railBasicBlocks 0x10000 = some b ∧
      (firstTrace loadTraceText).Leaves requestedHost b := by
  have hblock : ((firstBlock loadX6Text).railBasicBlocks 0x10000).isSome = true := by
    decide +kernel
  have htrace : ((firstTrace loadTraceText).railBasicBlocks 0x10000).isSome = true := by
    decide +kernel
  obtain ⟨b, hb⟩ := Option.isSome_iff_exists.mp hblock
  obtain ⟨b', hb'⟩ := Option.isSome_iff_exists.mp htrace
  have hplain (linking : Bool) := (Rail.uninstrumented_plain linking).inlinePasses
  refine ⟨⟨b, hb, ?_⟩, b', hb', ?_⟩
  · refine ((blocks_leave_iff requestedHost (hplain false) loadX6Text
      (allocateRoot requestedHost loadX6Text).2 0x10000 0x10000 b
        (Option.some_ne_none b).symm).1 ?_ hb).mpr ?_
    · have hlen : (firstBlock loadX6Text).memory.length < cacheSize / 4 := by decide +kernel
      exact hlen
    · exact fun hpre => absurd hpre Bool.false_ne_true
  · refine ((blocks_leave_iff requestedHost (hplain true) loadTraceText
      (allocateRoot requestedHost loadTraceText).2 0x10000 0x10000 b'
        (Option.some_ne_none b').symm).2.1 2 ?_ hb').mpr ?_
    · have hlen : (firstTrace loadTraceText).memory.length < cacheSize / 4 := by decide +kernel
      exact hlen
    · show ExitsTrace (.plain true) loadTraceText 2 0x10000
      have htarget : jumpTarget loadTraceText 0x10000 = 0x10008 := by decide +kernel
      refine .followed (by decide +kernel) (by decide) (by rw [htarget]; decide) ?_
      rw [htarget]
      refine .straight ⟨by decide +kernel, by decide +kernel, by decide +kernel⟩ ?_
      exact .stopped (by decide +kernel) fun _ => rfl

/-- `nop`, and then no more text. -/
def nopText : ElfReader := .ofWords 0x10000 [0x00000013, 0x00000013]

/-- The trace of a text that ends is registered, and control falls through its
end. -/
theorem nopTrace_falls_through : ∃ b,
    (firstTrace nopText).railBasicBlocks 0x10000 = some b ∧
      ¬ (firstTrace nopText).Leaves requestedHost b := by
  have hsome : ((firstTrace nopText).railBasicBlocks 0x10000).isSome = true := by decide +kernel
  have hlen : (firstTrace nopText).memory.length < cacheSize / 4 := by decide +kernel
  obtain ⟨b, hb⟩ := Option.isSome_iff_exists.mp hsome
  refine ⟨b, hb, fun hleaves => ?_⟩
  have hex := (allocateTrace_leaves_iff (Rail.uninstrumented_plain true).inlinePasses nopText
    (allocateRoot requestedHost nopText).2 0x10000 0x10000 2 hlen hb
      (Option.some_ne_none b).symm).mp hleaves
  have hfirst : ¬ IsTerminal (nopText.fetch 0x10000) := by decide +kernel
  cases hex with
  | stopped hw => exact hfirst hw
  | segmented _ _ hends => exact absurd hends (by decide +kernel)
  | straight _ hrest => exact not_exitsTrace (by decide +kernel) hrest
  | followed hop => exact hfirst (.inr (.inl hop))

end RailTranslator
