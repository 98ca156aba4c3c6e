import RailTranslator.Runs

/-!
The records of blocks, over whole runs.

`GuestBlock` says what a record that `allocateBB` has made describes: a walk
through the guest's text. `Truthful` is what `stub` and the routines trust of
any record, and `metadata_truthful` says in which runs it holds of all of
them; without traces it always does.
-/

namespace RailTranslator

open Rv64 Transition

/-! ### Blocks of the guest -/

/-- The record of a block of the guest, or of a pre-instrumented instruction. -/
inductive GuestBlock (h : Host) (r : Rail) (elf : ElfReader) (b : RailBasicBlock) : Prop
  | closed {a q : BitVec 32} {ps : List Piece} {e : BlockEnd} (hwalk : BlockWalk h r elf a ps q e)
      (he : e = .stopped ∨ e = .segmented)
      (hdesc : Describes elf b a q (e.type (elf.fetch q)))
  | cut {a q : BitVec 32} {ps : List Piece} (hwalk : BlockWalk h r elf a ps q .pre)
      (hne : ps ≠ []) (hdesc : Describes elf b a (q - 4) .segmented)
  | pre {q : BitVec 32} (hne : elf.fetch q ≠ 0) (hpre : preInstrumented r q (elf.fetch q) = true)
      (hdesc : Describes elf b q q (nextInstType (elf.fetch q)))

section Blocks

variable {h : Host} {r : Rail} {elf : ElfReader} {b : RailBasicBlock} {a q x : BitVec 32}
  {ps : List Piece} {e : BlockEnd}

theorem Describes.of_setProgramCounter {first last : BitVec 32} {type : BasicBlockType}
    (hd : Describes (elf.setProgramCounter x) b first last type) :
    Describes elf b first last type :=
  ⟨hd.firstAddr, hd.lastAddr, hd.startInst, hd.terminalInst, hd.type⟩

/-- The records `allocateBB` makes. -/
theorem allocateBB_record {pc : BitVec 32} {c : CodeCache} {a x : DWord}
    (hb : (allocateBB h r (elf.setProgramCounter pc) c a).2.railBasicBlocks x = some b) :
    c.railBasicBlocks x = some b ∨
      GuestBlock h r elf b ∧ b.firstAddr = x ∧ b.basicBlockAddress = asInt a := by
  obtain ⟨ps, q, e, c₁, hwalk, -, hmain, hpre, -⟩ :=
    allocateBB_walk h r (elf.setProgramCounter pc) c a
  have hwalk' := hwalk.of_setProgramCounter
  -- the records before the block of a pre-instrumented instruction
  have hmain' (hb : c₁.railBasicBlocks x = some b) : c.railBasicBlocks x = some b ∨
      GuestBlock h r elf b ∧ b.firstAddr = x ∧ b.basicBlockAddress = asInt a := by
    cases hmain with
    | closed he hdesc hplace hbb =>
        obtain ⟨rfl, rfl⟩ | ⟨-, hb⟩ := insertAt_cases hb
        · exact .inr ⟨.closed hwalk' he hdesc.of_setProgramCounter, hdesc.firstAddr, hbb⟩
        · exact .inl hb
    | cut hne hdesc hplace hbb =>
        obtain ⟨rfl, rfl⟩ | ⟨-, hb⟩ := insertAt_cases hb
        · exact .inr ⟨.cut hwalk' hne hdesc.of_setProgramCounter, hdesc.firstAddr, hbb⟩
        · exact .inl hb
    | left => exact .inl hb
  generalize (allocateBB h r (elf.setProgramCounter pc) c a).2 = c' at *
  cases hpre with
  | none => exact hmain' hb
  | added hnew hdesc hplace hbb =>
      obtain ⟨rfl, rfl⟩ | ⟨-, hb⟩ := insertAt_cases hb
      · obtain ⟨hne, hpre'⟩ := hwalk'.of_pre rfl
        exact .inr ⟨.pre hne hpre' hdesc.of_setProgramCounter, hdesc.firstAddr, hbb⟩
      · exact hmain' hb

/-- In the mode without traces every record is that of a block of the guest. -/
theorem recordRule_guestBlock (hlink : r.traceLinkingEnabled = false) :
    RecordRule h r elf fun x b => b = .empty ∨ GuestBlock h r elf b ∧ b.firstAddr = x where
  empty _ := .inl rfl
  renamed bb hP hseg := by
    rcases hP with rfl | ⟨hblock, hfirst⟩
    · cases hseg
    · refine .inr ⟨?_, hfirst⟩
      cases hblock with
      | closed hwalk he hdesc =>
          exact .closed hwalk he
            ⟨hdesc.firstAddr, hdesc.lastAddr, hdesc.startInst, hdesc.terminalInst, hdesc.type⟩
      | cut hwalk hne hdesc =>
          exact .cut hwalk hne
            ⟨hdesc.firstAddr, hdesc.lastAddr, hdesc.startInst, hdesc.terminalInst, hdesc.type⟩
      | pre hne hpre hdesc =>
          exact .pre hne hpre
            ⟨hdesc.firstAddr, hdesc.lastAddr, hdesc.startInst, hdesc.terminalInst, hdesc.type⟩
  allocated {pc c a n x b} hb := by
    rw [allocate, hlink] at hb
    exact (allocateBB_record hb).imp id fun hnew => .inr ⟨hnew.1, hnew.2.1⟩

end Blocks

/-! ### Metadata -/

/-- The type of a block suits its last instruction. -/
def LeavesBy : BasicBlockType → Word → Prop
  | .directBranch, w => w.opcode = Opcode.branch ∨ w.opcode = Opcode.jal
  | .indirectBranch, w => w.opcode = Opcode.jalr
  | .syscall, w => w.opcode = Opcode.system
  -- the guest goes on behind the instruction
  | .segmented, w => w ≠ 0 ∧ ¬ IsTerminal w
  | .functionCall, _ => True
  | .functionReturn, _ => True

/-- The record registered under the guest address `x` tells the truth about
the guest's text. -/
structure Truthful (elf : ElfReader) (x : DWord) (b : RailBasicBlock) : Prop where
  firstAddr : b.firstAddr = x
  startInst : b.startInst = elf.fetch (b.firstAddr.setWidth 32)
  terminalInst : b.terminalInst = elf.fetch (b.lastAddr.setWidth 32)
  type : LeavesBy b.type b.terminalInst

section Truth

variable {h : Host} {r : Rail} {elf : ElfReader} {b : RailBasicBlock}

theorem leavesBy_exitType {w : Word} (hw : IsTerminal w) : LeavesBy (exitType w) w := by
  rcases hw with hop | hop | hop | hop <;> rw [exitType, hop]
  · exact .inl hop
  · exact .inr hop
  · exact hop
  · exact hop

theorem exitType_plain (w : Word) : (exitType w).Assigned ∧ exitType w ≠ .segmented := by
  rw [exitType]
  split_ifs <;> decide

theorem BlockEnd.assigned_type (e : BlockEnd) (w : Word) : (e.type w).Assigned := by
  cases e with
  | stopped => exact (exitType_plain w).1
  | segmented | pre | exhausted | endless => exact (by decide : BasicBlockType.Assigned .segmented)

theorem assigned_nextInstType (w : Word) : (nextInstType w).Assigned := by
  rw [nextInstType]
  split
  · exact (exitType_plain w).1
  · decide

theorem Describes.truthful {first last : BitVec 32} {type : BasicBlockType}
    (hd : Describes elf b first last type) (htype : LeavesBy type (elf.fetch last)) :
    Truthful elf (first.signExtend 64) b where
  firstAddr := hd.firstAddr
  startInst := by
    rw [hd.startInst, hd.firstAddr]
    exact congrArg elf.fetch (low_ofLow first).symm
  terminalInst := by
    rw [hd.terminalInst, hd.lastAddr]
    exact congrArg elf.fetch (low_ofLow last).symm
  type := by
    rw [hd.type, hd.terminalInst]
    exact htype

theorem Truthful.renamed {x : DWord} (ht : Truthful elf x b) (bb : DWord) :
    Truthful elf x { b with basicBlockAddress := bb } :=
  ⟨ht.firstAddr, ht.startInst, ht.terminalInst, ht.type⟩

theorem BlockWalk.of_closed {a q : BitVec 32} {ps : List Piece} {e : BlockEnd}
    (hwalk : BlockWalk h r elf a ps q e) (he : e = .stopped ∨ e = .segmented) :
    LeavesBy (e.type (elf.fetch q)) (elf.fetch q) := by
  induction hwalk with
  | straight _ _ ih => exact ih he
  | stopped _ hw => exact leavesBy_exitType hw
  | segmented hne _ hw => exact ⟨hne, hw⟩
  | pre | exhausted | endless => rcases he with he | he <;> cases he

theorem BlockWalk.of_cut {a q : BitVec 32} {ps : List Piece} {e : BlockEnd}
    (hwalk : BlockWalk h r elf a ps q e) (he : e = .pre) (hne : ps ≠ []) :
    InBlock r elf (q - 4) := by
  induction hwalk with
  | @straight pc q ps e hin hrest ih =>
      by_cases hps : ps = []
      · subst hps
        cases hrest with
        | pre =>
            rw [BitVec.add_sub_cancel]
            exact hin
        | exhausted | endless => cases he
      · exact ih he hps
  | stopped | segmented | exhausted | endless => cases he
  | pre => exact absurd rfl hne

theorem leavesBy_nextInstType {w : Word} (hne : w ≠ 0) : LeavesBy (nextInstType w) w := by
  rw [nextInstType]
  split
  · exact leavesBy_exitType (by assumption)
  · exact ⟨hne, by assumption⟩

theorem GuestBlock.truthful (hb : GuestBlock h r elf b) : Truthful elf b.firstAddr b := by
  cases hb with
  | closed hwalk he hdesc =>
      rw [hdesc.firstAddr]
      exact hdesc.truthful (hwalk.of_closed he)
  | cut hwalk hne hdesc =>
      have hin := hwalk.of_cut rfl hne
      rw [hdesc.firstAddr]
      exact hdesc.truthful ⟨hin.ne_zero, hin.not_terminal⟩
  | pre hne hpre hdesc =>
      rw [hdesc.firstAddr]
      exact hdesc.truthful (leavesBy_nextInstType hne)

end Truth

/-! ### The successor -/

/-- Where `stub` goes on behind the instruction of the text at `pc`: `f` are
the registers it is given, and `taken` says whether a branch is taken. -/
def ElfReader.goesOn (elf : ElfReader) (pc : BitVec 32) (f : TrapFrame) (taken : DWord) : DWord :=
  let w := elf.fetch pc
  if w.opcode = Opcode.branch then
    (pc + if taken ≠ 0 then w.immB.signExtend 32 else 4).signExtend 64
  else if w.opcode = Opcode.jal then (pc + w.immJ.signExtend 32).signExtend 64
  else if w.opcode = Opcode.jalr then f w.rs1 + w.immI.signExtend 64
  else (pc + 4).signExtend 64

section GoesOn

variable {elf : ElfReader} {pc : BitVec 32} {f : TrapFrame} {taken : DWord}

theorem goesOn_branch (hop : (elf.fetch pc).opcode = Opcode.branch) : elf.goesOn pc f taken =
    (pc + if taken ≠ 0 then (elf.fetch pc).immB.signExtend 32 else 4).signExtend 64 := if_pos hop

theorem goesOn_jal (hop : (elf.fetch pc).opcode = Opcode.jal) :
    elf.goesOn pc f taken = (pc + (elf.fetch pc).immJ.signExtend 32).signExtend 64 := by
  have hbranch : (elf.fetch pc).opcode ≠ Opcode.branch := by rw [hop]; decide
  exact (if_neg hbranch).trans (if_pos hop)

theorem goesOn_jalr (hop : (elf.fetch pc).opcode = Opcode.jalr) :
    elf.goesOn pc f taken = f (elf.fetch pc).rs1 + (elf.fetch pc).immI.signExtend 64 := by
  have hbranch : (elf.fetch pc).opcode ≠ Opcode.branch := by rw [hop]; decide
  have hjal : (elf.fetch pc).opcode ≠ Opcode.jal := by rw [hop]; decide
  exact (if_neg hbranch).trans ((if_neg hjal).trans (if_pos hop))

theorem goesOn_behind (hbranch : (elf.fetch pc).opcode ≠ Opcode.branch)
    (hjal : (elf.fetch pc).opcode ≠ Opcode.jal) (hjalr : (elf.fetch pc).opcode ≠ Opcode.jalr) :
    elf.goesOn pc f taken = (pc + 4).signExtend 64 :=
  (if_neg hbranch).trans ((if_neg hjal).trans (if_neg hjalr))

/-- The `switch` chooses the successor of the instruction in the text, if the
type of the exit suits it. -/
theorem nextBlockAddr_eq_goesOn {h : Host} {r : Rail} {cb : Callbacks} {io : IoRequest → DWord}
    {d : Dispatcher} {a : DWord} {s : Successor} {type : BasicBlockType}
    (hleft : d.left h a =
      ⟨{ decodeInstruction h.junkInst (elf.fetch pc) with address := pc }, type⟩)
    (htype : LeavesBy type (elf.fetch pc)) (hassigned : type.Assigned)
    (hs : d.leave h r cb io f taken a = .returned s) :
    s.nextBlockAddr = elf.goesOn pc f taken := by
  rw [Dispatcher.leave, hleft] at hs
  cases type with
  | directBranch =>
      rcases htype with hop | hop
      · have hopcode : (decodeBtype h.junkInst (elf.fetch pc)).opcode = Op.branch := by
          rw [decodeBtype_opcode, hop]
          rfl
        simp only [successor, decodeInstruction_btype hop, hopcode, decodeBtype_imm, if_true] at hs
        cases hs
        rw [goesOn_branch hop]
        split_ifs <;> rfl
      · have hopcode : (decodeJtype h.junkInst (elf.fetch pc)).opcode ≠ Op.branch := by
          rw [decodeJtype_opcode, hop]
          decide
        simp only [successor, decodeInstruction_jtype hop, hopcode, decodeJtype_imm, if_false] at hs
        cases hs
        exact (goesOn_jal hop).symm
  | indirectBranch =>
      have hop : (elf.fetch pc).opcode = Opcode.jalr := htype
      have hdec : decodeInstruction h.junkInst (elf.fetch pc) =
          decodeItype h.junkInst (elf.fetch pc) := decodeInstruction_itype (by simp [hop])
      have hreg : (decodeItype h.junkInst (elf.fetch pc)).rs1Reg = (elf.fetch pc).rs1 := by
        rw [RvInst.rs1Reg, decodeItype_rs1]
        exact BitVec.setWidth_setWidth_of_le _ (by decide)
      simp only [successor, hdec] at hs
      cases hs
      rw [goesOn_jalr hop, ← hreg, ← signExtend_signExtend (by decide : 12 ≤ 32),
        ← decodeItype_imm h.junkInst]
      rfl
  | segmented =>
      obtain ⟨-, hw⟩ := htype
      have hbehind : elf.goesOn pc f taken = (pc + 4).signExtend 64 :=
        goesOn_behind (fun hop => hw (.inl hop)) (fun hop => hw (.inr (.inl hop)))
          fun hop => hw (.inr (.inr (.inl hop)))
      simp only [successor] at hs
      cases hs
      rw [hbehind]
  | syscall =>
      have hop : (elf.fetch pc).opcode = Opcode.system := htype
      have hbehind : elf.goesOn pc f taken = (pc + 4).signExtend 64 := by
        refine goesOn_behind ?_ ?_ ?_ <;> rw [hop] <;> decide
      simp only [successor] at hs
      rw [hbehind]
      split at hs
      · cases hs
      · cases hs
        rfl
      · cases hs
        rfl
  | functionCall => exact absurd rfl hassigned.1
  | functionReturn => exact absurd rfl hassigned.2

end GoesOn

/-! ### Traces -/

section Traces

variable {h : Host} {r : Rail} {elf : ElfReader} {b : RailBasicBlock} {n : ℕ}

/-- The instruction at which a walk has ended by itself, or has been lost. -/
theorem TraceWalk.of_ended {i : ℕ} {pc q : BitVec 32} {ps : List Piece} {e : TraceEnd}
    (hwalk : TraceWalk h r elf i pc ps q e) :
    (e = .stopped → IsTerminal (elf.fetch q)) ∧
      (e = .segmented → elf.fetch q ≠ 0 ∧ ¬ IsTerminal (elf.fetch q)) ∧
      (e = .lost → (elf.fetch q).opcode = Opcode.jal) ∧ (e = .empty → i = 0) := by
  induction hwalk with
  | straight _ _ ih => exact ⟨ih.1, ih.2.1, ih.2.2.1, fun he => absurd (ih.2.2.2 he) (by omega)⟩
  | followed _ hi _ _ ih =>
      exact ⟨ih.1, ih.2.1, ih.2.2.1, fun he => absurd (ih.2.2.2 he) (by omega)⟩
  | lost hop => exact ⟨nofun, nofun, fun _ => hop, nofun⟩
  | stopped hw => exact ⟨fun _ => hw, nofun, nofun, nofun⟩
  | segmented hne hw => exact ⟨nofun, fun _ => ⟨hne, hw⟩, nofun, nofun⟩
  | exhausted | endless => exact ⟨nofun, nofun, nofun, nofun⟩
  | empty => exact ⟨nofun, nofun, nofun, fun _ => rfl⟩

theorem TraceWalk.fetch_of_exhausted {i : ℕ} {pc q : BitVec 32} {ps : List Piece} {e : TraceEnd}
    (hwalk : TraceWalk h r elf i pc ps q e) (he : e = .exhausted) : elf.fetch q = 0 := by
  induction hwalk with
  | straight _ _ ih => exact ih he
  | followed _ _ _ _ ih => exact ih he
  | exhausted h0 => exact h0
  | lost | stopped | segmented | endless | empty => cases he

def RunsOut (h : Host) (r : Rail) (elf : ElfReader) (n : ℕ) (pc : BitVec 32) : Prop :=
  ∃ ps q, TraceWalk h r elf n pc ps q .exhausted

/-- The record of a trace is truthful if the word that was read for its first
instruction is the right one, and the trace has come to an end. -/
theorem TraceRecord.truthful {pc q : BitVec 32} {a : DWord} {c c' : CodeCache} {ps : List Piece}
    {e : TraceEnd} (hrec : TraceRecord h (elf.setProgramCounter pc) a c c' q e b)
    (hwalk : TraceWalk h r elf n (a.setWidth 32) ps q e)
    (hstart : elf.fetch pc = elf.fetch (a.setWidth 32))
    (hend : e = .stopped ∨ e = .segmented ∨ e = .lost) : Truthful elf (asInt a) b where
  firstAddr := hrec.firstAddr
  startInst := by
    rw [hrec.startInst, hrec.firstAddr, setWidth_asInt]
    exact hstart
  terminalInst := by
    rw [hrec.terminalInst, hrec.lastAddr]
    exact congrArg elf.fetch (low_ofLow q).symm
  type := by
    obtain ⟨hstopped, hsegmented, hlost, -⟩ := hwalk.of_ended
    have hterm : b.terminalInst = elf.fetch q := hrec.terminalInst
    rw [hterm]
    rcases hend with he | he | he
    · rw [hrec.type he]
      exact leavesBy_exitType (hstopped he)
    · rw [hrec.type_segmented he]
      exact hsegmented he
    · rw [hrec.type_lost he]
      exact .inr (hlost he)

theorem allocate_truthful {pc : BitVec 32} {c : CodeCache} {a x : DWord}
    (hb : (allocate h r (elf.setProgramCounter pc) c a n).2.railBasicBlocks x = some b)
    (htrace : r.traceLinkingEnabled = true → 0 < n ∧ elf.fetch pc = elf.fetch (a.setWidth 32) ∧
      ¬ RunsOut h r elf n (a.setWidth 32))
    (hfits : (allocate h r (elf.setProgramCounter pc) c a n).2.memory.length < loopFuel) :
    c.railBasicBlocks x = some b ∨ Truthful elf x b := by
  rw [allocate] at hb hfits
  by_cases hlink : r.traceLinkingEnabled = true
  · rw [if_pos hlink] at hb hfits
    obtain ⟨hn, hstart, hout⟩ := htrace hlink
    refine (allocateTrace_record hb).imp id ?_
    rintro ⟨rfl, ps, q, e, hwalk, hrec, hendless⟩
    have hwalk' := hwalk.of_setProgramCounter
    refine hrec.truthful hwalk' hstart ?_
    cases e with
    | stopped => exact .inl rfl
    | segmented => exact .inr (.inl rfl)
    | lost => exact .inr (.inr rfl)
    | exhausted => exact absurd ⟨ps, q, hwalk'⟩ hout
    | endless => exact absurd (hendless rfl) (by omega)
    | empty => exact absurd (hwalk'.of_ended.2.2.2 rfl) (by omega)
  · rw [if_neg hlink] at hb
    refine (allocateBB_record hb).imp id ?_
    rintro ⟨hblock, hfirst, -⟩
    rw [← hfirst]
    exact hblock.truthful

end Traces

/-! ### Metadata over runs -/

section Run

variable {h : Host} {r : Rail} {cb : Callbacks} {elf : ElfReader}
  {cfgGenerator : Option CfgGenerator} {l : List (Dispatcher × Event)} {d : Dispatcher}

/-- A trace is translated only while the reader stands at a word that equals
the trace's first one, and only where the trace comes to an end. -/
def TraceFaithful (h : Host) (r : Rail) (cb : Callbacks) (elf : ElfReader) (d : Dispatcher) :
    Event → Prop
  | .call io f taken a => ∀ s, d.leave h r cb io f taken a = .returned s →
      r.traceLinkingEnabled = true → d.lookedUp.cache.railBasicBlocks s.nextBlockAddr = none →
        (d.readerBehind h a).getNextInstruction = elf.fetch (s.nextBlockAddr.setWidth 32) ∧
          ¬ RunsOut h r elf 10 (s.nextBlockAddr.setWidth 32)
  | .instrument _ => True

/-- All records are truthful, but for those that looking up an address has
created. -/
def AllTruthful (elf : ElfReader) (c : CodeCache) : Prop :=
  ∀ x b, c.railBasicBlocks x = some b → b = .empty ∨ Truthful elf x b

theorem AllTruthful.lookedUp (hall : AllTruthful elf d.cache) :
    AllTruthful elf d.lookedUp.cache := by
  intro x b hb
  exact (lookedUp_record hb).elim (hall x b) .inl

theorem AllTruthful.stub {io : IoRequest → DWord} {f : TrapFrame} {taken a : DWord} {res : Resume}
    {s : Successor} {next : RailBasicBlock} (hst : StubStep h r cb io d f taken a res s next)
    (hd : d.Reads elf) (hall : AllTruthful elf d.cache)
    (hok : TraceFaithful h r cb elf d (.call io f taken a))
    (hfits : res.dispatcher.cache.memory.length < loopFuel) :
    AllTruthful elf res.dispatcher.cache := by
  refine hst.records ?_ hall.lookedUp ?_
  · rintro x b bb (rfl | htrue) hseg
    · cases hseg
    · exact .inr (htrue.renamed bb)
  · intro hnone x b hb
    obtain ⟨pc, hpc⟩ := hd.readerBehind (h := h) a
    have hmem := hst.memory_length
    rw [allocateNext_cache hst.leave, hnone, Option.isNone_none, if_pos rfl] at hmem
    rw [hpc] at hb hmem
    refine (allocate_truthful hb (fun hlink => ?_) (hmem ▸ hfits)).imp id .inr
    obtain ⟨hread, hout⟩ := hok s hst.leave hlink hnone
    rw [hpc] at hread
    exact ⟨by decide, hread, hout⟩

theorem AllTruthful.start (hentry : r.traceLinkingEnabled = true →
      ¬ RunsOut h r elf 1 (elf.entry.setWidth 32)) (f : TrapFrame)
    (hfits : (init h r cb (rootDispatcher h elf cfgGenerator) f).dispatcher.cache.memory.length <
      loopFuel) :
    AllTruthful elf (init h r cb (rootDispatcher h elf cfgGenerator) f).dispatcher.cache := by
  intro x b hb
  obtain ⟨next, -, hinit⟩ := @init_dispatcher h r cb elf f cfgGenerator
  rw [hinit] at hb hfits
  rw [memory_lookup] at hfits
  rcases lookup_record hb with hb | rfl
  · have hlow : elf.entryAddr.setWidth 32 = elf.entry.setWidth 32 := setWidth_asInt _
    refine (allocate_truthful hb (fun hlink => ?_) hfits).elim (fun hroot => ?_) .inr
    · rw [hlow]
      exact ⟨by decide, rfl, hentry hlink⟩
    · cases hroot
  · exact .inl rfl

/-- After every run that is held to the condition, every record of a block is
truthful. -/
theorem metadata_truthful (hentry : r.traceLinkingEnabled = true →
      ¬ RunsOut h r elf 1 (elf.entry.setWidth 32))
    (hrun : Run (dispatch h r cb elf cfgGenerator) (TraceFaithful h r cb elf) l d)
    (hfits : d.cache.Fits) {x : DWord} {b : RailBasicBlock}
    (hb : d.cache.railBasicBlocks x = some b) (hne : b ≠ .empty) : Truthful elf x b := by
  have hinv : d.Reads elf ∧ (d.cache.memory.length < loopFuel → AllTruthful elf d.cache) := by
    refine hrun.invariant (I := fun d => d.Reads elf ∧
      (d.cache.memory.length < loopFuel → AllTruthful elf d.cache)) ?_ ?_
    · rintro d ⟨f, rfl⟩
      exact ⟨reads_init f, AllTruthful.start hentry f⟩
    · intro d e d' ⟨hd, hall⟩ hok hstep
      refine ⟨hd.step hstep, fun hfits => ?_⟩
      have hle := memory_le_of_step hstep
      cases e with
      | instrument f =>
          obtain rfl := Option.some.inj hstep
          rw [instrument_dispatcher]
          exact (hall (by omega)).lookedUp
      | call io f taken a =>
          obtain ⟨res, hstub, rfl⟩ := Option.map_eq_some_iff.mp hstep
          obtain ⟨s, next, hst⟩ := stub_step (StubOutcome.eq_returned hstub)
          exact (hall (by omega)).stub hst hd hok hfits
  have hlt := hfits.lt_loopFuel
  exact (hinv.2 hlt x b hb).resolve_left hne

/-! Two guests with trace linking. The trace of the second block begins with
the word at which the reader has been left: the same word in one text, another
in the other. -/

/-- Two blocks that both consist of `beq x0, x0, 8`. -/
def sameWordText : ElfReader :=
  .ofWords 0x10000 [0x00000463, 0x00000013, 0x00000463, 0x00000013]

/-- `jal x0, 8; nop; ecall`, and a word the translator does not read. -/
def staleWordText : ElfReader :=
  .ofWords 0x10000 [0x0080006f, 0x00000013, 0x00000073, 0x00000013]

theorem not_runsOut_of_terminal {n : ℕ} {pc : BitVec 32} (hw : IsTerminal (elf.fetch pc))
    (hjal : (elf.fetch pc).opcode ≠ Opcode.jal) : ¬ RunsOut h r elf n pc := by
  rintro ⟨ps, q, hwalk⟩
  generalize he : TraceEnd.exhausted = e at hwalk
  cases hwalk with
  | straight hin => exact hin.not_terminal hw
  | followed hop => exact hjal hop
  | exhausted h0 =>
      rw [h0] at hw
      exact ne_zero_of_isTerminal hw rfl
  | lost | stopped | segmented | endless | empty => cases he

theorem sameWordText_truthful : ∃ (d : Dispatcher) (b : RailBasicBlock), d.cache.railBasicBlocks 0x10008 = some b ∧
    b.type = .directBranch ∧ Truthful sameWordText 0x10008 b := by
  have hfetch (pc : BitVec 32) (hpc : sameWordText.fetch pc = 0x00000463) (n : ℕ) :
      ¬ RunsOut requestedHost (Rail.plain true) sameWordText n pc :=
    not_runsOut_of_terminal (by rw [hpc]; decide) (by rw [hpc]; decide)
  have hstep : ((dispatch requestedHost (Rail.plain true) idleCallbacks sameWordText none).step
      (started (Rail.plain true) sameWordText) (leaving 1 0x10000)).bind (fun d =>
        (d.cache.railBasicBlocks 0x10008).map fun b => (d.cache.memory.length, b.type)) =
      some (44, .directBranch) := by decide +kernel
  obtain ⟨d, hd, hfacts⟩ := Option.bind_eq_some_iff.mp hstep
  obtain ⟨b, hb, hfacts⟩ := Option.map_eq_some_iff.mp hfacts
  obtain ⟨hlen, htype⟩ := Prod.mk.inj hfacts
  have hok : TraceFaithful requestedHost (Rail.plain true) idleCallbacks sameWordText
      (started (Rail.plain true) sameWordText) (leaving 1 0x10000) := by
    intro s hs _ _
    have hnext : ((started (Rail.plain true) sameWordText).leave requestedHost (Rail.plain true)
        idleCallbacks (fun _ => 0) (fun _ => 0) 1 0x10000).toOption.map (·.nextBlockAddr) =
        some 0x10008 := by decide +kernel
    rw [hs] at hnext
    have haddr : s.nextBlockAddr = 0x10008 := Option.some.inj hnext
    rw [haddr]
    exact ⟨by decide +kernel, hfetch _ (by decide +kernel) _⟩
  refine ⟨d, b, hb, htype, metadata_truthful (fun _ => hfetch _ (by decide +kernel) _)
    ((run_started _ _ _).next hok hd) ?_ hb ?_⟩
  · rw [CodeCache.Fits, hlen]
    decide
  · rintro rfl
    cases htype

/-- `allocateTrace` reads the first word before it sets the program counter, so
the record of the second block begins with the jump that led to it. -/
theorem staleWordText_startInst : ∃ l d b,
    Run (dispatch requestedHost (Rail.plain true) idleCallbacks staleWordText none) Any l d ∧
      d.cache.Fits ∧ d.cache.railBasicBlocks 0x10008 = some b ∧ b ≠ .empty ∧
      b.firstAddr = 0x10008 ∧ b.startInst = 0x0080006f ∧
      staleWordText.fetch 0x10008 = 0x00000073 ∧ ¬ Truthful staleWordText 0x10008 b := by
  have hstep : ((dispatch requestedHost (Rail.plain true) idleCallbacks staleWordText none).step
      (started (Rail.plain true) staleWordText) (leaving 1 0x10000)).bind (fun d =>
        (d.cache.railBasicBlocks 0x10008).map fun b =>
          (d.cache.memory.length, b.firstAddr, b.startInst)) =
      some (27, 0x10008, 0x0080006f) := by decide +kernel
  obtain ⟨d, hd, hfacts⟩ := Option.bind_eq_some_iff.mp hstep
  obtain ⟨b, hb, hfacts⟩ := Option.map_eq_some_iff.mp hfacts
  obtain ⟨hlen, hfacts⟩ := Prod.mk.inj hfacts
  obtain ⟨hfirst, hstart⟩ := Prod.mk.inj hfacts
  have hfetch : staleWordText.fetch 0x10008 = 0x00000073 := by decide +kernel
  refine ⟨_, d, b, (run_started _ _ _).next trivial hd, ?_, hb, ?_, hfirst, hstart, hfetch,
    fun htrue => ?_⟩
  · rw [CodeCache.Fits, hlen]
    decide
  · rintro rfl
    cases hstart
  · have hword := htrue.startInst
    rw [hstart, hfirst] at hword
    exact absurd (hword.trans hfetch) (by decide)

end Run

end RailTranslator
