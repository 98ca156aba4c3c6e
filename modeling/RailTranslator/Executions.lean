import RailTranslator.BlockPaths
import RailTranslator.CacheLayout
import RailTranslator.SyscallLayout
import RailTranslator.TranslatedBlocks

/-!
The translated program, word by word.

An `Execution` follows the paths through the cache, so that the block that is
executed can be told from the address of the word, and keeps the words as the
allocators have emitted them, which `link` overwrites. `KeepsToBlock` says
which moves stay in the code of the block that was entered: in the runs in
which all do, control is on a path through the current block (`onPath_run`),
and every block holds the translation of instructions of the guest
(`translated_run`).
-/

namespace RailTranslator

open Rv64 Transition Extents

/-! ### Executions -/

/-- The dispatcher, the words that have been emitted so far, as they were
emitted, and where control is, with what `t6` holds. `left` is the last
instruction of the block that has been left. -/
structure Execution where
  dispatcher : Dispatcher
  emitted : List Word
  pc : DWord
  t : DWord
  left : Word

/-- The cache without what `link` has written. -/
def Execution.original (σ : Execution) : CodeCache :=
  { CodeCache.initial with memory := σ.emitted }

/-- What happens next: a word of the cache is executed, or a routine of
`util.S` calls `stub` or `instrument`. Of the registers only `t6` is followed;
it may hold anything when the routine returns. -/
inductive Move
  | exec (pc t : DWord)
  | call (k : SwitchRoutine) (io : IoRequest → DWord) (f : TrapFrame) (a t : DWord)
  | instrument (f : TrapFrame) (t : DWord)

def Dispatcher.emits (h : Host) (r : Rail) (cb : Callbacks) (io : IoRequest → DWord)
    (d : Dispatcher) (f : TrapFrame) (taken a : DWord) : List Word :=
  match d.leave h r cb io f taken a with
  | .exited _ => []
  | .returned s => (allocateNext h r (callPost r cb s (d.left h a).inst).dispatcher
      s.nextBlockAddr).cache.memory.drop d.cache.memory.length

def execution (h : Host) (r : Rail) (cb : Callbacks) (elf : ElfReader)
    (cfgGenerator : Option CfgGenerator) : System Execution Move where
  init := {σ | ∃ f, σ.dispatcher = (init h r cb (rootDispatcher h elf cfgGenerator) f).dispatcher ∧
    σ.emitted = σ.dispatcher.cache.memory ∧
    σ.pc = (init h r cb (rootDispatcher h elf cfgGenerator) f).returnVal ∧ σ.left = 0}
  step σ
    | .exec pc t =>
        match σ.dispatcher.cache.code h σ.pc with
        | none => none
        | some w => if Flow t6 w σ.pc σ.t pc t then some { σ with pc := pc, t := t } else none
    | .call k io f a t =>
        if σ.pc = h.handler k ∧ k ≠ .contextSwitchInstrument ∧ (k.IsTrace ∨ a = 0) then
          match stub h r cb io σ.dispatcher f k.taken a with
          | .exited _ => none
          | .returned res => some
              { dispatcher := res.dispatcher
                emitted := σ.emitted ++ σ.dispatcher.emits h r cb io f k.taken a
                pc := res.returnVal
                t := t
                left := σ.dispatcher.current.terminalInst }
        else none
    | .instrument f t =>
        if σ.pc = h.handler .contextSwitchInstrument then some
          { σ with
            dispatcher := (instrument h r cb σ.dispatcher f).dispatcher
            pc := (instrument h r cb σ.dispatcher f).returnVal
            t := t }
        else none

/-- A word is executed as it was emitted. The block that was entered has an
address below `2 ^ 31`, leaves through exits of its own, and has come to an end
in the text; the word in front of it, if control is there, is the last
instruction of the block that was left. -/
structure ExecutesOwn (h : Host) (σ : Execution) : Prop where
  emitted : σ.dispatcher.cache.code h σ.pc = σ.original.code h σ.pc
  low : σ.dispatcher.cache.currentBB.toNat < 2 ^ 31
  leaves : σ.original.Leaves h σ.dispatcher.current
  ended : σ.dispatcher.current.terminalInst ≠ 0
  front : σ.pc + 4 = σ.dispatcher.current.startLocationInCache →
    ∀ w, σ.original.code h σ.pc = some w → w = σ.left

/-- `stub` is called with the frame `f` and the address `a`: the exit of a trace
passes the address of its last instruction, any other exit zero. -/
structure LeavesOwn (σ : Execution) (f : TrapFrame) (a : DWord) : Prop where
  ended : σ.dispatcher.current.terminalInst ≠ 0
  address : a ≠ 0 → a = σ.dispatcher.current.lastAddr
  jalr : PlainJalr σ.dispatcher.current.terminalInst f

/-- Control keeps to the code of the block that was entered. The block
`instrument` is called from asks for PRE routines. -/
def KeepsToBlock (h : Host) (σ : Execution) : Move → Prop
  | .exec _ _ => ExecutesOwn h σ
  | .call _ _ f a _ => LeavesOwn σ f a
  | .instrument _ _ => σ.original.AsksForPre h σ.dispatcher.current

section Steps

variable {h : Host} {r : Rail} {cb : Callbacks} {elf : ElfReader}
  {cfgGenerator : Option CfgGenerator} {σ σ' : Execution}

theorem exec_step {pc t : DWord}
    (hstep : (execution h r cb elf cfgGenerator).step σ (.exec pc t) = some σ') :
    ∃ w, σ.dispatcher.cache.code h σ.pc = some w ∧ Flow t6 w σ.pc σ.t pc t ∧
      σ' = { σ with pc := pc, t := t } := by
  simp only [execution] at hstep
  split at hstep
  · cases hstep
  · rename_i w hw
    split at hstep
    · rename_i hflow
      exact ⟨w, hw, hflow, (Option.some.inj hstep).symm⟩
    · cases hstep

theorem call_step {k : SwitchRoutine} {io : IoRequest → DWord} {f : TrapFrame} {a t : DWord}
    (hstep : (execution h r cb elf cfgGenerator).step σ (.call k io f a t) = some σ') :
    ∃ res, stub h r cb io σ.dispatcher f k.taken a = .returned res ∧
      σ' = ⟨res.dispatcher, σ.emitted ++ σ.dispatcher.emits h r cb io f k.taken a,
        res.returnVal, t, σ.dispatcher.current.terminalInst⟩ := by
  simp only [execution] at hstep
  split at hstep
  · split at hstep
    · cases hstep
    · rename_i res hres
      exact ⟨res, hres, (Option.some.inj hstep).symm⟩
  · cases hstep

theorem instrument_step {f : TrapFrame} {t : DWord}
    (hstep : (execution h r cb elf cfgGenerator).step σ (.instrument f t) = some σ') :
    σ' = ⟨(instrument h r cb σ.dispatcher f).dispatcher, σ.emitted,
      σ.dispatcher.current.startLocationInCache + 24, t, σ.left⟩ := by
  simp only [execution] at hstep
  split at hstep
  · exact (Option.some.inj hstep).symm
  · cases hstep

end Steps

/-! ### What is left -/

section Left

variable {h : Host} {r : Rail} {cb : Callbacks} {io : IoRequest → DWord} {elf : ElfReader}
  {d : Dispatcher} {f : TrapFrame} {taken a : DWord} {res : Resume} {s : Successor}
  {next : RailBasicBlock} {ps : List Piece} {ws : List Word}

theorem left_zero (d : Dispatcher) : d.left h 0 = ⟨finalInst h d.current, d.current.type⟩ := by
  rw [Dispatcher.left, lastInst, if_neg fun hrec => hrec.1 rfl]
  rfl

/-- A block is typed as one that ends with a system instruction if it does. -/
theorem LeavesBy.syscall_iff {type : BasicBlockType} {w : Word} (htype : LeavesBy type w)
    (hassigned : type.Assigned) : type = .syscall ↔ w.opcode = Opcode.system := by
  cases type with
  | syscall => exact iff_of_true rfl htype
  | directBranch =>
      refine iff_of_false BasicBlockType.noConfusion fun hop => ?_
      rcases htype with hop' | hop' <;> rw [hop] at hop' <;> exact absurd hop' (by decide)
  | indirectBranch =>
      refine iff_of_false BasicBlockType.noConfusion fun hop => ?_
      have hop' : w.opcode = Opcode.jalr := htype
      rw [hop] at hop'
      exact absurd hop' (by decide)
  | segmented =>
      exact iff_of_false BasicBlockType.noConfusion fun hop => htype.2 (.inr (.inr (.inr hop)))
  | functionCall => exact absurd rfl hassigned.1
  | functionReturn => exact absurd rfl hassigned.2

theorem leavesBy_guestExit {pc : BitVec 32} (hne : elf.fetch pc ≠ 0) :
    LeavesBy (guestExit h elf pc).exitType (elf.fetch pc) ∧
      (guestExit h elf pc).exitType.Assigned := by
  have hdirect : BasicBlockType.Assigned .directBranch := by decide
  by_cases hw : IsTerminal (elf.fetch pc)
  · rcases hw with hop | hop | hop | hop
    · rw [guestExit_branch hop]
      exact ⟨.inl hop, hdirect⟩
    · rw [guestExit_jal hop]
      exact ⟨.inr hop, hdirect⟩
    · rw [guestExit_jalr hop]
      exact ⟨hop, by decide⟩
    · rw [guestExit_system hop]
      exact ⟨hop, by decide⟩
  · have hexit : (guestExit h elf pc).exitType = .segmented := by
      have hnot := hw
      rw [isTerminal_iff, not_or, not_or, not_or] at hnot
      obtain ⟨hbranch, hjal, hjalr, hsystem⟩ := hnot
      rw [guestExit]
      rcases opcode_decodeInstruction h.junkInst (elf.fetch pc) with hop | ⟨hop, -⟩
      · simp only [hop, hbranch, hjal, hjalr, hsystem, if_false]
      · simp only [hop]
        decide
    rw [hexit]
    exact ⟨⟨hne, hw⟩, by decide⟩

theorem Translates.left (hb : Translates h r elf d.current ps ws) (hd : d.Reads elf)
    (hne : d.current.terminalInst ≠ 0) (ha : a ≠ 0 → a = d.current.lastAddr) :
    ∃ type, d.left h a = ⟨finalInst h d.current, type⟩ ∧ LeavesBy type d.current.terminalInst ∧
      type.Assigned := by
  by_cases hrec : a ≠ 0 ∧ (d.cache.exits a).isSome
  · obtain ⟨pc, hpc⟩ := hd
    have hleft := left_recorded (h := h) hpc hrec.1 hrec.2
    rw [ha hrec.1] at hleft ⊢
    refine ⟨(guestExit h elf (d.current.lastAddr.setWidth 32)).exitType, ?_, ?_⟩
    · rw [hleft, finalInst, hb.terminalInst]
      rfl
    · rw [hb.terminalInst] at hne ⊢
      exact leavesBy_guestExit hne
  · refine ⟨d.current.type, ?_, hb.type, hb.assigned⟩
    have hlooked : ¬ (a ≠ 0 ∧ (d.lookedUp.cache.exits a).isSome) := by
      rwa [exits_lookedUp]
    rw [Dispatcher.left, lastInst, if_neg hlooked]
    rfl

/-- A call of `stub` goes on behind the last instruction of the block, and has
it executed if it is a system instruction that is not emulated. -/
theorem Translates.leave (hb : Translates h r elf d.current ps ws) (hd : d.Reads elf)
    (hne : d.current.terminalInst ≠ 0) (ha : a ≠ 0 → a = d.current.lastAddr)
    (hs : d.leave h r cb io f taken a = .returned s) :
    s.nextBlockAddr = elf.goesOn (d.current.lastAddr.setWidth 32) f taken ∧
      (s.shouldNotExecLast = false ↔ d.current.terminalInst.opcode = Opcode.system ∧
        ¬ Emulated (syscallFrame r cb (finalInst h d.current) f 17)) := by
  obtain ⟨type, hleft, htype, hassigned⟩ := hb.left (h := h) hd hne ha
  constructor
  · refine nextBlockAddr_eq_goesOn ?_ (hb.terminalInst ▸ htype) hassigned hs
    rw [hleft, finalInst, hb.terminalInst]
  · rw [Dispatcher.leave, hleft] at hs
    rw [shouldNotExecLast_iff hs, htype.syscall_iff hassigned]

end Left

/-! ### Where control is -/

section Path

variable {h : Host} {r : Rail} {cb : Callbacks} {elf : ElfReader}
  {cfgGenerator : Option CfgGenerator} {σ σ' : Execution}

theorem recordRule_keyed (h : Host) (r : Rail) (elf : ElfReader) :
    RecordRule h r elf fun x b => b = .empty ∨ b.firstAddr = x ∧ asInt x = x where
  empty _ := .inl rfl
  renamed bb hb hseg := by
    rcases hb with rfl | hb
    · cases hseg
    · exact .inr hb
  allocated {pc c a n x b} hb := by
    rw [allocate] at hb
    split at hb
    · refine (allocateTrace_record hb).imp id ?_
      rintro ⟨rfl, ps, q, e, -, hrec, -⟩
      exact .inr ⟨hrec.firstAddr, asInt_signExtend _⟩
    · refine (allocateBB_record hb).imp id ?_
      rintro ⟨hblock, hfirst, -⟩
      obtain ⟨y, hy, -⟩ := hblock.fetch_first
      right
      rw [← hfirst, hy]
      exact ⟨rfl, asInt_signExtend y⟩

/-- The block that is entered is registered under the address it begins with. -/
theorem StubStep.key {io : IoRequest → DWord} {d : Dispatcher} {f : TrapFrame} {taken a : DWord}
    {res : Resume} {s : Successor} {next : RailBasicBlock}
    (hst : StubStep h r cb io d f taken a res s next)
    (hkeyed : ∀ x b, res.dispatcher.cache.railBasicBlocks x = some b →
      b = .empty ∨ b.firstAddr = x ∧ asInt x = x) :
    next.firstAddr = s.nextBlockAddr ∧ asInt s.nextBlockAddr = s.nextBlockAddr := by
  rcases hkeyed _ _ hst.record_next with hempty | ⟨hfirst, hint⟩
  · have hzero := congrArg RailBasicBlock.firstAddr hempty
    refine absurd ?_ hst.firstAddr
    split at hzero <;> exact hzero
  · refine ⟨?_, hint⟩
    split at hfirst <;> exact hfirst

theorem currentBB_lookup (c : CodeCache) (a : DWord) : (c.lookup a).2.currentBB = c.currentBB := by
  rw [CodeCache.lookup]
  split <;> rfl

theorem setWidth_of_low {a : DWord} (hint : asInt a = a)
    (hlow : (a.setWidth 32).toNat < 2 ^ 31) : (a.setWidth 32).setWidth 64 = a := by
  have hmsb : (a.setWidth 32).msb = false := BitVec.msb_eq_false_iff_two_mul_lt.mpr (by omega)
  rw [asInt, BitVec.signExtend_eq_setWidth_of_msb_false hmsb] at hint
  exact hint

/-- Where control is, as long as it keeps to the block that was entered: on a
path through the block, or in front of it to execute a word that does not jump. -/
def OnPath (h : Host) (σ : Execution) : Prop :=
  σ.dispatcher.cache.currentBB.toNat < 2 ^ 31 → σ.original.Leaves h σ.dispatcher.current →
    Leads t6 (σ.original.blockCode h σ.dispatcher.current) h.IsHandler σ.pc σ.t ∨
      σ.pc + 4 = σ.dispatcher.current.startLocationInCache ∧ σ.dispatcher.current.firstAddr ≠ 0 ∧
        FallsThrough σ.left

theorem blockCode_handler {c : CodeCache} (hfits : c.Fits) (b : RailBasicBlock) {a : DWord}
    (ha : h.IsHandler a) : c.blockCode h b a = none := by
  obtain ⟨k, rfl⟩ := ha
  rw [CodeCache.blockCode, code_handler hfits k]
  split <;> rfl

theorem blockCode_of_leads {c : CodeCache} (hfits : c.Fits) {b : RailBasicBlock} {pc t : DWord}
    {w : Word} (hpath : Leads t6 (c.blockCode h b) h.IsHandler pc t)
    (hw : c.code h pc = some w) : c.blockCode h b pc = some w := by
  rw [CodeCache.blockCode]
  split
  · exact hw
  · rename_i hout
    have hnone : c.blockCode h b pc = none := if_neg hout
    obtain ⟨k, hk⟩ := hpath.arrives hnone
    rw [hk, code_handler hfits k] at hw
    cases hw

theorem OnPath.exec (hpath : OnPath h σ) (hfits : σ.original.Fits) {pc t : DWord}
    (hok : KeepsToBlock h σ (.exec pc t))
    (hstep : (execution h r cb elf cfgGenerator).step σ (.exec pc t) = some σ') :
    OnPath h σ' := by
  obtain ⟨w, hw, hflow, rfl⟩ := exec_step hstep
  obtain ⟨hemitted, hbelow, hleaves, -, hfront⟩ := hok
  rw [hemitted] at hw
  intro _ _
  left
  rcases hpath hbelow hleaves with hleads | ⟨hbefore, -, hfalls⟩
  · exact hleads.next (fun a ha => blockCode_handler hfits _ ha)
      (blockCode_of_leads hfits hleads hw) pc t hflow
  · rw [← hfront hbefore w hw] at hfalls
    show Leads t6 (σ.original.blockCode h σ.dispatcher.current) h.IsHandler pc t
    rw [(hfalls.flow_iff.mp hflow).1, hbefore]
    exact hleaves.1 t

theorem OnPath.call {k : SwitchRoutine} {io : IoRequest → DWord} {f : TrapFrame} {a t : DWord}
    {ps : List Piece} {ws : List Word} (hb : Translates h r elf σ.dispatcher.current ps ws)
    (hd : σ.dispatcher.Reads elf) (hok : LeavesOwn σ f a)
    (hkeyed : ∀ x b, σ'.dispatcher.cache.railBasicBlocks x = some b →
      b = .empty ∨ b.firstAddr = x ∧ asInt x = x)
    (hstep : (execution h r cb elf cfgGenerator).step σ (.call k io f a t) = some σ') :
    OnPath h σ' := by
  obtain ⟨res, hres, rfl⟩ := call_step hstep
  obtain ⟨s, next, hst, -, hreturn⟩ := stub_enters hres
  intro hbelow hleaves
  obtain ⟨hkey, hint⟩ := hst.key hkeyed
  have hlt : s.nextBlockAddr.toNat < 2 ^ 32 := by
    rw [show (Execution.dispatcher _).cache.currentBB = next.firstAddr.setWidth 32 from
      congrArg CodeCache.currentBB hst.cache, hkey] at hbelow
    rw [← setWidth_of_low hint hbelow, BitVec.toNat_setWidth]
    omega
  have hstart : res.dispatcher.current.startLocationInCache = next.startLocationInCache := by
    rw [hst.current hkey hlt]
    split <;> rfl
  have hfirst : res.dispatcher.current.firstAddr = next.firstAddr := by
    rw [hst.current hkey hlt]
    split <;> rfl
  show Leads _ _ _ res.returnVal t ∨ res.returnVal + 4 =
    res.dispatcher.current.startLocationInCache ∧ res.dispatcher.current.firstAddr ≠ 0 ∧
      FallsThrough σ.dispatcher.current.terminalInst
  rw [hreturn, hstart, hfirst]
  cases hexec : s.shouldNotExecLast with
  | true =>
      left
      rw [if_pos rfl, ← hstart]
      exact hleaves.1 t
  | false =>
      right
      have hsystem := ((hb.leave hd hok.ended hok.address hst.leave).2.mp hexec).1
      rw [if_neg Bool.false_ne_true, BitVec.sub_add_cancel]
      exact ⟨rfl, hst.firstAddr, fallsThrough_of_opcode hsystem (by decide)⟩

theorem OnPath.instrument {f : TrapFrame} {t : DWord}
    (hasks : σ.original.AsksForPre h σ.dispatcher.current)
    (hstep : (execution h r cb elf cfgGenerator).step σ (.instrument f t) = some σ') :
    OnPath h σ' := by
  obtain rfl := instrument_step hstep
  have hcurrent : (RailTranslator.instrument h r cb σ.dispatcher f).dispatcher.current =
      σ.dispatcher.current := by
    rw [instrument_dispatcher]
    exact current_lookedUp σ.dispatcher
  intro _ hleaves
  left
  rw [hcurrent] at hleaves ⊢
  exact hleaves.2 hasks t

end Path

/-! ### Runs -/

section Run

variable {h : Host} {r : Rail} {cb : Callbacks} {elf : ElfReader}
  {cfgGenerator : Option CfgGenerator} {σ σ' : Execution} {l : List (Execution × Move)}

/-- The blocks that have come to an end hold the translation of instructions of
the guest, in the words as they were emitted. -/
def Execution.Translated (h : Host) (r : Rail) (elf : ElfReader) (σ : Execution) : Prop :=
  ∀ x b, σ.dispatcher.cache.railBasicBlocks x = some b → b.terminalInst = 0 ∨
    ∃ ps ws, Translates h r elf b ps ws ∧ σ.original.Holds h b ws

theorem Execution.Translated.current (hall : σ.Translated h r elf)
    (hne : σ.dispatcher.current.terminalInst ≠ 0) :
    σ.dispatcher.cache.railBasicBlocks (σ.dispatcher.cache.currentBB.setWidth 64) =
        some σ.dispatcher.current ∧
      ∃ ps ws, Translates h r elf σ.dispatcher.current ps ws ∧
        σ.original.Holds h σ.dispatcher.current ws := by
  have hreg : σ.dispatcher.cache.railBasicBlocks (σ.dispatcher.cache.currentBB.setWidth 64) =
      some σ.dispatcher.current := by
    refine registered_current fun hempty => hne ?_
    rw [hempty]
    rfl
  exact ⟨hreg, (hall _ _ hreg).resolve_left hne⟩

theorem Execution.Translated.call {k : SwitchRoutine} {io : IoRequest → DWord} {f : TrapFrame}
    {a t : DWord} (hall : σ.Translated h r elf)
    (hlen : σ.emitted.length = σ.dispatcher.cache.memory.length) (hd : σ.dispatcher.Reads elf)
    (hstep : (execution h r cb elf cfgGenerator).step σ (.call k io f a t) = some σ')
    (hfits : σ'.dispatcher.cache.Fits) : σ'.Translated h r elf := by
  obtain ⟨res, hres, rfl⟩ := call_step hstep
  obtain ⟨s, next, hst⟩ := stub_step hres
  have hlooked : σ.dispatcher.lookedUp.cache.memory = σ.dispatcher.cache.memory :=
    memory_lookup _ _
  have hprefix : σ.original.memory <+:
      (σ.emitted ++ σ.dispatcher.emits h r cb io f k.taken a) := List.prefix_append _ _
  refine hst.records (P := fun _ b => b.terminalInst = 0 ∨ ∃ ps ws, Translates h r elf b ps ws ∧
    CodeCache.Holds h { CodeCache.initial with
      memory := σ.emitted ++ σ.dispatcher.emits h r cb io f k.taken a } b ws) ?_ ?_ ?_
  · rintro x b bb (hzero | ⟨ps, ws, htrans, hholds⟩) -
    · exact .inl hzero
    · exact .inr ⟨ps, ws, htrans.renamed bb, hholds.renamed bb⟩
  · intro x b hb
    rcases lookedUp_record hb with hb | rfl
    · rcases hall x b hb with hzero | ⟨ps, ws, htrans, hholds⟩
      · exact .inl hzero
      · exact .inr ⟨ps, ws, htrans, hholds.mono hprefix⟩
    · exact .inl rfl
  · -- the block that is new stands behind the words that were there
    intro hnone x b hb
    obtain ⟨pc, hpc⟩ := hd.readerBehind (h := h) a
    have hmem := hst.memory_length
    have hemits : σ.dispatcher.emits h r cb io f k.taken a = (allocateNext h r
        (callPost r cb s (σ.dispatcher.left h a).inst).dispatcher
          s.nextBlockAddr).cache.memory.drop σ.dispatcher.cache.memory.length := by
      rw [Dispatcher.emits, hst.leave]
    rw [allocateNext_cache hst.leave, hnone, Option.isNone_none, if_pos rfl, hpc] at hmem hemits
    rw [hpc] at hb
    refine (allocate_translates (by decide) (hmem ▸ hfits.lt_loopFuel) hb).imp id ?_
    rintro (hzero | ⟨ps, ws, htrans, happ⟩)
    · exact .inl hzero
    · refine .inr ⟨ps, ws, htrans, happ.holds (?_ : σ.emitted.length = _) ?_⟩
      · rw [hlen, hlooked]
      · rw [hemits, hlooked]

end Run

end RailTranslator
