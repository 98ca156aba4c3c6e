import RailTranslator.Records
import RailTranslator.Registration

/-!
Blocks and the instructions they cover.

A routine is handed what the dispatcher decodes at the two ends of a block.
This module relates that to the guest's text: which instructions a block that
`allocateBB` has made covers, what is decoded at its last one, and what a call
of `stub` adds to the log of calls in the mode without traces.
-/

namespace RailTranslator

open Rv64 Transition

/-! ### What is decoded -/

def guestInst (h : Host) (elf : ElfReader) (pc : BitVec 32) : RvInst :=
  { decodeInstruction h.junkInst (elf.fetch pc) with address := pc }

def finalInst (h : Host) (b : RailBasicBlock) : RvInst :=
  { decodeInstruction h.junkInst b.terminalInst with address := b.lastAddr.setWidth 32 }

section Decode

variable (junk : RvInst) (w : Word)

/-- The allocators look at the type of an opcode, the dispatcher at the decoded
type. -/
theorem type_decodeInstruction : (decodeInstruction junk w).type = getType (opcodeOf w) := by
  rw [decodeInstruction, getType]
  split_ifs <;> rfl

theorem opcode_decodeInstruction : (decodeInstruction junk w).opcode = opcodeOf w ∨
    (decodeInstruction junk w).opcode = 0 ∧ opcodeOf w ≠ Op.load ∧ opcodeOf w ≠ Op.store := by
  rw [decodeInstruction]
  split_ifs with hr hi hs hu hb hj
  · exact .inl rfl
  · exact .inl rfl
  · exact .inl rfl
  · exact .inl rfl
  · exact .inl rfl
  · exact .inl rfl
  · exact .inr ⟨rfl, fun hop => hi (.inr (.inr (.inr (.inl hop)))), hs⟩

theorem access_decodeInstruction :
    ((decodeInstruction junk w).opcode = Op.load ∨ (decodeInstruction junk w).opcode = Op.store) ↔
      (opcodeOf w = Op.load ∨ opcodeOf w = Op.store) := by
  rcases opcode_decodeInstruction junk w with hop | ⟨hop, hload, hstore⟩
  · rw [hop]
  · rw [hop]
    constructor
    · rintro (h0 | h0) <;> exact absurd h0 (by decide)
    · rintro (h0 | h0)
      · exact absurd h0 hload
      · exact absurd h0 hstore

theorem getType_ne_memAccessType (opcode : BitVec 32) : getType opcode ≠ .memAccessType := by
  rw [getType]
  split_ifs <;> decide

end Decode

/-! ### The instructions of a block -/

def addressesFrom (a : BitVec 32) : ℕ → List (BitVec 32)
  | 0 => []
  | n + 1 => a :: addressesFrom (a + 4) n

def RailBasicBlock.covered (b : RailBasicBlock) : List (BitVec 32) :=
  addressesFrom (b.firstAddr.setWidth 32) ((b.lastAddr - b.firstAddr).toNat / 4 + 1)

def ElfReader.InRange (elf : ElfReader) : Prop := ∀ pc, elf.fetch pc ≠ 0 → pc.toNat < 2 ^ 31

/-- The instructions of the block that a call of `stub` leaves. Looking up an
address creates an empty record, which is no block. -/
def exitedInsts (h : Host) (elf : ElfReader) : Dispatcher × Event → List RvInst
  | (d, .call _ _ _ _) =>
      if d.current = .empty then [] else d.current.covered.map (guestInst h elf)
  | (_, .instrument _) => []

theorem inRange_ofWords {start : BitVec 32} {words : List Word} (hne : words ≠ [])
    (hend : start.toNat + 4 * words.length ≤ 2 ^ 31) :
    (ElfReader.ofWords start words).InRange := by
  intro pc hfetch
  have hpos := List.length_pos_iff.mpr hne
  have hlen : (ElfReader.ofWords start words).textSection.length = 4 * words.length := by
    simp [ElfReader.ofWords, List.length_flatMap, Nat.mul_comm]
  have hoffset : ((pc - start).signExtend 64).ult (BitVec.ofNat 64 (4 * words.length) - 4) = true := by
    by_contra hout
    rw [← hlen] at hout
    exact hfetch (if_neg hout)
  rw [BitVec.ult, decide_eq_true_eq] at hoffset
  have hmsb : (pc - start).msb = false := by
    by_contra hmsb
    rw [Bool.not_eq_false] at hmsb
    rw [BitVec.signExtend_eq_not_setWidth_not_of_msb_true hmsb] at hoffset
    rw [BitVec.msb_eq_decide, decide_eq_true_eq] at hmsb
    bv_omega
  rw [BitVec.signExtend_eq_setWidth_of_msb_false hmsb] at hoffset
  bv_omega

section Covered

variable {h : Host} {r : Rail} {elf : ElfReader} {b : RailBasicBlock} {a q : BitVec 32}
  {ps : List Piece} {e : BlockEnd}

theorem BlockWalk.pcs (hwalk : BlockWalk h r elf a ps q e) :
    ps.map (·.pc) = addressesFrom a ps.length := by
  induction hwalk with
  | straight _ _ ih => rw [List.map_cons, ih, List.length_cons, addressesFrom]
  | stopped | segmented | pre | exhausted | endless => rfl

theorem BlockWalk.fetch_end (hwalk : BlockWalk h r elf a ps q e)
    (he : e = .stopped ∨ e = .segmented) : elf.fetch q ≠ 0 := by
  induction hwalk with
  | straight _ _ ih => exact ih he
  | stopped _ hw => exact ne_zero_of_isTerminal hw
  | segmented hne => exact hne
  | pre | exhausted | endless => rcases he with he | he <;> cases he

theorem BlockWalk.fetch_start (hwalk : BlockWalk h r elf a ps q e) (hne : ps ≠ []) : elf.fetch a ≠ 0 := by
  cases hwalk with
  | straight hin => exact hin.ne_zero
  | stopped _ hw => exact ne_zero_of_isTerminal hw
  | segmented hne' => exact hne'
  | pre | exhausted | endless => exact absurd rfl hne

theorem BlockWalk.toNat_end (hrange : elf.InRange) (hwalk : BlockWalk h r elf a ps q e)
    (he : e = .stopped ∨ e = .segmented) : q.toNat + 4 = a.toNat + 4 * ps.length := by
  induction hwalk with
  | @straight pc q ps e hin hrest ih =>
      have hpc := hrange pc hin.ne_zero
      have hnext : (pc + 4).toNat = pc.toNat + 4 := by bv_omega
      have hq := ih he
      rw [hnext] at hq
      rw [List.length_cons]
      omega
  | stopped | segmented => rfl
  | pre | exhausted | endless => rcases he with he | he <;> cases he

theorem Describes.covered (hrange : elf.InRange) (hwalk : BlockWalk h r elf a ps q e)
    (he : e = .stopped ∨ e = .segmented) {type : BasicBlockType}
    (hdesc : Describes elf b a q type) : b.covered = ps.map (·.pc) := by
  have hq := hrange q (hwalk.fetch_end he)
  have hend := hwalk.toNat_end hrange he
  have hpos := List.length_pos_iff.mpr (hwalk.ne_nil he)
  have ha : a.toNat < 2 ^ 31 := by omega
  have hdiff : (b.lastAddr - b.firstAddr).toNat = 4 * (ps.length - 1) := by
    have hla := toNat_signExtend hq
    have hfa := toNat_signExtend ha
    rw [hdesc.firstAddr, hdesc.lastAddr]
    generalize q.signExtend 64 = y at hla
    generalize a.signExtend 64 = x at hfa
    bv_omega
  have hlow : b.firstAddr.setWidth 32 = a := by
    rw [hdesc.firstAddr]
    exact low_ofLow a
  have hlen : 4 * (ps.length - 1) / 4 + 1 = ps.length := by omega
  rw [RailBasicBlock.covered, hdiff, hlow, hwalk.pcs, hlen]

end Covered

/-! ### Without traces -/

def Dispatcher.entering (h : Host) (r : Rail) (cb : Callbacks) (io : IoRequest → DWord)
    (d : Dispatcher) (f : TrapFrame) (taken a : DWord) : Option RailBasicBlock :=
  match d.leave h r cb io f taken a with
  | .returned s => (allocateNext h r (callPost r cb s (d.left h a).inst).dispatcher
      s.nextBlockAddr).cache.railBasicBlocks s.nextBlockAddr
  | .exited _ => none

section NoTraces

variable {h : Host} {r : Rail} {cb : Callbacks} {io : IoRequest → DWord} {elf : ElfReader}
  {cfgGenerator : Option CfgGenerator} {ok : Dispatcher → Event → Prop}
  {l : List (Dispatcher × Event)} {d : Dispatcher} {f : TrapFrame} {taken a : DWord} {res : Resume}
  {s : Successor} {next : RailBasicBlock}

theorem exits_allocate (hlink : r.traceLinkingEnabled = false) (elf : ElfReader) (c : CodeCache)
    (a : DWord) (n : ℕ) : (allocate h r elf c a n).2.exits = c.exits := by
  rw [allocate, hlink]
  obtain ⟨_, _, _, _, -, -, hmain, hpre, -⟩ := allocateBB_walk h r elf c a
  exact hpre.exits.trans hmain.exits

theorem exits_lookedUp (d : Dispatcher) : d.lookedUp.cache.exits = d.cache.exits :=
  exits_lookup _ _

theorem StubStep.exits (hst : StubStep h r cb io d f taken a res s next)
    (hlink : r.traceLinkingEnabled = false) : res.dispatcher.cache.exits = d.cache.exits := by
  rw [hst.cache, CodeCache.exits_setCurrentBB]
  simp only [beforePre]
  rw [exits_renameSegment, exits_linkExit, allocateNext_cache hst.leave]
  split
  · rw [exits_allocate hlink, exits_lookedUp]
  · exact exits_lookedUp d

theorem exits_run (hlink : r.traceLinkingEnabled = false)
    (hrun : Run (dispatch h r cb elf cfgGenerator) ok l d) (x : DWord) : d.cache.exits x = none := by
  have hall : d.cache.exits = fun _ => none := by
    refine hrun.invariant (I := fun d => d.cache.exits = fun _ => none) ?_ ?_
    · rintro d ⟨f, rfl⟩
      obtain ⟨next, -, hinit⟩ := @init_dispatcher h r cb elf f cfgGenerator
      rw [hinit]
      exact (exits_lookup _ _).trans (exits_allocate hlink _ _ _ _)
    · intro d e d' hd _ hstep
      cases e with
      | instrument f =>
          obtain rfl := Option.some.inj hstep
          rw [instrument_dispatcher]
          exact (exits_lookedUp d).trans hd
      | call io f taken a =>
          obtain ⟨res, hstub, rfl⟩ := Option.map_eq_some_iff.mp hstep
          obtain ⟨s, next, hst⟩ := stub_step (StubOutcome.eq_returned hstub)
          exact (hst.exits hlink).trans hd
  rw [hall]

theorem left_of_exits (hd : ∀ x, d.cache.exits x = none) (a : DWord) :
    d.left h a = ⟨finalInst h d.current, d.current.type⟩ := by
  have hnone : (d.lookedUp.cache.exits a).isSome = false := by
    rw [exits_lookedUp, hd]
    rfl
  rw [Dispatcher.left, lastInst, if_neg]
  · rfl
  · rintro ⟨-, hsome⟩
    rw [hnone] at hsome
    cases hsome

theorem current_guestBlock (hlink : r.traceLinkingEnabled = false)
    (hrun : Run (dispatch h r cb elf cfgGenerator) ok l d) :
    d.current = .empty ∨ GuestBlock h r elf d.current := by
  have hrec := ((recordRule_guestBlock hlink).run hrun).2
  rw [Dispatcher.current, CodeCache.lookup]
  rcases hb : d.cache.railBasicBlocks (d.cache.currentBB.setWidth 64) with _ | b
  · exact .inl rfl
  · exact (hrec _ b hb).imp id (·.1)

theorem GuestBlock.fetch_first {b : RailBasicBlock} (hb : GuestBlock h r elf b) :
    ∃ x, b.firstAddr = x.signExtend 64 ∧ elf.fetch x ≠ 0 := by
  cases hb with
  | closed hwalk he hdesc => exact ⟨_, hdesc.firstAddr, hwalk.fetch_start (hwalk.ne_nil he)⟩
  | cut hwalk hne hdesc => exact ⟨_, hdesc.firstAddr, hwalk.fetch_start hne⟩
  | pre hne hpre hdesc => exact ⟨_, hdesc.firstAddr, hne⟩

theorem GuestBlock.ne_empty {b : RailBasicBlock} (hb : GuestBlock h r elf b) : b ≠ .empty := by
  intro hempty
  obtain ⟨x, hfirst, hne⟩ := hb.fetch_first
  have hstart := hb.truthful.startInst
  rw [hfirst, show (x.signExtend 64).setWidth 32 = x from low_ofLow x, hempty] at hstart
  exact hne hstart.symm

/-- Where the guest goes on behind a call of `stub`: at the block that has
been entered. -/
theorem StubStep.entered (hlink : r.traceLinkingEnabled = false) (hrange : elf.InRange)
    (hst : StubStep h r cb io d f taken a res s next)
    (hrun : Run (dispatch h r cb elf cfgGenerator) ok l res.dispatcher) :
    GuestBlock h r elf res.dispatcher.current ∧ s.nextBlockAddr.toNat < 2 ^ 31 ∧
      next.firstAddr = s.nextBlockAddr ∧
      res.dispatcher.current = if next.type = .segmented then
        { next with basicBlockAddress := d.current.basicBlockAddress } else next := by
  have hrec := ((recordRule_guestBlock hlink).run hrun).2 _ _ hst.record_next
  generalize hnext : (if next.type = .segmented then
    { next with basicBlockAddress := d.current.basicBlockAddress } else next) = b at hrec
  have hfirst : b.firstAddr = next.firstAddr := by
    rw [← hnext]
    split <;> rfl
  rcases hrec with rfl | ⟨hblock, hkey⟩
  · exact absurd hfirst.symm hst.firstAddr
  · obtain ⟨x, hx, hne⟩ := hblock.fetch_first
    have hlt : s.nextBlockAddr.toNat < 2 ^ 31 := by
      rw [← hkey, hx, toNat_signExtend (hrange x hne)]
      exact hrange x hne
    have hcur := hst.current (hfirst.symm.trans hkey) (by omega)
    rw [hnext] at hcur
    rw [hcur]
    exact ⟨hblock, hlt, hfirst.symm.trans hkey, rfl⟩

theorem current_lookedUp (d : Dispatcher) : d.lookedUp.current = d.current := by
  rcases hb : d.cache.railBasicBlocks (d.cache.currentBB.setWidth 64) with _ | b
  · simp [Dispatcher.current, Dispatcher.lookedUp, CodeCache.lookup, hb]
  · simp [Dispatcher.current, Dispatcher.lookedUp, CodeCache.lookup, hb]

theorem registered_current {d : Dispatcher} (hne : d.current ≠ .empty) :
    d.cache.railBasicBlocks (d.cache.currentBB.setWidth 64) = some d.current := by
  rw [Dispatcher.current, CodeCache.lookup] at hne ⊢
  split at hne
  · rename_i b hb
    rw [hb]
  · exact absurd rfl hne

theorem lookedUp_eq {d : Dispatcher} (hne : d.current ≠ .empty) : d.lookedUp = d := by
  rw [Dispatcher.lookedUp, CodeCache.lookup_of_some (registered_current hne)]

theorem instrument_of_nil (hnil : instrumentCalls h r d.current = []) :
    (instrument h r cb d f).dispatcher = d.lookedUp := by
  rw [instrument_dispatcher, hnil, List.append_nil]
  rfl

theorem railBasicBlocks_lookup_self (c : CodeCache) (x : DWord) :
    (c.lookup x).2.railBasicBlocks x = some (c.lookup x).1 := by
  rw [CodeCache.lookup]
  rcases hb : c.railBasicBlocks x with _ | b
  · exact Function.update_self x _ _
  · exact hb

theorem lookup_of_le {c : CodeCache} (hrange : elf.InRange)
    (hrec : ∀ x b, c.railBasicBlocks x = some b → b = .empty ∨ GuestBlock h r elf b ∧
      b.firstAddr = x) {x : DWord} (hx : 2 ^ 31 ≤ x.toNat) : (c.lookup x).1 = .empty := by
  rw [CodeCache.lookup]
  rcases hb : c.railBasicBlocks x with _ | b
  · rfl
  · rcases hrec x b hb with rfl | ⟨hblock, hkey⟩
    · rfl
    · obtain ⟨y, hy, hne⟩ := hblock.fetch_first
      have hlt := hrange y hne
      rw [← hkey, hy, toNat_signExtend hlt] at hx
      omega

theorem current_init (hlink : r.traceLinkingEnabled = false) (hrange : elf.InRange)
    (f : TrapFrame) :
    (init h r cb (rootDispatcher h elf cfgGenerator) f).dispatcher.current =
      ((allocateEntry h r elf).2.lookup elf.entryAddr).1 := by
  have hrec := fun x b => @RecordRule.start h r cb elf cfgGenerator _ (recordRule_guestBlock hlink)
    f x b
  obtain ⟨next, -, hinit⟩ := @init_dispatcher h r cb elf f cfgGenerator
  rw [hinit] at hrec ⊢
  have hcurrent : ((allocateEntry h r elf).2.lookup elf.entryAddr).2.currentBB =
      elf.entryAddr.setWidth 32 := by
    have halloc : (allocateEntry h r elf).2.currentBB = elf.entryAddr.setWidth 32 := by
      rw [allocateEntry, currentBB_allocate, setWidth_asInt]
    rw [CodeCache.lookup]
    split <;> exact halloc
  rw [Dispatcher.current]
  simp only [hcurrent]
  by_cases hlt : elf.entryAddr.toNat < 2 ^ 31
  · have hkey : (elf.entryAddr.setWidth 32).setWidth 64 = elf.entryAddr := by bv_omega
    rw [hkey]
    rcases hb : (allocateEntry h r elf).2.railBasicBlocks elf.entryAddr with _ | b
    · simp [CodeCache.lookup, hb]
    · simp [CodeCache.lookup, hb]
  · have hneg : 2 ^ 31 ≤ ((elf.entryAddr.setWidth 32).setWidth 64).toNat := by
      have hlow : elf.entryAddr.setWidth 32 = elf.entry.setWidth 32 := setWidth_asInt _
      rw [hlow, BitVec.toNat_setWidth, Nat.mod_eq_of_lt (by omega)]
      by_contra hsmall
      rw [ElfReader.entryAddr, asInt, toNat_signExtend (by omega)] at hlt
      omega
    rw [lookup_of_le hrange hrec hneg]
    have hrec' (x : DWord) (b : RailBasicBlock)
        (hb : (allocateEntry h r elf).2.railBasicBlocks x = some b) :
        b = .empty ∨ GuestBlock h r elf b ∧ b.firstAddr = x :=
      hrec x b (railBasicBlocks_lookup hb _)
    rw [lookup_of_le hrange hrec' (by omega)]

/-- Without a typed PRE routine a block ends by itself or behind a POST
routine. -/
theorem GuestBlock.of_not_pre {b : RailBasicBlock} (hb : GuestBlock h r elf b)
    (hpre : ∀ pc, preInstrumented r pc (elf.fetch pc) = false) :
    ∃ a q ps e, BlockWalk h r elf a ps q e ∧ (e = .stopped ∨ e = .segmented) ∧
      Describes elf b a q (e.type (elf.fetch q)) := by
  cases hb with
  | closed hwalk he hdesc => exact ⟨_, _, _, _, hwalk, he, hdesc⟩
  | cut hwalk =>
      have hpre' := (hwalk.of_pre rfl).2
      rw [hpre] at hpre'
      cases hpre'
  | pre hne hpre' =>
      rw [hpre] at hpre'
      cases hpre'

end NoTraces

/-! ### The end of the process -/

section Exited

variable {h : Host} {r : Rail} {cb : Callbacks} {io : IoRequest → DWord} {d d' : Dispatcher}
  {f : TrapFrame} {taken a : DWord}

/-- A call of `stub` that does not return has found an exit system call, or
nothing to run next. -/
theorem stub_exited (hs : stub h r cb io d f taken a = .exited d') :
    d.leave h r cb io f taken a = .exited d' ∨
      ∃ s d₁, d.leave h r cb io f taken a = .returned s ∧ d' = exitBinary r d₁ ∧
        d₁.calls = d.calls ++ (systemCalls r (d.left h a) ++
          postCalls r s.current (d.left h a).inst) := by
  rcases hleave : d.leave h r cb io f taken a with s | d₂
  · rw [stub_of_returned hleave] at hs
    have hlast : (lastInst h d.lookedUp d.current a).2.calls = d.calls := by
      rw [lastInst]
      split_ifs <;> rfl
    have hcalls (y : DWord) : (allocateNext h r (callPost r cb s (d.left h a).inst).dispatcher
        y).calls = d.calls ++ (systemCalls r (d.left h a) ++
          postCalls r s.current (d.left h a).inst) := by
      rw [(calls_allocateNext _ _).1, callPost_dispatcher, successor_dispatcher hleave, hlast,
        ← List.append_assoc]
    simp only [enterNext] at hs
    split at hs
    · cases hs
      exact .inr ⟨s, _, rfl, rfl, hcalls _⟩
    · cases hs
  · rw [stub_of_exited hleave] at hs
    exact .inl (congrArg _ (StubOutcome.exited.inj hs))

/-- An exit system call: the routines in front of it have been called. -/
theorem leave_exited (hs : d.leave h r cb io f taken a = .exited d') :
    (d.left h a).exitType = .syscall ∧ ∃ d₁, d' = exitBinary r d₁ ∧
      d₁.calls = d.calls ++ instCalls (·.coversInt (d.left h a).inst.address) (d.left h a).inst
        (r.instructionRoutinesTypedPre .systemType) ∧
      d₁.cache = d.lookedUp.cache ∧ d₁.cfgGenerator = d.cfgGenerator := by
  have hcache := cache_lastInst h d.lookedUp d.current a
  have hlast : (lastInst h d.lookedUp d.current a).2.calls = d.calls ∧
      (lastInst h d.lookedUp d.current a).2.cfgGenerator = d.cfgGenerator :=
    calls_lastInst h d.lookedUp d.current a
  rw [Dispatcher.leave] at hs
  generalize (lastInst h d.lookedUp d.current a).2 = d₀ at hs hcache hlast
  generalize d.left h a = last at *
  obtain ⟨inst, exitType⟩ := last
  cases exitType with
  | directBranch =>
      simp only [successor] at hs
      split_ifs at hs
  | indirectBranch => cases hs
  | segmented => cases hs
  | functionCall => cases hs
  | functionReturn => cases hs
  | syscall =>
      simp only [successor] at hs
      split at hs
      · cases hs
        refine ⟨rfl, _, rfl, ?_, ?_, ?_⟩
        · rw [callInst_fst, hlast.1]
          rfl
        · rw [callInst_fst]
          exact hcache
        · rw [callInst_fst]
          exact hlast.2
      · cases hs
      · cases hs

theorem mem_calls_exitBinary {d : Dispatcher} {call : Call}
    (hcall : call ∈ (exitBinary r d).calls) : call ∈ d.calls ∨ ∃ func, call = .exit func := by
  rw [exitBinary] at hcall
  cases hr : r.exitRoutine with
  | none =>
      rw [hr] at hcall
      cases hg : d.cfgGenerator with
      | none =>
          simp only [hg] at hcall
          exact .inl hcall
      | some g =>
          simp only [hg] at hcall
          exact .inl hcall
  | some func =>
      rw [hr] at hcall
      have hmem : call ∈ d.calls ++ [.exit func] := by
        cases hg : d.cfgGenerator with
        | none =>
            simp only [hg] at hcall
            exact hcall
        | some g =>
            simp only [hg] at hcall
            exact hcall
      rcases List.mem_append.mp hmem with hmem | hmem
      · exact .inl hmem
      · exact .inr ⟨func, List.mem_singleton.mp hmem⟩

theorem calls_exitBinary (hr : r.exitRoutine = none) (d : Dispatcher) :
    (exitBinary r d).calls = d.calls := by
  rw [exitBinary, hr]
  cases d.cfgGenerator with
  | none => rfl
  | some g => rfl

end Exited

end RailTranslator
