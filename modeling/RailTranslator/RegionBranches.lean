import RailTranslator.StubRegions
import RailTranslator.BlockWalk
import RailTranslator.EmittedPaths

/-!
Branches towards the stub regions.

A branch holds a displacement of thirteen bits, so it reaches a region that
begins at most 1030 words in front of it. Nothing on the way to the branch
asks how far the region is: the hand count is looked at when a block has
ended, it leaves words out, and a block may be of any length.
-/

namespace RailTranslator

open Rv64 Transition

/-! ### Displacements -/

theorem signExtend_of_inRange {d : DWord} (hlo : -4096 ≤ d.toInt) (hhi : d.toInt ≤ 4094) :
    (d.setWidth 13).signExtend 64 = d :=
  signExtend_setWidth_of_fits (by decide) (by omega) (by omega)

theorem encodeBtype_cut (inst : RvInst) (imm : BitVec 32) :
    encodeBtype { inst with imm := imm } =
      encodeBtype { inst with imm := (imm.setWidth 13).signExtend 32 } := by
  have cut (s k : ℕ) (h : s + k ≤ 13) :
      imm.extractLsb' s k = ((imm.setWidth 13).signExtend 32).extractLsb' s k := by
    apply BitVec.eq_of_getLsbD_eq
    intro i hi
    simp only [BitVec.getLsbD_extractLsb', BitVec.getLsbD_signExtend, BitVec.getLsbD_setWidth]
    grind
  have h12 (x : BitVec 32) : x >>> 12 &&& 0x1 = (x.extractLsb' 12 1).setWidth 32 :=
    shift_mask x 12 1
  have h11 (x : BitVec 32) : x >>> 11 &&& 0x1 = (x.extractLsb' 11 1).setWidth 32 :=
    shift_mask x 11 1
  have h5 (x : BitVec 32) : x >>> 5 &&& 0x3F = (x.extractLsb' 5 6).setWidth 32 :=
    shift_mask x 5 6
  have h1 (x : BitVec 32) : x >>> 1 &&& 0xF = (x.extractLsb' 1 4).setWidth 32 :=
    shift_mask x 1 4
  simp only [encodeBtype, h12, h11, h5, h1]
  rw [cut 12 1 (by decide), cut 11 1 (by decide), cut 5 6 (by decide), cut 1 4 (by decide)]

theorem immB_encodeBtype (junk : RvInst) (w : Word) {d : DWord} (heven : d.getLsbD 0 = false) :
    (encodeBtype { decodeBtype junk w with imm := d.setWidth 32 }).immB = d.setWidth 13 := by
  have hlow : (d.setWidth 32).setWidth 13 = d.setWidth 13 :=
    BitVec.setWidth_setWidth_of_le d (by decide)
  have hbit : (d.setWidth 13).getLsbD 0 = false := by
    rw [BitVec.getLsbD_setWidth, heven]
    rfl
  rw [encodeBtype_cut, hlow, encodeBtype_setImm, immB_bType _ _ _ _ _ hbit]

/-! ### The regions -/

def RegionAt (h : Host) (c : RegionCache) : Prop :=
  ∃ k, c.nearestStubRegion = wordAddr h.base k ∧
    StandsAt c.cache.memory k (RegionCache.regionWords h)

structure Adds (h : Host) (c c' : RegionCache) (bs : List RegionBranch) : Prop where
  memory : c.cache.memory <+: c'.cache.memory
  branches : c'.branches = c.branches ++ bs
  words : ∀ b ∈ bs, ∃ w, c'.cache.memory[b.index]? = some (encodeBtype
    { decodeBtype h.junkInst w with imm := b.displacement.setWidth 32 })
  region : c'.nearestStubRegion = c.nearestStubRegion ∨ RegionAt h c'

section Adds

variable {h : Host} {c c' c'' : RegionCache} {bs bs' : List RegionBranch}

theorem getElem?_of_prefix {m m' : List Word} (hm : m <+: m') {i : ℕ} {w : Word}
    (hw : m[i]? = some w) : m'[i]? = some w := by
  obtain ⟨rest, rfl⟩ := hm
  obtain ⟨hi, -⟩ := List.getElem?_eq_some_iff.mp hw
  rw [List.getElem?_append_left hi, hw]

theorem adds_refl (c : RegionCache) : Adds h c c [] where
  memory := List.prefix_rfl
  branches := (List.append_nil _).symm
  words _ hb := absurd hb List.not_mem_nil
  region := .inl rfl

theorem Adds.trans (ha : Adds h c c' bs) (ha' : Adds h c' c'' bs') :
    Adds h c c'' (bs ++ bs') where
  memory := ha.memory.trans ha'.memory
  branches := by rw [ha'.branches, ha.branches, List.append_assoc]
  words b hb := by
    rcases List.mem_append.mp hb with hb | hb
    · obtain ⟨w, hw⟩ := ha.words b hb
      exact ⟨w, getElem?_of_prefix ha'.memory hw⟩
    · exact ha'.words b hb
  region := by
    rcases ha'.region with hsame | hat
    · rcases ha.region with hsame' | ⟨k, hk, hstands⟩
      · exact .inl (hsame.trans hsame')
      · exact .inr ⟨k, hsame.trans hk, hstands.mono ha'.memory⟩
    · exact .inr hat

theorem adds_emit (words : List Word) (counted : ℕ) : Adds h c (c.emit words counted) [] where
  memory := List.prefix_append _ _
  branches := (List.append_nil _).symm
  words _ hb := absurd hb List.not_mem_nil
  region := .inl rfl

theorem adds_insertBB (railBB : RailBasicBlock) : Adds h c (c.insertBB railBB) [] where
  memory := List.prefix_rfl
  branches := (List.append_nil _).symm
  words _ hb := absurd hb List.not_mem_nil
  region := .inl rfl

theorem adds_insertStubRegion (override : Bool) :
    Adds h c (c.insertStubRegion h override) [] := by
  unfold RegionCache.insertStubRegion
  split
  · refine ⟨List.prefix_append _ _, (List.append_nil _).symm, fun _ hb => absurd hb
      List.not_mem_nil, .inr ⟨c.cache.memoryIndex, rfl, ?_⟩⟩
    exact ⟨c.cache.memory, [], rfl, by simp⟩
  · exact adds_refl c

theorem adds_emitBranch (w : Word) :
    Adds h c (c.emitBranch h w) [⟨c.cache.memoryIndex, c.toRegion h + 24⟩] where
  memory := List.prefix_append _ _
  branches := rfl
  words b hb := by
    obtain rfl := List.mem_singleton.mp hb
    refine ⟨w, ?_⟩
    show (c.cache.memory ++ [_])[c.cache.memory.length]? = _
    rw [List.getElem?_append_right (Nat.le_refl _), Nat.sub_self]
    rfl
  region := .inl rfl

theorem adds_branchExits (w : Word) :
    Adds h c (c.branchExits h w) [⟨c.cache.memoryIndex, c.toRegion h + 24⟩] :=
  (adds_emitBranch w).trans ((adds_emit _ 1).trans
    ⟨List.prefix_rfl, (List.append_nil _).symm, fun _ hb => absurd hb List.not_mem_nil, .inl rfl⟩)

theorem Adds.register (ha : Adds h c c' bs) (b : RailBasicBlock) :
    Adds h c ((c'.insertBB b).insertStubRegion h false) bs := by
  have hall := (ha.trans (adds_insertBB b)).trans (adds_insertStubRegion false)
  rwa [List.append_nil, List.append_nil] at hall

theorem adds_allocateNextInst (c : RegionCache) (elf : ElfReader) (b : RailBasicBlock) :
    Adds h c (c.allocateNextInst h elf b).1
      (if opcodeOf elf.getNextInstruction = Op.branch then
        [⟨c.cache.memoryIndex, c.toRegion h + 24⟩] else []) := by
  unfold RegionCache.allocateNextInst
  dsimp only
  have hother : Adds h c ((c.emit [elf.getNextInstruction] 0).emitJump h 24) [] :=
    (adds_emit _ _).trans (adds_emit _ _)
  split
  · exact adds_branchExits _
  split
  · exact adds_emit _ _
  split
  · exact adds_emit _ _
  split
  · exact (adds_emit _ _).trans (adds_emit _ _)
  split
  · split
    · exact (adds_emit _ _).trans (adds_emit _ _)
    · exact hother
  split
  · exact (adds_emit _ _).trans (adds_emit _ _)
  · exact hother

end Adds

/-! ### The loop -/

section Loop

variable {h : Host} {r : Rail} {st : RegionState}

theorem region_map (f : RegionCache → RegionCache) : (st.map f).region = f st.region := rfl

theorem region_record (type : BasicBlockType) (lastAddr : BitVec 32) (terminalInst : Word) :
    (st.record h type lastAddr terminalInst).region = st.region := rfl

theorem region_insertBB : st.insertBB.region = st.region.insertBB st.railBB := rfl

theorem adds_exit (type : BasicBlockType) {f : RegionCache → RegionCache}
    {bs : List RegionBranch} (hf : Adds h st.region (f st.region) bs) :
    Adds h st.region (st.exit h type f).region bs := by
  unfold RegionState.exit
  rw [region_insertBB, region_record, region_map]
  have hall := (hf.trans (adds_insertStubRegion false)).trans (adds_insertBB
    ((st.map fun c => (f c).insertStubRegion h false).record h type st.pc st.nextInst).railBB)
  rwa [List.append_nil, List.append_nil] at hall

theorem adds_segment (words : List Word) (counted : ℕ) :
    Adds h st.region (st.segment h words counted).region [] := by
  unfold RegionState.segment
  rw [region_map, region_insertBB, region_record, region_map]
  have hwords : Adds h st.region
      ((st.region.emit words counted).emit (exitTo h.contextSwitchTaken) 6) [] :=
    (adds_emit words counted).trans (adds_emit _ 6)
  exact hwords.register _

theorem adds_systemExit : Adds h st.region (st.systemExit h).region [] := by
  unfold RegionState.systemExit
  dsimp only
  rw [region_insertBB, region_map, region_record, region_map]
  have hjump : Adds h st.region (st.region.emitJump h 0) [] := adds_emit _ 1
  exact ((hjump.trans (adds_insertStubRegion false)).trans (adds_emit [st.nextInst] 0)).trans
    (adds_insertBB _)

theorem Regions.translateInst_terminal (hw : IsTerminal st.nextInst) :
    (opcodeOf st.nextInst = Op.branch ∧ Regions.translateInst h r st =
      .return (st.exit h .directBranch (·.branchExits h st.nextInst))) ∨
    (opcodeOf st.nextInst ≠ Op.branch ∧
      ∃ st', Regions.translateInst h r st = .return st' ∧ Adds h st.region st'.region []) := by
  have hcode : opcodeOf st.nextInst = st.nextInst.opcode.setWidth 32 := opcodeOf_eq _
  have hjump (offset : DWord) : Adds h st.region (st.region.emitJump h offset) [] :=
    adds_emit _ 1
  rcases hw with hop | hop | hop | hop <;> rw [hop] at hcode
  · left
    refine ⟨hcode, ?_⟩
    simp only [Regions.translateInst, hcode]
    rfl
  · right
    refine ⟨by rw [hcode]; decide, st.exit h .directBranch (·.emitJump h 24), ?_,
      adds_exit _ (hjump 24)⟩
    simp only [Regions.translateInst, hcode]
    rfl
  · right
    refine ⟨by rw [hcode]; decide, st.exit h .indirectBranch (·.emitJump h 24), ?_,
      adds_exit _ (hjump 24)⟩
    simp only [Regions.translateInst, hcode]
    rfl
  · right
    refine ⟨by rw [hcode]; decide, st.systemExit h, ?_, adds_systemExit⟩
    simp only [Regions.translateInst, hcode]
    rfl

theorem Regions.translateInst_straight (hw : ¬ IsTerminal st.nextInst) :
    ∃ counted, Regions.translateInst h r st = if segmentsBB r st.pc st.nextInst = true then
        .return (st.segment h (bbWords h st.pc st.nextInst) counted)
      else .next (st.advance (bbWords h st.pc st.nextInst) counted) := by
  rw [isTerminal_iff, not_or, not_or, not_or] at hw
  obtain ⟨hbranch, hjal, hjalr, hsystem⟩ := hw
  by_cases hauipc : opcodeOf st.nextInst = Op.auipc
  · refine ⟨3, ?_⟩
    simp [Regions.translateInst, segmentsBB, bbWords, bodyWords, hauipc]
  · by_cases haccess : opcodeOf st.nextInst = Op.store ∨ opcodeOf st.nextInst = Op.load
    · have hamo : opcodeOf st.nextInst ≠ Op.amo := by
        rcases haccess with h' | h' <;> rw [h'] <;> decide
      by_cases hrs1 : (decodeInstruction h.junkInst st.nextInst).rs1 = regs.sp
      · refine ⟨0, ?_⟩
        simp only [Regions.translateInst, segmentsBB, bbWords, bodyWords, hbranch, hjal, hjalr,
          hauipc, haccess, hamo, hrs1, ne_eq, not_true, if_true, if_false, and_false]
      · refine ⟨13, ?_⟩
        simp only [Regions.translateInst, segmentsBB, bbWords, bodyWords, hbranch, hjal, hjalr,
          hauipc, haccess, hamo, hrs1, ne_eq, not_false_eq_true, if_true, if_false, true_and]
    · by_cases hamo : opcodeOf st.nextInst = Op.amo
      · refine ⟨if (decodeInstruction h.junkInst st.nextInst).rs1 ≠ regs.sp then 13 else 0, ?_⟩
        simp [Regions.translateInst, segmentsBB, bbWords, hamo]
      · refine ⟨1, ?_⟩
        simp only [Regions.translateInst, segmentsBB, bbWords, bodyWords, hbranch, hjal, hjalr,
          hauipc, haccess, hsystem, hamo, if_false, false_and]

end Loop

/-! ### Where the branch of a block stands -/

/-- How many words stand between the place `pc` of a block at `a` and the
branch that `allocateBB` emits towards the region, if it emits one. `cut` says
that something of the block has been emitted, and `known` which addresses have
a record: a pre-instrumented branch has a block of its own, unless it has one
already. -/
def branchFrom (h : Host) (r : Rail) (elf : ElfReader) (known : DWord → Bool) (a : BitVec 32) :
    ℕ → Bool → BitVec 32 → Option ℕ
  | 0, _, _ => none
  | fuel + 1, cut, pc =>
    let w := elf.fetch pc
    if w = 0 then none
    else if preInstrumented r pc w then
      if known (pc.signExtend 64) || cut && pc == a then none
      else if opcodeOf w = Op.branch then some (if cut then 12 else 6)
      else none
    else if opcodeOf w = Op.branch then some 0
    else if IsTerminal w ∨ segmentsBB r pc w = true then none
    else (branchFrom h r elf known a fuel true (pc + 4)).map fun n =>
      (bbWords h pc w).length + n

def wordsToBranch (h : Host) (r : Rail) (elf : ElfReader) (c : RegionCache) (a : DWord) :
    Option ℕ :=
  (branchFrom h r elf (fun x => (c.cache.railBasicBlocks x).isSome) (a.setWidth 32) loopFuel false
    (a.setWidth 32)).map fun n => 1 + n

def RegionCache.branchBehind (h : Host) (c : RegionCache) (n : ℕ) : RegionBranch where
  index := c.cache.memoryIndex + n
  displacement := c.nearestStubRegion - wordAddr (c.cache.here h) n + 24

/-- A block of the cache `c` has been emitted up to `pc`, with `n` words. -/
structure Along (h : Host) (elf : ElfReader) (a : BitVec 32) (c : RegionCache) (n : ℕ)
    (cut : Bool) (pc : BitVec 32) (st : RegionState) : Prop where
  adds : Adds h c st.region []
  nearest : st.region.nearestStubRegion = c.nearestStubRegion
  index : st.region.cache.memoryIndex = c.cache.memoryIndex + n
  blocks : st.region.cache.railBasicBlocks = c.cache.railBasicBlocks
  text : st.elfReader = elf.setProgramCounter pc
  firstAddr : st.railBB.firstAddr = a.signExtend 64
  allocatedPrev : (st.allocatedPrev ≠ 0) ↔ cut = true

section Along

variable {h : Host} {r : Rail} {elf : ElfReader} {a pc : BitVec 32} {c c' : RegionCache} {n : ℕ}
  {cut : Bool} {st : RegionState}

theorem branchBehind_add (hnearest : c'.nearestStubRegion = c.nearestStubRegion)
    (hindex : c'.cache.memoryIndex = c.cache.memoryIndex + n) (m : ℕ) :
    c'.branchBehind h m = c.branchBehind h (n + m) := by
  unfold RegionCache.branchBehind CodeCache.here
  rw [hnearest, hindex, wordAddr_add, wordAddr_add (wordAddr _ _), Nat.add_assoc]

theorem branch_here (hnearest : c'.nearestStubRegion = c.nearestStubRegion)
    (hindex : c'.cache.memoryIndex = c.cache.memoryIndex + n) :
    (⟨c'.cache.memoryIndex, c'.toRegion h + 24⟩ : RegionBranch) = c.branchBehind h n := by
  unfold RegionCache.branchBehind RegionCache.toRegion CodeCache.here
  rw [hnearest, hindex, wordAddr_add]

theorem Along.nextInst (hst : Along h elf a c n cut pc st) : st.nextInst = elf.fetch pc := by
  rw [RegionState.nextInst, hst.text]
  rfl

theorem Along.pc_eq (hst : Along h elf a c n cut pc st) : st.pc = pc := by
  rw [RegionState.pc, hst.text]
  rfl

theorem Along.countInst (hst : Along h elf a c n cut pc st) :
    Along h elf a c n cut pc st.countInst :=
  ⟨hst.adds, hst.nearest, hst.index, hst.blocks, hst.text, hst.firstAddr, hst.allocatedPrev⟩

theorem Along.advance (hst : Along h elf a c n cut pc st) (words : List Word) (counted : ℕ) :
    Along h elf a c (n + words.length) true (pc + 4) (st.advance words counted) where
  adds := hst.adds.trans (adds_emit words counted)
  nearest := hst.nearest
  index := by
    have hindex := hst.index
    unfold CodeCache.memoryIndex at hindex
    show (st.region.cache.memory ++ words).length = c.cache.memory.length + (n + words.length)
    rw [List.length_append, hindex, Nat.add_assoc]
  blocks := hst.blocks
  text := by
    show st.elfReader.incProgramCounter = _
    rw [hst.text, ElfReader.incProgramCounter_setProgramCounter]
  firstAddr := hst.firstAddr
  allocatedPrev := by simp [RegionState.advance]

theorem adds_allocatePreInst (h : Host) (st : RegionState) :
    Adds h st.region (Regions.allocatePreInst h st).region
      (if opcodeOf st.nextInst = Op.branch then [st.region.branchBehind h 6] else []) := by
  unfold Regions.allocatePreInst
  dsimp only
  have hindex : (st.region.emit (exitTo h.contextSwitchInstrument) 6).cache.memoryIndex =
      st.region.cache.memoryIndex + 6 := List.length_append
  have hnext := adds_allocateNextInst (h := h)
    (st.region.emit (exitTo h.contextSwitchInstrument) 6) st.elfReader
    { h.junkBlock with
      firstAddr := st.elfReader.pc
      startInst := st.nextInst
      terminalInst := st.nextInst
      basicBlockAddress := st.railBB.basicBlockAddress
      startLocationInCache := st.region.cache.here h }
  have hhere : (⟨(st.region.emit (exitTo h.contextSwitchInstrument) 6).cache.memoryIndex,
      (st.region.emit (exitTo h.contextSwitchInstrument) 6).toRegion h + 24⟩ : RegionBranch) =
        st.region.branchBehind h 6 := branch_here rfl hindex
  rw [hhere] at hnext
  have hall := (adds_emit (c := st.region) (exitTo h.contextSwitchInstrument) 6).trans hnext
  rw [List.nil_append] at hall
  exact hall.register _

structure AtCut (h : Host) (elf : ElfReader) (a : BitVec 32) (c : RegionCache) (n : ℕ)
    (cut : Bool) (pc : BitVec 32) (st : RegionState) : Prop where
  adds : Adds h c st.region []
  nearest : st.region.nearestStubRegion = c.nearestStubRegion
  index : st.region.cache.memoryIndex = c.cache.memoryIndex + (n + if cut then 6 else 0)
  known : (st.region.cache.railBasicBlocks (pc.signExtend 64)).isSome =
    ((c.cache.railBasicBlocks (pc.signExtend 64)).isSome || cut && pc == a)
  text : st.elfReader = elf.setProgramCounter pc

theorem Along.atCut (hst : Along h elf a c n cut pc st) :
    AtCut h elf a c n cut pc (Regions.cutBlock h st) := by
  unfold Regions.cutBlock
  cases cut with
  | false =>
      have hprev : ¬ st.allocatedPrev ≠ 0 := fun hne =>
        Bool.false_ne_true (hst.allocatedPrev.mp hne)
      rw [if_neg hprev]
      exact ⟨hst.adds, hst.nearest, hst.index, by simp [hst.blocks], hst.text⟩
  | true =>
      rw [if_pos (hst.allocatedPrev.mpr rfl)]
      refine ⟨?_, hst.nearest, ?_, ?_, hst.text⟩
      · rw [region_insertBB, region_record, region_map]
        exact (hst.adds.trans (adds_emit _ 6)).trans (adds_insertBB _)
      · have hindex := hst.index
        unfold CodeCache.memoryIndex at hindex
        show (st.region.cache.memory ++ exitTo h.contextSwitch).length = _
        rw [List.length_append, hindex]
        rfl
      · show (Function.update st.region.cache.railBasicBlocks st.railBB.firstAddr _
          (pc.signExtend 64)).isSome = _
        rw [hst.firstAddr, hst.blocks]
        by_cases hpc : pc = a
        · rw [hpc, Function.update_self]
          simp
        · rw [Function.update_of_ne fun heq => hpc (signExtend_inj.mp heq)]
          simp [hpc]

def preBranch (c : RegionCache) (a : BitVec 32) (cut : Bool) (pc : BitVec 32) (w : Word) :
    Option ℕ :=
  if (c.cache.railBasicBlocks (pc.signExtend 64)).isSome || cut && pc == a then none
  else if opcodeOf w = Op.branch then some (if cut then 12 else 6)
  else none

def branchesBehind (h : Host) (c : RegionCache) (n : ℕ) (o : Option ℕ) : List RegionBranch :=
  (o.map fun m => c.branchBehind h (n + m)).toList

theorem Along.pre (hst : Along h elf a c n cut pc st)
    (hpre : preInstrumented r pc (elf.fetch pc) = true) :
    ∃ st', Regions.allocateBBTurn h r st = .return st' ∧
      Adds h c st'.region (branchesBehind h c n (preBranch c a cut pc (elf.fetch pc))) := by
  have hcount := hst.countInst
  have hat := hcount.atCut
  unfold Regions.allocateBBTurn
  dsimp only
  rw [hcount.pc_eq, hcount.nextInst, if_pos hpre]
  generalize Regions.cutBlock h st.countInst = st' at hat
  have hpc : st'.elfReader.pc = pc.signExtend 64 := by
    rw [hat.text]
    rfl
  rw [hpc, hat.known]
  unfold preBranch
  split
  · exact ⟨st', rfl, hat.adds⟩
  · refine ⟨_, rfl, ?_⟩
    have hword : st'.nextInst = elf.fetch pc := by
      rw [RegionState.nextInst, hat.text]
      rfl
    have hblock := hat.adds.trans (adds_allocatePreInst h st')
    rw [List.nil_append, hword, branchBehind_add hat.nearest hat.index] at hblock
    split at hblock
    · rw [if_pos (by assumption)]
      cases cut <;> exact hblock
    · rw [if_neg (by assumption)]
      exact hblock

/-- From anywhere in a block on: the branch that is found in the text is the
one that is emitted. -/
theorem Along.loop (fuel : ℕ) (hst : Along h elf a c n cut pc st) :
    Adds h c (Regions.allocateBBLoop h r fuel st).region (branchesBehind h c n
      (branchFrom h r elf (fun x => (c.cache.railBasicBlocks x).isSome) a fuel cut pc)) := by
  -- `branchFrom` walks the text with the same fuel as the loop
  induction fuel generalizing n cut pc st with
  | zero => exact hst.adds
  | succ fuel ih =>
      unfold Regions.allocateBBLoop branchFrom
      dsimp only
      rw [hst.nextInst]
      split
      · exact hst.adds
      cases hpre : preInstrumented r pc (elf.fetch pc) with
      | true =>
          obtain ⟨st', hturn, hadds⟩ := hst.pre hpre
          rw [hturn]
          exact hadds
      | false =>
          have hcount := hst.countInst
          have hturn : Regions.allocateBBTurn h r st =
              Regions.translateInst h r st.countInst := by
            unfold Regions.allocateBBTurn
            dsimp only
            rw [hcount.pc_eq, hcount.nextInst, hpre]
            rfl
          rw [hturn]
          by_cases hw : IsTerminal (elf.fetch pc)
          · obtain ⟨hop, hexit⟩ | ⟨hop, st', hexit, hadds⟩ :=
              @Regions.translateInst_terminal h r st.countInst (by rwa [hcount.nextInst])
            · rw [hcount.nextInst] at hop
              rw [hexit]
              simp only [Bool.false_eq_true, if_false, hop, if_true]
              -- the branch is what the block ends with, so it lies behind what has been added
              have hexits : Adds h st.countInst.region
                  (st.countInst.region.branchExits h st.countInst.nextInst) _ :=
                adds_branchExits _
              rw [branch_here hcount.nearest hcount.index] at hexits
              exact hcount.adds.trans
                (adds_exit .directBranch (f := (·.branchExits h st.countInst.nextInst)) hexits)
            · rw [hcount.nextInst] at hop
              rw [hexit]
              simp only [Bool.false_eq_true, if_false, if_neg hop, hw, true_or, if_true]
              exact hcount.adds.trans hadds
          · have hop : opcodeOf (elf.fetch pc) ≠ Op.branch := fun hop =>
              hw ((isTerminal_iff _).mpr (.inl hop))
            obtain ⟨counted, hwords⟩ :=
              @Regions.translateInst_straight h r st.countInst (by rwa [hcount.nextInst])
            rw [hwords, hcount.nextInst, hcount.pc_eq]
            cases hends : segmentsBB r pc (elf.fetch pc) with
            | true =>
                simp only [Bool.false_eq_true, if_false, if_neg hop, or_true, if_true]
                exact hcount.adds.trans (adds_segment _ _)
            | false =>
                have hgo := ih (hcount.advance (bbWords h pc (elf.fetch pc)) counted)
                simp only [Bool.false_eq_true, if_false, if_neg hop, hw, or_false]
                unfold branchesBehind at hgo ⊢
                rw [Option.map_map]
                simpa only [Function.comp_def, Nat.add_assoc] using hgo

end Along

/-- `allocateBB` emits the branch of the block, if it has one, and no other. -/
theorem adds_allocateBB (h : Host) (r : Rail) (elf : ElfReader) (c : RegionCache) (a : DWord) :
    Adds h c (Regions.allocateBB h r elf c a).2
      (branchesBehind h c 0 (wordsToBranch h r elf c a)) := by
  have hstart : Along h elf (a.setWidth 32) c 1 false (a.setWidth 32)
      (Regions.allocateBBStart h elf c a) :=
    ⟨⟨List.prefix_append _ _, (List.append_nil _).symm, fun _ hb => absurd hb List.not_mem_nil,
      .inl rfl⟩, rfl, List.length_append, rfl, rfl, rfl, by simp [Regions.allocateBBStart]⟩
  have hbranches : branchesBehind h c 0 (wordsToBranch h r elf c a) = branchesBehind h c 1
      (branchFrom h r elf (fun x => (c.cache.railBasicBlocks x).isSome) (a.setWidth 32) loopFuel
        false (a.setWidth 32)) := by
    unfold wordsToBranch branchesBehind
    rw [Option.map_map]
    simp only [Function.comp_def, Nat.zero_add]
  rw [hbranches]
  exact hstart.loop loopFuel

theorem adds_allocateRoot (h : Host) (c : RegionCache) : Adds h c (c.allocateRoot h) [] :=
  ((adds_emit (insertLi h.initSwitch regs.t6) 3).trans (adds_emit [jalrInst] 0)).trans
    (adds_insertStubRegion true)

/-! ### The runs -/

structure BranchEnters (h : Host) (c : CodeCache) (b : RegionBranch) : Prop where
  lower : -4096 ≤ b.displacement.toInt
  upper : b.displacement.toInt ≤ 4094
  enters : ∃ w k, c.memory[b.index]? = some w ∧
    (decodeBtype h.junkInst w).imm.signExtend 64 = b.displacement ∧
    wordAddr h.base b.index + w.immB.signExtend 64 = wordAddr h.base k ∧
    StandsAt c.memory k (exitTo h.contextSwitchTaken)

inductive RegionEvent
  | root
  | bb (r : Rail) (binaryAddress : DWord)

/-- `allocateRoot` and `allocateBB`, in any order. -/
def regionSystem (h : Host) (elf : ElfReader) : System (ElfReader × RegionCache) RegionEvent where
  init := {(elf, RegionCache.initial)}
  step s
    | .root => some (s.1, s.2.allocateRoot h)
    | .bb r a => some (Regions.allocateBB h r s.1 s.2 a)

/-- A region has been inserted, and it begins at most 1030 words in front of
the branch of the block, if the block has one. -/
def InReach (h : Host) (s : ElfReader × RegionCache) : RegionEvent → Prop
  | .root => True
  | .bb r a => ∀ n ∈ wordsToBranch h r s.1 s.2 a, s.2.nearestStubRegion ≠ 0 ∧
      (s.2.cache.here h - s.2.nearestStubRegion).toNat + 4 * n ≤ 4120

/-- The nearest region is in place, and the branches enter theirs. -/
structure RegionsInv (h : Host) (c : RegionCache) : Prop where
  region : c.nearestStubRegion = 0 ∨ RegionAt h c
  branches : ∀ b ∈ c.branches, BranchEnters h c.cache b

section Runs

variable {h : Host} {c c' : RegionCache} {bs : List RegionBranch}

/-- The displacement of a branch is in range exactly if the region is in
reach, as long as the cache is shorter than half the address space. -/
theorem inRange_iff (n : ℕ)
    (hcache : (c.cache.here h - c.nearestStubRegion).toNat + 4 * n < 2 ^ 63) :
    (-4096 ≤ (c.branchBehind h n).displacement.toInt ∧
      (c.branchBehind h n).displacement.toInt ≤ 4094) ↔
    (c.cache.here h - c.nearestStubRegion).toNat + 4 * n ≤ 4120 := by
  have hd : (c.branchBehind h n).displacement =
      24 - BitVec.ofNat 64 ((c.cache.here h - c.nearestStubRegion).toNat + 4 * n) := by
    unfold RegionCache.branchBehind wordAddr
    generalize c.cache.here h = a at hcache ⊢
    bv_omega
  rw [hd]
  generalize (c.cache.here h - c.nearestStubRegion).toNat + 4 * n = m at hcache
  have hm : (BitVec.ofNat 64 m).toInt = m := by
    rw [BitVec.toInt_eq_toNat_cond, BitVec.toNat_ofNat]
    omega
  have h24 : (24 : DWord).toInt = 24 := rfl
  rw [BitVec.toInt_sub, hm, h24, Int.bmod_def]
  omega

theorem branchBehind_displacement {k : ℕ} (hk : c.nearestStubRegion = wordAddr h.base k) (n : ℕ) :
    (c.branchBehind h n).displacement =
      wordAddr h.base (k + 6) - wordAddr h.base (c.branchBehind h n).index := by
  show c.nearestStubRegion - wordAddr (wordAddr h.base c.cache.memoryIndex) n + 24 =
    wordAddr h.base (k + 6) - wordAddr h.base (c.cache.memoryIndex + n)
  rw [hk, ← wordAddr_add]
  generalize c.cache.memoryIndex + n = j
  simp only [wordAddr]
  bv_omega

theorem even_wordAddr_sub (a : DWord) (i j : ℕ) :
    (wordAddr a i - wordAddr a j).getLsbD 0 = false := by
  have heven : (wordAddr a i - wordAddr a j).toNat % 2 = 0 := by
    simp only [wordAddr]
    bv_omega
  rw [BitVec.getLsbD_eq_getElem (by omega), BitVec.getElem_eq_testBit_toNat, Nat.testBit_zero]
  exact decide_eq_false (by omega)

theorem branchEnters_of_reach (hregion : RegionAt h c) {n : ℕ} {w : Word}
    (hword : c'.cache.memory[(c.branchBehind h n).index]? = some (encodeBtype
      { decodeBtype h.junkInst w with imm := (c.branchBehind h n).displacement.setWidth 32 }))
    (hmemory : c.cache.memory <+: c'.cache.memory)
    (hreach : (c.cache.here h - c.nearestStubRegion).toNat + 4 * n ≤ 4120) :
    BranchEnters h c'.cache (c.branchBehind h n) := by
  obtain ⟨hlower, hupper⟩ := (inRange_iff n (by omega)).mpr hreach
  obtain ⟨k, hk, pre, post, hpre, hstands⟩ := hregion
  have hd := branchBehind_displacement hk n
  have himm : (encodeBtype { decodeBtype h.junkInst w with
      imm := (c.branchBehind h n).displacement.setWidth 32 }).immB.signExtend 64 =
        (c.branchBehind h n).displacement := by
    rw [immB_encodeBtype h.junkInst w (by rw [hd, even_wordAddr_sub]),
      signExtend_of_inRange hlower hupper]
  refine ⟨hlower, hupper, _, k + 6, hword, ?_, ?_, ?_⟩
  · rw [decodeBtype_imm, signExtend_signExtend (by decide), himm]
  · rw [himm, hd, add_sub_cancel]
  · obtain ⟨rest, hrest⟩ := hmemory
    refine ⟨pre ++ exitTo h.contextSwitch, post ++ rest, ?_, ?_⟩
    · rw [List.length_append, hpre, length_exitTo]
    · rw [← hrest, hstands]
      simp [RegionCache.regionWords]

theorem BranchEnters.mono {b : RegionBranch} (hb : BranchEnters h c.cache b)
    (hmemory : c.cache.memory <+: c'.cache.memory) : BranchEnters h c'.cache b := by
  obtain ⟨w, k, hw, himm, haddr, hstands⟩ := hb.enters
  exact ⟨hb.lower, hb.upper, w, k, getElem?_of_prefix hmemory hw, himm, haddr,
    hstands.mono hmemory⟩

theorem RegionsInv.adds (hc : RegionsInv h c) (ha : Adds h c c' bs)
    (hbs : ∀ b ∈ bs, BranchEnters h c'.cache b) : RegionsInv h c' where
  region := by
    rcases ha.region with hsame | hat
    · rw [hsame]
      rcases hc.region with hzero | ⟨k, hk, hstands⟩
      · exact .inl hzero
      · exact .inr ⟨k, hsame.trans hk, hstands.mono ha.memory⟩
    · exact .inr hat
  branches := by
    intro b hb
    rw [ha.branches] at hb
    rcases List.mem_append.mp hb with hb | hb
    · exact (hc.branches b hb).mono ha.memory
    · exact hbs b hb

theorem RegionsInv.step {elf : ElfReader} {s s' : ElfReader × RegionCache} {e : RegionEvent}
    (hs : RegionsInv h s.2) (hreach : InReach h s e)
    (hstep : (regionSystem h elf).step s e = some s') : RegionsInv h s'.2 := by
  cases e with
  | root =>
      obtain ⟨elf', c'⟩ := s'
      obtain ⟨-, rfl⟩ := Prod.mk.inj (Option.some.inj hstep)
      dsimp only
      exact hs.adds (adds_allocateRoot h s.2) fun b hb => absurd hb List.not_mem_nil
  | bb r a =>
      have hs' : Regions.allocateBB h r s.1 s.2 a = s' := Option.some.inj hstep
      have hadds := adds_allocateBB h r s.1 s.2 a
      rw [hs'] at hadds
      refine hs.adds hadds ?_
      intro b hb
      obtain ⟨w, hw⟩ := hadds.words b hb
      obtain ⟨n, hn, rfl⟩ := Option.map_eq_some_iff.mp (Option.mem_toList.mp hb)
      rw [Nat.zero_add] at hw ⊢
      obtain ⟨hne, hle⟩ := hreach n hn
      exact branchEnters_of_reach (hs.region.resolve_left hne) hw hadds.memory hle

/-- In every run in which the regions are in reach of the branches, every
branch that has been emitted holds its displacement and enters its region. -/
theorem region_branches_enter {elf : ElfReader} {l : List ((ElfReader × RegionCache) × RegionEvent)}
    {s : ElfReader × RegionCache} (hrun : Run (regionSystem h elf) (InReach h) l s) :
    ∀ b ∈ s.2.branches, BranchEnters h s.2.cache b := by
  have hinv : RegionsInv h s.2 := by
    apply hrun.invariant (I := fun s => RegionsInv h s.2)
    · rintro s rfl
      exact ⟨.inl rfl, fun b hb => absurd hb List.not_mem_nil⟩
    · intro s e s' hs hreach hstep
      exact hs.step hreach hstep
  exact hinv.branches

end Runs

/-! ### A branch in reach, and one that is not -/

def rootRegion : RegionCache := RegionCache.initial.allocateRoot requestedHost

theorem run_root_bb (elf : ElfReader) (a : DWord)
    {ok : ElfReader × RegionCache → RegionEvent → Prop} (hroot : ok (elf, .initial) .root)
    (hbb : ok (elf, rootRegion) (.bb (.plain false) a)) :
    Run (regionSystem requestedHost elf) ok
      [((elf, .initial), .root), ((elf, rootRegion), .bb (.plain false) a)]
      (Regions.allocateBB requestedHost (.plain false) elf rootRegion a) :=
  ((Run.start rfl).next hroot rfl).next hbb rfl

/-- `nop; beq x0, x0, 8` -/
def nearText : ElfReader := .ofWords 0x10000 [0x00000013, 0x00000463, 0x00000013, 0x00000013]

theorem region_branches_enter_near : ∃ l s,
    Run (regionSystem requestedHost nearText) (InReach requestedHost) l s ∧
      s.2.branches.length = 1 ∧ ∀ b ∈ s.2.branches, BranchEnters requestedHost s.2.cache b := by
  have hbranch : wordsToBranch requestedHost (.plain false) nearText rootRegion 0x10000 =
      some 2 := by decide +kernel
  have hreach : InReach requestedHost (nearText, rootRegion) (.bb (.plain false) 0x10000) := by
    intro n hn
    obtain rfl : 2 = n := Option.some.inj (hbranch.symm.trans hn)
    decide +kernel
  have hroot : InReach requestedHost (nearText, .initial) .root := trivial
  have hrun := run_root_bb nearText 0x10000 hroot hreach
  refine ⟨_, _, hrun, ?_, region_branches_enter hrun⟩
  rw [(adds_allocateBB _ _ _ _ _).branches, hbranch]
  rfl

/-- Eighty-five times `lw x10, 0(x10)`, and `beq x0, x0, 8`. -/
def farText : ElfReader :=
  .ofWords 0x10000 (List.replicate 85 0x00052503 ++ [0x00000463, 0x00000013])

/-- The branch of a block of eighty-six instructions is out of reach of its
region, and its word holds another displacement, which leads forward. -/
theorem far_branch_misses : ∃ l s, Run (regionSystem requestedHost farText) Any l s ∧
    ∃ b ∈ s.2.branches, ¬ BranchEnters requestedHost s.2.cache b ∧
      b.displacement.toInt = -4108 ∧ ∃ w, s.2.cache.memory[b.index]? = some w ∧
        (decodeBtype requestedHost.junkInst w).imm = 4084 := by
  have hbranch : wordsToBranch requestedHost (.plain false) farText rootRegion 0x10000 =
      some 1021 := by decide +kernel
  have hd : (rootRegion.branchBehind requestedHost 1021).displacement = -4108 := by
    decide +kernel
  have hadds := adds_allocateBB requestedHost (.plain false) farText rootRegion 0x10000
  rw [hbranch] at hadds
  have hmem : rootRegion.branchBehind requestedHost 1021 ∈
      (Regions.allocateBB requestedHost (.plain false) farText rootRegion 0x10000).2.branches := by
    rw [hadds.branches]
    exact List.mem_append_right _ List.mem_cons_self
  obtain ⟨w, hw⟩ := hadds.words _ List.mem_cons_self
  refine ⟨_, _, run_root_bb farText 0x10000 trivial trivial, _, hmem, ?_, ?_, _, hw, ?_⟩
  · intro hb
    have hlower := hb.lower
    rw [hd] at hlower
    exact absurd hlower (by decide)
  · rw [hd]
    decide
  · rw [decodeBtype_imm, immB_encodeBtype _ _ (by rw [hd]; decide), hd]
    decide

end RailTranslator
