import RailTranslator.Bounds
import RailTranslator.DirectExits
import RailTranslator.GuestCfg
import RailTranslator.InlineCover

/-!
Bounded registrations, and the blocks they leave alone.

The allocators ask of every instruction whether it lies below the least bound
and above the greatest one, and no address does. So the bounds decide nothing:
a block is translated as without routines if and only if none of its
instructions is one that a registered routine is for, wherever it lies.
-/

namespace RailTranslator

open Rv64

/-! ### Registrations -/

def registered (traceLinkingEnabled : Bool) (gs : List Registration) : Rail :=
  gs.foldl Rail.register (.plain traceLinkingEnabled)

/-- What bounded registrations keep: the range begins as the address 0 and only
grows, PRE routines set their flag, and nothing is inline. -/
structure Rail.OnlyWidened (r : Rail) : Prop where
  first : r.instructionRoutinesStart.toInt ≤ 0
  last : 0 ≤ r.instructionRoutinesEnd.toInt
  typedPre : ∀ t, r.instructionRoutinesTypedPre t ≠ [] → r.preInstrumentationRoutines = true
  bbInline : r.inlineBBRoutinePost = []
  instInline : r.inlineInstRoutinePost = []
  typedInline : ∀ t, r.inlineInstRoutinesTypedPost t = []

namespace Rail.OnlyWidened

variable {r : Rail}

theorem widenBounds (hr : r.OnlyWidened) (lowerBound upperBound : BitVec 32) :
    (r.widenBounds lowerBound upperBound).OnlyWidened where
  first := by
    have hfirst := hr.first
    simp only [Rail.widenBounds, BitVec.slt]
    split
    · rename_i hlt
      have hbound := of_decide_eq_true hlt
      omega
    · exact hfirst
  last := by
    have hlast := hr.last
    simp only [Rail.widenBounds, BitVec.slt]
    split
    · rename_i hlt
      have hbound := of_decide_eq_true hlt
      omega
    · exact hlast
  typedPre := hr.typedPre
  bbInline := hr.bbInline
  instInline := hr.instInline
  typedInline := hr.typedInline

theorem register (hr : r.OnlyWidened) (g : Registration) : (r.register g).OnlyWidened := by
  cases g with
  | bbAll func iPoint lowerBound upperBound =>
      cases iPoint with
      | pre => exact { hr with typedPre := fun _ _ => rfl }
      | post => exact { hr with }
  | instAll func iPoint lowerBound upperBound =>
      have hw := hr.widenBounds lowerBound upperBound
      cases iPoint with
      | pre => exact { hw with typedPre := fun _ _ => rfl }
      | post => exact { hw with }
  | instType type func iPoint lowerBound upperBound =>
      have hw := hr.widenBounds lowerBound upperBound
      cases iPoint with
      | pre => exact { hw with typedPre := fun _ _ => rfl }
      | post => exact { hw with }

end Rail.OnlyWidened

theorem onlyWidened_plain (traceLinkingEnabled : Bool) :
    (Rail.plain traceLinkingEnabled).OnlyWidened :=
  ⟨le_refl (0 : ℤ), le_refl (0 : ℤ), fun _ hne => absurd rfl hne, rfl, rfl, fun _ => rfl⟩

theorem onlyWidened_registered (traceLinkingEnabled : Bool) (gs : List Registration) :
    (registered traceLinkingEnabled gs).OnlyWidened := by
  have hplain := onlyWidened_plain traceLinkingEnabled
  rw [registered]
  generalize Rail.plain traceLinkingEnabled = r at hplain
  induction gs generalizing r with
  | nil => exact hplain
  | cons g gs ih => exact ih _ (hplain.register g)

/-! ### What a routine is for -/

namespace Rail

variable (r : Rail)

def PreFor (w : Word) : Prop :=
  r.instructionRoutinesTypedPre (getType (opcodeOf w)) ≠ [] ∨
    (opcodeOf w = Op.load ∨ opcodeOf w = Op.store) ∧
      r.instructionRoutinesTypedPre .memAccessType ≠ []

def PostFor (types : List InstType) : Prop :=
  r.instructionRoutinesPre ≠ [] ∨ r.instructionRoutinesPost ≠ [] ∨
    ∃ t ∈ types, r.instructionRoutinesTypedPost t ≠ []

def CutsBlock (w : Word) : Prop :=
  r.PreFor w ∨ ¬ IsTerminal w ∧ opcodeOf w ≠ Op.amo ∧
    r.PostFor (if opcodeOf w = Op.auipc then [.uType]
      else if opcodeOf w = Op.store ∨ opcodeOf w = Op.load then [.memAccessType, .iType, .sType]
      else [getType (opcodeOf w)])

def CutsTrace (w : Word) : Prop :=
  ¬ IsTerminal w ∧
    r.PostFor (if opcodeOf w = Op.auipc then [.uType]
      else if opcodeOf w = Op.store ∨ opcodeOf w = Op.load then [.memAccessType]
      else [getType (opcodeOf w)])

end Rail

namespace Rail.OnlyWidened

variable {r : Rail} (hr : r.OnlyWidened)

include hr

/-- The range filters nothing: no address is both below and above it. -/
theorem shouldInstrument (pc : BitVec 32) : RailTranslator.shouldInstrument r pc = true := by
  have hfirst := hr.first
  have hlast := hr.last
  rw [RailTranslator.shouldInstrument, Bool.not_eq_true', Bool.and_eq_false_iff]
  by_cases hlt : pc.toInt < 0
  · right
    rw [BitVec.slt]
    exact decide_eq_false (by omega)
  · left
    rw [BitVec.slt]
    exact decide_eq_false (by omega)

theorem preInstrumented_iff (pc : BitVec 32) (w : Word) :
    preInstrumented r pc w = true ↔ r.PreFor w := by
  have hflag := hr.typedPre
  rw [preInstrumented, hr.shouldInstrument, Bool.and_true, Rail.PreFor]
  simp only [Bool.and_eq_true, Bool.or_eq_true, Bool.not_eq_true', beq_iff_eq,
    List.isEmpty_eq_false_iff, ne_eq]
  constructor
  · exact fun hand => hand.2
  · rintro (htype | ⟨hop, hmem⟩)
    · exact ⟨hflag _ htype, .inl htype⟩
    · exact ⟨hflag _ hmem, .inr ⟨hop, hmem⟩⟩

theorem postInstrumented_iff (pc : BitVec 32) (types : List InstType) :
    postInstrumented r pc types = true ↔ r.PostFor types := by
  rw [postInstrumented, hr.shouldInstrument, Bool.and_true, Rail.PostFor]
  simp only [Bool.or_eq_true, Bool.not_eq_true', List.isEmpty_eq_false_iff, List.any_eq_true,
    ne_eq, or_assoc]

theorem segmentsBB_iff (pc : BitVec 32) (w : Word) : segmentsBB r pc w = true ↔
    opcodeOf w ≠ Op.amo ∧
      r.PostFor (if opcodeOf w = Op.auipc then [.uType]
        else if opcodeOf w = Op.store ∨ opcodeOf w = Op.load then [.memAccessType, .iType, .sType]
        else [getType (opcodeOf w)]) := by
  rw [segmentsBB]
  by_cases hauipc : opcodeOf w = Op.auipc
  · rw [if_pos hauipc, if_pos hauipc, hr.postInstrumented_iff, hauipc]
    exact (and_iff_right (by decide)).symm
  · rw [if_neg hauipc, if_neg hauipc]
    by_cases haccess : opcodeOf w = Op.store ∨ opcodeOf w = Op.load
    · rw [if_pos haccess, if_pos haccess, hr.postInstrumented_iff]
      refine (and_iff_right ?_).symm
      rcases haccess with hop | hop <;> rw [hop] <;> decide
    · rw [if_neg haccess, if_neg haccess]
      by_cases hamo : opcodeOf w = Op.amo
      · rw [if_pos hamo]
        exact iff_of_false Bool.false_ne_true fun hand => hand.1 hamo
      · rw [if_neg hamo, hr.postInstrumented_iff]
        exact (and_iff_right hamo).symm

theorem cutsBlock_iff (pc : BitVec 32) (w : Word) : r.CutsBlock w ↔
    preInstrumented r pc w = true ∨ ¬ IsTerminal w ∧ segmentsBB r pc w = true := by
  rw [Rail.CutsBlock, hr.preInstrumented_iff, hr.segmentsBB_iff]

theorem cutsTrace_iff (pc : BitVec 32) (w : Word) : r.CutsTrace w ↔
    ¬ IsTerminal w ∧ segmentsTrace r pc w = true := by
  rw [Rail.CutsTrace, segmentsTrace]
  refine and_congr_right fun _ => ?_
  split_ifs <;> exact (hr.postInstrumented_iff pc _).symm

end Rail.OnlyWidened

/-! ### The block of an address -/

/-- The instruction at `q` is `n` instructions behind `pc` in the guest's basic
block that begins at `pc`. -/
inductive OnBlock (elf : ElfReader) : ℕ → BitVec 32 → BitVec 32 → Prop
  | here {pc : BitVec 32} (hne : elf.fetch pc ≠ 0) : OnBlock elf 0 pc pc
  | behind {n : ℕ} {pc q : BitVec 32} (hne : elf.fetch pc ≠ 0) (hw : ¬ IsTerminal (elf.fetch pc))
      (hrest : OnBlock elf n (pc + 4) q) : OnBlock elf (n + 1) pc q

def Rail.Outside (r : Rail) (elf : ElfReader) (a : BitVec 32) : Prop :=
  ∀ n pc, OnBlock elf n a pc →
    pc.slt r.instructionRoutinesStart = true ∨ r.instructionRoutinesEnd.slt pc = true

namespace OnBlock

variable {elf : ElfReader} {r : Rail} {m n : ℕ} {pc q : BitVec 32}

theorem ne_zero (hon : OnBlock elf n pc q) : elf.fetch q ≠ 0 := by
  induction hon with
  | here hne => exact hne
  | behind _ _ _ ih => exact ih

theorem drop (hon : OnBlock elf (n + m) pc q) :
    OnBlock elf n (pc + BitVec.ofNat 32 (4 * m)) q := by
  induction m generalizing pc with
  | zero => rwa [show pc + BitVec.ofNat 32 (4 * 0) = pc from BitVec.add_zero pc]
  | succ m ih =>
      cases hon with
      | behind _ _ hrest =>
          have hpc : pc + BitVec.ofNat 32 (4 * (m + 1)) = pc + 4 + BitVec.ofNat 32 (4 * m) := by
            bv_omega
          rw [hpc]
          exact ih hrest

/-- The program counter comes round, so the block is seen within the fuel. -/
theorem exists_lt (hon : OnBlock elf n pc q) : ∃ m < loopFuel, OnBlock elf m pc q := by
  induction n using Nat.strong_induction_on with
  | _ n ih =>
      by_cases hlt : n < loopFuel
      · exact ⟨n, hlt, hon⟩
      · obtain ⟨k, rfl⟩ := Nat.exists_eq_add_of_le' (not_lt.mp hlt)
        have hround : pc + BitVec.ofNat 32 (4 * loopFuel) = pc := BitVec.add_zero pc
        have hrest := hon.drop
        rw [hround] at hrest
        exact ih k (Nat.lt_add_of_pos_right (Nat.two_pow_pos 30)) hrest

theorem of_setProgramCounter {x : BitVec 32} (hon : OnBlock (elf.setProgramCounter x) n pc q) :
    OnBlock elf n pc q := by
  induction hon with
  | here hne => exact .here hne
  | behind hne hw _ ih => exact .behind hne hw ih

theorem hasBlock (hon : OnBlock elf n pc q)
    (hends : preInstrumented r q (elf.fetch q) = true ∨ IsTerminal (elf.fetch q) ∨
      segmentsBB r q (elf.fetch q) = true) : HasBlock r elf pc := by
  induction hon with
  | here hne => exact .ends hne hends
  | behind hne _ _ ih => exact .straight hne (ih hends)

end OnBlock

/-! ### The same code -/

/-- The same words, and the same blocks registered. -/
structure SameCode (c c' : CodeCache) : Prop where
  memory : c.memory = c'.memory
  railBasicBlocks : c.railBasicBlocks = c'.railBasicBlocks

section Block

variable {h : Host} {r r₀ : Rail} {elf : ElfReader} {a : DWord} {q : BitVec 32}
  {c c₁ c' : CodeCache} {ps : List Piece} {e : BlockEnd}

/-- Where no routine is for an instruction, the loop does what it does without
routines. -/
theorem allocateBBLoop_eq (hr : r.OnlyWidened) (hr₀ : r₀.NoCallbacks) (fuel : ℕ) {st : BBState}
    (hfree : ∀ n pc, OnBlock st.elfReader n st.pc pc → ¬ r.CutsBlock (st.elfReader.fetch pc)) :
    allocateBBLoop h r fuel st = allocateBBLoop h r₀ fuel st := by
  induction fuel generalizing st with
  | zero => rfl
  | succ fuel ih =>
      rw [allocateBBLoop, allocateBBLoop]
      by_cases h0 : st.nextInst = 0
      · rw [if_pos h0, if_pos h0]
      · rw [if_neg h0, if_neg h0]
        have hcut : ¬ r.CutsBlock st.nextInst := hfree 0 st.pc (.here h0)
        rw [hr.cutsBlock_iff st.pc, not_or, Bool.not_eq_true] at hcut
        rw [allocateBBTurn_eq hcut.1, allocateBBTurn_eq (hr₀.preInstrumented _ _)]
        by_cases hw : IsTerminal st.nextInst
        · have hw' : IsTerminal st.countInst.nextInst := hw
          rw [translateInst_terminal hw', translateInst_terminal hw']
        · have hw' : ¬ IsTerminal st.countInst.nextInst := hw
          have hends : segmentsBB r st.countInst.pc st.countInst.nextInst = false :=
            Bool.not_eq_true _ ▸ fun hends => hcut.2 ⟨hw, hends⟩
          rw [translateInst_straight hw', translateInst_straight hw', hends, hr₀.segmentsBB,
            if_neg Bool.false_ne_true]
          exact ih fun n pc hon => hfree (n + 1) pc (.behind h0 hw hon.of_setProgramCounter)

theorem BlockWalk.of_cutsBlock {n : ℕ} {pc x : BitVec 32} (hwalk : BlockWalk h r elf pc ps q e)
    (hlen : e = .endless → ps.length = loopFuel) (hon : OnBlock elf n pc x)
    (hcut : preInstrumented r x (elf.fetch x) = true ∨
      ¬ IsTerminal (elf.fetch x) ∧ segmentsBB r x (elf.fetch x) = true) :
    e = .segmented ∨ e = .pre := by
  have hblock : HasBlock r elf pc := hon.hasBlock (hcut.imp id fun hends => .inr hends.2)
  have hexhausted := hblock.not_exhausted hwalk
  have hendless := hblock.not_endless hwalk hlen
  have hstopped : e ≠ .stopped := by
    clear hlen hblock hexhausted hendless
    induction hwalk generalizing n with
    | straight hin _ ih =>
        cases hon with
        | here => exact absurd (hcut.imp id fun hends => .inr hends.2) hin.not_ends
        | behind _ _ hrest => exact ih hrest
    | stopped hpre hw =>
        cases hon with
        | here =>
            rcases hcut with hcut | hcut
            · rw [hpre] at hcut
              cases hcut
            · exact absurd hw hcut.1
        | behind _ hw' => exact absurd hw hw'
    | segmented | pre | exhausted | endless => exact BlockEnd.noConfusion
  cases e with
  | segmented => exact .inl rfl
  | pre => exact .inr rfl
  | stopped => exact absurd rfl hstopped
  | exhausted => exact absurd rfl hexhausted
  | endless => exact absurd rfl hendless

theorem record_of_cut (hnew : c.railBasicBlocks (asInt a) = none)
    (hwalk : BlockWalk h r elf (a.setWidth 32) ps q e)
    (hmain : MainAdded h elf (a.setWidth 32) c ps q e c₁)
    (hadd : PreAdded h elf (a.setWidth 32) c₁ q e c') (he : e = .segmented ∨ e = .pre) :
    ∃ b, c'.railBasicBlocks (asInt a) = some b ∧
      (b.type = .segmented ∨ b.startLocationInCache ≠ c.here h) := by
  cases hmain with
  | @closed _ b hclosed hdesc =>
      refine ⟨b, hadd.blocks_of_some (Function.update_self _ _ _), .inl ?_⟩
      rw [hdesc.type]
      rcases he with rfl | rfl
      · rfl
      · rcases hclosed with he | he <;> cases he
  | @cut b _ hdesc =>
      exact ⟨b, hadd.blocks_of_some (Function.update_self _ _ _), .inl hdesc.type⟩
  | left hleft =>
      obtain ⟨rfl, rfl⟩ : e = .pre ∧ ps = [] := by
        rcases hleft with hleft | rfl | rfl
        · exact hleft
        · rcases he with he | he <;> cases he
        · rcases he with he | he <;> cases he
      obtain rfl : q = a.setWidth 32 := by
        cases hwalk
        rfl
      cases hadd with
      | none hsome =>
          have hold : (c.railBasicBlocks (asInt a)).isSome = true := hsome rfl
          rw [hnew] at hold
          cases hold
      | @added b _ _ hplace =>
          refine ⟨b, Function.update_self _ _ _, .inr ?_⟩
          rw [hplace.startLocationInCache, CodeCache.here]
          -- `restoreScratch` stands in front of it
          show wordAddr h.base (c.memory ++ walkedWords []).length ≠ wordAddr h.base c.memoryIndex
          rw [List.length_append]
          show wordAddr h.base (c.memoryIndex + 1) ≠ wordAddr h.base c.memoryIndex
          rw [← wordAddr_add_four]
          exact fun heq => by bv_omega

theorem record_of_plain (hnew : c.railBasicBlocks (asInt a) = none)
    (hwalk : BlockWalk h r elf (a.setWidth 32) ps q e)
    (hmain : MainAdded h elf (a.setWidth 32) c ps q e c₁)
    (hadd : PreAdded h elf (a.setWidth 32) c₁ q e c') (he : e ≠ .segmented ∧ e ≠ .pre)
    {b : RailBasicBlock} (hb : c'.railBasicBlocks (asInt a) = some b) :
    b.type ≠ .segmented ∧ b.startLocationInCache = c.here h := by
  cases hadd with
  | added => exact absurd rfl he.2
  | none =>
      refine ⟨?_, (hmain.record hwalk hnew hb).2.1⟩
      cases hmain with
      | cut => exact absurd rfl he.2
      | left =>
          rw [CodeCache.railBasicBlocks_emit, CodeCache.railBasicBlocks_setCurrentBB, hnew] at hb
          cases hb
      | closed hclosed hdesc =>
          obtain rfl := hclosed.resolve_right he.1
          rcases insertAt_cases hb with ⟨-, rfl⟩ | ⟨hne, -⟩
          · rw [hdesc.type]
            exact (exitType_plain _).2
          · exact absurd rfl hne

/-- A block is translated as without routines if and only if no routine is for
one of its instructions. -/
theorem allocateBB_same_iff (hr : r.OnlyWidened) (hr₀ : r₀.NoCallbacks)
    (hnew : c.railBasicBlocks (asInt a) = none) :
    SameCode (allocateBB h r elf c a).2 (allocateBB h r₀ elf c a).2 ↔
      ∀ n pc, OnBlock elf n (a.setWidth 32) pc → ¬ r.CutsBlock (elf.fetch pc) := by
  constructor
  · intro hsame n pc hon hcut
    rw [hr.cutsBlock_iff pc] at hcut
    obtain ⟨ps, q, e, c₁, hwalk, -, hmain, hadd, hend⟩ := allocateBB_walk h r elf c a
    obtain ⟨ps₀, q₀, e₀, c₂, hwalk₀, -, hmain₀, hadd₀, -⟩ := allocateBB_walk h r₀ elf c a
    have he := hwalk.of_cutsBlock (fun he => (hend he).2) hon hcut
    obtain ⟨b, hb, hdiff⟩ := record_of_cut hnew hwalk hmain hadd he
    rw [hsame.railBasicBlocks] at hb
    obtain ⟨htype, hstart⟩ :=
      record_of_plain hnew hwalk₀ hmain₀ hadd₀ (hwalk₀.of_noCallbacks hr₀) hb
    exact hdiff.elim htype fun hne => hne hstart
  · intro hfree
    have hloop := @allocateBBLoop_eq h r r₀ hr hr₀ loopFuel (allocateBBStart h elf c a)
      fun n pc hon => hfree n pc hon.of_setProgramCounter
    rw [allocateBB, allocateBB, hloop]
    exact ⟨rfl, rfl⟩

end Block

section Trace

variable {h : Host} {r r₀ : Rail} {elf : ElfReader} {count fuel n : ℕ} {pc q : BitVec 32}
  {st : TraceState}

theorem Rail.OnlyWidened.inlineInst (hr : r.OnlyWidened) (types : List InstType) :
    inlineInst r types = [] := by
  simp [RailTranslator.inlineInst, hr.instInline, hr.typedInline]

/-- Where no routine is for an instruction, the turn is that without routines. -/
theorem traceTurn_same (hr : r.OnlyWidened) (hr₀ : r₀.Uninstrumented)
    (hcut : ¬ r.CutsTrace st.nextInst) : traceTurn h r count st = traceTurn h r₀ count st := by
  by_cases hw : IsTerminal st.nextInst
  · rcases (isTerminal_iff _).mp hw with hop | hop | hop | hop
    · simp only [traceTurn, TraceState.nextInst_countInst, hop, if_true, hr.bbInline, hr₀.bbInline,
        hr.inlineInst, hr₀.inlineInst]
    · simp only [traceTurn, TraceState.nextInst_countInst, hop, hr.bbInline, hr₀.bbInline,
        hr.inlineInst, hr₀.inlineInst, show ¬ Op.jal = Op.branch by decide, if_true, if_false]
    · simp only [traceTurn, TraceState.nextInst_countInst, hop, hr.bbInline, hr₀.bbInline,
        hr.inlineInst, hr₀.inlineInst, show ¬ Op.jalr = Op.branch by decide,
        show ¬ Op.jalr = Op.jal by decide, if_true, if_false]
    · simp only [traceTurn, TraceState.nextInst_countInst, hop, hr.bbInline, hr₀.bbInline,
        hr.inlineInst, hr₀.inlineInst, show ¬ Op.system = Op.branch by decide,
        show ¬ Op.system = Op.jal by decide, show ¬ Op.system = Op.jalr by decide,
        show ¬ Op.system = Op.auipc by decide, show ¬ Op.system = Op.store by decide,
        show ¬ Op.system = Op.load by decide, or_false, if_true, if_false]
  · rw [hr.cutsTrace_iff st.pc, not_and, Bool.not_eq_true] at hcut
    have hbehind : inlineBehind r st.nextInst = inlineBehind r₀ st.nextInst := by
      simp only [inlineBehind, hr.inlineInst, hr₀.inlineInst]
    rw [traceTurn_eq hw, traceTurn_eq hw, hcut hw, hr₀.toNoCallbacks.segmentsTrace, hbehind,
      if_neg Bool.false_ne_true, if_neg Bool.false_ne_true]

theorem traceLoop_same (hr : r.OnlyWidened) (hr₀ : r₀.Uninstrumented)
    (hfree : ∀ n pc, OnBlock st.elfReader n st.pc pc → ¬ r.CutsTrace (st.elfReader.fetch pc)) :
    traceLoop h r count fuel st = traceLoop h r₀ count fuel st := by
  induction fuel generalizing st with
  | zero => rfl
  | succ fuel ih =>
      rw [traceLoop, traceLoop]
      by_cases h0 : st.nextInst = 0
      · rw [if_pos h0, if_pos h0]
      · have hcut : ¬ r.CutsTrace st.nextInst := hfree 0 st.pc (.here h0)
        rw [if_neg h0, if_neg h0, traceTurn_same hr hr₀ hcut]
        by_cases hw : IsTerminal st.nextInst
        · have hstep := traceTurn_cases h r₀ count st
          generalize traceTurn h r₀ count st = turn at hstep
          cases hstep with
          | straight hw' => exact absurd hw hw'
          | segment hw' => exact absurd hw hw'
          | followed => rfl
          | stopped => rfl
        · rw [traceTurn_eq hw, hr₀.toNoCallbacks.segmentsTrace, if_neg Bool.false_ne_true]
          exact ih fun n pc hon => hfree (n + 1) pc (.behind h0 hw hon.of_setProgramCounter)

def CodeCache.Segmented (c : CodeCache) (x : DWord) : Prop :=
  ∃ b, c.railBasicBlocks x = some b ∧ b.type = .segmented

theorem segmented_segment (words after : List Word) :
    ((st.countInst.segment h words).emit after).cache.Segmented st.railBB.firstAddr :=
  ⟨_, Function.update_self _ _ _, rfl⟩

/-- A trace that reaches an instruction that a routine is for ends so. -/
theorem segmented_of_cutsTrace (hr : r.OnlyWidened) (hon : OnBlock elf n pc q)
    (hcut : r.CutsTrace (elf.fetch q)) (hlt : n < fuel)
    (htext : st.elfReader = elf.setProgramCounter pc) :
    (traceLoop h r count fuel st).1.cache.Segmented st.railBB.firstAddr := by
  have hfetch {st' : TraceState} {x : BitVec 32}
      (htext : st'.elfReader = elf.setProgramCounter x) : st'.nextInst = elf.fetch x := by
    rw [TraceState.nextInst, htext]
    rfl
  induction hon generalizing fuel st with
  | here hne =>
      obtain ⟨fuel, rfl⟩ := Nat.exists_eq_succ_of_ne_zero (Nat.ne_zero_of_lt hlt)
      rw [← hfetch htext] at hne hcut
      obtain ⟨hw, hends⟩ := (hr.cutsTrace_iff st.pc _).mp hcut
      rw [traceLoop, if_neg hne, traceTurn_eq hw, if_pos hends]
      exact segmented_segment _ _
  | behind hne hw _ ih =>
      obtain ⟨fuel, rfl⟩ := Nat.exists_eq_succ_of_ne_zero (Nat.ne_zero_of_lt hlt)
      rw [← hfetch htext] at hne hw
      rw [traceLoop, if_neg hne, traceTurn_eq hw]
      cases hends : segmentsTrace r st.pc st.nextInst with
      | true =>
          rw [if_pos rfl]
          exact segmented_segment _ _
      | false =>
          rw [if_neg Bool.false_ne_true]
          refine ih hcut (Nat.lt_of_succ_lt_succ hlt) ?_
          rw [TraceState.advance]
          exact congrArg ElfReader.incProgramCounter htext

theorem insertBB_self (st : TraceState) :
    st.insertBB.cache.railBasicBlocks st.railBB.firstAddr = some st.railBB :=
  Function.update_self _ _ _

theorem traceTurn_terminal (hw : IsTerminal st.nextInst) :
    ∃ st' nextAddr, traceTurn h r count st = .return st' nextAddr ∧
      (st'.cache.Segmented st.railBB.firstAddr → st.cache.Segmented st.railBB.firstAddr) := by
  rcases (isTerminal_iff _).mp hw with hop | hop | hop | hop
  · simp only [traceTurn, TraceState.nextInst_countInst, hop, if_true]
    exact ⟨_, _, rfl, id⟩
  · by_cases hcount : 0 < count
    · rw [traceTurn_jal (opcodeOf_eq_iff.mp hop) hcount]
      exact ⟨_, _, rfl, id⟩
    · simp only [traceTurn, TraceState.nextInst_countInst, hop, hcount, if_false]
      exact ⟨_, _, rfl, id⟩
  · simp only [traceTurn, TraceState.nextInst_countInst, hop]
    exact ⟨_, _, rfl, id⟩
  · simp only [traceTurn, TraceState.nextInst_countInst, hop]
    refine ⟨_, _, rfl, ?_⟩
    rintro ⟨b, hb, htype⟩
    rw [← Option.some.inj ((insertBB_self _).symm.trans hb)] at htype
    cases htype

theorem not_segmented_of_plain (hr₀ : r₀.NoCallbacks)
    (hnew : ¬ st.cache.Segmented st.railBB.firstAddr) :
    ¬ (traceLoop h r₀ count fuel st).1.cache.Segmented st.railBB.firstAddr := by
  induction fuel generalizing st with
  | zero => exact hnew
  | succ fuel ih =>
      rw [traceLoop]
      split
      · exact hnew
      · by_cases hw : IsTerminal st.nextInst
        · obtain ⟨st', nextAddr, hturn, hkeep⟩ := @traceTurn_terminal h r₀ count st hw
          rw [hturn]
          exact fun hseg => hnew (hkeep hseg)
        · rw [traceTurn_eq hw, hr₀.segmentsTrace, if_neg Bool.false_ne_true]
          exact ih hnew

/-- The code of a block of a trace is that without routines if and only if no
routine is for one of its instructions. -/
theorem allocateTraceBlock_same_iff (hr : r.OnlyWidened) (hr₀ : r₀.Uninstrumented)
    {a : BitVec 32} (hnew : st.cache.railBasicBlocks st.railBB.firstAddr = none) :
    SameCode (allocateTraceBlock h r st a count).1.cache
        (allocateTraceBlock h r₀ st a count).1.cache ↔
      ∀ n pc, OnBlock st.elfReader n a pc → ¬ r.CutsTrace (st.elfReader.fetch pc) := by
  constructor
  · intro hsame n pc hon hcut
    obtain ⟨m, hlt, hon⟩ := hon.exists_lt
    obtain ⟨b, hb, htype⟩ : (allocateTraceBlock h r st a count).1.cache.Segmented
        st.railBB.firstAddr := segmented_of_cutsTrace hr hon hcut hlt rfl
    rw [hsame.railBasicBlocks] at hb
    refine not_segmented_of_plain hr₀.toNoCallbacks ?_ ⟨b, hb, htype⟩
    rintro ⟨b, hb, -⟩
    rw [hnew] at hb
    cases hb
  · intro hfree
    have hloop := @traceLoop_same h r r₀ count loopFuel
      { st with elfReader := st.elfReader.setProgramCounter a } hr hr₀
      fun n pc hon => hfree n pc hon.of_setProgramCounter
    rw [allocateTraceBlock, allocateTraceBlock, hloop]
    exact ⟨rfl, rfl⟩

end Trace

/-! ### The range -/

/-- Routines registered with bounds leave a block outside their range alone if
and only if they are for none of its instructions. The block is allocated where
`count` has found none, and so is the trace it belongs to. -/
theorem range_filter_iff (h : Host) (traceLinkingEnabled : Bool) (gs : List Registration)
    (elf : ElfReader) {c : CodeCache} {a : DWord} (hnew : c.railBasicBlocks (asInt a) = none)
    {railBB : RailBasicBlock} (htrace : c.railBasicBlocks railBB.firstAddr = none) (count : ℕ) :
    let r := registered traceLinkingEnabled gs
    let r₀ := Rail.plain traceLinkingEnabled
    ((r.Outside elf (a.setWidth 32) →
        SameCode (allocateBB h r elf c a).2 (allocateBB h r₀ elf c a).2) ↔
      (r.Outside elf (a.setWidth 32) →
        ∀ n pc, OnBlock elf n (a.setWidth 32) pc → ¬ r.CutsBlock (elf.fetch pc))) ∧
    ((r.Outside elf (a.setWidth 32) →
        SameCode (allocateTraceBlock h r ⟨elf, c, railBB⟩ (a.setWidth 32) count).1.cache
          (allocateTraceBlock h r₀ ⟨elf, c, railBB⟩ (a.setWidth 32) count).1.cache) ↔
      (r.Outside elf (a.setWidth 32) →
        ∀ n pc, OnBlock elf n (a.setWidth 32) pc → ¬ r.CutsTrace (elf.fetch pc))) := by
  intro r r₀
  have hr : r.OnlyWidened := onlyWidened_registered traceLinkingEnabled gs
  have hr₀ : r₀.Uninstrumented := Rail.uninstrumented_plain traceLinkingEnabled
  exact ⟨imp_congr_right fun _ => allocateBB_same_iff hr hr₀.toNoCallbacks hnew,
    imp_congr_right fun _ =>
      @allocateTraceBlock_same_iff h r r₀ count ⟨elf, c, railBB⟩ hr hr₀ _ htrace⟩

/-! ### Two registrations -/

/-- `addInstrumentInstType(U_TYPE, f, POST, 0x100, 0x200)` -/
def upperRoutine : Rail := registered false [.instType .uType 7 .post 0x100 0x200]

/-- `addInstrumentInstAll(f, POST, 0x100, 0x200)` -/
def everyRoutine : Rail := registered false [.instAll 7 .post 0x100 0x200]

theorem onBlock_nopExitText {n : ℕ} {pc : BitVec 32} (hon : OnBlock nopExitText n 0x10000 pc) :
    pc = 0x10000 ∨ pc = 0x10004 := by
  cases hon with
  | here => exact .inl rfl
  | behind _ _ hrest =>
      cases hrest with
      | here => exact .inr rfl
      | behind _ hw => exact absurd (by decide : IsTerminal (nopExitText.fetch 0x10004)) hw

theorem nopExitText_left_alone :
    SameCode (allocateBB requestedHost upperRoutine nopExitText .initial 0x10000).2
        (allocateBB requestedHost (.plain false) nopExitText .initial 0x10000).2 ∧
      SameCode (allocateTraceBlock requestedHost upperRoutine
          ⟨nopExitText, .initial, requestedHost.junkBlock⟩ 0x10000 0).1.cache
        (allocateTraceBlock requestedHost (.plain false)
          ⟨nopExitText, .initial, requestedHost.junkBlock⟩ 0x10000 0).1.cache := by
  have hr : upperRoutine.OnlyWidened := onlyWidened_registered _ _
  have hout : upperRoutine.Outside nopExitText 0x10000 := fun n pc hon => by
    rcases onBlock_nopExitText hon with rfl | rfl <;> decide
  have hfilter := @range_filter_iff requestedHost false [.instType .uType 7 .post 0x100 0x200]
    nopExitText .initial 0x10000 rfl requestedHost.junkBlock rfl 0
  refine ⟨hfilter.1.mpr (fun _ n pc hon => ?_) hout, hfilter.2.mpr (fun _ n pc hon => ?_) hout⟩
  · refine mt (hr.cutsBlock_iff pc _).mp ?_
    rcases onBlock_nopExitText hon with rfl | rfl <;> decide
  · refine mt (hr.cutsTrace_iff pc _).mp ?_
    rcases onBlock_nopExitText hon with rfl | rfl <;> decide

/-- The block lies behind the range, and the routine is for its `nop`. -/
theorem nopExitText_segmented :
    everyRoutine.Outside nopExitText 0x10000 ∧
      ¬ SameCode (allocateBB requestedHost everyRoutine nopExitText .initial 0x10000).2
        (allocateBB requestedHost (.plain false) nopExitText .initial 0x10000).2 ∧
      ¬ SameCode (allocateTraceBlock requestedHost everyRoutine
          ⟨nopExitText, .initial, requestedHost.junkBlock⟩ 0x10000 0).1.cache
        (allocateTraceBlock requestedHost (.plain false)
          ⟨nopExitText, .initial, requestedHost.junkBlock⟩ 0x10000 0).1.cache := by
  refine ⟨fun n pc hon => ?_, fun hsame => absurd hsame.memory (by decide +kernel),
    fun hsame => absurd hsame.memory (by decide +kernel)⟩
  rcases onBlock_nopExitText hon with rfl | rfl <;> decide

end RailTranslator
