import RailTranslator.Extents
import RailTranslator.Linking
import RailTranslator.Runs

/-!
The layout of the code cache, over whole runs.

Linked jumps carry the address at which a block starts, so a block may neither
move nor be overwritten. Blocks are registered at many places, some of them
twice; `Allocated` is what either allocator does, and `LaidOut` what holds in
every reachable state: the blocks lie apart from one another behind the root
code, and the exits that are recorded are the exit stubs of registered traces.
The exit stubs are the only words that are overwritten, by `link`.
-/

namespace RailTranslator

open Rv64 Transition Extents

/-! ### The extents of blocks -/

def Host.offset (h : Host) (a : DWord) : ℕ := (a - h.base).toNat

/-- The part of the cache a block takes. A record that looking an address up has
created takes none. -/
def RailBasicBlock.extent (h : Host) (b : RailBasicBlock) : Option Extent :=
  if b = .empty then none
  else some ⟨h.offset b.startLocationInCache, h.offset b.endLocationInCache⟩

def CodeCache.extents (h : Host) (c : CodeCache) (x : DWord) : Option Extent :=
  (c.railBasicBlocks x).bind (·.extent h)

def CodeCache.size (c : CodeCache) : ℕ := 4 * c.memoryIndex

def rootEnd (h : Host) (elf : ElfReader) : ℕ := (allocateRoot h elf).2.size

/-- Every record is there, but the name of the block a segment belongs to may
be another one. -/
def CodeCache.Keeps (c c' : CodeCache) : Prop :=
  ∀ x b, c.railBasicBlocks x = some b → ∃ b', c'.railBasicBlocks x = some b' ∧
    (b' = b ∨ b.type = .segmented ∧ b' = { b with basicBlockAddress := b'.basicBlockAddress })

section Extents

variable {h : Host} {c c' c'' : CodeCache} {x : DWord} {b : RailBasicBlock}

theorem CodeCache.Keeps.trans (hk : c.Keeps c') (hk' : c'.Keeps c'') : c.Keeps c'' := by
  intro x b hb
  obtain ⟨b₁, hb₁, hsame₁⟩ := hk x b hb
  obtain ⟨b₂, hb₂, hsame₂⟩ := hk' x b₁ hb₁
  refine ⟨b₂, hb₂, ?_⟩
  rcases hsame₁ with rfl | ⟨hseg, hsame₁⟩
  · exact hsame₂
  · right
    refine ⟨hseg, ?_⟩
    rcases hsame₂ with rfl | ⟨-, hsame₂⟩
    · exact hsame₁
    · rw [hsame₂, hsame₁]

theorem keeps_of_eq (heq : c'.railBasicBlocks = c.railBasicBlocks) : c.Keeps c' := by
  intro x b hb
  exact ⟨b, by rw [heq, hb], .inl rfl⟩

theorem keeps_of_new (hnone : c.railBasicBlocks x = none)
    (hold : ∀ y, y ≠ x → c'.railBasicBlocks y = c.railBasicBlocks y) : c.Keeps c' := by
  intro y b hb
  have hne : y ≠ x := by
    rintro rfl
    rw [hnone] at hb
    cases hb
  exact ⟨b, by rw [hold y hne, hb], .inl rfl⟩

theorem CodeCache.Keeps.extents (hk : c.Keeps c') : Kept (c.extents h) (c'.extents h) := by
  intro x i hi
  obtain ⟨b, hb, hext⟩ := Option.bind_eq_some_iff.mp hi
  obtain ⟨b', hb', hsame⟩ := hk x b hb
  rw [CodeCache.extents, hb']
  rcases hsame with rfl | ⟨hseg, hsame⟩
  · exact hext
  · have hne : b' ≠ .empty := by
      intro hempty
      rw [hempty] at hsame
      have htype := congrArg RailBasicBlock.type hsame
      rw [hseg] at htype
      cases htype
    have hold : b ≠ .empty := by
      rintro rfl
      cases hseg
    rw [RailBasicBlock.extent, if_neg hold] at hext
    show b'.extent h = some i
    rw [RailBasicBlock.extent, if_neg hne, hsame]
    exact hext

theorem offset_wordAddr (h : Host) {k : ℕ} (hk : k ≤ cacheSize / 4) :
    h.offset (wordAddr h.base k) = 4 * k := by
  rw [cacheSize] at hk
  rw [Host.offset, wordAddr]
  bv_omega

theorem size_le (hmem : c.memory <+: c'.memory) : c.size ≤ c'.size :=
  Nat.mul_le_mul_left 4 hmem.length_le

theorem packed_record {lo k n : ℕ} (hp : Packed lo c.size (c.extents h)) (hlo : lo ≤ c.size)
    (hstart : b.startLocationInCache = wordAddr h.base k)
    (hend : b.endLocationInCache = wordAddr h.base n) (hk : c.memoryIndex ≤ k) (hkn : k < n)
    (hn : n ≤ c'.memoryIndex) (hfits : c'.Fits) (hself : c'.railBasicBlocks x = some b)
    (hold : ∀ y, y ≠ x → c'.railBasicBlocks y = c.railBasicBlocks y) :
    Packed lo c'.size (c'.extents h) := by
  have hlen : c'.memoryIndex ≤ cacheSize / 4 := hfits
  have hK := @offset_wordAddr h k (by omega)
  have hN := @offset_wordAddr h n (by omega)
  -- an empty record would begin where it ends
  have hne : b ≠ .empty := by
    rintro rfl
    rw [← hstart] at hK
    rw [← hend] at hN
    have hsame : 4 * k = 4 * n := hK.symm.trans hN
    omega
  refine hp.extend hlo (k := x) (i := ⟨4 * k, 4 * n⟩) ?_ ?_ ?_ ?_ ?_
  · exact Nat.mul_le_mul_left 4 hk
  · exact Nat.mul_le_mul_left 4 hkn.le
  · exact Nat.mul_le_mul_left 4 hn
  · rw [CodeCache.extents, hself]
    show b.extent h = _
    rw [RailBasicBlock.extent, if_neg hne, hstart, hend, hK, hN]
  · intro y hy
    rw [CodeCache.extents, CodeCache.extents, hold y hy]

end Extents

/-! ### Exit stubs of traces -/

/-- The index at which `link` writes when it is called with the recorded
address of an exit stub. -/
def ExitStub.linkIndex (elf : ElfReader) (e : ExitStub) (taken : Bool) : ℕ :=
  if (e.word elf).opcode = Opcode.branch then e.sideIndex taken
  else e.index + if taken then 8 else 0

/-- The words of an exit stub that `link` may overwrite. -/
def ExitStub.linkHoles (elf : ElfReader) (e : ExitStub) : Set ℕ :=
  {i | ∃ taken, i = e.linkIndex elf taken ∨ i = e.linkIndex elf taken + 1}

/-- The stub belongs to the last instruction of the trace with the record `b`,
and lies inside it. -/
structure ExitStub.EndOf (h : Host) (elf : ElfReader) (e : ExitStub) (b : RailBasicBlock) :
    Prop where
  lastAddr : b.lastAddr = e.address
  terminalInst : b.terminalInst = e.word elf
  type : b.type = exitType (e.word elf)
  start_le : h.offset b.startLocationInCache ≤ 4 * e.index
  le_end : 4 * (e.index + (e.words h elf).length) ≤ h.offset b.endLocationInCache

def CodeCache.HasExit (h : Host) (elf : ElfReader) (c : CodeCache) (e : ExitStub) : Prop :=
  ∃ x b, c.railBasicBlocks x = some b ∧ e.EndOf h elf b

section Stubs

variable {h : Host} {elf : ElfReader} {c c' : CodeCache} {e : ExitStub}

theorem CodeCache.Keeps.hasExit (hk : c.Keeps c') (he : c.HasExit h elf e) :
    c'.HasExit h elf e := by
  obtain ⟨x, b, hb, hend⟩ := he
  obtain ⟨b', hb', hsame⟩ := hk x b hb
  refine ⟨x, b', hb', ?_⟩
  rcases hsame with rfl | ⟨-, hsame⟩
  · exact hend
  · rw [hsame]
    exact ⟨hend.lastAddr, hend.terminalInst, hend.type, hend.start_le, hend.le_end⟩

theorem exit_add_linkIndex (h : Host) (elf : ElfReader) (e : ExitStub) (taken : DWord) :
    e.exit h elf + (if taken = 0 then 4 else 36) =
      wordAddr h.base (e.linkIndex elf (decide (taken ≠ 0))) := by
  rw [ExitStub.exit, exitAddress, ExitStub.linkIndex, ExitStub.sideIndex]
  by_cases ht : taken = 0
  · rw [if_pos ht, show decide (taken ≠ 0) = false from decide_eq_false (not_not.mpr ht)]
    split <;> simp only [wordAddr, Bool.false_eq_true, if_false] <;> bv_omega
  · rw [if_neg ht, show decide (taken ≠ 0) = true from decide_eq_true ht]
    split <;> simp only [wordAddr, if_true] <;> bv_omega

/-- Where `link` writes, there is a word of the stub, and the next word is one
too. -/
theorem linkIndex_inside (h : Host) (elf : ElfReader) (e : ExitStub) (taken : Bool) :
    e.index ≤ e.linkIndex elf taken ∧
      e.linkIndex elf taken + 1 < e.index + (e.words h elf).length := by
  by_cases hop : (e.word elf).opcode = Opcode.branch
  · have hlen : (e.words h elf).length = 19 := by
      rw [ExitStub.words, stubWords, if_pos hop]
      rfl
    rw [ExitStub.linkIndex, if_pos hop, ExitStub.sideIndex, hlen]
    split <;> omega
  · have hlen : (e.words h elf).length = 10 := by
      rw [ExitStub.words, stubWords, if_neg hop]
      split <;> rfl
    rw [ExitStub.linkIndex, if_neg hop, hlen]
    split <;> omega

end Stubs

/-! ### Allocation -/

/-- What the allocation of the block at `a` does to the cache `c`, in either
mode. -/
structure Allocated (h : Host) (elf : ElfReader) (a : DWord) (c c' : CodeCache) : Prop where
  memory : c.memory <+: c'.memory
  keeps : c.railBasicBlocks (asInt a) = none → c.Keeps c'
  other : ∀ x, asInt x ≠ x → c'.railBasicBlocks x = c.railBasicBlocks x
  packed : c'.Fits → ∀ lo, lo ≤ c.size → Packed lo c.size (c.extents h) →
    Packed lo c'.size (c'.extents h)
  exits : c'.exits = c.exits ∨ ∃ e : ExitStub, c.memory.length < e.index ∧
    IsTerminal (e.word elf) ∧ StandsAt c'.memory e.index (e.words h elf) ∧
    (c'.Fits → c'.HasExit h elf e) ∧
    c'.exits = Function.update c.exits e.address (some (e.exit h elf))

section Allocation

variable {h : Host} {r : Rail} {elf : ElfReader} {c c₁ c' : CodeCache} {a q : BitVec 32}
  {ps : List Piece} {e : BlockEnd} {lo : ℕ}

theorem packed_placed {x : DWord} {b : RailBasicBlock} {ws after : List Word}
    (hplace : Placed h b c.memoryIndex ws) (hpos : 0 < ws.length)
    (hmem : c'.memory = c.memory ++ (ws ++ after))
    (hblocks : c'.railBasicBlocks = Function.update c.railBasicBlocks x (some b))
    (hfits : c'.Fits) (hlo : lo ≤ c.size) (hp : Packed lo c.size (c.extents h)) :
    Packed lo c'.size (c'.extents h) := by
  refine packed_record hp hlo hplace.startLocationInCache hplace.endLocationInCache le_rfl
    (Nat.lt_add_of_pos_right hpos) ?_ hfits (x := x) ?_ ?_
  · rw [CodeCache.memoryIndex, CodeCache.memoryIndex, hmem]
    simp only [List.length_append]
    omega
  · rw [hblocks, Function.update_self]
  · intro y hy
    rw [hblocks, Function.update_of_ne hy]

theorem length_walkedWords_pos (ps : List Piece) : 0 < (walkedWords ps).length := by
  rw [walkedWords, List.length_append, restoreScratch, List.length_singleton]
  omega

theorem MainAdded.packed (hadd : MainAdded h elf a c ps q e c') (hfits : c'.Fits)
    (hlo : lo ≤ c.size) (hp : Packed lo c.size (c.extents h)) :
    Packed lo c'.size (c'.extents h) := by
  have hle := size_le hadd.memory
  have hpos := length_walkedWords_pos ps
  cases hadd with
  | closed _ _ hplace => exact packed_placed hplace hpos rfl rfl hfits hlo hp
  | cut _ _ hplace =>
      refine packed_placed hplace ?_ (congrArg _ (List.append_nil _).symm) rfl hfits hlo hp
      rw [List.length_append]
      omega
  | left => exact hp.mono hle

theorem PreAdded.packed (hadd : PreAdded h elf a c q e c') (hfits : c'.Fits) (hlo : lo ≤ c.size)
    (hp : Packed lo c.size (c.extents h)) : Packed lo c'.size (c'.extents h) := by
  cases hadd with
  | none => exact hp
  | added _ _ hplace =>
      refine packed_placed hplace ?_ (congrArg _ (List.append_nil _).symm) rfl hfits hlo hp
      rw [preWords, List.length_append, length_exitTo]
      omega

theorem MainAdded.blocks (hadd : MainAdded h elf a c ps q e c') {x : DWord}
    (hx : x ≠ a.signExtend 64) : c'.railBasicBlocks x = c.railBasicBlocks x := by
  cases hadd with
  | closed => exact Function.update_of_ne hx _ _
  | cut => exact Function.update_of_ne hx _ _
  | left => rfl

theorem PreAdded.blocks (hadd : PreAdded h elf a c q e c') {x : DWord}
    (hx : x ≠ q.signExtend 64) : c'.railBasicBlocks x = c.railBasicBlocks x := by
  cases hadd with
  | none => rfl
  | added => exact Function.update_of_ne hx _ _

theorem PreAdded.keeps (hadd : PreAdded h elf a c q e c') : c.Keeps c' := by
  have hblocks (x : DWord) (hx : x ≠ q.signExtend 64) :
      c'.railBasicBlocks x = c.railBasicBlocks x := hadd.blocks hx
  cases hadd with
  | none => exact keeps_of_eq rfl
  | added hnew => exact keeps_of_new hnew hblocks

theorem ne_signExtend_of_asInt {x : DWord} (hx : asInt x ≠ x) (pc : BitVec 32) :
    x ≠ pc.signExtend 64 := by
  rintro rfl
  exact hx (asInt_signExtend pc)

theorem allocated_bb (h : Host) (r : Rail) (elf : ElfReader) (c : CodeCache) (a : DWord) :
    Allocated h elf a c (allocateBB h r elf c a).2 := by
  obtain ⟨ps, q, e, c₁, -, -, hmain, hpre, -⟩ := allocateBB_walk h r elf c a
  refine ⟨hmain.memory.trans hpre.memory, fun hnone => ?_, fun x hx => ?_,
    fun hfits lo hlo hp => ?_, .inl (hpre.exits.trans hmain.exits)⟩
  · exact (keeps_of_new hnone fun x hx => hmain.blocks hx).trans hpre.keeps
  · rw [hpre.blocks (ne_signExtend_of_asInt hx q), hmain.blocks (ne_signExtend_of_asInt hx _)]
  · have hfits₁ : c₁.Fits := hpre.memory.length_le.trans hfits
    exact hpre.packed hfits (hlo.trans (size_le hmain.memory)) (hmain.packed hfits₁ hlo hp)

/-- A trace that has stopped ends with the exit stub of its last instruction. -/
theorem TraceRecord.endOf {a : DWord} {e : TraceEnd} {b : RailBasicBlock}
    (hrec : TraceRecord h elf a c c' q e b) (hfits : c'.Fits) (he : e = .stopped) {k : ℕ}
    (hk : c.memory.length ≤ k)
    (hlen : k + (stubWords h (q.signExtend 64) (elf.fetch q)).length ≤ c'.memory.length) :
    (⟨k, q⟩ : ExitStub).EndOf h elf b where
  lastAddr := hrec.lastAddr
  terminalInst := hrec.terminalInst
  type := hrec.type he
  start_le := by
    have hfits' : c'.memory.length ≤ cacheSize / 4 := hfits
    rw [hrec.startLocationInCache, CodeCache.here, CodeCache.memoryIndex,
      offset_wordAddr h (by omega)]
    exact Nat.mul_le_mul_left 4 hk
  le_end := by
    rw [hrec.endLocationInCache, CodeCache.here, CodeCache.memoryIndex, offset_wordAddr h hfits]
    exact Nat.mul_le_mul_left 4 hlen

theorem allocated_trace (h : Host) (r : Rail) (elf : ElfReader) (c : CodeCache) (a : DWord)
    (n : ℕ) : Allocated h elf a c (allocateTrace h r elf c a n).2 := by
  obtain ⟨ps, q, e, hwalk, -, hmem, hblocks, ⟨b, hb, hrec⟩, hexits, hstub, -⟩ :=
    allocateTrace_walk h r elf c a n
  generalize (allocateTrace h r elf c a n).2 = c' at *
  have hgrown : c.memory <+: c'.memory := ⟨_, hmem.symm⟩
  refine ⟨hgrown, fun hnone => keeps_of_new hnone hblocks, fun x hx => ?_,
    fun hfits lo hlo hp => ?_, ?_⟩
  · exact hblocks x (ne_signExtend_of_asInt hx _)
  · refine packed_record hp hlo hrec.startLocationInCache hrec.endLocationInCache le_rfl ?_ le_rfl
      hfits hb hblocks
    rw [CodeCache.memoryIndex, CodeCache.memoryIndex, hmem, restoreScratch]
    simp only [List.length_append, List.length_singleton]
    omega
  · by_cases he : e = .stopped
    · obtain ⟨k, hk, hstands, hex⟩ := hstub he
      refine .inr ⟨⟨k, q⟩, hk, hwalk.isTerminal he, hstands, fun hfits => ?_, hex⟩
      exact ⟨asInt a, b, hb, hrec.endOf hfits he hk.le hstands.length_le⟩
    · exact .inl (hexits he)

theorem allocated (h : Host) (r : Rail) (elf : ElfReader) (c : CodeCache) (a : DWord) (n : ℕ) :
    Allocated h elf a c (allocate h r elf c a n).2 := by
  rw [allocate]
  split
  · exact allocated_trace h r elf c a n
  · exact allocated_bb h r elf c a

theorem Allocated.of_setProgramCounter {x : BitVec 32} {a : DWord}
    (hadd : Allocated h (elf.setProgramCounter x) a c c') : Allocated h elf a c c' where
  memory := hadd.memory
  keeps := hadd.keeps
  other := hadd.other
  packed := hadd.packed
  exits := by
    rcases hadd.exits with hsame | ⟨e, hk, hterm, hstub, hexit, hexits⟩
    · exact .inl hsame
    · refine .inr ⟨e, hk, hterm, hstub, fun hfits => ?_, hexits⟩
      obtain ⟨x, b, hb, hend⟩ := hexit hfits
      exact ⟨x, b, hb, hend.lastAddr, hend.terminalInst, hend.type, hend.start_le, hend.le_end⟩

end Allocation

/-! ### The invariant -/

structure Arranged (h : Host) (elf : ElfReader) (c : CodeCache) : Prop where
  fits : c.Fits
  root_le : rootEnd h elf ≤ c.size
  packed : Packed (rootEnd h elf) c.size (c.extents h)

/-- What holds of the cache in every reachable state, for the exit stubs that
have been emitted so far. -/
structure LaidOut (h : Host) (elf : ElfReader) (c : CodeCache) (stubs : Set ExitStub) : Prop
    extends Arranged h elf c where
  terminal : ∀ e ∈ stubs, IsTerminal (e.word elf)
  apart : ∀ e ∈ stubs, ∀ e' ∈ stubs, e ≠ e' →
    e.index + (e.words h elf).length ≤ e'.index ∨ e'.index + (e'.words h elf).length ≤ e.index
  stands : ∀ e ∈ stubs, StandsBut c.memory e.index (e.words h elf) (e.linkHoles elf)
  hasExit : ∀ e ∈ stubs, c.HasExit h elf e
  exits : ∀ a exitAddr, c.exits a = some exitAddr →
    ∃ e ∈ stubs, a = e.address ∧ exitAddr = e.exit h elf

/-- The cache `c'` is `c` after `link` has been called for the exit `e`, with the
guest address `a`. -/
structure LinkedThrough (h : Host) (elf : ElfReader) (a taken : DWord) (c c' : CodeCache)
    (e : ExitStub) : Prop where
  address : a = e.address
  recorded : c.exits a = some (e.exit h elf)
  hasExit : c.HasExit h elf e
  stands : StandsBut c.memory e.index (e.words h elf) (e.linkHoles elf)
  linked : ∃ start, c'.memory = (link c (e.exit h elf) start taken).memory
  inside : ∀ i, c'.memory[i]? ≠ c.memory[i]? →
    e.index ≤ i ∧ i < e.index + (e.words h elf).length

def ExitStub.Direct (elf : ElfReader) (e : ExitStub) : Prop :=
  (e.word elf).opcode = Opcode.branch ∨ (e.word elf).opcode = Opcode.jal

/-- What a step writes: it adds words, and a call may link an exit. It is the
exit of a direct branch if the call passes what the code in the cache passes:
no address, or one that has been recorded. -/
inductive Written (h : Host) (elf : ElfReader) (c c' : CodeCache) : Event → Prop
  | added {e : Event} (hmem : c.memory <+: c'.memory) : Written h elf c c' e
  | linked {io : IoRequest → DWord} {f : TrapFrame} {taken a : DWord} {c₁ : CodeCache}
      {e : ExitStub} (hmem : c.memory <+: c₁.memory)
      (hlink : LinkedThrough h elf a taken c₁ c' e)
      (hdirect : a = 0 ∨ (c.exits a).isSome → e.Direct elf) :
      Written h elf c c' (.call io f taken a)

section Steps

variable {h : Host} {r : Rail} {elf : ElfReader} {c c' : CodeCache} {stubs : Set ExitStub}

theorem Arranged.of_extents (ha : Arranged h elf c) (hlen : c'.memory.length = c.memory.length)
    (hext : c'.extents h = c.extents h) : Arranged h elf c' where
  fits := by
    rw [CodeCache.Fits, hlen]
    exact ha.fits
  root_le := by
    rw [CodeCache.size, CodeCache.memoryIndex, hlen]
    exact ha.root_le
  packed := by
    rw [CodeCache.size, CodeCache.memoryIndex, hlen, hext]
    exact ha.packed

theorem LaidOut.of_keeps (hl : LaidOut h elf c stubs) (hmem : c'.memory = c.memory)
    (hexits : c'.exits = c.exits) (hkeeps : c.Keeps c') (hext : c'.extents h = c.extents h) :
    LaidOut h elf c' stubs where
  toArranged := hl.toArranged.of_extents (congrArg List.length hmem) hext
  terminal := hl.terminal
  apart := hl.apart
  stands e he := by
    rw [hmem]
    exact hl.stands e he
  hasExit e he := hkeeps.hasExit (hl.hasExit e he)
  exits a exitAddr hexit := hl.exits a exitAddr (by rwa [hexits] at hexit)

theorem keeps_lookup (c : CodeCache) (a : DWord) : c.Keeps (c.lookup a).2 := by
  intro x b hb
  exact ⟨b, railBasicBlocks_lookup hb a, .inl rfl⟩

theorem extents_lookup (h : Host) (c : CodeCache) (a : DWord) :
    (c.lookup a).2.extents h = c.extents h := by
  funext x
  rw [CodeCache.lookup]
  split
  · rfl
  · rename_i hnone
    rw [CodeCache.extents, CodeCache.extents, CodeCache.railBasicBlocks_insertAt]
    by_cases hx : x = a
    · rw [hx, Function.update_self, hnone]
      rfl
    · rw [Function.update_of_ne hx]

theorem LaidOut.lookup (hl : LaidOut h elf c stubs) (a : DWord) :
    LaidOut h elf (c.lookup a).2 stubs :=
  hl.of_keeps (memory_lookup c a) (exits_lookup c a) (keeps_lookup c a) (extents_lookup h c a)

theorem keeps_renameSegment {a : DWord} {next : RailBasicBlock}
    (hnext : c.railBasicBlocks a = some next) (bb : DWord) :
    c.Keeps (c.renameSegment a next bb) := by
  intro x b hb
  rw [CodeCache.renameSegment]
  split
  · rename_i hseg
    rw [CodeCache.railBasicBlocks_insertAt]
    by_cases hx : x = a
    · subst hx
      obtain rfl : next = b := Option.some.inj (hnext.symm.trans hb)
      rw [Function.update_self]
      exact ⟨_, rfl, .inr ⟨hseg, rfl⟩⟩
    · rw [Function.update_of_ne hx]
      exact ⟨b, hb, .inl rfl⟩
  · exact ⟨b, hb, .inl rfl⟩

theorem extents_renameSegment {a : DWord} {next : RailBasicBlock}
    (hnext : c.railBasicBlocks a = some next) (bb : DWord) :
    (c.renameSegment a next bb).extents h = c.extents h := by
  funext x
  rw [CodeCache.renameSegment]
  split
  · rename_i hseg
    rw [CodeCache.extents, CodeCache.extents, CodeCache.railBasicBlocks_insertAt]
    by_cases hx : x = a
    · rw [hx, Function.update_self, hnext]
      have hne (bb : DWord) : { next with basicBlockAddress := bb } ≠ RailBasicBlock.empty := by
        intro hempty
        have htype := congrArg RailBasicBlock.type hempty
        rw [show ({ next with basicBlockAddress := bb } : RailBasicBlock).type = .segmented from
          hseg] at htype
        cases htype
      show RailBasicBlock.extent h _ = RailBasicBlock.extent h _
      rw [RailBasicBlock.extent, if_neg (hne bb), RailBasicBlock.extent,
        if_neg (hne next.basicBlockAddress)]
    · rw [Function.update_of_ne hx]
  · rfl

theorem Arranged.allocate (ha : Arranged h elf c) {a : DWord} (hadd : Allocated h elf a c c')
    (hfits : c'.Fits) : Arranged h elf c' where
  fits := hfits
  root_le := ha.root_le.trans (size_le hadd.memory)
  packed := hadd.packed hfits _ ha.root_le ha.packed

theorem LaidOut.allocate (hl : LaidOut h elf c stubs) {a : DWord} (hadd : Allocated h elf a c c')
    (hnone : c.railBasicBlocks (asInt a) = none) (hfits : c'.Fits) :
    ∃ stubs', LaidOut h elf c' stubs' := by
  have harranged := hl.toArranged.allocate hadd hfits
  have hstands (e : ExitStub) (he : e ∈ stubs) := (hl.stands e he).mono hadd.memory
  have hhas (e : ExitStub) (he : e ∈ stubs) := (hadd.keeps hnone).hasExit (hl.hasExit e he)
  rcases hadd.exits with hsame | ⟨new, hk, hterm, hstub, hnew, hexits⟩
  · refine ⟨stubs, harranged, hl.terminal, hl.apart, hstands, hhas, ?_⟩
    intro a exitAddr hexit
    rw [hsame] at hexit
    exact hl.exits a exitAddr hexit
  · have hbefore (e : ExitStub) (he : e ∈ stubs) : e.index + (e.words h elf).length ≤ new.index :=
      (hl.stands e he).length_le.trans hk.le
    refine ⟨insert new stubs, harranged, ?_, ?_, ?_, ?_, ?_⟩
    · rintro e (rfl | he)
      · exact hterm
      · exact hl.terminal e he
    · rintro e (rfl | he) e' (rfl | he') hne
      · exact absurd rfl hne
      · exact .inr (hbefore e' he')
      · exact .inl (hbefore e he)
      · exact hl.apart e he e' he' hne
    · rintro e (rfl | he)
      · exact hstub.standsBut _
      · exact hstands e he
    · rintro e (rfl | he)
      · exact hnew hfits
      · exact hhas e he
    · intro a exitAddr hexit
      rw [hexits, Function.update_apply] at hexit
      by_cases ha : a = new.address
      · rw [if_pos ha] at hexit
        exact ⟨new, .inl rfl, ha, (Option.some.inj hexit).symm⟩
      · rw [if_neg ha] at hexit
        obtain ⟨e, he, hsame⟩ := hl.exits a exitAddr hexit
        exact ⟨e, .inr he, hsame⟩

theorem LaidOut.link (hbase : h.base = 0x01000000) (hl : LaidOut h elf c stubs) {e : ExitStub}
    (he : e ∈ stubs) (start taken : DWord) :
    LaidOut h elf (RailTranslator.link c (e.exit h elf) start taken) stubs ∧
      ∀ i, (RailTranslator.link c (e.exit h elf) start taken).memory[i]? ≠ c.memory[i]? →
        e.index ≤ i ∧ i < e.index + (e.words h elf).length := by
  have hinside := linkIndex_inside h elf e (decide (taken ≠ 0))
  have hlen := (hl.stands e he).length_le
  have hfits := hl.fits
  rw [CodeCache.Fits, cacheSize] at hfits
  rw [link_at hbase (exit_add_linkIndex h elf e taken) (by omega) start]
  have hhole : e.linkIndex elf (decide (taken ≠ 0)) ∈ e.linkHoles elf ∧
      e.linkIndex elf (decide (taken ≠ 0)) + 1 ∈ e.linkHoles elf :=
    ⟨⟨_, .inl rfl⟩, ⟨_, .inr rfl⟩⟩
  generalize e.linkIndex elf (decide (taken ≠ 0)) = k at hinside hhole
  refine ⟨⟨?_, hl.terminal, hl.apart, ?_, hl.hasExit, hl.exits⟩, ?_⟩
  · refine hl.toArranged.of_extents ?_ rfl
    rw [List.length_set, List.length_set]
  · intro e' he'
    by_cases hee : e' = e
    · subst hee
      exact ((hl.stands e' he').set (.inl hhole.1) _).set (.inl hhole.2) _
    · have hapart := hl.apart e' he' e he hee
      exact ((hl.stands e' he').set (.inr (by omega)) _).set (.inr (by omega)) _
  · intro i hne
    by_contra hout
    apply hne
    show (List.set (c.memory.set k _) (k + 1) _)[i]? = c.memory[i]?
    rw [List.getElem?_set_ne (by omega), List.getElem?_set_ne (by omega)]

theorem LaidOut.linkExit (hbase : h.base = 0x01000000) (hl : LaidOut h elf c stubs)
    (exitType : BasicBlockType) (a taken : DWord) (next : RailBasicBlock) :
    LaidOut h elf (linkExit r c exitType a next taken) stubs ∧
      (linkExit r c exitType a next taken = c ∨ exitType = .directBranch ∧
        ∃ e ∈ stubs, LinkedThrough h elf a taken c (linkExit r c exitType a next taken) e) := by
  by_cases hlink : r.traceLinkingEnabled = true ∧ exitType = .directBranch
  · rw [RailTranslator.linkExit, if_pos hlink]
    rcases hexit : c.exits a with _ | exitAddr
    · exact ⟨hl, .inl rfl⟩
    · obtain ⟨e, he, haddr, rfl⟩ := hl.exits a exitAddr hexit
      obtain ⟨hl', hinside⟩ := hl.link hbase he next.startLocationInCache taken
      exact ⟨hl', .inr ⟨hlink.2, e, he, haddr, hexit, hl.hasExit e he, hl.stands e he, ⟨_, rfl⟩,
        hinside⟩⟩
  · rw [RailTranslator.linkExit, if_neg hlink]
    exact ⟨hl, .inl rfl⟩

end Steps

/-! ### Runs -/

section Run

variable {h : Host} {r : Rail} {cb : Callbacks} {elf : ElfReader}
  {cfgGenerator : Option CfgGenerator} {d d' : Dispatcher} {stubs : Set ExitStub}

/-- The exit `stub` is told about is a direct branch if it takes what has been
left for one. -/
theorem direct_of_left (hzero : elf.fetch 0 = 0) (hd : d.Reads elf) {a : DWord}
    (ha : a = 0 ∨ (d.cache.exits a).isSome) (hleft : (d.left h a).exitType = .directBranch)
    {e : ExitStub} (hterm : IsTerminal (e.word elf)) (haddr : a = e.address) : e.Direct elf := by
  obtain ⟨pc, hpc⟩ := hd
  have hlow : a.setWidth 32 = e.pc := by
    rw [haddr]
    exact low_ofLow e.pc
  have hne : a ≠ 0 := by
    rintro rfl
    have hword : e.word elf = 0 := by
      rw [ExitStub.word, ← hlow]
      exact hzero
    rw [hword] at hterm
    revert hterm
    decide
  rw [left_recorded hpc hne (ha.resolve_left hne), hlow] at hleft
  rcases hterm with hop | hop | hop | hop
  · exact .inl hop
  · exact .inr hop
  · exact absurd hleft (guestExit_other (.inl hop))
  · exact absurd hleft (guestExit_other (.inr hop))

/-- The block of the successor is looked for: it is there, or it is allocated
under an address that has none. -/
theorem allocated_next {c c' : CodeCache} {pc : BitVec 32} {a : DWord} {next : RailBasicBlock}
    (hc' : c' = if (c.railBasicBlocks a).isNone then
      (RailTranslator.allocate h r (elf.setProgramCounter pc) c a 10).2 else c)
    (hnext : c'.railBasicBlocks a = some next) :
    c' = c ∨ Allocated h elf a c c' ∧ c.railBasicBlocks (asInt a) = none := by
  rcases hb : c.railBasicBlocks a with _ | b
  · right
    rw [hb] at hc'
    have hadd : Allocated h elf a c c' := by
      rw [hc']
      exact (allocated h r (elf.setProgramCounter pc) c a 10).of_setProgramCounter
    have ha : asInt a = a := by
      by_contra hne
      rw [hadd.other a hne, hb] at hnext
      cases hnext
    exact ⟨hadd, by rw [ha, hb]⟩
  · left
    rw [hc', hb]
    rfl

/-- The caches of a call: `c₁` has the block of the successor. -/
theorem StubStep.caches {io : IoRequest → DWord} {f : TrapFrame} {taken a : DWord} {res : Resume}
    {s : Successor} {next : RailBasicBlock} (hst : StubStep h r cb io d f taken a res s next)
    (hd : d.Reads elf) : ∃ c₁,
      (c₁ = d.lookedUp.cache ∨ Allocated h elf s.nextBlockAddr d.lookedUp.cache c₁ ∧
        d.lookedUp.cache.railBasicBlocks (asInt s.nextBlockAddr) = none) ∧
      c₁.railBasicBlocks s.nextBlockAddr = some next ∧
      res.dispatcher.cache.memory.length = c₁.memory.length ∧
      res.dispatcher.cache = ((linkExit r c₁ (d.left h a).exitType a next taken).renameSegment
        s.nextBlockAddr next s.current.basicBlockAddress).setCurrentBB next.firstAddr := by
  obtain ⟨pc, hpc⟩ := hd.readerBehind (h := h) a
  have hallocated := allocateNext_cache hst.leave
  rw [hpc] at hallocated
  exact ⟨_, allocated_next hallocated hst.registered, hst.registered, hst.memory_length, hst.cache⟩

theorem keeps_step (hd : d.Reads elf) {e : Event}
    (hstep : (dispatch h r cb elf cfgGenerator).step d e = some d') : d.cache.Keeps d'.cache := by
  cases e with
  | instrument f =>
      obtain rfl := Option.some.inj hstep
      rw [instrument_dispatcher]
      exact keeps_lookup _ _
  | call io f taken a =>
      obtain ⟨res, hstub, rfl⟩ := Option.map_eq_some_iff.mp hstep
      obtain ⟨s, next, hst⟩ := stub_step (StubOutcome.eq_returned hstub)
      obtain ⟨c₁, hc₁, hregistered, -, hcache⟩ := hst.caches hd
      have hlookup : d.cache.Keeps d.lookedUp.cache := keeps_lookup _ _
      have hfound : d.lookedUp.cache.Keeps c₁ := by
        rcases hc₁ with rfl | ⟨hadd, hnone⟩
        · exact keeps_of_eq rfl
        · exact hadd.keeps hnone
      have hnext : (linkExit r c₁ (d.left h a).exitType a next taken).railBasicBlocks
          s.nextBlockAddr = some next := by
        rw [railBasicBlocks_linkExit]
        exact hregistered
      rw [hcache]
      exact ((hlookup.trans hfound).trans
        (keeps_of_eq (railBasicBlocks_linkExit _ _ _ _))).trans (keeps_renameSegment hnext _)

theorem Arranged.step (ha : Arranged h elf d.cache) (hd : d.Reads elf) {e : Event}
    (hstep : (dispatch h r cb elf cfgGenerator).step d e = some d') (hfits : d'.cache.Fits) :
    Arranged h elf d'.cache := by
  cases e with
  | instrument f =>
      obtain rfl := Option.some.inj hstep
      rw [instrument_dispatcher]
      refine ha.of_extents ?_ (extents_lookup h _ _)
      exact congrArg List.length (memory_lookup _ _)
  | call io f taken a =>
      obtain ⟨res, hstub, rfl⟩ := Option.map_eq_some_iff.mp hstep
      obtain ⟨s, next, hst⟩ := stub_step (StubOutcome.eq_returned hstub)
      obtain ⟨c₁, hc₁, hregistered, hlen, hcache⟩ := hst.caches hd
      have hlook : Arranged h elf d.lookedUp.cache :=
        ha.of_extents (congrArg List.length (memory_lookup _ _)) (extents_lookup h _ _)
      have hfound : Arranged h elf c₁ := by
        rcases hc₁ with rfl | ⟨hadd, hnone⟩
        · exact hlook
        · refine hlook.allocate hadd ?_
          rw [CodeCache.Fits, ← hlen]
          exact hfits
      have hnext : (linkExit r c₁ (d.left h a).exitType a next taken).railBasicBlocks
          s.nextBlockAddr = some next := by
        rw [railBasicBlocks_linkExit]
        exact hregistered
      refine hfound.of_extents hlen ?_
      rw [hcache]
      refine (extents_renameSegment hnext _).trans ?_
      funext x
      rw [CodeCache.extents, railBasicBlocks_linkExit]
      rfl

theorem LaidOut.step (hbase : h.base = 0x01000000) (hzero : elf.fetch 0 = 0)
    (hl : LaidOut h elf d.cache stubs) (hd : d.Reads elf) {e : Event}
    (hstep : (dispatch h r cb elf cfgGenerator).step d e = some d') (hfits : d'.cache.Fits) :
    (∃ stubs', LaidOut h elf d'.cache stubs') ∧ Written h elf d.cache d'.cache e := by
  cases e with
  | instrument f =>
      obtain rfl := Option.some.inj hstep
      rw [instrument_dispatcher]
      refine ⟨⟨stubs, hl.lookup _⟩, .added ?_⟩
      show d.cache.memory <+: (d.cache.lookup _).2.memory
      rw [memory_lookup]
  | call io f taken a =>
      obtain ⟨res, hstub, rfl⟩ := Option.map_eq_some_iff.mp hstep
      obtain ⟨s, next, hst⟩ := stub_step (StubOutcome.eq_returned hstub)
      obtain ⟨c₁, hc₁, hregistered, hlen, hcache⟩ := hst.caches hd
      have hmemory : d.lookedUp.cache.memory = d.cache.memory := memory_lookup _ _
      -- first the allocation, then the link
      obtain ⟨hadded, stubs', hl₁⟩ : d.cache.memory <+: c₁.memory ∧
          ∃ stubs', LaidOut h elf c₁ stubs' := by
        have hlook : LaidOut h elf d.lookedUp.cache stubs := hl.lookup _
        rw [← hmemory]
        rcases hc₁ with rfl | ⟨hadd, hnone⟩
        · exact ⟨List.prefix_rfl, stubs, hlook⟩
        · refine ⟨hadd.memory, hlook.allocate hadd hnone ?_⟩
          rw [CodeCache.Fits, ← hlen]
          exact hfits
      obtain ⟨hl₂, hlinked⟩ := hl₁.linkExit (r := r) hbase (d.left h a).exitType a taken next
      generalize hc₂ : RailTranslator.linkExit r c₁ (d.left h a).exitType a next taken = c₂ at *
      have hnext : c₂.railBasicBlocks s.nextBlockAddr = some next := by
        rw [← hc₂, railBasicBlocks_linkExit]
        exact hregistered
      have hmemory' : res.dispatcher.cache.memory = c₂.memory := by
        rw [hcache, CodeCache.memory_setCurrentBB, memory_renameSegment]
      refine ⟨⟨stubs', hl₂.of_keeps hmemory' ?_ ?_ ?_⟩, ?_⟩
      · rw [hcache, CodeCache.exits_setCurrentBB, exits_renameSegment]
      · rw [hcache]
        exact keeps_renameSegment hnext _
      · rw [hcache]
        exact extents_renameSegment hnext _
      · rcases hlinked with rfl | ⟨hdirect, e, he, hthrough⟩
        · refine .added ?_
          rw [hmemory']
          exact hadded
        · refine .linked hadded (e := e) ⟨hthrough.address, hthrough.recorded, hthrough.hasExit,
            hthrough.stands, ?_, ?_⟩ ?_
          · rw [hmemory']
            exact hthrough.linked
          · rw [hmemory']
            exact hthrough.inside
          · intro ha
            exact direct_of_left hzero hd ha hdirect (hl₁.terminal e he) hthrough.address

theorem arranged_root (h : Host) (elf : ElfReader) : Arranged h elf (allocateRoot h elf).2 where
  fits := show 4 ≤ cacheSize / 4 by decide
  root_le := le_rfl
  packed := packed_none _ _

theorem laidOut_root (h : Host) (elf : ElfReader) : LaidOut h elf (allocateRoot h elf).2 ∅ where
  toArranged := arranged_root h elf
  terminal _ he := he.elim
  apart _ he := he.elim
  stands _ he := he.elim
  hasExit _ he := he.elim
  exits _ _ hexit := by cases hexit

theorem allocated_entry (h : Host) (r : Rail) (elf : ElfReader) :
    Allocated h elf elf.entryAddr (allocateRoot h elf).2 (allocateEntry h r elf).2 :=
  (allocated h r (elf.setProgramCounter (elf.entry.setWidth 32)) _ _ 1).of_setProgramCounter

theorem laidOut_init (f : TrapFrame)
    (hfits : (init h r cb (rootDispatcher h elf cfgGenerator) f).dispatcher.cache.Fits) :
    ∃ stubs, LaidOut h elf (init h r cb (rootDispatcher h elf cfgGenerator) f).dispatcher.cache
      stubs := by
  obtain ⟨next, -, hinit⟩ := @init_dispatcher h r cb elf f cfgGenerator
  rw [hinit] at hfits ⊢
  have hfits' : (allocateEntry h r elf).2.Fits := by
    rw [CodeCache.Fits, ← memory_lookup _ elf.entryAddr]
    exact hfits
  obtain ⟨stubs, hl⟩ := (laidOut_root h elf).allocate (allocated_entry h r elf) rfl hfits'
  exact ⟨stubs, hl.lookup _⟩

/-- What holds behind a run, and what every step of it has done. -/
theorem laidOut_run (hbase : h.base = 0x01000000) (hzero : elf.fetch 0 = 0)
    {l : List (Dispatcher × Event)} (hrun : Run (dispatch h r cb elf cfgGenerator) Any l d)
    (hfits : d.cache.Fits) : d.Reads elf ∧ (∃ stubs, LaidOut h elf d.cache stubs) ∧
      ∀ s e, (s, e) ∈ l → s.cache.Keeps d.cache ∧
        ∃ s', (dispatch h r cb elf cfgGenerator).step s e = some s' ∧
          Written h elf s.cache s'.cache e := by
  induction hrun with
  | start hs =>
      obtain ⟨f, rfl⟩ := hs
      refine ⟨reads_init f, laidOut_init f hfits, ?_⟩
      intro s e hin
      cases hin
  | next hrun hok hstep ih =>
      obtain ⟨hd, ⟨stubs, hl⟩, hsteps⟩ := ih ((memory_le_of_step hstep).trans hfits)
      obtain ⟨hl', hwritten⟩ := hl.step hbase hzero hd hstep hfits
      have hkeeps := keeps_step hd hstep
      refine ⟨hd.step hstep, hl', ?_⟩
      intro s e hin
      rcases List.mem_append.mp hin with hin | hin
      · obtain ⟨hkeeps', hwritten'⟩ := hsteps s e hin
        exact ⟨hkeeps'.trans hkeeps, hwritten'⟩
      · obtain ⟨rfl, rfl⟩ := Prod.mk.inj (List.mem_singleton.mp hin)
        exact ⟨hkeeps, _, hstep, hwritten⟩

/-- In every run, as long as the cache is not full: the blocks lie apart from
one another between the root code and the end of what has been emitted, no
block has moved, and no word has been overwritten but by linking an exit. -/
theorem layout_kept (hbase : h.base = 0x01000000) (hzero : elf.fetch 0 = 0)
    {l : List (Dispatcher × Event)} (hrun : Run (dispatch h r cb elf cfgGenerator) Any l d)
    (hfits : d.cache.Fits) :
    Packed (rootEnd h elf) d.cache.size (d.cache.extents h) ∧
      ∀ s e, (s, e) ∈ l → Kept (s.cache.extents h) (d.cache.extents h) ∧
        ∃ s', (dispatch h r cb elf cfgGenerator).step s e = some s' ∧
          Written h elf s.cache s'.cache e := by
  obtain ⟨-, ⟨stubs, hl⟩, hsteps⟩ := laidOut_run hbase hzero hrun hfits
  refine ⟨hl.packed, ?_⟩
  intro s e hin
  obtain ⟨hkeeps, hwritten⟩ := hsteps s e hin
  exact ⟨hkeeps.extents, hwritten⟩

/-- `jal x0, 8; nop; jal x0, -8`, and a word the translator does not read. The
second trace ends with the first jump, like the first one, and it is the exit of
the second trace that is linked. -/
def loopText : ElfReader := .ofWords 0x10000 [0x0080006f, 0x00000013, 0xff9ff06f, 0x00000013]

theorem loopText_layout : ∃ l d,
    Run (dispatch requestedHost (Rail.plain true) idleCallbacks loopText none) Any l d ∧
      d.cache.extents requestedHost 0x10000 = some ⟨16, 60⟩ ∧
      d.cache.extents requestedHost 0x10008 = some ⟨60, 104⟩ ∧
      d.cache.memory.drop 24 = [0x01010113, 0xfddff06f] ∧
      Packed (rootEnd requestedHost loopText) d.cache.size (d.cache.extents requestedHost) ∧
      ∀ s e, (s, e) ∈ l →
        Kept (s.cache.extents requestedHost) (d.cache.extents requestedHost) ∧ ∃ s',
        (dispatch requestedHost (Rail.plain true) idleCallbacks loopText none).step s e = some s' ∧
          Written requestedHost loopText s.cache s'.cache e := by
  have hstep : ((dispatch requestedHost (Rail.plain true) idleCallbacks loopText none).step
      (started (Rail.plain true) loopText) (leaving 1 0x10000)).map (fun d =>
        (d.cache.extents requestedHost 0x10000, d.cache.extents requestedHost 0x10008,
          d.cache.memory.drop 24, d.cache.memory.length)) =
      some (some ⟨16, 60⟩, some ⟨60, 104⟩, [0x01010113, 0xfddff06f], 26) := by decide +kernel
  obtain ⟨d, hd, hfacts⟩ := Option.map_eq_some_iff.mp hstep
  obtain ⟨hfirst, hfacts⟩ := Prod.mk.inj hfacts
  obtain ⟨hsecond, hfacts⟩ := Prod.mk.inj hfacts
  obtain ⟨hwords, hlen⟩ := Prod.mk.inj hfacts
  have hfits : d.cache.Fits := by
    rw [CodeCache.Fits, hlen]
    decide
  have hrun := (run_started (Rail.plain true) loopText Any).next trivial hd
  exact ⟨_, d, hrun, hfirst, hsecond, hwords,
    layout_kept rfl (by decide +kernel) hrun hfits⟩

end Run

end RailTranslator
