import RailTranslator.StubSpec
import RailTranslator.TraceLayout

/-!
Linked exits, over whole runs of the dispatcher.

With trace linking `stub` overwrites two words of the exit it was called
through, so that the exit jumps to its successor's block. The dispatcher
knows an exit by the guest address of its instruction, and `exits` says where
it is; several traces may contain the same instruction, and `exits` then
means the last of them. `Linked` is what holds in every reachable state: the
exit stubs lie apart from one another and each of them is as it was emitted,
but for the sides that calls have come through, and those lead to the block
that is registered for the successor.
-/

namespace RailTranslator

open Rv64

/-! ### Exit stubs -/

/-- An exit stub: the index of its first word, and the guest instruction it
stands for. -/
structure ExitStub where
  index : ℕ
  pc : BitVec 32

namespace ExitStub

variable (h : Host) (elf : ElfReader) (e : ExitStub)

def word : Word := elf.fetch e.pc

/-- The guest address, the key of `exits`. -/
def address : DWord := e.pc.signExtend 64

def exit : DWord := exitAddress h e.index (e.word elf)

def words : List Word := stubWords h e.address (e.word elf)

def successor (taken : Bool) : DWord :=
  if (e.word elf).opcode = Opcode.branch then
    (e.pc + if taken then (e.word elf).immB.signExtend 32 else 4).signExtend 64
  else (e.pc + (e.word elf).immJ.signExtend 32).signExtend 64

def sideIndex (taken : Bool) : ℕ := e.index + if taken then 11 else 3

def sideWords (taken : Bool) : List Word :=
  traceExitTo e.address (if taken then h.contextSwitchTraceExitTaken else h.contextSwitchTraceExit)

def branchWord : Word := encodeBtype { decodeBtype h.junkInst (e.word elf) with imm := 36 }

end ExitStub

def ExitStub.patchIndex (elf : ElfReader) (e : ExitStub) (taken : Bool) : ℕ :=
  if (e.word elf).opcode = Opcode.branch then e.sideIndex taken else e.index + 8

/-- What `link` writes at address `a`. -/
def linkPatch (a start : DWord) : List Word :=
  [0x01010113, encodeJtypeFields Op.jal regs.zero ((start + 4 - (a + 4)).setWidth 32)]

def CodeCache.start (c : CodeCache) (a : DWord) : Option DWord :=
  (c.railBasicBlocks a).map (·.startLocationInCache)

/-! ### Calls through exits -/

/-- What has been recorded in `exits` so far, and which of the recorded exits
calls of `stub` have come through, on which side. -/
structure History where
  recorded : DWord → DWord → Prop
  patched : DWord → DWord → Bool → Prop

namespace History

def empty : History := ⟨fun _ _ => False, fun _ _ _ => False⟩

def record (H : History) (c : CodeCache) : History :=
  { H with recorded := fun a E => H.recorded a E ∨ c.exits a = some E }

def patch (H : History) (c : CodeCache) (a : DWord) (taken : Bool) : History :=
  { H with patched := fun a' E side =>
      H.patched a' E side ∨ (a' = a ∧ c.exits a = some E ∧ side = taken) }

end History

/-! ### The words of a stub -/

section

variable (h : Host) (elf : ElfReader) (c : CodeCache) (H : History)

/-- One side of a branch, as it was emitted or linked. -/
inductive SideState (e : ExitStub) (taken : Bool) : List Word → Prop
  | emitted (hn : ¬ H.patched e.address (e.exit h elf) taken) :
      SideState e taken (e.sideWords h taken)
  | linked {start : DWord} (hp : H.patched e.address (e.exit h elf) taken)
      (hb : c.start (e.successor elf taken) = some start) :
      SideState e taken (linkPatch (wordAddr h.base (e.sideIndex taken)) start ++
        (e.sideWords h taken).drop 2)

/-- An exit stub, as it was emitted or linked. The last two words of the stub
of a `jal` are overwritten. -/
inductive StubState (e : ExitStub) : List Word → Prop
  | branch {ws : Bool → List Word} (hop : (e.word elf).opcode = Opcode.branch)
      (hside : ∀ taken, SideState h elf c H e taken (ws taken)) :
      StubState e (inlineSave ++ e.branchWord h elf :: (ws false ++ ws true))
  | jump (hop : (e.word elf).opcode = Opcode.jal)
      (hn : ¬ H.patched e.address (e.exit h elf) true) : StubState e (e.words h elf)
  | linkedJump {start : DWord} (hop : (e.word elf).opcode = Opcode.jal)
      (hp : H.patched e.address (e.exit h elf) true)
      (hb : c.start (e.successor elf true) = some start) :
      StubState e ((e.words h elf).take 8 ++ linkPatch (wordAddr h.base (e.index + 8)) start)
  | other (hop : (e.word elf).opcode = Opcode.jalr ∨ (e.word elf).opcode = Opcode.system) :
      StubState e (e.words h elf)

structure Linked (stubs : Set ExitStub) : Prop where
  fits : c.Fits
  apart : ∀ e ∈ stubs, ∀ e' ∈ stubs, e ≠ e' →
    e.index + (e.words h elf).length ≤ e'.index ∨ e'.index + (e'.words h elf).length ≤ e.index
  stands : ∀ e ∈ stubs, ∃ ws, StubState h elf c H e ws ∧ StandsAt c.memory e.index ws
  recorded : ∀ a E, H.recorded a E → ∃ e ∈ stubs, a = e.address ∧ E = e.exit h elf
  exits : ∀ a E, c.exits a = some E → H.recorded a E
  patched : ∀ a E taken, H.patched a E taken → H.recorded a E
  aligned : ∀ a start, c.start a = some start → start.toNat % 4 = 0

end

/-! ### Linking one stub -/

section Stub

variable {h : Host} {elf : ElfReader} {c c' : CodeCache} {H H' : History} {e : ExitStub}
  {ws : List Word}

theorem length_words_pos (e : ExitStub) : 0 < (e.words h elf).length := by
  rw [ExitStub.words, stubWords, List.length_append, inlineSave, List.length_cons]
  omega

theorem words_of_jal (hop : (e.word elf).opcode = Opcode.jal) :
    e.words h elf = inlineSave ++ traceExitTo e.address h.contextSwitchTraceExitTaken := by
  have hne : (e.word elf).opcode ≠ Opcode.branch := by rw [hop]; decide
  have hsys : (e.word elf).opcode ≠ Opcode.system := by rw [hop]; decide
  rw [ExitStub.words, stubWords, if_neg hne, if_neg hsys]

theorem patchIndex_of_jal {taken : Bool} (hop : (e.word elf).opcode = Opcode.jal) :
    e.patchIndex elf taken = e.index + 8 :=
  if_neg (by rw [hop]; decide)

theorem patchIndex_inside (hop : (e.word elf).opcode = Opcode.branch ∨
    (e.word elf).opcode = Opcode.jal) (taken : Bool) :
    e.index ≤ e.patchIndex elf taken ∧
      e.patchIndex elf taken + 1 < e.index + (e.words h elf).length := by
  rcases hop with hop | hop
  · have hlen : (e.words h elf).length = 19 := by
      rw [ExitStub.words, stubWords, if_pos hop]
      rfl
    rw [ExitStub.patchIndex, if_pos hop, ExitStub.sideIndex, hlen]
    split <;> omega
  · have hlen : (e.words h elf).length = 10 := by
      rw [words_of_jal hop]
      rfl
    rw [patchIndex_of_jal hop, hlen]
    omega

theorem SideState.shape {taken : Bool} (hs : SideState h elf c H e taken ws) :
    ∃ x y, ws = x :: y :: (e.sideWords h taken).drop 2 := by
  cases hs with
  | emitted => exact ⟨_, _, rfl⟩
  | linked => exact ⟨_, _, rfl⟩

theorem StubState.length (hs : StubState h elf c H e ws) : ws.length = (e.words h elf).length := by
  cases hs with
  | branch hop hside =>
      obtain ⟨x, y, h0⟩ := (hside false).shape
      obtain ⟨x', y', h1⟩ := (hside true).shape
      rw [h0, h1, ExitStub.words, stubWords, if_pos hop]
      rfl
  | jump => rfl
  | linkedJump hop =>
      rw [words_of_jal hop]
      rfl
  | other => rfl

theorem SideState.mono {taken : Bool} (hs : SideState h elf c H e taken ws)
    (hstart : ∀ a start, c.start a = some start → c'.start a = some start)
    (hpatch : H'.patched e.address (e.exit h elf) taken ↔
      H.patched e.address (e.exit h elf) taken) : SideState h elf c' H' e taken ws := by
  cases hs with
  | emitted hn => exact .emitted (mt hpatch.mp hn)
  | linked hp hb => exact .linked (hpatch.mpr hp) (hstart _ _ hb)

/-- A stub does not change as long as nothing comes through it and the blocks
stay where they are. -/
theorem StubState.mono (hs : StubState h elf c H e ws)
    (hstart : ∀ a start, c.start a = some start → c'.start a = some start)
    (hpatch : ∀ taken, H'.patched e.address (e.exit h elf) taken ↔
      H.patched e.address (e.exit h elf) taken) : StubState h elf c' H' e ws := by
  cases hs with
  | branch hop hside =>
      exact .branch hop fun taken => (hside taken).mono hstart (hpatch taken)
  | jump hop hn => exact .jump hop (mt (hpatch true).mp hn)
  | linkedJump hop hp hb => exact .linkedJump hop ((hpatch true).mpr hp) (hstart _ _ hb)
  | other hop => exact .other hop

/-- The two words that are overwritten when a call has come through a stub. -/
theorem StubState.link (hs : StubState h elf c H e ws) {taken : Bool} {start : DWord}
    (hop : (e.word elf).opcode = Opcode.branch ∨
      (e.word elf).opcode = Opcode.jal ∧ taken = true)
    (hb : c.start (e.successor elf taken) = some start)
    (hpatch : ∀ side, H'.patched e.address (e.exit h elf) side ↔
      H.patched e.address (e.exit h elf) side ∨ side = taken) :
    ∃ x y, linkPatch (wordAddr h.base (e.patchIndex elf taken)) start = [x, y] ∧
      StubState h elf c H' e ((ws.set (e.patchIndex elf taken - e.index) x).set
        (e.patchIndex elf taken - e.index + 1) y) := by
  refine ⟨_, _, rfl, ?_⟩
  have hpatched := (hpatch taken).mpr (.inr rfl)
  cases hs with
  | @branch sides hop' hside =>
      obtain ⟨x, y, h0⟩ := (hside false).shape
      obtain ⟨x', y', h1⟩ := (hside true).shape
      -- only the side that the call came through changes
      have hother (side : Bool) (hne : side ≠ taken) : SideState h elf c H' e side (sides side) :=
        (hside side).mono (fun _ _ => id) ((hpatch side).trans (or_iff_left hne))
      have hnew : SideState h elf c H' e taken
          (linkPatch (wordAddr h.base (e.sideIndex taken)) start ++
            (e.sideWords h taken).drop 2) := .linked hpatched hb
      have hstate : StubState h elf c H' e (inlineSave ++ e.branchWord h elf ::
          (Function.update sides taken _ false ++ Function.update sides taken _ true)) :=
        .branch hop' fun side => by
          by_cases hne : side = taken
          · subst hne
            rw [Function.update_self]
            exact hnew
          · rw [Function.update_of_ne hne]
            exact hother side hne
      rw [ExitStub.patchIndex, if_pos hop', ExitStub.sideIndex, Nat.add_sub_cancel_left]
      cases taken with
      | true =>
          rw [Function.update_self, Function.update_of_ne (by decide)] at hstate
          rw [h0] at hstate ⊢
          rw [h1]
          exact hstate
      | false =>
          rw [Function.update_self, Function.update_of_ne (by decide)] at hstate
          rw [h0]
          exact hstate
  | jump hop' hn =>
      obtain rfl : taken = true := (hop.resolve_left (by rw [hop']; decide)).2
      have hstate := StubState.linkedJump hop' hpatched hb
      rw [patchIndex_of_jal hop', Nat.add_sub_cancel_left]
      rw [words_of_jal hop'] at hstate ⊢
      exact hstate
  | linkedJump hop' hp hb' =>
      obtain rfl : taken = true := (hop.resolve_left (by rw [hop']; decide)).2
      have hstate := StubState.linkedJump hop' hpatched hb
      rw [patchIndex_of_jal hop', Nat.add_sub_cancel_left]
      rw [words_of_jal hop'] at hstate ⊢
      exact hstate
  | other hop' =>
      rcases hop with hop | ⟨hop, -⟩ <;> rcases hop' with hop' | hop' <;>
        exact absurd (hop.symm.trans hop') (by decide)

end Stub

/-! ### The invariant -/

section Invariant

variable {h : Host} {elf : ElfReader} {c c' : CodeCache} {H : History} {stubs : Set ExitStub}

theorem address_inj {e e' : ExitStub} (he : e.address = e'.address) : e.pc = e'.pc :=
  signExtend_inj.mp he

theorem exit_inj {e e' : ExitStub} (hi : e.index < 2 ^ 32) (hi' : e'.index < 2 ^ 32)
    (he : e.address = e'.address) (hexit : e.exit h elf = e'.exit h elf) : e = e' := by
  obtain ⟨k, pc⟩ := e
  obtain ⟨k', pc'⟩ := e'
  obtain rfl : pc = pc' := address_inj he
  have hk : k = k' := by
    change exitAddress h k (elf.fetch pc) = exitAddress h k' (elf.fetch pc) at hexit
    change k < 2 ^ 32 at hi
    change k' < 2 ^ 32 at hi'
    rw [exitAddress, exitAddress] at hexit
    by_cases hop : (elf.fetch pc).opcode = Opcode.branch
    · rw [if_pos hop, if_pos hop, wordAddr, wordAddr] at hexit
      bv_omega
    · rw [if_neg hop, if_neg hop, wordAddr, wordAddr] at hexit
      bv_omega
  rw [hk]

theorem Linked.index_lt (hl : Linked h elf c H stubs) {e : ExitStub} (he : e ∈ stubs) :
    e.index < 2 ^ 32 := by
  obtain ⟨ws, -, hws⟩ := hl.stands e he
  have hlen := hws.length_le
  have hfits := hl.fits
  rw [CodeCache.Fits, cacheSize] at hfits
  omega

theorem Linked.of_blocks (hl : Linked h elf c H stubs) (hmem : c'.memory = c.memory)
    (hexits : c'.exits = c.exits)
    (hstart : ∀ a start, c.start a = some start → c'.start a = some start)
    (haligned : ∀ a start, c'.start a = some start → start.toNat % 4 = 0) :
    Linked h elf c' H stubs where
  fits := by rw [CodeCache.Fits, hmem]; exact hl.fits
  apart := hl.apart
  stands e he := by
    obtain ⟨ws, hstate, hws⟩ := hl.stands e he
    exact ⟨ws, hstate.mono hstart fun _ => Iff.rfl, by rwa [hmem]⟩
  recorded := hl.recorded
  exits a E hE := hl.exits a E (by rwa [hexits] at hE)
  patched := hl.patched
  aligned := haligned

theorem StubState.opcode {e : ExitStub} {ws : List Word} (hs : StubState h elf c H e ws) :
    ((e.word elf).opcode = Opcode.branch ∨ (e.word elf).opcode = Opcode.jal) ∨
      ((e.word elf).opcode = Opcode.jalr ∨ (e.word elf).opcode = Opcode.system) := by
  cases hs with
  | branch hop => exact .inl (.inl hop)
  | jump hop => exact .inl (.inr hop)
  | linkedJump hop => exact .inl (.inr hop)
  | other hop => exact .inr hop

theorem StubState.of_not_patched {e : ExitStub} (hterm : IsTerminal (e.word elf))
    (hn : ∀ taken, ¬ H.patched e.address (e.exit h elf) taken) :
    StubState h elf c H e (e.words h elf) := by
  rcases hterm with hop | hop | hop | hop
  · have hwords : e.words h elf = inlineSave ++ e.branchWord h elf ::
        (e.sideWords h false ++ e.sideWords h true) := by
      rw [ExitStub.words, stubWords, if_pos hop]
      rfl
    rw [hwords]
    exact .branch hop fun taken => .emitted (hn taken)
  · exact .jump hop (hn true)
  · exact .other (.inl hop)
  · exact .other (.inr hop)

theorem Linked.record (hl : Linked h elf c H stubs) {a : DWord} (hadd : TraceAdded h elf a c c')
    (hnew : c.railBasicBlocks (asInt a) = none) (hfits : c'.Fits) :
    ∃ stubs', Linked h elf c' (H.record c') stubs' := by
  have hstart (x start : DWord) (hx : c.start x = some start) : c'.start x = some start := by
    have hne : x ≠ asInt a := by
      rintro rfl
      rw [CodeCache.start, hnew] at hx
      cases hx
    rwa [CodeCache.start, hadd.blocks x hne]
  have haligned (x start : DWord) (hx : c'.start x = some start) : start.toNat % 4 = 0 := by
    by_cases hxa : x = asInt a
    · obtain ⟨b, hb, -, hb', -⟩ := hadd.record
      rw [CodeCache.start, hxa, hb] at hx
      obtain rfl : b.startLocationInCache = start := Option.some.inj hx
      rw [hb']
      exact toNat_wordAddr_base h _
    · rw [CodeCache.start, hadd.blocks x hxa] at hx
      exact hl.aligned x start hx
  -- old stubs lie in front of what is added
  have hold : ∀ e ∈ stubs, ∃ ws, StubState h elf c' (H.record c') e ws ∧
      StandsAt c'.memory e.index ws := fun e he => by
    obtain ⟨ws, hstate, hws⟩ := hl.stands e he
    exact ⟨ws, hstate.mono hstart fun _ => Iff.rfl, hws.mono hadd.memory⟩
  rcases hadd.exits with hsame | ⟨k, pc, hk, hterm, hstub, hexits⟩
  · refine ⟨stubs, hfits, hl.apart, hold, fun x E hx => ?_, fun x E hE => .inr hE,
      fun x E taken hp => .inl (hl.patched x E taken hp), haligned⟩
    rw [History.record, hsame] at hx
    exact hx.elim (hl.recorded x E) fun hE => hl.recorded x E (hl.exits x E hE)
  · let new : ExitStub := ⟨k, pc⟩
    have hlen := hstub.length_le
    have hbound : new.index < 2 ^ 32 := by
      have := hfits
      rw [CodeCache.Fits, cacheSize] at this
      show k < 2 ^ 32
      omega
    have hbefore : ∀ e ∈ stubs, e.index + (e.words h elf).length ≤ k := fun e he => by
      obtain ⟨ws, hstate, hws⟩ := hl.stands e he
      have := hws.length_le
      rw [hstate.length] at this
      omega
    -- no call has come through the new stub: a patched exit has been recorded
    have hfresh (taken : Bool) : ¬ (H.record c').patched new.address (new.exit h elf) taken := by
      intro hp
      obtain ⟨e, he, haddr, hexit⟩ := hl.recorded _ _ (hl.patched _ _ _ hp)
      have hlt := hbefore e he
      rw [← exit_inj hbound (hl.index_lt he) haddr hexit] at hlt
      have : 0 < (new.words h elf).length := length_words_pos new
      have hk' : k + (new.words h elf).length ≤ k := hlt
      omega
    refine ⟨insert new stubs, hfits, fun e he e' he' hne => ?_, fun e he => ?_, fun x E hx => ?_,
      fun x E hE => .inr hE, fun x E taken hp => .inl (hl.patched x E taken hp), haligned⟩
    · rcases he with rfl | he <;> rcases he' with rfl | he'
      · exact absurd rfl hne
      · exact .inr (hbefore e' he')
      · exact .inl (hbefore e he)
      · exact hl.apart e he e' he' hne
    · rcases he with rfl | he
      · exact ⟨_, .of_not_patched hterm hfresh, hstub⟩
      · exact hold e he
    · have hcase : H.recorded x E ∨ c'.exits x = some E := hx
      rw [hexits, Function.update_apply] at hcase
      by_cases hxa : x = pc.signExtend 64
      · rw [if_pos hxa] at hcase
        rcases hcase with hx' | hE
        · obtain ⟨e, he, hxe⟩ := hl.recorded x E hx'
          exact ⟨e, .inr he, hxe⟩
        · exact ⟨new, .inl rfl, hxa, (Option.some.inj hE).symm⟩
      · rw [if_neg hxa] at hcase
        obtain ⟨e, he, hxe⟩ := hl.recorded x E (hcase.elim id (hl.exits x E))
        exact ⟨e, .inr he, hxe⟩

/-! The cache is indexed from the address the source asks `mmap` for. -/

theorem patch_wordAddr (hbase : h.base = 0x01000000) {i : ℕ} (hi : i < 2 ^ 32) (w : Word) :
    c.patch (wordAddr h.base i) w = { c with memory := c.memory.set i w } := by
  have hidx : (wordAddr h.base i - 0x1000000).toNat / 4 = i := by
    rw [hbase, wordAddr]
    bv_omega
  rw [CodeCache.patch, hidx]

theorem exit_add_side {e : ExitStub} {taken : DWord}
    (hop : (e.word elf).opcode = Opcode.branch ∨ (e.word elf).opcode = Opcode.jal ∧ taken ≠ 0) :
    e.exit h elf + (if taken = 0 then 4 else 36) =
      wordAddr h.base (e.patchIndex elf (decide (taken ≠ 0))) := by
  rcases hop with hop | ⟨hop, ht⟩
  · rw [ExitStub.exit, exitAddress, if_pos hop, ExitStub.patchIndex, if_pos hop,
      ExitStub.sideIndex, wordAddr, wordAddr]
    by_cases ht : taken = 0
    · rw [if_pos ht, if_neg (by simpa using ht)]
      bv_omega
    · rw [if_neg ht, if_pos (by simpa using ht)]
      bv_omega
  · have hne : (e.word elf).opcode ≠ Opcode.branch := by rw [hop]; decide
    rw [ExitStub.exit, exitAddress, if_neg hne, patchIndex_of_jal hop, if_neg ht, wordAddr,
      wordAddr]
    bv_omega

/-- The two words `link` writes, where the exit it is called with has been
recorded. -/
theorem link_at (hbase : h.base = 0x01000000) {exitAddr taken : DWord} {i : ℕ}
    (hexit : exitAddr + (if taken = 0 then 4 else 36) = wordAddr h.base i) (hi : i + 1 < 2 ^ 32)
    (start : DWord) :
    link c exitAddr start taken = { c with
      memory := (c.memory.set i 0x01010113).set (i + 1) (encodeJtypeFields Op.jal regs.zero
        ((start + 4 - (wordAddr h.base i + 4)).setWidth 32)) } := by
  have hi' := Nat.lt_of_succ_lt hi
  rw [link, hexit, patch_wordAddr hbase hi', wordAddr_add_four, patch_wordAddr hbase hi]

theorem link_eq (hbase : h.base = 0x01000000) {e : ExitStub} {taken start : DWord}
    (hop : (e.word elf).opcode = Opcode.branch ∨ (e.word elf).opcode = Opcode.jal ∧ taken ≠ 0)
    (hi : e.patchIndex elf (decide (taken ≠ 0)) + 1 < 2 ^ 32) {x y : Word}
    (hxy : linkPatch (wordAddr h.base (e.patchIndex elf (decide (taken ≠ 0)))) start = [x, y]) :
    link c (e.exit h elf) start taken =
      { c with
        memory := (c.memory.set (e.patchIndex elf (decide (taken ≠ 0))) x).set
          (e.patchIndex elf (decide (taken ≠ 0)) + 1) y } := by
  obtain ⟨hx, hrest⟩ := List.cons.inj hxy
  obtain ⟨hy, -⟩ := List.cons.inj hrest
  rw [link_at hbase (exit_add_side hop) hi, hx, hy]

theorem Linked.patched_patch_of_ne (hl : Linked h elf c H stubs) {e e' : ExitStub}
    (he : e ∈ stubs) (he' : e' ∈ stubs) (hne : e' ≠ e)
    (hexit : c.exits e.address = some (e.exit h elf)) {taken side : Bool} :
    (H.patch c e.address taken).patched e'.address (e'.exit h elf) side ↔
      H.patched e'.address (e'.exit h elf) side := by
  refine or_iff_left fun ⟨haddr, hE, _⟩ => hne ?_
  rw [hexit] at hE
  exact exit_inj (hl.index_lt he') (hl.index_lt he) haddr (Option.some.inj hE).symm

theorem Linked.link (hbase : h.base = 0x01000000) (hl : Linked h elf c H stubs) {e : ExitStub}
    (he : e ∈ stubs) {taken start : DWord} (hexit : c.exits e.address = some (e.exit h elf))
    (hop : (e.word elf).opcode = Opcode.branch ∨ (e.word elf).opcode = Opcode.jal ∧ taken ≠ 0)
    (hb : c.start (e.successor elf (decide (taken ≠ 0))) = some start) :
    Linked h elf (RailTranslator.link c (e.exit h elf) start taken)
      (H.patch c e.address (decide (taken ≠ 0))) stubs := by
  have hpatch (side : Bool) : (H.patch c e.address (decide (taken ≠ 0))).patched e.address
      (e.exit h elf) side ↔ H.patched e.address (e.exit h elf) side ∨
        side = decide (taken ≠ 0) := by
    simp only [History.patch, hexit, true_and]
  obtain ⟨ws, hstate, hws⟩ := hl.stands e he
  obtain ⟨x, y, hxy, hstate'⟩ := hstate.link
    (hop.imp id fun ⟨hjal, ht⟩ => ⟨hjal, decide_eq_true ht⟩) hb hpatch
  have hinside : e.index ≤ e.patchIndex elf (decide (taken ≠ 0)) ∧
      e.patchIndex elf (decide (taken ≠ 0)) + 1 < e.index + ws.length := by
    rw [hstate.length]
    exact patchIndex_inside (hop.imp id And.left) _
  have hlen := hws.length_le
  have hfits := hl.fits
  rw [CodeCache.Fits, cacheSize] at hfits
  rw [link_eq hbase hop (by omega) hxy]
  generalize e.patchIndex elf (decide (taken ≠ 0)) = i at *
  -- of the stubs only `e` holds the two words
  refine ⟨?_, hl.apart, fun e' he' => ?_, hl.recorded, hl.exits, fun x E side hp => ?_, hl.aligned⟩
  · rw [CodeCache.Fits, List.length_set, List.length_set]
    exact hl.fits
  · by_cases hee : e' = e
    · subst hee
      refine ⟨_, hstate'.mono (fun _ _ => id) fun _ => Iff.rfl, ?_⟩
      have hset := (hws.set_inside (show i - e'.index < ws.length by omega) x).set_inside
        (show i - e'.index + 1 < _ by rw [List.length_set]; omega) y
      rwa [← Nat.add_assoc, Nat.add_sub_cancel' hinside.1] at hset
    · obtain ⟨ws', hstate₁, hws'⟩ := hl.stands e' he'
      refine ⟨ws', hstate₁.mono (fun _ _ => id) fun side => ?_, ?_⟩
      · exact hl.patched_patch_of_ne he he' hee hexit
      · have hapart := hl.apart e' he' e he hee
        rw [← hstate.length, ← hstate₁.length] at hapart
        exact (hws'.set_outside (by omega) x).set_outside (by omega) y
  · rcases hp with hp | ⟨rfl, hE, -⟩
    · exact hl.patched x E side hp
    · exact hl.exits _ _ hE

end Invariant

/-! ### Runs -/

/-- What `stub` makes of a recorded exit. -/
def guestExit (h : Host) (elf : ElfReader) (pc : BitVec 32) : LastInst :=
  let inst := { decodeInstruction h.junkInst (elf.fetch pc) with address := pc }
  ⟨inst, if inst.opcode = Op.branch then .directBranch
    else if inst.opcode = Op.jal then .directBranch
    else if inst.opcode = Op.jalr then .indirectBranch
    else if inst.opcode = Op.system then .syscall
    else .segmented⟩

/-- A call of `stub` as the exit stubs make it: the exit has been recorded,
the exit of a `jal` calls the routine for taken branches, and address 0, which
`stub` takes for no address at all, is passed by the exit of the current block
only. -/
structure ExitCall (h : Host) (elf : ElfReader) (d : Dispatcher) (taken a : DWord) : Prop where
  recorded : (d.cache.exits a).isSome
  jal : (elf.fetch (a.setWidth 32)).opcode = Opcode.jal → taken ≠ 0
  left_zero : a = 0 → d.left h a = guestExit h elf 0

/-- The states `init` and calls of `stub` lead to, with their history. -/
inductive LinkRun (h : Host) (r : Rail) (cb : Callbacks) (elf : ElfReader) :
    Dispatcher → History → Prop
  | start {cfgGenerator : Option CfgGenerator} {f : TrapFrame}
      (hfits : (init h r cb (rootDispatcher h elf cfgGenerator) f).dispatcher.cache.Fits) :
      LinkRun h r cb elf (init h r cb (rootDispatcher h elf cfgGenerator) f).dispatcher
        (History.empty.record
          (init h r cb (rootDispatcher h elf cfgGenerator) f).dispatcher.cache)
  | call {io : IoRequest → DWord} {d : Dispatcher} {H : History} {f : TrapFrame}
      {taken a : DWord} {res : Resume} (hrun : LinkRun h r cb elf d H) (hcall : ExitCall h elf d taken a)
      (hstub : stub h r cb io d f taken a = .returned res)
      (hfits : res.dispatcher.cache.Fits) :
      LinkRun h r cb elf res.dispatcher
        ((H.record res.dispatcher.cache).patch res.dispatcher.cache a (decide (taken ≠ 0)))

section Run

variable {h : Host} {r : Rail} {cb : Callbacks} {io : IoRequest → DWord} {elf : ElfReader}
  {d : Dispatcher} {H : History}

/-- Looking a record up may create one, at address 0 of the cache. -/
theorem start_lookup (c : CodeCache) (a x : DWord) :
    (c.lookup a).2.start x = c.start x ∨ c.start x = none ∧ (c.lookup a).2.start x = some 0 := by
  rw [CodeCache.lookup]
  split
  · exact .inl rfl
  · rename_i hnone
    by_cases hx : x = a
    · refine .inr ⟨by rw [CodeCache.start, hx, hnone]; rfl, ?_⟩
      rw [CodeCache.start, CodeCache.railBasicBlocks_insertAt, hx, Function.update_self]
      rfl
    · refine .inl ?_
      rw [CodeCache.start, CodeCache.railBasicBlocks_insertAt, Function.update_of_ne hx]
      rfl

theorem Linked.lookup {c : CodeCache} {stubs : Set ExitStub} (hl : Linked h elf c H stubs)
    (a : DWord) : Linked h elf (c.lookup a).2 H stubs := by
  refine hl.of_blocks (memory_lookup c a) (exits_lookup c a) (fun x start hx => ?_)
    fun x start hx => ?_
  · rcases start_lookup c a x with hsame | ⟨hnone, -⟩
    · rwa [hsame]
    · rw [hnone] at hx
      cases hx
  · rcases start_lookup c a x with hsame | ⟨-, hzero⟩
    · exact hl.aligned x start (by rwa [hsame] at hx)
    · obtain rfl : 0 = start := Option.some.inj (hzero.symm.trans hx)
      rfl

/-- What `stub` takes to have been left, when it is told a recorded address. -/
theorem left_recorded {a : DWord} {pc : BitVec 32} (hpc : d.elfReader = elf.setProgramCounter pc)
    (ha : a ≠ 0) (hrec : (d.cache.exits a).isSome) :
    d.left h a = guestExit h elf (a.setWidth 32) := by
  have hsome : a ≠ 0 ∧ (d.lookedUp.cache.exits a).isSome := by
    refine ⟨ha, ?_⟩
    rw [Dispatcher.lookedUp, exits_lookup]
    exact hrec
  rw [Dispatcher.left, lastInst, if_pos hsome]
  have htext : d.lookedUp.elfReader = elf.setProgramCounter pc := hpc
  rw [htext]
  rfl

/-- What `stub` takes to have been left is the instruction of the exit. -/
theorem ExitCall.left_eq {taken a : DWord} (hcall : ExitCall h elf d taken a) {pc : BitVec 32}
    (hpc : d.elfReader = elf.setProgramCounter pc) :
    d.left h a = guestExit h elf (a.setWidth 32) := by
  by_cases ha : a = 0
  · rw [hcall.left_zero ha, ha]
    rfl
  · exact left_recorded hpc ha hcall.recorded

theorem guestExit_branch {pc : BitVec 32} (hop : (elf.fetch pc).opcode = Opcode.branch) :
    guestExit h elf pc = ⟨{ decodeBtype h.junkInst (elf.fetch pc) with address := pc },
      .directBranch⟩ := by
  have hinst : (decodeBtype h.junkInst (elf.fetch pc)).opcode = Op.branch := by
    rw [decodeBtype_opcode, hop]
    rfl
  simp only [guestExit, decodeInstruction_btype hop, hinst, if_true]

theorem guestExit_jal {pc : BitVec 32} (hop : (elf.fetch pc).opcode = Opcode.jal) :
    guestExit h elf pc = ⟨{ decodeJtype h.junkInst (elf.fetch pc) with address := pc },
      .directBranch⟩ := by
  have hinst : (decodeJtype h.junkInst (elf.fetch pc)).opcode = Op.jal := by
    rw [decodeJtype_opcode, hop]
    rfl
  simp only [guestExit, decodeInstruction_jtype hop, hinst, if_true, ite_self]

theorem guestExit_other {pc : BitVec 32}
    (hop : (elf.fetch pc).opcode = Opcode.jalr ∨ (elf.fetch pc).opcode = Opcode.system) :
    (guestExit h elf pc).exitType ≠ .directBranch := by
  have hdec : decodeInstruction h.junkInst (elf.fetch pc) =
      decodeItype h.junkInst (elf.fetch pc) := decodeInstruction_itype (by tauto)
  simp only [guestExit, hdec, decodeItype_opcode]
  rcases hop with hop | hop <;> rw [hop] <;> decide

theorem guestExit_system {pc : BitVec 32} (hop : (elf.fetch pc).opcode = Opcode.system) :
    (guestExit h elf pc).exitType = .syscall := by
  have hdec : decodeInstruction h.junkInst (elf.fetch pc) =
      decodeItype h.junkInst (elf.fetch pc) := decodeInstruction_itype (by simp [hop])
  simp only [guestExit, hdec, decodeItype_opcode, hop]
  decide

theorem guestExit_jalr {pc : BitVec 32} (hop : (elf.fetch pc).opcode = Opcode.jalr) :
    (guestExit h elf pc).exitType = .indirectBranch := by
  have hdec : decodeInstruction h.junkInst (elf.fetch pc) =
      decodeItype h.junkInst (elf.fetch pc) := decodeInstruction_itype (by simp [hop])
  simp only [guestExit, hdec, decodeItype_opcode, hop]
  decide

/-- The successor of a branch or jump, and the frame that is handed on. -/
theorem successor_guestExit {d₀ : Dispatcher} {f : TrapFrame} {current : RailBasicBlock}
    {taken : DWord} {s : Successor} {e : ExitStub}
    (hop : (e.word elf).opcode = Opcode.branch ∨ (e.word elf).opcode = Opcode.jal)
    (hs : successor r cb io d₀ f current (guestExit h elf e.pc) taken = .returned s) :
    s.nextBlockAddr = e.successor elf (decide (taken ≠ 0)) ∧ s.shouldNotExecLast = true ∧
      s.frame = if (e.word elf).opcode = Opcode.jal ∧ (e.word elf).rd ≠ 0 then
        f.set (e.word elf).rd ((e.pc + 4).signExtend 64) else f := by
  rcases hop with hop | hop
  · rw [guestExit_branch hop] at hs
    have hinst : (decodeBtype h.junkInst (elf.fetch e.pc)).opcode = Op.branch := by
      rw [decodeBtype_opcode]
      exact congrArg (BitVec.setWidth 32) hop
    have hnjal : ¬ ((e.word elf).opcode = Opcode.jal ∧ (e.word elf).rd ≠ 0) := by
      rw [hop]
      exact fun hjal => absurd hjal.1 (by decide)
    have himm : (decodeBtype h.junkInst (elf.fetch e.pc)).imm =
        (e.word elf).immB.signExtend 32 := decodeBtype_imm ..
    simp only [successor, hinst, himm, if_true] at hs
    cases hs
    rw [ExitStub.successor, if_pos hop, if_neg hnjal]
    refine ⟨?_, rfl, rfl⟩
    -- the immediate is added only if the branch is taken
    by_cases ht : taken = 0#64 <;> simp [ht]
  · rw [guestExit_jal hop] at hs
    have hinst : (decodeJtype h.junkInst (elf.fetch e.pc)).opcode = Op.jal := by
      rw [decodeJtype_opcode]
      exact congrArg (BitVec.setWidth 32) hop
    have hbranch : ¬ Op.jal = Op.branch := by decide
    have himm : (decodeJtype h.junkInst (elf.fetch e.pc)).imm =
        (e.word elf).immJ.signExtend 32 := decodeJtype_imm ..
    have hne : (e.word elf).opcode ≠ Opcode.branch := by rw [hop]; decide
    simp only [successor, hinst, hbranch, himm, if_false] at hs
    cases hs
    rw [ExitStub.successor, if_neg hne]
    refine ⟨rfl, rfl, ?_⟩
    have hrd : (decodeJtype h.junkInst (elf.fetch e.pc)).rd = regs.zero ↔ (e.word elf).rd = 0 :=
      decodeJtype_rd_eq_zero_iff ..
    have hreg : (decodeJtype h.junkInst (elf.fetch e.pc)).rd.setWidth 5 = (e.word elf).rd := by
      rw [decodeJtype_rd]
      exact BitVec.setWidth_setWidth_of_le _ (by decide)
    have htype : (decodeJtype h.junkInst (elf.fetch e.pc)).type = .jType := rfl
    simp only [htype, RvInst.rdReg, hreg, hop, ne_eq, hrd, true_and]

/-! The parts of a call. -/

theorem start_renameSegment {c : CodeCache} {a : DWord} {next : RailBasicBlock}
    (hnext : c.railBasicBlocks a = some next) (b x : DWord) :
    (c.renameSegment a next b).start x = c.start x := by
  rw [CodeCache.renameSegment]
  split
  · rw [CodeCache.start, CodeCache.railBasicBlocks_insertAt]
    by_cases hx : x = a
    · rw [hx, Function.update_self, CodeCache.start, hnext]
      rfl
    · rw [Function.update_of_ne hx]
      rfl
  · rfl

variable {c : CodeCache} {stubs : Set ExitStub}

theorem Linked.record_self (hl : Linked h elf c H stubs) : Linked h elf c (H.record c) stubs where
  fits := hl.fits
  apart := hl.apart
  stands e he := by
    obtain ⟨ws, hstate, hws⟩ := hl.stands e he
    exact ⟨ws, hstate.mono (fun _ _ => id) fun _ => Iff.rfl, hws⟩
  recorded a E hE := hE.elim (hl.recorded a E) fun hE => hl.recorded a E (hl.exits a E hE)
  exits a E hE := .inr hE
  patched a E taken hp := .inl (hl.patched a E taken hp)
  aligned := hl.aligned

theorem Linked.allocateNext (hlink : r.traceLinkingEnabled = true)
    {d : Dispatcher} (hl : Linked h elf d.cache H stubs) {pc : BitVec 32}
    (hpc : d.elfReader = elf.setProgramCounter pc) {a : DWord} {next : RailBasicBlock}
    (hnext : (allocateNext h r d a).cache.railBasicBlocks a = some next)
    (hfits : (allocateNext h r d a).cache.Fits) :
    (∃ pc, (allocateNext h r d a).elfReader = elf.setProgramCounter pc) ∧
      ∃ stubs', Linked h elf (allocateNext h r d a).cache
        (H.record (allocateNext h r d a).cache) stubs' := by
  rcases hreg : d.cache.railBasicBlocks a with _ | b
  · have halloc : RailTranslator.allocateNext h r d a =
        { d with
          elfReader := (allocateTrace h r d.elfReader d.cache a 10).1
          cache := (allocateTrace h r d.elfReader d.cache a 10).2 } := by
      rw [RailTranslator.allocateNext, hreg, hlink]
      rfl
    obtain ⟨⟨pc', hpc'⟩, hadd⟩ := allocateTrace_spec h r d.elfReader d.cache a 10
    rw [halloc] at hnext hfits ⊢
    rw [hpc] at hadd hpc' hnext hfits ⊢
    refine ⟨⟨pc', hpc'⟩, hl.record ⟨hadd.memory, hadd.blocks, hadd.record, hadd.exits⟩ ?_ hfits⟩
    -- an address that is no `int` would be registered under another key
    by_cases ha : a = asInt a
    · rwa [← ha]
    · rw [hadd.blocks a ha, hreg] at hnext
      cases hnext
  · rw [allocateNext_of_some hreg]
    exact ⟨⟨pc, hpc⟩, stubs, hl.record_self⟩

theorem Linked.patch_other (hl : Linked h elf c H stubs) {e : ExitStub} (he : e ∈ stubs)
    {taken : Bool} (hexit : c.exits e.address = some (e.exit h elf))
    (hop : (e.word elf).opcode = Opcode.jalr ∨ (e.word elf).opcode = Opcode.system) :
    Linked h elf c (H.patch c e.address taken) stubs where
  fits := hl.fits
  apart := hl.apart
  stands e' he' := by
    obtain ⟨ws, hstate, hws⟩ := hl.stands e' he'
    refine ⟨ws, ?_, hws⟩
    by_cases hee : e' = e
    · subst hee
      cases hstate with
      | other hop' => exact .other hop'
      | branch hop' => exact absurd hop' (by rcases hop with h' | h' <;> rw [h'] <;> decide)
      | jump hop' => exact absurd hop' (by rcases hop with h' | h' <;> rw [h'] <;> decide)
      | linkedJump hop' => exact absurd hop' (by rcases hop with h' | h' <;> rw [h'] <;> decide)
    · exact hstate.mono (fun _ _ => id) fun side => hl.patched_patch_of_ne he he' hee hexit
  recorded := hl.recorded
  exits := hl.exits
  patched a E side hp := by
    rcases hp with hp | ⟨rfl, hE, -⟩
    · exact hl.patched a E side hp
    · exact hl.exits _ _ hE
  aligned := hl.aligned

theorem Linked.linkExit (hbase : h.base = 0x01000000) (hlink : r.traceLinkingEnabled = true)
    (hl : Linked h elf c H stubs) {taken a : DWord} {next : RailBasicBlock} {d₀ : Dispatcher}
    {f : TrapFrame} {current : RailBasicBlock} {s : Successor}
    (hjal : (elf.fetch (a.setWidth 32)).opcode = Opcode.jal → taken ≠ 0)
    (hs : successor r cb io d₀ f current (guestExit h elf (a.setWidth 32)) taken = .returned s)
    (hnext : c.railBasicBlocks s.nextBlockAddr = some next) :
    Linked h elf (linkExit r c (guestExit h elf (a.setWidth 32)).exitType a next taken)
      (H.patch c a (decide (taken ≠ 0))) stubs := by
  -- an exit that is not recorded is not linked, and not counted as patched
  rcases hexit : c.exits a with _ | E
  · have hsame : RailTranslator.linkExit r c (guestExit h elf (a.setWidth 32)).exitType a next
        taken = c := by
      rw [RailTranslator.linkExit, hexit]
      split <;> rfl
    have hpatch : H.patch c a (decide (taken ≠ 0)) = H := by
      simp only [History.patch, hexit, reduceCtorEq, false_and, and_false, or_false]
    rw [hsame, hpatch]
    exact hl
  · obtain ⟨e, he, rfl, rfl⟩ := hl.recorded _ _ (hl.exits _ _ hexit)
    have hpc : e.address.setWidth 32 = e.pc := low_ofLow e.pc
    rw [hpc] at hjal hs ⊢
    obtain ⟨ws, hstate, -⟩ := hl.stands e he
    rcases hstate.opcode with hop | hop
    · have hexitType : (guestExit h elf e.pc).exitType = .directBranch := by
        rcases hop with hop | hop
        · rw [guestExit_branch hop]
        · rw [guestExit_jal hop]
      have hb : c.start (e.successor elf (decide (taken ≠ 0))) =
          some next.startLocationInCache := by
        rw [← (successor_guestExit hop hs).1, CodeCache.start, hnext]
        rfl
      have hlinked : RailTranslator.linkExit r c (guestExit h elf e.pc).exitType e.address next
          taken = RailTranslator.link c (e.exit h elf) next.startLocationInCache taken := by
        rw [RailTranslator.linkExit, if_pos ⟨hlink, hexitType⟩, hexit]
      rw [hlinked]
      exact hl.link hbase he hexit (hop.imp id fun hop => ⟨hop, hjal hop⟩) hb
    · have hsame : RailTranslator.linkExit r c (guestExit h elf e.pc).exitType e.address next
          taken = c :=
        if_neg fun hdirect => guestExit_other hop hdirect.2
      rw [hsame]
      exact hl.patch_other he hexit hop

/-- A call of `stub` keeps the invariant. -/
theorem Linked.stub (hbase : h.base = 0x01000000)
    (hlink : r.traceLinkingEnabled = true) (hl : Linked h elf d.cache H stubs) {pc : BitVec 32}
    (hpc : d.elfReader = elf.setProgramCounter pc) {f : TrapFrame} {taken a : DWord}
    {res : Resume} (hcall : ExitCall h elf d taken a)
    (hstub : stub h r cb io d f taken a = .returned res) (hfits : res.dispatcher.cache.Fits) :
    (∃ pc, res.dispatcher.elfReader = elf.setProgramCounter pc) ∧
      ∃ stubs', Linked h elf res.dispatcher.cache
        ((H.record res.dispatcher.cache).patch res.dispatcher.cache a (decide (taken ≠ 0)))
        stubs' := by
  obtain ⟨s, d', next, hret⟩ := stub_cases hstub
  obtain ⟨d₀, hsucc⟩ := hret.successor
  rw [hcall.left_eq hpc] at hsucc
  have hcache := hret.cache_res
  rw [hcall.left_eq hpc] at hcache
  obtain ⟨pc₀, hpc₀⟩ := hret.elfReader
  rw [hpc, ElfReader.setProgramCounter_setProgramCounter] at hpc₀
  -- behind the allocation nothing is added to the memory or the exits
  have hmem : res.dispatcher.cache.memory.length =
      (RailTranslator.allocateNext h r d' s.nextBlockAddr).cache.memory.length := by
    rw [hcache, CodeCache.memory_setCurrentBB, memory_renameSegment, length_linkExit]
  have hexits : res.dispatcher.cache.exits =
      (RailTranslator.allocateNext h r d' s.nextBlockAddr).cache.exits := by
    rw [hcache, CodeCache.exits_setCurrentBB, exits_renameSegment, exits_linkExit]
  have hl' : Linked h elf d'.cache H stubs := by
    rw [hret.cache]
    exact hl.lookup _
  obtain ⟨⟨pc', hpc'⟩, stubs', hl₂⟩ := hl'.allocateNext hlink hpc₀ hret.registered
    (by rw [CodeCache.Fits, ← hmem]; exact hfits)
  refine ⟨⟨pc', hret.elfReader_res.trans hpc'⟩, stubs', ?_⟩
  have hl₃ := hl₂.linkExit hbase hlink hcall.jal hsucc hret.registered
  have hrecord : H.record res.dispatcher.cache =
      H.record (RailTranslator.allocateNext h r d' s.nextBlockAddr).cache := by
    rw [History.record, hexits]
    rfl
  have hpatch (H' : History) (taken : Bool) : H'.patch res.dispatcher.cache a taken =
      H'.patch (RailTranslator.allocateNext h r d' s.nextBlockAddr).cache a taken := by
    rw [History.patch, hexits]
    rfl
  rw [hrecord, hpatch]
  -- renaming a segment keeps where blocks start
  have hstart (x : DWord) : res.dispatcher.cache.start x =
      (RailTranslator.linkExit r (RailTranslator.allocateNext h r d' s.nextBlockAddr).cache
        (guestExit h elf (a.setWidth 32)).exitType a next taken).start x := by
    rw [hcache]
    refine start_renameSegment ?_ _ x
    rw [railBasicBlocks_linkExit]
    exact hret.registered
  refine hl₃.of_blocks ?_ ?_ (fun x start hx => by rw [hstart]; exact hx) fun x start hx => ?_
  · rw [hcache, CodeCache.memory_setCurrentBB, memory_renameSegment]
  · rw [hcache, CodeCache.exits_setCurrentBB, exits_renameSegment]
  · exact hl₃.aligned x start (by rw [← hstart]; exact hx)

theorem init_spec (hlink : r.traceLinkingEnabled = true) (cb : Callbacks) (d : Dispatcher)
    (f : TrapFrame) :
    (init h r cb d f).dispatcher.cache =
        ((allocateTrace h r d.elfReader d.cache d.elfReader.pc 1).2.lookup d.elfReader.pc).2 ∧
      (init h r cb d f).dispatcher.elfReader =
        (allocateTrace h r d.elfReader d.cache d.elfReader.pc 1).1 := by
  rw [init, hlink, if_pos rfl]
  exact ⟨(SameCache.callPre h r cb true _ _ _).cache, (SameCache.callPre h r cb true _ _ _).elfReader⟩

/-- The invariant holds after every run. -/
theorem LinkRun.linked (hbase : h.base = 0x01000000)
    (hlink : r.traceLinkingEnabled = true) (hrun : LinkRun h r cb elf d H) :
    (∃ pc, d.elfReader = elf.setProgramCounter pc) ∧ ∃ stubs, Linked h elf d.cache H stubs := by
  induction hrun with
  | @start cfgGenerator f hfits =>
      -- in front of the first trace there is no stub
      have hempty : Linked h elf (allocateRoot h elf).2 .empty ∅ :=
        { fits := show 4 ≤ cacheSize / 4 by decide
          apart := fun e he => he.elim
          stands := fun e he => he.elim
          recorded := fun a E hE => hE.elim
          exits := fun a E hE => by cases hE
          patched := fun a E taken hp => hp.elim
          aligned := fun a start hs => by cases hs }
      have hnone (x : DWord) : (allocateRoot h elf).2.railBasicBlocks x = none := rfl
      obtain ⟨hcache, hreader⟩ := init_spec (h := h) hlink cb (rootDispatcher h elf cfgGenerator) f
      obtain ⟨⟨pc, hpc⟩, hadd⟩ := allocateTrace_spec h r
        (rootDispatcher h elf cfgGenerator).elfReader (rootDispatcher h elf cfgGenerator).cache
        (rootDispatcher h elf cfgGenerator).elfReader.pc 1
      refine ⟨⟨pc, hreader.trans hpc⟩, ?_⟩
      have hexits : (init h r cb (rootDispatcher h elf cfgGenerator) f).dispatcher.cache.exits =
          (allocateTrace h r (rootDispatcher h elf cfgGenerator).elfReader
            (rootDispatcher h elf cfgGenerator).cache
              (rootDispatcher h elf cfgGenerator).elfReader.pc 1).2.exits := by
        rw [hcache, exits_lookup]
      have hrecord : History.empty.record
          (init h r cb (rootDispatcher h elf cfgGenerator) f).dispatcher.cache =
            History.empty.record (allocateTrace h r (rootDispatcher h elf cfgGenerator).elfReader
              (rootDispatcher h elf cfgGenerator).cache
                (rootDispatcher h elf cfgGenerator).elfReader.pc 1).2 := by
        rw [History.record, hexits]
        rfl
      rw [CodeCache.Fits, hcache, memory_lookup] at hfits
      obtain ⟨stubs, hl⟩ := hempty.record
        ⟨hadd.memory, hadd.blocks, hadd.record, hadd.exits⟩ (hnone _) hfits
      rw [hrecord, hcache]
      exact ⟨stubs, hl.lookup _⟩
  | call hrun hcall hstub hfits ih =>
      obtain ⟨⟨pc, hpc⟩, stubs, hl⟩ := ih
      exact hl.stub hbase hlink hpc hcall hstub hfits

end Run

end RailTranslator
