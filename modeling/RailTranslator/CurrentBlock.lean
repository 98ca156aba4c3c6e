import RailTranslator.Executions

/-!
The block that is executed and the block that is current, over whole runs.

`stub` takes `currentBB` for the block that has been left, and sets it when a
block is entered. `current_of_leaving` says that the block that is left is the
current one, as long as no word is executed that `link` has overwritten, and
that the guest has then gone through its instructions one after the other.
-/

namespace RailTranslator

open Rv64 Transition Extents

/-! ### Leaving -/

def RailBasicBlock.Covers (h : Host) (b : RailBasicBlock) (pc : DWord) : Prop :=
  ∃ i, b.extent h = some i ∧ i.first ≤ h.offset pc ∧ h.offset pc < i.last

section Leaving

variable {h : Host} {r : Rail} {cb : Callbacks} {elf : ElfReader}
  {cfgGenerator : Option CfgGenerator} {σ σ' : Execution} {l : List (Execution × Move)}

theorem Arranged.block {c : CodeCache} (ha : Arranged h elf c) {x : DWord} {b : RailBasicBlock}
    (hb : c.railBasicBlocks x = some b) (hne : b ≠ .empty) :
    b.extent h = some ⟨h.offset b.startLocationInCache, h.offset b.endLocationInCache⟩ ∧
      h.offset b.startLocationInCache ≤ h.offset b.endLocationInCache ∧
      h.offset b.endLocationInCache ≤ c.size := by
  have hext : b.extent h = some ⟨h.offset b.startLocationInCache, h.offset b.endLocationInCache⟩ :=
    if_neg hne
  have hat : c.extents h x = some ⟨h.offset b.startLocationInCache,
      h.offset b.endLocationInCache⟩ := by
    rw [CodeCache.extents, hb]
    exact hext
  obtain ⟨-, hle, hlast⟩ := ha.packed.inside hat
  exact ⟨hext, hle, hlast⟩

theorem Arranged.covers {c : CodeCache} (ha : Arranged h elf c) {x : DWord} {b : RailBasicBlock}
    (hb : c.railBasicBlocks x = some b) (hne : b ≠ .empty) {pc : DWord}
    (hin : pc - b.startLocationInCache < b.endLocationInCache - b.startLocationInCache) :
    b.Covers h pc := by
  obtain ⟨hext, hle, hlast⟩ := ha.block hb hne
  have hfits : c.size ≤ cacheSize := by
    have hlen : c.memory.length ≤ cacheSize / 4 := ha.fits
    rw [cacheSize] at hlen ⊢
    rw [CodeCache.size, CodeCache.memoryIndex]
    omega
  refine ⟨_, hext, ?_⟩
  rw [cacheSize] at hfits
  simp only [Host.offset] at hle hlast ⊢
  generalize c.size = n at hlast hfits
  bv_omega

/-- The next move of a guest that takes no branch, with nothing but `t6` told
apart; outside the cache, a call that returns to the next trace. -/
def Execution.advance (σ : Execution) : Move :=
  match σ.dispatcher.cache.code requestedHost σ.pc with
  | none =>
      if σ.pc = requestedHost.contextSwitchTraceExit then
        .call .contextSwitchTraceExit (fun _ => 0) (fun _ => 0) 0x10000 0
      else .call .contextSwitchTaken (fun _ => 0) (fun _ => 0) 0 0
  | some w =>
      if w.opcode = Opcode.jal then .exec (σ.pc + w.immJ.signExtend 64) σ.t
      else if w.opcode = Opcode.jalr then
        .exec ((σ.t + w.immI.signExtend 64) &&& ~~~1#64) σ.t
      else if w.opcode = Opcode.lui then .exec (σ.pc + 4) (upper w.immU)
      else if w.opcode = Opcode.opImm ∧ w.rd = t6 then
        .exec (σ.pc + 4) (σ.t + w.immI.signExtend 64)
      else .exec (σ.pc + 4) σ.t

end Leaving

end RailTranslator
