import RailTranslator.AllocateBB
import RailTranslator.Util

/-!
The cache as code.

As long as the cache is not full, words that were emitted stand where they
were emitted, and the handlers of `util.S` lie outside, so a run of cache code
that arrives at a handler has left the cache.
-/

namespace RailTranslator

open Rv64

def CodeCache.Fits (c : CodeCache) : Prop := c.memory.length ≤ cacheSize / 4

theorem CodeCache.Fits.lt_loopFuel {c : CodeCache} (hfits : c.Fits) :
    c.memory.length < loopFuel := by
  rw [CodeCache.Fits, cacheSize] at hfits
  rw [loopFuel]
  omega

theorem Host.liValue_handler (h : Host) (k : SwitchRoutine) :
    liValue (h.handler k) = h.handler k := by
  refine h.handlers_li _ ?_
  cases k <;> simp [Host.handler]

theorem Host.handler_outside (h : Host) (k : SwitchRoutine) :
    cacheSize ≤ (h.handler k - h.base).toNat := by
  refine h.handlers_outside _ ?_
  cases k <;> simp [Host.handler]

variable {h : Host} {c : CodeCache}

theorem code_handler (hfit : c.Fits) (k : SwitchRoutine) : c.code h (h.handler k) = none := by
  refine image_eq_none ?_
  have := h.handler_outside k
  rw [CodeCache.Fits] at hfit
  omega

theorem codeAt_emitted (hfit : c.Fits) {pre ws : List Word} (hpre : pre ++ ws <+: c.memory) :
    CodeAt (c.code h) (wordAddr h.base pre.length) ws := by
  obtain ⟨post, hmem⟩ := hpre
  have hlen := congrArg List.length hmem
  rw [CodeCache.Fits, cacheSize] at hfit
  simp only [List.length_append] at hlen
  rw [CodeCache.code, ← hmem, List.append_assoc]
  exact codeAt_image (by omega)

theorem toNat_wordAddr_base (h : Host) (k : ℕ) : (wordAddr h.base k).toNat % 4 = 0 := by
  have := h.base_page
  simp only [wordAddr]
  bv_omega

theorem getLsbD_zero_of_mod {a : DWord} (ha : a.toNat % 4 = 0) : a.getLsbD 0 = false := by
  rw [BitVec.getLsbD, Nat.testBit_zero, decide_eq_false_iff_not]
  omega

end RailTranslator
