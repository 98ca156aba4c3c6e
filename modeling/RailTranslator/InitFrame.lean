import RailTranslator.InitialStack
import RailTranslator.Util
import Mathlib.Data.List.GetD

/-!
The room `init_switch` makes for the words of `init`.

`init_switch` lowers the host's stack pointer by 512 bytes and passes the new
one to `init` as `TRAPFRAME`. `init` writes upwards from there, a number of
words that grows with the arguments and the environment; what lies behind the
512 bytes are the frames of the functions that called `executeFirstBlock`.
-/

namespace RailTranslator

open Rv64

/-- `init_switch` up to its call: `addi sp, sp, -512`, then the arguments of
`init`. -/
def initSwitch : List Instr := [moveSp (-512), mv a0 sp, li a1 1, li a2 1, li a3 0]

/-- What `init` gets as `TRAPFRAME`. -/
def initFrame (s : Machine) : DWord := (execs direct s initSwitch).regs a0

def stackAddr (b : DWord) (i : ℕ) : DWord := b + BitVec.ofNat 64 (8 * i)

/-- `init` writes the word with the index `i`: what it leaves there is not
always what was there. -/
def WritesWord (a : RailArgs) (e : ElfFile) (i : ℕ) : Prop :=
  ∃ words, initStack a e words i ≠ words i

/-- The words of `init` stay in the room that was made for them, and what lies
above it in memory is left alone. -/
structure StaysBelow (a : RailArgs) (e : ElfFile) : Prop where
  inside : ∀ (s : Machine) (i : ℕ), WritesWord a e i →
    bytes (stackAddr (initFrame s) i) 8 ⊆ bytes (s.regs sp - 512) 512
  hostFrames : ∀ (words : ℕ → DWord) (i : ℕ), 64 ≤ i → initStack a e words i = words i

theorem exec_moveSp (s : Machine) (n : DWord) :
    (moveSp n).exec direct s = (s.setReg sp (s.regs sp + n)).goto (s.pc + 4) := rfl

theorem initFrame_eq (s : Machine) : initFrame s = s.regs sp - 512 := by
  have hlowered : s.regs sp + -512 = s.regs sp - 512 := by bv_omega
  simp only [initFrame, initSwitch, execs_cons, execs_nil, exec_moveSp, exec_mv, exec_li,
    Machine.regs_goto, Machine.regs_setReg]
  rw [Regs.set_of_ne _ _ (by decide), Regs.set_of_ne _ _ (by decide),
    Regs.set_of_ne _ _ (by decide), Regs.set_same _ _ (by decide), Regs.set_same _ _ (by decide),
    hlowered]

/-! ### How many words there are -/

/-- Sixty-three words do not depend on the arguments: the count, the zero
behind the arguments, five behind the environment, fifteen pairs, and
twenty-six zeros at the end. -/
theorem length_stackWords (a : RailArgs) (e : ElfFile) :
    (stackWords a e).length = 63 + a.argv.length + a.envp.length := by
  have hauxv : ((auxv a e).dropLast.flatMap ProcessStart.entryWords).length = 30 := rfl
  simp only [stackWords, behindEnvp, List.length_cons, List.length_append, List.length_replicate,
    hauxv]
  omega

theorem initStack_behind {a : RailArgs} {e : ElfFile} {i : ℕ} (words : ℕ → DWord)
    (hi : (stackWords a e).length ≤ i) : initStack a e words i = words i := by
  rw [initStack_eq, words_push_all, if_pos (Nat.zero_le _), Nat.sub_zero,
    List.getD_eq_default _ _ hi]

theorem writesWord_iff (a : RailArgs) (e : ElfFile) (i : ℕ) :
    WritesWord a e i ↔ i < (stackWords a e).length := by
  constructor
  · rintro ⟨words, hne⟩
    by_contra hi
    exact hne (initStack_behind words (Nat.not_lt.mp hi))
  · intro hi
    refine ⟨fun _ => (stackWords a e)[i] + 1, ?_⟩
    rw [initStack_eq, words_push_all, if_pos (Nat.zero_le _), Nat.sub_zero,
      List.getD_eq_getElem _ _ hi]
    bv_omega

/-! ### The room -/

theorem inside_room_iff (b : DWord) {i : ℕ} (hi : i ≤ 64) :
    bytes (stackAddr b i) 8 ⊆ bytes b 512 ↔ i < 64 := by
  constructor
  · intro h
    have hfirst : stackAddr b i ∈ bytes b 512 := h (by simp)
    rw [mem_bytes, stackAddr] at hfirst
    bv_omega
  · intro hlt x hx
    rw [mem_bytes, stackAddr] at hx
    rw [mem_bytes]
    bv_omega

theorem staysBelow_iff (a : RailArgs) (e : ElfFile) :
    StaysBelow a e ↔ a.argv.length + a.envp.length ≤ 1 := by
  have hlen := length_stackWords a e
  constructor
  · intro h
    by_contra hmany
    have hwritten : WritesWord a e 64 := (writesWord_iff a e 64).mpr (by omega)
    obtain ⟨words, hne⟩ := hwritten
    exact hne (h.hostFrames words 64 (Nat.le_refl _))
  · intro hfew
    constructor
    · intro s i hi
      have hlt := (writesWord_iff a e i).mp hi
      rw [initFrame_eq]
      exact (inside_room_iff _ (by omega)).mpr (by omega)
    · intro words i hi
      exact initStack_behind words (by omega)

/-- One argument and one variable are one word too many. -/
theorem not_staysBelow_oneArg : ¬ ∀ (a : RailArgs) (e : ElfFile), StaysBelow a e := by
  intro h
  have habove := (h oneArg blankFile).hostFrames (fun _ => 1) 64 (Nat.le_refl _)
  have hzero : initStack oneArg blankFile (fun _ => 1) 64 = 0 := by decide +kernel
  rw [hzero] at habove
  exact absurd habove (by decide)

end RailTranslator
