import RailTranslator.Emitted

/-!
The hand-written routines of `util.S` that an exit handler is made of.

Each context switch reads the guest's `t6` back from the slot `inline_save`
left, stores the registers in a frame of 256 bytes below the guest's stack,
calls a C++ function with the frame's address, loads the registers again and
jumps to the address the function returned. `t6` is stored but not loaded: it
carries the address of the jump, and the block that is entered reads its slot
in the frame.

The five routines differ in the arguments of the call and in which function
they call; the text before the call is `SwitchRoutine.before`, the text behind
it is `restoreContext`.
-/

namespace RailTranslator

open Rv64

/-! ### The text -/

/-- The offset of a register in the frame. -/
def frameOffset (i : Reg) : BitVec 12 := BitVec.ofNat 12 (8 * (i.toNat - 1))

/-- `sd ra, 0(sp)` to `sd t6, 240(sp)`, in this order. -/
def savedRegs : List Reg :=
  [1, 2, 3, 4, 5, 6, 7, 8, 9, 10, 11, 12, 13, 14, 15, 16, 17, 18, 19, 20, 21, 22, 23, 24, 25, 26,
    27, 28, 29, 30, 31]

/-- `ld ra, 0(sp)` to `ld t5, 232(sp)`, in this order. -/
def restoredRegs : List Reg :=
  [1, 2, 3, 4, 5, 6, 7, 8, 9, 10, 11, 12, 13, 14, 15, 16, 17, 18, 19, 20, 21, 22, 23, 24, 25, 26,
    27, 28, 29, 30]

def storeReg (i : Reg) : Instr := .store .sd sp i (frameOffset i)

def loadReg (i : Reg) : Instr := .load .ld i sp (frameOffset i)

/-- `addi sp, sp, n` -/
def moveSp (n : DWord) : Instr := .opImm .add sp sp n

def saveContext : List Instr :=
  [.load .ld t6 sp 0, moveSp 16, moveSp (-256)] ++ savedRegs.map storeReg

/-- `mv rd, rs` -/
def mv (rd rs : Reg) : Instr := .opImm .add rd rs 0

/-- `li rd, imm` for a small constant. -/
def li (rd : Reg) (imm : DWord) : Instr := .opImm .add rd 0 imm

def restoreContext : List Instr :=
  [mv t6 a0] ++ restoredRegs.map loadReg ++ [moveSp 256, .jalr 0 t6 0]

inductive SwitchRoutine
  | contextSwitchTraceExit | contextSwitchTraceExitTaken
  | contextSwitch | contextSwitchTaken
  | contextSwitchInstrument
  deriving DecidableEq, Repr

namespace SwitchRoutine

def arguments : SwitchRoutine → List Instr
  | contextSwitchTraceExit => [mv a0 sp, li a1 0, li a2 0, .load .ld a3 sp 248]
  | contextSwitchTraceExitTaken => [mv a0 sp, li a1 1, li a2 0, .load .ld a3 sp 248]
  | contextSwitch => [mv a0 sp, li a1 0, li a2 0, li a3 0]
  | contextSwitchTaken => [mv a0 sp, li a1 1, li a2 0, li a3 0]
  | contextSwitchInstrument => [mv a0 sp, li a1 1, li a2 1, li a3 0]

def before (routine : SwitchRoutine) : List Instr := saveContext ++ routine.arguments

end SwitchRoutine

def Host.handler (h : Host) : SwitchRoutine → DWord
  | .contextSwitchTraceExit => h.contextSwitchTraceExit
  | .contextSwitchTraceExitTaken => h.contextSwitchTraceExitTaken
  | .contextSwitch => h.contextSwitch
  | .contextSwitchTaken => h.contextSwitchTaken
  | .contextSwitchInstrument => h.contextSwitchInstrument

/-! ### The frame -/

/-- The address of register `i` in a frame at `b`, `TRAPFRAME + (i - 1)`. -/
def frameEntry (b : DWord) (i : Reg) : DWord := b + BitVec.ofNat 64 (8 * (i.toNat - 1))

def frameBytes (b : DWord) : Set DWord := bytes b 248

theorem signExtend_frameOffset (i : Reg) :
    (frameOffset i).signExtend 64 = BitVec.ofNat 64 (8 * (i.toNat - 1)) := by
  revert i; decide +kernel

theorem apart_frameEntry (b : DWord) {i j : Reg} (hi : i ≠ 0) (hj : j ≠ 0) (h : i ≠ j) :
    Apart (frameEntry b i) 8 (frameEntry b j) 8 := by
  have hi' : i.toNat ≠ 0 := fun h0 => hi (BitVec.eq_of_toNat_eq h0)
  have hj' : j.toNat ≠ 0 := fun h0 => hj (BitVec.eq_of_toNat_eq h0)
  have hij : i.toNat ≠ j.toNat := fun h' => h (BitVec.eq_of_toNat_eq h')
  have := i.isLt
  have := j.isLt
  refine apart_of_le ?_ ?_ <;> simp only [frameEntry] <;> bv_omega

theorem frameEntry_subset (b : DWord) (i : Reg) : bytes (frameEntry b i) 8 ⊆ frameBytes b := by
  intro x hx
  have := i.isLt
  simp only [frameBytes, frameEntry, mem_bytes] at *
  bv_omega

/-! ### Storing and loading a list of registers -/

theorem exec_storeReg (s : Machine) (i : Reg) :
    (storeReg i).exec direct s =
      (s.setMem (s.mem.write (frameEntry (s.regs sp) i) 8 (s.regs i))).goto (s.pc + 4) := by
  rw [storeReg, Instr.exec, effAddr, signExtend_frameOffset]
  rfl

theorem exec_loadReg (s : Machine) (i : Reg) :
    (loadReg i).exec direct s =
      (s.setReg i (s.mem.read (frameEntry (s.regs sp) i) 8)).goto (s.pc + 4) := by
  rw [loadReg, Instr.exec, effAddr, signExtend_frameOffset]
  rfl

@[simp] theorem exec_mv (tr : Reg → DWord → DWord) (s : Machine) (rd rs : Reg) :
    (mv rd rs).exec tr s = (s.setReg rd (s.regs rs)).goto (s.pc + 4) := by
  rw [mv, Instr.exec, AluOp.eval]
  simp

@[simp] theorem exec_li (tr : Reg → DWord → DWord) (s : Machine) (rd : Reg) (imm : DWord) :
    (li rd imm).exec tr s = (s.setReg rd imm).goto (s.pc + 4) := by
  rw [li, Instr.exec, AluOp.eval]
  simp

theorem exec_ld (s : Machine) (rd rs1 : Reg) (off : BitVec 12) :
    (Instr.load .ld rd rs1 off).exec direct s =
      (s.setReg rd (s.mem.read (s.regs rs1 + off.signExtend 64) 8)).goto (s.pc + 4) := rfl

structure Saved (L : List Reg) (s s' : Machine) : Prop where
  regs : s'.regs = s.regs
  read : ∀ i, i ≠ 0 → s'.mem.read (frameEntry (s.regs sp) i) 8 =
    if i ∈ L then s.regs i else s.mem.read (frameEntry (s.regs sp) i) 8
  frame : ∀ x ∉ frameBytes (s.regs sp), s'.mem x = s.mem x

theorem saved_stores {L : List Reg} (hL : ∀ i ∈ L, i ≠ 0) (s : Machine) :
    Saved L s (execs direct s (L.map storeReg)) := by
  induction L generalizing s with
  | nil => exact ⟨rfl, fun i _ => by simp, fun _ _ => rfl⟩
  | cons j L ih =>
      have hj : j ≠ 0 := hL j List.mem_cons_self
      rw [List.map_cons, execs_cons, exec_storeReg]
      have := ih (fun i hi => hL i (List.mem_cons_of_mem j hi))
        ((s.setMem (s.mem.write (frameEntry (s.regs sp) j) 8 (s.regs j))).goto (s.pc + 4))
      refine ⟨this.regs, fun i hi => ?_, fun x hx => ?_⟩
      · refine (this.read i hi).trans ?_
        simp only [Machine.regs_goto, Machine.regs_setMem, Machine.mem_goto, Machine.mem_setMem,
          List.mem_cons]
        by_cases hiL : i ∈ L
        · rw [if_pos hiL, if_pos (.inr hiL)]
        · by_cases hij : i = j
          · rw [if_neg hiL, if_pos (.inl hij), hij, Mem.read_write_same]
          · rw [if_neg hiL, if_neg (by tauto),
              Mem.read_write_apart (by decide) (apart_frameEntry _ hi hj hij)]
      · refine (this.frame x hx).trans ?_
        exact Mem.write_of_not_mem fun hin => hx (frameEntry_subset _ _ hin)

/-- What loading registers changes. The entry of `sp` holds the frame's own
address, so loading it changes nothing. -/
structure Restored (L : List Reg) (s s' : Machine) : Prop where
  mem : s'.mem = s.mem
  regs : ∀ i, i ≠ 0 → s'.regs i =
    if i ∈ L then s.mem.read (frameEntry (s.regs sp) i) 8 else s.regs i

theorem restored_loads (L : List Reg) {s : Machine}
    (hsp : s.mem.read (frameEntry (s.regs sp) sp) 8 = s.regs sp) :
    Restored L s (execs direct s (L.map loadReg)) := by
  induction L generalizing s with
  | nil => exact ⟨rfl, fun i _ => by simp⟩
  | cons j L ih =>
      rw [List.map_cons, execs_cons, exec_loadReg]
      generalize hv : s.mem.read (frameEntry (s.regs sp) j) 8 = v
      have hsame : (s.setReg j v).regs sp = s.regs sp := by
        by_cases hj : sp = j
        · subst hj
          rw [← hv, hsp, Machine.setReg_self]
        · exact Regs.set_of_ne _ _ hj
      have hsp' : ((s.setReg j v).goto (s.pc + 4)).mem.read
          (frameEntry (((s.setReg j v).goto (s.pc + 4)).regs sp) sp) 8 =
            ((s.setReg j v).goto (s.pc + 4)).regs sp := by
        rw [Machine.regs_goto, hsame]
        exact hsp
      have := ih hsp'
      refine ⟨this.mem, fun i hi => ?_⟩
      refine (this.regs i hi).trans ?_
      rw [Machine.regs_goto, hsame, Machine.mem_goto, Machine.mem_setReg, Machine.regs_setReg]
      by_cases hiL : i ∈ L
      · rw [if_pos hiL, if_pos (List.mem_cons_of_mem j hiL)]
      · by_cases hij : i = j
        · subst hij
          rw [if_neg hiL, if_pos List.mem_cons_self, Regs.set_same _ _ hi, hv]
        · rw [if_neg hiL, if_neg (by simp [hij, hiL]), Regs.set_of_ne _ _ hij]

end RailTranslator
