import RailTranslator.Constants
import RailTranslator.RewritingsAgree
import RailTranslator.SystemCalls

/-!
Where a guest pointer points.

The rule that moves a pointer below `dataOffset` up by `dataOffset` is there
twice: as the words emitted around a load or store, and as an addition in
`handle_syscalls`. The addition is made whatever the pointer is, and with the
whole offset where the three words of `insertLi` drop its lowest bit. Both
functions are stated here for every value the field `dataOffset` may hold.
-/

namespace RailTranslator

open Rv64

/-! ### The two rules, for any offset -/

/-- `handle_syscalls` with another `dataOffset`. -/
def handleSyscallsAt (io : IoRequest → DWord) (offset : BitVec 32) (f : TrapFrame) :
    SyscallResult :=
  let number := f 17
  let request (isWrite : Bool) : IoRequest :=
    { isWrite := isWrite, fd := f a0, buffer := f a1 + offset.signExtend 64, count := f a2 }
  if number = SystemCall.read ∨ number = SystemCall.readv then
    .ecalled (f.set a0 (io (request false)))
  else if number = SystemCall.write ∨ number = SystemCall.writev then
    .ecalled (f.set a0 (io (request true)))
  else if number = SystemCall.exit ∨ number = SystemCall.exitGroup then .exit
  else .notEcalled

example (io : IoRequest → DWord) : handleSyscallsAt io dataOffset = handleSyscalls io := rfl

/-- What `allocateBB` emits for a load or store: nothing is added to `sp`. -/
def accessWordsAt (h : Host) (offset : BitVec 32) (nextInst : Word) : List Word :=
  if (decodeInstruction h.junkInst nextInst).rs1 ≠ regs.sp then relocatedAt h offset nextInst
  else [nextInst]

def accessedAt (offset : BitVec 32) (i : Instr) (a : DWord) (s : Machine) : Machine :=
  if i.base ≠ sp then
    reloaded (scratch i.base)
      (i.accessAt a (preparedWith (scratchAt offset (s.regs i.base)) i s))
  else i.accessAt a s

section Pointers

variable {w : Word} {i : Instr} {h : Host} {s : Machine} {f : TrapFrame}

theorem endsIn_accessWordsAt (hw : AccessWord w i) (offset : BitVec 32) :
    EndsIn (accessWordsAt h offset w) s
      (accessedAt offset i (relocateAt offset i.base (s.regs i.base) + i.disp) s) := by
  have hrs1 : (decodeInstruction h.junkInst w).rs1 ≠ regs.sp ↔ i.base ≠ sp := by
    rw [hw.rs1_eq]
    rw [show regs.sp = sp.setWidth 32 from rfl, Ne, setWidth_inj (by decide)]
  by_cases hbase : i.base ≠ sp
  · rw [accessWordsAt, if_pos (hrs1.mpr hbase), accessedAt, if_pos hbase]
    apply endsIn_of_reaches
    · rw [length_relocatedAt hw]
      decide
    · intro code a hcode
      rw [length_relocatedAt hw]
      exact reaches_relocatedAt hw hbase hcode
  · rw [accessWordsAt, if_neg (mt hrs1.mp hbase), accessedAt, if_neg hbase]
    have hkeep : relocateAt offset i.base (s.regs i.base) = s.regs i.base :=
      if_neg fun hmove => hbase hmove.1
    rw [hkeep]
    apply endsIn_of_reaches (by simp)
    intro code a hcode
    -- the word itself is executed where it stands
    have hrun := Instr.reaches_access s hw.isAccess (codeAt_cons.mp hcode).1 hw.decode
    rw [show wordAddr a [w].length = a + 4 by simp [wordAddr]]
    exact hrun

theorem handleSyscallsAt_request (offset : BitVec 32)
    (hnum : f 17 = SystemCall.read ∨ f 17 = SystemCall.write) :
    ∃ request : IoRequest,
      (∀ io, handleSyscallsAt io offset f = .ecalled (f.set a0 (io request))) ∧
      request.buffer = f a1 + offset.signExtend 64 := by
  obtain hread | hwrite := hnum
  · refine ⟨⟨false, f a0, f a1 + offset.signExtend 64, f a2⟩, fun io => ?_, rfl⟩
    rw [handleSyscallsAt, if_pos (.inl hread)]
  · refine ⟨⟨true, f a0, f a1 + offset.signExtend 64, f a2⟩, fun io => ?_, rfl⟩
    rw [handleSyscallsAt, if_neg (by rw [hwrite]; decide), if_pos (.inl hwrite)]

/-! ### When the rules agree -/

theorem add_eq_relocateAt_iff {r : Reg} {p : DWord} {offset : BitVec 32} :
    p + offset.signExtend 64 = relocateAt offset r p ↔
      offset = 0 ∨ (r ≠ sp ∧ offset.getLsbD 0 = false ∧ p.slt (offset.signExtend 64) = true) := by
  have hzero : offset.signExtend 64 = 0#64 ↔ offset = 0 := @signExtend_inj offset 0
  rw [← liValue_signExtend_iff, relocateAt]
  generalize hbase : liValue (offset.signExtend 64) = base
  generalize hwhole : offset.signExtend 64 = whole at *
  split
  · rename_i hmove
    rw [BitVec.add_right_inj]
    constructor
    · intro heq
      exact .inr ⟨hmove.1, heq.symm, heq ▸ hmove.2⟩
    · rintro (hnil | ⟨-, heq, -⟩)
      · rw [← hbase, ← hwhole, hnil]
        decide
      · exact heq.symm
  · rename_i hkeep
    rw [← hzero]
    constructor
    · intro heq
      exact .inl (by bv_omega)
    · rintro (hnil | ⟨hr, heq, hlt⟩)
      · rw [hnil, BitVec.add_zero]
      · exact (hkeep ⟨hr, heq ▸ hlt⟩).elim

/-! ### The pointers of system calls -/

/-- A pointer in `a1` that a load or store uses as its base, with displacement
0. The words emitted for the access use memory at the relocated pointer; the
buffer the host is given is at the same address just if the pointer is below
the offset, which is even, or nothing is added at all. -/
theorem handleSyscallsAt_buffer_iff (hw : AccessWord w i) (hdisp : i.disp = 0)
    (hptr : s.regs i.base = f a1)
    (hnum : f 17 = SystemCall.read ∨ f 17 = SystemCall.write) (offset : BitVec 32) :
    EndsIn (accessWordsAt h offset w) s
        (accessedAt offset i (relocateAt offset i.base (f a1)) s) ∧
      ∃ request : IoRequest,
        (∀ io, handleSyscallsAt io offset f = .ecalled (f.set a0 (io request))) ∧
        (request.buffer = relocateAt offset i.base (f a1) ↔
          offset = 0 ∨ (i.base ≠ sp ∧ offset.getLsbD 0 = false ∧
            (f a1).slt (offset.signExtend 64) = true)) := by
  have hend := endsIn_accessWordsAt (h := h) (s := s) hw offset
  rw [hdisp, show (0 : DWord) = 0#64 from rfl, BitVec.add_zero, hptr] at hend
  obtain ⟨request, hreq, hbuf⟩ := handleSyscallsAt_request offset hnum
  refine ⟨hend, request, hreq, ?_⟩
  rw [hbuf]
  exact add_eq_relocateAt_iff

end Pointers

def pointing (p : DWord) : Machine where
  pc := 0
  regs := Regs.set ⟨fun _ => 0, Regs.const_zero⟩ a1 p
  mem := fun _ => 0

def writeFrame (p : DWord) : TrapFrame :=
  TrapFrame.set (TrapFrame.set (fun _ => 0) 17 SystemCall.write) a1 p

/-- `ld x15, 0(x11)` -/
theorem accessWord_ld_a1 : AccessWord 0x0005b783 (.load .ld 15 11 0) :=
  ⟨.inl (by decide), by decide +kernel⟩

theorem handleSyscallsAt_buffer_image :
    EndsIn (accessWordsAt requestedHost dataOffset 0x0005b783) (pointing 0x10000)
        (accessedAt dataOffset (.load .ld 15 11 0) (relocateAt dataOffset 11 0x10000)
          (pointing 0x10000)) ∧
      ∃ request : IoRequest,
        (∀ io, handleSyscallsAt io dataOffset (writeFrame 0x10000) =
          .ecalled ((writeFrame 0x10000).set a0 (io request))) ∧
        request.buffer = relocateAt dataOffset 11 0x10000 := by
  obtain ⟨hend, request, hreq, hiff⟩ :=
    @handleSyscallsAt_buffer_iff 0x0005b783 (.load .ld 15 11 0) requestedHost (pointing 0x10000)
      (writeFrame 0x10000) accessWord_ld_a1 rfl (by decide) (.inr (by decide)) dataOffset
  exact ⟨hend, request, hreq, hiff.mpr (by decide)⟩

/-- A pointer to the stack is left alone by the load and moved by the call: it
is not below the offset. -/
theorem handleSyscalls_moves_stack :
    accessWordsAt requestedHost dataOffset 0x0005b783 =
        relocatedByScratch requestedHost 0x0005b783 ∧
      EndsIn (relocatedByScratch requestedHost 0x0005b783) (pointing 0x40000000)
        (accessedAt dataOffset (.load .ld 15 11 0) 0x40000000 (pointing 0x40000000)) ∧
      ∀ io, handleSyscalls io (writeFrame 0x40000000) =
        .ecalled ((writeFrame 0x40000000).set a0 (io ⟨true, 0, 0x49000000, 0⟩)) := by
  have hwords : accessWordsAt requestedHost dataOffset 0x0005b783 =
      relocatedByScratch requestedHost 0x0005b783 := by decide +kernel
  have hend := @endsIn_accessWordsAt 0x0005b783 (.load .ld 15 11 0) requestedHost
    (pointing 0x40000000) accessWord_ld_a1 dataOffset
  have haddr : relocateAt dataOffset (Instr.load .ld 15 11 0).base
      ((pointing 0x40000000).regs (Instr.load .ld 15 11 0).base) +
        (Instr.load .ld 15 11 0).disp = 0x40000000 := by decide +kernel
  rw [hwords, haddr] at hend
  refine ⟨hwords, hend, fun io => ?_⟩
  have hrequest : (⟨true, (writeFrame 0x40000000) a0,
      (writeFrame 0x40000000) a1 + dataOffset.signExtend 64, (writeFrame 0x40000000) a2⟩ :
        IoRequest) = ⟨true, 0, 0x49000000, 0⟩ := by decide
  rw [← hrequest]
  rfl

end RailTranslator
