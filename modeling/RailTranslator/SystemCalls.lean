import RailTranslator.CodeCache

/-!
The trap frame as the C++ side sees it, and `handle_syscalls`.

`TRAPFRAME` is an array of which entry `i - 1` is register `i`; `TrapFrame i`
is that entry, and index 0 is the doubleword below the array, which the source
reaches when it indexes with `x0`. The result of a system call of the host is
an argument of the model, so every statement holds for every host.
-/

namespace RailTranslator

open Rv64

abbrev TrapFrame := Reg → DWord

def TrapFrame.set (f : TrapFrame) (i : Reg) (v : DWord) : TrapFrame := Function.update f i v

/-- A call of the host's `read` or `write`. -/
structure IoRequest where
  isWrite : Bool
  fd : DWord
  buffer : DWord
  count : DWord
  deriving DecidableEq, Repr

namespace SystemCall

abbrev read : DWord := 63
abbrev write : DWord := 64
abbrev readv : DWord := 65
abbrev writev : DWord := 66
abbrev exit : DWord := 93
abbrev exitGroup : DWord := 94

end SystemCall

inductive SyscallResult
  /-- `exit_binary` has been called. -/
  | exit
  /-- The call was emulated. -/
  | ecalled (frame : TrapFrame)
  | notEcalled

def handleSyscalls (io : IoRequest → DWord) (f : TrapFrame) : SyscallResult :=
  let offset : DWord := dataOffset.signExtend 64
  let number := f 17
  let request (isWrite : Bool) : IoRequest :=
    { isWrite := isWrite, fd := f a0, buffer := f a1 + offset, count := f a2 }
  if number = SystemCall.read ∨ number = SystemCall.readv then
    .ecalled (f.set a0 (io (request false)))
  else if number = SystemCall.write ∨ number = SystemCall.writev then
    .ecalled (f.set a0 (io (request true)))
  else if number = SystemCall.exit ∨ number = SystemCall.exitGroup then .exit
  else .notEcalled

end RailTranslator
