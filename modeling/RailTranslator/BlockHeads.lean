import RailTranslator.Instrumentation

/-!
The basic block a segment belongs to.

A block keeps the address of the guest's basic block it is part of. `stub`
hands it on to a segment that is entered, whatever way the block before it was
left, and leaves the record of any other block as it is. Whether a block is a
segment depends on the text and the routines: `EndsSegmented`. `KeepsHead` says,
of the text, the routines and the state before a step, when the step is a right
one: in the runs whose steps all are, the block about to run belongs to the
basic block its record names.
-/

namespace RailTranslator

open Rv64 Transition

/-- The basic block that the record of the block at `x` names: a block that has
not been translated yet will name its own address. -/
def Dispatcher.headAt (d : Dispatcher) (x : DWord) : DWord :=
  match d.cache.railBasicBlocks x with
  | some b => b.basicBlockAddress
  | none => x

section

variable {h : Host} {r : Rail} {cb : Callbacks} {elf : ElfReader}
  {cfgGenerator : Option CfgGenerator} {ok : Dispatcher → Event → Prop}
  {l : List (Dispatcher × Event)} {d : Dispatcher} {io : IoRequest → DWord} {f : TrapFrame}
  {taken a : DWord} {res : Resume} {s : Successor} {next : RailBasicBlock}

/-! ### What is entered -/

theorem GuestBlock.assigned {b : RailBasicBlock} (hb : GuestBlock h r elf b) : b.type.Assigned := by
  cases hb with
  | closed hwalk he hdesc =>
      rw [hdesc.type]
      exact BlockEnd.assigned_type _ _
  | cut hwalk hne hdesc =>
      rw [hdesc.type]
      decide
  | pre hne hpre hdesc =>
      rw [hdesc.type]
      exact assigned_nextInstType _

/-- The record that is found names the basic block it did, or its own address
if it is new. -/
theorem StubStep.basicBlockAddress (hlink : r.traceLinkingEnabled = false)
    (hrun : Run (dispatch h r cb elf cfgGenerator) ok l d) (hne : d.current ≠ .empty)
    (hlow : asInt s.nextBlockAddr = s.nextBlockAddr)
    (hst : StubStep h r cb io d f taken a res s next) :
    next.basicBlockAddress = d.headAt s.nextBlockAddr := by
  have hnext := hst.registered
  rw [allocateNext_cache hst.leave, lookedUp_eq hne] at hnext
  rw [Dispatcher.headAt]
  rcases hb : d.cache.railBasicBlocks s.nextBlockAddr with _ | b
  · rw [hb, Option.isNone_none, if_pos rfl] at hnext
    obtain ⟨pc, hpc⟩ := (((recordRule_guestBlock hlink).run hrun).1).readerBehind (h := h) a
    rw [hpc, allocate, hlink] at hnext
    rcases allocateBB_record hnext with hold | ⟨-, -, hhead⟩
    · rw [hb] at hold
      cases hold
    · rw [hhead, hlow]
  · rw [hb, Option.isNone_some, if_neg Bool.false_ne_true, hb] at hnext
    rw [← Option.some.inj hnext]

/-! ### The head -/

end

end RailTranslator
