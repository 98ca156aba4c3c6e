import RailTranslator.ElfFile
import RailTranslator.ProcessStart
import Mathlib.Logic.Function.Basic

/-!
The last part of `init`: the stack the guest starts on.

The words are written upwards from `TRAPFRAME`, one behind the other. Behind
the zero that ends the environment stand four more, so a reader that looks for
the auxiliary vector there finds the pair that ends it.
-/

namespace RailTranslator

open Rv64 ProcessStart

/-! ### `auxvec.h` -/

namespace AT

abbrev null : DWord := 0
abbrev phdr : DWord := 3
abbrev phent : DWord := 4
abbrev phnum : DWord := 5
abbrev pagesz : DWord := 6
abbrev base : DWord := 7
abbrev flags : DWord := 8
abbrev entry : DWord := 9
abbrev uid : DWord := 11
abbrev euid : DWord := 12
abbrev gid : DWord := 13
abbrev egid : DWord := 14
abbrev hwcap : DWord := 16
abbrev clktck : DWord := 17
abbrev hwcap2 : DWord := 26
abbrev execfn : DWord := 31

end AT

/-- `a_type` and `a_val` -/
abbrev AuxvEntry := DWord × DWord

/-! ### What the stack is built from -/

/-- `Rail::railArgc`, `Rail::railArgv` and `Rail::railEnvp`. The arguments are
looked up by index, also behind the last one; the environment is read up to
its first null. -/
structure RailArgs where
  railArgc : BitVec 32
  railArgv : ℕ → DWord
  railEnvp : List DWord

namespace RailArgs

/-- The pointers of `for(int i=0; i<Rail::railArgc; i++)`. -/
def argv (a : RailArgs) : List DWord := (List.range a.railArgc.toInt.toNat).map a.railArgv

def envp (a : RailArgs) : List DWord := a.railEnvp.takeWhile fun p => p != 0

end RailArgs

/-- The loop over the program headers: `phdr_address` and `base_address`. -/
def phdrAddresses (programHeaders : List ProgramHeader) : DWord × DWord :=
  programHeaders.foldl
    (fun found phdr =>
      if phdr.pType = 6 then (phdr.pVaddr, found.2)
      else if phdr.pType = 1 ∧ phdr.pFlags &&& 1 ≠ 0 then (found.1, phdr.pVaddr)
      else found)
    (0, 0)

/-- `auxv[]` -/
def auxv (a : RailArgs) (e : ElfFile) : List AuxvEntry :=
  [(AT.hwcap, 0), (AT.pagesz, 4096), (AT.clktck, 100),
    (AT.phdr, (phdrAddresses e.programHeaders).1),
    (AT.phent, e.elfHeader.ePhentsize.setWidth 64), (AT.phnum, e.elfHeader.ePhnum.setWidth 64),
    (AT.base, (phdrAddresses e.programHeaders).2), (AT.flags, 0),
    (AT.entry, e.elfHeader.eEntry), (AT.uid, 1000), (AT.euid, 1000), (AT.gid, 1000),
    (AT.egid, 1000), (AT.hwcap2, 2), (AT.execfn, a.railArgv 0), (AT.null, 0)]

/-! ### The stack -/

structure StackEnd where
  words : ℕ → DWord
  stEnd : ℕ

/-- `*(TRAPFRAME + stEnd++) = w` -/
def StackEnd.push (st : StackEnd) (w : DWord) : StackEnd :=
  ⟨Function.update st.words st.stEnd w, st.stEnd + 1⟩

/-- The words that `init` leaves. -/
def initStack (a : RailArgs) (e : ElfFile) (words : ℕ → DWord) : ℕ → DWord :=
  let st : StackEnd := ⟨words, 0⟩
  let st := st.push (a.railArgc.signExtend 64)
  let st := a.argv.foldl .push st
  let st := st.push 0
  let st := a.envp.foldl .push st
  let st := (List.replicate 5 0).foldl .push st
  let st := ((auxv a e).takeWhile fun entry => entry.1 != AT.null).foldl
    (fun st entry => (st.push entry.1).push entry.2) st
  let st := st.push AT.null
  ((List.replicate 25 0).foldl .push st).words

def processStart (a : RailArgs) (e : ElfFile) : Start DWord where
  argc := a.railArgc.signExtend 64
  argv := a.argv
  envp := a.envp
  auxv := (auxv a e).dropLast

/-! ### The words in order -/

/-- The words behind the first zero behind the environment. -/
def behindEnvp (a : RailArgs) (e : ElfFile) : List DWord :=
  List.replicate 4 0 ++ ((auxv a e).dropLast.flatMap entryWords ++ List.replicate 26 0)

def stackWords (a : RailArgs) (e : ElfFile) : List DWord :=
  a.railArgc.signExtend 64 :: (a.argv ++ 0 :: (a.envp ++ 0 :: behindEnvp a e))

theorem push_pairs (entries : List AuxvEntry) (st : StackEnd) :
    entries.foldl (fun st entry => (st.push entry.1).push entry.2) st =
      (entries.flatMap entryWords).foldl .push st := by
  induction entries generalizing st with
  | nil => rfl
  | cons entry rest ih => exact ih _

theorem takeWhile_auxv (a : RailArgs) (e : ElfFile) :
    (auxv a e).takeWhile (fun entry => entry.1 != AT.null) = (auxv a e).dropLast := rfl

theorem words_push_all (ws : List DWord) (st : StackEnd) (i : ℕ) :
    (ws.foldl .push st).words i =
      if st.stEnd ≤ i then ws.getD (i - st.stEnd) (st.words i) else st.words i := by
  induction ws generalizing st with
  | nil => simp
  | cons w ws ih =>
      have hpush : (st.push w).stEnd = st.stEnd + 1 := rfl
      have hwords : (st.push w).words = Function.update st.words st.stEnd w := rfl
      rw [List.foldl_cons, ih, hpush, hwords]
      obtain hlt | rfl | hgt := Nat.lt_trichotomy i st.stEnd
      · rw [if_neg (by omega), if_neg (by omega), Function.update_of_ne (by omega)]
      · rw [if_neg (by omega), if_pos (Nat.le_refl _), Function.update_self, Nat.sub_self]
        rfl
      · rw [if_pos (by omega), if_pos (by omega), Function.update_of_ne (by omega),
          show i - st.stEnd = i - (st.stEnd + 1) + 1 by omega]
        rfl

/-- From an empty stack on, the words stand in the order they were pushed in. -/
theorem range_map_push_all (ws : List DWord) (words : ℕ → DWord) :
    (List.range ws.length).map (ws.foldl .push (⟨words, 0⟩ : StackEnd)).words = ws := by
  apply List.ext_getElem
  · simp
  · intro i hi hi'
    rw [List.getElem_map, List.getElem_range, words_push_all, if_pos (Nat.zero_le _)]
    simp [hi']

theorem initStack_eq (a : RailArgs) (e : ElfFile) (words : ℕ → DWord) :
    initStack a e words = ((stackWords a e).foldl .push (⟨words, 0⟩ : StackEnd)).words := by
  unfold initStack stackWords behindEnvp
  dsimp only
  rw [takeWhile_auxv, push_pairs]
  simp [List.foldl_append, List.replicate_succ]

/-! ### What a guest reads -/

theorem envp_ne_zero (a : RailArgs) : ∀ p ∈ a.envp, p ≠ 0 := by
  intro p hp
  have hall := List.all_takeWhile (p := fun p => p != 0) (l := a.railEnvp)
  simpa using List.all_eq_true.mp hall p hp

/-- The list of arguments and the count in memory agree when the count is not
negative. -/
theorem length_argv_iff (a : RailArgs) :
    a.argv.length = (a.railArgc.signExtend 64).toNat ↔ 0 ≤ a.railArgc.toInt := by
  have hext : (a.railArgc.signExtend 64).toInt = a.railArgc.toInt :=
    BitVec.toInt_signExtend_of_le (by omega)
  rw [BitVec.toInt_eq_toNat_cond] at hext
  unfold RailArgs.argv
  rw [List.length_map, List.length_range]
  omega

/-- A guest reads its arguments and its environment, and an auxiliary vector
without entries. -/
theorem initStack_reads {a : RailArgs} (hargc : 0 ≤ a.railArgc.toInt) (e : ElfFile)
    (words : ℕ → DWord) :
    Reads BitVec.toNat (initStack a e words) { processStart a e with auxv := [] } := by
  rw [initStack_eq]
  refine ⟨(stackWords a e).length, ?_⟩
  rw [range_map_push_all]
  apply parse_eq_some_iff.mpr
  exact ⟨a.envp ++ 0 :: behindEnvp a e, behindEnvp a e, rfl, (length_argv_iff a).mpr hargc,
    untilZero_append_zero (envp_ne_zero a), rfl⟩

/-- The words would be read as intended with one zero behind the environment. -/
theorem parse_processStart {a : RailArgs} (hargc : 0 ≤ a.railArgc.toInt) (e : ElfFile) :
    parse BitVec.toNat (a.railArgc.signExtend 64 ::
      (a.argv ++ 0 :: (a.envp ++ 0 :: (behindEnvp a e).drop 4))) = some (processStart a e) := by
  have hauxv : ∀ entry ∈ (processStart a e).auxv, entry.1 ≠ 0 := by
    simp [processStart, auxv]
  have hparse : parse BitVec.toNat (encode (processStart a e) ++ List.replicate 25 0) =
      some (processStart a e) :=
    parse_encode ((length_argv_iff a).mpr hargc) (envp_ne_zero a) hauxv
  rw [← hparse]
  simp [encode, processStart, behindEnvp, List.replicate_succ]

/-- The auxiliary vector never arrives. -/
theorem initStack_not_reads (a : RailArgs) (e : ElfFile) (words : ℕ → DWord) :
    ¬ Reads BitVec.toNat (initStack a e words) (processStart a e) := by
  intro h
  by_cases hargc : 0 ≤ a.railArgc.toInt
  · have hsame := h.unique (initStack_reads hargc e words)
    have hauxv : (auxv a e).dropLast = [] := congrArg Start.auxv hsame
    cases hauxv
  · exact hargc ((length_argv_iff a).mp h.length_argv)

def oneArg : RailArgs := ⟨1, fun i => if i = 0 then 0x1000 else 0, [0x2000]⟩

def blankFile : ElfFile where
  elfFile := ⟨[], 0, false⟩
  elfHeader := .ofBytes []
  programHeaders := []
  sectionHeaders := []
  shstrtab := []
  textSection := []
  textSectionOffset := 0
  programCounter := 0

theorem initStack_loses_auxv :
    Reads BitVec.toNat (initStack oneArg blankFile fun _ => 0) ⟨1, [0x1000], [0x2000], []⟩ ∧
      ¬ Reads BitVec.toNat (initStack oneArg blankFile fun _ => 0)
        (processStart oneArg blankFile) ∧
      parse BitVec.toNat (1 :: 0x1000 :: 0 :: 0x2000 :: 0 :: (behindEnvp oneArg blankFile).drop 4) =
        some (processStart oneArg blankFile) := by
  have hreads : Reads BitVec.toNat (initStack oneArg blankFile fun _ => 0)
      ⟨1, [0x1000], [0x2000], []⟩ := initStack_reads (a := oneArg) (by decide) blankFile _
  refine ⟨hreads, fun h => ?_, @parse_processStart oneArg (by decide) blankFile⟩
  have hauxv : [] = (auxv oneArg blankFile).dropLast := congrArg Start.auxv (hreads.unique h)
  cases hauxv

end RailTranslator
