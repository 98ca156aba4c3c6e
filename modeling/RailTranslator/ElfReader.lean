import RailTranslator.Rv64.Run

/-!
`elf_reader.cpp`, as far as the translator uses it: the text section and the
mutable program counter that the translation loops step through it.

Program counter and section offset are `int`s. The bound of
`getNextInstruction` compares an `int` with a `size_t`, so the offset is sign
extended and both sides are read as unsigned; a section shorter than four
bytes makes the right-hand side wrap. Reading past the end of the section is
undefined in the source and reads zero here.
-/

namespace RailTranslator

open Rv64

structure ElfReader where
  textSection : List (BitVec 8)
  textSectionOffset : BitVec 32
  programCounter : BitVec 32
  /-- `elfHeader.e_entry` -/
  entry : DWord

namespace ElfReader

def jumpToEntry (e : ElfReader) : ElfReader := { e with programCounter := e.entry.setWidth 32 }

def setProgramCounter (e : ElfReader) (newPC : BitVec 32) : ElfReader :=
  { e with programCounter := newPC }

def incProgramCounter (e : ElfReader) : ElfReader :=
  { e with programCounter := e.programCounter + 4 }

def textByte (e : ElfReader) (i : DWord) : Word := (e.textSection.getD i.toNat 0).setWidth 32

def getNextInstruction (e : ElfReader) : Word :=
  let offset := (e.programCounter - e.textSectionOffset).signExtend 64
  if offset.ult (BitVec.ofNat 64 e.textSection.length - 4) then
    e.textByte offset ||| e.textByte (offset + 1) <<< 8 ||| e.textByte (offset + 2) <<< 16 |||
      e.textByte (offset + 3) <<< 24
  else 0

/-- `getProgramCounter()`, converted to `uint64_t`. -/
def pc (e : ElfReader) : DWord := e.programCounter.signExtend 64

def fetch (e : ElfReader) (a : BitVec 32) : Word := (e.setProgramCounter a).getNextInstruction

@[simp] theorem programCounter_setProgramCounter (e : ElfReader) (a : BitVec 32) :
    (e.setProgramCounter a).programCounter = a := rfl

@[simp] theorem setProgramCounter_setProgramCounter (e : ElfReader) (a b : BitVec 32) :
    (e.setProgramCounter a).setProgramCounter b = e.setProgramCounter b := rfl

@[simp] theorem fetch_setProgramCounter (e : ElfReader) (a b : BitVec 32) :
    (e.setProgramCounter a).fetch b = e.fetch b := rfl

@[simp] theorem getNextInstruction_setProgramCounter (e : ElfReader) (a : BitVec 32) :
    (e.setProgramCounter a).getNextInstruction = e.fetch a := rfl

theorem fetch_eq {e : ElfReader} {a : BitVec 32} {x : DWord}
    (hx : (a - e.textSectionOffset).signExtend 64 = x)
    (hin : x.ult (BitVec.ofNat 64 e.textSection.length - 4) = true) :
    e.fetch a = e.textByte x ||| e.textByte (x + 1) <<< 8 ||| e.textByte (x + 2) <<< 16 |||
      e.textByte (x + 3) <<< 24 := by
  subst hx
  exact if_pos hin

theorem incProgramCounter_setProgramCounter (e : ElfReader) (a : BitVec 32) :
    (e.setProgramCounter a).incProgramCounter = e.setProgramCounter (a + 4) := rfl

/-- A text section that consists of the given words, entered at its start. -/
def ofWords (start : BitVec 32) (words : List Word) : ElfReader where
  textSection := words.flatMap fun w =>
    [w.extractLsb' 0 8, w.extractLsb' 8 8, w.extractLsb' 16 8, w.extractLsb' 24 8]
  textSectionOffset := start
  programCounter := start
  entry := start.signExtend 64

/-! ### The text as guest code -/

/-- The guest's code: the words the translator finds at an address, where it
finds one. -/
def guestCode (e : ElfReader) : Code := fun a =>
  if e.fetch (a.setWidth 32) = 0 then none else some (e.fetch (a.setWidth 32))

end ElfReader

end RailTranslator
