import RailTranslator.ElfReader

/-!
`elf_reader.cpp`: the file, its headers, and the functions that load sections.

The file is read through one stream with one position. A read that runs past
the end of the file stores what there is and sets `failbit`; from then on
`seekg` and `read` do nothing, since nothing clears it. Offsets and counts are
signed where the stream takes them. Reading a vector past its end is undefined
in the source: past the string table zeros are read here, and a section header
past the table is an argument of the model.
-/

namespace RailTranslator

open Rv64

abbrev Byte := BitVec 8

/-! ### The stream -/

/-- `std::ifstream elfFile`. `eofbit` is set only together with `failbit`. -/
structure InputFile where
  bytes : List Byte
  pos : ℕ
  failed : Bool

namespace InputFile

/-- `seekg(off, std::ios::beg)` -/
def seekg (f : InputFile) (off : DWord) : InputFile :=
  if f.failed then f
  else if off.msb then { f with failed := true }
  else { f with pos := off.toNat }

/-- `read(s, n)`: the bytes that are stored, and the stream after it. -/
def read (f : InputFile) (n : DWord) : List Byte × InputFile :=
  if f.failed then ([], f)
  else if n.msb then ([], { f with failed := true })
  else
    let got := (f.bytes.drop f.pos).take n.toNat
    (got, { f with pos := f.pos + got.length, failed := decide (got.length < n.toNat) })

/-- A vector of `n` zero bytes that is then read into. -/
def readVector (f : InputFile) (n : DWord) : List Byte × InputFile :=
  let (got, f) := f.read n
  (got ++ List.replicate (n.toNat - got.length) 0, f)

end InputFile

/-! ### The headers -/

/-- The little endian number that `n` bytes hold. -/
def leField (bs : List Byte) (off n : ℕ) : DWord :=
  ((bs.drop off).take n).foldr (fun b acc => acc <<< 8 ||| b.setWidth 64) 0

/-- `Elf64_Ehdr` -/
structure ElfHeader where
  eIdent : List Byte
  eMachine : BitVec 16
  eEntry : DWord
  ePhoff : DWord
  eShoff : DWord
  eEhsize : BitVec 16
  ePhentsize : BitVec 16
  ePhnum : BitVec 16
  eShnum : BitVec 16
  eShstrndx : BitVec 16

abbrev sizeofEhdr : ℕ := 64

def ElfHeader.ofBytes (bs : List Byte) : ElfHeader where
  eIdent := bs.take 16
  eMachine := (leField bs 18 2).setWidth 16
  eEntry := leField bs 24 8
  ePhoff := leField bs 32 8
  eShoff := leField bs 40 8
  eEhsize := (leField bs 52 2).setWidth 16
  ePhentsize := (leField bs 54 2).setWidth 16
  ePhnum := (leField bs 56 2).setWidth 16
  eShnum := (leField bs 60 2).setWidth 16
  eShstrndx := (leField bs 62 2).setWidth 16

/-- `Elf64_Phdr`, the fields that are used. -/
structure ProgramHeader where
  pType : BitVec 32
  pFlags : BitVec 32
  pVaddr : DWord
  deriving DecidableEq, Repr

abbrev sizeofPhdr : ℕ := 56

def ProgramHeader.ofBytes (bs : List Byte) : ProgramHeader where
  pType := (leField bs 0 4).setWidth 32
  pFlags := (leField bs 4 4).setWidth 32
  pVaddr := leField bs 16 8

/-- `Elf64_Shdr`, the fields that are used, and the type. -/
structure SectionHeader where
  shName : BitVec 32
  shType : BitVec 32
  shAddr : DWord
  shOffset : DWord
  shSize : DWord
  deriving DecidableEq, Repr

abbrev sizeofShdr : ℕ := 64

def SectionHeader.ofBytes (bs : List Byte) : SectionHeader where
  shName := (leField bs 0 4).setWidth 32
  shType := (leField bs 4 4).setWidth 32
  shAddr := leField bs 16 8
  shOffset := leField bs 24 8
  shSize := leField bs 32 8

/-- The `n` records of `size` bytes that a block of memory holds. -/
def records {α : Type} (ofBytes : List Byte → α) (size n : ℕ) (bs : List Byte) : List α :=
  (List.range n).map fun k => ofBytes ((bs.drop (size * k)).take size)

def nameBytes (name : String) : List Byte := name.toList.map fun c => BitVec.ofNat 8 c.toNat

/-- `strcmp(shstrtab.data() + sh_name, name) == 0` -/
def nameIs (shstrtab : List Byte) (shName : BitVec 32) (name : String) : Bool :=
  (List.range (name.length + 1)).all fun k =>
    shstrtab.getD (shName.toNat + k) 0 == (nameBytes name).getD k 0

/-! ### The constructor -/

structure LoadingHost where
  /-- Whether a vector of so many bytes can be built. -/
  canAllocate : ℕ → Bool
  /-- The contents of an uninitialised `Elf64_Ehdr`. -/
  junkEhdr : List Byte
  /-- What stands behind the last section header. -/
  junkShdr : SectionHeader
  junkTextSectionOffset : BitVec 32

/-- `ElfReader`, with the file. -/
structure ElfFile where
  elfFile : InputFile
  elfHeader : ElfHeader
  programHeaders : List ProgramHeader
  sectionHeaders : List SectionHeader
  shstrtab : List Byte
  textSection : List Byte
  textSectionOffset : BitVec 32
  programCounter : BitVec 32

/-- `ElfReader::ElfReader`; `none` is a file that cannot be opened. -/
def ElfFile.load (l : LoadingHost) (file : Option (List Byte)) : Except String ElfFile :=
  match file with
  | none => .error "Error opening file"
  | some bytes =>
    let elfFile : InputFile := ⟨bytes, 0, false⟩
    let (got, elfFile) := elfFile.read (BitVec.ofNat 64 sizeofEhdr)
    let elfHeader := ElfHeader.ofBytes (got ++ l.junkEhdr.drop got.length)
    if elfHeader.eIdent.take 4 ≠ [0x7f, 0x45, 0x4c, 0x46] then .error "Not a valid ELF file"
    else if elfHeader.eMachine ≠ 243 then .error "Not a RISC-V Binary"
    else
      let phSize := sizeofPhdr * elfHeader.ePhnum.toNat
      let shSize := sizeofShdr * elfHeader.eShnum.toNat
      if !l.canAllocate phSize || !l.canAllocate shSize then .error "std::bad_alloc"
      else
        let elfFile := elfFile.seekg elfHeader.ePhoff
        let (ph, elfFile) := elfFile.readVector (BitVec.ofNat 64 phSize)
        let elfFile := elfFile.seekg elfHeader.eShoff
        let (sh, elfFile) := elfFile.readVector (BitVec.ofNat 64 shSize)
        let sectionHeaders := records .ofBytes sizeofShdr elfHeader.eShnum.toNat sh
        let elfFile := elfFile.seekg (elfHeader.eShstrndx.setWidth 64 + 1)
        let shstrtabHeader := sectionHeaders.getD elfHeader.eShstrndx.toNat l.junkShdr
        if !l.canAllocate shstrtabHeader.shSize.toNat then .error "std::bad_alloc"
        else
          let elfFile := elfFile.seekg shstrtabHeader.shOffset
          let (shstrtab, elfFile) := elfFile.readVector shstrtabHeader.shSize
          .ok { elfFile, elfHeader, sectionHeaders, shstrtab
                programHeaders := records .ofBytes sizeofPhdr elfHeader.ePhnum.toNat ph
                textSection := []
                textSectionOffset := l.junkTextSectionOffset
                programCounter := 0 }

namespace ElfFile

variable (e : ElfFile)

def isText (section_ : SectionHeader) : Bool := nameIs e.shstrtab section_.shName ".text"

/-- The sections that `getDataSections` fills with zeros. -/
def isBss (section_ : SectionHeader) : Bool :=
  nameIs e.shstrtab section_.shName ".sbss" || nameIs e.shstrtab section_.shName ".bss" ||
    nameIs e.shstrtab section_.shName ".tbss"

/-! ### The sections -/

def getTextSection (l : LoadingHost) : Except String ElfFile :=
  match e.sectionHeaders.find? e.isText with
  | none => .ok e
  | some section_ =>
    if !l.canAllocate section_.shSize.toNat then .error "std::bad_alloc"
    else
      let (textSection, elfFile) := (e.elfFile.seekg section_.shOffset).readVector section_.shSize
      .ok { e with
        elfFile := elfFile
        textSection := textSection
        textSectionOffset := section_.shAddr.setWidth 32
        programCounter := section_.shOffset.setWidth 32 }

end ElfFile

/-- Memory from the argument `buffer` on; an index is an offset from it. -/
abbrev Buffer := DWord → Byte

/-- The size of the mapping that `Rail::Rail` makes for the data. -/
abbrev dataSize : ℕ := 4 * 1024 * 1024

structure Store where
  offset : DWord
  bytes : List Byte

structure LoadState where
  elfFile : InputFile
  stores : List Store

namespace LoadState

def seekg (st : LoadState) (off : DWord) : LoadState :=
  { st with elfFile := st.elfFile.seekg off }

/-- `elfFile.read(buffer + a, n)`; a stream that has failed stores nothing. -/
def read (st : LoadState) (a n : DWord) : LoadState :=
  if st.elfFile.failed then st
  else
    let (got, elfFile) := st.elfFile.read n
    ⟨elfFile, st.stores ++ [⟨a, got⟩]⟩

/-- `memset(buffer + a, 0x0, n)` -/
def memset (st : LoadState) (a n : DWord) : LoadState :=
  { st with stores := st.stores ++ [⟨a, List.replicate n.toNat 0⟩] }

end LoadState

def loadBeforeText (st : LoadState) (section_ : SectionHeader) : LoadState :=
  st.read section_.shAddr section_.shSize

def loadBehindText (e : ElfFile) : LoadState → List SectionHeader → LoadState
  | st, [] => st
  | st, section_ :: rest =>
    if section_.shAddr = 0 then loadBehindText e st rest
    else if e.isBss section_ then
      loadBehindText e (st.memset section_.shAddr section_.shSize) rest
    else
      let st := (st.seekg section_.shOffset).read section_.shAddr section_.shSize
      if st.elfFile.failed then st else loadBehindText e st rest

namespace ElfFile

/-- Where the first loop ends: at `.text`, or behind the last section. -/
def textIndex (e : ElfFile) : ℕ := e.sectionHeaders.findIdx e.isText

def getDataSections (l : LoadingHost) (e : ElfFile) : LoadState :=
  let index := e.textIndex
  let st := (e.sectionHeaders.take index).foldl loadBeforeText ⟨e.elfFile, []⟩
  let st := (st.seekg 0).read 0x10000 (e.elfHeader.eEhsize.setWidth 64)
  let index := index + 1
  let start := (e.sectionHeaders.getD index l.junkShdr).shOffset
  loadBehindText e (st.seekg start) (e.sectionHeaders.drop index)

def jumpToEntry (e : ElfFile) : ElfFile :=
  { e with programCounter := e.elfHeader.eEntry.setWidth 32 }

end ElfFile

/-- `Rail::setTarget`: the reader as `getDataSections` finds it, and what that
leaves. -/
def setTarget (l : LoadingHost) (file : Option (List Byte)) :
    Except String (ElfFile × LoadState) :=
  match ElfFile.load l file with
  | .error err => .error err
  | .ok e =>
    match e.getTextSection l with
    | .error err => .error err
    | .ok e => .ok (e.jumpToEntry, e.jumpToEntry.getDataSections l)

end RailTranslator
