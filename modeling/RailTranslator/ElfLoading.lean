import RailTranslator.ElfFile
import RailTranslator.Overlay

/-!
What the loader brings into the data mapping.

Everything `getDataSections` does follows from the header fields, from where
the stream stands and from the length of the file: a list of transfers, each
with its place, its length and, unless it clears, the offset in the file it
reads from. Only the sections behind `.text` are read from their own offsets.
The first loop never moves the stream; it reads on from where `getTextSection`
left it, so its transfers start at the end of `.text`.
-/

namespace RailTranslator

open Rv64

/-! ### Reading -/

/-- The bytes a read of `n` finds at position `p` of a file of `size` bytes. -/
def readable (size p : ℕ) (n : DWord) : ℕ := if n.msb then 0 else min n.toNat (size - p)

def completes (size p : ℕ) (n : DWord) : Bool := !n.msb && decide (n.toNat ≤ size - p)

theorem readable_le (size p : ℕ) (n : DWord) : readable size p n ≤ size - p := by
  unfold readable
  split
  · exact Nat.zero_le _
  · exact min_le_right _ _

/-- A stretch of the buffer and where in the file its bytes come from; `none`
is a stretch that is cleared. -/
structure Transfer where
  dst : DWord
  len : ℕ
  src : Option ℕ
  deriving DecidableEq, Repr

namespace Transfer

def bytes (file : List Byte) (t : Transfer) : List Byte :=
  match t.src with
  | none => List.replicate t.len 0
  | some p => (file.drop p).take t.len

def store (file : List Byte) (t : Transfer) : Store := ⟨t.dst, t.bytes file⟩

end Transfer

def sectionTransfer (size p : ℕ) (section_ : SectionHeader) : Transfer :=
  ⟨section_.shAddr, readable size p section_.shSize, some p⟩

/-- Sections read one behind the other from position `p` on. -/
def inTurn (size : ℕ) : ℕ → List SectionHeader → List Transfer
  | _, [] => []
  | p, section_ :: rest =>
    sectionTransfer size p section_ ::
      if completes size p section_.shSize then inTurn size (p + section_.shSize.toNat) rest
      else []

def inTurnCompletes (size : ℕ) : ℕ → List SectionHeader → Bool
  | _, [] => true
  | p, section_ :: rest =>
    completes size p section_.shSize && inTurnCompletes size (p + section_.shSize.toNat) rest

namespace ElfFile

variable (e : ElfFile)

/-- Sections that are cleared, or read from their own offsets while the stream
is good. -/
def ownOffsets : Bool → List SectionHeader → List Transfer
  | _, [] => []
  | good, section_ :: rest =>
    if section_.shAddr = 0 then ownOffsets good rest
    else if e.isBss section_ then
      ⟨section_.shAddr, section_.shSize.toNat, none⟩ :: ownOffsets good rest
    else if good && !section_.shOffset.msb then
      let size := e.elfFile.bytes.length
      let p := section_.shOffset.toNat
      sectionTransfer size p section_ ::
        if completes size p section_.shSize then ownOffsets good rest else []
    else []

def headerTransfer : Transfer :=
  ⟨0x10000, readable e.elfFile.bytes.length 0 (e.elfHeader.eEhsize.setWidth 64), some 0⟩

def transfers (l : LoadingHost) : List Transfer :=
  let size := e.elfFile.bytes.length
  let before := e.sectionHeaders.take e.textIndex
  let behind := e.sectionHeaders.drop (e.textIndex + 1)
  let start := (e.sectionHeaders.getD (e.textIndex + 1) l.junkShdr).shOffset
  if e.elfFile.failed then e.ownOffsets false behind
  else
    inTurn size e.elfFile.pos before ++
      if inTurnCompletes size e.elfFile.pos before then
        e.headerTransfer ::
          e.ownOffsets (completes size 0 (e.elfHeader.eEhsize.setWidth 64) && !start.msb) behind
      else e.ownOffsets false behind

end ElfFile

/-! ### The buffer -/

namespace Store

def patch (s : Store) : Overlay.Patch DWord Byte := fun x => s.bytes[(x - s.offset).toNat]?

end Store

def LoadState.buffer (st : LoadState) (b : Buffer) : Buffer :=
  Overlay.layAll b (st.stores.map Store.patch)

def Transfer.patch (file : List Byte) (t : Transfer) : Overlay.Patch DWord Byte :=
  (t.store file).patch

/-! ### The loops make these transfers -/

variable {bytes : List Byte} {p : ℕ} {failed : Bool} {stores : List Store}

theorem InputFile.read_good (n : DWord) :
    (⟨bytes, p, false⟩ : InputFile).read n =
      ((bytes.drop p).take (readable bytes.length p n),
        ⟨bytes, p + readable bytes.length p n, !completes bytes.length p n⟩) := by
  unfold InputFile.read readable completes
  cases hmsb : n.msb with
  | true => simp
  | false =>
      have hlen : ((bytes.drop p).take n.toNat).length = min n.toNat (bytes.length - p) := by
        rw [List.length_take, List.length_drop]
      have htake : (bytes.drop p).take (min n.toNat (bytes.length - p)) =
          (bytes.drop p).take n.toNat := by
        rw [← List.length_drop, List.take_eq_take_iff]
        omega
      simp only [Bool.false_eq_true, ↓reduceIte, hlen, htake, Bool.not_false, Bool.true_and,
        Prod.mk.injEq, InputFile.mk.injEq, true_and]
      rw [← decide_not, decide_eq_decide]
      omega

namespace LoadState

theorem read_good (a n : DWord) :
    (⟨⟨bytes, p, false⟩, stores⟩ : LoadState).read a n =
      ⟨⟨bytes, p + readable bytes.length p n, !completes bytes.length p n⟩,
        stores ++ [⟨a, (bytes.drop p).take (readable bytes.length p n)⟩]⟩ := by
  show (if false then _ else _) = _
  rw [InputFile.read_good]
  rfl

theorem read_failed (a n : DWord) :
    (⟨⟨bytes, p, true⟩, stores⟩ : LoadState).read a n = ⟨⟨bytes, p, true⟩, stores⟩ := rfl

theorem seekg_good (off : DWord) :
    (⟨⟨bytes, p, false⟩, stores⟩ : LoadState).seekg off =
      ⟨⟨bytes, if off.msb then p else off.toNat, off.msb⟩, stores⟩ := by
  unfold seekg InputFile.seekg
  cases off.msb <;> rfl

theorem seekg_zero :
    (⟨⟨bytes, p, false⟩, stores⟩ : LoadState).seekg 0 = ⟨⟨bytes, 0, false⟩, stores⟩ := rfl

theorem seekg_failed (off : DWord) :
    (⟨⟨bytes, p, true⟩, stores⟩ : LoadState).seekg off = ⟨⟨bytes, p, true⟩, stores⟩ := rfl

end LoadState

theorem loadBeforeText_failed (sections : List SectionHeader) :
    sections.foldl loadBeforeText ⟨⟨bytes, p, true⟩, stores⟩ = ⟨⟨bytes, p, true⟩, stores⟩ := by
  induction sections with
  | nil => rfl
  | cons section_ rest ih => exact ih

theorem loadBeforeText_good (p : ℕ) (stores : List Store) (sections : List SectionHeader) :
    ∃ p', sections.foldl loadBeforeText ⟨⟨bytes, p, false⟩, stores⟩ =
      ⟨⟨bytes, p', !inTurnCompletes bytes.length p sections⟩,
        stores ++ (inTurn bytes.length p sections).map (Transfer.store bytes)⟩ := by
  induction sections generalizing p stores with
  | nil =>
      refine ⟨p, ?_⟩
      simp [inTurn, inTurnCompletes]
  | cons section_ rest ih =>
      rw [List.foldl_cons, loadBeforeText, LoadState.read_good, inTurn, inTurnCompletes]
      cases hc : completes bytes.length p section_.shSize with
      | true =>
          -- a complete read leaves the stream where the next one has to start
          have hr : readable bytes.length p section_.shSize = section_.shSize.toNat := by
            unfold completes at hc
            unfold readable
            simp only [Bool.and_eq_true, Bool.not_eq_true', decide_eq_true_eq] at hc
            rw [if_neg (by rw [hc.1]; simp)]
            omega
          rw [hr]
          obtain ⟨p', hp'⟩ := ih (p + section_.shSize.toNat)
            (stores ++ [⟨section_.shAddr, (bytes.drop p).take section_.shSize.toNat⟩])
          refine ⟨p', ?_⟩
          rw [Bool.not_true, hp']
          simp [Transfer.store, Transfer.bytes, sectionTransfer, hr]
      | false =>
          refine ⟨p + readable bytes.length p section_.shSize, ?_⟩
          rw [Bool.not_false, loadBeforeText_failed]
          simp [Transfer.store, Transfer.bytes, sectionTransfer]

namespace ElfFile

variable {e : ElfFile}

/-- The second loop seeks before it reads: where the stream stood is forgotten. -/
theorem stores_loadBehindText (hb : e.elfFile.bytes = bytes) (sections : List SectionHeader) :
    (loadBehindText e ⟨⟨bytes, p, failed⟩, stores⟩ sections).stores =
      stores ++ (e.ownOffsets (!failed) sections).map (Transfer.store bytes) := by
  induction sections generalizing p failed stores with
  | nil => simp [loadBehindText, ownOffsets]
  | cons section_ rest ih =>
      unfold loadBehindText ownOffsets
      split
      · exact ih
      split
      · show (loadBehindText e ⟨⟨bytes, p, failed⟩, stores ++ _⟩ rest).stores = _
        rw [ih]
        simp [Transfer.store, Transfer.bytes]
      cases failed with
      | true => simp [LoadState.seekg_failed, LoadState.read_failed]
      | false =>
          rw [LoadState.seekg_good]
          cases hmsb : section_.shOffset.msb with
          | true => simp [LoadState.read_failed]
          | false =>
              rw [if_neg Bool.false_ne_true, LoadState.read_good, hb]
              cases hc : completes bytes.length section_.shOffset.toNat section_.shSize with
              | true =>
                  show (loadBehindText e ⟨⟨bytes, _, false⟩, stores ++ _⟩ rest).stores = _
                  rw [ih]
                  simp [Transfer.store, Transfer.bytes, sectionTransfer, hc]
              | false => simp [Transfer.store, Transfer.bytes, sectionTransfer, hc]

/-- `getDataSections` makes the transfers, and nothing else. -/
theorem stores_getDataSections (l : LoadingHost) (e : ElfFile) :
    (e.getDataSections l).stores = (e.transfers l).map (Transfer.store e.elfFile.bytes) := by
  rcases hfile : e.elfFile with ⟨bytes, p, failed⟩
  unfold getDataSections transfers
  simp only [hfile]
  cases failed with
  | true =>
      rw [loadBeforeText_failed, LoadState.seekg_failed, LoadState.read_failed,
        LoadState.seekg_failed, stores_loadBehindText (by rw [hfile])]
      simp
  | false =>
      obtain ⟨p', hloop⟩ := @loadBeforeText_good bytes p []
        (e.sectionHeaders.take e.textIndex)
      rw [hloop]
      cases inTurnCompletes bytes.length p (e.sectionHeaders.take e.textIndex) with
      | false =>
          rw [Bool.not_false, LoadState.seekg_failed, LoadState.read_failed,
            LoadState.seekg_failed, stores_loadBehindText (by rw [hfile])]
          simp
      | true =>
          rw [Bool.not_true, LoadState.seekg_zero, LoadState.read_good]
          cases completes bytes.length 0 (e.elfHeader.eEhsize.setWidth 64) with
          | false =>
              rw [Bool.not_false, LoadState.seekg_failed, stores_loadBehindText (by rw [hfile])]
              simp [headerTransfer, Transfer.store, Transfer.bytes, hfile]
          | true =>
              rw [Bool.not_true, LoadState.seekg_good, stores_loadBehindText (by rw [hfile])]
              simp [headerTransfer, Transfer.store, Transfer.bytes, hfile]

end ElfFile

/-! ### What has to be loaded -/

theorem setTarget_cases {l : LoadingHost} {file : Option (List Byte)} {e : ElfFile}
    {st : LoadState} (h : setTarget l file = .ok (e, st)) :
    ∃ e₀ e₁, ElfFile.load l file = .ok e₀ ∧ e₀.getTextSection l = .ok e₁ ∧
      e = e₁.jumpToEntry ∧ st = e.getDataSections l := by
  unfold setTarget at h
  cases hload : ElfFile.load l file with
  | error err =>
      rw [hload] at h
      cases h
  | ok e₀ =>
      rw [hload] at h
      dsimp only at h
      cases htext : e₀.getTextSection l with
      | error err =>
          rw [htext] at h
          cases h
      | ok e₁ =>
          rw [htext] at h
          cases h
          exact ⟨e₀, e₁, rfl, htext, rfl, rfl⟩

def leBytes (n v : ℕ) : List Byte := (List.range n).map fun k => BitVec.ofNat 8 (v >>> (8 * k))

def ehdrBytes (shoff shnum shstrndx : ℕ) : List Byte :=
  [0x7f, 0x45, 0x4c, 0x46] ++ List.replicate 14 0 ++ leBytes 2 243 ++ List.replicate 20 0 ++
    leBytes 8 shoff ++ List.replicate 4 0 ++ leBytes 2 64 ++ leBytes 2 56 ++ leBytes 2 0 ++
    leBytes 2 64 ++ leBytes 2 shnum ++ leBytes 2 shstrndx

def shdrBytes (name type addr offset size : ℕ) : List Byte :=
  leBytes 4 name ++ leBytes 4 type ++ leBytes 8 0 ++ leBytes 8 addr ++ leBytes 8 offset ++
    leBytes 8 size ++ List.replicate 24 0

/-- `.text` at 1, `.rodata` at 7, `.shstrtab` at 15. -/
def sampleNames : List Byte :=
  [0] ++ nameBytes ".text" ++ [0] ++ nameBytes ".rodata" ++ [0] ++ nameBytes ".shstrtab" ++ [0]

def rodataFirst : List Byte :=
  ehdrBytes 97 4 3 ++ [1, 2, 3, 4] ++ [0x73, 0, 0, 0] ++ sampleNames ++
    shdrBytes 0 0 0 0 0 ++ shdrBytes 7 1 0x100 64 4 ++ shdrBytes 1 1 0x200 68 4 ++
    shdrBytes 15 3 0 72 25

def sampleHost : LoadingHost := ⟨fun _ => true, [], ⟨0, 0, 0, 0, 0⟩, 0⟩

theorem exists_of_toOption_map {α ε : Type} {r : Except ε α} {β : Type} {f : α → β} {y : β}
    (h : r.toOption.map f = some y) : ∃ x, r = .ok x ∧ f x = y := by
  cases r with
  | error err => cases h
  | ok x => exact ⟨x, rfl, Option.some.inj h⟩

end RailTranslator
