import RailTranslator.ElfLoading

/-!
Where the loader stays inside its tables and the data mapping.

The constructor checks the magic and the machine, and nothing else: which
section headers are looked at, where their names start and where their
contents go is whatever the file says.
-/

namespace RailTranslator

open Rv64

namespace ElfFile

theorem length_sectionHeaders {l : LoadingHost} {file : Option (List Byte)} {e : ElfFile}
    (h : load l file = .ok e) : e.sectionHeaders.length = e.elfHeader.eShnum.toNat := by
  cases file with
  | none => cases h
  | some bytes =>
      unfold load at h
      dsimp only at h
      split at h
      · cases h
      split at h
      · cases h
      split at h
      · cases h
      split at h
      · cases h
      · cases h
        simp [records]

theorem getTextSection_headers {l : LoadingHost} {e e' : ElfFile}
    (h : e.getTextSection l = .ok e') :
    e'.sectionHeaders = e.sectionHeaders ∧ e'.textIndex = e.textIndex := by
  unfold getTextSection at h
  split at h
  · cases h
    exact ⟨rfl, rfl⟩
  split at h
  · cases h
  · cases h
    exact ⟨rfl, rfl⟩

end ElfFile

/-! ### The property -/

def Store.Inside (s : Store) : Prop := s.bytes = [] ∨ s.offset.toNat + s.bytes.length ≤ dataSize

/-- A loaded file whose headers and names are looked up inside their tables,
and whose sections are written inside the data mapping. -/
structure LoadsSafely (l : LoadingHost) (file : List Byte) (e : ElfFile) : Prop where
  shstrndx : e.elfHeader.eShstrndx.toNat < e.sectionHeaders.length
  names : ∀ section_ ∈ e.sectionHeaders,
    ∃ k, section_.shName.toNat ≤ k ∧ e.shstrtab[k]? = some 0
  behindText : ∀ e' st, setTarget l (some file) = .ok (e', st) →
    e'.textIndex + 1 < e'.sectionHeaders.length
  stores : ∀ e' st, setTarget l (some file) = .ok (e', st) → ∀ s ∈ st.stores, s.Inside

/-- A stretch of the buffer that is empty or in the data mapping. -/
def Transfer.Inside (t : Transfer) : Prop := t.len = 0 ∨ t.dst.toNat + t.len ≤ dataSize

/-! ### Transfers and stores -/

def Transfer.InFile (size : ℕ) (t : Transfer) : Prop := ∀ p ∈ t.src, t.len ≤ size - p

theorem inFile_sectionTransfer (size p : ℕ) (section_ : SectionHeader) :
    (sectionTransfer size p section_).InFile size := by
  intro q hq
  cases hq
  exact readable_le size p section_.shSize

theorem inFile_of_mem_inTurn {size p : ℕ} {sections : List SectionHeader} {t : Transfer}
    (ht : t ∈ inTurn size p sections) : t.InFile size := by
  induction sections generalizing p with
  | nil => cases ht
  | cons section_ rest ih =>
      rw [inTurn, List.mem_cons] at ht
      obtain rfl | ht := ht
      · exact inFile_sectionTransfer size p section_
      · split at ht
        · exact ih ht
        · cases ht

namespace ElfFile

variable {e : ElfFile}

theorem inFile_of_mem_ownOffsets {good : Bool} {sections : List SectionHeader} {t : Transfer}
    (ht : t ∈ e.ownOffsets good sections) : t.InFile e.elfFile.bytes.length := by
  induction sections with
  | nil => cases ht
  | cons section_ rest ih =>
      unfold ownOffsets at ht
      split at ht
      · exact ih ht
      split at ht
      · rw [List.mem_cons] at ht
        obtain rfl | ht := ht
        · intro p hp
          cases hp
        · exact ih ht
      split at ht
      · rw [List.mem_cons] at ht
        obtain rfl | ht := ht
        · exact inFile_sectionTransfer _ _ section_
        · split at ht
          · exact ih ht
          · cases ht
      · cases ht

theorem inFile_of_mem_transfers {l : LoadingHost} {t : Transfer} (ht : t ∈ e.transfers l) :
    t.InFile e.elfFile.bytes.length := by
  unfold transfers at ht
  dsimp only at ht
  split at ht
  · exact inFile_of_mem_ownOffsets ht
  rw [List.mem_append] at ht
  obtain ht | ht := ht
  · exact inFile_of_mem_inTurn ht
  split at ht
  · rw [List.mem_cons] at ht
    obtain rfl | ht := ht
    · intro p hp
      cases hp
      exact readable_le _ 0 _
    · exact inFile_of_mem_ownOffsets ht
  · exact inFile_of_mem_ownOffsets ht

theorem transfers_jumpToEntry (l : LoadingHost) (e : ElfFile) :
    e.jumpToEntry.transfers l = e.transfers l := by
  have hown (good : Bool) (sections : List SectionHeader) :
      e.jumpToEntry.ownOffsets good sections = e.ownOffsets good sections := by
    induction sections with
    | nil => rfl
    | cons section_ rest ih =>
        unfold ownOffsets
        rw [ih]
        rfl
  unfold transfers
  simp only [hown]
  rfl

end ElfFile

theorem Transfer.length_bytes {file : List Byte} {t : Transfer} (ht : t.InFile file.length) :
    (t.bytes file).length = t.len := by
  unfold Transfer.bytes
  unfold Transfer.InFile at ht
  cases hsrc : t.src with
  | none => exact List.length_replicate
  | some p =>
      have hle : t.len ≤ file.length - p := ht p hsrc
      simp [hle]

theorem Transfer.inside_store {file : List Byte} {t : Transfer} (ht : t.InFile file.length) :
    (t.store file).Inside ↔ t.Inside := by
  unfold Store.Inside Transfer.Inside
  rw [← List.length_eq_zero_iff]
  show (t.bytes file).length = 0 ∨ t.dst.toNat + (t.bytes file).length ≤ dataSize ↔ _
  rw [Transfer.length_bytes ht]

/-- The loader writes inside the mapping exactly when its transfers lie there. -/
theorem stores_inside_iff (l : LoadingHost) (e : ElfFile) :
    (∀ s ∈ (e.getDataSections l).stores, s.Inside) ↔ ∀ t ∈ e.transfers l, t.Inside := by
  rw [ElfFile.stores_getDataSections, List.forall_mem_map]
  apply forall₂_congr
  intro t ht
  exact Transfer.inside_store (ElfFile.inFile_of_mem_transfers ht)

/-! ### Names -/

/-- Every name ends in the table when the table has a zero behind all their
beginnings. -/
theorem names_iff {names : List (BitVec 32)} {table : List Byte} (hne : names ≠ []) :
    (∀ name ∈ names, ∃ k, name.toNat ≤ k ∧ table[k]? = some 0) ↔
      ∃ k, table[k]? = some 0 ∧ ∀ name ∈ names, name.toNat ≤ k := by
  constructor
  · intro h
    induction names with
    | nil => exact absurd rfl hne
    | cons name rest ih =>
        obtain ⟨k, hk, hzero⟩ := h name List.mem_cons_self
        cases rest with
        | nil => exact ⟨k, hzero, by simpa using hk⟩
        | cons name' rest =>
            obtain ⟨k', hzero', hrest⟩ := ih (List.cons_ne_nil _ _)
              fun n hn => h n (List.mem_cons_of_mem _ hn)
            -- the later of the two zeros ends both
            obtain hle | hle := Nat.le_total k k'
            · exact ⟨k', hzero', List.forall_mem_cons.mpr ⟨hk.trans hle, hrest⟩⟩
            · exact ⟨k, hzero, List.forall_mem_cons.mpr
                ⟨hk, fun n hn => (hrest n hn).trans hle⟩⟩
  · intro h name hname
    obtain ⟨k, hzero, hle⟩ := h
    exact ⟨k, hle name hname, hzero⟩

/-! ### When nothing else is touched -/

/-- What the header fields have to satisfy: an index below a count, a zero
behind the beginnings of all names, a `.text` before another section, and
transfers that end below the size of the mapping. -/
structure FieldsFit (l : LoadingHost) (e : ElfFile) : Prop where
  shstrndx : e.elfHeader.eShstrndx < e.elfHeader.eShnum
  names : ∃ k, e.shstrtab[k]? = some 0 ∧ ∀ section_ ∈ e.sectionHeaders, section_.shName.toNat ≤ k
  text : ∀ e', e.getTextSection l = .ok e' → e.textIndex + 1 < e.elfHeader.eShnum.toNat
  transfers : ∀ e', e.getTextSection l = .ok e' → ∀ t ∈ e'.transfers l, t.Inside

theorem setTarget_of_getTextSection {l : LoadingHost} {file : Option (List Byte)} {e e' : ElfFile}
    (hload : ElfFile.load l file = .ok e) (htext : e.getTextSection l = .ok e') :
    setTarget l file = .ok (e'.jumpToEntry, e'.jumpToEntry.getDataSections l) := by
  unfold setTarget
  rw [hload]
  dsimp only
  rw [htext]

theorem loadsSafely_iff {l : LoadingHost} {file : List Byte} {e : ElfFile}
    (hload : ElfFile.load l (some file) = .ok e) :
    LoadsSafely l file e ↔ FieldsFit l e := by
  have hlen := ElfFile.length_sectionHeaders hload
  constructor
  · intro hsafe
    -- the index of the name table is one of a section, so there are sections
    have hne : e.sectionHeaders.map (·.shName) ≠ [] := by
      intro hnil
      have hidx := hsafe.shstrndx
      rw [List.map_eq_nil_iff.mp hnil] at hidx
      exact Nat.not_lt_zero _ hidx
    refine ⟨?_, ?_, ?_, ?_⟩
    · rw [BitVec.lt_def, ← hlen]
      exact hsafe.shstrndx
    · have hnames := (@names_iff _ e.shstrtab hne).mp (List.forall_mem_map.mpr hsafe.names)
      obtain ⟨k, hzero, hle⟩ := hnames
      exact ⟨k, hzero, List.forall_mem_map.mp hle⟩
    · intro e' htext
      obtain ⟨hsections, hindex⟩ := ElfFile.getTextSection_headers htext
      have hbehind := hsafe.behindText _ _ (setTarget_of_getTextSection hload htext)
      rw [← hlen, ← hsections, ← hindex]
      exact hbehind
    · intro e' htext
      rw [← ElfFile.transfers_jumpToEntry]
      exact (stores_inside_iff l e'.jumpToEntry).mp
        (hsafe.stores _ _ (setTarget_of_getTextSection hload htext))
  · intro hfit
    obtain ⟨k, hzero, hle⟩ := hfit.names
    refine ⟨?_, ?_, ?_, ?_⟩
    · rw [hlen]
      exact hfit.shstrndx
    · intro section_ hmem
      exact ⟨k, hle section_ hmem, hzero⟩
    · intro e' st h
      obtain ⟨e₀, e₁, hload₀, htext, rfl, -⟩ := setTarget_cases h
      rw [hload] at hload₀
      cases hload₀
      obtain ⟨hsections, hindex⟩ := ElfFile.getTextSection_headers htext
      show e₁.textIndex + 1 < e₁.sectionHeaders.length
      rw [hsections, hindex, hlen]
      exact hfit.text e₁ htext
    · intro e' st h
      obtain ⟨e₀, e₁, hload₀, htext, rfl, rfl⟩ := setTarget_cases h
      rw [hload] at hload₀
      cases hload₀
      rw [stores_inside_iff, ElfFile.transfers_jumpToEntry]
      exact hfit.transfers e₁ htext

/-- The sample file is loaded inside its tables and the mapping. -/
theorem loadsSafely_rodataFirst :
    ∃ e, ElfFile.load sampleHost (some rodataFirst) = .ok e ∧ FieldsFit sampleHost e ∧
      LoadsSafely sampleHost rodataFirst e := by
  obtain ⟨e, h, hfacts⟩ := exists_of_toOption_map
    (show (ElfFile.load sampleHost (some rodataFirst)).toOption.map (fun e =>
        (decide (e.elfHeader.eShstrndx < e.elfHeader.eShnum), e.shstrtab[24]?,
          e.sectionHeaders.all fun section_ => section_.shName.toNat ≤ 24,
          decide (e.textIndex + 1 < e.elfHeader.eShnum.toNat),
          (e.getTextSection sampleHost).toOption.all fun e' => (e'.transfers sampleHost).all fun t =>
            t.len = 0 ∨ t.dst.toNat + t.len ≤ dataSize)) =
      some (true, some 0, true, true, true) by decide +kernel)
  simp only [Prod.mk.injEq, decide_eq_true_eq, List.all_eq_true] at hfacts
  obtain ⟨hshstrndx, hzero, hnames, htext, htransfers⟩ := hfacts
  have hfit : FieldsFit sampleHost e := by
    refine ⟨hshstrndx, ⟨24, hzero, hnames⟩, fun _ _ => htext, fun e' he' => ?_⟩
    rw [he'] at htransfers
    have hall := List.all_eq_true.mp htransfers
    intro t ht
    have hinside : t.len = 0 ∨ t.dst.toNat + t.len ≤ dataSize := of_decide_eq_true (hall t ht)
    exact hinside
  exact ⟨e, h, hfit, (loadsSafely_iff h).mpr hfit⟩

/-- A file whose section headers have been stripped. -/
theorem load_accepts_stripped :
    ∃ e, ElfFile.load sampleHost (some (ehdrBytes 0 0 0)) = .ok e ∧
      ¬ LoadsSafely sampleHost (ehdrBytes 0 0 0) e := by
  obtain ⟨e, h, hfacts⟩ := exists_of_toOption_map
    (show (ElfFile.load sampleHost (some (ehdrBytes 0 0 0))).toOption.map
      (fun e => e.sectionHeaders) = some [] by decide +kernel)
  refine ⟨e, h, fun hsafe => ?_⟩
  have hidx := hsafe.shstrndx
  rw [hfacts] at hidx
  exact Nat.not_lt_zero _ hidx

end RailTranslator
