import RailTranslator.ElfBounds

/-!
Which sections arrive when no read ends early.

The sections behind `.text` are then all in their places. Those in front of it
are read one behind the other from where `getTextSection` has left the stream,
and they are in their places exactly when the file happens to have their bytes
there too.
-/

namespace RailTranslator

open Rv64

variable {file : List Byte} {t : Transfer} {x : DWord} {k : ℕ}

/-! ### One transfer -/

def Transfer.Within (t : Transfer) (section_ : SectionHeader) : Prop :=
  t.dst = section_.shAddr ∧ t.len ≤ section_.shSize.toNat

section
variable {size p : ℕ} {sections pre post : List SectionHeader} {section_ : SectionHeader}

end

/-! ### The second loop -/

namespace ElfFile

variable {e : ElfFile} {good : Bool} {sections pre post : List SectionHeader}
  {section_ : SectionHeader}

/-- A section that the second loop passes, or that is in the file. -/
def Passes (e : ElfFile) (section_ : SectionHeader) : Prop :=
  section_.shAddr ≠ 0 → e.isBss section_ = false →
    section_.shOffset.toNat + section_.shSize.toNat ≤ e.elfFile.bytes.length

end ElfFile

/-! ### Files that are read to the end -/

section
variable {l : LoadingHost} {e : ElfFile} {section_ : SectionHeader} {v : Byte}

namespace ReadsThrough

end ReadsThrough

end

/-! ### Where the stream stands -/

namespace InputFile

variable {f : InputFile} {n : DWord}

end InputFile

section
variable {l : LoadingHost} {file : Option (List Byte)} {e : ElfFile} {st : LoadState}

end

/-! ### Two files -/

end RailTranslator
