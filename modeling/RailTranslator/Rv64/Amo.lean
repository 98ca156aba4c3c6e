import RailTranslator.Rv64.Instr

/-!
The atomic instructions, and the mnemonics of RV64IMA.

`Instr` leaves out the atomic, the system and the fence instructions, because
they need more of the machine than registers and memory. `Amo.decode` reads the
fields of an atomic, and `Mnemonic.decode` names the instruction of every word
of RV64IMA.
-/

namespace Rv64

/-! ### Atomic instructions -/

inductive AmoOp
  | lr | sc | swap | add | xor | and | or | min | max | minu | maxu
  deriving DecidableEq, Repr

inductive AmoWidth
  | word | dword
  deriving DecidableEq, Repr

/-- An atomic instruction, with its two ordering bits. -/
structure Amo where
  op : AmoOp
  width : AmoWidth
  aqrl : BitVec 2
  rd : Reg
  rs1 : Reg
  rs2 : Reg
  deriving DecidableEq, Repr

def AmoOp.ofFunct5 (funct5 : BitVec 5) : Option AmoOp :=
  if funct5 = 0b00010 then some .lr
  else if funct5 = 0b00011 then some .sc
  else if funct5 = 0b00001 then some .swap
  else if funct5 = 0b00000 then some .add
  else if funct5 = 0b00100 then some .xor
  else if funct5 = 0b01100 then some .and
  else if funct5 = 0b01000 then some .or
  else if funct5 = 0b10000 then some .min
  else if funct5 = 0b10100 then some .max
  else if funct5 = 0b11000 then some .minu
  else if funct5 = 0b11100 then some .maxu
  else none

def AmoWidth.ofFunct3 (funct3 : BitVec 3) : Option AmoWidth :=
  if funct3 = 2 then some .word else if funct3 = 3 then some .dword else none

/-- The part of a word that tells the atomics apart. -/
def Word.funct5 (w : Word) : BitVec 5 := w.extractLsb' 27 5

def Word.aqrl (w : Word) : BitVec 2 := w.extractLsb' 25 2

/-- The atomic instruction a word of that opcode encodes. A load-reserved has
no second operand. -/
def Amo.decode (w : Word) : Option Amo :=
  match AmoOp.ofFunct5 (Word.funct5 w), AmoWidth.ofFunct3 w.funct3 with
  | some o, some width =>
      if o = .lr ∧ w.rs2 ≠ 0 then none else some ⟨o, width, Word.aqrl w, w.rd, w.rs1, w.rs2⟩
  | _, _ => none

theorem amo_decode_fields {w : Word} {a : Amo} (h : Amo.decode w = some a) :
    AmoOp.ofFunct5 (Word.funct5 w) = some a.op ∧ AmoWidth.ofFunct3 w.funct3 = some a.width ∧
      a.aqrl = Word.aqrl w ∧ a.rd = w.rd ∧ a.rs1 = w.rs1 ∧ a.rs2 = w.rs2 ∧
      (a.op = .lr → a.rs2 = 0) := by
  rw [Amo.decode] at h
  split at h
  · rename_i o width ho hwidth
    split at h
    · cases h
    · rename_i hlr
      cases h
      refine ⟨ho, hwidth, rfl, rfl, rfl, rfl, fun hop => ?_⟩
      by_contra hne
      exact hlr ⟨hop, hne⟩
  · cases h

/-! ### Mnemonics -/

/-- The mnemonics of RV64IMA. An immediate operation is called after the
operation it is an immediate form of. -/
inductive Mnemonic
  | lui | auipc | jal | jalr
  | branch (op : BranchOp)
  | load (op : LoadOp)
  | store (op : StoreOp)
  | opImm (op : AluOp)
  | op (op : AluOp)
  | fence | ecall | ebreak
  | amo (op : AmoOp) (width : AmoWidth)
  deriving DecidableEq, Repr

def Instr.mnemonic : Instr → Mnemonic
  | .lui _ _ => .lui
  | .auipc _ _ => .auipc
  | .jal _ _ => .jal
  | .jalr _ _ _ => .jalr
  | .branch o _ _ _ => .branch o
  | .load o _ _ _ => .load o
  | .store o _ _ _ => .store o
  | .opImm o _ _ _ => .opImm o
  | .op o _ _ _ => .op o

def Amo.mnemonic (a : Amo) : Mnemonic := .amo a.op a.width

/-- The mnemonic of a word, if it is an instruction of RV64IMA. The fields of a
fence that are not defined are ignored. -/
def Mnemonic.decode (w : Word) : Option Mnemonic :=
  if w.opcode = Opcode.amo then (Amo.decode w).map Amo.mnemonic
  else if w.opcode = Opcode.miscMem then if w.funct3 = 0 then some .fence else none
  else if w.opcode = Opcode.system then
    if w = 0x00000073 then some .ecall else if w = 0x00100073 then some .ebreak else none
  else (Instr.decode w).map Instr.mnemonic

section Decode

variable {w : Word} {m : Mnemonic}

theorem mnemonic_cases (h : Mnemonic.decode w = some m) :
    (w.opcode = Opcode.amo ∧ ∃ a, Amo.decode w = some a ∧ m = a.mnemonic) ∨
      (w.opcode = Opcode.miscMem ∧ m = .fence) ∨
      (w = 0x00000073 ∧ m = .ecall ∨ w = 0x00100073 ∧ m = .ebreak) ∨
      ∃ i, Instr.decode w = some i ∧ m = i.mnemonic := by
  rw [Mnemonic.decode] at h
  split_ifs at h with hamo hmisc hfence hsystem hecall hebreak
  · obtain ⟨a, ha, rfl⟩ := Option.map_eq_some_iff.mp h
    exact .inl ⟨hamo, a, ha, rfl⟩
  · exact .inr (.inl ⟨hmisc, (Option.some.inj h).symm⟩)
  · exact .inr (.inr (.inl (.inl ⟨hecall, (Option.some.inj h).symm⟩)))
  · exact .inr (.inr (.inl (.inr ⟨hebreak, (Option.some.inj h).symm⟩)))
  · obtain ⟨i, hi, rfl⟩ := Option.map_eq_some_iff.mp h
    exact .inr (.inr (.inr ⟨i, hi, rfl⟩))

theorem decodeOpImm_of_mnemonic {o : AluOp} (h : Mnemonic.decode w = some (.opImm o)) :
    ∃ v, decodeOpImm w = some (o, v) ∨ decodeOpImm32 w = some (o, v) := by
  rcases mnemonic_cases h with ⟨-, a, -, hm⟩ | ⟨-, hm⟩ | (⟨-, hm⟩ | ⟨-, hm⟩) | ⟨i, hi, hm⟩
  · cases hm
  · cases hm
  · cases hm
  · cases hm
  · cases decoded hi with
    | opImm hop hp =>
        cases hm
        exact ⟨_, .inl hp⟩
    | opImm32 hop hp =>
        cases hm
        exact ⟨_, .inr hp⟩
    | _ => cases hm

end Decode

end Rv64
