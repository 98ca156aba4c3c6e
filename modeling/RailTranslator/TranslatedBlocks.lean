import RailTranslator.Instrumentation

/-!
Which instructions of the guest a block is the translation of.

`GuestTrail` is a way of the guest through its text: every instruction stands
where the one in front of it goes on. A block that has come to an end holds the
words of such a way, from the first address of its record to the last:
`Translates`, which the allocators establish in `allocate_translates`.
-/

namespace RailTranslator

open Rv64 Transition

/-! ### The way of the guest -/

/-- Where the architecture has the guest go on behind the instruction at `pc`.
A branch has been decided already. -/
def ElfReader.guestNext (elf : ElfReader) (pc : BitVec 32) (f : TrapFrame) (taken : DWord) :
    DWord :=
  let w := elf.fetch pc
  if w.opcode = Opcode.jalr then
    ((if w.rs1 = 0 then 0 else f w.rs1) + w.immI.signExtend 64) &&& ~~~1#64
  else elf.goesOn pc f taken

/-- A `jalr` goes to an even address, through a register other than `x0`. -/
def PlainJalr (w : Word) (f : TrapFrame) : Prop :=
  w.opcode = Opcode.jalr →
    w.rs1 ≠ 0 ∧ (f w.rs1 + w.immI.signExtend 64).getLsbD 0 = false

/-- An instruction of the guest that has been executed, with the registers and
the side of a branch that say where it goes on. -/
structure Passed where
  pc : BitVec 32
  frame : TrapFrame
  taken : DWord

/-- The guest executes the instructions from `x` on, one after the other, and
goes on at `y`. -/
inductive GuestTrail (elf : ElfReader) : DWord → List Passed → DWord → Prop
  | nil {x : DWord} : GuestTrail elf x [] x
  | cons {p : Passed} {ps : List Passed} {y : DWord}
      (hrest : GuestTrail elf (elf.guestNext p.pc p.frame p.taken) ps y) :
      GuestTrail elf (p.pc.signExtend 64) (p :: ps) y

def passedOf (ps : List Piece) (f : TrapFrame) (taken : DWord) : List Passed :=
  ps.map fun p => ⟨p.pc, f, taken⟩

section Trail

variable {h : Host} {r : Rail} {elf : ElfReader} {pc : BitVec 32} {f : TrapFrame} {taken : DWord}

theorem GuestTrail.append {x y z : DWord} {ps ps' : List Passed} (htrail : GuestTrail elf x ps y)
    (htrail' : GuestTrail elf y ps' z) : GuestTrail elf x (ps ++ ps') z := by
  induction htrail with
  | nil => exact htrail'
  | cons _ ih => exact .cons (ih htrail')

theorem guestNext_of_not_isTerminal (hw : ¬ IsTerminal (elf.fetch pc)) :
    elf.guestNext pc f taken = (pc + 4).signExtend 64 := by
  have hjalr : (elf.fetch pc).opcode ≠ Opcode.jalr := fun hop => hw (.inr (.inr (.inl hop)))
  exact (if_neg hjalr).trans
    (goesOn_behind (fun hop => hw (.inl hop)) (fun hop => hw (.inr (.inl hop))) hjalr)

theorem guestNext_of_jal (hop : (elf.fetch pc).opcode = Opcode.jal) :
    elf.guestNext pc f taken = (jumpTarget elf pc).signExtend 64 := by
  have hjalr : (elf.fetch pc).opcode ≠ Opcode.jalr := by rw [hop]; decide
  exact (if_neg hjalr).trans (goesOn_jal hop)

theorem GuestTrail.single (elf : ElfReader) (pc : BitVec 32) (f : TrapFrame) (taken : DWord) :
    GuestTrail elf (pc.signExtend 64) [⟨pc, f, taken⟩] (elf.guestNext pc f taken) :=
  @GuestTrail.cons elf ⟨pc, f, taken⟩ _ _ .nil

/-- The way straight through the text to the end of a block. -/
theorem BlockWalk.trail {q : BitVec 32} {ps : List Piece} {e : BlockEnd}
    (hwalk : BlockWalk h r elf pc ps q e) (he : e = .stopped ∨ e = .segmented) :
    GuestTrail elf (pc.signExtend 64) (passedOf ps f taken) (elf.guestNext q f taken) := by
  induction hwalk with
  | @straight pc q ps e hin _ ih =>
      have hrest := ih he
      rw [← guestNext_of_not_isTerminal hin.not_terminal] at hrest
      exact @GuestTrail.cons elf ⟨pc, f, taken⟩ _ _ hrest
  | stopped | segmented => exact .single elf _ f taken
  | pre | exhausted | endless => rcases he with he | he <;> cases he

theorem BlockWalk.trail_cut {q : BitVec 32} {ps : List Piece} {e : BlockEnd}
    (hwalk : BlockWalk h r elf pc ps q e) (he : e = .pre) (hne : ps ≠ []) :
    GuestTrail elf (pc.signExtend 64) (passedOf ps f taken) (elf.guestNext (q - 4) f taken) := by
  induction hwalk with
  | @straight pc q ps e hin hrest ih =>
      by_cases hps : ps = []
      · subst hps
        cases hrest with
        | pre =>
            rw [BitVec.add_sub_cancel]
            exact .single elf _ f taken
        | exhausted | endless => cases he
      · have htrail := ih he hps
        rw [← guestNext_of_not_isTerminal hin.not_terminal] at htrail
        exact @GuestTrail.cons elf ⟨pc, f, taken⟩ _ _ htrail
  | stopped | segmented | exhausted | endless => cases he
  | pre => exact absurd rfl hne

/-- The way of a trace, along the jumps it follows. -/
theorem TraceWalk.trail {i : ℕ} {q : BitVec 32} {ps : List Piece} {e : TraceEnd}
    (hwalk : TraceWalk h r elf i pc ps q e) (he : e = .stopped ∨ e = .segmented ∨ e = .lost) :
    GuestTrail elf (pc.signExtend 64) (passedOf ps f taken) (elf.guestNext q f taken) := by
  induction hwalk with
  | @straight i pc q ps e hin _ ih =>
      have hrest := ih he
      rw [← guestNext_of_not_isTerminal hin.not_terminal] at hrest
      exact @GuestTrail.cons elf ⟨pc, f, taken⟩ _ _ hrest
  | @followed i pc q ps e hop hi htarget _ ih =>
      have hrest := ih he
      rw [← guestNext_of_jal hop] at hrest
      exact @GuestTrail.cons elf ⟨pc, f, taken⟩ _ _ hrest
  | lost | stopped | segmented => exact .single elf _ f taken
  | exhausted | endless | empty => rcases he with he | he | he <;> cases he

end Trail

/-! ### The instructions of a block -/

/-- A walk from `a` to the instruction at `q`, behind which the block with the
words `ws` is left: `allocateBB` ends it there, or in front of the next one, or
gives an instruction a block of its own; or it is a trace. -/
inductive GuestWalk (h : Host) (r : Rail) (elf : ElfReader) :
    BitVec 32 → List Piece → BitVec 32 → List Word → Prop
  | closed {a q : BitVec 32} {ps : List Piece} {e : BlockEnd} (hwalk : BlockWalk h r elf a ps q e)
      (he : e = .stopped ∨ e = .segmented) : GuestWalk h r elf a ps q (walkedWords ps)
  | cut {a q : BitVec 32} {ps : List Piece} (hwalk : BlockWalk h r elf a ps q .pre)
      (hne : ps ≠ []) : GuestWalk h r elf a ps (q - 4) (walkedWords ps ++ exitTo h.contextSwitch)
  | pre {q : BitVec 32} (k : ℕ) (hne : elf.fetch q ≠ 0) : GuestWalk h r elf q
      [⟨q, nextInstWords h (wordAddr h.base (k + 6)) q (elf.fetch q)⟩] q
        (preWords h k q (elf.fetch q))
  | trace {i : ℕ} {a q : BitVec 32} {ps : List Piece} {e : TraceEnd}
      (hwalk : TraceWalk h r elf i a ps q e) (he : e = .stopped ∨ e = .segmented ∨ e = .lost) :
      GuestWalk h r elf a ps q (walkedWords ps)

/-- The words `ws` of the block are the translation of the instructions of
`ps`, from its first address to its last, and the record tells the truth about
the last one. -/
structure Translates (h : Host) (r : Rail) (elf : ElfReader) (b : RailBasicBlock)
    (ps : List Piece) (ws : List Word) : Prop where
  walk : GuestWalk h r elf (b.firstAddr.setWidth 32) ps (b.lastAddr.setWidth 32) ws
  firstAddr : asInt b.firstAddr = b.firstAddr
  lastAddr : asInt b.lastAddr = b.lastAddr
  terminalInst : b.terminalInst = elf.fetch (b.lastAddr.setWidth 32)
  type : LeavesBy b.type b.terminalInst
  assigned : b.type.Assigned

section Translates

variable {h : Host} {r : Rail} {elf : ElfReader} {b : RailBasicBlock} {ps : List Piece}
  {ws : List Word}

theorem GuestWalk.trail {a q : BitVec 32} {f : TrapFrame} {taken : DWord}
    (hwalk : GuestWalk h r elf a ps q ws) :
    GuestTrail elf (a.signExtend 64) (passedOf ps f taken) (elf.guestNext q f taken) := by
  cases hwalk with
  | closed hwalk he => exact hwalk.trail he
  | cut hwalk hne => exact hwalk.trail_cut rfl hne
  | pre => exact .single elf _ f taken
  | trace hwalk he => exact hwalk.trail he

/-- The guest executes the instructions of the block one after the other, and
goes on where the last one does. -/
theorem Translates.trail {f : TrapFrame} {taken : DWord} (hb : Translates h r elf b ps ws) :
    GuestTrail elf b.firstAddr (passedOf ps f taken)
      (elf.guestNext (b.lastAddr.setWidth 32) f taken) := by
  have htrail : GuestTrail elf _ (passedOf ps f taken) (elf.guestNext _ f taken) :=
    hb.walk.trail
  rwa [show (b.firstAddr.setWidth 32).signExtend 64 = b.firstAddr from hb.firstAddr] at htrail

theorem Translates.renamed (hb : Translates h r elf b ps ws) (bb : DWord) :
    Translates h r elf { b with basicBlockAddress := bb } ps ws :=
  ⟨hb.walk, hb.firstAddr, hb.lastAddr, hb.terminalInst, hb.type, hb.assigned⟩

theorem GuestWalk.translates {a q : BitVec 32} (hwalk : GuestWalk h r elf a ps q ws)
    (hfirst : b.firstAddr = a.signExtend 64) (hlast : b.lastAddr = q.signExtend 64)
    (hterm : b.terminalInst = elf.fetch q) (htype : LeavesBy b.type (elf.fetch q))
    (hassigned : b.type.Assigned) : Translates h r elf b ps ws := by
  have hlow (x : BitVec 32) : (x.signExtend 64).setWidth 32 = x := low_ofLow x
  refine ⟨?_, ?_, ?_, ?_, ?_, hassigned⟩
  · rw [hfirst, hlast, hlow, hlow]
    exact hwalk
  · rw [hfirst, asInt_signExtend]
  · rw [hlast, asInt_signExtend]
  · rw [hlast, hlow]
    exact hterm
  · rw [hterm]
    exact htype

theorem Describes.translates {a q : BitVec 32} {type : BasicBlockType}
    (hdesc : Describes elf b a q type) (hwalk : GuestWalk h r elf a ps q ws)
    (htype : LeavesBy type (elf.fetch q)) (hassigned : type.Assigned) :
    Translates h r elf b ps ws := by
  rw [← hdesc.type] at htype hassigned
  exact hwalk.translates hdesc.firstAddr hdesc.lastAddr hdesc.terminalInst htype hassigned

theorem GuestWalk.of_setProgramCounter {x a q : BitVec 32}
    (hwalk : GuestWalk h r (elf.setProgramCounter x) a ps q ws) : GuestWalk h r elf a ps q ws := by
  cases hwalk with
  | closed hwalk he => exact .closed hwalk.of_setProgramCounter he
  | cut hwalk hne => exact .cut hwalk.of_setProgramCounter hne
  | pre k hne => exact .pre k hne
  | trace hwalk he => exact .trace hwalk.of_setProgramCounter he

theorem Translates.of_setProgramCounter {x : BitVec 32}
    (hb : Translates h r (elf.setProgramCounter x) b ps ws) : Translates h r elf b ps ws :=
  ⟨hb.walk.of_setProgramCounter, hb.firstAddr, hb.lastAddr, hb.terminalInst, hb.type, hb.assigned⟩

end Translates

/-! ### Where its words stand -/

/-- The words of the block stand in the cache where its record says. -/
def CodeCache.Holds (h : Host) (c : CodeCache) (b : RailBasicBlock) (ws : List Word) : Prop :=
  ∃ front : List Word, Placed h b front.length ws ∧ front ++ ws <+: c.memory

def Appended (h : Host) (c c' : CodeCache) (b : RailBasicBlock) (ws : List Word) : Prop :=
  ∃ mid : List Word, Placed h b (c.memory.length + mid.length) ws ∧
    c.memory ++ (mid ++ ws) <+: c'.memory

section Words

variable {h : Host} {r : Rail} {elf : ElfReader} {c c' : CodeCache} {b : RailBasicBlock}
  {ps : List Piece} {ws : List Word}

theorem CodeCache.Holds.mono (hb : c.Holds h b ws) (hm : c.memory <+: c'.memory) :
    c'.Holds h b ws := by
  obtain ⟨front, hplace, hmem⟩ := hb
  exact ⟨front, hplace, hmem.trans hm⟩

theorem CodeCache.Holds.renamed (hb : c.Holds h b ws) (bb : DWord) :
    c.Holds h { b with basicBlockAddress := bb } ws := by
  obtain ⟨front, hplace, hmem⟩ := hb
  exact ⟨front, ⟨hplace.startLocationInCache, hplace.endLocationInCache⟩, hmem⟩

theorem Appended.mono {c'' : CodeCache} (hb : Appended h c c' b ws)
    (hm : c'.memory <+: c''.memory) : Appended h c c'' b ws := by
  obtain ⟨mid, hplace, hmem⟩ := hb
  exact ⟨mid, hplace, hmem.trans hm⟩

theorem Appended.behind {c₁ : CodeCache} (hb : Appended h c₁ c' b ws)
    (hm : c.memory <+: c₁.memory) : Appended h c c' b ws := by
  obtain ⟨mid, hplace, hmem⟩ := hb
  obtain ⟨front, hfront⟩ := hm
  refine ⟨front ++ mid, ?_, ?_⟩
  · rw [List.length_append, ← Nat.add_assoc, ← List.length_append, hfront]
    exact hplace
  · rw [List.append_assoc, ← List.append_assoc, hfront]
    exact hmem

/-- Words that are appended keep their place when the words in front of them
are changed. -/
theorem Appended.holds {c'' : CodeCache} {front : List Word} (hb : Appended h c c' b ws)
    (hlen : front.length = c.memory.length)
    (hmem : c''.memory = front ++ c'.memory.drop c.memory.length) : c''.Holds h b ws := by
  obtain ⟨mid, hplace, back, hback⟩ := hb
  refine ⟨front ++ mid, ?_, back, ?_⟩
  · rw [List.length_append, hlen]
    exact hplace
  · rw [hmem, ← hback]
    simp only [List.append_assoc, List.drop_left]

/-- The blocks that a walk of `allocateBB` leaves in the cache. -/
theorem MainAdded.translates {a q : BitVec 32} {e : BlockEnd} {x : DWord}
    (hwalk : BlockWalk h r elf a ps q e) (hmain : MainAdded h elf a c ps q e c')
    (hb : c'.railBasicBlocks x = some b) : c.railBasicBlocks x = some b ∨
      ∃ ps ws, Translates h r elf b ps ws ∧ Appended h c c' b ws := by
  cases hmain with
  | closed he hdesc hplace hbb =>
      obtain ⟨rfl, rfl⟩ | ⟨-, hb⟩ := insertAt_cases hb
      · refine .inr ⟨ps, _, hdesc.translates (.closed hwalk he) (hwalk.of_closed he)
          (e.assigned_type _), [], hplace, ?_⟩
        show c.memory ++ ([] ++ walkedWords ps) <+: c.memory ++ (walkedWords ps ++ _)
        rw [List.nil_append, ← List.append_assoc]
        exact List.prefix_append _ _
      · exact .inl hb
  | cut hne hdesc hplace hbb =>
      obtain ⟨rfl, rfl⟩ | ⟨-, hb⟩ := insertAt_cases hb
      · have hin := hwalk.of_cut rfl hne
        refine .inr ⟨ps, _, hdesc.translates (.cut hwalk hne) ⟨hin.ne_zero, hin.not_terminal⟩
          (by decide), [], hplace, ?_⟩
        exact List.prefix_rfl
      · exact .inl hb
  | left => exact .inl hb

theorem PreAdded.translates {a q : BitVec 32} {e : BlockEnd} {x : DWord}
    (hne : e = .pre → elf.fetch q ≠ 0) (hpre : PreAdded h elf a c q e c')
    (hb : c'.railBasicBlocks x = some b) : c.railBasicBlocks x = some b ∨
      ∃ ps ws, Translates h r elf b ps ws ∧ Appended h c c' b ws := by
  cases hpre with
  | none => exact .inl hb
  | added hnew hdesc hplace hbb =>
      obtain ⟨rfl, rfl⟩ | ⟨-, hb⟩ := insertAt_cases hb
      · exact .inr ⟨_, _, hdesc.translates (.pre c.memoryIndex (hne rfl))
          (leavesBy_nextInstType (hne rfl)) (assigned_nextInstType _), [], hplace,
          List.prefix_rfl⟩
      · exact .inl hb

/-- A trace, unless the text has come to an end before it. -/
theorem allocateTrace_translates {pc : BitVec 32} {a x : DWord} {n : ℕ} (hn : 0 < n)
    (hfits : (allocateTrace h r (elf.setProgramCounter pc) c a n).2.memory.length < loopFuel)
    (hb : (allocateTrace h r (elf.setProgramCounter pc) c a n).2.railBasicBlocks x = some b) :
    c.railBasicBlocks x = some b ∨ b.terminalInst = 0 ∨ ∃ ps ws, Translates h r elf b ps ws ∧
      Appended h c (allocateTrace h r (elf.setProgramCounter pc) c a n).2 b ws := by
  obtain ⟨ps, q, e, hwalk, -, hmem, hblocks, ⟨b', hb', hrec⟩, -, -, hendless, -⟩ :=
    allocateTrace_walk h r (elf.setProgramCounter pc) c a n
  by_cases hx : x = asInt a
  · subst hx
    obtain rfl : b = b' := Option.some.inj (hb.symm.trans hb')
    right
    have hwalk' := hwalk.of_setProgramCounter
    obtain ⟨hstopped, hsegmented, hlost, hempty⟩ := hwalk'.of_ended
    have hterm : b.terminalInst = elf.fetch q := hrec.terminalInst
    have happ : Appended h c (allocateTrace h r (elf.setProgramCounter pc) c a n).2 b
        (walkedWords ps) := by
      refine ⟨[], ⟨hrec.startLocationInCache, hrec.endLocationInCache.trans ?_⟩, ?_⟩
      · rw [CodeCache.here, CodeCache.memoryIndex, hmem, List.length_append]
        rfl
      · rw [hmem]
        exact List.prefix_rfl
    have hnew (he : e = .stopped ∨ e = .segmented ∨ e = .lost) (type : BasicBlockType)
        (htype : b.type = type) (hleaves : LeavesBy type (elf.fetch q))
        (hassigned : type.Assigned) : ∃ ps ws, Translates h r elf b ps ws ∧
          Appended h c (allocateTrace h r (elf.setProgramCounter pc) c a n).2 b ws := by
      subst htype
      have hguest : GuestWalk h r elf (a.setWidth 32) ps q (walkedWords ps) := .trace hwalk' he
      exact ⟨ps, _, hguest.translates hrec.firstAddr hrec.lastAddr hterm hleaves hassigned, happ⟩
    cases e with
    | stopped => exact .inr (hnew (.inl rfl) _ (hrec.type rfl) (leavesBy_exitType (hstopped rfl))
        (exitType_plain _).1)
    | segmented => exact .inr (hnew (.inr (.inl rfl)) _ (hrec.type_segmented rfl) (hsegmented rfl)
        (by decide))
    | lost => exact .inr (hnew (.inr (.inr rfl)) _ (hrec.type_lost rfl) (.inr (hlost rfl))
        (by decide))
    | exhausted => exact .inl (hterm.trans (hwalk'.fetch_of_exhausted rfl))
    | endless => exact absurd (hendless rfl) (Nat.not_le_of_gt hfits)
    | empty => exact absurd (hempty rfl) hn.ne'
  · rw [hblocks x hx] at hb
    exact .inl hb

/-- Every block that is registered is the translation of instructions of the
guest, unless the text has come to an end before the trace. -/
theorem allocate_translates {pc : BitVec 32} {a x : DWord} {n : ℕ} (hn : 0 < n)
    (hfits : (allocate h r (elf.setProgramCounter pc) c a n).2.memory.length < loopFuel)
    (hb : (allocate h r (elf.setProgramCounter pc) c a n).2.railBasicBlocks x = some b) :
    c.railBasicBlocks x = some b ∨ b.terminalInst = 0 ∨ ∃ ps ws, Translates h r elf b ps ws ∧
      Appended h c (allocate h r (elf.setProgramCounter pc) c a n).2 b ws := by
  rw [allocate] at hb hfits ⊢
  by_cases hlink : r.traceLinkingEnabled = true
  · rw [if_pos hlink] at hb hfits ⊢
    exact (allocateTrace_translates hn hfits hb)
  · rw [if_neg hlink] at hb ⊢
    obtain ⟨ps, q, e, c₁, hwalk, -, hmain, hpre, -⟩ :=
      allocateBB_walk h r (elf.setProgramCounter pc) c a
    rcases hpre.translates (r := r) (fun he => (hwalk.of_pre he).1) hb with
      hold | ⟨ps', ws, htrans, happ⟩
    · refine (hmain.translates hwalk hold).imp id fun hnew => .inr ?_
      obtain ⟨ps', ws, htrans, happ⟩ := hnew
      exact ⟨ps', ws, htrans.of_setProgramCounter, happ.mono hpre.memory⟩
    · exact .inr (.inr ⟨ps', ws, htrans.of_setProgramCounter, happ.behind hmain.memory⟩)

end Words

end RailTranslator
