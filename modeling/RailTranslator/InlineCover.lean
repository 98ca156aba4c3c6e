import RailTranslator.BlockPaths

/-!
Inline instrumentation of traces.

A list of inline words is copied into the code of a trace once for each of its
instructions, behind the instruction or in front of its exit; only the path of
`allocateTraceBlock` for AUIPC has no copy. `CoversTrace` says that a trace
with a list differs from the trace without it by one copy for each
instruction, where every path through the instruction's words comes by;
`inline_covers_iff` says when that is so, for the list of all instructions and
for the lists of the types.
-/

namespace RailTranslator

open Rv64

/-! ### One instruction -/

/-- The words of an instruction in a trace without callbacks; `follows` says
whether the trace goes on behind it. -/
def pieceWords (h : Host) (r : Rail) (pc : BitVec 32) (w : Word) (follows : Bool) : List Word :=
  if IsTerminal w then
    inlineExit r w ++
      if follows then linkWords pc w
      else stubWords h (pc.signExtend 64) w ++ wordsBehind w
  else bodyWords h (relocatedInPlace h) pc w ++ inlineBehind r w

/-- With `r` the words of an instruction are those with `r'` and one copy more,
which every path through them comes by; of AUIPC they are the same. -/
def Inserts (h : Host) (r r' : Rail) (copy : Word → List Word) : Prop :=
  ∀ pc w follows,
    (w.opcode = Opcode.auipc → pieceWords h r pc w follows = pieceWords h r' pc w follows) ∧
    (w.opcode ≠ Opcode.auipc → ∃ front back,
      pieceWords h r pc w follows = front ++ copy w ++ back ∧
        pieceWords h r' pc w follows = front ++ back ∧ Passes t6 front)

def Rail.withoutInlineInst (r : Rail) : Rail := { r with inlineInstRoutinePost := [] }

def Rail.withoutInlineType (r : Rail) (t : InstType) : Rail :=
  { r with inlineInstRoutinesTypedPost := Function.update r.inlineInstRoutinesTypedPost t [] }

def Rail.ownInline (r : Rail) (t : InstType) (w : Word) : List Word :=
  if getType (opcodeOf w) = t then r.inlineInstRoutinesTypedPost t else []

section Instruction

variable {h : Host} {r : Rail} {w : Word} {t : InstType}

theorem not_isTerminal_auipc (hop : w.opcode = Opcode.auipc) : ¬ IsTerminal w := by
  rw [IsTerminal, hop]
  decide

theorem inlineBehind_auipc (hop : w.opcode = Opcode.auipc) : inlineBehind r w = [] :=
  if_pos (opcodeOf_eq_iff.mpr hop)

theorem pieceWords_auipc (hop : w.opcode = Opcode.auipc) (pc : BitVec 32) (follows : Bool) :
    pieceWords h r pc w follows = bodyWords h (relocatedInPlace h) pc w := by
  rw [pieceWords, if_neg (not_isTerminal_auipc hop), inlineBehind_auipc hop, List.append_nil]

/-- The types whose lists are copied at an instruction; the type of the
instruction itself is the last. -/
def copiedTypes (w : Word) : List InstType :=
  if opcodeOf w = Op.store ∨ opcodeOf w = Op.load then [.memAccessType, getType (opcodeOf w)]
  else if w.opcode = Opcode.system then [.systemType, getType (opcodeOf w)]
  else [getType (opcodeOf w)]

theorem inlineBehind_eq (hop : w.opcode ≠ Opcode.auipc) (hw : ¬ IsTerminal w) :
    inlineBehind r w = inlineInst r (copiedTypes w) := by
  have hauipc : opcodeOf w ≠ Op.auipc := fun h' => hop (opcodeOf_eq_iff.mp h')
  have hsys : w.opcode ≠ Opcode.system := fun h' => hw (.inr (.inr (.inr h')))
  rw [inlineBehind, copiedTypes, if_neg hauipc, if_neg hsys]
  split <;> rfl

theorem inlineExit_eq (hw : IsTerminal w) :
    inlineExit r w = r.inlineBBRoutinePost ++ inlineInst r (copiedTypes w) := by
  have hcode : opcodeOf w = w.opcode.setWidth 32 := opcodeOf_eq _
  rcases hw with hop | hop | hop | hop
  · rw [inlineExit_branch hop, copiedTypes, hcode, hop]
    rfl
  · rw [inlineExit_jal hop, copiedTypes, hcode, hop]
    rfl
  · rw [inlineExit_jalr hop, copiedTypes, hcode, hop]
    rfl
  · rw [inlineExit_system hop, copiedTypes, hcode, hop]
    rfl

theorem exists_pieceWords_eq (hbb : Passes t6 r.inlineBBRoutinePost)
    (hop : w.opcode ≠ Opcode.auipc) (pc : BitVec 32) (follows : Bool) :
    ∃ front back, Passes t6 front ∧ ∀ r' : Rail, r'.inlineBBRoutinePost = r.inlineBBRoutinePost →
      pieceWords h r' pc w follows = front ++ inlineInst r' (copiedTypes w) ++ back := by
  by_cases hw : IsTerminal w
  · refine ⟨r.inlineBBRoutinePost, if follows then linkWords pc w
      else stubWords h (pc.signExtend 64) w ++ wordsBehind w, hbb, fun r' hr' => ?_⟩
    rw [pieceWords, if_pos hw, inlineExit_eq hw, hr']
  · refine ⟨bodyWords h (relocatedInPlace h) pc w, [],
      passes_traceWords (fallsThrough_of_not_isTerminal hw) pc, fun r' _ => ?_⟩
    rw [pieceWords, if_neg hw, inlineBehind_eq hop hw, List.append_nil]

theorem inserts_inst (hbb : Passes t6 r.inlineBBRoutinePost) :
    Inserts h r r.withoutInlineInst fun _ => r.inlineInstRoutinePost := by
  refine fun pc w follows => ⟨fun hop => ?_, fun hop => ?_⟩
  · rw [pieceWords_auipc hop, pieceWords_auipc hop]
  · obtain ⟨front, back, hfront, heq⟩ := @exists_pieceWords_eq h r w hbb hop pc follows
    refine ⟨front, (copiedTypes w).flatMap r.inlineInstRoutinesTypedPost ++ back, ?_, ?_, hfront⟩
    · rw [heq r rfl, inlineInst]
      simp only [List.append_assoc]
    · rw [heq r.withoutInlineInst rfl, List.append_assoc]
      rfl

theorem exists_copiedTypes (w : Word) : ∃ types, copiedTypes w = types ++ [getType (opcodeOf w)] ∧
    ∀ t ∈ types, t = .memAccessType ∨ t = .systemType := by
  rw [copiedTypes]
  split
  · exact ⟨[.memAccessType], rfl, fun t ht => .inl (List.mem_singleton.mp ht)⟩
  · split
    · exact ⟨[.systemType], rfl, fun t ht => .inr (List.mem_singleton.mp ht)⟩
    · exact ⟨[], rfl, fun t ht => absurd ht List.not_mem_nil⟩

theorem flatMap_withoutInlineType {types : List InstType} (ht : t ∉ types) :
    types.flatMap (r.withoutInlineType t).inlineInstRoutinesTypedPost =
      types.flatMap r.inlineInstRoutinesTypedPost := by
  refine List.flatMap_congr fun t' ht' => Function.update_of_ne ?_ _ _
  rintro rfl
  exact ht ht'

theorem inserts_type (hr : r.InlinePasses) (hmem : t ≠ .memAccessType) (hsys : t ≠ .systemType) :
    Inserts h r (r.withoutInlineType t) (r.ownInline t) := by
  refine fun pc w follows => ⟨fun hop => ?_, fun hop => ?_⟩
  · rw [pieceWords_auipc hop, pieceWords_auipc hop]
  · obtain ⟨front, back, hfront, heq⟩ := @exists_pieceWords_eq h r w hr.bb hop pc follows
    obtain ⟨types, htypes, hothers⟩ := exists_copiedTypes w
    have hnot : t ∉ types := fun ht => (hothers t ht).elim hmem hsys
    have hpass : Passes t6 (front ++ inlineInst r types) := hfront.append (hr.inlineInst types)
    by_cases ht : getType (opcodeOf w) = t
    · have hown : (r.withoutInlineType t).inlineInstRoutinesTypedPost t = [] :=
        Function.update_self ..
      refine ⟨front ++ inlineInst r types, back, ?_, ?_, hpass⟩
      · rw [heq r rfl, htypes, Rail.ownInline, if_pos ht, ht]
        simp only [inlineInst, List.flatMap_append, List.flatMap_cons, List.flatMap_nil,
          List.append_assoc, List.nil_append]
      · rw [heq (r.withoutInlineType t) rfl, htypes, ht, inlineInst, List.flatMap_append,
          flatMap_withoutInlineType hnot, List.flatMap_cons, hown, List.flatMap_nil]
        simp only [inlineInst, Rail.withoutInlineType, List.append_assoc, List.append_nil]
    · -- the list does not occur at this instruction
      have hall : t ∉ copiedTypes w := by
        rw [htypes, List.mem_append, List.mem_singleton]
        exact fun h' => h'.elim hnot fun h'' => ht h''.symm
      refine ⟨front, inlineInst r (copiedTypes w) ++ back, ?_, ?_, hfront⟩
      · rw [heq r rfl, Rail.ownInline, if_neg ht, List.append_nil, List.append_assoc]
      · rw [heq (r.withoutInlineType t) rfl, inlineInst, flatMap_withoutInlineType hall,
          List.append_assoc]
        rfl

end Instruction

/-! ### The walk -/

inductive OnTrace (elf : ElfReader) : ℕ → BitVec 32 → BitVec 32 → Prop
  | here {i : ℕ} {pc : BitVec 32} (hne : elf.fetch pc ≠ 0) : OnTrace elf (i + 1) pc pc
  | straight {i : ℕ} {pc x : BitVec 32} (hne : elf.fetch pc ≠ 0) (hw : ¬ IsTerminal (elf.fetch pc))
      (hrest : OnTrace elf (i + 1) (pc + 4) x) : OnTrace elf (i + 1) pc x
  | followed {i : ℕ} {pc x : BitVec 32} (hop : (elf.fetch pc).opcode = Opcode.jal) (hi : 0 < i)
      (htarget : jumpTarget elf pc ≠ 0) (hrest : OnTrace elf i (jumpTarget elf pc) x) :
      OnTrace elf (i + 1) pc x

def SameInst (h : Host) (r r' : Rail) (elf : ElfReader) (p p' : Piece) : Prop :=
  p'.pc = p.pc ∧ ∃ follows, p.words = pieceWords h r p.pc (elf.fetch p.pc) follows ∧
    p'.words = pieceWords h r' p.pc (elf.fetch p.pc) follows

section Walk

variable {h : Host} {r r' : Rail} {elf : ElfReader} {i : ℕ} {pc q q' : BitVec 32}
  {ps ps' : List Piece} {e e' : TraceEnd}

theorem TraceWalk.transfer (hr : r.NoCallbacks) (hr' : r'.NoCallbacks)
    (hwalk : TraceWalk h r elf i pc ps q e) :
    ∃ ps', TraceWalk h r' elf i pc ps' q e ∧ List.Forall₂ (SameInst h r r' elf) ps ps' := by
  induction hwalk with
  | straight hin _ ih =>
      obtain ⟨ps', hwalk', hsame⟩ := ih
      refine ⟨_, .straight ⟨hin.ne_zero, hin.not_terminal, hr'.segmentsTrace _ _⟩ hwalk',
        .cons ⟨rfl, false, ?_, ?_⟩ hsame⟩
      · rw [pieceWords, if_neg hin.not_terminal]
      · rw [pieceWords, if_neg hin.not_terminal]
  | followed hop hi htarget _ ih =>
      obtain ⟨ps', hwalk', hsame⟩ := ih
      have hw : IsTerminal (elf.fetch _) := .inr (.inl hop)
      refine ⟨_, .followed hop hi htarget hwalk', .cons ⟨rfl, true, ?_, ?_⟩ hsame⟩
      · rw [pieceWords, if_pos hw, if_pos rfl]
      · rw [pieceWords, if_pos hw, if_pos rfl]
  | lost hop hi htarget =>
      have hw : IsTerminal (elf.fetch _) := .inr (.inl hop)
      refine ⟨_, .lost hop hi htarget, .cons ⟨rfl, true, ?_, ?_⟩ .nil⟩
      · rw [pieceWords, if_pos hw, if_pos rfl]
      · rw [pieceWords, if_pos hw, if_pos rfl]
  | stopped hw hstop =>
      refine ⟨_, .stopped hw hstop, .cons ⟨rfl, false, ?_, ?_⟩ .nil⟩
      · rw [pieceWords, if_pos hw, if_neg Bool.false_ne_true]
      · rw [pieceWords, if_pos hw, if_neg Bool.false_ne_true]
  | segmented _ _ hends =>
      rw [hr.segmentsTrace] at hends
      cases hends
  | exhausted h0 => exact ⟨_, .exhausted h0, .nil⟩
  | endless => exact ⟨_, .endless, .nil⟩
  | empty => exact ⟨_, .empty, .nil⟩

theorem TraceWalk.mem_iff (hr : r.NoCallbacks) (hwalk : TraceWalk h r elf i pc ps q e)
    (he : e ≠ .endless) (x : BitVec 32) : x ∈ ps.map (·.pc) ↔ OnTrace elf i pc x := by
  induction hwalk with
  | straight hin _ ih =>
      rw [List.map_cons, List.mem_cons, ih he]
      constructor
      · rintro (rfl | hrest)
        · exact .here hin.ne_zero
        · exact .straight hin.ne_zero hin.not_terminal hrest
      · intro hx
        cases hx with
        | here => exact .inl rfl
        | straight _ _ hrest => exact .inr hrest
        | followed hop => exact absurd (.inr (.inl hop)) hin.not_terminal
  | followed hop hi htarget _ ih =>
      rw [List.map_cons, List.mem_cons, ih he]
      constructor
      · rintro (rfl | hrest)
        · exact .here (ne_zero_of_isTerminal (.inr (.inl hop)))
        · exact .followed hop hi htarget hrest
      · intro hx
        cases hx with
        | here => exact .inl rfl
        | straight _ hw => exact absurd (.inr (.inl hop)) hw
        | followed _ _ _ hrest => exact .inr hrest
  | lost hop hi htarget =>
      rw [List.map_cons, List.map_nil, List.mem_singleton]
      constructor
      · rintro rfl
        exact .here (ne_zero_of_isTerminal (.inr (.inl hop)))
      · intro hx
        cases hx with
        | here => rfl
        | straight _ hw => exact absurd (.inr (.inl hop)) hw
        | followed _ _ hne => exact absurd htarget hne
  | stopped hw hstop =>
      rw [List.map_cons, List.map_nil, List.mem_singleton]
      constructor
      · rintro rfl
        exact .here (ne_zero_of_isTerminal hw)
      · intro hx
        cases hx with
        | here => rfl
        | straight _ hw' => exact absurd hw hw'
        | followed hop hi => exact absurd (hstop hop) (Nat.pos_iff_ne_zero.mp hi)
  | segmented _ _ hends =>
      rw [hr.segmentsTrace] at hends
      cases hends
  | exhausted h0 =>
      refine ⟨fun hx => absurd hx List.not_mem_nil, fun hx => ?_⟩
      cases hx with
      | here hne => exact absurd h0 hne
      | straight hne => exact absurd h0 hne
      | followed hop => exact absurd h0 (ne_zero_of_isTerminal (.inr (.inl hop)))
  | endless => exact absurd rfl he
  | empty =>
      refine ⟨fun hx => absurd hx List.not_mem_nil, fun hx => ?_⟩
      cases hx

end Walk

/-! ### The trace -/

/-- The words of an instruction, cut in two where something is inserted. -/
structure Cut where
  pc : BitVec 32
  front : List Word
  back : List Word

def Cut.bare (k : Cut) : Piece := ⟨k.pc, k.front ++ k.back⟩

def Cut.filled (k : Cut) (copy : List Word) : List Word := k.front ++ copy ++ k.back

/-- `allocateTrace` with `r` emits the trace that `r'` has, with one copy more
for each instruction; control that comes to the instruction comes to the copy,
whichever way it takes through the words. -/
def CoversTrace (h : Host) (r r' : Rail) (elf : ElfReader) (c : CodeCache) (a : DWord) (count : ℕ)
    (copy : Word → List Word) : Prop :=
  ∃ (cuts : List Cut) (q : BitVec 32) (e : TraceEnd),
    TraceWalk h r' elf count (a.setWidth 32) (cuts.map Cut.bare) q e ∧ e ≠ .endless ∧
    (allocateTrace h r elf c a count).2.memory = c.memory ++ (restoreScratch ++
      cuts.flatMap fun k => k.filled (copy (elf.fetch k.pc))) ∧
    ∀ k ∈ cuts, Passes t6 k.front

section Cover

variable {h : Host} {r r' : Rail} {elf : ElfReader} {copy : Word → List Word}
  {ps ps' : List Piece}

theorem exists_cuts (hins : Inserts h r r' copy) (hsame : List.Forall₂ (SameInst h r r' elf) ps ps')
    (hauipc : ∀ p ∈ ps, (elf.fetch p.pc).opcode = Opcode.auipc → copy (elf.fetch p.pc) = []) :
    ∃ cuts : List Cut, cuts.map Cut.bare = ps' ∧
      ps.flatMap (·.words) = cuts.flatMap (fun k => k.filled (copy (elf.fetch k.pc))) ∧
      ∀ k ∈ cuts, Passes t6 k.front := by
  induction hsame with
  | nil => exact ⟨[], rfl, rfl, fun k hk => absurd hk List.not_mem_nil⟩
  | @cons p p' ps ps' hp _ ih =>
      obtain ⟨cuts, hbare, hwords, hpass⟩ := ih fun p hp' => hauipc p (List.mem_cons_of_mem _ hp')
      obtain ⟨hpc, follows, hw, hw'⟩ := hp
      obtain ⟨front, back, hfilled, hbare', hfront⟩ : ∃ front back,
          p.words = front ++ copy (elf.fetch p.pc) ++ back ∧ p'.words = front ++ back ∧
            Passes t6 front := by
        rw [hw, hw']
        by_cases hop : (elf.fetch p.pc).opcode = Opcode.auipc
        · refine ⟨[], pieceWords h r' p.pc (elf.fetch p.pc) follows, ?_, rfl, passes_nil _⟩
          rw [hauipc p List.mem_cons_self hop, (hins _ _ follows).1 hop]
          rfl
        · exact (hins _ _ follows).2 hop
      refine ⟨⟨p.pc, front, back⟩ :: cuts, ?_, ?_, ?_⟩
      · rw [List.map_cons, hbare, Cut.bare, ← hbare', ← hpc]
      · rw [List.flatMap_cons, List.flatMap_cons, hwords, hfilled, Cut.filled]
      · rintro k (_ | ⟨_, hk⟩)
        · exact hfront
        · exact hpass k hk

/-- A walk has at most the copies that it should have, and if it has them all,
AUIPC has none to lack. -/
theorem length_le_filled (hins : Inserts h r r' copy) {cuts : List Cut}
    (hsame : List.Forall₂ (SameInst h r r' elf) ps (cuts.map Cut.bare)) :
    (ps.flatMap (·.words)).length ≤
        (cuts.flatMap fun k => k.filled (copy (elf.fetch k.pc))).length ∧
      ((ps.flatMap (·.words)).length =
          (cuts.flatMap fun k => k.filled (copy (elf.fetch k.pc))).length →
        ∀ p ∈ ps, (elf.fetch p.pc).opcode = Opcode.auipc → copy (elf.fetch p.pc) = []) := by
  induction cuts generalizing ps with
  | nil =>
      rw [List.map_nil, List.forall₂_nil_right_iff] at hsame
      subst hsame
      exact ⟨le_rfl, fun _ p hp => absurd hp List.not_mem_nil⟩
  | cons k cuts ih =>
      rw [List.map_cons, List.forall₂_cons_right_iff] at hsame
      obtain ⟨p, ps, ⟨hpc, follows, hw, hw'⟩, hrest, rfl⟩ := hsame
      obtain ⟨hle, heq⟩ := ih hrest
      have hkpc : k.pc = p.pc := hpc
      -- at `auipc` the copy is missing, elsewhere it is among the words
      have hbare : p.words.length + (if (elf.fetch p.pc).opcode = Opcode.auipc then
          (copy (elf.fetch p.pc)).length else 0) = (k.filled (copy (elf.fetch k.pc))).length := by
        have hk : k.front ++ k.back = pieceWords h r' p.pc (elf.fetch p.pc) follows := hw'
        have hlen := congrArg List.length hk
        rw [List.length_append] at hlen
        rw [hkpc, Cut.filled, List.length_append, List.length_append, hw]
        split
        · rename_i hop
          rw [(hins _ _ follows).1 hop, ← hlen]
          omega
        · rename_i hop
          obtain ⟨front, back, hfilled, hback, -⟩ := (hins p.pc _ follows).2 hop
          rw [hback, List.length_append] at hlen
          rw [hfilled, List.length_append, List.length_append]
          omega
      rw [List.flatMap_cons, List.flatMap_cons, List.length_append, List.length_append]
      refine ⟨by omega, fun htotal p' hp' hop => ?_⟩
      rcases List.mem_cons.mp hp' with rfl | hp'
      · rw [if_pos hop] at hbare
        exact List.length_eq_zero_iff.mp (by omega)
      · exact heq (by omega) p' hp' hop

/-- A trace has all its copies exactly if no AUIPC of it should have one. -/
theorem coversTrace_iff (hr : r.NoCallbacks) (hr' : r'.NoCallbacks) (hins : Inserts h r r' copy)
    (c : CodeCache) (a : DWord) (count : ℕ)
    (hfinite : (allocateTrace h r elf c a count).2.memory.length < loopFuel) :
    CoversTrace h r r' elf c a count copy ↔ ∀ x, OnTrace elf count (a.setWidth 32) x →
      (elf.fetch x).opcode = Opcode.auipc → copy (elf.fetch x) = [] := by
  obtain ⟨ps, q, e, hwalk, -, hmem, -, -, -, -, hend, -⟩ := allocateTrace_walk h r elf c a count
  have he : e ≠ .endless := fun h' => absurd (hend h') (Nat.not_le.mpr hfinite)
  obtain ⟨ps', hwalk', hsame⟩ := hwalk.transfer hr hr'
  have hmem_iff (x : BitVec 32) := hwalk.mem_iff hr he x
  have hon (hall : ∀ p ∈ ps, (elf.fetch p.pc).opcode = Opcode.auipc →
      copy (elf.fetch p.pc) = []) (x : BitVec 32) (hx : OnTrace elf count (a.setWidth 32) x) :
      (elf.fetch x).opcode = Opcode.auipc → copy (elf.fetch x) = [] := by
    obtain ⟨p, hp, rfl⟩ := List.mem_map.mp ((hmem_iff x).mpr hx)
    exact hall p hp
  constructor
  · rintro ⟨cuts, q', e', hcuts, he', hmem', -⟩
    obtain ⟨rfl, -, -⟩ := hwalk'.unique hr' hcuts he he'
    rw [hmem] at hmem'
    have hwords := List.append_cancel_left (List.append_cancel_left hmem')
    exact hon ((length_le_filled hins hsame).2 (congrArg List.length hwords))
  · intro hall
    obtain ⟨cuts, rfl, hwords, hpass⟩ := exists_cuts hins hsame fun p hp =>
      hall p.pc ((hmem_iff p.pc).mp (List.mem_map_of_mem hp))
    exact ⟨cuts, q, e, hwalk', he, hwords ▸ hmem, hpass⟩

/-- Every instruction of a trace has one copy of the list for all instructions
exactly if no AUIPC is on the trace, or the list is empty; and every
instruction of a type has one copy of the list of the type exactly if the type
is not that of AUIPC, or the same holds. -/
theorem inline_covers_iff (h : Host) (hr : r.NoCallbacks) (hbb : Passes t6 r.inlineBBRoutinePost)
    (elf : ElfReader) (c : CodeCache) (a : DWord) (count : ℕ)
    (hfinite : (allocateTrace h r elf c a count).2.memory.length < loopFuel) :
    (CoversTrace h r r.withoutInlineInst elf c a count (fun _ => r.inlineInstRoutinePost) ↔
      (∀ x, OnTrace elf count (a.setWidth 32) x → (elf.fetch x).opcode ≠ Opcode.auipc) ∨
        r.inlineInstRoutinePost = []) ∧
    ∀ t, r.InlinePasses → t ≠ .memAccessType → t ≠ .systemType →
      (CoversTrace h r (r.withoutInlineType t) elf c a count (r.ownInline t) ↔
        t ≠ .uType ∨
        (∀ x, OnTrace elf count (a.setWidth 32) x → (elf.fetch x).opcode ≠ Opcode.auipc) ∨
        r.inlineInstRoutinesTypedPost t = []) := by
  refine ⟨?_, fun t hpasses hmem hsys => ?_⟩
  · have hr' : r.withoutInlineInst.NoCallbacks := ⟨hr.instPre, hr.instPost, hr.typedPre,
      hr.typedPost, hr.bbPre, hr.bbPost⟩
    rw [coversTrace_iff hr hr' (inserts_inst hbb) c a count hfinite]
    constructor
    · intro hall
      by_cases hempty : r.inlineInstRoutinePost = []
      · exact .inr hempty
      · exact .inl fun x hx hop => hempty (hall x hx hop)
    · rintro (hnone | hempty) x hx hop
      · exact absurd hop (hnone x hx)
      · exact hempty
  · have hr' : (r.withoutInlineType t).NoCallbacks := ⟨hr.instPre, hr.instPost, hr.typedPre,
      hr.typedPost, hr.bbPre, hr.bbPost⟩
    -- only the list of its own type is emitted behind `auipc`, with the exit
    have hown {w : Word} (hop : w.opcode = Opcode.auipc) : getType (opcodeOf w) = .uType := by
      rw [opcodeOf_eq w, hop]
      rfl
    rw [coversTrace_iff hr hr' (inserts_type hpasses hmem hsys) c a count hfinite]
    constructor
    · intro hall
      by_cases htype : t = .uType
      · subst htype
        right
        by_cases hempty : r.inlineInstRoutinesTypedPost .uType = []
        · exact .inr hempty
        · refine .inl fun x hx hop => hempty ?_
          have hcopy := hall x hx hop
          rwa [Rail.ownInline, if_pos (hown hop)] at hcopy
      · exact .inl htype
    · rintro (htype | hnone | hempty) x hx hop
      · rw [Rail.ownInline, hown hop, if_neg htype.symm]
      · exact absurd hop (hnone x hx)
      · rw [Rail.ownInline, hempty, ite_self]

end Cover

/-! ### Two texts -/

def countingRail : Rail :=
  ((Rail.plain true).addInlineInstforInstRoutine 0x00128293).addInlineInstforInstTypeRoutine
    0x00130313 .iType

theorem noCallbacks_countingRail : countingRail.NoCallbacks where
  instPre := rfl
  instPost := rfl
  typedPre _ := rfl
  typedPost _ := rfl
  bbPre := rfl
  bbPost := rfl

theorem inlinePasses_countingRail : countingRail.InlinePasses where
  bb := passes_nil _
  inst := passes_of_forall (by decide)
  typed t := by
    cases t with
    | iType => exact passes_of_forall (by decide)
    | rType | sType | bType | uType | jType | systemType | memAccessType | amoType => exact passes_nil _

/-- `nop; ecall` -/
def nopExitText : ElfReader := .ofWords 0x10000 [0x00000013, 0x00000073, 0x00000013]

/-- `auipc x5, 0; ecall` -/
def auipcText : ElfReader := .ofWords 0x10000 [0x00000297, 0x00000073, 0x00000013]

/-- Both instructions of the trace are counted, and both as I type. -/
theorem nopExitText_covered :
    CoversTrace requestedHost countingRail countingRail.withoutInlineInst nopExitText
      (allocateRoot requestedHost nopExitText).2 0x10000 2 (fun _ => [0x00128293]) ∧
    CoversTrace requestedHost countingRail (countingRail.withoutInlineType .iType) nopExitText
      (allocateRoot requestedHost nopExitText).2 0x10000 2 (countingRail.ownInline .iType) := by
  have hlen : (allocateTrace requestedHost countingRail nopExitText
      (allocateRoot requestedHost nopExitText).2 0x10000 2).2.memory.length < loopFuel := by
    decide +kernel
  have hnone : ∀ x, OnTrace nopExitText 2 0x10000 x →
      (nopExitText.fetch x).opcode ≠ Opcode.auipc := by
    intro x hx
    cases hx with
    | here => decide +kernel
    | straight _ _ hrest =>
        cases hrest with
        | here => decide +kernel
        | straight _ hw => exact absurd (.inr (.inr (.inr (by decide +kernel)))) hw
        | followed hop => exact absurd hop (by decide +kernel)
    | followed hop => exact absurd hop (by decide +kernel)
  obtain ⟨hinst, htype⟩ := inline_covers_iff requestedHost noCallbacks_countingRail (passes_nil _)
    nopExitText (allocateRoot requestedHost nopExitText).2 0x10000 2 hlen
  exact ⟨hinst.mpr (.inl hnone), (htype .iType inlinePasses_countingRail (by decide)
    (by decide)).mpr (.inl (by decide))⟩

/-- Of the two instructions of this trace one is counted. -/
theorem auipcText_uncounted :
    ¬ CoversTrace requestedHost countingRail countingRail.withoutInlineInst auipcText
      (allocateRoot requestedHost auipcText).2 0x10000 2 (fun _ => [0x00128293]) := by
  have hlen : (allocateTrace requestedHost countingRail auipcText
      (allocateRoot requestedHost auipcText).2 0x10000 2).2.memory.length < loopFuel := by
    decide +kernel
  have hr' : countingRail.withoutInlineInst.NoCallbacks :=
    ⟨rfl, rfl, fun _ => rfl, fun _ => rfl, rfl, rfl⟩
  intro hcovers
  have hall := (coversTrace_iff noCallbacks_countingRail hr'
    (inserts_inst inlinePasses_countingRail.bb) _ 0x10000 2 hlen).mp hcovers
  have hempty := hall 0x10000 (.here (by decide +kernel)) (by decide +kernel)
  cases hempty

end RailTranslator
