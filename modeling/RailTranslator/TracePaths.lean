import RailTranslator.TraceLayout

/-!
The path of the guest through a trace.

A run of the guest along a trace determines the walk of the allocator, up to
the exit stub, and the words in front of the stub do what the guest does. The
exit stub is left out, because linking overwrites it later on.
-/

namespace RailTranslator

open Rv64

def exitPiece (h : Host) (elf : ElfReader) (q : BitVec 32) : Piece :=
  ⟨q, stubWords h (q.signExtend 64) (elf.fetch q) ++ wordsBehind (elf.fetch q)⟩

def tracedWords (ps : List Piece) : List Word := ps.flatMap (·.words)

section

variable {h : Host} {r : Rail} {elf : ElfReader} {count : ℕ} {D D' : Set DWord} {s s' : Machine}

theorem Rail.Uninstrumented.inlineBehind (hr : r.Uninstrumented) (w : Word) :
    inlineBehind r w = [] := by
  rw [RailTranslator.inlineBehind]
  split_ifs
  · rfl
  · exact hr.inlineInst _
  · exact hr.inlineInst _

theorem Rail.Uninstrumented.inlineExit (hr : r.Uninstrumented) (w : Word) :
    inlineExit r w = [] := by
  rw [RailTranslator.inlineExit, hr.bbInline, hr.inlineInst]
  rfl

theorem TraceRun.ends (htrace : TraceRun elf count D s D' s') :
    IsTerminal (elf.fetch (s'.pc.setWidth 32)) ∧
      StableBranch (elf.fetch (s'.pc.setWidth 32)) s' ∧ liValue s'.pc = s'.pc := by
  induction htrace with
  | stop hterm _ hstable hpc => exact ⟨hterm, hstable, hpc⟩
  | inst _ _ _ _ ih => exact ih
  | jump _ _ _ _ _ ih => exact ih

/-- The allocator follows the guest, and the words up to the exit stub do what
the guest does. -/
theorem TraceRun.walk (h : Host) (hr : r.Uninstrumented)
    (htrace : TraceRun elf count D s D' s') : ∃ front : List Piece,
      TraceWalk h r elf (count + 1) (s.pc.setWidth 32)
        (front ++ [exitPiece h elf (s'.pc.setWidth 32)]) (s'.pc.setWidth 32) .stopped ∧
      ∀ (code : Code) (a : DWord) (c : Machine), CodeAt code a (tracedWords front) →
        Agree D s c → ∃ c', Agree D' s' c' ∧
          Reaches direct code (c.goto a) (c'.goto (wordAddr a (tracedWords front).length)) := by
  induction htrace with
  | @stop count D s hterm hstop =>
      refine ⟨[], ?_, fun code a c _ hagree => ⟨c, hagree, ?_⟩⟩
      · have hwalk := @TraceWalk.stopped h r elf count _ hterm hstop
        rwa [hr.inlineExit] at hwalk
      · show Reaches direct code (c.goto a) (c.goto (wordAddr a 0))
        rw [wordAddr_zero]
        exact .refl _
  | @inst count D D' s s' w i hw hdec hi hrest ih =>
      obtain ⟨front, hwalk, hsim⟩ := ih
      obtain rfl := fetch_of_guestCode hw
      have hpc : (i.exec relocate s).pc.setWidth 32 = s.pc.setWidth 32 + 4 := by
        rw [Instr.pc_exec relocate hi.straight, BitVec.setWidth_add _ _ (by decide)]
        rfl
      rw [hpc] at hwalk
      have hin : InTrace r elf (s.pc.setWidth 32) :=
        ⟨ne_zero_of_decode hdec, fun hterm => not_straight_of_isTerminal hterm hdec hi.straight,
          hr.segmentsTrace _ _⟩
      have hstraight := TraceWalk.straight hin hwalk
      rw [hr.inlineBehind, List.append_nil] at hstraight
      refine ⟨_ :: front, hstraight, fun code a c hcode hagree => ?_⟩
      rw [tracedWords, List.flatMap_cons] at hcode ⊢
      obtain ⟨hword, hcode⟩ := codeAt_append.mp hcode
      obtain ⟨c₁, hreach₁, hagree₁⟩ :=
        reaches_bodyWords (rewrites_inPlace h) hdec hi hagree hword
      obtain ⟨c', hagree', hreach'⟩ := hsim code _ c₁ hcode hagree₁
      refine ⟨c', hagree', hreach₁.trans ?_⟩
      rw [List.length_append, wordAddr_add]
      exact hreach'
  | @jump count D D' s s' w hw hop hlink htarget hrest ih =>
      obtain ⟨front, hwalk, hsim⟩ := ih
      obtain rfl := fetch_of_guestCode hw
      -- the trace goes on where the guest does
      have hpc : ((Instr.jal (elf.fetch (s.pc.setWidth 32)).rd
          (elf.fetch (s.pc.setWidth 32)).immJ).exec relocate s).pc.setWidth 32 =
            jumpTarget elf (s.pc.setWidth 32) := by
        rw [Instr.exec, Machine.pc_goto]
        exact low_add_signExtend _ _
      rw [hpc] at hwalk
      have hne : jumpTarget elf (s.pc.setWidth 32) ≠ 0 := by
        rw [← hpc, Instr.exec, Machine.pc_goto]
        exact htarget
      have hfollowed := TraceWalk.followed hop (Nat.succ_pos count) hne hwalk
      rw [hr.inlineExit, List.nil_append] at hfollowed
      refine ⟨_ :: front, hfollowed, fun code a c hcode hagree => ?_⟩
      rw [tracedWords, List.flatMap_cons] at hcode ⊢
      obtain ⟨hword, hcode⟩ := codeAt_append.mp hcode
      obtain ⟨c₁, hreach₁, hagree₁⟩ := reaches_linkWords hlink hagree hword
      obtain ⟨c', hagree', hreach'⟩ := hsim code _ c₁ hcode hagree₁
      refine ⟨c', hagree', hreach₁.trans ?_⟩
      rw [List.length_append, wordAddr_add]
      exact hreach'

theorem TraceWalk.eq_concat (hr : r.Uninstrumented) {i : ℕ} {pc q : BitVec 32} {ps : List Piece}
    {e : TraceEnd} (hwalk : TraceWalk h r elf i pc ps q e) (he : e = .stopped) :
    ∃ front, ps = front ++ [exitPiece h elf q] := by
  induction hwalk with
  | straight _ _ ih | followed _ _ _ _ ih =>
      obtain ⟨front, rfl⟩ := ih he
      exact ⟨_ :: front, rfl⟩
  | @stopped i pc hw hstop =>
      refine ⟨[], ?_⟩
      rw [hr.inlineExit]
      rfl
  | lost | segmented | exhausted | endless | empty => cases he

theorem allocateTrace_exit (hr : r.Uninstrumented) {c : CodeCache} {a : DWord}
    {front : List Piece} {q : BitVec 32}
    (hwalk : TraceWalk h r elf count (a.setWidth 32) (front ++ [exitPiece h elf q]) q .stopped)
    (hfinite : (allocateTrace h r elf c a count).2.memory.length < loopFuel) :
    (allocateTrace h r elf c a count).2.exits = Function.update c.exits (q.signExtend 64)
      (some (exitAddress h (c.memory.length + 1 + (tracedWords front).length) (elf.fetch q))) := by
  obtain ⟨words, hwords, hexits⟩ := allocateTrace_stopped hr.toNoCallbacks hwalk hfinite
  rw [List.flatMap_append, List.flatMap_singleton] at hwords
  obtain rfl := List.append_cancel_right hwords
  exact hexits

end

end RailTranslator
