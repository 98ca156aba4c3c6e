import RailTranslator.BranchExits
import RailTranslator.Simulation
import RailTranslator.StandingBlocks

/-!
What the guest does between two visits to the dispatcher, and what its block
in the cache does meanwhile.

A turn of the guest is a basic block: straight instructions, and the
instruction at which the block ends or behind which a routine ends it. The
guest is its machine, with the relocation of its data, and the bytes that have
been spoiled, because the translation uses some of the memory below the stack.
A system call that the translator answers is one step of the guest too.

`Stands.arrives` says that a block that stands in the cache takes the guest's
registers and memory to the handler of the side on which the guest leaves.
-/

namespace RailTranslator

open Rv64 Transition

/-! ### The guest -/

/-- The guest, and the bytes in which it and its translation may differ. -/
structure Guest where
  machine : Machine
  spoiled : Set DWord

def answered (io : IoRequest → DWord) (s : Machine) : Machine :=
  (s.setReg a0 (io ⟨true, s.regs a0, s.regs a1 + dataBase, s.regs a2⟩)).goto (s.pc + 4)

/-- One step of the guest: an instruction of the architecture, or a `write`. -/
inductive GuestStep (elf : ElfReader) (io : IoRequest → DWord) (s : Machine) : Machine → Prop
  | inst {s' : Machine} (hstep : step relocate elf.guestCode s = some s') : GuestStep elf io s s'
  | write {w : Word} (hw : elf.guestCode s.pc = some w) (hop : w.opcode = Opcode.system)
      (hnumber : s.regs 17 = SystemCall.write ∨ s.regs 17 = SystemCall.writev) :
      GuestStep elf io s (answered io s)

/-- Behind none of `n` instructions a routine ends the block. -/
def Unbroken (r : Rail) (elf : ElfReader) : ℕ → BitVec 32 → Prop
  | 0, _ => True
  | n + 1, pc => segmentsBB r pc (elf.fetch pc) = false ∧ Unbroken r elf n (pc + 4)

/-- The guest runs `n` straight instructions that are in one block. -/
structure RunsOn (r : Rail) (elf : ElfReader) (n : ℕ) (D : Set DWord) (s s' : Machine) : Prop where
  run : run relocate elf.guestCode n s = some s'
  undisturbed : UndisturbedRun (fun _ => True) elf.guestCode n D s
  unbroken : Unbroken r elf n (s.pc.setWidth 32)

/-- The exit of the block decides as the guest does at the word `w`: the stack
pointer, which the exit has moved, is neither compared nor linked to nor jumped
through, and the target of an indirect jump is even and not absolute. -/
structure Leavable (s : Machine) (w : Word) : Prop where
  stable : StableBranch w s
  link : w.opcode = Opcode.jal ∨ w.opcode = Opcode.jalr → w.rd ≠ sp
  jalr : w.opcode = Opcode.jalr →
    w.rs1 ≠ 0 ∧ w.rs1 ≠ sp ∧ (s.regs w.rs1 + w.immI.signExtend 64) &&& 1 = 0

structure Enterable (r : Rail) (elf : ElfReader) (x : DWord) : Prop where
  ne_zero : x ≠ 0
  low : x.toNat < 2 ^ 31
  block : HasBlock r elf (x.setWidth 32)

/-- What the context switch uses of the stack: the frame, and what the function
that is called needs below it. -/
def stackBelow (depth : ℕ) (s : Machine) : Set DWord :=
  bytes (frameOf s - BitVec.ofNat 64 depth) (depth + 256)

/-- The guest runs from one block to the next. -/
inductive GuestTurn (r : Rail) (elf : ElfReader) (depth : ℕ) (io : IoRequest → DWord) :
    Guest → Guest → Prop
  /-- The block ends with an instruction of its own. -/
  | ended {n : ℕ} {D : Set DWord} {s s₁ s' : Machine} {w : Word} (hrun : RunsOn r elf n D s s₁)
      (hw : elf.guestCode s₁.pc = some w) (hterm : IsTerminal w) (hleave : Leavable s₁ w)
      (hlow : s₁.pc.toNat + 4 < 2 ^ 31) (hstep : GuestStep elf io s₁ s')
      (hnext : Enterable r elf s'.pc) :
      GuestTurn r elf depth io ⟨s, D⟩
        ⟨s', spoiledBy elf.guestCode n D s ∪ stackBelow depth s₁⟩
  /-- A routine ends it. -/
  | cut {n : ℕ} {D : Set DWord} {s s₁ s' : Machine} {w : Word} (hrun : RunsOn r elf n D s s₁)
      (hw : elf.guestCode s₁.pc = some w) (hcut : segmentsBB r (s₁.pc.setWidth 32) w = true)
      (hlow : s₁.pc.toNat + 4 < 2 ^ 31)
      (hrun' : run relocate elf.guestCode (n + 1) s = some s')
      (hund : UndisturbedRun (fun _ => True) elf.guestCode (n + 1) D s)
      (hnext : Enterable r elf s'.pc) :
      GuestTurn r elf depth io ⟨s, D⟩
        ⟨s', spoiledBy elf.guestCode (n + 1) D s ∪ stackBelow depth s'⟩

section Guest

variable {r : Rail} {elf : ElfReader} {depth n : ℕ} {io : IoRequest → DWord} {D : Set DWord}
  {s s' : Machine} {g g' : Guest}

theorem steps_of_run (hrun : run relocate elf.guestCode n s = some s') :
    Steps (GuestStep elf) (List.replicate n io) s s' := by
  induction n generalizing s with
  | zero =>
      obtain rfl : s = s' := Option.some.inj hrun
      exact .nil s
  | succ n ih =>
      rw [run, Option.bind_eq_some_iff] at hrun
      obtain ⟨s₁, hstep, hrest⟩ := hrun
      rw [List.replicate_succ]
      exact .cons (.inst hstep) (ih hrest)

theorem GuestTurn.steps (ht : GuestTurn r elf depth io g g') :
    ∃ n, Steps (GuestStep elf) (List.replicate (n + 1) io) g.machine g'.machine := by
  cases ht with
  | @ended n D s s₁ s' w hrun hw hterm hleave hlow hstep hnext =>
      refine ⟨n, ?_⟩
      rw [List.replicate_succ']
      exact (steps_of_run hrun.run).append (.single hstep)
  | @cut n D s s₁ s' w hrun hw hcut hlow hrun' => exact ⟨n, steps_of_run hrun'⟩

theorem RunsOn.pc (hrun : RunsOn r elf n D s s') :
    s'.pc.setWidth 32 = s.pc.setWidth 32 + BitVec.ofNat 32 (4 * n) :=
  (bodyAt_of_run hrun.run hrun.undisturbed).2

theorem fetch_eq_of_guestCode {w : Word} (hw : elf.guestCode s.pc = some w) :
    elf.fetch (s.pc.setWidth 32) = w ∧ w ≠ 0 := by
  refine ⟨fetch_of_guestCode hw, ?_⟩
  rintro rfl
  have hzero := fetch_of_guestCode hw
  rw [ElfReader.guestCode, if_pos hzero] at hw
  cases hw

end Guest

/-! ### The block the guest runs through -/

section Walk

variable {h : Host} {r : Rail} {elf : ElfReader} {n : ℕ} {pc q : BitVec 32} {ps : List Piece}
  {e : BlockEnd} {w : Word} {i : Instr}

theorem bbWords_of_straight (hdec : Instr.decode w = some i) (hi : i.Straight)
    (pc : BitVec 32) : bbWords h pc w = bodyWords h (relocatedByScratch h) pc w := by
  have hamo : opcodeOf w ≠ Op.amo := by
    intro hop
    have hcode : w.opcode = Opcode.amo := opcodeOf_eq_iff.mp hop
    cases bodyWord_of_straight hdec hi with
    | access hw => rcases hw.opcode with hw | hw <;> rw [hcode] at hw <;> cases hw
    | auipc hop' => rw [hcode] at hop'; cases hop'
    | plain hop' =>
        rcases hop' with hop' | hop' | hop' | hop' | hop' <;> rw [hcode] at hop' <;> cases hop'
  rw [bbWords, if_neg hamo]

theorem inBlock_of_straight (hr : r.NoTypedPre) (hdec : Instr.decode (elf.fetch pc) = some i)
    (hi : i.Straight) (hunb : segmentsBB r pc (elf.fetch pc) = false) : InBlock r elf pc where
  ne_zero := ne_zero_of_decode hdec
  not_pre := hr _ _
  not_terminal := fun hw => not_straight_of_isTerminal hw hdec hi
  not_segmented := hunb

theorem walk_of_body (hr : r.NoTypedPre) (hbody : BodyAt elf n pc) (hunb : Unbroken r elf n pc)
    (hwalk : BlockWalk h r elf (pc + BitVec.ofNat 32 (4 * n)) ps q e) :
    ∃ front : List Piece, BlockWalk h r elf pc (front ++ ps) q e ∧
      front.flatMap (·.words) = body h (relocatedByScratch h) elf n pc := by
  induction n generalizing pc with
  | zero =>
      rw [show pc + BitVec.ofNat 32 (4 * 0) = pc from BitVec.add_zero pc] at hwalk
      exact ⟨[], hwalk, rfl⟩
  | succ n ih =>
      obtain ⟨⟨i, hdec, hi⟩, hbody⟩ := hbody
      obtain ⟨hfirst, hunb⟩ := hunb
      rw [show pc + BitVec.ofNat 32 (4 * (n + 1)) = pc + 4 + BitVec.ofNat 32 (4 * n) by bv_omega]
        at hwalk
      obtain ⟨front, hrest, hwords⟩ := ih hbody hunb hwalk
      refine ⟨_ :: front, .straight (inBlock_of_straight hr hdec hi hfirst) hrest, ?_⟩
      rw [List.flatMap_cons, hwords, body, bbWords_of_straight hdec hi]

theorem body_concat (rewrite : Word → List Word) (n : ℕ) (pc : BitVec 32) :
    body h rewrite elf (n + 1) pc = body h rewrite elf n pc ++
      bodyWords h rewrite (pc + BitVec.ofNat 32 (4 * n))
        (elf.fetch (pc + BitVec.ofNat 32 (4 * n))) := by
  induction n generalizing pc with
  | zero =>
      rw [show pc + BitVec.ofNat 32 (4 * 0) = pc from BitVec.add_zero pc]
      exact List.append_nil _
  | succ n ih =>
      rw [body, ih, body, List.append_assoc]
      rw [show pc + 4 + BitVec.ofNat 32 (4 * n) = pc + BitVec.ofNat 32 (4 * (n + 1)) by bv_omega]

end Walk

/-! ### From the block to the handler -/

/-- The cache takes the machine `c` to the handler of `k`, in a state that
agrees with the guest but for the bytes `D`. -/
def Arrives (h : Host) (code : Code) (c : Machine) (D : Set DWord) (s : Machine)
    (k : SwitchRoutine) : Prop :=
  ∃ c', Agree D s c' ∧ Exits direct code c (atExit c' (h.handler k))

section Arrives

variable {h : Host} {r : Rail} {elf : ElfReader} {cache : CodeCache} {x : DWord}
  {b : RailBasicBlock} {ps : List Piece} {q : BitVec 32} {e : BlockEnd} {n : ℕ} {D : Set DWord}
  {s s₁ s' c : Machine} {w : Word}

theorem atHandler_atExit (s : Machine) (handler : DWord) : AtHandler s (atExit s handler) := by
  have hat := atHandler_inlineSave s handler
  rw [execs_saveInstrs (by decide)] at hat
  exact hat.goto handler

/-- The words of a block behind `restore_scratch` are run as far as the exit. -/
theorem CodeCache.Holds.reaches (hfits : cache.Fits) {exit : List Word}
    (hb : cache.Holds h b (restoreScratch ++
      (body h (relocatedByScratch h) elf n (s.pc.setWidth 32) ++ exit)))
    (hc : Entered b.startLocationInCache D s c)
    (hrun : run relocate elf.guestCode n s = some s')
    (hund : UndisturbedRun (fun _ => True) elf.guestCode n D s) :
    ∃ c' a, Reaches direct (cache.code h) c (c'.goto a) ∧ CodeAt (cache.code h) a exit ∧
      Agree (spoiledBy elf.guestCode n D s) s' c' := by
  obtain ⟨front, hplace, hmem⟩ := hb
  have hcode := codeAt_emitted hfits hmem (h := h)
  rw [← hplace.startLocationInCache, codeAt_append, codeAt_append] at hcode
  obtain ⟨hrestore, hbody, hexit⟩ := hcode
  obtain ⟨c₁, hreach₁, hagree₁⟩ := reaches_restoreScratch hc hrestore
  obtain ⟨c₂, hreach₂, hagree₂⟩ := reaches_body (rewrites_byScratch h) hrun hund hagree₁ hbody
  exact ⟨c₂, _, hreach₁.trans hreach₂, hexit, hagree₂⟩

/-- A block that stands in the cache runs up to the instruction that ends it
and leaves on the guest's side. -/
theorem Stands.arrives (hr : r.NoTypedPre) (hfits : cache.Fits)
    (hb : Stands h r elf cache s.pc b ps q e) (hc : Entered b.startLocationInCache D s c)
    (hrun : RunsOn r elf n D s s₁) (hw : elf.guestCode s₁.pc = some w) (hterm : IsTerminal w)
    (hstable : StableBranch w s₁) :
    q = s₁.pc.setWidth 32 ∧ e = .stopped ∧ Arrives h (cache.code h) c
      (spoiledBy elf.guestCode n D s) s₁ (exitRoutine w s₁) := by
  obtain ⟨hbody, hpc⟩ := bodyAt_of_run hrun.run hrun.undisturbed
  obtain ⟨hfetch, hne⟩ := fetch_eq_of_guestCode hw
  rw [hpc] at hfetch
  rw [← hfetch] at hterm
  obtain ⟨front, hwalk, hwords⟩ := walk_of_body (h := h) hr hbody hrun.unbroken
    (.stopped (hr _ _) hterm)
  obtain ⟨rfl, rfl, rfl⟩ := hb.walk.unique hwalk hb.not_endless BlockEnd.noConfusion
  refine ⟨hpc.symm, rfl, ?_⟩
  have hholds := hb.words
  rw [walkedWords, List.flatMap_append, hwords, List.flatMap_singleton, hfetch] at hholds
  obtain ⟨c', a, hreach, hexit, hagree⟩ := hholds.reaches hfits hc hrun.run hrun.undisturbed
  have hexited := reaches_exitWords c' (hstable.congr hagree.regs) hexit
  -- the branch reads registers on which the copy agrees
  have hside : exitRoutine w c' = exitRoutine w s₁ := by
    rw [exitRoutine, exitRoutine, leavesTaken_congr w hagree.regs]
  rw [hside] at hexited
  exact ⟨c', hagree, hreach.trans hexited, code_handler hfits _⟩

/-- A block that a routine ends runs through that instruction and leaves. -/
theorem Stands.arrives_cut (hr : r.NoTypedPre) (hfits : cache.Fits)
    (hb : Stands h r elf cache s.pc b ps q e) (hc : Entered b.startLocationInCache D s c)
    (hrun : RunsOn r elf n D s s₁) (hw : elf.guestCode s₁.pc = some w)
    (hcut : segmentsBB r (s₁.pc.setWidth 32) w = true)
    (hrun' : run relocate elf.guestCode (n + 1) s = some s')
    (hund : UndisturbedRun (fun _ => True) elf.guestCode (n + 1) D s) :
    q = s₁.pc.setWidth 32 ∧ e = .segmented ∧ ¬ IsTerminal w ∧
      s'.pc = s₁.pc + 4 ∧ Arrives h (cache.code h) c
        (spoiledBy elf.guestCode (n + 1) D s) s' .contextSwitchTaken := by
  obtain ⟨hbody, hpc⟩ := bodyAt_of_run hrun.run hrun.undisturbed
  obtain ⟨hbody', -⟩ := bodyAt_of_run hrun' hund
  obtain ⟨hfetch, hne⟩ := fetch_eq_of_guestCode hw
  obtain ⟨i, hdec, hi⟩ := hbody'.get (Nat.lt_succ_self n)
  rw [hpc] at hfetch hcut
  rw [hfetch] at hdec
  have hnot : ¬ IsTerminal w := fun hterm => not_straight_of_isTerminal hterm hdec hi
  -- the last of the instructions
  have hlast : s'.pc = s₁.pc + 4 := by
    rw [run_add, hrun.run, Option.bind_some] at hrun'
    obtain ⟨w', i', hw', hdec', hend⟩ := exists_of_run_succ hrun'
    obtain rfl : w = w' := Option.some.inj (hw.symm.trans hw')
    obtain rfl : i = i' := Option.some.inj (hdec.symm.trans hdec')
    obtain rfl : i.exec relocate s₁ = s' := Option.some.inj hend
    exact Instr.pc_exec relocate hi s₁
  rw [← hfetch] at hcut hnot hne
  obtain ⟨front, hwalk, hwords⟩ := walk_of_body (h := h) hr hbody hrun.unbroken
    (.segmented hne (hr _ _) hnot hcut)
  obtain ⟨rfl, rfl, rfl⟩ := hb.walk.unique hwalk hb.not_endless BlockEnd.noConfusion
  refine ⟨hpc.symm, rfl, hfetch ▸ hnot, hlast, ?_⟩
  have hholds := hb.words
  rw [walkedWords, List.flatMap_append, hwords, List.flatMap_singleton,
    bbWords_of_straight (hfetch ▸ hdec) hi, ← List.append_assoc (body _ _ _ _ _), ← body_concat]
    at hholds
  obtain ⟨c', a, hreach, hexit, hagree⟩ := hholds.reaches hfits hc hrun' hund
  have hexited := reaches_exitTo c' (h.liValue_handler .contextSwitchTaken) hexit
  exact ⟨c', hagree, hreach.trans hexited, code_handler hfits .contextSwitchTaken⟩

end Arrives

end RailTranslator
