import RailTranslator.Rv64.Run

/-!
The paths through code.

Where a word passes control to can be read off the word, but for a jump
through a register; and the register such a jump goes through is usually
loaded by the words in front of it. `Flow` is what a word can do to the
program counter and to one register, for every content of the rest of the
machine. `Leads` says that every path from an address comes to an address of a
given kind, after finitely many words, and `leads_reaches` that a machine
takes one of the paths.

`Passes` and `LeadsOut` are the two ways in which a list of words can be left,
through its end and through its jumps. Both are independent of the place where
the list stands and of what stands around it, and both split along `++`.
-/

namespace Rv64

/-! ### What a word can do -/

def FallsThrough (w : Word) : Prop :=
  w.opcode ≠ Opcode.branch ∧ w.opcode ≠ Opcode.jal ∧ w.opcode ≠ Opcode.jalr

instance (w : Word) : Decidable (FallsThrough w) := by unfold FallsThrough; infer_instance

/-- The word `w`, at `pc` and with `t` in the register `x`, can pass control to
`pc'` with `t'` in that register. -/
def Flow (x : Reg) (w : Word) (pc t pc' t' : DWord) : Prop :=
  if w.opcode = Opcode.branch then
    (pc' = pc + 4 ∨ pc' = pc + w.immB.signExtend 64) ∧ t' = t
  else if w.opcode = Opcode.jal then
    pc' = pc + w.immJ.signExtend 64 ∧ (w.rd ≠ x → t' = t)
  else if w.opcode = Opcode.jalr then
    w.rs1 = x → pc' = (t + w.immI.signExtend 64) &&& ~~~1#64
  else
    pc' = pc + 4 ∧ (w.opcode = Opcode.lui → w.rd = x → t' = upper w.immU) ∧
      (w.opcode = Opcode.opImm → w.funct3 = 0 → w.rd = x → w.rs1 = x →
        t' = t + w.immI.signExtend 64)

instance (x : Reg) (w : Word) (pc t pc' t' : DWord) : Decidable (Flow x w pc t pc' t') := by
  unfold Flow
  infer_instance

section Flow

variable {x : Reg} {w : Word} {pc t pc' t' : DWord}

theorem FallsThrough.flow_iff (hw : FallsThrough w) : Flow x w pc t pc' t' ↔
    pc' = pc + 4 ∧ (w.opcode = Opcode.lui → w.rd = x → t' = upper w.immU) ∧
      (w.opcode = Opcode.opImm → w.funct3 = 0 → w.rd = x → w.rs1 = x →
        t' = t + w.immI.signExtend 64) := by
  rw [Flow, if_neg hw.1, if_neg hw.2.1, if_neg hw.2.2]

theorem flow_branch (hop : w.opcode = Opcode.branch) :
    Flow x w pc t pc' t' ↔ (pc' = pc + 4 ∨ pc' = pc + w.immB.signExtend 64) ∧ t' = t := by
  rw [Flow, if_pos hop]

theorem flow_jal (hop : w.opcode = Opcode.jal) :
    Flow x w pc t pc' t' ↔ pc' = pc + w.immJ.signExtend 64 ∧ (w.rd ≠ x → t' = t) := by
  rw [Flow, hop, if_neg (by decide), if_pos rfl]

theorem flow_jalr (hop : w.opcode = Opcode.jalr) : Flow x w pc t pc' t' ↔
    (w.rs1 = x → pc' = (t + w.immI.signExtend 64) &&& ~~~1#64) := by
  rw [Flow, hop, if_neg (by decide), if_neg (by decide), if_pos rfl]

theorem fallsThrough_of_opcode {op : BitVec 7} (hop : w.opcode = op)
    (hne : op ≠ Opcode.branch ∧ op ≠ Opcode.jal ∧ op ≠ Opcode.jalr) : FallsThrough w := by
  rw [FallsThrough, hop]
  exact hne

theorem exists_flow (x : Reg) (w : Word) (pc t : DWord) : ∃ pc' t', Flow x w pc t pc' t' := by
  by_cases hbranch : w.opcode = Opcode.branch
  · exact ⟨pc + 4, t, (flow_branch hbranch).mpr ⟨.inl rfl, rfl⟩⟩
  · by_cases hjal : w.opcode = Opcode.jal
    · exact ⟨_, t, (flow_jal hjal).mpr ⟨rfl, fun _ => rfl⟩⟩
    · by_cases hjalr : w.opcode = Opcode.jalr
      · exact ⟨_, t, (flow_jalr hjalr).mpr fun _ => rfl⟩
      · have hw : FallsThrough w := ⟨hbranch, hjal, hjalr⟩
        by_cases hlui : w.opcode = Opcode.lui
        · refine ⟨pc + 4, upper w.immU, hw.flow_iff.mpr ⟨rfl, fun _ _ => rfl, fun hop => ?_⟩⟩
          rw [hlui] at hop
          exact absurd hop (by decide)
        · exact ⟨pc + 4, t + w.immI.signExtend 64,
            hw.flow_iff.mpr ⟨rfl, fun hop => absurd hop hlui, fun _ _ _ _ => rfl⟩⟩

theorem FallsThrough.straight (hw : FallsThrough w) {i : Instr} (hi : Instr.decode w = some i) :
    i.Straight := by
  obtain ⟨hbranch, hjal, hjalr⟩ := hw
  simp only [Instr.decode, hbranch, hjal, hjalr, if_false] at hi
  split_ifs at hi
  · cases hi
    trivial
  · cases hi
    trivial
  all_goals
    obtain ⟨_, -, rfl⟩ := Option.map_eq_some_iff.mp hi
    trivial

theorem flow_exec (hx : x ≠ 0) {tr : Reg → DWord → DWord} {i : Instr}
    (hi : Instr.decode w = some i) (s : Machine) :
    Flow x w s.pc (s.regs x) (i.exec tr s).pc ((i.exec tr s).regs x) := by
  by_cases hw : FallsThrough w
  · rw [hw.flow_iff]
    refine ⟨Instr.pc_exec tr (hw.straight hi) s, fun hlui hrd => ?_, fun himm hf3 hrd hrs1 => ?_⟩
    · rw [decode_of_lui hlui, Option.some_inj] at hi
      subst hi hrd
      exact Regs.set_same _ _ hx
    · rw [decode_of_opImm himm, decodeOpImm, hf3] at hi
      obtain rfl : Instr.opImm .add w.rd w.rs1 (w.immI.signExtend 64) = i :=
        Option.some_inj.mp hi
      rw [hrd, hrs1]
      exact Regs.set_same _ _ hx
  · cases decoded hi with
    | branch hop ho =>
        rw [flow_branch hop, Instr.exec, Machine.pc_goto, Machine.regs_goto]
        refine ⟨?_, rfl⟩
        split
        · exact .inr rfl
        · exact .inl rfl
    | jal hop =>
        rw [flow_jal hop]
        exact ⟨rfl, fun hrd => Regs.set_of_ne _ _ (Ne.symm hrd)⟩
    | jalr hop hf3 =>
        rw [flow_jalr hop]
        rintro rfl
        rfl
    | _ => exact absurd (by unfold FallsThrough; simp_all) hw

end Flow

/-! ### Every path -/

/-- Every path from `pc`, with `t` in the register `x`, comes to an address of
`ok`. -/
inductive Leads (x : Reg) (code : Code) (ok : DWord → Prop) : DWord → DWord → Prop
  | arrived {pc t : DWord} (hok : ok pc) : Leads x code ok pc t
  | step {pc t : DWord} {w : Word} (hw : code pc = some w)
      (hnext : ∀ pc' t', Flow x w pc t pc' t' → Leads x code ok pc' t') : Leads x code ok pc t

section Leads

variable {x : Reg} {code : Code} {P Q : DWord → Prop} {pc t : DWord}

theorem Leads.trans (h : Leads x code P pc t) (hQ : ∀ a t', P a → Leads x code Q a t') :
    Leads x code Q pc t := by
  induction h with
  | arrived hok => exact hQ _ _ hok
  | step hw _ ih => exact .step hw ih

theorem Leads.mono (h : Leads x code P pc t) (hPQ : ∀ a, P a → Q a) : Leads x code Q pc t :=
  h.trans fun a _ ha => .arrived (hPQ a ha)

theorem Leads.next (h : Leads x code P pc t) (hout : ∀ a, P a → code a = none) {w : Word}
    (hw : code pc = some w) (pc' t' : DWord) (hflow : Flow x w pc t pc' t') :
    Leads x code P pc' t' := by
  cases h with
  | arrived hok => rw [hout pc hok] at hw; cases hw
  | step hw' hnext =>
      rw [hw'] at hw
      cases hw
      exact hnext _ _ hflow

/-- Of two things that every path comes to, the one that lies outside the code
is the second. -/
theorem Leads.through (h : Leads x code P pc t) (hQ : Leads x code Q pc t)
    (hout : ∀ a, Q a → code a = none) : ∃ a t', P a ∧ Leads x code Q a t' := by
  induction h with
  | arrived hok => exact ⟨_, _, hok, hQ⟩
  | @step pc t w hw _ ih =>
      obtain ⟨pc', t', hflow⟩ := exists_flow x w pc t
      exact ih _ _ hflow (hQ.next hout hw pc' t' hflow)

theorem Leads.arrives (h : Leads x code P pc t) (hnone : code pc = none) : P pc := by
  cases h with
  | arrived hok => exact hok
  | step hw => rw [hnone] at hw; cases hw

/-- A word that passes control to itself leads nowhere. -/
theorem not_leads_of_loop {w : Word} (hw : code pc = some w) (hP : ¬ P pc)
    (hloop : ∀ t, Flow x w pc t pc t) : ¬ Leads x code P pc t := by
  intro h
  generalize ha : pc = a at h
  induction h with
  | arrived hok => exact hP (ha ▸ hok)
  | step hw' _ ih =>
      subst ha
      rw [hw] at hw'
      cases hw'
      exact ih _ _ (hloop _) rfl

/-- A machine takes one of the paths, unless it stops on the way at a word that
does not decode. -/
theorem leads_reaches (hx : x ≠ 0) (tr : Reg → DWord → DWord) {s : Machine}
    (h : Leads x code P s.pc (s.regs x)) : ∃ s', Reaches tr code s s' ∧
      (P s'.pc ∨ ∃ w, code s'.pc = some w ∧ Instr.decode w = none) := by
  generalize hpc : s.pc = pc at h
  generalize ht : s.regs x = t at h
  induction h generalizing s with
  | arrived hok => exact ⟨s, .refl s, .inl (hpc ▸ hok)⟩
  | @step pc t w hw _ ih =>
      cases hi : Instr.decode w with
      | none => exact ⟨s, .refl s, .inr ⟨w, hpc ▸ hw, hi⟩⟩
      | some i =>
          have hflow := @flow_exec x w hx tr i hi s
          rw [hpc, ht] at hflow
          obtain ⟨s', hrun, hend⟩ := ih _ _ hflow rfl rfl
          exact ⟨s', (Reaches.one (hpc ▸ hw) hi).trans hrun, hend⟩

end Leads

/-! ### Lists of words -/

def Passes (x : Reg) (ws : List Word) : Prop :=
  ∀ (code : Code) (a t : DWord), CodeAt code a ws →
    Leads x code (· = wordAddr a ws.length) a t

def LeadsOut (x : Reg) (ok : DWord → Prop) (ws : List Word) : Prop :=
  ∀ (code : Code) (a t : DWord), CodeAt code a ws → Leads x code ok a t

section Words

variable {x : Reg} {ok : DWord → Prop} {w : Word} {xs ys zs ws : List Word}

theorem passes_nil (x : Reg) : Passes x [] :=
  fun _ a _ _ => .arrived (wordAddr_zero a).symm

theorem FallsThrough.passes (hw : FallsThrough w) : Passes x [w] := by
  intro code a t hcode
  refine .step hcode.1 fun pc' t' hflow => .arrived ?_
  rw [(hw.flow_iff.mp hflow).1]
  rfl

theorem Passes.append (hxs : Passes x xs) (hys : Passes x ys) : Passes x (xs ++ ys) := by
  intro code a t hcode
  obtain ⟨hleft, hright⟩ := codeAt_append.mp hcode
  refine (hxs code a t hleft).trans fun b t' hb => ?_
  rw [List.length_append, wordAddr_add, ← hb]
  rw [← hb] at hright
  exact hys code b t' hright

theorem Passes.leadsOut (hxs : Passes x xs) (hys : LeadsOut x ok ys) :
    LeadsOut x ok (xs ++ ys) := by
  intro code a t hcode
  obtain ⟨hleft, hright⟩ := codeAt_append.mp hcode
  refine (hxs code a t hleft).trans fun b t' hb => ?_
  rw [← hb] at hright
  exact hys code b t' hright

theorem LeadsOut.append (hxs : LeadsOut x ok xs) (ys : List Word) : LeadsOut x ok (xs ++ ys) :=
  fun code a t hcode => hxs code a t (codeAt_append.mp hcode).1

theorem LeadsOut.mono {ok' : DWord → Prop} (h : LeadsOut x ok ws) (hok : ∀ a, ok a → ok' a) :
    LeadsOut x ok' ws :=
  fun code a t hcode => (h code a t hcode).mono hok

theorem passes_of_forall (h : ws.Forall FallsThrough) : Passes x ws := by
  induction ws with
  | nil => exact passes_nil x
  | cons w ws ih =>
      rw [List.forall_cons] at h
      have hw : Passes x [w] := h.1.passes
      exact hw.append (ih h.2)

theorem leadsOut_branch (hop : w.opcode = Opcode.branch)
    (himm : w.immB.signExtend 64 = BitVec.ofNat 64 (4 * (xs.length + 1)))
    (hxs : LeadsOut x ok xs) (hys : LeadsOut x ok ys) : LeadsOut x ok (w :: (xs ++ ys)) := by
  intro code a t hcode
  obtain ⟨hw, hrest⟩ := hcode
  obtain ⟨hleft, hright⟩ := codeAt_append.mp hrest
  rw [← wordAddr_succ] at hright
  refine .step hw fun pc' t' hflow => ?_
  obtain ⟨hpc | hpc, -⟩ := (flow_branch hop).mp hflow
  · rw [hpc]
    exact hxs code _ t' hleft
  · rw [hpc, himm]
    exact hys code _ t' hright

/-- A choice between two straight pieces: a branch over the first, and behind
it a jump over the second. -/
theorem passes_choice {j : Word} (hop : w.opcode = Opcode.branch)
    (himm : w.immB.signExtend 64 = BitVec.ofNat 64 (4 * (xs.length + 2)))
    (hj : j.opcode = Opcode.jal)
    (hover : j.immJ.signExtend 64 = BitVec.ofNat 64 (4 * (ys.length + 1)))
    (hxs : Passes x xs) (hys : Passes x ys) : Passes x (w :: (xs ++ (j :: ys))) := by
  intro code a t hcode
  obtain ⟨hw, hrest⟩ := hcode
  obtain ⟨hleft, hright⟩ := codeAt_append.mp hrest
  obtain ⟨hjump, hsecond⟩ := hright
  have hback : wordAddr (a + 4) xs.length + 4 = wordAddr a (xs.length + 2) := by
    rw [← wordAddr_succ, wordAddr_add_four]
  have hend : wordAddr a (w :: (xs ++ (j :: ys))).length =
      wordAddr (wordAddr a (xs.length + 2)) ys.length := by
    rw [← wordAddr_add]
    congr 1
    simp only [List.length_cons, List.length_append]
    omega
  rw [hback] at hsecond
  rw [hend]
  refine .step hw fun pc' t' hflow => ?_
  obtain ⟨hpc | hpc, -⟩ := (flow_branch hop).mp hflow
  · rw [hpc]
    refine (hxs code _ t' hleft).trans fun b t₁ hb => ?_
    subst hb
    refine .step hjump fun b' t₂ hflow' => .arrived ?_
    rw [((flow_jal hj).mp hflow').1, hover, ← wordAddr, wordAddr_succ, hback]
  · rw [hpc, himm]
    exact hys code _ t' hsecond

theorem LeadsOut.leads_image {a : DWord} (h : LeadsOut x ok ws) (hfit : 4 * ws.length ≤ 2 ^ 64)
    (t : DWord) : Leads x (image a ws) ok a t :=
  h _ a t (codeAt_image_self hfit)

/-- Words that are passed through do not lead out, unless their end counts as
outside. -/
theorem Passes.not_leads_image {a t : DWord} (h : Passes x ws) (hfit : 4 * ws.length < 2 ^ 64)
    (hout : ∀ b, ok b → image a ws b = none) (hend : ¬ ok (wordAddr a ws.length)) :
    ¬ Leads x (image a ws) ok a t := by
  intro hleads
  obtain ⟨b, t', rfl, hleads'⟩ := (h _ a t (codeAt_image_self hfit.le)).through hleads hout
  exact hend (hleads'.arrives (image_end hfit))

end Words

end Rv64
