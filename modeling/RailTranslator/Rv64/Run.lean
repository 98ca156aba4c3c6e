import RailTranslator.Rv64.Instr

/-!
Running code, and the rules by which runs are assembled.

Code is a partial map from addresses to words, kept apart from data memory.
A machine stops where there is no code, and also where a word does not
decode. `Reaches` says that one state leads to another, `Exits` that the
second one has left the code; a machine is deterministic, so what it exits to
is unique.

A block of emitted words is described by `CodeAt`, which splits along `++`.
Straight-line words are run all at once by `reaches_straight`: the state they
lead to is the fold of their instructions, and it is left to `simp` to say
what that fold is.
-/

namespace Rv64

abbrev Code := DWord → Option Word

/-- The architecture: base registers are used as they are. -/
def direct : Reg → DWord → DWord := fun _ v => v

@[simp] theorem direct_apply (r : Reg) (v : DWord) : direct r v = v := rfl

section

variable (tr : Reg → DWord → DWord) (code : Code)

def step (s : Machine) : Option Machine :=
  ((code s.pc).bind Instr.decode).map (Instr.exec tr s)

def run : ℕ → Machine → Option Machine
  | 0, s => some s
  | n + 1, s => (step tr code s).bind (run n)

def Reaches (s s' : Machine) : Prop := ∃ n, run tr code n s = some s'

def Exits (s s' : Machine) : Prop := Reaches tr code s s' ∧ code s'.pc = none

variable {tr code}

theorem run_add (m n : ℕ) (s : Machine) :
    run tr code (m + n) s = (run tr code m s).bind (run tr code n) := by
  induction m generalizing s with
  | zero => simp [run]
  | succ m ih => simp [Nat.succ_add, run, ih, Option.bind_assoc]

theorem Reaches.refl (s : Machine) : Reaches tr code s s := ⟨0, rfl⟩

theorem Reaches.trans {s s' s'' : Machine} (h : Reaches tr code s s')
    (h' : Reaches tr code s' s'') : Reaches tr code s s'' := by
  obtain ⟨m, hm⟩ := h
  obtain ⟨n, hn⟩ := h'
  exact ⟨m + n, by rw [run_add, hm, Option.bind_some, hn]⟩

theorem step_eq {s : Machine} {w : Word} {i : Instr} (hw : code s.pc = some w)
    (hi : Instr.decode w = some i) : step tr code s = some (i.exec tr s) := by
  simp [step, hw, hi]

theorem exists_of_run_succ {s s' : Machine} {n : ℕ} (h : run tr code (n + 1) s = some s') :
    ∃ w i, code s.pc = some w ∧ Instr.decode w = some i ∧
      run tr code n (i.exec tr s) = some s' := by
  rw [run, Option.bind_eq_some_iff] at h
  obtain ⟨s₁, hstep, hrun⟩ := h
  rw [step, Option.map_eq_some_iff] at hstep
  obtain ⟨i, hi, rfl⟩ := hstep
  obtain ⟨w, hw, hdec⟩ := Option.bind_eq_some_iff.mp hi
  exact ⟨w, i, hw, hdec, hrun⟩

theorem Reaches.of_step {s s' : Machine} (h : step tr code s = some s') :
    Reaches tr code s s' :=
  ⟨1, by simp [run, h]⟩

theorem Reaches.one {s : Machine} {w : Word} {i : Instr} (hw : code s.pc = some w)
    (hi : Instr.decode w = some i) : Reaches tr code s (i.exec tr s) :=
  .of_step (step_eq hw hi)

/-! In the rules for single instructions the state is written `s.goto a`, so
that the place and the data of a run are named apart, and the place or the
state that is reached is given by an equation. -/

theorem reaches_at (s : Machine) {s' : Machine} {a : DWord} {w : Word} {i : Instr}
    (hw : code a = some w) (hdec : Instr.decode w = some i) (hs : i.exec tr (s.goto a) = s') :
    Reaches tr code (s.goto a) s' :=
  hs ▸ .one hw hdec

theorem reaches_branch_taken (s : Machine) {a b : DWord} {w : Word} {o : BranchOp}
    {rs1 rs2 : Reg} {off : BitVec 13} (hw : code a = some w)
    (hdec : Instr.decode w = some (.branch o rs1 rs2 off))
    (h : o.holds (s.regs rs1) (s.regs rs2) = true) (hb : a + off.signExtend 64 = b) :
    Reaches tr code (s.goto a) (s.goto b) := by
  refine reaches_at s hw hdec ?_
  rw [Instr.exec, if_pos (by simpa using h), ← hb]
  rfl

theorem reaches_branch_not_taken (s : Machine) {a b : DWord} {w : Word} {o : BranchOp}
    {rs1 rs2 : Reg} {off : BitVec 13} (hw : code a = some w)
    (hdec : Instr.decode w = some (.branch o rs1 rs2 off))
    (h : o.holds (s.regs rs1) (s.regs rs2) = false) (hb : a + 4 = b) :
    Reaches tr code (s.goto a) (s.goto b) := by
  refine reaches_at s hw hdec ?_
  rw [Instr.exec, if_neg (by simpa using h), ← hb]
  rfl

theorem reaches_jump (s : Machine) {a b : DWord} {w : Word} {off : BitVec 21}
    (hw : code a = some w) (hdec : Instr.decode w = some (.jal 0 off))
    (hb : a + off.signExtend 64 = b) : Reaches tr code (s.goto a) (s.goto b) := by
  refine reaches_at s hw hdec ?_
  rw [Instr.exec, ← hb]
  simp

theorem reaches_op (s : Machine) {a : DWord} {w : Word} {o : AluOp} {rd rs1 rs2 : Reg}
    (hw : code a = some w) (hdec : Instr.decode w = some (.op o rd rs1 rs2)) :
    Reaches tr code (s.goto a)
      ((s.setReg rd (o.eval (s.regs rs1) (s.regs rs2))).goto (a + 4)) :=
  reaches_at s hw hdec rfl

theorem step_none_of_code_none {s : Machine} (h : code s.pc = none) : step tr code s = none := by
  simp [step, h]

theorem run_succ_of_code_none {s : Machine} (h : code s.pc = none) (n : ℕ) :
    run tr code (n + 1) s = none := by
  simp [run, step_none_of_code_none h]

theorem eq_of_run_le {s s₁ s₂ : Machine} {m n : ℕ} (hle : m ≤ n)
    (hm : run tr code m s = some s₁) (he : code s₁.pc = none)
    (hn : run tr code n s = some s₂) : s₁ = s₂ := by
  obtain ⟨k, rfl⟩ := Nat.exists_eq_add_of_le hle
  rw [run_add, hm, Option.bind_some] at hn
  cases k with
  | zero => simpa [run] using hn
  | succ k => rw [run_succ_of_code_none he] at hn; cases hn

theorem Exits.unique {s s₁ s₂ : Machine} (h₁ : Exits tr code s s₁) (h₂ : Exits tr code s s₂) :
    s₁ = s₂ := by
  obtain ⟨⟨m, hm⟩, he₁⟩ := h₁
  obtain ⟨⟨n, hn⟩, he₂⟩ := h₂
  rcases Nat.le_total m n with hle | hle
  · exact eq_of_run_le hle hm he₁ hn
  · exact (eq_of_run_le hle hn he₂ hm).symm

end

/-! ### Words laid out in code -/

/-- The words `ws` stand in `code` from address `a` on. -/
def CodeAt (code : Code) : DWord → List Word → Prop
  | _, [] => True
  | a, w :: ws => code a = some w ∧ CodeAt code (a + 4) ws

def wordAddr (a : DWord) (k : ℕ) : DWord := a + BitVec.ofNat 64 (4 * k)

@[simp] theorem wordAddr_zero (a : DWord) : wordAddr a 0 = a := by simp [wordAddr]

theorem wordAddr_succ (a : DWord) (k : ℕ) : wordAddr a (k + 1) = wordAddr (a + 4) k := by
  simp only [wordAddr]; bv_omega

theorem wordAddr_add (a : DWord) (j k : ℕ) : wordAddr a (j + k) = wordAddr (wordAddr a j) k := by
  simp only [wordAddr]; bv_omega

theorem wordAddr_add_four (a : DWord) (k : ℕ) : wordAddr a k + 4 = wordAddr a (k + 1) := by
  rw [wordAddr_add]; rfl

@[simp] theorem codeAt_nil (code : Code) (a : DWord) : CodeAt code a [] := trivial

@[simp] theorem codeAt_cons {code : Code} {a : DWord} {w : Word} {ws : List Word} :
    CodeAt code a (w :: ws) ↔ code a = some w ∧ CodeAt code (a + 4) ws := Iff.rfl

theorem codeAt_append {code : Code} {a : DWord} {xs ys : List Word} :
    CodeAt code a (xs ++ ys) ↔
      CodeAt code a xs ∧ CodeAt code (wordAddr a xs.length) ys := by
  induction xs generalizing a with
  | nil => simp
  | cons x xs ih =>
      simp only [List.cons_append, codeAt_cons, ih, List.length_cons, wordAddr_succ, and_assoc]

/-- Words stored one after the other from `base` on. -/
def image (base : DWord) (ws : List Word) : Code := fun x =>
  if (x - base).toNat % 4 = 0 then ws[(x - base).toNat / 4]? else none

theorem image_wordAddr {base : DWord} {ws : List Word} {k : ℕ} (hk : 4 * k < 2 ^ 64) :
    image base ws (wordAddr base k) = ws[k]? := by
  have hd : (wordAddr base k - base).toNat = 4 * k := by simp only [wordAddr]; bv_omega
  simp [image, hd]

theorem codeAt_image {base : DWord} {pre ws post : List Word}
    (hfit : 4 * (pre.length + ws.length) ≤ 2 ^ 64) :
    CodeAt (image base (pre ++ (ws ++ post))) (wordAddr base pre.length) ws := by
  induction ws generalizing pre with
  | nil => trivial
  | cons w ws ih =>
      simp only [List.length_cons] at hfit
      refine ⟨by rw [image_wordAddr (by omega)]; simp, ?_⟩
      have := @ih (pre ++ [w]) (by simp only [List.length_append, List.length_singleton]; omega)
      rw [List.length_append, List.length_singleton, wordAddr_add] at this
      simpa [wordAddr] using this

theorem codeAt_image_self {base : DWord} {ws : List Word} (hfit : 4 * ws.length ≤ 2 ^ 64) :
    CodeAt (image base ws) base ws := by
  have := @codeAt_image base [] ws [] (by simpa using hfit)
  simpa using this

theorem image_eq_none {base x : DWord} {ws : List Word}
    (h : 4 * ws.length ≤ (x - base).toNat) : image base ws x = none := by
  simp only [image]
  split
  · exact List.getElem?_eq_none (by omega)
  · rfl

theorem exists_of_image {base x : DWord} {ws : List Word} {w : Word}
    (h : image base ws x = some w) : ∃ k, x = wordAddr base k ∧ ws[k]? = some w := by
  rw [image] at h
  split at h
  · rename_i hmod
    refine ⟨(x - base).toNat / 4, ?_, h⟩
    simp only [wordAddr]
    bv_omega
  · cases h

theorem image_end {base : DWord} {ws : List Word} (hfit : 4 * ws.length < 2 ^ 64) :
    image base ws (wordAddr base ws.length) = none := by
  rw [image_wordAddr hfit]
  exact List.getElem?_eq_none (by omega)

/-! ### Straight-line code -/

def Instr.Straight : Instr → Prop
  | .jal .. | .jalr .. | .branch .. => False
  | _ => True

instance (i : Instr) : Decidable i.Straight := by
  cases i <;> unfold Instr.Straight <;> infer_instance

variable (tr : Reg → DWord → DWord)

def execs (s : Machine) (is : List Instr) : Machine := is.foldl (Instr.exec tr) s

@[simp] theorem execs_nil (s : Machine) : execs tr s [] = s := rfl

@[simp] theorem execs_cons (s : Machine) (i : Instr) (is : List Instr) :
    execs tr s (i :: is) = execs tr (i.exec tr s) is := rfl

theorem execs_append (s : Machine) (is js : List Instr) :
    execs tr s (is ++ js) = execs tr (execs tr s is) js :=
  List.foldl_append

theorem Instr.pc_exec {i : Instr} (h : i.Straight) (s : Machine) :
    (i.exec tr s).pc = s.pc + 4 := by
  cases i <;> first | rfl | exact h.elim

theorem pc_execs {is : List Instr} (h : ∀ i ∈ is, i.Straight) (s : Machine) :
    (execs tr s is).pc = wordAddr s.pc is.length := by
  induction is generalizing s with
  | nil => simp
  | cons i is ih =>
      rw [execs_cons, ih fun j hj => h j (List.mem_cons_of_mem i hj),
        Instr.pc_exec tr (h i List.mem_cons_self), List.length_cons, wordAddr_succ]

variable {tr}

/-- Straight-line words run to their end, one step each. -/
theorem run_straight (s : Machine) {code : Code} {a : DWord} {ws : List Word}
    {is : List Instr} (hcode : CodeAt code a ws) (hdec : ws.map Instr.decode = is.map some)
    (hstraight : ∀ i ∈ is, i.Straight) :
    run tr code is.length (s.goto a) = some (execs tr (s.goto a) is) := by
  induction ws generalizing is s a with
  | nil =>
      obtain rfl : is = [] := by simpa using hdec.symm
      rfl
  | cons w ws ih =>
      cases is with
      | nil => simp at hdec
      | cons i is =>
          obtain ⟨hw, hrest⟩ := hcode
          simp only [List.map_cons, List.cons.injEq] at hdec
          have hi : i.Straight := hstraight i List.mem_cons_self
          have hpc : (i.exec tr (s.goto a)).goto (a + 4) = i.exec tr (s.goto a) := by
            rw [← Machine.pc_goto s a, ← Instr.pc_exec tr hi, Machine.pc_goto, Machine.goto_self]
          have := ih (i.exec tr (s.goto a)) hrest hdec.2
            fun j hj => hstraight j (List.mem_cons_of_mem i hj)
          rw [hpc] at this
          rw [List.length_cons, run, step_eq (s := s.goto a) hw hdec.1]
          exact this

theorem reaches_straight (s : Machine) {code : Code} {a : DWord} {ws : List Word}
    {is : List Instr} (hcode : CodeAt code a ws) (hdec : ws.map Instr.decode = is.map some)
    (hstraight : ∀ i ∈ is, i.Straight) :
    Reaches tr code (s.goto a) (execs tr (s.goto a) is) :=
  ⟨_, run_straight s hcode hdec hstraight⟩

end Rv64
