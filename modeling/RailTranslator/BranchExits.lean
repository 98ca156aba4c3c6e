import RailTranslator.Turns

/-!
On which side a branch leaves the cache.

The word of the branch is emitted behind `inline_save`, with a displacement
that leads to the second of two exits. `inline_save` has moved the stack
pointer by then, so a branch that compares `sp` with another register compares
a value that is sixteen too low. It still decides as the guest does unless the
other value lies between the two.
-/

namespace RailTranslator

open Rv64

/-! ### Comparisons with one of two values -/

section Order

variable {α : Type*} [LinearOrder α] {a b c : α}

theorem lt_iff_lt_of_left : (a < c ↔ b < c) ↔ ¬ (a < c ∧ c ≤ b ∨ b < c ∧ c ≤ a) := by
  rw [← not_lt, ← not_lt]
  tauto

theorem lt_iff_lt_of_right : (c < a ↔ c < b) ↔ ¬ (c < a ∧ b ≤ c ∨ c < b ∧ a ≤ c) := by
  rw [← not_lt, ← not_lt]
  tauto

end Order

/-- The branch does not decide alike with `p` and with `q` as its first
operand: `v` is one of the two, or lies between them in the order of the
comparison. -/
def splitsLeft (o : BranchOp) (p q v : DWord) : Prop :=
  match o with
  | .beq | .bne => v = p ∨ v = q
  | .blt | .bge => p.toInt < v.toInt ∧ v.toInt ≤ q.toInt ∨ q.toInt < v.toInt ∧ v.toInt ≤ p.toInt
  | .bltu | .bgeu => p.toNat < v.toNat ∧ v.toNat ≤ q.toNat ∨ q.toNat < v.toNat ∧ v.toNat ≤ p.toNat

def splitsRight (o : BranchOp) (p q v : DWord) : Prop :=
  match o with
  | .beq | .bne => v = p ∨ v = q
  | .blt | .bge => v.toInt < p.toInt ∧ q.toInt ≤ v.toInt ∨ v.toInt < q.toInt ∧ p.toInt ≤ v.toInt
  | .bltu | .bgeu => v.toNat < p.toNat ∧ q.toNat ≤ v.toNat ∨ v.toNat < q.toNat ∧ p.toNat ≤ v.toNat

instance (o : BranchOp) (p q v : DWord) : Decidable (splitsLeft o p q v) := by
  cases o <;> unfold splitsLeft <;> infer_instance

instance (o : BranchOp) (p q v : DWord) : Decidable (splitsRight o p q v) := by
  cases o <;> unfold splitsRight <;> infer_instance

theorem holds_eq_iff_left (o : BranchOp) {p q : DWord} (hpq : p ≠ q) (v : DWord) :
    o.holds p v = o.holds q v ↔ ¬ splitsLeft o p q v := by
  have hequal : ((p == v) = (q == v)) ↔ ¬ (v = p ∨ v = q) := by
    rw [Bool.eq_iff_iff, beq_iff_eq, beq_iff_eq]
    grind
  have hsigned : p.slt v = q.slt v ↔ _ := decide_eq_decide.trans lt_iff_lt_of_left
  have hunsigned : p.ult v = q.ult v ↔ _ := decide_eq_decide.trans lt_iff_lt_of_left
  cases o with
  | beq => exact hequal
  | bne => exact (Bool.not_inj_iff).trans hequal
  | blt => exact hsigned
  | bge => exact (Bool.not_inj_iff).trans hsigned
  | bltu => exact hunsigned
  | bgeu => exact (Bool.not_inj_iff).trans hunsigned

theorem holds_eq_iff_right (o : BranchOp) {p q : DWord} (hpq : p ≠ q) (v : DWord) :
    o.holds v p = o.holds v q ↔ ¬ splitsRight o p q v := by
  have hequal : ((v == p) = (v == q)) ↔ ¬ (v = p ∨ v = q) := by
    rw [Bool.eq_iff_iff, beq_iff_eq, beq_iff_eq]
    grind
  have hsigned : v.slt p = v.slt q ↔ _ := decide_eq_decide.trans lt_iff_lt_of_right
  have hunsigned : v.ult p = v.ult q ↔ _ := decide_eq_decide.trans lt_iff_lt_of_right
  cases o with
  | beq => exact hequal
  | bne => exact (Bool.not_inj_iff).trans hequal
  | blt => exact hsigned
  | bge => exact (Bool.not_inj_iff).trans hsigned
  | bltu => exact hunsigned
  | bgeu => exact (Bool.not_inj_iff).trans hunsigned

theorem holds_self (o : BranchOp) (p q : DWord) : o.holds p p = o.holds q q := by
  cases o <;> simp [BranchOp.holds, BitVec.slt, BitVec.ult]

/-- Exactly one operand of the branch is `sp`, and the value of the other one
tells `sp` and the slot below the stack apart. -/
def MissesSp (o : BranchOp) (rs1 rs2 : Reg) (s : Machine) : Prop :=
  rs1 = sp ∧ rs2 ≠ sp ∧ splitsLeft o (s.regs sp) (slot s) (s.regs rs2) ∨
    rs1 ≠ sp ∧ rs2 = sp ∧ splitsRight o (s.regs sp) (slot s) (s.regs rs1)

instance (o : BranchOp) (rs1 rs2 : Reg) (s : Machine) : Decidable (MissesSp o rs1 rs2 s) := by
  unfold MissesSp; infer_instance

/-- The branch decides behind `inline_save` as it does in front of it. -/
theorem holds_spilled_iff (o : BranchOp) (rs1 rs2 : Reg) (s : Machine) :
    o.holds ((s.regs.set sp (slot s)) rs1) ((s.regs.set sp (slot s)) rs2) =
      o.holds (s.regs rs1) (s.regs rs2) ↔ ¬ MissesSp o rs1 rs2 s := by
  have hmoved : slot s ≠ s.regs sp := by rw [slot]; bv_omega
  have hsp : (s.regs.set sp (slot s)) sp = slot s := Regs.set_same _ _ (by decide)
  have hother {x : Reg} (hx : x ≠ sp) : (s.regs.set sp (slot s)) x = s.regs x :=
    Regs.set_of_ne _ _ hx
  by_cases h1 : rs1 = sp <;> by_cases h2 : rs2 = sp
  · subst h1 h2
    rw [hsp]
    refine iff_of_true (holds_self o _ _) ?_
    rintro (⟨-, hne, -⟩ | ⟨hne, -⟩) <;> exact hne rfl
  · subst h1
    rw [hsp, hother h2, eq_comm, holds_eq_iff_left o hmoved.symm]
    refine not_congr ⟨fun hsplit => .inl ⟨rfl, h2, hsplit⟩, ?_⟩
    rintro (⟨-, -, hsplit⟩ | ⟨hne, -⟩)
    · exact hsplit
    · exact absurd rfl hne
  · subst h2
    rw [hsp, hother h1, eq_comm, holds_eq_iff_right o hmoved.symm]
    refine not_congr ⟨fun hsplit => .inr ⟨h1, rfl, hsplit⟩, ?_⟩
    rintro (⟨-, hne, -⟩ | ⟨-, -, hsplit⟩)
    · exact absurd rfl hne
    · exact hsplit
  · rw [hother h1, hother h2]
    refine iff_of_true rfl ?_
    rintro (⟨heq, -⟩ | ⟨-, heq, -⟩)
    · exact h1 heq
    · exact h2 heq

/-! ### Leaving through a handler -/

/-- Wherever the words are placed, clear of the handlers, they lead from `s` to
the handler of `k`. -/
def Leaves (h : Host) (words : List Word) (s : Machine) (k : SwitchRoutine) : Prop :=
  ∀ a, (∀ k', image a words (h.handler k') = none) →
    ∃ e, Exits direct (image a words) (s.goto a) e ∧ e.pc = h.handler k

theorem leaves_of_reaches {h : Host} {words : List Word} {s : Machine} {k : SwitchRoutine}
    (hlen : words.length < 64) (hrun : ∀ (code : Code) (a : DWord), CodeAt code a words →
      ∃ e, Reaches direct code (s.goto a) e ∧ e.pc = h.handler k) : Leaves h words s k := by
  intro a hclear
  obtain ⟨e, hreach, hpc⟩ := hrun _ a (codeAt_image_self (by omega))
  exact ⟨e, ⟨hreach, hpc ▸ hclear k⟩, hpc⟩

theorem handler_injective (h : Host) : Function.Injective h.handler := by
  intro k k' heq
  have hnodup := h.handlers_nodup
  simp only [List.nodup_cons, List.mem_cons, List.not_mem_nil, or_false, not_or] at hnodup
  cases k <;> cases k' <;> simp_all [Host.handler]

theorem Leaves.unique {h : Host} {words : List Word} {s : Machine} {k k' : SwitchRoutine}
    (hlen : words.length < 64) (hk : Leaves h words s k) (hk' : Leaves h words s k') : k = k' := by
  have hclear (k : SwitchRoutine) : image h.base words (h.handler k) = none := by
    have := h.handler_outside k
    rw [cacheSize] at this
    exact image_eq_none (by omega)
  obtain ⟨e, hexits, hpc⟩ := hk h.base hclear
  obtain ⟨e', hexits', hpc'⟩ := hk' h.base hclear
  exact handler_injective h (hpc.symm.trans ((hexits.unique hexits') ▸ hpc'))

/-- The exit is taken on the side of the guest's branch: it leads to the
handler of the taken side if the condition holds of the guest's registers, and
only then, and else to the other one. -/
structure LeavesRight (h : Host) (words : List Word) (taken notTaken : SwitchRoutine)
    (o : BranchOp) (rs1 rs2 : Reg) (s : Machine) : Prop where
  taken : Leaves h words s taken ↔ o.holds (s.regs rs1) (s.regs rs2) = true
  notTaken : Leaves h words s notTaken ↔ o.holds (s.regs rs1) (s.regs rs2) = false

theorem leavesRight_iff {h : Host} {words : List Word} {taken notTaken : SwitchRoutine}
    {o : BranchOp} {rs1 rs2 : Reg} {s : Machine} {holds : Bool} (hlen : words.length < 64)
    (hne : taken ≠ notTaken) (hleaves : Leaves h words s (if holds then taken else notTaken)) :
    LeavesRight h words taken notTaken o rs1 rs2 s ↔
      holds = o.holds (s.regs rs1) (s.regs rs2) := by
  have hside (k : SwitchRoutine) : Leaves h words s k ↔ k = if holds then taken else notTaken :=
    ⟨fun hk => hk.unique hlen hleaves, fun hk => hk ▸ hleaves⟩
  have htaken : taken = (if holds then taken else notTaken) ↔ holds = true := by
    cases holds <;> simp [hne]
  have hnot : notTaken = (if holds then taken else notTaken) ↔ holds = false := by
    cases holds <;> simp [hne.symm]
  constructor
  · intro hright
    exact Bool.eq_iff_iff.mpr (htaken.symm.trans ((hside taken).symm.trans hright.taken))
  · intro heq
    rw [heq] at htaken hnot hside
    exact ⟨(hside taken).trans htaken, (hside notTaken).trans hnot⟩

/-! ### The three exits -/

section Exits

variable {h : Host} {r : Rail} {w : Word} {o : BranchOp} {rs1 rs2 : Reg} {off : BitVec 13}

theorem branchExits_right_iff (hdec : Instr.decode w = some (.branch o rs1 rs2 off))
    (s : Machine) :
    LeavesRight h (branchExits h w) .contextSwitchTaken .contextSwitch o rs1 rs2 s ↔
      ¬ MissesSp o rs1 rs2 s := by
  have hlen : (branchExits h w).length < 64 := by simp [branchExits, inlineSave]
  refine (leavesRight_iff hlen (by decide) (leaves_of_reaches hlen fun code a hcode => ?_)).trans
    (holds_spilled_iff o rs1 rs2 s)
  exact ⟨_, reaches_branchExits s (branch_of_decode hdec).1 hdec hcode, rfl⟩

theorem stubWords_right_iff (hdec : Instr.decode w = some (.branch o rs1 rs2 off)) (pc : DWord)
    (s : Machine) :
    LeavesRight h (stubWords h pc w) .contextSwitchTraceExitTaken .contextSwitchTraceExit
      o rs1 rs2 s ↔ ¬ MissesSp o rs1 rs2 s := by
  have hop := (branch_of_decode hdec).1
  have hlen : (stubWords h pc w).length < 64 := by
    rw [stubWords, if_pos hop]
    simp [branchStub, traceExitTo, inlineSave]
  refine (leavesRight_iff hlen (by decide) (leaves_of_reaches hlen fun code a hcode => ?_)).trans
    (holds_spilled_iff o rs1 rs2 s)
  exact ⟨_, reaches_branchStub s hop hdec hcode, rfl⟩

/-- What the three translators emit for a branch: `allocateBB` and
`allocateNextInst` the same exits, a trace its own exits behind its inline
routines. -/
theorem emitted_branch (h : Host) (r : Rail) (count : ℕ) (hop : w.opcode = Opcode.branch)
    {bb : BBState} (hbb : bb.nextInst = w) {trace : TraceState} (htrace : trace.nextInst = w)
    {elfReader : ElfReader} (helf : elfReader.getNextInstruction = w) (cache : CodeCache)
    (railBB : RailBasicBlock) :
    ∃ (bb' : BBState) (trace' : TraceState),
      translateInst h r bb = .return bb' ∧
      bb'.cache.memory = bb.cache.memory ++ branchExits h w ∧
      (allocateNextInst h elfReader cache railBB).1.memory = cache.memory ++ branchExits h w ∧
      traceTurn h r count trace = .return trace' 0 ∧
      trace'.cache.memory = trace.cache.memory ++
        (inlineExit r w ++ stubWords h trace.elfReader.pc w) := by
  have hcode : opcodeOf w = Op.branch := opcodeOf_eq_iff.mpr hop
  have hterm : IsTerminal trace.nextInst := .inl (htrace ▸ hop)
  have hjal : trace.nextInst.opcode ≠ Opcode.jal := by
    rw [htrace, hop]
    decide
  obtain ⟨trace', hturn, hstopped⟩ :=
    @traceStopped_turn h r count trace hterm fun heq => absurd heq hjal
  refine ⟨bb.close h .directBranch bb.pc w (branchExits h w) [], trace', ?_, ?_, ?_, hturn, ?_⟩
  · simp only [translateInst, hbb, hcode, if_true]
  · simp [BBState.close]
  · simp [allocateNextInst, helf, hcode]
  · rw [hstopped.memory, htrace, wordsBehind, hop, if_neg (by decide), List.append_nil]

/-- Each of the three exits is right exactly when the operands do not tell `sp`
and the slot below the stack apart. -/
theorem branch_exits_right_iff (h : Host) (r : Rail) (count : ℕ)
    (hdec : Instr.decode w = some (.branch o rs1 rs2 off)) (bb : BBState) (hbb : bb.nextInst = w)
    (trace : TraceState) (htrace : trace.nextInst = w) (elfReader : ElfReader)
    (helf : elfReader.getNextInstruction = w) (cache : CodeCache) (railBB : RailBasicBlock) :
    ∃ (inBB inNextInst inTrace : List Word) (bb' : BBState) (trace' : TraceState),
      (translateInst h r bb = .return bb' ∧
        bb'.cache.memory = bb.cache.memory ++ inBB ∧
        (allocateNextInst h elfReader cache railBB).1.memory = cache.memory ++ inNextInst ∧
        traceTurn h r count trace = .return trace' 0 ∧
        trace'.cache.memory = trace.cache.memory ++ (inlineExit r w ++ inTrace)) ∧
      ∀ s : Machine,
        (LeavesRight h inBB .contextSwitchTaken .contextSwitch o rs1 rs2 s ↔
          ¬ MissesSp o rs1 rs2 s) ∧
        (LeavesRight h inNextInst .contextSwitchTaken .contextSwitch o rs1 rs2 s ↔
          ¬ MissesSp o rs1 rs2 s) ∧
        (LeavesRight h inTrace .contextSwitchTraceExitTaken .contextSwitchTraceExit o rs1 rs2 s ↔
          ¬ MissesSp o rs1 rs2 s) := by
  obtain ⟨bb', trace', hemitted⟩ :=
    emitted_branch h r count (branch_of_decode hdec).1 hbb htrace helf cache railBB
  exact ⟨branchExits h w, branchExits h w, stubWords h trace.elfReader.pc w, bb', trace',
    hemitted, fun s => ⟨branchExits_right_iff hdec s, branchExits_right_iff hdec s,
      stubWords_right_iff hdec _ s⟩⟩

end Exits

/-! ### Two branches -/

/-- `sp` and `x5` hold the same, and `x6` does not. -/
def equalGuest : Machine where
  pc := 0x10000
  regs := Regs.set (Regs.set ⟨fun _ => 0, Regs.const_zero⟩ sp 0x40000000) 5 0x40000000
  mem _ := 0

def branchAt (w : Word) : ElfReader := .ofWords 0x10000 [w, 0x00000013, 0x00000013]

/-- `beq x6, x5, 8` is about to be translated, in a block and in a trace. -/
def beqBlock : BBState := allocateBBStart requestedHost (branchAt 0x00530463) .initial 0x10000

def beqTrace : TraceState := allocateTraceStart requestedHost (branchAt 0x00530463) .initial 0x10000

theorem beqX6_right : ∃ (inBB inNextInst inTrace : List Word) (bb' : BBState) (trace' : TraceState),
    translateInst requestedHost (.plain false) beqBlock = .return bb' ∧
    bb'.cache.memory = beqBlock.cache.memory ++ inBB ∧
    (allocateNextInst requestedHost (branchAt 0x00530463) .initial .empty).1.memory =
      CodeCache.initial.memory ++ inNextInst ∧
    traceTurn requestedHost (.plain false) 1 beqTrace = .return trace' 0 ∧
    trace'.cache.memory =
      beqTrace.cache.memory ++ (inlineExit (.plain false) 0x00530463 ++ inTrace) ∧
    LeavesRight requestedHost inBB .contextSwitchTaken .contextSwitch .beq 6 5 equalGuest ∧
    LeavesRight requestedHost inNextInst .contextSwitchTaken .contextSwitch .beq 6 5 equalGuest ∧
    LeavesRight requestedHost inTrace .contextSwitchTraceExitTaken .contextSwitchTraceExit
      .beq 6 5 equalGuest := by
  have hdec : Instr.decode 0x00530463 = some (.branch .beq 6 5 8) := by decide +kernel
  obtain ⟨inBB, inNextInst, inTrace, bb', trace', ⟨hturn, hbb, hnext, hturn', htrace⟩, hright⟩ :=
    branch_exits_right_iff requestedHost (.plain false) 1 hdec beqBlock (by decide +kernel) beqTrace
      (by decide +kernel) (branchAt 0x00530463) (by decide +kernel) .initial .empty
  obtain ⟨hrightBB, hrightNext, hrightTrace⟩ := hright equalGuest
  have hno : ¬ MissesSp .beq 6 5 equalGuest := by decide +kernel
  exact ⟨inBB, inNextInst, inTrace, bb', trace', hturn, hbb, hnext, hturn', htrace,
    hrightBB.mpr hno, hrightNext.mpr hno, hrightTrace.mpr hno⟩

/-- `beq sp, x5, 8`: the guest takes the branch, its translations do not. -/
theorem beqSp_not_right : ∃ (inBB inNextInst inTrace : List Word) (bb' : BBState)
    (trace' : TraceState),
    (translateInst requestedHost (.plain false)
        (allocateBBStart requestedHost (branchAt 0x00510463) .initial 0x10000) = .return bb' ∧
      bb'.cache.memory = (allocateBBStart requestedHost (branchAt 0x00510463) .initial
        0x10000).cache.memory ++ inBB ∧
      (allocateNextInst requestedHost (branchAt 0x00510463) .initial .empty).1.memory =
        CodeCache.initial.memory ++ inNextInst ∧
      traceTurn requestedHost (.plain false) 1
        (allocateTraceStart requestedHost (branchAt 0x00510463) .initial 0x10000) =
          .return trace' 0 ∧
      trace'.cache.memory = (allocateTraceStart requestedHost (branchAt 0x00510463) .initial
        0x10000).cache.memory ++ (inlineExit (.plain false) 0x00510463 ++ inTrace)) ∧
    ¬ LeavesRight requestedHost inBB .contextSwitchTaken .contextSwitch .beq sp 5 equalGuest ∧
    ¬ LeavesRight requestedHost inNextInst .contextSwitchTaken .contextSwitch .beq sp 5
      equalGuest ∧
    ¬ LeavesRight requestedHost inTrace .contextSwitchTraceExitTaken .contextSwitchTraceExit
      .beq sp 5 equalGuest := by
  have hdec : Instr.decode 0x00510463 = some (.branch .beq sp 5 8) := by decide +kernel
  have hmisses : MissesSp .beq sp 5 equalGuest := by decide +kernel
  have hbb : (allocateBBStart requestedHost (branchAt 0x00510463) .initial 0x10000).nextInst =
      0x00510463 := by decide +kernel
  have htrace : (allocateTraceStart requestedHost (branchAt 0x00510463) .initial
      0x10000).nextInst = 0x00510463 := by decide +kernel
  have helf : (branchAt 0x00510463).getNextInstruction = 0x00510463 := by decide +kernel
  obtain ⟨bb', trace', hemitted⟩ := emitted_branch requestedHost (.plain false) 1
    (branch_of_decode hdec).1 hbb htrace helf .initial .empty
  refine ⟨_, _, _, bb', trace', hemitted, ?_, ?_, ?_⟩
  · exact fun hright => (branchExits_right_iff hdec equalGuest).mp hright hmisses
  · exact fun hright => (branchExits_right_iff hdec equalGuest).mp hright hmisses
  · exact fun hright => (stubWords_right_iff hdec _ equalGuest).mp hright hmisses

end RailTranslator
