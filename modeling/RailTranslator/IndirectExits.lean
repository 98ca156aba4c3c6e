import RailTranslator.Runs
import RailTranslator.DispatchRoundTrip
import RailTranslator.Fields

/-!
Where `stub` goes on behind a `JALR`.

The target is computed from the trap frame: `TRAPFRAME[rs1-1]` and the
immediate. The frame has no entry for `x0`, so the doubleword below it is
read, which is a word of `stub`'s own stack frame; the entry of `sp` holds the
frame's own address; and bit 0 of the sum stays as it is.
-/

namespace RailTranslator

open Rv64

/-! ### The frame as an array -/

/-- `TRAPFRAME[i-1]`. For `x0` that is the doubleword below the frame, in which
`stub` keeps what it likes: `below`. -/
def trapFrame (m : Mem) (b below : DWord) : TrapFrame := fun i =>
  if i = 0 then below else m.read (frameEntry b i) 8

def atStub (routine : SwitchRoutine) (e : Machine) : Machine := execs direct e routine.before

/-- The `TRAPFRAME` of that call, with `below` underneath. -/
def stubFrame (routine : SwitchRoutine) (e : Machine) (below : DWord) : TrapFrame :=
  trapFrame (atStub routine e).mem ((atStub routine e).regs a0) below

section Frame

variable {s e : Machine} {routine : SwitchRoutine}

theorem stubFrame_apply (he : AtHandler s e) (below : DWord) (i : Reg) :
    stubFrame routine e below i =
      if i = 0 then below else if i = sp then frameOf s else s.regs i := by
  have hcall := atCall_before routine he
  rw [stubFrame, atStub, hcall.a0, trapFrame]
  by_cases h0 : i = 0
  · rw [if_pos h0, if_pos h0]
  · rw [if_neg h0, if_neg h0]
    by_cases hsp : i = sp
    · rw [if_pos hsp, hsp]
      exact hcall.frame_sp
    · rw [if_neg hsp]
      exact hcall.frame i h0 hsp

end Frame

/-! ### Bit 0 -/

theorem and_not_one (x : DWord) : x &&& ~~~1#64 = x - (x &&& 1#64) := by
  have hdisjoint : x &&& ~~~1#64 &&& (x &&& 1#64) = 0#64 := by
    rw [BitVec.and_assoc, BitVec.and_comm (~~~1#64), BitVec.and_assoc x (1#64)]
    simp
  have hall : ~~~1#64 ||| 1#64 = BitVec.allOnes 64 := by decide
  have hsplit : (x &&& ~~~1#64) + (x &&& 1#64) = x := by
    rw [BitVec.add_eq_or_of_and_eq_zero _ _ hdisjoint, ← BitVec.and_or_distrib_left, hall,
      BitVec.and_allOnes]
  generalize x &&& ~~~1#64 = upper at hsplit ⊢
  generalize x &&& 1#64 = bit at hsplit ⊢
  bv_omega

theorem and_one_le (x : DWord) : (x &&& 1#64).toNat ≤ 1 := by
  rw [BitVec.toNat_and]
  exact Nat.and_le_right

/-! ### The exit of a `JALR` -/

/-- The successor is the target of the `JALR`, and the frame changes in the
entry of its link register only. -/
structure JalrRight (s : Machine) (pc : DWord) (rd rs1 : Reg) (off : BitVec 12) (f : TrapFrame)
    (succ : Successor) : Prop where
  target : succ.nextBlockAddr = ((Instr.jalr rd rs1 off).exec direct (s.goto pc)).pc
  frame : ∀ i, succ.frame i = if i ≠ 0 ∧ i = rd then pc + 4 else f i

/-- What it takes: the base has an entry that holds it, the target has its bit 0
clear, and the return address is an `int`. -/
structure JalrFits (s : Machine) (pc : DWord) (rd rs1 : Reg) (off : BitVec 12) : Prop where
  notZero : rs1 ≠ 0
  notSp : rs1 ≠ sp
  even : (s.regs rs1 + off.signExtend 64) &&& 1 = 0
  link : rd ≠ 0 → (pc.setWidth 32 + 4).signExtend 64 = pc + 4

section Exit

variable {h : Host} {w : Word} {rd rs1 : Reg} {off : BitVec 12}

theorem decodeInstruction_of_jalr (junk : RvInst)
    (hdec : Instr.decode w = some (.jalr rd rs1 off)) :
    (decodeInstruction junk w).rdReg = rd ∧ (decodeInstruction junk w).rs1Reg = rs1 ∧
      ((decodeInstruction junk w).rd = regs.zero ↔ rd = 0) ∧
      (decodeInstruction junk w).imm.signExtend 64 = off.signExtend 64 := by
  cases decoded hdec with
  | jalr hop hf3 =>
      have hitype : decodeInstruction junk w = decodeItype junk w :=
        decodeInstruction_itype (by simp [hop])
      have hext : (w.immI.signExtend 32).signExtend 64 = w.immI.signExtend 64 :=
        signExtend_signExtend (by decide) _
      rw [RvInst.rdReg, RvInst.rs1Reg, hitype, decodeItype_rd, decodeItype_rs1, decodeItype_imm]
      exact ⟨BitVec.setWidth_setWidth_of_le _ (by decide),
        BitVec.setWidth_setWidth_of_le _ (by decide), @setWidth_inj 5 (by decide) w.rd 0, hext⟩

theorem leave_jalr (hdec : Instr.decode w = some (.jalr rd rs1 off)) (r : Rail) (cb : Callbacks)
    (io : IoRequest → DWord) {d : Dispatcher} {f : TrapFrame} {taken a pc : DWord}
    (hleft : d.left h a =
      ⟨{ decodeInstruction h.junkInst w with address := pc.setWidth 32 }, .indirectBranch⟩) :
    ∃ succ, d.leave h r cb io f taken a = .returned succ ∧
      succ.nextBlockAddr = f rs1 + off.signExtend 64 ∧
      succ.frame = if rd = 0 then f else f.set rd ((pc.setWidth 32 + 4).signExtend 64) := by
  obtain ⟨hrd, hrs1, hzero, himm⟩ := decodeInstruction_of_jalr h.junkInst hdec
  rw [RvInst.rdReg] at hrd
  rw [RvInst.rs1Reg] at hrs1
  rw [Dispatcher.leave, hleft]
  refine ⟨_, rfl, ?_, ?_⟩
  · simp only [RvInst.rs1Reg, hrs1, himm]
  · simp only [RvInst.rdReg, hrd, ne_eq, hzero, ite_not]

theorem target_iff (s : Machine) {rs1 : Reg} (h0 : rs1 ≠ 0) (off : BitVec 12) :
    (if rs1 = sp then frameOf s else s.regs rs1) + off.signExtend 64 =
        (s.regs rs1 + off.signExtend 64) &&& ~~~1#64 ↔
      rs1 ≠ sp ∧ (s.regs rs1 + off.signExtend 64) &&& 1 = 0 := by
  rw [and_not_one]
  by_cases hsp : rs1 = sp
  · subst hsp
    rw [if_pos rfl]
    refine iff_of_false (fun heq => ?_) fun hfits => hfits.1 rfl
    have hbit := and_one_le (s.regs sp + off.signExtend 64)
    generalize hsum : s.regs sp + off.signExtend 64 = sum at heq hbit
    generalize sum &&& 1#64 = bit at heq hbit
    -- the frame lies 256 below `sp`, and the even address at most 1 below the sum
    have hlow : frameOf s + off.signExtend 64 = sum - 256 := by
      rw [← hsum, frameOf]
      bv_omega
    rw [hlow] at heq
    bv_omega
  · rw [if_neg hsp]
    generalize s.regs rs1 + off.signExtend 64 = sum
    constructor
    · intro heq
      refine ⟨hsp, ?_⟩
      generalize sum &&& 1#64 = bit at heq ⊢
      bv_omega
    · rintro ⟨-, heven⟩
      have hbit : sum &&& 1#64 = 0 := heven
      rw [hbit]
      exact (BitVec.sub_zero sum).symm

theorem link_iff (f : TrapFrame) (rd : Reg) (v link : DWord) :
    (∀ i, (if rd = 0 then f else f.set rd v) i = if i ≠ 0 ∧ i = rd then link else f i) ↔
      (rd ≠ 0 → v = link) := by
  by_cases hrd : rd = 0
  · rw [if_pos hrd]
    refine iff_of_true (fun i => ?_) fun hne => absurd hrd hne
    rw [if_neg fun hi => hi.1 (hi.2.trans hrd)]
  · rw [if_neg hrd]
    constructor
    · intro hframe _
      have hlink := hframe rd
      rwa [if_pos ⟨hrd, rfl⟩, TrapFrame.set, Function.update_self] at hlink
    · intro hlink i
      by_cases hi : i = rd
      · rw [hi, if_pos ⟨hrd, rfl⟩, TrapFrame.set, Function.update_self, hlink hrd]
      · rw [if_neg fun hand => hi hand.2, TrapFrame.set, Function.update_of_ne hi]

/-- The successor `stub` computes behind a `JALR`, with the frame of a context
switch, and what it leaves in the frame. Both are right whatever stands below
the frame if and only if the `JALR` fits; what stands there makes a difference
to a `JALR` through `x0` only. -/
theorem jalr_exit_right_iff (routine : SwitchRoutine) {s e : Machine} (he : AtHandler s e)
    (hdec : Instr.decode w = some (.jalr rd rs1 off)) (r : Rail) (cb : Callbacks)
    (io : IoRequest → DWord) (d : Dispatcher) (pc : DWord)
    (hleft : d.left h ((atStub routine e).regs a3) =
      ⟨{ decodeInstruction h.junkInst w with address := pc.setWidth 32 }, .indirectBranch⟩) :
    ∃ succ : DWord → Successor,
      (∀ below, d.leave h r cb io (stubFrame routine e below) ((atStub routine e).regs a1)
        ((atStub routine e).regs a3) = .returned (succ below)) ∧
      ((∀ below, JalrRight s pc rd rs1 off (stubFrame routine e below) (succ below)) ↔
        JalrFits s pc rd rs1 off) ∧
      (rs1 ≠ 0 → ∀ below, JalrRight s pc rd rs1 off (stubFrame routine e below) (succ below) →
        JalrFits s pc rd rs1 off) := by
  have hleave (below : DWord) := @leave_jalr h w rd rs1 off hdec r cb io d
    (stubFrame routine e below) ((atStub routine e).regs a1) _ pc hleft
  choose succ hleave hnext hframe using hleave
  have hlink (below : DWord) := link_iff (stubFrame routine e below) rd
    ((pc.setWidth 32 + 4).signExtend 64) (pc + 4)
  simp only [← hframe] at hlink
  have hfits (h0 : rs1 ≠ 0) (below : DWord) :
      JalrRight s pc rd rs1 off (stubFrame routine e below) (succ below) ↔
        JalrFits s pc rd rs1 off := by
    have htarget := target_iff s h0 off
    have hbase : (if rs1 = sp then frameOf s else s.regs rs1) = stubFrame routine e below rs1 := by
      rw [stubFrame_apply he, if_neg h0]
    rw [hbase, ← hnext] at htarget
    constructor
    · rintro ⟨hright, hkept⟩
      obtain ⟨hsp, heven⟩ := htarget.mp hright
      exact ⟨h0, hsp, heven, (hlink below).mp hkept⟩
    · rintro ⟨-, hsp, heven, hreturn⟩
      exact ⟨htarget.mpr ⟨hsp, heven⟩, (hlink below).mpr hreturn⟩
  refine ⟨succ, hleave, ⟨fun hright => ?_, fun hj below => (hfits hj.notZero below).mpr hj⟩,
    fun h0 below => (hfits h0 below).mp⟩
  have h0 : rs1 ≠ 0 := by
    rintro rfl
    -- two words below the frame, one target
    have hzero := (hright 0).target
    have hone := (hright 1).target
    rw [hnext, stubFrame_apply he, if_pos rfl] at hzero hone
    have hsum := (BitVec.add_left_inj _).mp (hone.trans hzero.symm)
    exact absurd hsum (by decide)
  exact (hfits h0 0).mp (hright 0)

end Exit

/-! ### Two jumps -/

def jalrText (w : Word) : ElfReader := .ofWords 0x10000 [w, 0x00000013, 0x00000013]

def callGuest : Machine where
  pc := 0x10000
  regs := Regs.set (Regs.set ⟨fun _ => 0, Regs.const_zero⟩ sp 0x40000000) 5 0x10008
  mem _ := 0

def callHandler : Machine := (execs direct callGuest (saveInstrs t6)).setReg t6 0

theorem atHandler_callGuest : AtHandler callGuest callHandler := atHandler_inlineSave callGuest 0

/-- `jalr x1, 0(x5)` -/
theorem jalrX5_right : ∃ succ : DWord → Successor, ∀ below,
    (started (.plain false) (jalrText 0x000280e7)).leave requestedHost (.plain false)
      idleCallbacks (fun _ => 0) (stubFrame .contextSwitchTaken callHandler below)
      ((atStub .contextSwitchTaken callHandler).regs a1)
      ((atStub .contextSwitchTaken callHandler).regs a3) = .returned (succ below) ∧
    JalrRight callGuest 0x10000 1 5 0 (stubFrame .contextSwitchTaken callHandler below)
      (succ below) := by
  have hdec : Instr.decode 0x000280e7 = some (.jalr 1 5 0) := by decide +kernel
  have hleft : (started (.plain false) (jalrText 0x000280e7)).left requestedHost
      ((atStub .contextSwitchTaken callHandler).regs a3) =
        ⟨{ decodeInstruction requestedHost.junkInst 0x000280e7 with
          address := (0x10000 : DWord).setWidth 32 }, .indirectBranch⟩ := by rfl
  obtain ⟨succ, hleave, hright, -⟩ := jalr_exit_right_iff .contextSwitchTaken
    atHandler_callGuest hdec (.plain false) idleCallbacks (fun _ => 0) _ _ hleft
  have hfits : JalrFits callGuest 0x10000 1 5 0 :=
    ⟨by decide, by decide, by decide +kernel, fun _ => by decide⟩
  exact ⟨succ, fun below => ⟨hleave below, hright.mpr hfits below⟩⟩

/-- `jalr x1, 1(x5)`: the guest goes to 0x10008, `stub` to 0x10009. -/
theorem jalrOdd_not_right : ∃ succ : DWord → Successor, ∀ below,
    (started (.plain false) (jalrText 0x001280e7)).leave requestedHost (.plain false)
      idleCallbacks (fun _ => 0) (stubFrame .contextSwitchTaken callHandler below)
      ((atStub .contextSwitchTaken callHandler).regs a1)
      ((atStub .contextSwitchTaken callHandler).regs a3) = .returned (succ below) ∧
    ¬ JalrRight callGuest 0x10000 1 5 1 (stubFrame .contextSwitchTaken callHandler below)
      (succ below) := by
  have hdec : Instr.decode 0x001280e7 = some (.jalr 1 5 1) := by decide +kernel
  have hleft : (started (.plain false) (jalrText 0x001280e7)).left requestedHost
      ((atStub .contextSwitchTaken callHandler).regs a3) =
        ⟨{ decodeInstruction requestedHost.junkInst 0x001280e7 with
          address := (0x10000 : DWord).setWidth 32 }, .indirectBranch⟩ := by rfl
  have hleave (below : DWord) := @leave_jalr requestedHost _ 1 5 1 hdec (.plain false) idleCallbacks
    (fun _ => 0) _ (stubFrame .contextSwitchTaken callHandler below)
    ((atStub .contextSwitchTaken callHandler).regs a1) _ _ hleft
  choose succ hleave hnext _ using hleave
  refine ⟨succ, fun below => ⟨hleave below, fun hright => ?_⟩⟩
  have htarget := hright.target
  rw [hnext, stubFrame_apply atHandler_callGuest] at htarget
  have hodd : callGuest.regs 5 + (1 : BitVec 12).signExtend 64 ≠
      ((Instr.jalr 1 5 1).exec direct (callGuest.goto 0x10000)).pc := by
    decide +kernel
  exact hodd htarget

end RailTranslator
