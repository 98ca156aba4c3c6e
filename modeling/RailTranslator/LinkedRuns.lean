import RailTranslator.EcallEmulation
import RailTranslator.ProcessEntry
import RailTranslator.StandingTraces

/-!
The guest under translation follows the guest, over whole runs, with trace
linking.

A turn of the guest is a trace. Through an exit that has been linked the host
comes to the next trace without a visit to the dispatcher, with nothing but
words of the cache; the other exits lead to `stub` as in the mode without
traces. `shadows` says that the host takes a visit for every turn that ends with
a system call, and a visit or such a short cut for any other, as long as no more
than a mebibyte of the cache is used: that far a link reaches.

Traces that end with a `jal` are left out, since a linked `jal` does not link.
-/

namespace RailTranslator

open Rv64 Transition

/-! ### The guest -/

/-- The guest runs along the trace of its address, as far as the word `w` that
ends it. -/
structure TracedTo (elf : ElfReader) (D : Set DWord) (s : Machine) (D' : Set DWord)
    (s' : Machine) (w : Word) : Prop where
  run : TraceRun elf (jumpsFollowed elf s.pc) D s D' s'
  word : elf.guestCode s'.pc = some w
  not_jal : w.opcode ≠ Opcode.jal
  leavable : Leavable s' w
  branch : w.opcode = Opcode.branch → w.rs1 ≠ sp ∧ w.rs2 ≠ sp
  ne_zero : s'.pc ≠ 0
  low : s'.pc.toNat + 4 < 2 ^ 31

/-- The guest runs from one trace to the next. The label is the answer of the
host, if the turn ends with a `write`. -/
inductive TracedTurn (elf : ElfReader) (depth : ℕ) :
    Option (IoRequest → DWord) → Guest → Guest → Prop
  | inst {D D' : Set DWord} {s s₁ s' : Machine} {w : Word} (ht : TracedTo elf D s D' s₁ w)
      (hstep : step relocate elf.guestCode s₁ = some s') (hne : s'.pc ≠ 0)
      (hlow : s'.pc.toNat < 2 ^ 31) :
      TracedTurn elf depth none ⟨s, D⟩ ⟨s', D' ∪ stackBelow depth s₁⟩
  | write {io : IoRequest → DWord} {D D' : Set DWord} {s s₁ : Machine} {w : Word}
      (ht : TracedTo elf D s D' s₁ w) (hop : w.opcode = Opcode.system)
      (hnumber : s₁.regs 17 = SystemCall.write ∨ s₁.regs 17 = SystemCall.writev) :
      TracedTurn elf depth (some io) ⟨s, D⟩ ⟨answered io s₁, D' ∪ stackBelow depth s₁⟩

/-! ### The host -/

/-- A visit to the dispatcher, with the answer that the label names. -/
def LinkedTurn (h : Host) (r : Rail) (cb : Callbacks) (depth : ℕ)
    (answer : Option (IoRequest → DWord)) (x x' : HostState) : Prop :=
  ∃ io, (∀ i, answer = some i → i = io) ∧ HostTurn h r cb depth io x x'

def OutOfReach (x : HostState) : Prop := ¬ x.dispatcher.cache.memory.length ≤ 2 ^ 18

/-- The host is on its way to the trace of the guest's next instruction, behind
`restore_scratch`, with the guest's registers and memory. -/
structure Pursues (h : Host) (r : Rail) (cb : Callbacks) (elf : ElfReader) (g : Guest)
    (x : HostState) : Prop where
  reachable : ∃ H, LinkRun h r cb elf x.dispatcher H
  ne_zero : g.machine.pc ≠ 0
  low : g.machine.pc.toNat < 2 ^ 31
  arrives : ∃ b c, x.dispatcher.cache.railBasicBlocks g.machine.pc = some b ∧
    Agree g.spoiled g.machine c ∧
    Reaches direct (x.dispatcher.cache.code h) x.machine (c.goto (b.startLocationInCache + 4))

/-- A visit to the dispatcher, through an exit that has been recorded, takes the
host to the trace where the guest is in state `g`. -/
def TakesVisit (h : Host) (r : Rail) (cb : Callbacks) (elf : ElfReader) (depth : ℕ)
    (x : HostState) (answer : Option (IoRequest → DWord)) (g : Guest) : Prop :=
  ∀ io, (∀ i, answer = some i → i = io) → ∃ k e,
    ExitCall h elf x.dispatcher ((atStub k e).regs a1) ((atStub k e).regs a3) ∧
      ∀ below, ∃ res, FollowedTo h r cb depth io x g k e below res

section Trace

variable {h : Host} {r : Rail} {cb : Callbacks} {elf : ElfReader} {d : Dispatcher} {H : History}
  {stubs : Set ExitStub} {D D' : Set DWord} {s s' c : Machine} {w : Word} {b : RailBasicBlock}

theorem TraceAt.reaches (hr : r.Uninstrumented) (hl : Linked h elf d.cache H stubs)
    (hb : TraceAt h r elf d.cache H s.pc b)
    (htrace : TraceRun elf (jumpsFollowed elf s.pc) D s D' s') (hagree : Agree D s c) :
    ∃ e ∈ stubs, e.pc = s'.pc.setWidth 32 ∧ H.recorded e.address (e.exit h elf) ∧
      ∃ c', Agree D' s' c' ∧ Reaches direct (d.cache.code h)
        (c.goto (b.startLocationInCache + 4)) (c'.goto (wordAddr h.base e.index)) := by
  obtain ⟨-, p, held, hstart, hst⟩ := hb
  obtain ⟨front, hwalk, hsim⟩ := htrace.walk h hr
  obtain ⟨rfl, hrec⟩ := hst.exit front _ hwalk
  have hfits := hl.fits
  rw [CodeCache.Fits, cacheSize] at hfits
  have hlen := hst.stands.length_le
  rw [restoreScratch, List.length_append, List.length_singleton] at hlen
  -- of the stubs, the one right behind the words is this trace's
  obtain ⟨e, he, haddr, hexit⟩ := hl.recorded _ _ hrec
  have hsame := @exit_inj h elf ⟨p + 1 + (tracedWords front).length, s'.pc.setWidth 32⟩ e
    (show p + 1 + (tracedWords front).length < 2 ^ 32 by omega) (hl.index_lt he) haddr hexit
  subst hsame
  refine ⟨_, he, rfl, hrec, ?_⟩
  have hcode : CodeAt (d.cache.code h) (wordAddr h.base p)
      (restoreScratch ++ tracedWords front) := hst.stands.codeAt (by omega)
  obtain ⟨-, hheld⟩ := codeAt_append.mp hcode
  rw [restoreScratch, List.length_singleton, ← wordAddr_add] at hheld
  obtain ⟨c', hagree', hreach⟩ := hsim _ _ c hheld hagree
  rw [← wordAddr_add] at hreach
  rw [hstart, wordAddr_add_four]
  exact ⟨c', hagree', hreach⟩

theorem TraceAt.reaches_restored (hl : Linked h elf d.cache H stubs)
    (hb : TraceAt h r elf d.cache H s.pc b) {m : Machine}
    (hm : Entered b.startLocationInCache D s m) : ∃ c, Agree D s c ∧
      Reaches direct (d.cache.code h) m (c.goto (b.startLocationInCache + 4)) := by
  obtain ⟨-, p, held, hstart, hst⟩ := hb
  have hfits := hl.fits
  rw [CodeCache.Fits, cacheSize] at hfits
  have hcode : CodeAt (d.cache.code h) (wordAddr h.base p) (restoreScratch ++ held) :=
    hst.stands.codeAt (by omega)
  obtain ⟨hrestore, -⟩ := codeAt_append.mp hcode
  rw [← hstart] at hrestore
  obtain ⟨c, hreach, hagree⟩ := reaches_restoreScratch hm hrestore
  refine ⟨c, hagree, ?_⟩
  have hnext : b.startLocationInCache + 4 = wordAddr b.startLocationInCache 1 := rfl
  rwa [hnext]

theorem TraceAt.even (hb : TraceAt h r elf d.cache H s.pc b) :
    b.startLocationInCache.getLsbD 0 = false := by
  obtain ⟨-, p, held, hstart, -⟩ := hb
  rw [hstart]
  exact getLsbD_zero_of_mod (toNat_wordAddr_base h p)

/-- Where the trace of an address is being entered, the host is on its way to
it. -/
theorem LinkRun.pursues (hbase : h.base = 0x01000000) (hlink : r.traceLinkingEnabled = true)
    (hr : r.Uninstrumented) {g : Guest} {x : HostState} (hrun : LinkRun h r cb elf x.dispatcher H)
    (hne : g.machine.pc ≠ 0) (hlow : g.machine.pc.toNat < 2 ^ 31)
    (hb : x.dispatcher.cache.railBasicBlocks g.machine.pc = some b)
    (hentered : b.startLocationInCache.getLsbD 0 = false →
      Entered b.startLocationInCache g.spoiled g.machine x.machine) :
    Pursues h r cb elf g x := by
  obtain ⟨-, stubs, hl⟩ := hrun.linked hbase hlink
  have hat := (hrun.traces hbase hlink hr).traces _ _ hb hne hlow
  obtain ⟨c, hagree, hreach⟩ := hat.reaches_restored hl (hentered hat.even)
  exact ⟨⟨H, hrun⟩, hne, hlow, b, c, hb, hagree, hreach⟩

/-- The exit of an indirect jump or a system call is as it was emitted. -/
theorem Linked.reaches_exit (hl : Linked h elf d.cache H stubs) {e : ExitStub} (he : e ∈ stubs)
    (hop : (e.word elf).opcode = Opcode.jalr ∨ (e.word elf).opcode = Opcode.system) (c : Machine) :
    Reaches direct (d.cache.code h) (c.goto (wordAddr h.base e.index))
      (atTraceExit c (liValue e.address) (h.handler (traceExitRoutine (e.word elf) c))) := by
  obtain ⟨ws, hstate, hcode⟩ := hl.codeAt_stub he
  have hstable : StableBranch (e.word elf) c := by
    intro hbranch
    rcases hop with hop | hop <;> exact absurd (hop.symm.trans hbranch) (by decide)
  cases hstate with
  | other => exact reaches_stubWords c hstable hcode
  | branch hop' => rcases hop with hop | hop <;> exact absurd (hop.symm.trans hop') (by decide)
  | jump hop' => rcases hop with hop | hop <;> exact absurd (hop.symm.trans hop') (by decide)
  | linkedJump hop' => rcases hop with hop | hop <;> exact absurd (hop.symm.trans hop') (by decide)

/-- The exit of a branch leads to its handler, or it has been linked and leads
to the block of the successor, if that is near enough. -/
theorem Linked.reaches_branch (hl : Linked h elf d.cache H stubs) {e : ExitStub} (he : e ∈ stubs)
    {o : BranchOp} {rs1 rs2 : Reg} {off : BitVec 13}
    (hdec : Instr.decode (e.word elf) = some (.branch o rs1 rs2 off)) (h1 : rs1 ≠ sp)
    (h2 : rs2 ≠ sp) (c : Machine) :
    Reaches direct (d.cache.code h) (c.goto (wordAddr h.base e.index))
        (atTraceExit c (liValue e.address) (h.handler (traceExitRoutine (e.word elf) c))) ∨
      ∃ b, d.cache.railBasicBlocks (e.successor elf (leavesTaken (e.word elf) c)) = some b ∧
        (InJumpRange (linkDistance (wordAddr h.base
            (e.sideIndex (leavesTaken (e.word elf) c))) b.startLocationInCache) →
          ∃ c', Agree (bytes (slot c) 8) c c' ∧
            Reaches direct (d.cache.code h) (c.goto (wordAddr h.base e.index))
              (c'.goto (b.startLocationInCache + 4))) := by
  obtain ⟨hop, -, ws, hside, hcode, hreach⟩ := hl.reaches_side he hdec h1 h2 c
  rw [leavesTaken_branch hop hdec]
  have hroutine : traceExitRoutine (e.word elf) c =
      sideRoutine (o.holds (c.regs rs1) (c.regs rs2)) := by
    rw [traceExitRoutine, leavesTaken_branch hop hdec]
    rfl
  generalize o.holds (c.regs rs1) (c.regs rs2) = taken at *
  by_cases hp : H.patched e.address (e.exit h elf) taken
  · right
    obtain ⟨start, hstart, rfl⟩ := hside.eq_linked hp
    have haligned := hl.aligned _ _ hstart
    obtain ⟨b, hb, rfl⟩ := Option.map_eq_some_iff.mp hstart
    refine ⟨b, hb, fun hfit => ?_⟩
    have hlinked := reaches_linkPatch (spilled t6 c) (toNat_wordAddr_base h _) haligned
      (codeAt_append.mp hcode).1 hfit
    obtain ⟨hregs, hmem⟩ := spilled_pop c (b.startLocationInCache + 4)
    exact ⟨_, ⟨hregs, hmem⟩, hreach.trans hlinked⟩
  · left
    have hwords : e.sideWords h taken = traceExitTo e.address (h.handler (sideRoutine taken)) := by
      cases taken <;> rfl
    rw [hside.eq_emitted hp, hwords] at hcode
    rw [hroutine]
    exact hreach.trans (reaches_traceExitTo c (h.liValue_handler (sideRoutine taken)) hcode)

theorem successor_branch {e : ExitStub} (hpc : e.pc = s.pc.setWidth 32) {o : BranchOp}
    {rs1 rs2 : Reg} {off : BitVec 13}
    (hdec : Instr.decode (e.word elf) = some (.branch o rs1 rs2 off))
    (hlow : ((Instr.branch o rs1 rs2 off).exec relocate s).pc.toNat < 2 ^ 31) :
    e.successor elf (leavesTaken (e.word elf) s) =
      ((Instr.branch o rs1 rs2 off).exec relocate s).pc := by
  obtain ⟨hop, himm⟩ := branch_of_decode hdec
  have hexec : ((Instr.branch o rs1 rs2 off).exec relocate s).pc = s.pc +
      (if leavesTaken (e.word elf) s then off.signExtend 32 else 4).signExtend 64 := by
    rw [leavesTaken_branch hop hdec, Instr.exec]
    split
    · exact congrArg (s.pc + ·) (signExtend_signExtend (by decide) _).symm
    · rfl
  rw [hexec] at hlow ⊢
  rw [ExitStub.successor, if_pos hop, himm, hpc]
  exact signExtend_add_of_low hlow

end Trace

/-! ### The exits that are not linked -/

section Exit

variable {h : Host} {r : Rail} {cb : Callbacks} {io : IoRequest → DWord} {elf : ElfReader}
  {d : Dispatcher} {f : TrapFrame} {taken a : DWord} {s s' : Machine} {w : Word}

/-- Through the exit of a branch the dispatcher goes on where the branch does. -/
theorem leave_branch {e : ExitStub} (hop : (e.word elf).opcode = Opcode.branch)
    (hleft : d.left h a = guestExit h elf e.pc) :
    ∃ succ, d.leave h r cb io f taken a = .returned succ ∧
      succ.nextBlockAddr = e.successor elf (decide (taken ≠ 0)) ∧ succ.frame = f ∧
      succ.shouldNotExecLast = true := by
  have hreturns : ∃ succ, d.leave h r cb io f taken a = .returned succ := by
    rw [Dispatcher.leave, hleft, guestExit_branch hop]
    simp only [successor]
    split_ifs <;> exact ⟨_, rfl⟩
  obtain ⟨succ, hleave⟩ := hreturns
  have hsucc := hleave
  rw [Dispatcher.leave, hleft] at hsucc
  obtain ⟨haddr, hexec, hframe⟩ := successor_guestExit (.inl hop) hsucc
  rw [if_neg fun hjal => absurd (hop.symm.trans hjal.1) (by decide)] at hframe
  exact ⟨succ, hleave, haddr, hframe, hexec⟩

theorem left_of_guestExit (hleft : d.left h a = guestExit h elf (s.pc.setWidth 32))
    (hfetch : elf.fetch (s.pc.setWidth 32) = w) {type : BasicBlockType}
    (htype : (guestExit h elf (s.pc.setWidth 32)).exitType = type) :
    d.left h a = leftAt h s.pc w type := by
  rw [hleft, leftAt, ← hfetch, ← htype]
  rfl

/-- The dispatcher goes on where the guest does behind a trace. -/
theorem continues_traced (hleft : d.left h a = guestExit h elf (s.pc.setWidth 32))
    (hw : elf.guestCode s.pc = some w) (hterm : IsTerminal w) (hjal : w.opcode ≠ Opcode.jal)
    (hleave : Leavable s w) (hlow : s.pc.toNat + 4 < 2 ^ 31)
    (hstep : step relocate elf.guestCode s = some s') (hlow' : s'.pc.toNat < 2 ^ 31) :
    Continues h r cb io d (traceExitRoutine w s).taken a s s' := by
  have hfetch := fetch_of_guestCode hw
  rw [step, hw, Option.bind_some, Option.map_eq_some_iff] at hstep
  obtain ⟨i, hdec, rfl⟩ := hstep
  rcases hterm with hop | hop | hop | hop
  · obtain ⟨o, rs1, rs2, off, hdec', -⟩ := hleave.stable hop
    obtain rfl := Option.some.inj (hdec'.symm.trans hdec)
    have hword : (⟨0, s.pc.setWidth 32⟩ : ExitStub).word elf = w := hfetch
    have hexec : (Instr.branch o rs1 rs2 off).exec relocate s =
        s.goto ((Instr.branch o rs1 rs2 off).exec relocate s).pc := by
      rw [Instr.exec]
      split <;> rfl
    have hgoes := @successor_branch elf s ⟨0, s.pc.setWidth 32⟩ rfl o rs1 rs2 off
      (by rw [hword]; exact hdec') hlow'
    rw [hword] at hgoes
    have htaken : decide ((traceExitRoutine w s).taken ≠ 0) = leavesTaken w s := by
      rw [traceExitRoutine]
      cases leavesTaken w s <;> decide
    rw [hexec]
    refine ⟨rfl, rfl, fun f hf => ?_⟩
    obtain ⟨succ, hsucc, haddr, hframe, hexec⟩ :=
      @leave_branch h r cb io elf d f (traceExitRoutine w s).taken a ⟨0, s.pc.setWidth 32⟩
        (by rw [hword]; exact hop) hleft
    rw [htaken, hgoes] at haddr
    exact ⟨succ, hsucc, haddr, hframe ▸ hf, hexec⟩
  · exact absurd hop hjal
  · obtain ⟨h0, hbase, heven⟩ := hleave.jalr hop
    have hdec' := hdec
    rw [decode_of_jalr hop] at hdec'
    split at hdec'
    · obtain rfl := Option.some.inj hdec'
      have htype := left_of_guestExit hleft hfetch (guestExit_jalr (by rw [hfetch]; exact hop))
      exact continues_jalr htype hdec (hleave.link (.inr hop)) h0 hbase heven hlow
    · cases hdec'
  · rw [decode_of_system hop] at hdec
    cases hdec

end Exit

/-! ### Landing in a trace -/

section Land

variable {h : Host} {r : Rail} {cb : Callbacks} {io : IoRequest → DWord} {elf : ElfReader}
  {d : Dispatcher} {H : History} {f : TrapFrame} {taken a : DWord} {s' : Machine}
  {succ : Successor}

theorem LinkRun.lands (hbase : h.base = 0x01000000) (hlink : r.traceLinkingEnabled = true)
    (hr : r.Uninstrumented) (hcb : cb.KeepFrame) (hrun : LinkRun h r cb elf d H)
    (hleaves : LeavesFor h r cb io d f taken a s' succ) (hne : s'.pc ≠ 0)
    (hlow : s'.pc.toNat < 2 ^ 31) :
    ∃ res, stub h r cb io d f taken a = .returned res ∧ res.frame = succ.frame ∧
      Lands res s'.pc := by
  have htraces := (hrun.traces hbase hlink hr).lookedUp
  have hcache := @allocateNext_cache h r cb io d f taken a succ hleaves.leave
  rw [hleaves.next] at hcache
  rcases hb : d.lookedUp.cache.railBasicBlocks s'.pc with _ | b
  · rw [hb, Option.isNone_none, if_pos rfl, allocate, hlink, if_pos rfl] at hcache
    obtain ⟨ps, q, e, -, -, -, -, ⟨b, hregistered, hrec⟩, -⟩ :=
      allocateTrace_walk h r (d.readerBehind h a) d.lookedUp.cache s'.pc 10
    have hint := asInt_of_low hlow
    refine lands_of_registered hcb hleaves ?_ (hrec.firstAddr.trans hint) hne hlow
    rw [hleaves.next, hcache, ← hregistered, hint]
  · rw [hb, Option.isNone_some, if_neg Bool.false_ne_true] at hcache
    refine lands_of_registered hcb hleaves ?_ (htraces.traces _ _ hb hne hlow).1 hne hlow
    rw [hleaves.next, hcache, hb]

end Land

/-! ### One turn -/

theorem inJumpRange_linkDistance (base : DWord) {i p : ℕ} (hi : i < 2 ^ 18) (hp : p < 2 ^ 18) :
    InJumpRange (linkDistance (wordAddr base i) (wordAddr base p)) := by
  have hdistance : linkDistance (wordAddr base i) (wordAddr base p) =
      BitVec.ofNat 64 (4 * p) - BitVec.ofNat 64 (4 * i) := by
    simp only [linkDistance, wordAddr]
    bv_omega
  rw [hdistance, InJumpRange, BitVec.toInt_sub, BitVec.toInt_ofNat', BitVec.toInt_ofNat']
  simp only [Int.bmod]
  omega

section Turn

variable {h : Host} {r : Rail} {cb : Callbacks} {depth : ℕ} {io : IoRequest → DWord}
  {elf : ElfReader} {D D' : Set DWord} {s s₁ s' : Machine} {w : Word} {x x' : HostState}
  {g g' : Guest}

theorem slot_subset_stackBelow (hdepth : depth + 256 ≤ 2 ^ 64) (s : Machine) :
    bytes (slot s) 8 ⊆ stackBelow depth s := by
  intro y hy
  simp only [stackBelow, frameOf, slot, mem_bytes] at *
  bv_omega

theorem fits_of_near (hnear : ¬ OutOfReach x) : x.dispatcher.cache.Fits :=
  (not_not.mp hnear).trans (by decide)

/-- The exit of the guest's trace leads to a routine, or it has been linked, and
the host is on its way to the next trace already. -/
theorem Pursues.leaves (hbase : h.base = 0x01000000) (hlink : r.traceLinkingEnabled = true)
    (hr : r.Uninstrumented) (hp : Pursues h r cb elf ⟨s, D⟩ x)
    (hdepth : depth + 256 ≤ 2 ^ 64) (ht : TracedTo elf D s D' s₁ w) (hnear : ¬ OutOfReach x) :
    ((x.dispatcher.cache.exits s₁.pc).isSome = true ∧ ∃ c, Agree D' s₁ c ∧
        Reaches direct (x.dispatcher.cache.code h) x.machine
          (atTraceExit c s₁.pc (h.handler (traceExitRoutine w s₁)))) ∨
      w.opcode = Opcode.branch ∧ ∀ s', step relocate elf.guestCode s₁ = some s' → s'.pc ≠ 0 →
        s'.pc.toNat < 2 ^ 31 → Pursues h r cb elf ⟨s', D' ∪ stackBelow depth s₁⟩ x := by
  obtain ⟨⟨H, hrun⟩, hne, hlow, b, c, hb, hagree, hreach⟩ := hp
  have htraces := hrun.traces hbase hlink hr
  obtain ⟨-, stubs, hl⟩ := hrun.linked hbase hlink
  obtain ⟨e, he, hpc, hrec, c', hagree', hreach'⟩ :=
    (htraces.traces _ _ hb hne hlow).reaches hr hl ht.run hagree
  have hlow₁ : s₁.pc.toNat < 2 ^ 31 := Nat.lt_of_le_of_lt (Nat.le_add_right _ 4) ht.low
  have haddr : e.address = s₁.pc := by
    rw [ExitStub.address, hpc]
    exact asInt_of_low hlow₁
  have hword : e.word elf = w := by
    rw [ExitStub.word, hpc]
    exact fetch_of_guestCode ht.word
  obtain ⟨hterm, -, hli⟩ := ht.run.ends
  rw [fetch_of_guestCode ht.word] at hterm
  have hroutine : traceExitRoutine w c' = traceExitRoutine w s₁ := by
    rw [traceExitRoutine, leavesTaken_congr w hagree'.regs]
    rfl
  have hexit : (x.dispatcher.cache.exits s₁.pc).isSome = true := by
    rw [← haddr]
    exact htraces.known _ _ hrec
  have hleft : Reaches direct (x.dispatcher.cache.code h) (c'.goto (wordAddr h.base e.index))
      (atTraceExit c' (liValue e.address) (h.handler (traceExitRoutine (e.word elf) c'))) →
      ∃ c, Agree D' s₁ c ∧ Reaches direct (x.dispatcher.cache.code h) x.machine
        (atTraceExit c s₁.pc (h.handler (traceExitRoutine w s₁))) := by
    intro hstub
    rw [haddr, hli, hword, hroutine] at hstub
    exact ⟨c', hagree', (hreach.trans hreach').trans hstub⟩
  by_cases hop : w.opcode = Opcode.branch
  · obtain ⟨o, rs1, rs2, off, hdec, -⟩ := ht.leavable.stable hop
    obtain ⟨h1, h2⟩ := ht.branch hop
    have hdec' : Instr.decode (e.word elf) = some (.branch o rs1 rs2 off) := by rw [hword, hdec]
    obtain ⟨rfl, rfl⟩ : w.rs1 = rs1 ∧ w.rs2 = rs2 := by
      cases decoded hdec
      exact ⟨rfl, rfl⟩
    rcases hl.reaches_branch he hdec' h1 h2 c' with hstub | ⟨b', hb', hlinked⟩
    · exact .inl ⟨hexit, hleft hstub⟩
    · refine .inr ⟨hop, fun s' hstep hne' hlow' => ⟨⟨H, hrun⟩, hne', hlow', ?_⟩⟩
      obtain rfl : (Instr.branch o w.rs1 w.rs2 off).exec relocate s₁ = s' :=
        Option.some.inj ((step_eq ht.word hdec).symm.trans hstep)
      have hgoes := successor_branch hpc hdec' hlow'
      rw [leavesTaken_congr _ hagree'.regs] at hb' hlinked
      rw [hgoes] at hb'
      -- the exit and the trace it has been linked to both lie in the first mebibyte
      have hside : e.sideIndex (leavesTaken (e.word elf) s₁) < 2 ^ 18 := by
        have hlen := hl.index_le (hl.index_lt he) hrec
        obtain ⟨-, hlt⟩ := patchIndex_inside (h := h) (.inl (by rwa [hword]))
          (leavesTaken (e.word elf) s₁)
        rw [ExitStub.patchIndex, if_pos (by rwa [hword])] at hlt
        have hused := not_not.mp hnear
        omega
      obtain ⟨-, p, held, hstart, hst⟩ := htraces.traces _ _ hb' hne' hlow'
      have hp : p < 2 ^ 18 := by
        have hlen := hst.stands.length_le
        rw [restoreScratch, List.length_append, List.length_singleton] at hlen
        have hused := not_not.mp hnear
        omega
      obtain ⟨c'', hspilled, hjump⟩ :=
        hlinked (by rw [hstart]; exact inJumpRange_linkDistance h.base hside hp)
      refine ⟨b', c'', hb', ?_, (hreach.trans hreach').trans hjump⟩
      have hbranch : ((Instr.branch o w.rs1 w.rs2 off).exec relocate s₁).regs = s₁.regs ∧
          ((Instr.branch o w.rs1 w.rs2 off).exec relocate s₁).mem = s₁.mem := by
        rw [Instr.exec]
        split <;> exact ⟨rfl, rfl⟩
      refine ⟨?_, fun y hy => ?_⟩
      · rw [hspilled.regs, hagree'.regs, hbranch.1]
      · rw [Set.mem_union, not_or] at hy
        have hslot : slot c' = slot s₁ := by rw [slot, slot, hagree'.regs]
        have hout : y ∉ bytes (slot c') 8 := by
          rw [hslot]
          exact fun hin => hy.2 (slot_subset_stackBelow hdepth s₁ hin)
        rw [hspilled.mem y hout, hagree'.mem y hy.1, hbranch.2]
  · have hop' : w.opcode = Opcode.jalr ∨ w.opcode = Opcode.system := by
      rcases hterm with hop' | hop' | hop' | hop'
      · exact absurd hop' hop
      · exact absurd hop' ht.not_jal
      · exact .inl hop'
      · exact .inr hop'
    exact .inl ⟨hexit, hleft (hl.reaches_exit he (by rwa [hword]) c')⟩

theorem isTrace_traceExitRoutine (w : Word) (s : Machine) : (traceExitRoutine w s).IsTrace := by
  rw [traceExitRoutine]
  split <;> exact trivial

theorem traceExitRoutine_ne (w : Word) (s : Machine) :
    traceExitRoutine w s ≠ .contextSwitchInstrument := by
  rw [traceExitRoutine]
  split <;> exact SwitchRoutine.noConfusion

/-- The routine finds the address of the instruction that has been left on the
stack. -/
theorem a3_atTraceExit (w : Word) (s c : Machine) (a : DWord) :
    (atStub (traceExitRoutine w s)
      (atTraceExit c a (h.handler (traceExitRoutine w s)))).regs a3 = a := by
  obtain ⟨hat, hstored⟩ := atHandler_atTraceExit c a (h.handler (traceExitRoutine w s))
  rw [atStub, (atCall_before _ hat).a3, if_pos (isTrace_traceExitRoutine w s), hstored]

/-- Through a routine the host comes to the trace of the guest's next
instruction. -/
theorem LinkRun.followedTo {H : History} {c : Machine} (hbase : h.base = 0x01000000)
    (hlink : r.traceLinkingEnabled = true) (hr : r.Uninstrumented) (hcb : cb.KeepFrame)
    (hdepth : depth + 256 ≤ 2 ^ 64) (hrun : LinkRun h r cb elf x.dispatcher H)
    (hfits : x.dispatcher.cache.Fits) (ht : TracedTo elf D s D' s₁ w)
    (hexit : (x.dispatcher.cache.exits s₁.pc).isSome = true) (hagree : Agree D' s₁ c)
    (hreach : Reaches direct (x.dispatcher.cache.code h) x.machine
      (atTraceExit c s₁.pc (h.handler (traceExitRoutine w s₁))))
    (hgoes : ∀ a, x.dispatcher.left h a = guestExit h elf (s₁.pc.setWidth 32) →
      Continues h r cb io x.dispatcher (traceExitRoutine w s₁).taken a s₁ s')
    (hne : s'.pc ≠ 0) (hlow : s'.pc.toNat < 2 ^ 31) :
    ∃ k e, ExitCall h elf x.dispatcher ((atStub k e).regs a1) ((atStub k e).regs a3) ∧
      ∀ below, ∃ res,
        FollowedTo h r cb depth io x ⟨s', D' ∪ stackBelow depth s₁⟩ k e below res := by
  obtain ⟨⟨pc, hpc⟩, -⟩ := hrun.linked hbase hlink
  obtain ⟨hat, -⟩ := atHandler_atTraceExit c s₁.pc (h.handler (traceExitRoutine w s₁))
  have hexits : Exits direct (x.dispatcher.cache.code h) x.machine
      (atTraceExit c s₁.pc (h.handler (traceExitRoutine w s₁))) :=
    ⟨hreach, code_handler hfits _⟩
  have hleft := left_recorded (h := h) hpc ht.ne_zero hexit
  refine ⟨_, _, ?_, followedTo_of_exits hdepth hexits hat hagree rfl (traceExitRoutine_ne w s₁)
    (by rw [a3_atTraceExit]; exact hgoes _ hleft)
    fun hsucc => hrun.lands hbase hlink hr hcb hsucc hne hlow⟩
  rw [a3_atTraceExit]
  refine ⟨hexit, fun hop => ?_, fun hzero => absurd hzero ht.ne_zero⟩
  rw [fetch_of_guestCode ht.word] at hop
  exact absurd hop ht.not_jal

theorem TracedTurn.next {answer : Option (IoRequest → DWord)}
    (ht : TracedTurn elf depth answer g g') :
    g'.machine.pc ≠ 0 ∧ g'.machine.pc.toNat < 2 ^ 31 := by
  cases ht with
  | inst ht hstep hne hlow => exact ⟨hne, hlow⟩
  | @write io D D' s s₁ w ht hop hnumber =>
      have hlow := ht.low
      show s₁.pc + 4 ≠ 0 ∧ (s₁.pc + 4).toNat < 2 ^ 31
      refine ⟨?_, ?_⟩ <;> bv_omega

/-- Whatever trace the guest runs along, the host follows it to the next one
through a routine, unless a link leads there. -/
theorem Pursues.turn (hbase : h.base = 0x01000000) (hlink : r.traceLinkingEnabled = true)
    (hr : r.Uninstrumented) (hcb : cb.KeepFrame) (hdepth : depth + 256 ≤ 2 ^ 64)
    {answer : Option (IoRequest → DWord)} (hp : Pursues h r cb elf g x)
    (ht : TracedTurn elf depth answer g g') (hnear : ¬ OutOfReach x) :
    answer = none ∧ Pursues h r cb elf g' x ∨ TakesVisit h r cb elf depth x answer g' := by
  have hfits := fits_of_near hnear
  have hnext := ht.next
  obtain ⟨H, hrun⟩ := hp.reachable
  cases ht with
  | @inst D D' s s₁ s' w ht hstep hne hlow =>
      have hterm := ht.run.ends.1
      rw [fetch_of_guestCode ht.word] at hterm
      rcases hp.leaves hbase hlink hr hdepth ht hnear with ⟨hexit, c, hagree, hreach⟩ | ⟨-, hlinked⟩
      · refine .inr fun io _ => hrun.followedTo hbase hlink hr hcb hdepth hfits ht hexit hagree
          hreach (fun a hleft => ?_) hne hlow
        exact continues_traced hleft ht.word hterm ht.not_jal ht.leavable ht.low hstep hlow
      · exact .inl ⟨rfl, hlinked s' hstep hne hlow⟩
  | @write io D D' s s₁ w ht hop hnumber =>
      have hlow := ht.low
      rcases hp.leaves hbase hlink hr hdepth ht hnear with ⟨hexit, c, hagree, hreach⟩ | ⟨hop', -⟩
      · refine .inr fun io' hio => ?_
        obtain rfl := hio io rfl
        refine hrun.followedTo hbase hlink hr hcb hdepth hfits ht hexit hagree hreach
          (fun a hleft => ?_) hnext.1 hnext.2
        have hfetch := fetch_of_guestCode ht.word
        exact continues_write hcb (left_of_guestExit hleft hfetch
          (guestExit_system (by rw [hfetch]; exact hop))) hlow hnumber
      · exact absurd (hop.symm.trans hop') (by decide)

/-- The host can take such a turn. -/
theorem exists_linkedTurn {answer : Option (IoRequest → DWord)} (hnear : ¬ OutOfReach x)
    (hvisits : TakesVisit h r cb elf depth x answer g') :
    ∃ x', LinkedTurn h r cb depth answer x x' := by
  obtain ⟨io, hio⟩ : ∃ io, ∀ i, answer = some i → i = io := by
    cases answer with
    | none => exact ⟨fun _ => 0, fun _ hi => by cases hi⟩
    | some i => exact ⟨i, fun j hj => (Option.some.inj hj).symm⟩
  obtain ⟨k, e, -, hfollowed⟩ := hvisits io hio
  obtain ⟨res, hd⟩ := hfollowed 0
  obtain ⟨ret, hret, hval, hframe⟩ :=
    exists_returned depth (atStub k e) res.frame res.returnVal
  exact ⟨⟨execs direct ret restoreContext, res.dispatcher⟩, io, hio, k, e, 0, ret,
    res,
    fits_of_near hnear, hd.exits, hd.handler, hd.calls, hd.stub, hret, hval, hframe, rfl, rfl⟩

/-- However the host takes such a turn, it comes to where the guest goes. -/
theorem Pursues.visited (hbase : h.base = 0x01000000) (hlink : r.traceLinkingEnabled = true)
    (hr : r.Uninstrumented) {answer : Option (IoRequest → DWord)} (hp : Pursues h r cb elf g x)
    (ht : TracedTurn elf depth answer g g')
    (hvisits : TakesVisit h r cb elf depth x answer g')
    (hhost : LinkedTurn h r cb depth answer x x') :
    (x'.dispatcher.cache.Fits → Pursues h r cb elf g' x') ∧
      CallLands h r cb x.dispatcher x'.dispatcher g'.machine.pc := by
  obtain ⟨io, hio, k', e', below, ret, res', hvisit⟩ := hhost
  obtain ⟨k, e, hcall, hfollowed⟩ := hvisits io hio
  obtain ⟨res, hd⟩ := hfollowed below
  obtain ⟨rfl, rfl, rfl⟩ := hd.unique hvisit
  refine ⟨fun hfits => ?_, io, _, _, _, res', hd.stub, hvisit.dispatcher, hd.lands⟩
  obtain ⟨H, hrun⟩ := hp.reachable
  rw [hvisit.dispatcher] at hfits
  have hrun' := hrun.call hcall hd.stub hfits
  obtain ⟨b, hb, -, hstart⟩ := hd.lands.entered
  rw [← hvisit.dispatcher] at hrun' hb
  refine hrun'.pursues hbase hlink hr ht.next.1 ht.next.2 hb fun heven => ?_
  rw [hvisit.machine]
  exact hd.entered heven hvisit.returned (hvisit.returnVal.trans hstart) hvisit.frame

/-- The translated guest follows the guest from trace to trace, as long as the
links reach. -/
theorem shadows (hbase : h.base = 0x01000000) (hlink : r.traceLinkingEnabled = true)
    (hr : r.Uninstrumented) (hcb : cb.KeepFrame) (hdepth : depth + 256 ≤ 2 ^ 64) :
    Shadows (TracedTurn elf depth) (LinkedTurn h r cb depth) (· = none) OutOfReach
      (Pursues h r cb elf) where
  turn := by
    intro answer g g' x hp ht hnear
    rcases hp.turn hbase hlink hr hcb hdepth ht hnear with hstays | hvisits
    · exact .inl hstays
    refine .inr ⟨exists_linkedTurn hnear hvisits, ?_⟩
    intro x' hhost
    by_cases hnear' : OutOfReach x'
    · exact .inl hnear'
    · exact .inr ((hp.visited hbase hlink hr ht hvisits hhost).1 (fits_of_near hnear'))

/-! ### Runs -/

theorem TracedTurn.steps {answer : Option (IoRequest → DWord)}
    (ht : TracedTurn elf depth answer g g') :
    ∃ l, Steps (GuestStep elf) l g.machine g'.machine := by
  cases ht with
  | @inst _ _ s s₁ s' _ ht hstep =>
      obtain ⟨n, hrun⟩ := ht.run.reaches
      have hsteps : Steps (GuestStep elf) (List.replicate n fun _ => 0) s s₁ := steps_of_run hrun
      have hlast : Steps (GuestStep elf) [fun _ => 0] s₁ s' := .single (.inst hstep)
      exact ⟨_, hsteps.append hlast⟩
  | @write io _ _ s s₁ _ ht hop hnumber =>
      obtain ⟨n, hrun⟩ := ht.run.reaches
      have hsteps : Steps (GuestStep elf) (List.replicate n io) s s₁ := steps_of_run hrun
      exact ⟨_, hsteps.append (.single (.write ht.word hop hnumber))⟩

theorem steps_of_tracedTurns {l : List (Option (IoRequest → DWord))}
    (hturns : Steps (TracedTurn elf depth) l g g') :
    ∃ l', Steps (GuestStep elf) l' g.machine g'.machine := by
  induction hturns with
  | nil g => exact ⟨[], .nil g.machine⟩
  | cons hturn _ ih =>
      obtain ⟨l₁, hfirst⟩ := hturn.steps
      obtain ⟨l₂, hrest⟩ := ih
      exact ⟨_, hfirst.append hrest⟩

/-- Over every run, with any answers of the host: when the guest runs from `g`
to `g'`, trace by trace, the translated guest takes a visit for each turn that
ends with a `write`, and for any other turn takes one or passes on through words
of the cache alone, until more of the cache is used than the links reach. It is
then on its way to continue `g'`, with its registers and its memory outside the
bytes that have been spoiled. -/
theorem linked_run_followed (hbase : h.base = 0x01000000) (hlink : r.traceLinkingEnabled = true)
    (hr : r.Uninstrumented) (hcb : cb.KeepFrame) (hdepth : depth + 256 ≤ 2 ^ 64)
    (hp : Pursues h r cb elf g x) {l : List (Option (IoRequest → DWord))}
    (hturns : Steps (TracedTurn elf depth) l g g') :
    (∃ l', Steps (GuestStep elf) l' g.machine g'.machine) ∧
      Tracks (LinkedTurn h r cb depth) (· = none) OutOfReach (Pursues h r cb elf g') l x := by
  exact ⟨steps_of_tracedTurns hturns, (shadows hbase hlink hr hcb hdepth).tracks hp hturns⟩

/-- The guest runs along its trace to a system call by which it ends. -/
inductive TracedEnds (elf : ElfReader) (g : Guest) : Prop
  | exit {D' : Set DWord} {s₁ : Machine} {w : Word}
      (ht : TracedTo elf g.spoiled g.machine D' s₁ w) (hop : w.opcode = Opcode.system)
      (hnumber : s₁.regs 17 = SystemCall.exit ∨ s₁.regs 17 = SystemCall.exitGroup)

/-- The exit of the trace leads to `stub` with the guest's registers, and it finds
that the guest ends. -/
theorem Pursues.leave_exited (hbase : h.base = 0x01000000) (hlink : r.traceLinkingEnabled = true)
    (hr : r.Uninstrumented) (hcb : cb.KeepFrame) (hp : Pursues h r cb elf g x)
    (hnear : ¬ OutOfReach x) {D' : Set DWord} {s₁ : Machine} {w : Word}
    (ht : TracedTo elf g.spoiled g.machine D' s₁ w) (hop : w.opcode = Opcode.system)
    (hnumber : s₁.regs 17 = SystemCall.exit ∨ s₁.regs 17 = SystemCall.exitGroup)
    (below : DWord) :
    ∃ k e d, Exits direct (x.dispatcher.cache.code h) x.machine e ∧ e.pc = h.handler k ∧
      k ≠ .contextSwitchInstrument ∧ x.dispatcher.leave h r cb io (stubFrame k e below)
        ((atStub k e).regs a1) ((atStub k e).regs a3) = .exited (exitBinary r d) ∧
      FrameOf s₁ (stubFrame k e below) := by
  obtain ⟨H, hrun⟩ := hp.reachable
  obtain ⟨⟨pc, hpc⟩, -⟩ := hrun.linked hbase hlink
  have hdepth : 0 + 256 ≤ 2 ^ 64 := by decide
  rcases hp.leaves hbase hlink hr hdepth ht hnear with ⟨hexit, c, hagree, hreach⟩ | ⟨hop', -⟩
  · obtain ⟨hat, -⟩ := atHandler_atTraceExit c s₁.pc (h.handler (traceExitRoutine w s₁))
    have hfetch := fetch_of_guestCode ht.word
    have hleft : x.dispatcher.left h s₁.pc = leftAt h s₁.pc w .syscall :=
      left_of_guestExit (left_recorded hpc ht.ne_zero hexit) hfetch
        (guestExit_system (by rw [hfetch]; exact hop))
    have hframe := frameOf_stubFrame hat hagree (traceExitRoutine w s₁) below
    obtain ⟨d, hd⟩ := @leave_of_exit h r cb io x.dispatcher _
      ((atStub (traceExitRoutine w s₁) _).regs a1) _ _ _ hcb hleft hnumber hframe
    refine ⟨_, _, d, ⟨hreach, code_handler (fits_of_near hnear) _⟩, rfl,
      traceExitRoutine_ne w s₁, ?_, hframe⟩
    rw [a3_atTraceExit]
    exact hd
  · exact absurd (hop.symm.trans hop') (by decide)

theorem Pursues.ends (hbase : h.base = 0x01000000) (hlink : r.traceLinkingEnabled = true)
    (hr : r.Uninstrumented) (hcb : cb.KeepFrame) (hp : Pursues h r cb elf g x)
    (hnear : ¬ OutOfReach x) (hends : TracedEnds elf g) (below : DWord) :
    HostEnds h r cb io below x := by
  obtain ⟨ht, hop, hnumber⟩ := hends
  obtain ⟨k, e, d, hexits, hpc, hk, hleave, -⟩ :=
    hp.leave_exited hbase hlink hr hcb hnear ht hop hnumber below
  exact ⟨k, e, d, hexits, hpc, hk, stub_of_exited hleave⟩

/-- The process ends with the guest: after every run the translated guest ends
it through `exit_binary`, when the guest asks for it next. -/
theorem linked_process_ends (hbase : h.base = 0x01000000) (hlink : r.traceLinkingEnabled = true)
    (hr : r.Uninstrumented) (hcb : cb.KeepFrame) (hdepth : depth + 256 ≤ 2 ^ 64)
    (hp : Pursues h r cb elf g x) {l : List (Option (IoRequest → DWord))}
    (hturns : Steps (TracedTurn elf depth) l g g') (hends : TracedEnds elf g') :
    Tracks (LinkedTurn h r cb depth) (· = none) OutOfReach
      (fun x' => ∀ io below, HostEnds h r cb io below x') l x := by
  have htracks := (shadows hbase hlink hr hcb hdepth).tracks hp hturns
  exact htracks.mono fun x' hnear hp' io => hp'.ends hbase hlink hr hcb hnear hends

end Turn

/-! ### The first trace -/

section Entry

variable {h : Host} {r : Rail} {cb : Callbacks} {elf : ElfReader}
  {cfgGenerator : Option CfgGenerator} {a : RailArgs} {e : ElfFile} {depth : ℕ} {s : Machine}

/-- Behind `init_switch` the host is on its way to the trace of the entry. -/
theorem pursues_entry (hbase : h.base = 0x01000000) (hlink : r.traceLinkingEnabled = true)
    (hr : r.Uninstrumented) (hne : elf.entryAddr ≠ 0) (hlow : elf.entryAddr.toNat < 2 ^ 31)
    {f : TrapFrame} {ret : Machine}
    (hfits : (init h r cb (rootDispatcher h elf cfgGenerator) f).dispatcher.cache.Fits)
    (hval : ret.regs a0 = (init h r cb (rootDispatcher h elf cfgGenerator) f).returnVal) :
    Pursues h r cb elf ⟨guestEntry elf ret, ∅⟩
      ⟨execs direct ret initRestore,
        (init h r cb (rootDispatcher h elf cfgGenerator) f).dispatcher⟩ := by
  have hrun : LinkRun h r cb elf
      (init h r cb (rootDispatcher h elf cfgGenerator) f).dispatcher _ := .start hfits
  obtain ⟨b, hb⟩ := Option.isSome_iff_exists.mp (hrun.traces hbase hlink hr).entry
  exact hrun.pursues hbase hlink hr hne hlow hb fun heven =>
    entered_initRestore (hval.trans (returnVal_init hb)) heven

/-- From the first word of the cache the process arrives at the guest's first
instruction, in this mode as well: however `init` returns, the host is on its
way to the trace of a guest that stands at its entry. -/
theorem process_enters_trace (hbase : h.base = 0x01000000) (hlink : r.traceLinkingEnabled = true)
    (hr : r.Uninstrumented) (hne : elf.entryAddr ≠ 0) (hlow : elf.entryAddr.toNat < 2 ^ 31)
    (hpc : s.pc = h.base) (f : TrapFrame)
    (hfits : (init h r cb (rootDispatcher h elf cfgGenerator) f).dispatcher.cache.Fits) :
    ∃ c, Exits direct ((rootDispatcher h elf cfgGenerator).cache.code h) s c ∧
      c.pc = h.initSwitch ∧
      ∀ ret, InitReturned a e depth (execs direct c initSwitch) ret →
        ret.regs a0 = (init h r cb (rootDispatcher h elf cfgGenerator) f).returnVal →
        AtEntry a e elf depth s (guestEntry elf ret) ∧
          Pursues h r cb elf ⟨guestEntry elf ret, ∅⟩
            ⟨execs direct ret initRestore,
              (init h r cb (rootDispatcher h elf cfgGenerator) f).dispatcher⟩ := by
  obtain ⟨c, hexits, hc, hstart, hsame⟩ := exits_root h elf hpc
  exact ⟨c, hexits, hc, fun ret hret hval =>
    ⟨atEntry_guestEntry hstart hsame hret, pursues_entry hbase hlink hr hne hlow hfits hval⟩⟩

end Entry

/-! ### Two guests with traces -/

/-- `addi x5, x5, 1; beq x0, x0, -4`, and a word behind it. -/
def loopingText : ElfReader := .ofWords 0x10000 [0x00128293, 0xfe000ee3, 0x00000013]

/-- `beq x0, x0, 8; nop; addi x17, x0, 93; ecall`, and a word behind it. -/
def skippingText : ElfReader :=
  .ofWords 0x10000 [0x00000463, 0x00000013, 0x05d00893, 0x00000073, 0x00000013]

def firstTraced (elf : ElfReader) : HostState := ⟨loadGuest 0x01000010, started (.plain true) elf⟩

theorem pursues_first {elf : ElfReader} (hfits : (started (.plain true) elf).cache.Fits)
    (hstart : ((started (.plain true) elf).cache.railBasicBlocks 0x10000).map
      (·.startLocationInCache) = some 0x01000010) :
    Pursues requestedHost (.plain true) idleCallbacks elf firstGuest (firstTraced elf) := by
  obtain ⟨b, hb, hloc⟩ := Option.map_eq_some_iff.mp hstart
  have hrun : LinkRun requestedHost (.plain true) idleCallbacks elf
      (firstTraced elf).dispatcher _ := .start hfits
  refine hrun.pursues rfl rfl (Rail.uninstrumented_plain true) (by decide) (by decide) hb fun _ => ?_
  rw [hloc]
  exact entered_loadGuest

theorem tracedTo_addi {elf : ElfReader} (D : Set DWord) {s : Machine} {v w : Word} {rd rs1 : Reg}
    {imm pc : DWord} (hv : elf.guestCode s.pc = some v)
    (hdec : Instr.decode v = some (.opImm .add rd rs1 imm)) (hpc : s.pc + 4 = pc)
    (hw : elf.guestCode pc = some w) (hterm : IsTerminal w) (hjal : w.opcode ≠ Opcode.jal)
    (hleave : Leavable ((Instr.opImm .add rd rs1 imm).exec relocate s) w)
    (hbranch : w.opcode = Opcode.branch → w.rs1 ≠ sp ∧ w.rs2 ≠ sp) (hli : liValue pc = pc)
    (hne : pc ≠ 0) (hlow : pc.toNat + 4 < 2 ^ 31) :
    TracedTo elf D s (spoil D s (.opImm .add rd rs1 imm))
      ((Instr.opImm .add rd rs1 imm).exec relocate s) w := by
  have haddi := undisturbed_addi Agreeable D s rd rs1 imm
  have hpc₁ : ((Instr.opImm .add rd rs1 imm).exec relocate s).pc = pc := by
    rw [Instr.pc_exec relocate haddi.straight, hpc]
  have hfetch := fetch_of_guestCode hw
  refine ⟨.inst hv hdec haddi (.stop ?_ (fun hop => ?_) ?_ ?_), ?_, hjal, hleave, hbranch, ?_, ?_⟩
  · rw [hpc₁, hfetch]
    exact hterm
  · rw [hpc₁, hfetch] at hop
    exact absurd hop hjal
  · rw [hpc₁, hfetch]
    exact hleave.stable
  · rw [hpc₁, hli]
  · rw [hpc₁, hw]
  · rwa [hpc₁]
  · rwa [hpc₁]

theorem turn_looping {g : Guest} (hpc : g.machine.pc = 0x10000) : ∃ g',
    g'.machine.pc = 0x10000 ∧ g'.machine.regs 5 = g.machine.regs 5 + 1 ∧
      TracedTurn loopingText 0 none g g' := by
  obtain ⟨s, D⟩ := g
  have hadd : loopingText.guestCode s.pc = some 0x00128293 := by
    rw [hpc]
    decide +kernel
  have hadd' : Instr.decode 0x00128293 = some (.opImm .add 5 5 1) := by decide +kernel
  have hbranch : loopingText.guestCode 0x10004 = some 0xfe000ee3 := by decide +kernel
  have hbranch' : Instr.decode 0xfe000ee3 = some (.branch .beq 0 0 (-4)) := by decide +kernel
  have hnext : s.pc + 4 = 0x10004 := by
    rw [hpc]
    decide
  have hto := tracedTo_addi D hadd hadd' hnext hbranch (.inl (by decide)) (by decide)
    ⟨fun _ => ⟨.beq, 0, 0, -4, hbranch', rfl⟩, fun _ => by decide,
      fun hop => absurd hop (by decide)⟩
    (fun _ => by decide) (by decide +kernel) (by decide) (by decide)
  have hpc₁ : ((Instr.opImm .add 5 5 1).exec relocate s).pc = 0x10004 := hnext
  have hback : (Instr.branch .beq 0 0 (-4)).exec relocate
      ((Instr.opImm .add 5 5 1).exec relocate s) =
        ((Instr.opImm .add 5 5 1).exec relocate s).goto 0x10000 := by
    have htarget : (0x10004 : DWord) + (-4 : BitVec 13).signExtend 64 = 0x10000 := by decide
    have hholds (v : DWord) : BranchOp.beq.holds v v = true := beq_self_eq_true v
    rw [Instr.exec, if_pos (hholds _), hpc₁, htarget]
  refine ⟨⟨((Instr.opImm .add 5 5 1).exec relocate s).goto 0x10000, _⟩, rfl, ?_,
    .inst hto ((step_eq (by rw [hpc₁]; exact hbranch) hbranch').trans (congrArg some hback))
      (by rw [Machine.pc_goto]; decide) (by rw [Machine.pc_goto]; decide)⟩
  exact Regs.set_same _ _ (by decide)

/-- Two rounds of the loop are followed. -/
theorem looping_followed : ∃ g', g'.machine.regs 5 = 2 ∧
    Tracks (LinkedTurn requestedHost (.plain true) idleCallbacks 0) (· = none) OutOfReach
      (Pursues requestedHost (.plain true) idleCallbacks loopingText g') [none, none]
      (firstTraced loopingText) := by
  obtain ⟨g₁, hpc₁, hregs₁, hturn₁⟩ := @turn_looping firstGuest rfl
  obtain ⟨g₂, -, hregs₂, hturn₂⟩ := turn_looping hpc₁
  have hfirst : firstGuest.machine.regs 5 = 0 := by decide +kernel
  refine ⟨g₂, by rw [hregs₂, hregs₁, hfirst]; rfl, ?_⟩
  exact (linked_run_followed rfl rfl (Rail.uninstrumented_plain true) keepFrame_idleCallbacks
    (by decide) (@pursues_first loopingText (by rw [CodeCache.Fits]; decide +kernel)
      (by decide +kernel)) (.cons hturn₁ (.single hturn₂))).2

theorem exec_skipping {s : Machine} (hpc : s.pc = 0x10000) :
    (Instr.branch .beq 0 0 8).exec relocate s = s.goto 0x10008 := by
  have htarget : (0x10000 : DWord) + (8 : BitVec 13).signExtend 64 = 0x10008 := by decide
  have hholds (v : DWord) : BranchOp.beq.holds v v = true := beq_self_eq_true v
  rw [Instr.exec, if_pos (hholds _), hpc, htarget]

theorem turn_skipping {g : Guest} (hpc : g.machine.pc = 0x10000) :
    ∃ g', g'.machine.pc = 0x10008 ∧ TracedTurn skippingText 0 none g g' := by
  obtain ⟨s, D⟩ := g
  have hbranch : skippingText.guestCode s.pc = some 0x00000463 := by
    rw [hpc]
    decide +kernel
  have hbranch' : Instr.decode 0x00000463 = some (.branch .beq 0 0 8) := by decide +kernel
  have hfetch := fetch_of_guestCode hbranch
  have hto : TracedTo skippingText D s D s 0x00000463 := by
    refine ⟨.stop ?_ (fun hop => ?_) ?_ ?_, hbranch, by decide, ⟨fun _ => ?_, fun _ => by decide,
      fun hop => absurd hop (by decide)⟩, fun _ => by decide, ?_, ?_⟩
    · rw [hfetch]
      exact .inl (by decide)
    · rw [hfetch] at hop
      exact absurd hop (by decide)
    · rw [hfetch]
      exact fun _ => ⟨.beq, 0, 0, 8, hbranch', rfl⟩
    · rw [hpc]
      decide +kernel
    · exact ⟨.beq, 0, 0, 8, hbranch', rfl⟩
    · rw [hpc]
      decide
    · rw [hpc]
      decide
  exact ⟨⟨s.goto 0x10008, _⟩, rfl,
    .inst hto ((step_eq hbranch hbranch').trans (congrArg some (exec_skipping hpc)))
      (by rw [Machine.pc_goto]; decide) (by rw [Machine.pc_goto]; decide)⟩

/-- With traces too, the process is ended when the guest asks for it behind the
branch. -/
theorem skipping_ends : ∃ g', TracedTurn skippingText 0 none firstGuest g' ∧
    Tracks (LinkedTurn requestedHost (.plain true) idleCallbacks 0) (· = none) OutOfReach
      (fun x' => ∀ io below, HostEnds requestedHost (.plain true) idleCallbacks io below x') [none]
      (firstTraced skippingText) := by
  obtain ⟨g', hpc, hturn⟩ := @turn_skipping firstGuest rfl
  have hload : skippingText.guestCode g'.machine.pc = some 0x05d00893 := by
    rw [hpc]
    decide +kernel
  have hload' : Instr.decode 0x05d00893 = some (.opImm .add 17 0 93) := by decide +kernel
  have hcall : skippingText.guestCode 0x1000c = some 0x00000073 := by decide +kernel
  have hnext : g'.machine.pc + 4 = 0x1000c := by
    rw [hpc]
    decide
  have hto := tracedTo_addi g'.spoiled hload hload' hnext hcall
    (.inr (.inr (.inr (by decide)))) (by decide)
    ⟨fun hop => absurd hop (by decide), fun hop => absurd hop (by decide),
      fun hop => absurd hop (by decide)⟩
    (fun hop => absurd hop (by decide)) (by decide +kernel) (by decide) (by decide)
  exact ⟨g', hturn, linked_process_ends rfl rfl (Rail.uninstrumented_plain true)
    keepFrame_idleCallbacks (by decide)
    (@pursues_first skippingText (by rw [CodeCache.Fits]; decide +kernel) (by decide +kernel))
    (.single hturn) (.exit hto (by decide) (.inl (number_addi g'.machine)))⟩

theorem looping_enters : ∃ ret, AtEntry oneArg blankFile loopingText 0 (loadGuest 0x01000000)
      (guestEntry loopingText ret) ∧
    Pursues requestedHost (.plain true) idleCallbacks loopingText ⟨guestEntry loopingText ret, ∅⟩
      ⟨execs direct ret initRestore, started (.plain true) loopingText⟩ := by
  have hentry : loopingText.entryAddr = 0x10000 := by decide +kernel
  obtain ⟨c, -, -, henter⟩ := @process_enters_trace requestedHost (.plain true) idleCallbacks
    loopingText none oneArg blankFile 0 (loadGuest 0x01000000) rfl rfl
    (Rail.uninstrumented_plain true) (by rw [hentry]; decide) (by rw [hentry]; decide) rfl
    (fun _ => 0) (by rw [CodeCache.Fits]; decide +kernel)
  obtain ⟨ret, hret, hval⟩ := @exists_initReturned oneArg blankFile
    (by rw [length_stackWords]; decide) 0 (execs direct c initSwitch) _
  exact ⟨ret, henter ret hret hval⟩

end RailTranslator
