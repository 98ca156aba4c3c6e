import RailTranslator.Constants
import RailTranslator.FittingRuns
import RailTranslator.ObservedRuns

/-!
Guests that run under every rail.

Where a block ends depends on the routines that are registered, and so do the
turns of the guest and the bytes that its translation spoils. Here the guest
runs instruction by instruction, under conditions that name no rail, with as
much spoiled as if a routine stood behind every instruction. Such a run is cut
into the turns of any rail, and so every rail runs the guest to the same end.
-/

namespace RailTranslator

open Rv64 Transition

/-! ### The guest -/

/-- The guest takes one instruction, or a `write`. -/
inductive GuestGoes (ok : Instr → Prop) (elf : ElfReader) (depth : ℕ) (io : IoRequest → DWord) :
    Guest → Guest → Prop
  /-- An instruction inside a block. -/
  | straight {D : Set DWord} {s : Machine} {w : Word} {i : Instr} (hw : elf.guestCode s.pc = some w)
      (hdec : Instr.decode w = some i) (hi : Undisturbed ok D s i)
      (hlow : s.pc.toNat + 4 < 2 ^ 31) :
      GuestGoes ok elf depth io ⟨s, D⟩
        ⟨i.exec relocate s, spoil D s i ∪ stackBelow depth (i.exec relocate s)⟩
  /-- An instruction that leaves its block. -/
  | leaves {D : Set DWord} {s s' : Machine} {w : Word} (hw : elf.guestCode s.pc = some w)
      (hterm : IsTerminal w) (hleave : Leavable s w) (hlow : s.pc.toNat + 4 < 2 ^ 31)
      (hstep : GuestStep elf io s s') (hne : s'.pc ≠ 0) (hlow' : s'.pc.toNat < 2 ^ 31) :
      GuestGoes ok elf depth io ⟨s, D⟩ ⟨s', D ∪ stackBelow depth s⟩

structure AsksToEnd (elf : ElfReader) (s : Machine) : Prop where
  system : ∃ w, elf.guestCode s.pc = some w ∧ w.opcode = Opcode.system
  number : s.regs 17 = SystemCall.exit ∨ s.regs 17 = SystemCall.exitGroup
  low : s.pc.toNat + 4 < 2 ^ 31

/-! ### One more instruction -/

section Snoc

variable {ok ok' : Instr → Prop} {elf : ElfReader} {r : Rail} {D E : Set DWord} {n : ℕ}
  {s₀ s : Machine} {w : Word} {i : Instr} {code : Code}

theorem spillArea_mono (hD : D ⊆ E) : spillArea D s i ⊆ spillArea E s i := by
  rintro x (hx | hx)
  · exact .inl (hD hx)
  · exact .inr hx

theorem spoil_mono (hD : D ⊆ E) : spoil D s i ⊆ spoil E s i :=
  Set.sdiff_subset_sdiff_left (spillArea_mono hD)

/-- With less spoiled and less demanded an instruction is undisturbed all the more. -/
theorem Undisturbed.mono (hi : Undisturbed ok E s i) (hD : D ⊆ E) (hok : ∀ i, ok i → ok' i) :
    Undisturbed ok' D s i where
  straight := hi.straight
  constant := hi.constant
  operands hspills := by
    obtain ⟨hsp, hscratch, hoki⟩ := hi.operands hspills
    exact ⟨hsp, hscratch, hok i hoki⟩
  stores := hi.stores
  loads haccess hload := (hi.loads haccess hload).imp_right fun hdisj =>
    hdisj.mono_right (spillArea_mono hD)

theorem run_snoc (hrun : run relocate code n s₀ = some s) (hw : code s.pc = some w)
    (hdec : Instr.decode w = some i) :
    run relocate code (n + 1) s₀ = some (i.exec relocate s) := by
  rw [run_add, hrun, Option.bind_some, run, step_eq hw hdec]
  rfl

theorem spoiledBy_snoc (hrun : run relocate code n s₀ = some s) (hw : code s.pc = some w)
    (hdec : Instr.decode w = some i) :
    spoiledBy code (n + 1) D s₀ = spoil (spoiledBy code n D s₀) s i := by
  induction n generalizing D s₀ with
  | zero =>
      obtain rfl : s₀ = s := Option.some.inj hrun
      simp only [spoiledBy, hw, Option.bind_some, hdec]
  | succ n ih =>
      obtain ⟨w₀, i₀, hw₀, hdec₀, hrest⟩ := exists_of_run_succ hrun
      have hrec := @ih (spoil D s₀ i₀) _ hrest
      rw [spoiledBy]
      simp only [spoiledBy, hw₀, Option.bind_some, hdec₀] at hrec ⊢
      exact hrec

theorem undisturbedRun_snoc (hund : UndisturbedRun ok code n D s₀)
    (hrun : run relocate code n s₀ = some s) (hw : code s.pc = some w)
    (hdec : Instr.decode w = some i) (hi : Undisturbed ok (spoiledBy code n D s₀) s i) :
    UndisturbedRun ok code (n + 1) D s₀ := by
  induction n generalizing D s₀ with
  | zero =>
      obtain rfl : s₀ = s := Option.some.inj hrun
      intro w' i' hw' hdec'
      obtain rfl := Option.some.inj (hw.symm.trans hw')
      obtain rfl := Option.some.inj (hdec.symm.trans hdec')
      exact ⟨hi, trivial⟩
  | succ n ih =>
      obtain ⟨w₀, i₀, hw₀, hdec₀, hrest⟩ := exists_of_run_succ hrun
      simp only [spoiledBy, hw₀, Option.bind_some, hdec₀] at hi
      intro w' i' hw' hdec'
      obtain rfl := Option.some.inj (hw₀.symm.trans hw')
      obtain rfl := Option.some.inj (hdec₀.symm.trans hdec')
      obtain ⟨hfirst, hund'⟩ := hund _ _ hw₀ hdec₀
      exact ⟨hfirst, ih hund' hrest hi⟩

theorem unbroken_snoc (hund : UndisturbedRun ok elf.guestCode n D s₀)
    (hrun : run relocate elf.guestCode n s₀ = some s)
    (hunbroken : Unbroken r elf n (s₀.pc.setWidth 32))
    (hon : segmentsBB r (s.pc.setWidth 32) (elf.fetch (s.pc.setWidth 32)) = false) :
    Unbroken r elf (n + 1) (s₀.pc.setWidth 32) := by
  induction n generalizing D s₀ with
  | zero =>
      obtain rfl : s₀ = s := Option.some.inj hrun
      exact ⟨hon, trivial⟩
  | succ n ih =>
      obtain ⟨w₀, i₀, hw₀, hdec₀, hrest⟩ := exists_of_run_succ hrun
      obtain ⟨hfirst, hund'⟩ := hund w₀ i₀ hw₀ hdec₀
      have hpc : (i₀.exec relocate s₀).pc.setWidth 32 = s₀.pc.setWidth 32 + 4 := by
        rw [Instr.pc_exec relocate hfirst.straight, BitVec.setWidth_add _ _ (by decide)]
        rfl
      refine ⟨hunbroken.1, ?_⟩
      rw [← hpc]
      exact ih hund' hrest (by rw [hpc]; exact hunbroken.2)

end Snoc

/-! ### Turns -/

section Turns

variable {ok : Instr → Prop} {r : Rail} {elf : ElfReader} {depth : ℕ} {io : IoRequest → DWord}
  {S : Finset DWord} {g g' : Guest}

/-- The guest goes on to an address in `S`. -/
def GoesWithin (ok : Instr → Prop) (elf : ElfReader) (depth : ℕ) (S : Finset DWord)
    (io : IoRequest → DWord) (g g' : Guest) : Prop :=
  GuestGoes ok elf depth io g g' ∧ g'.machine.pc ∈ S

theorem AsksToEnd.hasBlock {s : Machine} (hs : AsksToEnd elf s) :
    HasBlock r elf (s.pc.setWidth 32) := by
  obtain ⟨w, hw, hop⟩ := hs.system
  have hterm : IsTerminal w := .inr (.inr (.inr hop))
  refine .ends ?_ (.inr (.inl ?_)) <;> rw [fetch_of_guestCode hw]
  · exact ne_zero_of_isTerminal hterm
  · exact hterm

theorem GuestGoes.hasBlock (hgoes : GuestGoes ok elf depth io g g')
    (hnext : HasBlock r elf (g'.machine.pc.setWidth 32)) :
    HasBlock r elf (g.machine.pc.setWidth 32) := by
  cases hgoes with
  | @straight D s w i hw hdec hi _ =>
      have hpc : (i.exec relocate s).pc.setWidth 32 = s.pc.setWidth 32 + 4 := by
        rw [Instr.pc_exec relocate hi.straight, BitVec.setWidth_add _ _ (by decide)]
        rfl
      refine .straight ?_ (hpc ▸ hnext)
      rw [fetch_of_guestCode hw]
      exact ne_zero_of_decode hdec
  | leaves hw hterm =>
      refine .ends ?_ (.inr (.inl ?_)) <;> rw [fetch_of_guestCode hw]
      · exact ne_zero_of_isTerminal hterm
      · exact hterm

theorem GuestGoes.ne_zero (hgoes : GuestGoes ok elf depth io g g') : g'.machine.pc ≠ 0 := by
  cases hgoes with
  | straight _ _ hi hlow =>
      show (Instr.exec _ _ _).pc ≠ 0
      rw [Instr.pc_exec relocate hi.straight]
      bv_omega
  | leaves _ _ _ _ _ hne _ => exact hne

theorem GuestGoes.low (hgoes : GuestGoes ok elf depth io g g') :
    g'.machine.pc.toNat < 2 ^ 31 := by
  cases hgoes with
  | straight _ _ hi hlow =>
      show (Instr.exec _ _ _).pc.toNat < 2 ^ 31
      rw [Instr.pc_exec relocate hi.straight]
      bv_omega
  | leaves _ _ _ _ _ _ hlow' => exact hlow'

/-- The block that begins at `p` has been run as far as `g`. -/
def RunTo (r : Rail) (elf : ElfReader) (p g : Guest) : Prop :=
  ∃ n, RunsOn r elf n p.spoiled p.machine g.machine ∧
    spoiledBy elf.guestCode n p.spoiled p.machine ⊆ g.spoiled

theorem runTo_begun {s : Machine} {D E : Set DWord} (hD : D ⊆ E) : RunTo r elf ⟨s, D⟩ ⟨s, E⟩ :=
  ⟨0, ⟨rfl, trivial, trivial⟩, hD⟩

/-- An instruction goes on with the turn, or it ends it. -/
theorem RunTo.goes {p : Guest} (hp : RunTo r elf p g) (hgoes : GoesWithin ok elf depth S io g g')
    (hblock : HasBlock r elf (g'.machine.pc.setWidth 32)) :
    RunTo r elf p g' ∨ ∃ io' p', (∀ i, some io' = some i → i = io) ∧
      TurnWithin r elf depth S io' p p' ∧ RunTo r elf p' g' := by
  have hsame (i : IoRequest → DWord) (hi : some io = some i) : i = io := (Option.some.inj hi).symm
  obtain ⟨s₀, D₀⟩ := p
  obtain ⟨n, hrun, hspoiled⟩ := hp
  obtain ⟨hgoes, hin⟩ := hgoes
  have hnext : Enterable r elf g'.machine.pc := ⟨hgoes.ne_zero, hgoes.low, hblock⟩
  cases hgoes with
  | @straight D s w i hw hdec hi hlow =>
      have hi' : Undisturbed (fun _ => True) (spoiledBy elf.guestCode n D₀ s₀) s i :=
        hi.mono hspoiled fun _ _ => trivial
      have hrun' := run_snoc hrun.run hw hdec
      have hund := undisturbedRun_snoc hrun.undisturbed hrun.run hw hdec hi'
      have hbehind : spoiledBy elf.guestCode (n + 1) D₀ s₀ ⊆ spoil D s i := by
        rw [spoiledBy_snoc hrun.run hw hdec]
        exact spoil_mono hspoiled
      rcases hcut : segmentsBB r (s.pc.setWidth 32) w with _ | _
      · have hunbroken := unbroken_snoc hrun.undisturbed hrun.run hrun.unbroken
          (by rwa [fetch_of_guestCode hw])
        exact .inl ⟨n + 1, ⟨hrun', hund, hunbroken⟩, hbehind.trans Set.subset_union_left⟩
      · exact .inr ⟨io, _, hsame, ⟨.cut hrun hw hcut hlow hrun' hund hnext, hin⟩,
          runTo_begun (Set.union_subset_union_left _ hbehind)⟩
  | leaves hw hterm hleave hlow hstep _ _ =>
      exact .inr ⟨io, _, hsame, ⟨.ended hrun hw hterm hleave hlow hstep hnext, hin⟩,
        runTo_begun (Set.union_subset_union_left _ hspoiled)⟩

/-- A run of the guest that comes to its end is one of turns, under every rail. -/
theorem turns_of_goes {s : Machine} {D : Set DWord} {l : List (IoRequest → DWord)}
    (hgoes : Steps (GoesWithin ok elf depth S) l ⟨s, D⟩ g') (hasks : AsksToEnd elf g'.machine) :
    ∃ l' p, l'.Sublist l ∧ Steps (TurnWithin r elf depth S) l' ⟨s, D⟩ p ∧
      HasBlock r elf (s.pc.setWidth 32) ∧ RunTo r elf p g' := by
  obtain ⟨hsteps, hblock⟩ := hgoes.backward
    (Q := fun g => HasBlock r elf (g.machine.pc.setWidth 32)) (fun hstep hnext =>
      hstep.1.hasBlock hnext) hasks.hasBlock
  obtain ⟨l', p, hsub, hturns, hpart⟩ := hsteps.cut (f := some)
    (fun hp hstep => hp.goes hstep.1 hstep.2) (runTo_begun subset_rfl)
  rw [List.filterMap_some] at hsub
  exact ⟨l', p, hsub, hturns, hblock, hpart⟩

end Turns

/-! ### Every rail -/

/-- The process is about to enter the guest, whose registers, counter and memory
are `s₀`. -/
def StartsAt (h : Host) (r : Rail) (cb : Callbacks) (elf : ElfReader)
    (cfgGenerator : Option CfgGenerator) (s₀ : Machine) (x : HostState) : Prop :=
  ∃ f ret, guestEntry elf ret = s₀ ∧
    ret.regs a0 = (init h r cb (rootDispatcher h elf cfgGenerator) f).returnVal ∧
    x = ⟨execs direct ret initRestore,
      (init h r cb (rootDispatcher h elf cfgGenerator) f).dispatcher⟩

/-- A process without traces that starts there, with a cache that is large
enough for the blocks of `S`. -/
structure RunsBlocks (h : Host) (r : Rail) (cb : Callbacks) (elf : ElfReader)
    (cfgGenerator : Option CfgGenerator) (S : Finset DWord) (s₀ : Machine) (x : HostState) :
    Prop where
  starts : StartsAt h r cb elf cfgGenerator s₀ x
  link : r.traceLinkingEnabled = false
  noTypedPre : r.NoTypedPre
  keepFrame : cb.KeepFrame
  fits : cacheUse h r elf S ≤ cacheSize / 4

theorem StartsAt.paid {h : Host} {r : Rail} {cb : Callbacks} {elf : ElfReader}
    {cfgGenerator : Option CfgGenerator} {s₀ : Machine} {x : HostState}
    (hx : StartsAt h r cb elf cfgGenerator s₀ x) (S : Finset DWord) :
    PaidWithin h r elf S x.dispatcher := by
  obtain ⟨f, ret, -, -, rfl⟩ := hx
  exact @paidWithin_init h r cb elf cfgGenerator S f

/-- The process ends through `exit_binary`, with the registers of the guest `s`
in the frame. -/
def EndsWith (h : Host) (r : Rail) (cb : Callbacks) (io : IoRequest → DWord) (below : DWord)
    (x : HostState) (s : Machine) : Prop :=
  ∃ k e d, Exits direct (x.dispatcher.cache.code h) x.machine e ∧ e.pc = h.handler k ∧
    stub h r cb io x.dispatcher (stubFrame k e below) ((atStub k e).regs a1)
      ((atStub k e).regs a3) = .exited (exitBinary r d) ∧ FrameOf s (stubFrame k e below)

/-- The host has a run with the answers `l` from `x`, and every such run ends
with the guest's registers. -/
structure Completes (h : Host) (r : Rail) (cb : Callbacks) (depth : ℕ)
    (l : List (IoRequest → DWord)) (x : HostState) (s : Machine) : Prop where
  runs : ∃ y, Steps (HostTurn h r cb depth) l x y
  ends : ∀ y, Steps (HostTurn h r cb depth) l x y → ∀ io below, EndsWith h r cb io below y s

section Rails

variable {ok : Instr → Prop} {h h' : Host} {r r' : Rail} {cb cb' : Callbacks} {elf : ElfReader}
  {depth : ℕ} {cfgGenerator cfgGenerator' : Option CfgGenerator} {S : Finset DWord} {s₀ : Machine}
  {x x' : HostState} {g' : Guest} {l : List (IoRequest → DWord)}

theorem RunsBlocks.simulates (hx : RunsBlocks h r cb elf cfgGenerator S s₀ x)
    (hne : elf.entryAddr ≠ 0) (hlow : elf.entryAddr.toNat < 2 ^ 31)
    (hblock : HasBlock r elf (s₀.pc.setWidth 32)) :
    Simulates h r cb elf cfgGenerator ⟨s₀, ∅⟩ x := by
  obtain ⟨f, ret, rfl, hval, rfl⟩ := hx.starts
  exact @simulates_entry h r cb elf cfgGenerator ret hx.link hx.noTypedPre ⟨hne, hlow, hblock⟩ f
    hval

/-- A run of the guest from its entry to its end is made by the host. -/
theorem RunsBlocks.ends (hx : RunsBlocks h r cb elf cfgGenerator S s₀ x)
    (hdepth : depth + 256 ≤ 2 ^ 64) (hne : elf.entryAddr ≠ 0) (hlow : elf.entryAddr.toNat < 2 ^ 31)
    (hgoes : Steps (GoesWithin ok elf depth S) l ⟨s₀, ∅⟩ g') (hasks : AsksToEnd elf g'.machine) :
    ∃ l', l'.Sublist l ∧ Completes h r cb depth l' x g'.machine := by
  obtain ⟨l', p, hsub, hturns, hblock, n, hguest, -⟩ := turns_of_goes (r := r) hgoes hasks
  have hfirst := hx.simulates hne hlow hblock
  have hpaid := hx.starts.paid S
  have hfollows := @follows_within h r cb depth elf cfgGenerator S hx.link hx.noTypedPre
    hx.keepFrame hdepth hx.fits
  refine ⟨l', hsub, hfollows.exists_run ⟨hfirst, hpaid⟩ hturns, fun y hhost io below => ?_⟩
  obtain ⟨hsim, hpaid'⟩ := hfollows.related ⟨hfirst, hpaid⟩ hturns hhost
  obtain ⟨w, hw, hop⟩ := hasks.system
  obtain ⟨k, e, d, hexits, hpc, -, hleave, hframe⟩ := @Simulates.leave_exited h r cb io elf _ p y
    hx.link hx.noTypedPre hx.keepFrame hsim (hpaid'.length_le.trans hx.fits) n g'.machine w hguest
    hw hop hasks.number hasks.low below
  exact ⟨k, e, d, hexits, hpc, stub_of_exited hleave, hframe⟩

/-- Routines do not change what the guest does: two processes that start with the
same guest, whatever routines they have, end with the same registers, when the
guest runs to its end under conditions that name no routine. Each takes its own
turns, with answers of the guest's in their order. -/
theorem routines_transparent (hdepth : depth + 256 ≤ 2 ^ 64) (hne : elf.entryAddr ≠ 0)
    (hlow : elf.entryAddr.toNat < 2 ^ 31)
    (hgoes : Steps (GoesWithin ok elf depth S) l ⟨s₀, ∅⟩ g') (hasks : AsksToEnd elf g'.machine)
    (hx : RunsBlocks h r cb elf cfgGenerator S s₀ x)
    (hx' : RunsBlocks h' r' cb' elf cfgGenerator' S s₀ x') :
    ∃ l₁ l₂, l₁.Sublist l ∧ l₂.Sublist l ∧ Completes h r cb depth l₁ x g'.machine ∧
      Completes h' r' cb' depth l₂ x' g'.machine := by
  obtain ⟨l₁, hsub, hends⟩ := hx.ends hdepth hne hlow hgoes hasks
  obtain ⟨l₂, hsub', hends'⟩ := hx'.ends hdepth hne hlow hgoes hasks
  exact ⟨l₁, l₂, hsub, hsub', hends, hends'⟩

end Rails

/-! ### Traces -/

/-- The guest goes on within `S`, with so many jumps that its trace still
follows. A trace is not left with a `jal`. -/
inductive TraceGoes (elf : ElfReader) (depth : ℕ) (S : Finset DWord) (io : IoRequest → DWord) :
    Guest × ℕ → Guest × ℕ → Prop
  | straight {g g' : Guest} {k : ℕ} (hgoes : GoesWithin Agreeable elf depth S io g g')
      (hword : ¬ IsTerminal (elf.fetch (g.machine.pc.setWidth 32))) :
      TraceGoes elf depth S io (g, k) (g', k)
  | jump {g g' : Guest} {k : ℕ} (hgoes : GoesWithin Agreeable elf depth S io g g')
      (hop : (elf.fetch (g.machine.pc.setWidth 32)).opcode = Opcode.jal)
      (heven : g.machine.pc.getLsbD 0 = false) : TraceGoes elf depth S io (g, k + 1) (g', k)
  | leaves {g g' : Guest} {k : ℕ} (hgoes : GoesWithin Agreeable elf depth S io g g')
      (hterm : IsTerminal (elf.fetch (g.machine.pc.setWidth 32)))
      (hop : (elf.fetch (g.machine.pc.setWidth 32)).opcode ≠ Opcode.jal)
      (hbranch : (elf.fetch (g.machine.pc.setWidth 32)).opcode = Opcode.branch →
        (elf.fetch (g.machine.pc.setWidth 32)).rs1 ≠ sp ∧
          (elf.fetch (g.machine.pc.setWidth 32)).rs2 ≠ sp)
      (heven : g.machine.pc.getLsbD 0 = false) :
      TraceGoes elf depth S io (g, k) (g', jumpsFollowed elf g'.machine.pc)

/-- The trace that begins at `p` has been run as far as `q`, and follows so many
more jumps. -/
structure TracedAsFar (elf : ElfReader) (p : Guest) (q : Guest × ℕ) : Prop where
  ne_zero : q.1.machine.pc ≠ 0
  run : ∃ E ⊆ q.1.spoiled, ∀ D' s', TraceRun elf q.2 E q.1.machine D' s' →
    TraceRun elf (jumpsFollowed elf p.machine.pc) p.spoiled p.machine D' s'

section Traces

variable {elf : ElfReader} {depth : ℕ} {S : Finset DWord} {io : IoRequest → DWord}
  {p g g' : Guest} {q q' : Guest × ℕ} {l : List (IoRequest → DWord)}

theorem liValue_of_even {x : DWord} (heven : x.getLsbD 0 = false) (hlow : x.toNat < 2 ^ 31) :
    liValue x = x :=
  liValue_eq_iff.mpr ⟨heven, by
    rw [BitVec.toInt_eq_toNat_of_lt (by omega)]
    omega⟩

theorem TraceGoes.goes (hgoes : TraceGoes elf depth S io q q') :
    GoesWithin Agreeable elf depth S io q.1 q'.1 := by
  cases hgoes with
  | straight hgoes _ => exact hgoes
  | jump hgoes _ _ => exact hgoes
  | leaves hgoes _ _ _ _ => exact hgoes

theorem goes_of_traceGoes (hgoes : Steps (TraceGoes elf depth S) l q q') :
    Steps (GoesWithin Agreeable elf depth S) l q.1 q'.1 := by
  induction hgoes with
  | nil q => exact .nil q.1
  | cons hstep _ ih => exact .cons hstep.goes ih

theorem tracedAsFar_begun {s : Machine} {D E : Set DWord} (hne : s.pc ≠ 0) (hD : D ⊆ E) :
    TracedAsFar elf ⟨s, D⟩ (⟨s, E⟩, jumpsFollowed elf s.pc) :=
  ⟨hne, D, hD, fun _ _ hrun => hrun⟩

theorem TracedAsFar.tracedTo {s : Machine} {D : Set DWord} {k : ℕ} {w : Word}
    (hp : TracedAsFar elf p (⟨s, D⟩, k)) (hw : elf.guestCode s.pc = some w) (hterm : IsTerminal w)
    (hop : w.opcode ≠ Opcode.jal) (hleave : Leavable s w)
    (hbranch : w.opcode = Opcode.branch → w.rs1 ≠ sp ∧ w.rs2 ≠ sp)
    (heven : s.pc.getLsbD 0 = false) (hlow : s.pc.toNat + 4 < 2 ^ 31) :
    ∃ E ⊆ D, TracedTo elf p.spoiled p.machine E s w := by
  obtain ⟨hne, E, hE, hcont⟩ := hp
  have hfetch := fetch_of_guestCode hw
  have hstop : TraceRun elf k E s E s := by
    refine .stop ?_ ?_ ?_ (liValue_of_even heven (by omega)) <;> rw [hfetch]
    · exact hterm
    · exact fun hjal => absurd hjal hop
    · exact hleave.stable
  exact ⟨E, hE, hcont E s hstop, hw, hop, hleave, hbranch, hne, hlow⟩

theorem leavable_of_system {s : Machine} {w : Word} (hop : w.opcode = Opcode.system) :
    Leavable s w where
  stable hbranch := absurd (hop.symm.trans hbranch) (by decide)
  link hlink := absurd hop (by rcases hlink with hlink | hlink <;> rw [hlink] <;> decide)
  jalr hjalr := absurd (hop.symm.trans hjalr) (by decide)

theorem TracedAsFar.asks (hp : TracedAsFar elf p q) (hasks : AsksToEnd elf q.1.machine)
    (heven : q.1.machine.pc.getLsbD 0 = false) : ∃ E w, w.opcode = Opcode.system ∧
      TracedTo elf p.spoiled p.machine E q.1.machine w := by
  obtain ⟨w, hw, hop⟩ := hasks.system
  have hjal : w.opcode ≠ Opcode.jal := by
    rw [hop]
    decide
  obtain ⟨E, -, hto⟩ := TracedAsFar.tracedTo hp hw (.inr (.inr (.inr hop))) hjal
    (leavable_of_system hop) (fun hbranch => absurd (hop.symm.trans hbranch) (by decide)) heven
    hasks.low
  exact ⟨E, w, hop, hto⟩

theorem TracedAsFar.straight {k : ℕ} (hp : TracedAsFar elf p (g, k))
    (hgoes : GuestGoes Agreeable elf depth io g g')
    (hword : ¬ IsTerminal (elf.fetch (g.machine.pc.setWidth 32))) :
    TracedAsFar elf p (g', k) := by
  refine ⟨hgoes.ne_zero, ?_⟩
  obtain ⟨hne, E, hE, hcont⟩ := hp
  cases hgoes with
  | straight hw hdec hi hlow =>
      exact ⟨_, (spoil_mono hE).trans Set.subset_union_left, fun D' s' hrun =>
        hcont D' s' (.inst hw hdec (hi.mono hE fun _ hok => hok) hrun)⟩
  | leaves hw hterm =>
      rw [fetch_of_guestCode hw] at hword
      exact absurd hterm hword

/-- The trace follows the jump, and what a context switch would spoil stays. -/
theorem TracedAsFar.jump {k : ℕ} (hp : TracedAsFar elf p (g, k + 1))
    (hgoes : GuestGoes Agreeable elf depth io g g')
    (hop : (elf.fetch (g.machine.pc.setWidth 32)).opcode = Opcode.jal)
    (heven : g.machine.pc.getLsbD 0 = false) : TracedAsFar elf p (g', k) := by
  refine ⟨hgoes.ne_zero, ?_⟩
  obtain ⟨hne, E, hE, hcont⟩ := hp
  cases hgoes with
  | straight hw hdec hi hlow =>
      rw [fetch_of_guestCode hw] at hop
      exact absurd hi.straight (not_straight_of_isTerminal (.inr (.inl hop)) hdec)
  | @leaves D s s' w hw hterm hleave hlow hstep hne' hlow' =>
      rw [fetch_of_guestCode hw] at hop
      have hs' : s' = (Instr.jal w.rd w.immJ).exec relocate s := by
        cases hstep with
        | inst hstep =>
            exact Option.some.inj (hstep.symm.trans (step_eq hw (decode_of_jal hop)))
        | write hw' hop' =>
            obtain rfl := Option.some.inj (hw.symm.trans hw')
            exact absurd (hop.symm.trans hop') (by decide)
      subst hs'
      have heven' : (s.pc + 4).getLsbD 0 = false := by
        rw [BitVec.getLsbD_add (by decide), heven]
        simp
      refine ⟨E, hE.trans Set.subset_union_left, fun D' s' hrun => hcont D' s' (.jump hw hop
        (.inr (liValue_of_even heven' (by bv_omega))) (fun hzero => hne' ?_) hrun)⟩
      rw [Instr.exec, Machine.pc_goto] at hne' hlow' ⊢
      bv_omega

theorem TracedAsFar.goes (hp : TracedAsFar elf p q) (hgoes : TraceGoes elf depth S io q q') :
    TracedAsFar elf p q' ∨ ∃ answer p', (∀ i, id answer = some i → i = io) ∧
      TracedWithin elf depth S answer p p' ∧ TracedAsFar elf p' q' := by
  cases hgoes with
  | straight hgoes hword => exact .inl (hp.straight hgoes.1 hword)
  | jump hgoes hop heven => exact .inl (hp.jump hgoes.1 hop heven)
  | leaves hgoes hterm hop hbranch heven =>
      obtain ⟨hgoes, hin⟩ := hgoes
      cases hgoes with
      | straight hw hdec hi hlow =>
          rw [fetch_of_guestCode hw] at hterm
          exact absurd hi.straight (not_straight_of_isTerminal hterm hdec)
      | @leaves D s s' w hw _ hleave hlow hstep hne hlow' =>
          rw [fetch_of_guestCode hw] at hterm hop hbranch
          obtain ⟨E, hE, hto⟩ := hp.tracedTo hw hterm hop hleave hbranch heven hlow
          have hbegun : TracedAsFar elf ⟨s', E ∪ stackBelow depth s⟩
              (⟨s', D ∪ stackBelow depth s⟩, jumpsFollowed elf s'.pc) :=
            tracedAsFar_begun hne (Set.union_subset_union_left _ hE)
          cases hstep with
          | inst hstep =>
              exact .inr ⟨none, _, fun _ hi => absurd hi.symm (Option.some_ne_none _),
                ⟨.inst hto hstep hne hlow', hin⟩, hbegun⟩
          | write hw' hop' hnumber =>
              obtain rfl := Option.some.inj (hw.symm.trans hw')
              exact .inr ⟨some io, _, fun i hi => (Option.some.inj hi).symm,
                ⟨.write hto hop' hnumber, hin⟩, hbegun⟩

/-- A run of the guest that comes to its end is one of traces. -/
theorem traces_of_goes {s : Machine} {D : Set DWord} (hne : s.pc ≠ 0)
    (hgoes : Steps (TraceGoes elf depth S) l (⟨s, D⟩, jumpsFollowed elf s.pc) q') :
    ∃ l' p, l'.reduceOption.Sublist l ∧ Steps (TracedWithin elf depth S) l' ⟨s, D⟩ p ∧
      TracedAsFar elf p q' := by
  obtain ⟨l', p, hsub, hturns, hpart⟩ := hgoes.cut (f := id)
    (fun hp hstep => hp.goes hstep) (tracedAsFar_begun hne subset_rfl)
  exact ⟨l', p, hsub, hturns, hpart⟩

end Traces

/-! ### Both modes -/

/-- A process with trace linking and without routines that starts with the guest
`s₀`, with a cache that is large enough for the traces of `S`. -/
structure RunsTraces (h : Host) (r : Rail) (cb : Callbacks) (elf : ElfReader)
    (cfgGenerator : Option CfgGenerator) (S : Finset DWord) (s₀ : Machine) (x : HostState) :
    Prop where
  starts : StartsAt h r cb elf cfgGenerator s₀ x
  base : h.base = 0x01000000
  link : r.traceLinkingEnabled = true
  uninstrumented : r.Uninstrumented
  keepFrame : cb.KeepFrame
  fits : cacheUse h r elf S ≤ 2 ^ 18

section Modes

variable {h h' : Host} {r r' : Rail} {cb cb' : Callbacks} {elf : ElfReader}
  {depth : ℕ} {cfgGenerator cfgGenerator' : Option CfgGenerator} {S : Finset DWord} {s₀ : Machine}
  {x x' : HostState} {g' : Guest} {k : ℕ} {l : List (IoRequest → DWord)}

theorem StartsAt.pc (hx : StartsAt h r cb elf cfgGenerator s₀ x) : s₀.pc = elf.entryAddr := by
  obtain ⟨f, ret, rfl, -, -⟩ := hx
  exact Machine.pc_goto _ _

theorem RunsTraces.pursues (hx : RunsTraces h r cb elf cfgGenerator S s₀ x)
    (hne : elf.entryAddr ≠ 0) (hlow : elf.entryAddr.toNat < 2 ^ 31) :
    Pursues h r cb elf ⟨s₀, ∅⟩ x := by
  have hfits : x.dispatcher.cache.Fits :=
    ((hx.starts.paid S).length_le.trans hx.fits).trans (by decide)
  obtain ⟨f, ret, rfl, hval, rfl⟩ := hx.starts
  exact @pursues_entry h r cb elf cfgGenerator hx.base hx.link hx.uninstrumented hne hlow f ret
    hfits hval

/-- A run of the guest from its entry to its end is followed by the host. -/
theorem RunsTraces.ends (hx : RunsTraces h r cb elf cfgGenerator S s₀ x)
    (hdepth : depth + 256 ≤ 2 ^ 64) (hne : elf.entryAddr ≠ 0) (hlow : elf.entryAddr.toNat < 2 ^ 31)
    (hgoes : Steps (TraceGoes elf depth S) l (⟨s₀, ∅⟩, 0) (g', k))
    (hasks : AsksToEnd elf g'.machine) (heven : g'.machine.pc.getLsbD 0 = false) :
    ∃ answers, answers.reduceOption.Sublist l ∧
      Tracks (LinkedTurn h r cb depth) (· = none) (fun _ => False)
        (fun y => ∀ io below, EndsWith h r cb io below y g'.machine) answers x := by
  -- the entry is a trace of its own, which follows no jump
  have hcount : jumpsFollowed elf s₀.pc = 0 := if_pos hx.starts.pc
  rw [← hcount] at hgoes
  obtain ⟨answers, p, hsub, hturns, hpart⟩ := traces_of_goes (hx.starts.pc ▸ hne) hgoes
  obtain ⟨E, w, hop, hto⟩ := hpart.asks hasks heven
  have hshadows := @shadows_within h r cb depth elf S hx.base hx.link hx.uninstrumented
    hx.keepFrame hdepth hx.fits
  have htracks := hshadows.tracks ⟨hx.pursues hne hlow, hx.starts.paid S⟩ hturns
  refine ⟨answers, hsub, htracks.mono fun y _ hy io below => ?_⟩
  obtain ⟨hpursues, hpaid⟩ := hy
  have hexit := @Pursues.leave_exited h r cb io elf y p
  obtain ⟨k, e, d, hexits, hpc, -, hleave, hframe⟩ := hexit hx.base hx.link hx.uninstrumented
    hx.keepFrame hpursues (hpaid.near hx.fits) hto hop hasks.number below
  exact ⟨k, e, d, hexits, hpc, stub_of_exited hleave, hframe⟩

/-- Trace linking does not change what the guest does: a process without traces,
with whatever routines, and one with trace linking that start with the same
guest end with the same registers, when the guest runs to its end under
conditions that name no routine, and leaves no trace with a `jal`. -/
theorem modes_agree (hdepth : depth + 256 ≤ 2 ^ 64) (hne : elf.entryAddr ≠ 0)
    (hlow : elf.entryAddr.toNat < 2 ^ 31)
    (hgoes : Steps (TraceGoes elf depth S) l (⟨s₀, ∅⟩, 0) (g', k))
    (hasks : AsksToEnd elf g'.machine) (heven : g'.machine.pc.getLsbD 0 = false)
    (hx : RunsBlocks h r cb elf cfgGenerator S s₀ x)
    (hx' : RunsTraces h' r' cb' elf cfgGenerator' S s₀ x') :
    (∃ l', l'.Sublist l ∧ Completes h r cb depth l' x g'.machine) ∧
    ∃ answers, answers.reduceOption.Sublist l ∧
      Tracks (LinkedTurn h' r' cb' depth) (· = none) (fun _ => False)
        (fun y => ∀ io below, EndsWith h' r' cb' io below y g'.machine) answers x' :=
  ⟨hx.ends hdepth hne hlow (goes_of_traceGoes hgoes) hasks,
    hx'.ends hdepth hne hlow hgoes hasks heven⟩

end Modes

/-! ### A guest that branches -/

theorem entryAddr_skipping : skippingText.entryAddr = 0x10000 := by decide +kernel

theorem leaves_skipping (io : IoRequest → DWord) {s : Machine} (hpc : s.pc = 0x10000)
    (D : Set DWord) (k : ℕ) : TraceGoes skippingText 0 {0x10008, 0x1000c} io (⟨s, D⟩, k)
      (⟨s.goto 0x10008, D ∪ stackBelow 0 s⟩, jumpsFollowed skippingText 0x10008) := by
  have hbranch : skippingText.guestCode s.pc = some 0x00000463 := by
    rw [hpc]
    decide +kernel
  have hbranch' : Instr.decode 0x00000463 = some (.branch .beq 0 0 8) := by decide +kernel
  have hover := exec_skipping hpc
  have hleave : Leavable s 0x00000463 := ⟨fun _ => ⟨.beq, 0, 0, 8, hbranch', rfl⟩,
    fun _ => by decide, fun hop => absurd hop (by decide)⟩
  have hgoes : GoesWithin Agreeable skippingText 0 {0x10008, 0x1000c} io ⟨s, D⟩
      ⟨s.goto 0x10008, D ∪ stackBelow 0 s⟩ := by
    refine ⟨.leaves hbranch (.inl (by decide)) hleave (by rw [hpc]; decide)
      (.inst ((step_eq hbranch hbranch').trans (congrArg some hover))) ?_ ?_, ?_⟩ <;>
      rw [Machine.pc_goto] <;> decide
  refine .leaves hgoes ?_ ?_ ?_ ?_
  · rw [fetch_of_guestCode hbranch]
    exact .inl (by decide)
  · rw [fetch_of_guestCode hbranch]
    decide
  · rw [fetch_of_guestCode hbranch]
    exact fun _ => by decide
  · rw [hpc]
    decide

theorem asks_skipping (io : IoRequest → DWord) {s : Machine} (hpc : s.pc = 0x10008)
    (D : Set DWord) (k : ℕ) : ∃ g', TraceGoes skippingText 0 {0x10008, 0x1000c} io (⟨s, D⟩, k)
      (g', k) ∧ AsksToEnd skippingText g'.machine ∧ g'.machine.pc.getLsbD 0 = false ∧
      g'.machine.regs 17 = 93 := by
  have hload : skippingText.guestCode s.pc = some 0x05d00893 := by
    rw [hpc]
    decide +kernel
  have hload' : Instr.decode 0x05d00893 = some (.opImm .add 17 0 93) := by decide +kernel
  have hpc' : ((Instr.opImm .add 17 0 93).exec relocate s).pc = 0x1000c := by
    rw [Instr.pc_exec relocate (undisturbed_addi Agreeable D s 17 0 93).straight, hpc]
    decide
  have hcall : skippingText.guestCode ((Instr.opImm .add 17 0 93).exec relocate s).pc =
      some 0x00000073 := by
    rw [hpc']
    decide +kernel
  have hnumber := number_addi s
  refine ⟨⟨_, _⟩, .straight ⟨.straight hload hload' (undisturbed_addi Agreeable D s 17 0 93) ?_, ?_⟩
    ?_, ⟨⟨_, hcall, by decide⟩, .inl hnumber, ?_⟩, ?_, hnumber⟩
  · rw [hpc]
    decide
  · rw [hpc']
    decide
  · rw [fetch_of_guestCode hload]
    exact fun hterm => not_straight_of_isTerminal hterm hload' trivial
  · rw [hpc']
    decide
  · rw [hpc']
    decide

theorem goes_skipping (ret : Machine) : ∃ g' k,
    Steps (TraceGoes skippingText 0 {0x10008, 0x1000c}) [fun _ => 0, fun _ => 0]
      (⟨guestEntry skippingText ret, ∅⟩, 0) (g', k) ∧ AsksToEnd skippingText g'.machine ∧
      g'.machine.pc.getLsbD 0 = false ∧ g'.machine.regs 17 = 93 := by
  obtain ⟨g', hgoes, hends⟩ := asks_skipping (fun _ => 0) (Machine.pc_goto _ 0x10008)
    (∅ ∪ stackBelow 0 (guestEntry skippingText ret)) (jumpsFollowed skippingText 0x10008)
  exact ⟨g', _, .cons (leaves_skipping (fun _ => 0)
    ((Machine.pc_goto _ _).trans entryAddr_skipping) ∅ 0) (.single hgoes), hends⟩

def entering (r : Rail) (ret : Machine) : HostState :=
  ⟨execs direct ret initRestore, started r skippingText⟩

theorem exists_entering : ∃ ret, AtEntry oneArg blankFile skippingText 0 (loadGuest 0x01000000)
    (guestEntry skippingText ret) ∧ ret.regs a0 = 0x01000010 := by
  obtain ⟨c, -, -, hstart, hsame⟩ := exits_root requestedHost skippingText
    (show (loadGuest 0x01000000).pc = requestedHost.base from rfl)
  obtain ⟨ret, hret, hval⟩ := @exists_initReturned oneArg blankFile
    (by rw [length_stackWords]; decide) 0 (execs direct c initSwitch) 0x01000010
  exact ⟨ret, atEntry_guestEntry hstart hsame hret, hval⟩

theorem startsAt_entering {r : Rail} {ret : Machine} (hret : ret.regs a0 = 0x01000010)
    (hval : (init requestedHost r idleCallbacks (rootDispatcher requestedHost skippingText none)
      fun _ => 0).returnVal = 0x01000010) :
    StartsAt requestedHost r idleCallbacks skippingText none (guestEntry skippingText ret)
      (entering r ret) :=
  ⟨fun _ => 0, ret, rfl, hret.trans hval.symm, rfl⟩

theorem runsBlocks_entering {r : Rail} {ret : Machine} (hret : ret.regs a0 = 0x01000010)
    (hval : (init requestedHost r idleCallbacks (rootDispatcher requestedHost skippingText none)
      fun _ => 0).returnVal = 0x01000010) (hlink : r.traceLinkingEnabled = false)
    (hr : r.NoTypedPre)
    (huse : cacheUse requestedHost r skippingText {0x10008, 0x1000c} ≤ cacheSize / 4) :
    RunsBlocks requestedHost r idleCallbacks skippingText none {0x10008, 0x1000c}
      (guestEntry skippingText ret) (entering r ret) :=
  ⟨startsAt_entering hret hval, hlink, hr, keepFrame_idleCallbacks, huse⟩

/-- Two processes that run that guest, one with a routine behind every
instruction and one with a routine in front of every block. -/
theorem skipping_transparent : ∃ ret s l₁ l₂,
    AtEntry oneArg blankFile skippingText 0 (loadGuest 0x01000000) (guestEntry skippingText ret) ∧
    s.regs 17 = 93 ∧
    Completes requestedHost stepping idleCallbacks 0 l₁ (entering stepping ret) s ∧
    Completes requestedHost watching idleCallbacks 0 l₂ (entering watching ret) s := by
  obtain ⟨ret, hat, hval⟩ := exists_entering
  obtain ⟨g', k, hgoes, hasks, -, hnumber⟩ := goes_skipping ret
  have hstepping := runsBlocks_entering hval (r := stepping) (by decide +kernel) rfl
    steps_stepping.noTypedPre (by decide +kernel)
  have hwatching := runsBlocks_entering hval (r := watching) (by decide +kernel) rfl
    blocksOnly_watching.noTypedPre (by decide +kernel)
  obtain ⟨l₁, l₂, -, -, hends, hends'⟩ := routines_transparent (by decide)
    (by rw [entryAddr_skipping]; decide) (by rw [entryAddr_skipping]; decide)
    (goes_of_traceGoes hgoes) hasks hstepping hwatching
  exact ⟨ret, g'.machine, l₁, l₂, hat, hnumber, hends, hends'⟩

/-- One with a routine behind every instruction, and one with trace linking. -/
theorem skipping_modes_agree : ∃ ret s l' answers,
    AtEntry oneArg blankFile skippingText 0 (loadGuest 0x01000000) (guestEntry skippingText ret) ∧
    s.regs 17 = 93 ∧
    Completes requestedHost stepping idleCallbacks 0 l' (entering stepping ret) s ∧
    Tracks (LinkedTurn requestedHost (.plain true) idleCallbacks 0) (· = none) (fun _ => False)
      (fun y' => ∀ io below, EndsWith requestedHost (.plain true) idleCallbacks io below y' s)
      answers (entering (.plain true) ret) := by
  obtain ⟨ret, hat, hval⟩ := exists_entering
  obtain ⟨g', k, hgoes, hasks, heven, hnumber⟩ := goes_skipping ret
  have hstepping := runsBlocks_entering hval (r := stepping) (by decide +kernel) rfl
    steps_stepping.noTypedPre (by decide +kernel)
  have htraces : RunsTraces requestedHost (.plain true) idleCallbacks skippingText none
      {0x10008, 0x1000c} (guestEntry skippingText ret) (entering (.plain true) ret) :=
    ⟨startsAt_entering hval (by decide +kernel), rfl, rfl, Rail.uninstrumented_plain true,
      keepFrame_idleCallbacks, by decide +kernel⟩
  obtain ⟨⟨l', -, hends⟩, answers, -, htracks⟩ := modes_agree (by decide)
    (by rw [entryAddr_skipping]; decide) (by rw [entryAddr_skipping]; decide) hgoes hasks heven
    hstepping htraces
  exact ⟨ret, g'.machine, l', answers, hat, hnumber, hends, htracks⟩

end RailTranslator
