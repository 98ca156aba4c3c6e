import RailTranslator.CacheUse
import RailTranslator.LinkedRuns

/-!
Programs that fit into the cache.

The results about whole runs stop where the cache is full, or where the links
do not reach. A block is translated once, so that what a run takes of the cache
is bounded by the translations of the addresses the guest comes to. When these
fit, nothing is in the way: from the first word of the cache on, the process
does what the guest does, to the end of the run.
-/

namespace RailTranslator

open Rv64 Transition Ledger

/-! ### What has been translated -/

/-- Nothing has been translated but the entry and addresses in `S`. -/
def PaidWithin (h : Host) (r : Rail) (elf : ElfReader) (S : Finset DWord) (d : Dispatcher) :
    Prop :=
  ∃ paid ⊆ S, CacheInv h r elf d paid

section Paid

variable {h : Host} {r : Rail} {cb : Callbacks} {elf : ElfReader}
  {cfgGenerator : Option CfgGenerator} {S : Finset DWord} {d d' : Dispatcher} {x : DWord}

theorem paidWithin_init (f : TrapFrame) :
    PaidWithin h r elf S (init h r cb (rootDispatcher h elf cfgGenerator) f).dispatcher :=
  ⟨∅, Finset.empty_subset S, cacheInv_init f⟩

theorem PaidWithin.length_le (hp : PaidWithin h r elf S d) :
    d.cache.memory.length ≤ cacheUse h r elf S := by
  obtain ⟨paid, hpaid, hinv⟩ := hp
  exact hinv.settled.spent_le.trans (sum_cost_le hpaid)

theorem CallLands.sought (hrun : ∃ l, Run (dispatch h r cb elf cfgGenerator) Any l d)
    (hc : CallLands h r cb d d' x) (hlow : x.toNat < 2 ^ 31) :
    ∃ e, (dispatch h r cb elf cfgGenerator).step d e = some d' ∧
      d.sought h r cb e = some x := by
  obtain ⟨io, f, taken, a, res, hstub, rfl, hlands⟩ := hc
  obtain ⟨l, hrun⟩ := hrun
  have hstep : (dispatch h r cb elf cfgGenerator).step d (.call io f taken a) =
      some res.dispatcher := by
    show (stub h r cb io d f taken a).toOption.map _ = _
    rw [hstub]
    rfl
  obtain ⟨s, next, hst⟩ := stub_step hstub
  obtain ⟨hfirst, hint⟩ := hst.key ((recordRule_keyed h r elf).run (hrun.next trivial hstep)).2
  -- the current block says where the call has landed
  have hcurrent : (s.nextBlockAddr.setWidth 32).setWidth 64 = x := by
    rw [← hlands.current, hst.cache, CodeCache.currentBB_setCurrentBB, hfirst]
  have hx : s.nextBlockAddr = x := by
    rw [← hint, ← asInt_of_low hlow, ← hcurrent, asInt, asInt]
    refine congrArg (BitVec.signExtend 64) ?_
    rw [BitVec.setWidth_setWidth_of_le _ (by decide), BitVec.setWidth_eq]
  exact ⟨_, hstep, hx ▸ sought_call hst.leave⟩

theorem PaidWithin.call (hp : PaidWithin h r elf S d)
    (hrun : ∃ l, Run (dispatch h r cb elf cfgGenerator) Any l d)
    (hc : CallLands h r cb d d' x) (hlow : x.toNat < 2 ^ 31) (hx : x ∈ S) :
    PaidWithin h r elf S d' := by
  obtain ⟨paid, hpaid, hinv⟩ := hp
  obtain ⟨e, hstep, hsought⟩ := hc.sought hrun hlow
  obtain ⟨paid', hinv', hpaid'⟩ := hinv.step hstep
  refine ⟨paid', fun a ha => ?_, hinv'⟩
  rcases hpaid' a ha with hold | hnew
  · exact hpaid hold
  · rw [hsought] at hnew
    obtain rfl := Option.some.inj hnew
    exact hx

end Paid

/-! ### Without traces -/

section Blocks

variable {h : Host} {r : Rail} {cb : Callbacks} {depth : ℕ} {elf : ElfReader}
  {cfgGenerator : Option CfgGenerator} {S : Finset DWord} {a : RailArgs} {e : ElfFile} {s : Machine}

/-- The guest runs from one block to the next, which begins in `S`. -/
def TurnWithin (r : Rail) (elf : ElfReader) (depth : ℕ) (S : Finset DWord)
    (io : IoRequest → DWord) (g g' : Guest) : Prop :=
  GuestTurn r elf depth io g g' ∧ g'.machine.pc ∈ S

theorem GuestTurn.low {io : IoRequest → DWord} {g g' : Guest}
    (ht : GuestTurn r elf depth io g g') : g'.machine.pc.toNat < 2 ^ 31 := by
  cases ht with
  | ended _ _ _ _ _ _ hnext => exact hnext.low
  | cut _ _ _ _ _ _ hnext => exact hnext.low

/-- When the translations fit, the translated guest is never stuck. -/
theorem follows_within (hlink : r.traceLinkingEnabled = false) (hr : r.NoTypedPre)
    (hcb : cb.KeepFrame) (hdepth : depth + 256 ≤ 2 ^ 64)
    (hS : cacheUse h r elf S ≤ cacheSize / 4) :
    Follows (TurnWithin r elf depth S) (HostTurn h r cb depth) (fun _ => False) fun g x =>
      Simulates h r cb elf cfgGenerator g x ∧ PaidWithin h r elf S x.dispatcher where
  progress := by
    rintro io g g' x ⟨hsim, hpaid⟩ ⟨hturn, -⟩ -
    exact (follows hlink hr hcb hdepth).progress hsim hturn
      (not_not_intro (hpaid.length_le.trans hS))
  keeps := by
    rintro io g g' x x' ⟨hsim, hpaid⟩ ⟨hturn, hin⟩ hhost
    obtain ⟨hsim', hcall⟩ := hsim.visited hlink hr hcb hdepth hturn hhost
    exact ⟨hsim', hpaid.call hsim.reachable hcall hturn.low hin⟩

/-- The process goes on with the guest that jumps, and is ended when the guest
asks for it behind the jump. -/
theorem leaping_ends : ∃ x', Steps (HostTurn requestedHost (.plain false) idleCallbacks 0)
      [fun _ => 0] (firstHost (.plain false) leapingText) x' ∧
    ∀ below, ¬ HostEnds requestedHost (.plain false) idleCallbacks (fun _ => 0) below
        (firstHost (.plain false) leapingText) ∧
      HostEnds requestedHost (.plain false) idleCallbacks (fun _ => 0) below x' := by
  have hfirst := @simulates_first (.plain false) leapingText (by decide +kernel) (by decide +kernel)
  have hpaid : PaidWithin requestedHost (.plain false) leapingText {0x10008}
    (firstHost (.plain false) leapingText).dispatcher :=
      @paidWithin_init requestedHost (.plain false) idleCallbacks leapingText none _ fun _ => 0
  have huse : cacheUse requestedHost (.plain false) leapingText {0x10008} ≤ cacheSize / 4 := by
    decide +kernel
  have hdepth : 0 + 256 ≤ 2 ^ 64 := by decide
  obtain ⟨g', hpc, hturn⟩ := @turn_leaping (.plain false) (fun _ => 0) firstGuest rfl
  have hwithin : Steps (TurnWithin (.plain false) leapingText 0 {0x10008}) [fun _ => 0] firstGuest
    g' := .single ⟨hturn, Finset.mem_singleton.mpr hpc⟩
  have hfollows := @follows_within requestedHost (.plain false) idleCallbacks 0 leapingText none
    {0x10008} rfl (noTypedPre_plain false) keepFrame_idleCallbacks hdepth huse
  obtain ⟨x', hhost⟩ := hfollows.exists_run ⟨hfirst, hpaid⟩ hwithin
  have hpaid' := (hfollows.related ⟨hfirst, hpaid⟩ hwithin hhost).2
  refine ⟨x', hhost, fun below => ⟨?_, ?_⟩⟩
  · exact (process_ends_with_guest rfl (noTypedPre_plain false) keepFrame_idleCallbacks hdepth
      hfirst (.nil _) (.nil _) (hpaid.length_le.trans huse) _ below).2 _ hturn
  · exact (process_ends_with_guest rfl (noTypedPre_plain false) keepFrame_idleCallbacks hdepth
      hfirst (.single hturn) hhost (hpaid'.length_le.trans huse) _ below).1
        (ends_leaping (segmentsBB_plain false) hpc)

/-- The whole process, when the blocks fit into the cache: it reaches
`init_switch`, and however `init` returns, the guest stands at its entry, and
for every run of the guest through blocks of `S` the host has a run with the
same answers; wherever such a run of the host leads, it is about to continue the
guest, and the process ends there through `exit_binary` if the guest ends. -/
theorem fitting_process_runs (hlink : r.traceLinkingEnabled = false) (hr : r.NoTypedPre)
    (hcb : cb.KeepFrame) (hdepth : depth + 256 ≤ 2 ^ 64) (hentry : Enterable r elf elf.entryAddr)
    (hpc : s.pc = h.base) (hS : cacheUse h r elf S ≤ cacheSize / 4) (f : TrapFrame) :
    ∃ c, Exits direct ((rootDispatcher h elf cfgGenerator).cache.code h) s c ∧
      c.pc = h.initSwitch ∧
      ∀ ret, InitReturned a e depth (execs direct c initSwitch) ret →
        ret.regs a0 = (init h r cb (rootDispatcher h elf cfgGenerator) f).returnVal →
        AtEntry a e elf depth s (guestEntry elf ret) ∧
        ∀ l g', Steps (TurnWithin r elf depth S) l ⟨guestEntry elf ret, ∅⟩ g' →
          (∃ x', Steps (HostTurn h r cb depth) l ⟨execs direct ret initRestore,
            (init h r cb (rootDispatcher h elf cfgGenerator) f).dispatcher⟩ x') ∧
          ∀ x', Steps (HostTurn h r cb depth) l ⟨execs direct ret initRestore,
              (init h r cb (rootDispatcher h elf cfgGenerator) f).dispatcher⟩ x' →
            Simulates h r cb elf cfgGenerator g' x' ∧
              (GuestEnds r elf g' → ∀ io below, HostEnds h r cb io below x') := by
  obtain ⟨c, hexits, hc, hstart, hsame⟩ := exits_root h elf hpc
  refine ⟨c, hexits, hc, fun ret hret hval => ⟨atEntry_guestEntry hstart hsame hret, ?_⟩⟩
  have hfirst := @simulates_entry h r cb elf cfgGenerator ret hlink hr hentry f hval
  have hpaid : PaidWithin h r elf S _ := @paidWithin_init h r cb elf cfgGenerator S f
  have hfollows := @follows_within h r cb depth elf cfgGenerator S hlink hr hcb hdepth hS
  intro l g' hturns
  refine ⟨hfollows.exists_run ⟨hfirst, hpaid⟩ hturns, fun x' hsteps => ?_⟩
  obtain ⟨hsim, hpaid'⟩ := hfollows.related ⟨hfirst, hpaid⟩ hturns hsteps
  exact ⟨hsim, fun hends io => hsim.ends hlink hr hcb (hpaid'.length_le.trans hS) hends⟩

/-- The process that counts does so in a cache that has room for two blocks. -/
theorem counting_runs : ∃ ret g' x', AtEntry oneArg blankFile countingText 0
      (loadGuest 0x01000000) (guestEntry countingText ret) ∧ g'.machine.regs 5 = 2 ∧
    cacheUse requestedHost (.plain false) countingText {0x10000} = 20 ∧
    Steps (HostTurn requestedHost (.plain false) idleCallbacks 0) [fun _ => 0, fun _ => 0]
      ⟨execs direct ret initRestore, started (.plain false) countingText⟩ x' ∧
    Simulates requestedHost (.plain false) idleCallbacks countingText none g' x' := by
  have hentry : countingText.entryAddr = 0x10000 := by decide +kernel
  have huse : cacheUse requestedHost (.plain false) countingText {0x10000} = 20 := by
    decide +kernel
  obtain ⟨c, -, -, hruns⟩ := @fitting_process_runs requestedHost (.plain false) idleCallbacks 0
    countingText none {0x10000} oneArg blankFile (loadGuest 0x01000000) rfl
    (noTypedPre_plain false) keepFrame_idleCallbacks (by decide)
    ⟨by rw [hentry]; decide, by rw [hentry]; decide, by rw [hentry]; exact hasBlock_counting⟩ rfl
    (by rw [huse]; decide) fun _ => 0
  obtain ⟨ret, hret, hval⟩ := @exists_initReturned oneArg blankFile
    (by rw [length_stackWords]; decide) 0 (execs direct c initSwitch) _
  obtain ⟨hat, hall⟩ := hruns ret hret hval
  obtain ⟨g₁, hpc₁, hregs₁, hturn₁⟩ := @turn_counting _ (segmentsBB_plain false) (fun _ => 0)
    ⟨guestEntry countingText ret, ∅⟩ (hat.pc.trans hentry)
  obtain ⟨g₂, hpc₂, hregs₂, hturn₂⟩ := turn_counting (segmentsBB_plain false) (fun _ => 0) hpc₁
  have hin {g : Guest} (hpc : g.machine.pc = 0x10000) :
      g.machine.pc ∈ ({0x10000} : Finset DWord) := Finset.mem_singleton.mpr hpc
  obtain ⟨⟨x', hsteps⟩, hsim⟩ := hall _ g₂
    (.cons ⟨hturn₁, hin hpc₁⟩ (.single ⟨hturn₂, hin hpc₂⟩))
  refine ⟨ret, g₂, x', hat, ?_, huse, hsteps, (hsim x' hsteps).1⟩
  have hzero : (guestEntry countingText ret).regs 5 = 0 := hat.cleared 5 (by decide)
  rw [hregs₂, hregs₁, hzero]
  rfl

end Blocks

/-! ### With trace linking -/

section Traces

variable {h : Host} {r : Rail} {cb : Callbacks} {depth : ℕ} {elf : ElfReader}
  {cfgGenerator : Option CfgGenerator} {S : Finset DWord} {a : RailArgs} {e : ElfFile} {s : Machine}

/-- The guest runs from one trace to the next, which begins in `S`. -/
def TracedWithin (elf : ElfReader) (depth : ℕ) (S : Finset DWord)
    (answer : Option (IoRequest → DWord)) (g g' : Guest) : Prop :=
  TracedTurn elf depth answer g g' ∧ g'.machine.pc ∈ S

theorem PaidWithin.near {x : HostState} (hp : PaidWithin h r elf S x.dispatcher)
    (hS : cacheUse h r elf S ≤ 2 ^ 18) : ¬ OutOfReach x :=
  not_not_intro (hp.length_le.trans hS)

/-- When the translations fit into a mebibyte, every link reaches. -/
theorem shadows_within (hbase : h.base = 0x01000000) (hlink : r.traceLinkingEnabled = true)
    (hr : r.Uninstrumented) (hcb : cb.KeepFrame) (hdepth : depth + 256 ≤ 2 ^ 64)
    (hS : cacheUse h r elf S ≤ 2 ^ 18) :
    Shadows (TracedWithin elf depth S) (LinkedTurn h r cb depth) (· = none) (fun _ => False)
      fun g x => Pursues h r cb elf g x ∧ PaidWithin h r elf S x.dispatcher where
  turn := by
    rintro answer g g' x ⟨hp, hpaid⟩ ⟨ht, hin⟩ -
    have hnear := hpaid.near hS
    rcases hp.turn hbase hlink hr hcb hdepth ht hnear with ⟨hsilent, hstays⟩ | hvisits
    · exact .inl ⟨hsilent, hstays, hpaid⟩
    · refine .inr ⟨exists_linkedTurn hnear hvisits, fun x' hhost => .inr ?_⟩
      obtain ⟨hpursues, hcall⟩ := hp.visited hbase hlink hr ht hvisits hhost
      obtain ⟨H, hrun⟩ := hp.reachable
      obtain ⟨cfgGenerator, hrun'⟩ := hrun.run
      have hpaid' := hpaid.call hrun' hcall ht.next.2 hin
      exact ⟨hpursues (fits_of_near (hpaid'.near hS)), hpaid'⟩

/-- The whole process with traces, when these fit into a mebibyte: from the
guest's entry on every run of the guest through traces that begin in `S` is
followed to its end, with a visit to the dispatcher for every turn that ends
with a `write`, and one or none for any other, and the process ends there
through `exit_binary` if the guest ends. -/
theorem fitting_process_runs_linked (hbase : h.base = 0x01000000)
    (hlink : r.traceLinkingEnabled = true) (hr : r.Uninstrumented) (hcb : cb.KeepFrame)
    (hdepth : depth + 256 ≤ 2 ^ 64) (hne : elf.entryAddr ≠ 0) (hlow : elf.entryAddr.toNat < 2 ^ 31)
    (hpc : s.pc = h.base) (hS : cacheUse h r elf S ≤ 2 ^ 18) (f : TrapFrame) :
    ∃ c, Exits direct ((rootDispatcher h elf cfgGenerator).cache.code h) s c ∧
      c.pc = h.initSwitch ∧
      ∀ ret, InitReturned a e depth (execs direct c initSwitch) ret →
        ret.regs a0 = (init h r cb (rootDispatcher h elf cfgGenerator) f).returnVal →
        AtEntry a e elf depth s (guestEntry elf ret) ∧
        ∀ l g', Steps (TracedWithin elf depth S) l ⟨guestEntry elf ret, ∅⟩ g' →
          Tracks (LinkedTurn h r cb depth) (· = none) (fun _ => False)
            (fun x' => Pursues h r cb elf g' x' ∧
              (TracedEnds elf g' → ∀ io below, HostEnds h r cb io below x')) l
            ⟨execs direct ret initRestore,
              (init h r cb (rootDispatcher h elf cfgGenerator) f).dispatcher⟩ := by
  obtain ⟨c, hexits, hc, hstart, hsame⟩ := exits_root h elf hpc
  refine ⟨c, hexits, hc, fun ret hret hval => ⟨atEntry_guestEntry hstart hsame hret, ?_⟩⟩
  have hpaid : PaidWithin h r elf S _ := @paidWithin_init h r cb elf cfgGenerator S f
  have hfits : (init h r cb (rootDispatcher h elf cfgGenerator) f).dispatcher.cache.Fits :=
    (hpaid.length_le.trans hS).trans (by decide)
  have hfirst := @pursues_entry h r cb elf cfgGenerator hbase hlink hr hne hlow f ret hfits hval
  intro l g' hturns
  have htracks := (shadows_within hbase hlink hr hcb hdepth hS).tracks ⟨hfirst, hpaid⟩ hturns
  refine htracks.mono ?_
  rintro x' - ⟨hp, hpaid'⟩
  exact ⟨hp, fun hends io => hp.ends hbase hlink hr hcb (hpaid'.near hS) hends⟩

/-- The process that loops, with two visits at most in the first two turns. -/
theorem looping_runs : ∃ ret g', AtEntry oneArg blankFile loopingText 0
      (loadGuest 0x01000000) (guestEntry loopingText ret) ∧ g'.machine.regs 5 = 2 ∧
    Tracks (LinkedTurn requestedHost (.plain true) idleCallbacks 0) (· = none) (fun _ => False)
      (fun x' => Pursues requestedHost (.plain true) idleCallbacks loopingText g' x' ∧
        (TracedEnds loopingText g' →
          ∀ io below, HostEnds requestedHost (.plain true) idleCallbacks io below x')) [none, none]
      ⟨execs direct ret initRestore, started (.plain true) loopingText⟩ := by
  have hentry : loopingText.entryAddr = 0x10000 := by decide +kernel
  have huse : cacheUse requestedHost (.plain true) loopingText {0x10000} ≤ 2 ^ 18 := by
    decide +kernel
  obtain ⟨c, -, -, hruns⟩ := @fitting_process_runs_linked requestedHost (.plain true)
    idleCallbacks 0 loopingText none {0x10000} oneArg blankFile (loadGuest 0x01000000) rfl rfl
    (Rail.uninstrumented_plain true) keepFrame_idleCallbacks (by decide)
    (by rw [hentry]; decide) (by rw [hentry]; decide) rfl huse fun _ => 0
  obtain ⟨ret, hret, hval⟩ := @exists_initReturned oneArg blankFile
    (by rw [length_stackWords]; decide) 0 (execs direct c initSwitch) _
  obtain ⟨hat, hall⟩ := hruns ret hret hval
  obtain ⟨g₁, hpc₁, hregs₁, hturn₁⟩ := @turn_looping ⟨guestEntry loopingText ret, ∅⟩
    (hat.pc.trans hentry)
  obtain ⟨g₂, hpc₂, hregs₂, hturn₂⟩ := turn_looping hpc₁
  have hin {g : Guest} (hpc : g.machine.pc = 0x10000) :
      g.machine.pc ∈ ({0x10000} : Finset DWord) := Finset.mem_singleton.mpr hpc
  refine ⟨ret, g₂, hat, ?_, hall _ g₂ (.cons ⟨hturn₁, hin hpc₁⟩ (.single ⟨hturn₂, hin hpc₂⟩))⟩
  have hzero : (guestEntry loopingText ret).regs 5 = 0 := hat.cleared 5 (by decide)
  rw [hregs₂, hregs₁, hzero]
  rfl

end Traces

end RailTranslator
