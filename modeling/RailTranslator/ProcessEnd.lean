import RailTranslator.FittingRuns
import RailTranslator.GuestCfg
import RailTranslator.ObservedRuns
import RailTranslator.SyscallLayout

/-!
What happens at the end of the process, and only there: `exit_binary` calls the
exit routine and writes the control flow graph.

Without traces the graph is that of the guest. `stub` adds an edge for every
block that is left, and in between there is the whole run of the translated
guest; what is written in the end is the walk of the guest itself, from the
start to its entry, from block to block, and to the end.
-/

namespace RailTranslator

open Rv64 Transition Tally

/-! ### The end -/

structure Going (d : Dispatcher) : Prop where
  calls : ∀ func, Call.exit func ∉ d.calls
  graph : ∀ g, d.cfgGenerator = some g → g.writefile = []

/-- Both has been done, once, and nothing behind it. -/
def Ended (r : Rail) (d : Dispatcher) : Prop :=
  ∃ d₀, Going d₀ ∧ d.calls = d₀.calls ++ r.exitRoutine.toList.map .exit ∧
    d.cfgGenerator = d₀.cfgGenerator.map fun g =>
      (g.addEdge (hexAddress d₀.current.basicBlockAddress) "END").finish

section End

variable {h : Host} {r : Rail} {cb : Callbacks} {io : IoRequest → DWord} {elf : ElfReader}
  {cfgGenerator : Option CfgGenerator} {ok : Dispatcher → Event → Prop}
  {l : List (Dispatcher × Event)} {d d' : Dispatcher} {f : TrapFrame} {taken a : DWord}

theorem exit_notMem_instCalls (p : InstRoutine → Bool) (inst : RvInst) (routines : List InstRoutine)
    (func : ℕ) : Call.exit func ∉ instCalls p inst routines := by
  simp [instCalls]

theorem exit_notMem_bbCalls (p : BBRoutine → Bool) (b : RailBasicBlock) (routines : List BBRoutine)
    (func : ℕ) : Call.exit func ∉ bbCalls p b routines := by
  simp [bbCalls]

theorem exit_notMem_systemCalls (last : LastInst) (func : ℕ) :
    Call.exit func ∉ systemCalls r last := by
  rw [systemCalls]
  split_ifs <;> simp [exit_notMem_instCalls]

theorem exit_notMem_postCalls (current : RailBasicBlock) (inst : RvInst) (func : ℕ) :
    Call.exit func ∉ postCalls r current inst := by
  rw [postCalls]
  split_ifs <;> simp [exit_notMem_instCalls, exit_notMem_bbCalls]

theorem exit_notMem_preCalls (bounded : Bool) (next : RailBasicBlock) (func : ℕ) :
    Call.exit func ∉ preCalls h r bounded next := by
  rw [preCalls]
  split_ifs <;> simp [exit_notMem_instCalls, exit_notMem_bbCalls]

theorem exit_notMem_instrumentCalls (current : RailBasicBlock) (func : ℕ) :
    Call.exit func ∉ instrumentCalls h r current := by
  rw [instrumentCalls]
  split_ifs <;> simp [exit_notMem_instCalls]

theorem Going.more (hd : Going d) {calls : List Call} (hcalls : d'.calls = d.calls ++ calls)
    (hother : ∀ func, Call.exit func ∉ calls) (hgraph : ∀ g, d'.cfgGenerator = some g →
      ∃ g₀, d.cfgGenerator = some g₀ ∧ g.writefile = g₀.writefile) : Going d' where
  calls func := by
    rw [hcalls, List.mem_append, not_or]
    exact ⟨hd.calls func, hother func⟩
  graph g hg := by
    obtain ⟨g₀, hg₀, hsame⟩ := hgraph g hg
    rw [hsame, hd.graph g₀ hg₀]

theorem writefile_addEdge {graph : Option CfgGenerator} {node1 node2 : String} {g : CfgGenerator}
    (hg : graph.map (·.addEdge node1 node2) = some g) :
    ∃ g₀, graph = some g₀ ∧ g.writefile = g₀.writefile := by
  obtain ⟨g₀, hg₀, rfl⟩ := Option.map_eq_some_iff.mp hg
  exact ⟨g₀, hg₀, rfl⟩

theorem going_init (hfile : ∀ g, cfgGenerator = some g → g.writefile = []) (f : TrapFrame) :
    Going (init h r cb (rootDispatcher h elf cfgGenerator) f).dispatcher := by
  obtain ⟨next, -, hinit⟩ := @init_dispatcher h r cb elf f cfgGenerator
  have hroot : Going (rootDispatcher h elf cfgGenerator) := ⟨fun _ => List.not_mem_nil, hfile⟩
  rw [hinit]
  exact hroot.more (List.nil_append _).symm (exit_notMem_preCalls true next) fun g hg =>
    writefile_addEdge hg

theorem Going.instrument (hd : Going d) : Going (instrument h r cb d f).dispatcher := by
  rw [instrument_dispatcher]
  exact hd.more rfl (exit_notMem_instrumentCalls _) fun g hg => ⟨g, hg, rfl⟩

theorem Going.returned (hd : Going d) {res : Resume}
    (hstub : stub h r cb io d f taken a = .returned res) : Going res.dispatcher := by
  obtain ⟨s, next, hst⟩ := stub_step hstub
  refine hd.more hst.calls (fun func => ?_) fun g hg => ?_
  · simp [exit_notMem_systemCalls, exit_notMem_postCalls, exit_notMem_preCalls]
  · rw [hst.cfgGenerator] at hg
    split at hg
    · exact writefile_addEdge hg
    · exact ⟨g, hg, rfl⟩

theorem Going.exitBinary (hd : Going d) : Ended r (exitBinary r d) := by
  refine ⟨d, hd, ?_, ?_⟩
  · rw [RailTranslator.exitBinary]
    cases r.exitRoutine <;> cases d.cfgGenerator <;> simp [Dispatcher.addEdge]
  · rcases hg : d.cfgGenerator with _ | g
    · rw [RailTranslator.exitBinary]
      cases r.exitRoutine <;> simp [hg]
    · exact cfgGenerator_exitBinary hg

/-- A call of `stub` that ends the process, whether the guest has asked for it
or no block has been found. -/
theorem Going.exited (hd : Going d) (hstub : stub h r cb io d f taken a = .exited d') :
    Ended r d' := by
  rcases hleave : d.leave h r cb io f taken a with s | d₁
  · obtain ⟨-, -, hcalls, hgraph⟩ := before_allocateNext hleave
    rw [stub_of_returned hleave] at hstub
    simp only [enterNext] at hstub
    split at hstub
    · cases hstub
      refine Going.exitBinary (hd.more ((calls_allocateNext _ _).1.trans hcalls)
        (fun func => ?_) fun g hg => ?_)
      · simp [exit_notMem_systemCalls, exit_notMem_postCalls]
      · replace hg := ((calls_allocateNext _ _).2.trans hgraph).symm.trans hg
        split at hg
        · exact writefile_addEdge hg
        · exact ⟨g, hg, rfl⟩
    · cases hstub
  · rw [stub_of_exited hleave] at hstub
    cases hstub
    obtain ⟨-, d₂, rfl, hcalls, -, hgraph⟩ := leave_exited hleave
    exact Going.exitBinary (hd.more hcalls (exit_notMem_instCalls _ _ _) fun g hg =>
      ⟨g, hgraph ▸ hg, rfl⟩)

theorem going_run (hfile : ∀ g, cfgGenerator = some g → g.writefile = [])
    (hrun : Run (dispatch h r cb elf cfgGenerator) ok l d) : Going d := by
  induction hrun with
  | start hs =>
      obtain ⟨f, rfl⟩ := hs
      exact going_init hfile f
  | @next l d d' e _ _ hstep ih =>
      cases e with
      | instrument f =>
          obtain rfl := Option.some.inj hstep
          exact ih.instrument
      | call io f taken a =>
          obtain ⟨res, hstub, rfl⟩ := Option.map_eq_some_iff.mp hstep
          exact ih.returned (StubOutcome.eq_returned hstub)

/-- In both modes and with any routines: as long as the process goes on, neither
is the exit routine called nor the graph written; when a call ends the process,
the exit routine has been called once, behind all others, and the graph has been
written, with one more edge. -/
theorem ends_once (hfile : ∀ g, cfgGenerator = some g → g.writefile = [])
    (hrun : Run (dispatch h r cb elf cfgGenerator) ok l d) : Going d ∧
      ∀ io f taken a d', stub h r cb io d f taken a = .exited d' → Ended r d' :=
  ⟨going_run hfile hrun, fun _ _ _ _ _ hstub => (going_run hfile hrun).exited hstub⟩

end End

/-- The guest jumps and asks for its end, in a process with an exit routine. -/
theorem exitingText_endsOnce : ∃ l d d' calls, ∃ g : CfgGenerator, ∃ x,
    Run (dispatch requestedHost ((Rail.plain false).setExitRoutine 9) idleCallbacks exitingText
      (some ⟨[], []⟩)) Any l d ∧ l.length = 1 ∧
    stub requestedHost ((Rail.plain false).setExitRoutine 9) idleCallbacks (fun _ => 0) d exitFrame
      0 0 = .exited d' ∧
    d'.calls = calls ++ [.exit 9] ∧ .exit 9 ∉ calls ∧
    d'.cfgGenerator = some (g.addEdge (hexAddress x) "END").finish ∧ g.writefile = [] ∧
    (g.addEdge (hexAddress x) "END").finish.writefile =
      ["\"START\" -> \"10000\" [label=\"1\"];", "\"10000\" -> \"10008\" [label=\"1\"];",
        "\"10008\" -> \"END\" [label=\"1\"];"] := by
  generalize hd₀ : (init requestedHost ((Rail.plain false).setExitRoutine 9) idleCallbacks
    (rootDispatcher requestedHost exitingText (some ⟨[], []⟩)) fun _ => 0).dispatcher = d₀
  have hstart : Run (dispatch requestedHost ((Rail.plain false).setExitRoutine 9) idleCallbacks
    exitingText (some ⟨[], []⟩)) Any [] d₀ := .start ⟨_, hd₀.symm⟩
  have hstep : ((dispatch requestedHost ((Rail.plain false).setExitRoutine 9) idleCallbacks
      exitingText (some ⟨[], []⟩)).step d₀ (leaving 1 0)).map (fun d =>
        ((stub requestedHost ((Rail.plain false).setExitRoutine 9) idleCallbacks (fun _ => 0) d
          exitFrame 0 0).toOption.isNone,
        (d.behind requestedHost ((Rail.plain false).setExitRoutine 9) idleCallbacks
          (.call (fun _ => 0) exitFrame 0 0)).cfgGenerator.map (·.writefile))) =
      some (true, some ["\"START\" -> \"10000\" [label=\"1\"];",
        "\"10000\" -> \"10008\" [label=\"1\"];", "\"10008\" -> \"END\" [label=\"1\"];"]) := by
    rw [← hd₀]
    decide +kernel
  obtain ⟨d, hd, hend⟩ := Option.map_eq_some_iff.mp hstep
  obtain ⟨hnone, hlines⟩ := Prod.mk.inj hend
  have hrun := hstart.next trivial hd
  have hfile (g : CfgGenerator) (hg : some (CfgGenerator.mk [] []) = some g) : g.writefile = [] := by
    cases hg
    rfl
  rcases hstub : stub requestedHost ((Rail.plain false).setExitRoutine 9) idleCallbacks (fun _ => 0)
    d exitFrame 0 0 with res | d'
  · rw [hstub] at hnone
    cases hnone
  · obtain ⟨d₁, hgoing, hcalls, hgraph⟩ := (ends_once hfile hrun).2 _ _ _ _ _ hstub
    rw [Dispatcher.behind, hstub] at hlines
    obtain ⟨g', hg', hwritten⟩ := Option.map_eq_some_iff.mp hlines
    rw [hgraph] at hg'
    obtain ⟨g, hg, rfl⟩ := Option.map_eq_some_iff.mp hg'
    refine ⟨_, d, d', d₁.calls, g, _, hrun, rfl, hstub, hcalls, hgoing.calls 9, ?_,
      hgoing.graph g hg, hwritten⟩
    rw [hgraph, hg]
    rfl

/-! ### Blocks that begin basic blocks -/

section Own

variable {h : Host} {r : Rail} {cb : Callbacks} {elf : ElfReader}
  {cfgGenerator : Option CfgGenerator} {g : Guest} {x : HostState}

/-- Without routines for instructions every block begins a basic block. -/
theorem recordRule_ownBlock (hr : r.BlocksOnly) (hlink : r.traceLinkingEnabled = false) :
    RecordRule h r elf fun x b => b = .empty ∨ PlainBlock x b :=
  recordRule_plainBlock hr.segmentsBB hr.noTypedPre hlink

theorem Simulates.plainBlock (hr : r.BlocksOnly) (hlink : r.traceLinkingEnabled = false)
    (hsim : Simulates h r cb elf cfgGenerator g x) :
    PlainBlock g.machine.pc x.dispatcher.current := by
  obtain ⟨⟨l, hrun⟩, hcurrent, b, hb, hne, -⟩ := hsim
  have hcur : x.dispatcher.current = b := by
    rw [Dispatcher.current, CodeCache.lookup_of_some (hcurrent ▸ hb)]
  rw [hcur]
  exact (((recordRule_ownBlock hr hlink).run hrun).2 _ b hb).resolve_left hne

end Own

/-! ### Edges -/

/-- The steps of the walk have been counted, and it stands at the current block. -/
structure Draws (walk : List Node) (d : Dispatcher) : Prop where
  counts : ∃ g, d.cfgGenerator = some g ∧ g.writefile = [] ∧
    Counts g.entries ((steps walk).map edgeKey)
  stands : ∃ front, walk = front ++ [.addr d.current.basicBlockAddress]

section Draws

variable {h : Host} {r : Rail} {cb : Callbacks} {depth : ℕ} {io : IoRequest → DWord}
  {elf : ElfReader} {cfgGenerator : Option CfgGenerator} {S : Finset DWord} {g g' : Guest}
  {x x' : HostState} {walk : List Node}

def walkTo (elf : ElfReader) (heads : List DWord) : List Node :=
  .start :: .addr elf.entryAddr :: heads.map .addr

theorem walkTo_snoc (heads : List DWord) (a : DWord) :
    walkTo elf (heads ++ [a]) = walkTo elf heads ++ [.addr a] := by
  rw [walkTo, List.map_append]
  rfl

theorem draws_init (hr : r.BlocksOnly) (hlink : r.traceLinkingEnabled = false)
    (hsim : Simulates h r cb elf cfgGenerator g x) {f : TrapFrame}
    (hstart : x.dispatcher = (init h r cb (rootDispatcher h elf (some ⟨[], []⟩)) f).dispatcher)
    (hentry : g.machine.pc = elf.entryAddr) :
    Draws (walkTo elf []) x.dispatcher := by
  obtain ⟨next, -, hinit⟩ := @init_dispatcher h r cb elf f (some ⟨[], []⟩)
  have hplain := hsim.plainBlock hr hlink
  refine ⟨⟨_, by rw [hstart, hinit]; rfl, rfl, ?_⟩, [.start], ?_⟩
  · have hempty : Counts (CfgGenerator.mk [] []).entries
        ((steps ([] ++ [Node.start])).map edgeKey) := counts_nil
    exact counts_addEdge (.addr elf.entryAddr) hempty
  · rw [hplain.basicBlockAddress, hentry]
    rfl

theorem Draws.turn (hlink : r.traceLinkingEnabled = false) (hr : r.BlocksOnly)
    (hcb : cb.KeepFrame) (hdepth : depth + 256 ≤ 2 ^ 64) (hrange : elf.InRange)
    (hsim : Simulates h r cb elf cfgGenerator g x) (hturn : GuestTurn r elf depth io g g')
    (hhost : HostTurn h r cb depth io x x') (hdraws : Draws walk x.dispatcher) :
    Draws (walk ++ [.addr g'.machine.pc]) x'.dispatcher := by
  obtain ⟨hsim', io', f, taken, a, res, hstub, hx', -⟩ :=
    hsim.visited hlink hr.noTypedPre hcb hdepth hturn hhost
  obtain ⟨s, next, hst⟩ := stub_step hstub
  obtain ⟨⟨graph, hgraph, hfile, hcounts⟩, front, hfront⟩ := hdraws
  have hplain := hsim.plainBlock hr hlink
  have hplain' := hsim'.plainBlock hr hlink
  obtain ⟨l, hrun⟩ := hsim.reachable
  obtain ⟨l', hrun'⟩ := hsim'.reachable
  have hassigned : (x.dispatcher.left h a).exitType.Assigned := by
    rw [left_of_exits (exits_run hlink hrun)]
    exact hplain.assigned
  -- the block that is entered is that of the guest's next instruction
  have hnext : s.nextBlockAddr = g'.machine.pc := by
    rw [hx'] at hrun' hplain'
    obtain ⟨-, -, hfirst, hcurrent⟩ := hst.entered hlink hrange hrun'
    have haddr : res.dispatcher.current.firstAddr = next.firstAddr := by
      rw [hcurrent]
      split <;> rfl
    rw [← hfirst, ← haddr, hplain'.firstAddr]
  refine ⟨⟨graph.addEdge (Node.addr g.machine.pc).text (Node.addr g'.machine.pc).text, ?_, hfile,
    ?_⟩, walk, ?_⟩
  · rw [hx', hst.cfgGenerator, if_pos hassigned, hgraph, hplain.basicBlockAddress, hnext]
    rfl
  · rw [hplain.basicBlockAddress] at hfront
    rw [hfront] at hcounts ⊢
    exact counts_addEdge _ hcounts
  · rw [hplain'.basicBlockAddress]

theorem draws_run (hlink : r.traceLinkingEnabled = false) (hr : r.BlocksOnly)
    (hcb : cb.KeepFrame) (hdepth : depth + 256 ≤ 2 ^ 64) (hrange : elf.InRange)
    (hS : cacheUse h r elf S ≤ cacheSize / 4) (hsim : Simulates h r cb elf cfgGenerator g x)
    (hpaid : PaidWithin h r elf S x.dispatcher) (hinit : Draws (walkTo elf []) x.dispatcher)
    {l : List (IoRequest → DWord)} {heads : List DWord}
    (hseen : Seen (TurnWithin r elf depth S) (fun _ g' => g'.machine.pc) l g g' heads)
    (hhost : Steps (HostTurn h r cb depth) l x x') :
    Draws (walkTo elf heads) x'.dispatcher := by
  have hfollows := @follows_within h r cb depth elf cfgGenerator S hlink hr.noTypedPre hcb hdepth hS
  refine hfollows.gathers (P := fun heads x => Draws (walkTo elf heads) x.dispatcher)
    (fun hsim hturn hhost hdraws => ?_) ⟨hsim, hpaid⟩ hseen hhost hinit
  rw [walkTo_snoc]
  exact hdraws.turn hlink hr hcb hdepth hrange hsim.1 hturn.1 hhost

end Draws

/-! ### The graph -/

def graphLines (walk : List Node) : List String :=
  (steps walk).dedup.map fun e => edgeLine e ((steps walk).count e)

section Graph

variable {h : Host} {r : Rail} {cb : Callbacks} {depth : ℕ} {elf : ElfReader} {S : Finset DWord}
  {g' : Guest} {x x' : HostState} {walk : List Node} {io : IoRequest → DWord} {f : TrapFrame}
  {taken a : DWord} {d : Dispatcher}

/-- `exit_binary` adds the last step and writes the lines. -/
theorem Draws.written (hdraws : Draws walk x.dispatcher)
    (hleave : x.dispatcher.leave h r cb io f taken a = .exited d)
    (hfew : ∀ e, (steps (walk ++ [.finish])).count e < 2 ^ 31) :
    ∃ graph, d.cfgGenerator = some graph ∧
      graph.writefile.Perm (graphLines (walk ++ [.finish])) := by
  obtain ⟨⟨graph, hgraph, hfile, hcounts⟩, front, hfront⟩ := hdraws
  obtain ⟨-, d₁, rfl, -, hcache, hcfg⟩ := leave_exited hleave
  have hcur : d₁.current = x.dispatcher.current := by
    rw [← current_lookedUp x.dispatcher, Dispatcher.current, hcache]
    rfl
  refine ⟨_, cfgGenerator_exitBinary (hcfg.trans hgraph), perm_lines hfile ?_ hfew⟩
  rw [hfront] at hcounts
  have hlast := @counts_addEdge graph front (.addr x.dispatcher.current.basicBlockAddress) .finish
    hcounts
  rw [hcur, hfront]
  exact hlast

/-- The graph that `exit_binary` writes is that of the guest's run: when the
guest runs from its entry through blocks with these heads and ends, wherever the
host has come with it, the process ends, and there is one line for each step of
the guest's walk, with the number of times it was taken. -/
theorem guest_graph_written (hlink : r.traceLinkingEnabled = false) (hr : r.BlocksOnly)
    (hcb : cb.KeepFrame) (hdepth : depth + 256 ≤ 2 ^ 64) (hrange : elf.InRange)
    (hentry : Enterable r elf elf.entryAddr) (hS : cacheUse h r elf S ≤ cacheSize / 4)
    {ret : Machine} (hval : ret.regs a0 =
      (init h r cb (rootDispatcher h elf (some ⟨[], []⟩)) f).returnVal)
    {l : List (IoRequest → DWord)} {heads : List DWord}
    (hseen : Seen (TurnWithin r elf depth S) (fun _ g' => g'.machine.pc) l
      ⟨guestEntry elf ret, ∅⟩ g' heads) (hends : GuestEnds r elf g')
    (hfew : ∀ e, (steps (walkTo elf heads ++ [.finish])).count e < 2 ^ 31) :
    (∃ x', Steps (HostTurn h r cb depth) l ⟨execs direct ret initRestore,
      (init h r cb (rootDispatcher h elf (some ⟨[], []⟩)) f).dispatcher⟩ x') ∧
    ∀ x', Steps (HostTurn h r cb depth) l ⟨execs direct ret initRestore,
        (init h r cb (rootDispatcher h elf (some ⟨[], []⟩)) f).dispatcher⟩ x' →
      ∀ io below, ∃ k e d graph, Exits direct (x'.dispatcher.cache.code h) x'.machine e ∧
        e.pc = h.handler k ∧ stub h r cb io x'.dispatcher (stubFrame k e below)
          ((atStub k e).regs a1) ((atStub k e).regs a3) = .exited d ∧
        d.cfgGenerator = some graph ∧
        graph.writefile.Perm (graphLines (walkTo elf heads ++ [.finish])) := by
  have hfollows := @follows_within h r cb depth elf (some ⟨[], []⟩) S hlink hr.noTypedPre hcb hdepth
    hS
  have hfirst := @simulates_entry h r cb elf (some ⟨[], []⟩) ret hlink hr.noTypedPre hentry f hval
  have hpaid := @paidWithin_init h r cb elf (some ⟨[], []⟩) S f
  have hinit := draws_init hr hlink hfirst rfl rfl
  refine ⟨hfollows.exists_run ⟨hfirst, hpaid⟩ hseen.steps, fun x' hhost io below => ?_⟩
  have hdraws := draws_run hlink hr hcb hdepth hrange hS hfirst hpaid hinit hseen hhost
  obtain ⟨hsim, hpaid'⟩ := hfollows.related ⟨hfirst, hpaid⟩ hseen.steps hhost
  obtain ⟨hguest, hw, hop, hnumber, hlow⟩ := hends
  obtain ⟨k, e, d, hexits, hpc, -, hleave, -⟩ := hsim.leave_exited hlink hr.noTypedPre hcb
    (hpaid'.length_le.trans hS) hguest hw hop hnumber hlow below
  obtain ⟨graph, hgraph, hwritten⟩ := hdraws.written hleave hfew
  exact ⟨k, e, _, graph, hexits, hpc, stub_of_exited hleave, hgraph, hwritten⟩

end Graph

/-! A guest that jumps over an instruction and ends. -/

theorem leaping_written : ∃ ret x' k e d graph,
    AtEntry oneArg blankFile leapingText 0 (loadGuest 0x01000000) (guestEntry leapingText ret) ∧
    Steps (HostTurn requestedHost watching idleCallbacks 0) [fun _ => 0] ⟨execs direct ret initRestore,
      (init requestedHost watching idleCallbacks
        (rootDispatcher requestedHost leapingText (some ⟨[], []⟩)) fun _ => 0).dispatcher⟩ x' ∧
    stub requestedHost watching idleCallbacks (fun _ => 0) x'.dispatcher (stubFrame k e 0)
      ((atStub k e).regs a1) ((atStub k e).regs a3) = .exited d ∧ d.cfgGenerator = some graph ∧
    graph.writefile.Perm ["\"START\" -> \"10000\" [label=\"1\"];",
      "\"10000\" -> \"10008\" [label=\"1\"];", "\"10008\" -> \"END\" [label=\"1\"];"] := by
  have hentry : leapingText.entryAddr = 0x10000 := by decide +kernel
  have henter : Enterable watching leapingText leapingText.entryAddr :=
    ⟨by rw [hentry]; decide, by rw [hentry]; decide, by rw [hentry]; exact hasBlock_leaping.1⟩
  have huse : cacheUse requestedHost watching leapingText {0x10008} ≤ cacheSize / 4 := by
    decide +kernel
  obtain ⟨c, -, -, hstart, hsame⟩ := exits_root requestedHost leapingText
    (show (loadGuest 0x01000000).pc = requestedHost.base from rfl)
  obtain ⟨ret, hret, hval⟩ := @exists_initReturned oneArg blankFile
    (by rw [length_stackWords]; decide) 0 (execs direct c initSwitch) _
  have hat : AtEntry oneArg blankFile leapingText 0 (loadGuest 0x01000000)
      (guestEntry leapingText ret) := atEntry_guestEntry hstart hsame hret
  obtain ⟨g', hpc, hturn⟩ := @turn_leaping watching (fun _ => 0) ⟨guestEntry leapingText ret, ∅⟩
    (hat.pc.trans hentry)
  have hin : g'.machine.pc ∈ ({0x10008} : Finset DWord) := Finset.mem_singleton.mpr hpc
  have hshort : (steps (walkTo leapingText [g'.machine.pc] ++ [.finish])).length < 2 ^ 31 := by
    rw [hpc]
    decide +kernel
  obtain ⟨⟨x', hhost⟩, hwritten⟩ := guest_graph_written rfl blocksOnly_watching
    keepFrame_idleCallbacks (by decide) (inRange_ofWords (by decide) (by decide)) henter huse hval
    (.cons ⟨hturn, hin⟩ (.nil g')) (ends_leaping blocksOnly_watching.segmentsBB hpc) fun e =>
      List.count_le_length.trans_lt hshort
  obtain ⟨k, e, d, graph, -, -, hstub, hgraph, hlines⟩ := hwritten x' hhost (fun _ => 0) 0
  refine ⟨ret, x', k, e, d, graph, hat, hhost, hstub, hgraph, ?_⟩
  rw [hpc] at hlines
  exact hlines.trans (List.Perm.of_eq (by decide +kernel))

end RailTranslator
