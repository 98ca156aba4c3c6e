import RailTranslator.Visits

/-!
The guest under translation follows the guest, over whole runs, in the mode
without traces.

A turn of the host is what happens between two entries of a block: the code in
the cache runs to a context switch, which stores the registers, `stub` finds or
translates the successor and returns, and the context switch loads the
registers and jumps to the block. `Simulates` relates the guest with such an
entry. `follows` says that every turn of the guest is taken by the host, in
whatever way the functions that are called use the stack; routines may be
registered, as long as they leave the frame alone and none is a typed PRE
routine.
-/

namespace RailTranslator

open Rv64 Transition

/-! ### The host -/

/-- The machine that runs the code in the cache, and the dispatcher. -/
structure HostState where
  machine : Machine
  dispatcher : Dispatcher

/-- A visit to the dispatcher: the code in the cache, as long as it fits there,
runs to the routine `k`, which is entered in state `e`; `stub`, which finds
`below` underneath the frame, returns `res`, in the state `ret`, and the routine
jumps to the address it has answered. -/
structure Visit (h : Host) (r : Rail) (cb : Callbacks) (depth : ℕ) (io : IoRequest → DWord)
    (x x' : HostState) (k : SwitchRoutine) (e : Machine) (below : DWord) (ret : Machine)
    (res : Resume) : Prop where
  fits : x.dispatcher.cache.Fits
  exits : Exits direct (x.dispatcher.cache.code h) x.machine e
  handler : e.pc = h.handler k
  calls : k ≠ .contextSwitchInstrument
  stub : stub h r cb io x.dispatcher (stubFrame k e below) ((atStub k e).regs a1)
    ((atStub k e).regs a3) = .returned res
  returned : Returned depth (atStub k e) ret
  returnVal : ret.regs a0 = res.returnVal
  frame : ∀ i, i ≠ 0 → i ≠ sp →
    ret.mem.read (frameEntry ((atStub k e).regs sp) i) 8 = res.frame i
  machine : x'.machine = execs direct ret restoreContext
  dispatcher : x'.dispatcher = res.dispatcher

def HostTurn (h : Host) (r : Rail) (cb : Callbacks) (depth : ℕ) (io : IoRequest → DWord)
    (x x' : HostState) : Prop :=
  ∃ k e below ret res, Visit h r cb depth io x x' k e below ret res

/-- The block of the guest's next instruction is current, and is being entered
with the guest's registers and memory. -/
structure Simulates (h : Host) (r : Rail) (cb : Callbacks) (elf : ElfReader)
    (cfgGenerator : Option CfgGenerator) (g : Guest) (x : HostState) : Prop where
  reachable : ∃ l, Run (dispatch h r cb elf cfgGenerator) Any l x.dispatcher
  current : x.dispatcher.cache.currentBB.setWidth 64 = g.machine.pc
  entered : ∃ b, x.dispatcher.cache.railBasicBlocks g.machine.pc = some b ∧ b ≠ .empty ∧
    Entered b.startLocationInCache g.spoiled g.machine x.machine

/-! ### One turn -/

/-- The block of the guest runs to the handler of `k`, and the call lands in the
block where the guest is in state `g`. -/
structure FollowedTo (h : Host) (r : Rail) (cb : Callbacks) (depth : ℕ) (io : IoRequest → DWord)
    (x : HostState) (g : Guest) (k : SwitchRoutine) (e : Machine) (below : DWord)
    (res : Resume) : Prop where
  exits : Exits direct (x.dispatcher.cache.code h) x.machine e
  handler : e.pc = h.handler k
  calls : k ≠ .contextSwitchInstrument
  stub : stub h r cb io x.dispatcher (stubFrame k e below) ((atStub k e).regs a1)
    ((atStub k e).regs a3) = .returned res
  lands : Lands res g.machine.pc
  entered : ∀ {start : DWord} {ret : Machine}, start.getLsbD 0 = false →
    Returned depth (atStub k e) ret → ret.regs a0 = start →
    (∀ i, i ≠ 0 → i ≠ sp → ret.mem.read (frameEntry ((atStub k e).regs sp) i) 8 = res.frame i) →
    Entered start g.spoiled g.machine (execs direct ret restoreContext)

/-- A call of `stub` has taken the dispatcher from `d` to `d'`, and it has
returned to the block at `x`. -/
def CallLands (h : Host) (r : Rail) (cb : Callbacks) (d d' : Dispatcher) (x : DWord) : Prop :=
  ∃ io f taken a res, stub h r cb io d f taken a = .returned res ∧ d' = res.dispatcher ∧
    Lands res x

section Turn

variable {h : Host} {r : Rail} {cb : Callbacks} {depth : ℕ} {io : IoRequest → DWord}
  {elf : ElfReader} {cfgGenerator : Option CfgGenerator} {g g' : Guest} {x x' : HostState}

theorem frameOf_stubFrame {D : Set DWord} {s c e : Machine} (hat : AtHandler c e)
    (hagree : Agree D s c) (k : SwitchRoutine) (below : DWord) :
    FrameOf s (stubFrame k e below) := by
  intro i hi hsp
  rw [stubFrame_apply hat, if_neg hi, if_neg hsp, hagree.regs]

theorem followedTo_of_exits (hdepth : depth + 256 ≤ 2 ^ 64) {D : Set DWord} {s s' c e : Machine}
    {k : SwitchRoutine} (hexits : Exits direct (x.dispatcher.cache.code h) x.machine e)
    (hat : AtHandler c e) (hagree : Agree D s c) (he : e.pc = h.handler k)
    (hk : k ≠ .contextSwitchInstrument)
    (hgoes : Continues h r cb io x.dispatcher k.taken ((atStub k e).regs a3) s s')
    (hlands : ∀ {f : TrapFrame} {succ : Successor},
      LeavesFor h r cb io x.dispatcher f k.taken ((atStub k e).regs a3) s' succ →
        ∃ res, RailTranslator.stub h r cb io x.dispatcher f k.taken ((atStub k e).regs a3) =
          .returned res ∧ res.frame = succ.frame ∧ Lands res s'.pc) (below : DWord) :
    ∃ res, FollowedTo h r cb depth io x ⟨s', D ∪ stackBelow depth s⟩ k e below res := by
  have htaken : (atStub k e).regs a1 = k.taken := (atCall_before k hat).a1
  obtain ⟨succ, hsucc⟩ := hgoes.leaves _ (frameOf_stubFrame hat hagree k below)
  obtain ⟨res, hres, hframe, hlanded⟩ := hlands hsucc
  refine ⟨res, hexits, he, hk, by rw [htaken]; exact hres, hlanded, ?_⟩
  intro start ret heven hret hval hentries
  refine entered_of_returned hat hagree hdepth hret hval heven (fun i hi hisp => ?_) hgoes.sp
    hgoes.mem
  rw [hentries i hi hisp, hframe, hsucc.frame i hi hisp]

theorem followedTo_of_arrives (hlink : r.traceLinkingEnabled = false) (hcb : cb.KeepFrame)
    (hdepth : depth + 256 ≤ 2 ^ 64) {l : List (Dispatcher × Event)}
    (hrun : Run (dispatch h r cb elf cfgGenerator) Any l x.dispatcher) {b : RailBasicBlock}
    (hb : x.dispatcher.cache.railBasicBlocks (x.dispatcher.cache.currentBB.setWidth 64) = some b)
    {D : Set DWord} {s s' : Machine} {k : SwitchRoutine}
    (harrives : Arrives h (x.dispatcher.cache.code h) x.machine D s k)
    (hk : k ≠ .contextSwitchInstrument)
    (hgoes : ∀ a, Continues h r cb io x.dispatcher k.taken a s s')
    (hnext : Enterable r elf s'.pc) :
    ∃ k e, ∀ below, ∃ res,
      FollowedTo h r cb depth io x ⟨s', D ∪ stackBelow depth s⟩ k e below res := by
  obtain ⟨c, hagree, hexits⟩ := harrives
  exact ⟨k, _, followedTo_of_exits hdepth hexits (atHandler_atExit c (h.handler k)) hagree rfl hk
    (hgoes _) fun hsucc => stub_lands hlink hcb hrun hb hsucc hnext⟩

theorem Stands.endsAt {d : Dispatcher} {b : RailBasicBlock} {y : DWord} {ps : List Piece}
    {q : BitVec 32} {e : BlockEnd} {s : Machine} (hexits : ∀ y, d.cache.exits y = none)
    (hcurrent : d.current = b) (hb : Stands h r elf d.cache y b ps q e)
    (hq : q = s.pc.setWidth 32) (hlow : s.pc.toNat + 4 < 2 ^ 31)
    (htype : LeavesBy (e.type (elf.fetch q)) (elf.fetch q)) :
    EndsAt elf d s.pc (e.type (elf.fetch q)) := by
  subst hcurrent
  refine ⟨hexits, ?_, ?_, hb.describes.type⟩
  · rw [hb.describes.firstAddr]
    exact hb.describes.truthful htype
  · rw [hb.describes.lastAddr, hq]
    exact asInt_of_low (by omega)

/-- The dispatcher goes on where the guest does behind an instruction that ends
a block. -/
theorem continues_of_step {d : Dispatcher} {s s' : Machine} {w : Word} (hcb : cb.KeepFrame)
    (he : EndsAt elf d s.pc (exitType w)) (hw : elf.guestCode s.pc = some w)
    (hterm : IsTerminal w) (hleave : Leavable s w) (hlow : s.pc.toNat + 4 < 2 ^ 31)
    (hstep : GuestStep elf io s s') (hlow' : s'.pc.toNat < 2 ^ 31) (a : DWord) :
    Continues h r cb io d (exitRoutine w s).taken a s s' := by
  have hfetch := fetch_of_guestCode hw
  cases hstep with
  | write hw' hop hnumber =>
      obtain rfl := Option.some.inj (hw.symm.trans hw')
      rw [exitType, if_pos hop] at he
      exact continues_write hcb (he.left hfetch a) hlow hnumber
  | inst hstep =>
      rw [step, hw, Option.bind_some, Option.map_eq_some_iff] at hstep
      obtain ⟨i, hdec, rfl⟩ := hstep
      rcases hterm with hop | hop | hop | hop
      · rw [exitType, hop] at he
        exact continues_branch he hfetch hop hdec hlow hlow'
      · rw [exitType, hop] at he
        obtain rfl := Option.some.inj ((decode_of_jal hop).symm.trans hdec)
        exact continues_jal he hfetch hop (hleave.link (.inl hop)) hlow hlow'
      · rw [exitType, hop] at he
        obtain ⟨h0, hbase, heven⟩ := hleave.jalr hop
        have hdec' := hdec
        rw [decode_of_jalr hop] at hdec'
        split at hdec'
        · obtain rfl := Option.some.inj hdec'
          exact continues_jalr (he.left hfetch a) hdec (hleave.link (.inr hop)) h0 hbase heven hlow
        · cases hdec'
      · rw [decode_of_system hop] at hdec
        cases hdec

/-- Whatever block the guest runs through, it is executed and left for the next. -/
theorem Simulates.followedTo (hlink : r.traceLinkingEnabled = false) (hr : r.NoTypedPre)
    (hcb : cb.KeepFrame) (hdepth : depth + 256 ≤ 2 ^ 64)
    (hsim : Simulates h r cb elf cfgGenerator g x) (hturn : GuestTurn r elf depth io g g')
    (hfits : x.dispatcher.cache.Fits) :
    ∃ k e, ∀ below, ∃ res, FollowedTo h r cb depth io x g' k e below res := by
  obtain ⟨⟨l, hrun⟩, hcurrent, b, hb, hne, hentered⟩ := hsim
  obtain ⟨ps, q, e, hst⟩ := ((standing_run hlink hr hrun).2 _ b hb).resolve_left hne
  have hexits := exits_run hlink hrun
  rw [← hcurrent] at hb
  have hcur : x.dispatcher.current = b := by
    rw [Dispatcher.current, CodeCache.lookup_of_some hb]
  cases hturn with
  | @ended n D s s₁ s' w hguest hw hterm hleave hlow hstep hnext =>
      obtain ⟨hq, rfl, harrives⟩ := hst.arrives hr hfits hentered hguest hw hterm hleave.stable
      have hfetch := fetch_of_guestCode hw
      have hends := hst.endsAt hexits hcur hq hlow (by
        rw [hq, hfetch]
        exact leavesBy_exitType hterm)
      rw [hq, hfetch] at hends
      exact followedTo_of_arrives hlink hcb hdepth hrun hb harrives (exitRoutine_ne w s₁)
        (continues_of_step hcb hends hw hterm hleave hlow hstep hnext.low) hnext
  | @cut n D s s₁ s' w hguest hw hcut hlow hguest' hund hnext =>
      obtain ⟨hq, rfl, hnot, hpc, harrives⟩ :=
        hst.arrives_cut hr hfits hentered hguest hw hcut hguest' hund
      obtain ⟨hfetch, hzero⟩ := fetch_eq_of_guestCode hw
      have hends := hst.endsAt hexits hcur hq hlow (by
        rw [hq, hfetch]
        exact ⟨hzero, hnot⟩)
      exact followedTo_of_arrives hlink hcb hdepth hrun hb harrives SwitchRoutine.noConfusion
        (fun a => ⟨rfl, rfl, fun f hf => leavesFor_cut hends hfetch hnot hlow hpc hf⟩) hnext

/-- The machine arrives where it does, and `stub` is a function. -/
theorem FollowedTo.unique {k k' : SwitchRoutine} {e e' ret : Machine} {below : DWord}
    {res res' : Resume} (hd : FollowedTo h r cb depth io x g k e below res)
    (hvisit : Visit h r cb depth io x x' k' e' below ret res') : k' = k ∧ e' = e ∧ res' = res := by
  obtain rfl := hvisit.exits.unique hd.exits
  obtain rfl := handler_injective h (hvisit.handler.symm.trans hd.handler)
  obtain rfl := StubOutcome.returned.inj (hvisit.stub.symm.trans hd.stub)
  exact ⟨rfl, rfl, rfl⟩

/-- However the host takes the turn, it comes to where the guest goes. -/
theorem Simulates.visited (hlink : r.traceLinkingEnabled = false) (hr : r.NoTypedPre)
    (hcb : cb.KeepFrame) (hdepth : depth + 256 ≤ 2 ^ 64)
    (hsim : Simulates h r cb elf cfgGenerator g x) (hturn : GuestTurn r elf depth io g g')
    (hhost : HostTurn h r cb depth io x x') :
    Simulates h r cb elf cfgGenerator g' x' ∧
      CallLands h r cb x.dispatcher x'.dispatcher g'.machine.pc := by
  obtain ⟨k', e', below, ret, res', hvisit⟩ := hhost
  obtain ⟨k, e, hfollowed⟩ := hsim.followedTo hlink hr hcb hdepth hturn hvisit.fits
  obtain ⟨res, hd⟩ := hfollowed below
  obtain ⟨rfl, rfl, rfl⟩ := hd.unique hvisit
  refine ⟨?_, io, _, _, _, res', hd.stub, hvisit.dispatcher, hd.lands⟩
  obtain ⟨l, hrun⟩ := hsim.reachable
  have hrun' : ∃ l, Run (dispatch h r cb elf cfgGenerator) Any l x'.dispatcher := by
    rw [hvisit.dispatcher]
    refine ⟨_, hrun.next (e := .call io (stubFrame k' e' below) ((atStub k' e').regs a1)
      ((atStub k' e').regs a3)) trivial ?_⟩
    show (stub h r cb io x.dispatcher _ _ _).toOption.map _ = _
    rw [hd.stub]
    rfl
  obtain ⟨b, hb, hne, hstart⟩ := hd.lands.entered
  rw [← hvisit.dispatcher] at hb
  refine ⟨hrun', ?_, b, hb, hne, ?_⟩
  · rw [hvisit.dispatcher]
    exact hd.lands.current
  · obtain ⟨l', hrun'⟩ := hrun'
    obtain ⟨ps, q, e, hst⟩ := ((standing_run hlink hr hrun').2 _ b hb).resolve_left hne
    rw [hvisit.machine]
    exact hd.entered hst.even hvisit.returned (hvisit.returnVal.trans hstart) hvisit.frame

/-- The translated guest follows the guest, as long as the cache is not full. -/
theorem follows (hlink : r.traceLinkingEnabled = false) (hr : r.NoTypedPre) (hcb : cb.KeepFrame)
    (hdepth : depth + 256 ≤ 2 ^ 64) :
    Follows (GuestTurn r elf depth) (HostTurn h r cb depth)
      (fun x => ¬ x.dispatcher.cache.Fits) (Simulates h r cb elf cfgGenerator) where
  progress := by
    intro io g g' x hsim hturn hfits
    obtain ⟨k, e, hfollowed⟩ := hsim.followedTo hlink hr hcb hdepth hturn (not_not.mp hfits)
    obtain ⟨res, hd⟩ := hfollowed 0
    obtain ⟨ret, hret, hval, hframe⟩ :=
      exists_returned depth (atStub k e) res.frame res.returnVal
    exact ⟨⟨execs direct ret restoreContext, res.dispatcher⟩, k, e, 0, ret, res,
      ⟨not_not.mp hfits, hd.exits, hd.handler, hd.calls, hd.stub, hret, hval, hframe, rfl, rfl⟩⟩
  keeps hsim hturn hhost := (hsim.visited hlink hr hcb hdepth hturn hhost).1

/-! ### Runs -/

theorem steps_of_turns {l : List (IoRequest → DWord)}
    (hturns : Steps (GuestTurn r elf depth) l g g') :
    ∃ l', Steps (GuestStep elf) l' g.machine g'.machine := by
  induction hturns with
  | nil g => exact ⟨[], .nil g.machine⟩
  | cons hturn _ ih =>
      obtain ⟨n, hsteps⟩ := hturn.steps
      obtain ⟨l', hrest⟩ := ih
      exact ⟨_, hsteps.append hrest⟩

/-- Over every run, with any answers of the host: when the guest runs from `g`
to `g'`, block by block, the translated guest that is about to continue `g`
takes as many turns, unless the cache becomes full, and whatever turns it takes,
it is about to continue `g'` then, with its registers, its program counter and
its memory outside the bytes that have been spoiled. -/
theorem guest_run_followed (hlink : r.traceLinkingEnabled = false) (hr : r.NoTypedPre)
    (hcb : cb.KeepFrame) (hdepth : depth + 256 ≤ 2 ^ 64)
    (hsim : Simulates h r cb elf cfgGenerator g x) {l : List (IoRequest → DWord)}
    (hturns : Steps (GuestTurn r elf depth) l g g') :
    (∃ l', Steps (GuestStep elf) l' g.machine g'.machine) ∧
    (∃ l₁ l₂ x', l = l₁ ++ l₂ ∧ Steps (HostTurn h r cb depth) l₁ x x' ∧
      (l₂ = [] ∨ ¬ x'.dispatcher.cache.Fits)) ∧
    ∀ x', Steps (HostTurn h r cb depth) l x x' → Simulates h r cb elf cfgGenerator g' x' :=
  have hfollows := follows hlink hr hcb hdepth
  ⟨steps_of_turns hturns, hfollows.exists_steps hsim hturns,
    fun _ hsteps => hfollows.related hsim hturns hsteps⟩

/-- The guest runs on to a system call by which it ends. -/
inductive GuestEnds (r : Rail) (elf : ElfReader) (g : Guest) : Prop
  | exit {n : ℕ} {s : Machine} {w : Word} (hrun : RunsOn r elf n g.spoiled g.machine s)
      (hw : elf.guestCode s.pc = some w) (hop : w.opcode = Opcode.system)
      (hnumber : s.regs 17 = SystemCall.exit ∨ s.regs 17 = SystemCall.exitGroup)
      (hlow : s.pc.toNat + 4 < 2 ^ 31)

/-- The code in the cache runs to a routine that calls `stub`, which finds
`below` underneath the frame and ends the process through `exit_binary`. -/
def HostEnds (h : Host) (r : Rail) (cb : Callbacks) (io : IoRequest → DWord) (below : DWord)
    (x : HostState) : Prop :=
  ∃ k e d, Exits direct (x.dispatcher.cache.code h) x.machine e ∧ e.pc = h.handler k ∧
    k ≠ .contextSwitchInstrument ∧ stub h r cb io x.dispatcher (stubFrame k e below)
      ((atStub k e).regs a1) ((atStub k e).regs a3) = .exited (exitBinary r d)

/-- The routine that the exit of the block leads to calls `stub` with the guest's
registers, and it finds that the guest ends. -/
theorem Simulates.leave_exited (hlink : r.traceLinkingEnabled = false) (hr : r.NoTypedPre)
    (hcb : cb.KeepFrame) (hsim : Simulates h r cb elf cfgGenerator g x)
    (hfits : x.dispatcher.cache.Fits) {n : ℕ} {s : Machine} {w : Word}
    (hguest : RunsOn r elf n g.spoiled g.machine s) (hw : elf.guestCode s.pc = some w)
    (hop : w.opcode = Opcode.system)
    (hnumber : s.regs 17 = SystemCall.exit ∨ s.regs 17 = SystemCall.exitGroup)
    (hlow : s.pc.toNat + 4 < 2 ^ 31) (below : DWord) :
    ∃ k e d, Exits direct (x.dispatcher.cache.code h) x.machine e ∧ e.pc = h.handler k ∧
      k ≠ .contextSwitchInstrument ∧ x.dispatcher.leave h r cb io (stubFrame k e below)
        ((atStub k e).regs a1) ((atStub k e).regs a3) = .exited (exitBinary r d) ∧
      FrameOf s (stubFrame k e below) := by
  obtain ⟨⟨l, hrun⟩, hcurrent, b, hb, hne, hentered⟩ := hsim
  obtain ⟨ps, q, e, hst⟩ := ((standing_run hlink hr hrun).2 _ b hb).resolve_left hne
  have hcur : x.dispatcher.current = b := by
    rw [Dispatcher.current, CodeCache.lookup_of_some (hcurrent ▸ hb)]
  have hterm : IsTerminal w := .inr (.inr (.inr hop))
  have hstable : StableBranch w s := fun hop' => absurd (hop.symm.trans hop') (by decide)
  obtain ⟨hq, rfl, c, hagree, hexits⟩ :=
    hst.arrives hr hfits hentered hguest hw hterm hstable
  have hfetch := fetch_of_guestCode hw
  have hat := hst.endsAt (exits_run hlink hrun) hcur hq hlow (by
    rw [hq, hfetch]
    exact leavesBy_exitType hterm)
  have htype : exitType w = .syscall := if_pos hop
  rw [hq, hfetch, BlockEnd.type, htype] at hat
  have hframe := frameOf_stubFrame (atHandler_atExit c (h.handler (exitRoutine w s))) hagree
    (exitRoutine w s) below
  obtain ⟨d, hd⟩ := leave_of_exit hcb (hat.left hfetch _) hnumber hframe
  exact ⟨_, _, d, hexits, rfl, exitRoutine_ne w s, hd, hframe⟩

theorem Simulates.ends (hlink : r.traceLinkingEnabled = false) (hr : r.NoTypedPre)
    (hcb : cb.KeepFrame) (hsim : Simulates h r cb elf cfgGenerator g x)
    (hfits : x.dispatcher.cache.Fits) (hends : GuestEnds r elf g) (below : DWord) :
    HostEnds h r cb io below x := by
  obtain ⟨hguest, hw, hop, hnumber, hlow⟩ := hends
  obtain ⟨k, e, d, hexits, hpc, hk, hleave, -⟩ :=
    hsim.leave_exited hlink hr hcb hfits hguest hw hop hnumber hlow below
  exact ⟨k, e, d, hexits, hpc, hk, stub_of_exited hleave⟩

theorem Simulates.not_ends (hlink : r.traceLinkingEnabled = false) (hr : r.NoTypedPre)
    (hcb : cb.KeepFrame) (hdepth : depth + 256 ≤ 2 ^ 64)
    (hsim : Simulates h r cb elf cfgGenerator g x) (hfits : x.dispatcher.cache.Fits)
    (hturn : GuestTurn r elf depth io g g') (below : DWord) : ¬ HostEnds h r cb io below x := by
  rintro ⟨k', e', d', hexits, hhandler, -, hstub⟩
  obtain ⟨k, e, hfollowed⟩ := hsim.followedTo hlink hr hcb hdepth hturn hfits
  obtain ⟨res, hd⟩ := hfollowed below
  obtain rfl := hexits.unique hd.exits
  obtain rfl := handler_injective h (hhandler.symm.trans hd.handler)
  rw [hd.stub] at hstub
  cases hstub

/-- The process ends with the guest: after any run that the host has followed,
it is ended through `exit_binary` when the guest asks for it next, and it is
not as long as the guest goes on to another block. -/
theorem process_ends_with_guest (hlink : r.traceLinkingEnabled = false) (hr : r.NoTypedPre)
    (hcb : cb.KeepFrame) (hdepth : depth + 256 ≤ 2 ^ 64)
    (hsim : Simulates h r cb elf cfgGenerator g x) {l : List (IoRequest → DWord)}
    (hturns : Steps (GuestTurn r elf depth) l g g')
    (hsteps : Steps (HostTurn h r cb depth) l x x') (hfits : x'.dispatcher.cache.Fits)
    (io : IoRequest → DWord) (below : DWord) :
    (GuestEnds r elf g' → HostEnds h r cb io below x') ∧
      ∀ g'', GuestTurn r elf depth io g' g'' → ¬ HostEnds h r cb io below x' := by
  have hsim' := (follows hlink hr hcb hdepth).related hsim hturns hsteps
  exact ⟨fun hends => hsim'.ends hlink hr hcb hfits hends below,
    fun _ hturn => hsim'.not_ends hlink hr hcb hdepth hfits hturn below⟩

end Turn

/-! ### Two guests -/

theorem noTypedPre_plain (b : Bool) : (Rail.plain b).NoTypedPre := fun pc w =>
  (Rail.uninstrumented_plain b).preInstrumented pc w

theorem segmentsBB_plain (b : Bool) (pc : BitVec 32) (w : Word) :
    segmentsBB (.plain b) pc w = false := by
  rw [segmentsBB]
  split_ifs <;> rfl

/-- `addi x5, x5, 1; jal x0, -4`, and a word behind it. -/
def countingText : ElfReader := .ofWords 0x10000 [0x00128293, 0xffdff06f, 0x00000013]

/-- `jal x0, 8; nop; addi x17, x0, 93; ecall`, and a word behind it. -/
def leapingText : ElfReader :=
  .ofWords 0x10000 [0x0080006f, 0x00000013, 0x05d00893, 0x00000073, 0x00000013]

def firstGuest : Guest := ⟨loadGuest 0x10000, bytes 0x3ffffff0 8⟩

def firstHost (r : Rail) (elf : ElfReader) : HostState :=
  ⟨loadGuest 0x01000010, started r elf⟩

theorem simulates_first {r : Rail} {elf : ElfReader}
    (hcurrent : (started r elf).cache.currentBB = 0x10000)
    (hstart : ((started r elf).cache.railBasicBlocks 0x10000).map (·.startLocationInCache) =
      some 0x01000010) :
    Simulates requestedHost r idleCallbacks elf none firstGuest (firstHost r elf) := by
  obtain ⟨b, hb, hloc⟩ := Option.map_eq_some_iff.mp hstart
  refine ⟨⟨[], run_started _ elf Any⟩, ?_, b, hb, ?_, ?_⟩
  · show (started r elf).cache.currentBB.setWidth 64 = 0x10000
    rw [hcurrent]
    decide
  · rintro rfl
    cases hloc
  · rw [hloc]
    exact entered_loadGuest

theorem undisturbed_addi (ok : Instr → Prop) (D : Set DWord) (s : Machine) (rd rs1 : Reg)
    (imm : DWord) : Undisturbed ok D s (.opImm .add rd rs1 imm) where
  straight := trivial
  constant _ _ h := Instr.noConfusion h
  operands hspills := False.elim hspills.1
  stores hspills := False.elim hspills.1
  loads haccess := False.elim haccess

theorem number_addi (s : Machine) :
    ((Instr.opImm .add 17 0 93).exec relocate s).regs 17 = SystemCall.exit := by
  have hsum : s.regs 0 + 93 = 93 := by
    rw [Regs.zero]
    decide
  exact (Regs.set_same s.regs (s.regs 0 + 93) (by decide)).trans hsum

theorem run_addi {elf : ElfReader} {w : Word} {rd rs1 : Reg} {imm : DWord} {s : Machine}
    (hw : elf.guestCode s.pc = some w) (hdec : Instr.decode w = some (.opImm .add rd rs1 imm)) :
    run relocate elf.guestCode 1 s = some ((Instr.opImm .add rd rs1 imm).exec relocate s) := by
  rw [run, step_eq hw hdec]
  rfl

theorem undisturbedRun_addi {elf : ElfReader} {w : Word} {rd rs1 : Reg} {imm : DWord}
    {D : Set DWord} {s : Machine} (hw : elf.guestCode s.pc = some w)
    (hdec : Instr.decode w = some (.opImm .add rd rs1 imm)) :
    UndisturbedRun (fun _ => True) elf.guestCode 1 D s := by
  intro w' i hw' hdec'
  obtain rfl := Option.some.inj (hw.symm.trans hw')
  obtain rfl := Option.some.inj (hdec.symm.trans hdec')
  exact ⟨undisturbed_addi _ D s rd rs1 imm, trivial⟩

theorem runsOn_addi {r : Rail} {elf : ElfReader} {w : Word} {rd rs1 : Reg} {imm : DWord}
    {D : Set DWord} {s : Machine} (hr : ∀ pc w, segmentsBB r pc w = false)
    (hw : elf.guestCode s.pc = some w) (hdec : Instr.decode w = some (.opImm .add rd rs1 imm)) :
    RunsOn r elf 1 D s ((Instr.opImm .add rd rs1 imm).exec relocate s) :=
  ⟨run_addi hw hdec, undisturbedRun_addi hw hdec, hr _ _, trivial⟩

theorem hasBlock_counting {r : Rail} : HasBlock r countingText 0x10000 := by
  have hfetch : countingText.fetch 0x10000 = 0x00128293 ∧
      countingText.fetch (0x10000 + 4) = 0xffdff06f := by decide +kernel
  refine .straight (by rw [hfetch.1]; decide) (.ends ?_ (.inr (.inl ?_))) <;> rw [hfetch.2]
  · decide
  · exact .inr (.inl (by decide))

theorem turn_counting {r : Rail} (hr : ∀ pc w, segmentsBB r pc w = false)
    (io : IoRequest → DWord) {g : Guest} (hpc : g.machine.pc = 0x10000) : ∃ g',
    g'.machine.pc = 0x10000 ∧ g'.machine.regs 5 = g.machine.regs 5 + 1 ∧
      GuestTurn r countingText 0 io g g' := by
  obtain ⟨s, D⟩ := g
  have hadd : countingText.guestCode s.pc = some 0x00128293 := by
    rw [hpc]
    decide +kernel
  have hadd' : Instr.decode 0x00128293 = some (.opImm .add 5 5 1) := by decide +kernel
  have hpc₁ : ((Instr.opImm .add 5 5 1).exec relocate s).pc = 0x10004 := by
    rw [Instr.pc_exec relocate (undisturbed_addi (fun _ => True) D s 5 5 1).straight, hpc]
    decide
  have hjump : countingText.guestCode ((Instr.opImm .add 5 5 1).exec relocate s).pc =
      some 0xffdff06f := by
    rw [hpc₁]
    decide +kernel
  have hjump' : Instr.decode 0xffdff06f = some (.jal 0 (-4)) := by decide +kernel
  -- the jump leads back to the addition
  have hback : ((Instr.jal 0 (-4)).exec relocate
      ((Instr.opImm .add 5 5 1).exec relocate s)).pc = 0x10000 := by
    rw [Instr.exec, Machine.pc_goto, hpc₁]
    decide
  refine ⟨⟨(Instr.jal 0 (-4)).exec relocate ((Instr.opImm .add 5 5 1).exec relocate s), _⟩, hback,
    ?_, .ended (runsOn_addi hr hadd hadd') hjump (.inr (.inl (by decide))) ⟨?_, ?_, ?_⟩
      (by rw [hpc₁]; decide) (.inst (step_eq hjump hjump')) ⟨?_, ?_, ?_⟩⟩
  · have hfive : (5 : Reg) ≠ 0 := by decide
    exact (Regs.set_of_ne _ _ hfive).trans (Regs.set_same s.regs (s.regs 5 + 1) hfive)
  · exact fun hop => absurd hop (by decide)
  · exact fun _ => by decide
  · exact fun hop => absurd hop (by decide)
  · rw [hback]
    decide
  · rw [hback]
    decide
  · rw [hback]
    exact hasBlock_counting

theorem counting_followed : ∃ g' x', g'.machine.regs 5 = 1 ∧
    Steps (HostTurn requestedHost (.plain false) idleCallbacks 0) [fun _ => 0]
      (firstHost (.plain false) countingText) x' ∧
    Simulates requestedHost (.plain false) idleCallbacks countingText none g' x' := by
  obtain ⟨g', -, hregs, hturn⟩ := @turn_counting _ (segmentsBB_plain false) (fun _ => 0) firstGuest rfl
  have hg' : g'.machine.regs 5 = 1 := by
    have hfirst : firstGuest.machine.regs 5 = 0 := by decide +kernel
    rw [hregs, hfirst]
    rfl
  have hfirst := @simulates_first (.plain false) countingText (by decide +kernel) (by decide +kernel)
  obtain ⟨-, ⟨l₁, l₂, x', hl, hsteps, hend⟩, hall⟩ := guest_run_followed rfl
    (noTypedPre_plain false) keepFrame_idleCallbacks (by decide) hfirst (.single hturn)
  have hfits : (firstHost (.plain false) countingText).dispatcher.cache.Fits := by
    rw [CodeCache.Fits]
    decide +kernel
  -- the first turn is taken, since the cache is not full before it
  cases hsteps with
  | nil =>
      rcases hend with rfl | hfull
      · cases hl
      · exact absurd hfits hfull
  | cons hstep hrest =>
      rw [List.cons_append] at hl
      obtain ⟨rfl, htail⟩ := List.cons.inj hl
      obtain ⟨rfl, rfl⟩ := List.append_eq_nil_iff.mp htail.symm
      have hsteps' := Steps.cons hstep hrest
      exact ⟨g', x', hg', hsteps', hall x' hsteps'⟩

theorem hasBlock_leaping {r : Rail} :
    HasBlock r leapingText 0x10000 ∧ HasBlock r leapingText 0x10008 := by
  have hfetch : leapingText.fetch 0x10000 = 0x0080006f ∧ leapingText.fetch 0x10008 = 0x05d00893 ∧
      leapingText.fetch (0x10008 + 4) = 0x00000073 := by
    decide +kernel
  refine ⟨.ends ?_ (.inr (.inl ?_)), .straight ?_ (.ends ?_ (.inr (.inl ?_)))⟩
  · rw [hfetch.1]
    decide
  · rw [hfetch.1]
    exact .inr (.inl (by decide))
  · rw [hfetch.2.1]
    decide
  · rw [hfetch.2.2]
    decide
  · rw [hfetch.2.2]
    exact .inr (.inr (.inr (by decide)))

theorem turn_leaping (r : Rail) (io : IoRequest → DWord) {g : Guest}
    (hpc : g.machine.pc = 0x10000) :
    ∃ g', g'.machine.pc = 0x10008 ∧ GuestTurn r leapingText 0 io g g' := by
  obtain ⟨s, D⟩ := g
  have hjump : leapingText.guestCode s.pc = some 0x0080006f := by
    rw [hpc]
    decide +kernel
  have hjump' : Instr.decode 0x0080006f = some (.jal 0 8) := by decide +kernel
  have hover : ((Instr.jal 0 8).exec relocate s).pc = 0x10008 := by
    rw [Instr.exec, Machine.pc_goto, hpc]
    decide
  have hrun : RunsOn r leapingText 0 D s s := ⟨rfl, trivial, trivial⟩
  refine ⟨⟨(Instr.jal 0 8).exec relocate s, _⟩, hover, .ended hrun hjump
    (.inr (.inl (by decide))) ⟨?_, ?_, ?_⟩ (by rw [hpc]; decide) (.inst (step_eq hjump hjump'))
      ⟨?_, ?_, ?_⟩⟩
  · exact fun hop => absurd hop (by decide)
  · exact fun _ => by decide
  · exact fun hop => absurd hop (by decide)
  · rw [hover]
    decide
  · rw [hover]
    decide
  · rw [hover]
    exact hasBlock_leaping.2

theorem ends_leaping {r : Rail} (hr : ∀ pc w, segmentsBB r pc w = false) {g : Guest}
    (hpc : g.machine.pc = 0x10008) : GuestEnds r leapingText g := by
  have hload : leapingText.guestCode g.machine.pc = some 0x05d00893 := by
    rw [hpc]
    decide +kernel
  have hload' : Instr.decode 0x05d00893 = some (.opImm .add 17 0 93) := by decide +kernel
  have hpc' : ((Instr.opImm .add 17 0 93).exec relocate g.machine).pc = 0x1000c := by
    rw [Instr.pc_exec relocate (undisturbed_addi (fun _ => True) ∅ g.machine 17 0 93).straight, hpc]
    decide
  have hcall : leapingText.guestCode ((Instr.opImm .add 17 0 93).exec relocate g.machine).pc =
      some 0x00000073 := by
    rw [hpc']
    decide +kernel
  exact .exit (runsOn_addi hr hload hload') hcall (by decide) (.inl (number_addi g.machine))
    (by rw [hpc']; decide)

end RailTranslator
