import RailTranslator.CacheLayout
import RailTranslator.DirectExits
import RailTranslator.LinkedExits
import RailTranslator.TracePaths

/-!
The words of the traces, over whole runs with trace linking.

In this mode `stub` overwrites words of the cache, but only in exit stubs.
`Traces` is what holds in every reachable state: for every guest address that
is registered, the words of its trace in front of the exit stub stand where
the record says, no exit stub lies among them, and the trace's own exit stub,
in whatever state it is, stands behind them.
-/

namespace RailTranslator

open Rv64 Transition

/-- The jumps that a trace follows: the first one is a single block. -/
def jumpsFollowed (elf : ElfReader) (x : DWord) : ℕ := if x = elf.entryAddr then 0 else 9

/-- The trace for `x` from index `p` on: `held` are its words between
`restore_scratch` and the exit stub. -/
structure TraceStands (h : Host) (r : Rail) (elf : ElfReader) (c : CodeCache) (H : History)
    (x : DWord) (p : ℕ) (held : List Word) : Prop where
  stands : StandsAt c.memory p (restoreScratch ++ held)
  apart : ∀ e : ExitStub, e.index < 2 ^ 32 → H.recorded e.address (e.exit h elf) →
    e.index + (e.words h elf).length ≤ p ∨ p + 1 + held.length ≤ e.index
  exit : ∀ front q, TraceWalk h r elf (jumpsFollowed elf x + 1) (x.setWidth 32)
      (front ++ [exitPiece h elf q]) q .stopped → held = tracedWords front ∧
    H.recorded (q.signExtend 64) (exitAddress h (p + 1 + held.length) (elf.fetch q))

/-- The record is that of the trace for `x`. -/
def TraceAt (h : Host) (r : Rail) (elf : ElfReader) (c : CodeCache) (H : History) (x : DWord)
    (b : RailBasicBlock) : Prop :=
  b.firstAddr = x ∧ ∃ p held, b.startLocationInCache = wordAddr h.base p ∧
    TraceStands h r elf c H x p held

structure Traces (h : Host) (r : Rail) (elf : ElfReader) (c : CodeCache) (H : History) :
    Prop where
  entry : (c.railBasicBlocks elf.entryAddr).isSome = true
  current : c.currentBB.toNat < 2 ^ 31 →
    (c.railBasicBlocks (c.currentBB.setWidth 64)).isSome = true
  traces : ∀ x b, c.railBasicBlocks x = some b → x ≠ 0 → x.toNat < 2 ^ 31 →
    TraceAt h r elf c H x b
  known : ∀ a E, H.recorded a E → (c.exits a).isSome = true

section Stands

variable {h : Host} {r : Rail} {elf : ElfReader} {c c' : CodeCache} {H H' : History} {x : DWord}
  {b : RailBasicBlock} {p : ℕ} {held : List Word} {stubs : Set ExitStub}

theorem TraceStands.mono (ht : TraceStands h r elf c H x p held) (hm : c.memory <+: c'.memory)
    (hkeep : ∀ a E, H.recorded a E → H'.recorded a E)
    (hnew : ∀ e : ExitStub, e.index < 2 ^ 32 → H'.recorded e.address (e.exit h elf) →
      H.recorded e.address (e.exit h elf) ∨ c.memory.length ≤ e.index) :
    TraceStands h r elf c' H' x p held where
  stands := ht.stands.mono hm
  apart e hi he := by
    rcases hnew e hi he with hold | hbehind
    · exact ht.apart e hi hold
    · have hlen := ht.stands.length_le
      rw [restoreScratch, List.length_append, List.length_singleton] at hlen
      omega
  exit front q hwalk := (ht.exit front q hwalk).imp_right (hkeep _ _)

theorem TraceStands.set (ht : TraceStands h r elf c H x p held) {e : ExitStub}
    (hi : e.index < 2 ^ 32) (he : H.recorded e.address (e.exit h elf)) {i : ℕ}
    (hle : e.index ≤ i) (hlt : i < e.index + (e.words h elf).length) {w : Word}
    (hm : c'.memory = c.memory.set i w) : TraceStands h r elf c' H x p held where
  stands := by
    rw [hm]
    refine ht.stands.set_outside ?_ w
    have hapart := ht.apart e hi he
    rw [restoreScratch, List.length_append, List.length_singleton]
    omega
  apart := ht.apart
  exit := ht.exit

theorem TraceAt.map (ht : TraceAt h r elf c H x b)
    (hstands : ∀ p held, TraceStands h r elf c H x p held → TraceStands h r elf c' H' x p held) :
    TraceAt h r elf c' H' x b := by
  obtain ⟨hfirst, p, held, hstart, hst⟩ := ht
  exact ⟨hfirst, p, held, hstart, hstands p held hst⟩

theorem Linked.index_le (hl : Linked h elf c H stubs) {e : ExitStub} (hi : e.index < 2 ^ 32)
    (he : H.recorded e.address (e.exit h elf)) :
    e.index + (e.words h elf).length ≤ c.memory.length := by
  obtain ⟨e', he', haddr, hexit⟩ := hl.recorded _ _ he
  obtain rfl := exit_inj hi (hl.index_lt he') haddr hexit
  obtain ⟨ws, hstate, hws⟩ := hl.stands e he'
  have hlen := hws.length_le
  rwa [hstate.length] at hlen

theorem Linked.recorded_update (hl : Linked h elf c H stubs) {k : ℕ} {q : BitVec 32}
    (hk : k < 2 ^ 32) (hexits : c'.exits = Function.update c.exits (q.signExtend 64)
      (some (exitAddress h k (elf.fetch q)))) {e : ExitStub} (hi : e.index < 2 ^ 32)
    (he : (H.record c').recorded e.address (e.exit h elf)) :
    H.recorded e.address (e.exit h elf) ∨ e = ⟨k, q⟩ := by
  rcases he with hold | hnew
  · exact .inl hold
  · rw [hexits, Function.update_apply] at hnew
    split at hnew
    · rename_i haddr
      exact .inr (@exit_inj h elf e ⟨k, q⟩ hi hk haddr (Option.some.inj hnew).symm)
    · exact .inl (hl.exits _ _ hnew)

theorem Linked.recorded_same (hl : Linked h elf c H stubs) (hexits : c'.exits = c.exits)
    {a E : DWord} (he : (H.record c').recorded a E) : H.recorded a E := by
  rcases he with hold | hnew
  · exact hold
  · rw [hexits] at hnew
    exact hl.exits _ _ hnew

end Stands

/-! ### The allocator -/

section Allocate

variable {h : Host} {r : Rail} {elf : ElfReader} {c c' : CodeCache} {H : History} {a : DWord}
  {n : ℕ} {pc : BitVec 32} {stubs : Set ExitStub}

theorem TraceWalk.setProgramCounter {i : ℕ} {pc q : BitVec 32} {ps : List Piece} {e : TraceEnd}
    (hwalk : TraceWalk h r elf i pc ps q e) (x : BitVec 32) :
    TraceWalk h r (elf.setProgramCounter x) i pc ps q e :=
  @TraceWalk.of_setProgramCounter h r (elf.setProgramCounter x) elf.programCounter i pc q ps e
    hwalk

theorem Linked.recorded_allocateTrace (hl : Linked h elf c H stubs)
    (hc : (allocateTrace h r (elf.setProgramCounter pc) c a n).2 = c') (hfits : c'.Fits)
    {e : ExitStub} (hi : e.index < 2 ^ 32)
    (he : (H.record c').recorded e.address (e.exit h elf)) :
    H.recorded e.address (e.exit h elf) ∨ c.memory.length ≤ e.index := by
  obtain ⟨-, hadd⟩ := allocateTrace_spec h r (elf.setProgramCounter pc) c a n
  rw [hc] at hadd
  rcases hadd.exits with hsame | ⟨k, q, hk, -, hstub, hexits⟩
  · exact .inl (hl.recorded_same hsame he)
  · have hlen := hstub.length_le
    rw [CodeCache.Fits, cacheSize] at hfits
    refine (hl.recorded_update (by omega) hexits hi he).imp_right ?_
    rintro rfl
    exact hk.le

theorem Linked.exists_traceStands (hr : r.Uninstrumented) (hl : Linked h elf c H stubs)
    (hc : (allocateTrace h r (elf.setProgramCounter pc) c a n).2 = c')
    (hn : n = jumpsFollowed elf (asInt a) + 1) (hfits : c'.Fits) :
    ∃ held, TraceStands h r elf c' (H.record c') (asInt a) c.memory.length held := by
  obtain ⟨ps, q, e, hwalk, -, hmem, -, -, hexits, -, hend, -⟩ :=
    allocateTrace_walk h r (elf.setProgramCounter pc) c a n
  rw [hc] at hmem hexits hend
  rw [CodeCache.Fits, cacheSize] at hfits
  have hfinite : c'.memory.length < loopFuel := lt_of_le_of_lt hfits (by decide)
  have hendless : e ≠ .endless := fun he => absurd (hend he) (Nat.not_le.mpr hfinite)
  -- any other walk that stops is the one the allocator has taken
  have hunique (front : List Piece) (q' : BitVec 32)
      (hwalk' : TraceWalk h r elf (jumpsFollowed elf (asInt a) + 1) ((asInt a).setWidth 32)
        (front ++ [exitPiece h elf q']) q' .stopped) :
      ps = front ++ [exitPiece h elf q'] ∧ q = q' ∧ e = .stopped := by
    rw [← hn, setWidth_asInt] at hwalk'
    exact hwalk.unique hr.toNoCallbacks (hwalk'.setProgramCounter pc) hendless
      TraceEnd.noConfusion
  by_cases he : e = .stopped
  · subst he
    obtain ⟨front, rfl⟩ := hwalk.of_setProgramCounter.eq_concat hr rfl
    have hex := @allocateTrace_exit h r (elf.setProgramCounter pc) n hr c a front q hwalk
      (by rw [hc]; exact hfinite)
    rw [hc] at hex
    have hwords : c'.memory = c.memory ++ ((restoreScratch ++ tracedWords front) ++
        (exitPiece h elf q).words) := by
      rw [hmem, List.flatMap_append, List.flatMap_singleton, List.append_assoc, tracedWords]
    have hlen := congrArg List.length hwords
    simp only [List.length_append, restoreScratch, List.length_singleton] at hlen
    refine ⟨tracedWords front, ⟨c.memory, _, rfl, hwords⟩, fun e hi hrec => ?_,
      fun front' q' hwalk' => ?_⟩
    · rcases hl.recorded_update (by omega) hex hi hrec with hold | rfl
      · exact .inl (hl.index_le hi hold)
      · exact .inr le_rfl
    · obtain ⟨hps, rfl, -⟩ := hunique front' q' hwalk'
      refine ⟨congrArg tracedWords (List.append_cancel_right hps), .inr ?_⟩
      rw [hex, Function.update_self]
      rfl
  · refine ⟨[], ⟨c.memory, _, rfl, hmem⟩, fun e hi hrec => ?_, fun front q' hwalk' => ?_⟩
    · exact .inl (hl.index_le hi (hl.recorded_same (hexits he) hrec))
    · exact absurd (hunique front q' hwalk').2.2 he

end Allocate

/-! ### A call of `stub` -/

section Stub

variable {h : Host} {r : Rail} {cb : Callbacks} {io : IoRequest → DWord} {elf : ElfReader}
  {d : Dispatcher} {H : History} {f : TrapFrame} {taken a : DWord} {res : Resume} {s : Successor}
  {next : RailBasicBlock} {c : CodeCache} {stubs : Set ExitStub}

/-- What linking overwrites: two words of a recorded exit stub, or nothing. -/
theorem Linked.linkExit_cases (hbase : h.base = 0x01000000) (hl : Linked h elf c H stubs)
    (hjal : (elf.fetch (a.setWidth 32)).opcode = Opcode.jal → taken ≠ 0) (next : RailBasicBlock) :
    (RailTranslator.linkExit r c (guestExit h elf (a.setWidth 32)).exitType a next taken).memory =
        c.memory ∨
      ∃ e : ExitStub, e.index < 2 ^ 32 ∧ H.recorded e.address (e.exit h elf) ∧ ∃ i x y,
        e.index ≤ i ∧ i + 1 < e.index + (e.words h elf).length ∧
        (RailTranslator.linkExit r c (guestExit h elf (a.setWidth 32)).exitType a next
          taken).memory = (c.memory.set i x).set (i + 1) y := by
  rw [RailTranslator.linkExit]
  split
  · rename_i hdirect
    rcases hexit : c.exits a with _ | E
    · exact .inl rfl
    · have hrec := hl.exits _ _ hexit
      obtain ⟨e, he, rfl, rfl⟩ := hl.recorded _ _ hrec
      have hpc : e.address.setWidth 32 = e.pc := low_ofLow e.pc
      rw [hpc] at hdirect hjal
      obtain ⟨ws, hstate, hws⟩ := hl.stands e he
      rcases hstate.opcode with hop | hop
      · have hop' : (e.word elf).opcode = Opcode.branch ∨
            (e.word elf).opcode = Opcode.jal ∧ taken ≠ 0 := hop.imp_right fun hop => ⟨hop, hjal hop⟩
        obtain ⟨hle, hlt⟩ := patchIndex_inside (h := h) hop (decide (taken ≠ 0))
        have hi := hl.index_lt he
        have hlen := hl.index_le hi hrec
        have hfits := hl.fits
        rw [CodeCache.Fits, cacheSize] at hfits
        refine .inr ⟨e, hi, hrec, _, _, _, hle, hlt, congrArg CodeCache.memory
          (link_eq hbase hop' (by omega) rfl)⟩
      · exact absurd hdirect.2 (guestExit_other hop)
  · exact .inl rfl

theorem Traces.lookedUp (ht : Traces h r elf d.cache H) :
    Traces h r elf d.lookedUp.cache H := by
  have hmem : d.cache.memory <+: d.lookedUp.cache.memory := by
    rw [Dispatcher.lookedUp, memory_lookup]
  have hcurrent : d.lookedUp.cache.currentBB = d.cache.currentBB := currentBB_lookup _ _
  have hsome {x : DWord} (hx : (d.cache.railBasicBlocks x).isSome = true) :
      (d.lookedUp.cache.railBasicBlocks x).isSome = true := by
    obtain ⟨b, hb⟩ := Option.isSome_iff_exists.mp hx
    rw [Dispatcher.lookedUp, railBasicBlocks_lookup hb]
    rfl
  refine ⟨hsome ht.entry, fun hlow => ?_, fun x b hb hne hlow => ?_, fun a E hE => ?_⟩
  · rw [hcurrent] at hlow ⊢
    exact hsome (ht.current hlow)
  · rcases lookup_cases hb with hold | ⟨rfl, hnone, -⟩
    · exact (ht.traces x b hold hne hlow).map fun p held hst =>
        hst.mono hmem (fun _ _ => id) fun _ _ => .inl
    · rw [BitVec.toNat_setWidth, Nat.mod_eq_of_lt (by omega)] at hlow
      have hsome := ht.current hlow
      rw [hnone] at hsome
      cases hsome
  · rw [Dispatcher.lookedUp, exits_lookup]
    exact ht.known a E hE

theorem Traces.allocate (hr : r.Uninstrumented) (hl : Linked h elf c H stubs)
    (ht : Traces h r elf c H) {x : DWord} (hint : asInt x = x)
    (hnone : c.railBasicBlocks x = none) {pc : BitVec 32} {c' : CodeCache}
    (hc : (allocateTrace h r (elf.setProgramCounter pc) c x 10).2 = c') (hfits : c'.Fits) :
    Traces h r elf c' (H.record c') := by
  obtain ⟨ps, q, e, -, -, hmem, hblocks, ⟨b, hb, hrec⟩, hexits, hstub, -, hcurrent⟩ :=
    allocateTrace_walk h r (elf.setProgramCounter pc) c x 10
  rw [hc] at hmem hblocks hb hexits hstub hcurrent
  rw [hint] at hblocks hb hcurrent
  have hold {y : DWord} (hy : (c.railBasicBlocks y).isSome = true) :
      c'.railBasicBlocks y = c.railBasicBlocks y := by
    refine hblocks y ?_
    rintro rfl
    rw [hnone] at hy
    cases hy
  have hentry : x ≠ elf.entryAddr := by
    rintro rfl
    have hsome := ht.entry
    rw [hnone] at hsome
    cases hsome
  refine ⟨?_, fun hlow => ?_, fun y b' hb' hne hlow => ?_, fun a E hE => ?_⟩
  · rw [hold ht.entry]
    exact ht.entry
  · rw [hcurrent] at hlow ⊢
    rw [setWidth_of_low hint hlow, hb]
    rfl
  · by_cases hy : y = x
    · subst hy
      obtain rfl := Option.some.inj (hb.symm.trans hb')
      obtain ⟨held, hst⟩ := hl.exists_traceStands hr hc
        (by rw [hint, jumpsFollowed, if_neg hentry]) hfits
      rw [hint] at hst
      exact ⟨hrec.firstAddr.trans hint, _, held, hrec.startLocationInCache, hst⟩
    · rw [hblocks y hy] at hb'
      exact (ht.traces y b' hb' hne hlow).map fun p held hst =>
        hst.mono ⟨_, hmem.symm⟩ (fun _ _ => .inl) fun e hi he =>
          hl.recorded_allocateTrace hc hfits hi he
  · rcases hE with hE | hE
    · have hsome := ht.known a E hE
      by_cases he : e = .stopped
      · obtain ⟨k, -, -, hex⟩ := hstub he
        rw [hex, Function.update_apply]
        split
        · rfl
        · exact hsome
      · rw [hexits he]
        exact hsome
    · rw [hE]
      rfl

theorem Traces.record_self (hl : Linked h elf c H stubs) (ht : Traces h r elf c H) :
    Traces h r elf c (H.record c) := by
  refine ⟨ht.entry, ht.current, fun x b hb hne hlow => ?_, fun a E hE => ?_⟩
  · exact (ht.traces x b hb hne hlow).map fun p held hst =>
      hst.mono List.prefix_rfl (fun _ _ => .inl) fun e _ he => .inl (hl.recorded_same rfl he)
  · exact ht.known a E (hl.recorded_same rfl hE)

theorem renameSegment_cases {x y : DWord} {b : RailBasicBlock} {bb : DWord}
    (hnext : c.railBasicBlocks y = some next)
    (hb : (c.renameSegment y next bb).railBasicBlocks x = some b) :
    ∃ b', c.railBasicBlocks x = some b' ∧ b.firstAddr = b'.firstAddr ∧
      b.startLocationInCache = b'.startLocationInCache := by
  rw [CodeCache.renameSegment] at hb
  split at hb
  · rcases insertAt_cases hb with ⟨rfl, rfl⟩ | ⟨-, hb⟩
    · exact ⟨next, hnext, rfl, rfl⟩
    · exact ⟨b, hb, rfl, rfl⟩
  · exact ⟨b, hb, rfl, rfl⟩

theorem isSome_renameSegment {x y : DWord} {bb : DWord}
    (hx : (c.railBasicBlocks x).isSome = true) :
    ((c.renameSegment y next bb).railBasicBlocks x).isSome = true := by
  rw [CodeCache.renameSegment]
  split
  · rw [CodeCache.railBasicBlocks_insertAt, Function.update_apply]
    split
    · rfl
    · exact hx
  · exact hx

/-- A call of `stub` keeps the invariant. -/
theorem Traces.stub (hbase : h.base = 0x01000000) (hlink : r.traceLinkingEnabled = true)
    (hr : r.Uninstrumented) (hl : Linked h elf d.cache H stubs) (ht : Traces h r elf d.cache H)
    {pc : BitVec 32} (hpc : d.elfReader = elf.setProgramCounter pc)
    (hcall : ExitCall h elf d taken a) (hst : StubStep h r cb io d f taken a res s next)
    (hkeyed : ∀ x b, res.dispatcher.cache.railBasicBlocks x = some b →
      b = .empty ∨ b.firstAddr = x ∧ asInt x = x) (hfits : res.dispatcher.cache.Fits)
    (side : Bool) : Traces h r elf res.dispatcher.cache
      ((H.record res.dispatcher.cache).patch res.dispatcher.cache a side) := by
  obtain ⟨hfirst, hint⟩ := hst.key hkeyed
  have hl' : Linked h elf d.lookedUp.cache H stubs := hl.lookup _
  obtain ⟨hcache, hreader, -⟩ := before_allocateNext hst.leave
  have hreads : d.Reads elf := ⟨pc, hpc⟩
  obtain ⟨pc', hpc'⟩ := hreads.readerBehind (h := h) a
  have hreg := hst.registered
  have halloc := allocateNext_cache hst.leave
  have hlen := hst.memory_length
  have hres := hst.cache
  simp only [beforePre] at hres
  obtain ⟨-, stubs', hl₁⟩ := @Linked.allocateNext h r elf H stubs hlink
    (callPost r cb s (d.left h a).inst).dispatcher (by rw [hcache]; exact hl') pc'
    (hreader.trans hpc') s.nextBlockAddr next hreg
    (by rw [CodeCache.Fits, ← hlen]; exact hfits)
  generalize (RailTranslator.allocateNext h r (callPost r cb s (d.left h a).inst).dispatcher
    s.nextBlockAddr).cache = c₁ at hreg halloc hlen hres hl₁
  have ht₁ : Traces h r elf c₁ (H.record c₁) := by
    have hfits₁ : c₁.Fits := by
      rw [CodeCache.Fits, ← hlen]
      exact hfits
    by_cases hnone : d.lookedUp.cache.railBasicBlocks s.nextBlockAddr = none
    · rw [hnone, Option.isNone_none, if_pos rfl, hpc', RailTranslator.allocate, hlink,
        if_pos rfl] at halloc
      exact ht.lookedUp.allocate hr hl' hint hnone halloc.symm hfits₁
    · rw [if_neg (by rwa [Option.isNone_iff_eq_none])] at halloc
      rw [halloc]
      exact ht.lookedUp.record_self hl'
  -- behind the allocation only words of exit stubs change, and names of segments
  have hexits : res.dispatcher.cache.exits = c₁.exits := by
    rw [hres, CodeCache.exits_setCurrentBB, exits_renameSegment, exits_linkExit]
  have hsome {x : DWord} (hx : (c₁.railBasicBlocks x).isSome = true) :
      (res.dispatcher.cache.railBasicBlocks x).isSome = true := by
    rw [hres, CodeCache.railBasicBlocks_setCurrentBB]
    refine isSome_renameSegment ?_
    rwa [railBasicBlocks_linkExit]
  have hstands (x : DWord) (p : ℕ) (held : List Word)
      (hstands : TraceStands h r elf c₁ (H.record c₁) x p held) :
      TraceStands h r elf res.dispatcher.cache
        ((H.record res.dispatcher.cache).patch res.dispatcher.cache a side) x p held := by
    have hrecorded : ((H.record res.dispatcher.cache).patch res.dispatcher.cache a side).recorded =
        (H.record c₁).recorded := by
      simp only [History.patch, History.record, hexits]
    have hmem : res.dispatcher.cache.memory = (linkExit r c₁ (d.left h a).exitType a next
        taken).memory := by
      rw [hres, CodeCache.memory_setCurrentBB, memory_renameSegment]
    rw [hcall.left_eq hpc] at hmem
    suffices hset : TraceStands h r elf res.dispatcher.cache (H.record c₁) x p held from
      ⟨hset.stands, hrecorded ▸ hset.apart, hrecorded ▸ hset.exit⟩
    rcases hl₁.linkExit_cases hbase hcall.jal next (r := r) with hsame |
      ⟨e, hi, hrec, i, y, z, hle, hlt, hset⟩
    · exact ⟨by rw [hmem, hsame]; exact hstands.stands, hstands.apart, hstands.exit⟩
    · have hfirst : TraceStands h r elf { c₁ with memory := c₁.memory.set i y } (H.record c₁) x p
          held := hstands.set hi hrec hle (Nat.lt_of_succ_lt hlt) rfl
      exact hfirst.set hi hrec (Nat.le_succ_of_le hle) hlt (hmem.trans hset)
  refine ⟨hsome ht₁.entry, fun hlow => ?_, fun x b hb hne hlow => ?_, fun a' E hE => ?_⟩
  · have hcurrent : res.dispatcher.cache.currentBB = s.nextBlockAddr.setWidth 32 := by
      rw [hres, CodeCache.currentBB_setCurrentBB, hfirst]
    rw [hcurrent] at hlow ⊢
    rw [setWidth_of_low hint hlow]
    exact hsome (by rw [hreg]; rfl)
  · rw [hres, CodeCache.railBasicBlocks_setCurrentBB] at hb
    obtain ⟨b', hb', haddr, hloc⟩ := renameSegment_cases
      (by rw [railBasicBlocks_linkExit]; exact hreg) hb
    rw [railBasicBlocks_linkExit] at hb'
    obtain ⟨hname, p, held, hstart, hst⟩ := ht₁.traces x b' hb' hne hlow
    exact ⟨haddr.trans hname, p, held, hloc.trans hstart, hstands x p held hst⟩
  · rw [hexits]
    refine ht₁.known a' E ?_
    have hE' : (H.record res.dispatcher.cache).recorded a' E := hE
    rw [History.record, hexits] at hE'
    exact hE'

end Stub

/-! ### Over runs -/

section Run

variable {h : Host} {r : Rail} {cb : Callbacks} {elf : ElfReader} {d : Dispatcher} {H : History}

theorem LinkRun.run (hrun : LinkRun h r cb elf d H) :
    ∃ cfgGenerator l, Run (dispatch h r cb elf cfgGenerator) Any l d := by
  induction hrun with
  | @start cfgGenerator f hfits => exact ⟨cfgGenerator, [], .start ⟨f, rfl⟩⟩
  | @call io d H f taken a res hrun hcall hstub hfits ih =>
      obtain ⟨cfgGenerator, l, hrun'⟩ := ih
      refine ⟨cfgGenerator, _, hrun'.next (e := .call io f taken a) trivial ?_⟩
      show (stub h r cb io d f taken a).toOption.map _ = _
      rw [hstub]
      rfl

theorem linked_root (h : Host) (elf : ElfReader) :
    Linked h elf (allocateRoot h elf).2 .empty ∅ where
  fits := show 4 ≤ cacheSize / 4 by decide
  apart e he := he.elim
  stands e he := he.elim
  recorded a E hE := hE.elim
  exits a E hE := by cases hE
  patched a E taken hp := hp.elim
  aligned a start hs := by cases hs

theorem traces_init (hlink : r.traceLinkingEnabled = true) (hr : r.Uninstrumented)
    {cfgGenerator : Option CfgGenerator} (f : TrapFrame)
    (hfits : (init h r cb (rootDispatcher h elf cfgGenerator) f).dispatcher.cache.Fits) :
    Traces h r elf (init h r cb (rootDispatcher h elf cfgGenerator) f).dispatcher.cache
      (History.empty.record (init h r cb (rootDispatcher h elf cfgGenerator) f).dispatcher.cache) := by
  obtain ⟨next, -, hinit⟩ := @init_dispatcher h r cb elf f cfgGenerator
  have hint : asInt elf.entryAddr = elf.entryAddr := asInt_signExtend _
  obtain ⟨ps, q, e, -, -, -, hblocks, ⟨b, hb, hrec⟩, -, -, -, hcurrent⟩ :=
    allocateTrace_walk h r elf.jumpToEntry (allocateRoot h elf).2 elf.entryAddr 1
  have hentry : (allocateEntry h r elf).2 = (allocateTrace h r elf.jumpToEntry
      (allocateRoot h elf).2 elf.entryAddr 1).2 := by
    rw [allocateEntry, allocate, hlink]
    rfl
  rw [hint] at hblocks hb hcurrent
  rw [← hentry] at hb hcurrent
  rw [hinit] at hfits ⊢
  -- looking the entry up does nothing
  have hlookup : ((allocateEntry h r elf).2.lookup elf.entryAddr).2 = (allocateEntry h r elf).2 := by
    rw [CodeCache.lookup_of_some hb]
  simp only [hlookup] at hfits ⊢
  rw [hentry] at hfits
  obtain ⟨held, hst⟩ := (linked_root h elf).exists_traceStands hr rfl
    (by rw [hint, jumpsFollowed, if_pos rfl]) hfits
  have hrecorded (a E : DWord) (hE : (History.empty.record (allocateEntry h r elf).2).recorded a E) :
      (allocateEntry h r elf).2.exits a = some E := hE.resolve_left id
  refine ⟨by rw [hb]; rfl, fun hlow => ?_, fun x b' hb' _ _ => ?_, fun a E hE => ?_⟩
  · rw [hcurrent] at hlow ⊢
    rw [setWidth_of_low hint hlow, hb]
    rfl
  · by_cases hx : x = elf.entryAddr
    · subst hx
      obtain rfl := Option.some.inj (hb.symm.trans hb')
      rw [hint] at hst
      refine ⟨hrec.firstAddr.trans hint, _, held, hrec.startLocationInCache, ?_⟩
      rw [hentry]
      exact hst
    · rw [hentry, hblocks x hx] at hb'
      cases hb'
  · rw [hrecorded a E hE]
    rfl

/-- In every reachable state the traces stand in the cache. -/
theorem LinkRun.traces (hbase : h.base = 0x01000000) (hlink : r.traceLinkingEnabled = true)
    (hr : r.Uninstrumented) (hrun : LinkRun h r cb elf d H) : Traces h r elf d.cache H := by
  induction hrun with
  | start hfits => exact traces_init hlink hr _ hfits
  | call hrun hcall hstub hfits ih =>
      obtain ⟨⟨pc, hpc⟩, stubs, hl⟩ := hrun.linked hbase hlink
      obtain ⟨s, next, hst⟩ := stub_step hstub
      obtain ⟨cfgGenerator, l, hrun'⟩ := (hrun.call hcall hstub hfits).run
      exact ih.stub hbase hlink hr hl hpc hcall hst ((recordRule_keyed h r elf).run hrun').2 hfits _

end Run

end RailTranslator
