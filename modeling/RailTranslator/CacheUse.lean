import Mathlib.Data.List.GetD
import RailTranslator.CacheLayout
import RailTranslator.Ledger
import RailTranslator.SingleStep
import RailTranslator.TranslationLength

/-!
How much of the cache a run takes, and where it writes.

The emission sites do not ask whether there is room. What bounds the use of the
cache is that the block of an address is translated once: a run takes no more
than the translation of the entry and of the different addresses `stub` has
looked for. As long as these fit, nothing is written outside the cache; linking
only overwrites words of exits that have been emitted.
-/

namespace RailTranslator

open Rv64 Transition Ledger

/-! ### What an event writes -/

namespace Dispatcher

variable (h : Host) (r : Rail) (cb : Callbacks) (d : Dispatcher)

/-- The address whose block a call of `stub` looks for. -/
def sought : Event → Option DWord
  | .call io f taken a =>
      match d.leave h r cb io f taken a with
      | .returned s => some s.nextBlockAddr
      | .exited _ => none
  | .instrument _ => none

/-- The dispatcher behind an event, also if the process has ended in it. -/
def behind : Event → Dispatcher
  | .call io f taken a =>
      match stub h r cb io d f taken a with
      | .returned res => res.dispatcher
      | .exited d' => d'
  | .instrument f => (instrument h r cb d f).dispatcher

/-- The exit a call of `stub` links, and the side. -/
def linking : Event → Option (DWord × DWord)
  | .call io f taken a =>
      match d.leave h r cb io f taken a with
      | .returned s =>
          if r.traceLinkingEnabled ∧ (d.left h a).exitType = .directBranch then
            ((allocateNext h r (callPost r cb s (d.left h a).inst).dispatcher
              s.nextBlockAddr).cache.exits a).map fun exitAddr => (exitAddr, taken)
          else none
      | .exited _ => none
  | .instrument _ => none

end Dispatcher

/-- The indices of the two words `link` writes. -/
def linkIndices (exitAddr taken : DWord) : List ℕ :=
  let side : DWord := if taken = 0 then 4 else 36
  [(exitAddr + side - 0x1000000).toNat / 4, (exitAddr + side + 4 - 0x1000000).toNat / 4]

/-- The indices of `memory` at which an event writes. -/
def Dispatcher.written (h : Host) (r : Rail) (cb : Callbacks) (d : Dispatcher) (e : Event) :
    Set ℕ :=
  {i | d.cache.memoryIndex ≤ i ∧ i < (d.behind h r cb e).cache.memoryIndex ∨
    ∃ p ∈ d.linking h r cb e, i ∈ linkIndices p.1 p.2}

section Behind

variable {h : Host} {r : Rail} {cb : Callbacks} {io : IoRequest → DWord} {d : Dispatcher}
  {f : TrapFrame} {taken a : DWord} {s : Successor}

theorem memory_exitBinary (r : Rail) (d : Dispatcher) :
    (exitBinary r d).cache.memory = d.cache.memory := by
  unfold exitBinary
  cases r.exitRoutine <;> cases hcfg : d.cfgGenerator <;> simp only [hcfg]
  · exact memory_lookup _ _
  · exact memory_lookup _ _

theorem memory_linkExit {c c' : CodeCache} (hmemory : c'.memory = c.memory)
    (hexits : c'.exits = c.exits) (exitType : BasicBlockType) (a : DWord)
    (next : RailBasicBlock) (taken : DWord) :
    (linkExit r c' exitType a next taken).memory =
      (linkExit r c exitType a next taken).memory := by
  unfold linkExit
  rw [hexits]
  split
  · cases c.exits a with
    | none => exact hmemory
    | some exitAddr =>
        dsimp only [link, CodeCache.patch]
        rw [hmemory]
  · exact hmemory

theorem memory_behind (hleave : d.leave h r cb io f taken a = .returned s) :
    (d.behind h r cb (.call io f taken a)).cache.memory =
      (linkExit r (allocateNext h r (callPost r cb s (d.left h a).inst).dispatcher
        s.nextBlockAddr).cache (d.left h a).exitType a
          ((allocateNext h r (callPost r cb s (d.left h a).inst).dispatcher
            s.nextBlockAddr).cache.lookup s.nextBlockAddr).1 taken).memory := by
  obtain ⟨-, haddr, -⟩ := callPost_successor r cb s (d.left h a).inst
  unfold Dispatcher.behind
  dsimp only
  rw [stub_of_returned hleave, enterNext, haddr]
  generalize (allocateNext h r (callPost r cb s (d.left h a).inst).dispatcher
    s.nextBlockAddr) = d₁
  dsimp only
  have hlinked := memory_linkExit (r := r) (memory_lookup d₁.cache s.nextBlockAddr)
    (exits_lookup d₁.cache s.nextBlockAddr) (d.left h a).exitType a
    (d₁.cache.lookup s.nextBlockAddr).1 taken
  have hrenamed := memory_renameSegment (linkExit r (d₁.cache.lookup s.nextBlockAddr).2
    (d.left h a).exitType a (d₁.cache.lookup s.nextBlockAddr).1 taken) s.nextBlockAddr
      (d₁.cache.lookup s.nextBlockAddr).1
        (callPost r cb s (d.left h a).inst).current.basicBlockAddress
  by_cases hzero : (d₁.cache.lookup s.nextBlockAddr).1.firstAddr = 0
  · rw [if_pos hzero]
    dsimp only
    rw [memory_exitBinary]
    exact hrenamed.trans hlinked
  · rw [if_neg hzero]
    dsimp only
    rw [CodeCache.memory_setCurrentBB, callPre_fst]
    exact hrenamed.trans hlinked

theorem memory_behind_exited {d' : Dispatcher}
    (hleave : d.leave h r cb io f taken a = .exited d') :
    (d.behind h r cb (.call io f taken a)).cache.memory = d.cache.memory := by
  obtain ⟨-, d₁, rfl, -, hcache, -⟩ := leave_exited hleave
  unfold Dispatcher.behind
  dsimp only
  rw [stub_of_exited hleave]
  dsimp only
  rw [memory_exitBinary, hcache]
  exact memory_lookup _ _

theorem memory_behind_instrument (f : TrapFrame) :
    (d.behind h r cb (.instrument f)).cache.memory = d.cache.memory := by
  show (instrument h r cb d f).dispatcher.cache.memory = _
  rw [instrument_dispatcher]
  exact memory_lookup _ _

theorem memory_grows (hleave : d.leave h r cb io f taken a = .returned s) :
    d.cache.memory <+: (allocateNext h r (callPost r cb s (d.left h a).inst).dispatcher
      s.nextBlockAddr).cache.memory := by
  have hlooked : d.lookedUp.cache.memory = d.cache.memory := memory_lookup _ _
  rw [← hlooked, allocateNext_cache hleave]
  split
  · exact memory_allocate h r _ _ _ _
  · exact List.prefix_rfl

theorem memory_linkExit_eq (c : CodeCache) (exitType : BasicBlockType) (a : DWord)
    (next : RailBasicBlock) (taken : DWord) {i : ℕ}
    (hi : ∀ p, (if r.traceLinkingEnabled = true ∧ exitType = .directBranch then
      (c.exits a).map fun exitAddr => (exitAddr, taken) else none) = some p →
        i ∉ linkIndices p.1 p.2) :
    (linkExit r c exitType a next taken).memory[i]? = c.memory[i]? := by
  unfold linkExit
  split
  · rename_i hlink
    rw [if_pos hlink] at hi
    cases hexit : c.exits a with
    | none => rfl
    | some exitAddr =>
        rw [hexit] at hi
        have hout := hi (exitAddr, taken) rfl
        simp only [linkIndices, List.mem_cons, List.not_mem_nil, or_false, not_or] at hout
        show ((c.memory.set _ _).set _ _)[i]? = _
        rw [List.getElem?_set_ne (Ne.symm hout.2), List.getElem?_set_ne (Ne.symm hout.1)]
  · rfl

theorem memoryIndex_le_behind (d : Dispatcher) (e : Event) :
    d.cache.memoryIndex ≤ (d.behind h r cb e).cache.memoryIndex := by
  unfold CodeCache.memoryIndex
  cases e with
  | instrument f => rw [memory_behind_instrument]
  | call io f taken a =>
      cases hleave : d.leave h r cb io f taken a with
      | exited d' => rw [memory_behind_exited hleave]
      | returned s =>
          rw [memory_behind hleave, length_linkExit]
          exact (memory_grows hleave).length_le

/-- Nothing else is written. -/
theorem behind_unchanged (d : Dispatcher) (e : Event) {i : ℕ} (hi : i ∉ d.written h r cb e) :
    (d.behind h r cb e).cache.memory[i]? = d.cache.memory[i]? := by
  cases e with
  | instrument f => rw [memory_behind_instrument]
  | call io f taken a =>
      cases hleave : d.leave h r cb io f taken a with
      | exited d' => rw [memory_behind_exited hleave]
      | returned s =>
          obtain ⟨hadded, hlinked⟩ := not_or.mp hi
          have hmemory := memory_behind hleave
          have hprefix := memory_grows hleave
          have hlinking : d.linking h r cb (.call io f taken a) =
              if r.traceLinkingEnabled = true ∧ (d.left h a).exitType = .directBranch then
                ((allocateNext h r (callPost r cb s (d.left h a).inst).dispatcher
                  s.nextBlockAddr).cache.exits a).map fun exitAddr => (exitAddr, taken)
              else none := by
            unfold Dispatcher.linking
            dsimp only
            rw [hleave]
          generalize (allocateNext h r (callPost r cb s (d.left h a).inst).dispatcher
            s.nextBlockAddr).cache = c at hmemory hprefix hlinking
          have hlen : (d.behind h r cb (.call io f taken a)).cache.memory.length =
              c.memory.length := by
            rw [hmemory, length_linkExit]
          have hsame : (d.behind h r cb (.call io f taken a)).cache.memory[i]? = c.memory[i]? := by
            rw [hmemory]
            apply memory_linkExit_eq
            intro p hp hmem
            rw [← hlinking] at hp
            exact hlinked ⟨p, hp, hmem⟩
          rw [hsame]
          obtain ⟨rest, hrest⟩ := hprefix
          by_cases hlt : i < d.cache.memory.length
          · rw [← hrest, List.getElem?_append_left hlt]
          · have hge : c.memory.length ≤ i := by
              unfold CodeCache.memoryIndex at hadded
              omega
            rw [List.getElem?_eq_none hge, List.getElem?_eq_none (by omega)]

end Behind

/-! ### What is paid for -/

def CodeCache.known (c : CodeCache) : Set DWord := {a | (c.railBasicBlocks a).isSome = true}

theorem CodeCache.Keeps.known {c c' : CodeCache} (hk : c.Keeps c') : c.known ⊆ c'.known := by
  intro a ha
  obtain ⟨b, hb⟩ := Option.isSome_iff_exists.mp ha
  obtain ⟨b', hb', -⟩ := hk a b hb
  exact Option.isSome_iff_exists.mpr ⟨b', hb'⟩

/-- The words of `allocateRoot` and of the translations of the entry and of the
addresses in `S`. -/
def cacheUse (h : Host) (r : Rail) (elf : ElfReader) (S : Finset DWord) : ℕ :=
  4 + translationLength h r elf elf.entryAddr 1 + ∑ a ∈ S, translationLength h r elf a 10

/-- The recorded exits are stubs that have been emitted. -/
def ExitsStand (h : Host) (elf : ElfReader) (c : CodeCache) : Prop :=
  ∀ a x, c.exits a = some x → ∃ e : ExitStub, x = e.exit h elf ∧
    e.index + (e.words h elf).length ≤ c.memory.length

section Paid

variable {h : Host} {r : Rail} {cb : Callbacks} {io : IoRequest → DWord} {elf : ElfReader}
  {cfgGenerator : Option CfgGenerator} {c c' : CodeCache} {d d' : Dispatcher} {f : TrapFrame}
  {taken a : DWord} {s : Successor} {paid : Finset DWord}

theorem ExitsStand.of_exits (hc : ExitsStand h elf c) (hexits : c'.exits = c.exits)
    (hlen : c.memory.length ≤ c'.memory.length) : ExitsStand h elf c' := by
  intro a x hx
  rw [hexits] at hx
  obtain ⟨e, hexit, hle⟩ := hc a x hx
  exact ⟨e, hexit, hle.trans hlen⟩

theorem ExitsStand.allocate (hc : ExitsStand h elf c) (hadd : Allocated h elf a c c') :
    ExitsStand h elf c' := by
  have hlen := hadd.memory.length_le
  rcases hadd.exits with hsame | ⟨e, -, -, hstands, -, hexits⟩
  · exact hc.of_exits hsame hlen
  · intro y x hx
    rw [hexits, Function.update_apply] at hx
    split at hx
    · exact ⟨e, (Option.some.inj hx).symm, hstands.length_le⟩
    · obtain ⟨e', hexit, hle⟩ := hc y x hx
      exact ⟨e', hexit, hle.trans hlen⟩

theorem found_cases (hd : d.Reads elf) (hleave : d.leave h r cb io f taken a = .returned s)
    (hc : c = (allocateNext h r (callPost r cb s (d.left h a).inst).dispatcher
      s.nextBlockAddr).cache) :
    c = d.lookedUp.cache ∨ s.nextBlockAddr ∉ d.cache.known ∧
      c.memory.length ≤ d.cache.memory.length + translationLength h r elf s.nextBlockAddr 10 ∧
      Allocated h elf s.nextBlockAddr d.lookedUp.cache c := by
  obtain ⟨x, hx⟩ := hd.readerBehind (h := h) a
  rw [allocateNext_cache hleave, hx] at hc
  rcases hb : d.lookedUp.cache.railBasicBlocks s.nextBlockAddr with _ | b
  · right
    rw [hb, Option.isNone_none, if_pos rfl] at hc
    have hnew : s.nextBlockAddr ∉ d.cache.known := by
      intro hknown
      have hlooked : d.cache.Keeps d.lookedUp.cache := keeps_lookup _ _
      obtain ⟨b, hb'⟩ := Option.isSome_iff_exists.mp (hlooked.known hknown)
      rw [hb] at hb'
      cases hb'
    have hlen := length_allocate_le h r elf x d.lookedUp.cache s.nextBlockAddr 10
    have hmemory : d.lookedUp.cache.memory = d.cache.memory := memory_lookup _ _
    rw [← hc, hmemory] at hlen
    refine ⟨hnew, hlen, ?_⟩
    rw [hc]
    exact (allocated h r (elf.setProgramCounter x) d.lookedUp.cache _ 10).of_setProgramCounter
  · left
    rw [hc, hb]
    rfl

/-- What holds in every state of a run, when the addresses in `paid` have been
translated behind the entry. -/
structure CacheInv (h : Host) (r : Rail) (elf : ElfReader) (d : Dispatcher)
    (paid : Finset DWord) : Prop where
  reads : d.Reads elf
  settled : Settled (fun a => translationLength h r elf a 10) d.cache.known
    (4 + translationLength h r elf elf.entryAddr 1) d.cache.memoryIndex paid
  exits : ExitsStand h elf d.cache

theorem sought_call (hleave : d.leave h r cb io f taken a = .returned s) :
    d.sought h r cb (.call io f taken a) = some s.nextBlockAddr := by
  unfold Dispatcher.sought
  dsimp only
  rw [hleave]

theorem cacheInv_init (f : TrapFrame) :
    CacheInv h r elf (init h r cb (rootDispatcher h elf cfgGenerator) f).dispatcher ∅ := by
  have hreads := @reads_init h r cb elf cfgGenerator f
  obtain ⟨next, -, hinit⟩ := @init_dispatcher h r cb elf f cfgGenerator
  rw [hinit] at hreads ⊢
  refine ⟨hreads, settled_empty ?_, ?_⟩
  · show ((allocateEntry h r elf).2.lookup elf.entryAddr).2.memory.length ≤ _
    rw [memory_lookup]
    exact length_allocate_le h r elf (elf.entry.setWidth 32) (allocateRoot h elf).2
      elf.entryAddr 1
  · have hroot : ExitsStand h elf (allocateRoot h elf).2 := by
      intro a x hx
      cases hx
    exact (hroot.allocate (allocated_entry h r elf)).of_exits (exits_lookup _ _)
      (congrArg List.length (memory_lookup _ _)).ge

theorem CacheInv.step (hinv : CacheInv h r elf d paid) {e : Event}
    (hstep : (dispatch h r cb elf cfgGenerator).step d e = some d') :
    ∃ paid', CacheInv h r elf d' paid' ∧
      ∀ a ∈ paid', a ∈ paid ∨ a ∈ d.sought h r cb e := by
  have hreads := hinv.reads.step hstep
  have hkeeps := (keeps_step hinv.reads hstep).known
  cases e with
  | instrument f =>
      obtain rfl := Option.some.inj hstep
      rw [instrument_dispatcher] at hreads hkeeps ⊢
      have hmemory : d.lookedUp.cache.memory = d.cache.memory := memory_lookup _ _
      refine ⟨paid, ⟨hreads, hinv.settled.mono hkeeps ?_, ?_⟩, fun a ha => .inl ha⟩
      · exact (congrArg List.length hmemory).le
      · exact hinv.exits.of_exits (exits_lookup _ _) (congrArg List.length hmemory).ge
  | call io f taken a =>
      obtain ⟨res, hstub, rfl⟩ := Option.map_eq_some_iff.mp hstep
      obtain ⟨s, next, hst⟩ := stub_step (StubOutcome.eq_returned hstub)
      have hlen := hst.memory_length
      have hexits : res.dispatcher.cache.exits = (allocateNext h r
          (callPost r cb s (d.left h a).inst).dispatcher s.nextBlockAddr).cache.exits := by
        rw [hst.cache, CodeCache.exits_setCurrentBB]
        simp only [beforePre]
        rw [exits_renameSegment, exits_linkExit]
      have hfound := found_cases hinv.reads hst.leave rfl
      generalize (allocateNext h r (callPost r cb s (d.left h a).inst).dispatcher
        s.nextBlockAddr).cache = c at hlen hexits hfound
      have hlooked : ExitsStand h elf d.lookedUp.cache :=
        hinv.exits.of_exits (exits_lookup _ _) (congrArg List.length (memory_lookup _ _)).ge
      -- the address is paid for when its block is translated, and never again
      rcases hfound with rfl | ⟨hnew, hle, hadd⟩
      · refine ⟨paid, ⟨hreads, hinv.settled.mono hkeeps ?_, ?_⟩, fun a ha => .inl ha⟩
        · exact hlen.trans (congrArg List.length (memory_lookup _ _)) |>.le
        · exact hlooked.of_exits hexits hlen.ge
      · have hentered : s.nextBlockAddr ∈ res.dispatcher.cache.known :=
          Option.isSome_iff_exists.mpr ⟨_, hst.record_next⟩
        refine ⟨insert s.nextBlockAddr paid, ⟨hreads, hinv.settled.buy hnew hkeeps hentered ?_,
          (hlooked.allocate hadd).of_exits hexits hlen.ge⟩, ?_⟩
        · exact hlen.le.trans hle
        · intro x hx
          rcases Finset.mem_insert.mp hx with rfl | hx
          · exact .inr (sought_call hst.leave)
          · exact .inl hx

theorem cacheInv_run {l : List (Dispatcher × Event)} {ok : Dispatcher → Event → Prop}
    (hrun : Run (dispatch h r cb elf cfgGenerator) ok l d) :
    ∃ paid, CacheInv h r elf d paid ∧ ∀ a ∈ paid, ∃ p ∈ l, a ∈ p.1.sought h r cb p.2 := by
  induction hrun with
  | start hs =>
      obtain ⟨f, rfl⟩ := hs
      exact ⟨∅, cacheInv_init f, fun a ha => absurd ha (Finset.notMem_empty a)⟩
  | @next l d d' e _ _ hstep ih =>
      obtain ⟨paid, hinv, hpaid⟩ := ih
      obtain ⟨paid', hinv', hpaid'⟩ := hinv.step hstep
      refine ⟨paid', hinv', fun a ha => ?_⟩
      rcases hpaid' a ha with hold | hnew
      · obtain ⟨p, hp, hsought⟩ := hpaid a hold
        exact ⟨p, List.mem_append_left _ hp, hsought⟩
      · exact ⟨(d, e), List.mem_append_right _ List.mem_cons_self, hnew⟩

/-- What has been emitted behind an event, also if the process has ended in
it. -/
theorem CacheInv.memoryIndex_behind (hinv : CacheInv h r elf d paid) (e : Event)
    {S : Finset DWord} (hpaid : paid ⊆ S) (hS : ∀ a ∈ d.sought h r cb e, a ∈ S) :
    (d.behind h r cb e).cache.memoryIndex ≤ cacheUse h r elf S := by
  have hold : d.cache.memoryIndex ≤ cacheUse h r elf S :=
    hinv.settled.spent_le.trans (sum_cost_le hpaid)
  unfold CodeCache.memoryIndex at hold ⊢
  cases e with
  | instrument f =>
      rw [memory_behind_instrument]
      exact hold
  | call io f taken a =>
      cases hleave : d.leave h r cb io f taken a with
      | exited d' =>
          rw [memory_behind_exited hleave]
          exact hold
      | returned s =>
          rw [memory_behind hleave, length_linkExit]
          have hfound := found_cases hinv.reads hleave rfl
          generalize (allocateNext h r (callPost r cb s (d.left h a).inst).dispatcher
            s.nextBlockAddr).cache = c at hfound
          rcases hfound with rfl | ⟨hnew, hle, -⟩
          · exact (congrArg List.length (memory_lookup _ _)).le.trans hold
          · refine (hinv.settled.spend hnew hle).trans (sum_cost_le ?_)
            exact Finset.insert_subset (hS _ (sought_call hleave)) hpaid

theorem linkIndices_lt (hbase : h.base = 0x01000000) {e : ExitStub} {n : ℕ}
    (hle : e.index + (e.words h elf).length ≤ n) (hn : n ≤ cacheSize / 4) (taken : DWord) :
    ∀ i ∈ linkIndices (e.exit h elf) taken, i < n := by
  have hside := exit_add_linkIndex h elf e taken
  obtain ⟨-, hinside⟩ := linkIndex_inside h elf e (decide (taken ≠ 0))
  generalize e.linkIndex elf (decide (taken ≠ 0)) = k at hside hinside
  have hsize : cacheSize / 4 = 1048576 := rfl
  have hoffset (j : ℕ) (hj : j ≤ 1048576) :
      (wordAddr h.base j - 0x1000000).toNat / 4 = j := by
    rw [hbase, wordAddr]
    bv_omega
  intro i hi
  unfold linkIndices at hi
  dsimp only at hi
  rw [hside, wordAddr_add_four, hoffset k (by omega), hoffset (k + 1) (by omega)] at hi
  rcases List.mem_cons.mp hi with rfl | hi
  · omega
  · obtain rfl := List.mem_singleton.mp hi
    omega

theorem CacheInv.linking_lt (hbase : h.base = 0x01000000) (hinv : CacheInv h r elf d paid)
    (e : Event) (hfits : (d.behind h r cb e).cache.memoryIndex ≤ cacheSize / 4) :
    ∀ p ∈ d.linking h r cb e, ∀ i ∈ linkIndices p.1 p.2,
      i < (d.behind h r cb e).cache.memoryIndex := by
  intro p hp
  cases e with
  | instrument f => cases hp
  | call io f taken a =>
      cases hleave : d.leave h r cb io f taken a with
      | exited d' =>
          unfold Dispatcher.linking at hp
          dsimp only at hp
          rw [hleave] at hp
          cases hp
      | returned s =>
          unfold Dispatcher.linking at hp
          dsimp only at hp
          rw [hleave] at hp
          dsimp only at hp
          have hfound := found_cases hinv.reads hleave rfl
          have hlen : (d.behind h r cb (.call io f taken a)).cache.memoryIndex =
              (allocateNext h r (callPost r cb s (d.left h a).inst).dispatcher
                s.nextBlockAddr).cache.memory.length := by
            unfold CodeCache.memoryIndex
            rw [memory_behind hleave, length_linkExit]
          rw [hlen] at hfits ⊢
          generalize (allocateNext h r (callPost r cb s (d.left h a).inst).dispatcher
            s.nextBlockAddr).cache = c at hp hfound hfits
          have hlooked : ExitsStand h elf d.lookedUp.cache :=
            hinv.exits.of_exits (exits_lookup _ _) (congrArg List.length (memory_lookup _ _)).ge
          -- the exit that is linked is recorded, so its stub stands in the cache
          have hstand : ExitsStand h elf c := by
            rcases hfound with rfl | ⟨-, -, hadd⟩
            · exact hlooked
            · exact hlooked.allocate hadd
          split at hp
          · obtain ⟨x, hx, rfl⟩ := Option.map_eq_some_iff.mp hp
            obtain ⟨e, rfl, hle⟩ := hstand a x hx
            exact linkIndices_lt hbase hle hfits taken
          · cases hp

end Paid

/-! ### The runs -/

section Runs

variable {h : Host} {r : Rail} {cb : Callbacks} {elf : ElfReader}
  {cfgGenerator : Option CfgGenerator} {l : List (Dispatcher × Event)} {d : Dispatcher}

theorem within_behind (hbase : h.base = 0x01000000)
    (hrun : Run (dispatch h r cb elf cfgGenerator) Any l d) (e : Event) (S : Finset DWord)
    (hS : ∀ p ∈ l ++ [(d, e)], ∀ a ∈ p.1.sought h r cb p.2, a ∈ S) :
    d.cache.memoryIndex ≤ (d.behind h r cb e).cache.memoryIndex ∧
      (d.behind h r cb e).cache.memoryIndex ≤ cacheUse h r elf S ∧
      (cacheUse h r elf S ≤ cacheSize / 4 → ∀ i ∈ d.written h r cb e, i < cacheSize / 4) := by
  obtain ⟨paid, hinv, hpaid⟩ := cacheInv_run hrun
  have hsubset : paid ⊆ S := by
    intro a ha
    obtain ⟨p, hp, hsought⟩ := hpaid a ha
    exact hS p (List.mem_append_left _ hp) a hsought
  have huse := hinv.memoryIndex_behind e hsubset (hS (d, e) (List.mem_append_right _
    List.mem_cons_self))
  refine ⟨memoryIndex_le_behind d e, huse, ?_⟩
  intro hfits i hi
  rcases hi with ⟨-, hlt⟩ | ⟨p, hp, hi⟩
  · omega
  · have hlt := hinv.linking_lt hbase e (huse.trans hfits) p hp i hi
    omega

/-- In every run, and behind every event that may follow it: no more of the
cache is used than the translations of the entry and of the different addresses
that have been looked for take, and as long as these fit, nothing is written
outside the cache: what is written is all that changes. -/
theorem cache_within (hbase : h.base = 0x01000000)
    (hrun : Run (dispatch h r cb elf cfgGenerator) Any l d) (e : Event) (S : Finset DWord)
    (hS : ∀ p ∈ l ++ [(d, e)], ∀ a ∈ p.1.sought h r cb p.2, a ∈ S) :
    d.cache.memoryIndex ≤ (d.behind h r cb e).cache.memoryIndex ∧
      (d.behind h r cb e).cache.memoryIndex ≤ cacheUse h r elf S ∧
      (cacheUse h r elf S ≤ cacheSize / 4 →
        ∀ p ∈ l ++ [(d, e)], ∀ i ∈ p.1.written h r cb p.2, i < cacheSize / 4) ∧
      ∀ p ∈ l ++ [(d, e)], ∀ i ∉ p.1.written h r cb p.2,
        (p.1.behind h r cb p.2).cache.memory[i]? = p.1.cache.memory[i]? := by
  obtain ⟨hgrows, huse, hlast⟩ := within_behind hbase hrun e S hS
  refine ⟨hgrows, huse, ?_, fun p _ i hi => behind_unchanged p.1 p.2 hi⟩
  intro hfits p hp
  rcases List.mem_append.mp hp with hp | hp
  · obtain ⟨l₁, l₂, hrun₁, -, rfl⟩ := hrun.split hp
    refine (within_behind hbase hrun₁ p.2 S ?_).2.2 hfits
    intro q hq
    exact hS q (List.mem_append_left _ (List.mem_append_left _ hq))
  · obtain rfl := List.mem_singleton.mp hp
    exact hlast hfits

/-- The loop of `loopText`: the second trace is translated, and when its exit is
left the block is there. -/
theorem loopText_within : ∃ l d,
    Run (dispatch requestedHost (Rail.plain true) idleCallbacks loopText none) Any l d ∧
      l.length = 1 ∧ cacheUse requestedHost (Rail.plain true) loopText {0x10008} = 26 ∧
      d.cache.memoryIndex ≤ (d.behind requestedHost (Rail.plain true) idleCallbacks
        (leaving 1 0x10000)).cache.memoryIndex ∧
      (d.behind requestedHost (Rail.plain true) idleCallbacks
        (leaving 1 0x10000)).cache.memoryIndex ≤ 26 ∧
      ∀ p ∈ l ++ [(d, leaving 1 0x10000)],
        ∀ i ∈ p.1.written requestedHost (Rail.plain true) idleCallbacks p.2,
          i < cacheSize / 4 := by
  have hfirst : (started (Rail.plain true) loopText).sought requestedHost (Rail.plain true)
      idleCallbacks (leaving 1 0x10000) = some 0x10008 := by decide +kernel
  have hstep : ((dispatch requestedHost (Rail.plain true) idleCallbacks loopText none).step
      (started (Rail.plain true) loopText) (leaving 1 0x10000)).map (fun d => d.sought requestedHost
        (Rail.plain true) idleCallbacks (leaving 1 0x10000)) = some (some 0x10008) := by
    decide +kernel
  have huse : cacheUse requestedHost (Rail.plain true) loopText {0x10008} = 26 := by
    decide +kernel
  obtain ⟨d, hd, hsecond⟩ := Option.map_eq_some_iff.mp hstep
  have hrun := (run_started (Rail.plain true) loopText Any).next trivial hd
  obtain ⟨hgrows, hle, hinside, -⟩ := cache_within rfl hrun (leaving 1 0x10000) {0x10008} (by
    intro p hp a ha
    rw [Finset.mem_singleton]
    rcases List.mem_cons.mp hp with rfl | hp
    · exact (Option.some.inj (hfirst.symm.trans ha)).symm
    · obtain rfl := List.mem_singleton.mp hp
      exact (Option.some.inj (hsecond.symm.trans ha)).symm)
  rw [huse] at hle hinside
  exact ⟨_, d, hrun, rfl, huse, hgrows, hle, hinside (by decide)⟩

end Runs

/-! ### A text that is too long -/

/-- `n` times `lui x14, 0x37373`, and `ecall`. -/
def luiText (n : ℕ) : ElfReader where
  textSection := List.replicate (4 * n) 0x37 ++ [0x73, 0, 0, 0, 0x73, 0, 0, 0]
  textSectionOffset := 0x10000
  programCounter := 0x10000
  entry := 0x10000

section Overflow

variable {h : Host} {r : Rail} {elf : ElfReader} {a pc q : BitVec 32} {c c' : CodeCache}
  {ps : List Piece} {e : BlockEnd} {n j : ℕ}

theorem textByte_luiText {x : DWord} (hx : x.toNat < 4 * n) : (luiText n).textByte x = 0x37 := by
  unfold ElfReader.textByte luiText
  have hlen : x.toNat < (List.replicate (4 * n) (0x37 : BitVec 8)).length := by
    rw [List.length_replicate]
    exact hx
  dsimp only
  rw [List.getD_append _ _ _ _ hlen, List.getD_replicate _ hx]
  rfl

theorem fetch_luiText (hn : n ≤ 2 ^ 20) (hj : j < n) :
    (luiText n).fetch (0x10000 + BitVec.ofNat 32 (4 * j)) = 0x37373737 := by
  have hstart : (luiText n).textSectionOffset = 0x10000 := rfl
  have hoffset : (0x10000 + BitVec.ofNat 32 (4 * j) -
      (luiText n).textSectionOffset).signExtend 64 = BitVec.ofNat 64 (4 * j) := by
    rw [hstart]
    have hlow : 0x10000 + BitVec.ofNat 32 (4 * j) - (0x10000 : BitVec 32) =
        BitVec.ofNat 32 (4 * j) := by bv_omega
    rw [hlow]
    apply BitVec.eq_of_toNat_eq
    rw [toNat_signExtend (by rw [BitVec.toNat_ofNat]; omega), BitVec.toNat_ofNat,
      BitVec.toNat_ofNat]
    omega
  have hlen : (luiText n).textSection.length = 4 * n + 8 := by simp [luiText]
  have hinside : (BitVec.ofNat 64 (4 * j)).ult
      (BitVec.ofNat 64 (luiText n).textSection.length - 4) = true := by
    rw [hlen, BitVec.ult, decide_eq_true_eq]
    bv_omega
  have hnat : (BitVec.ofNat 64 (4 * j)).toNat = 4 * j := by
    rw [BitVec.toNat_ofNat]
    omega
  rw [ElfReader.fetch_eq hoffset hinside, textByte_luiText (by omega),
    textByte_luiText (by bv_omega), textByte_luiText (by bv_omega), textByte_luiText (by bv_omega)]
  decide

theorem first_inBlock (hin : ∀ i < n, InBlock r elf (pc + BitVec.ofNat 32 (4 * i)))
    (hn : 0 < n) : InBlock r elf pc := by
  have hfirst := hin 0 hn
  rwa [show pc + BitVec.ofNat 32 (4 * 0) = pc from BitVec.add_zero pc] at hfirst

theorem BlockWalk.length_ge (hwalk : BlockWalk h r elf pc ps q e)
    (hin : ∀ i < n, InBlock r elf (pc + BitVec.ofNat 32 (4 * i))) :
    e = .endless ∨ n ≤ ps.length := by
  induction hwalk generalizing n with
  | endless => exact .inl rfl
  | @straight pc q ps e _ _ ih =>
      cases n with
      | zero => exact .inr (Nat.zero_le _)
      | succ n =>
          have hrest (i : ℕ) (hi : i < n) :
              InBlock r elf (pc + 4 + BitVec.ofNat 32 (4 * i)) := by
            have hnext := hin (i + 1) (by omega)
            have hpc : pc + BitVec.ofNat 32 (4 * (i + 1)) =
                pc + 4 + BitVec.ofNat 32 (4 * i) := by bv_omega
            rwa [hpc] at hnext
          rcases ih hrest with hend | hle
          · exact .inl hend
          · exact .inr (Nat.succ_le_succ hle)
  | stopped _ hw =>
      right
      by_contra hlt
      exact (first_inBlock hin (by omega)).not_terminal hw
  | segmented _ _ _ hends =>
      right
      by_contra hlt
      exact Bool.false_ne_true ((first_inBlock hin (by omega)).not_segmented.symm.trans hends)
  | pre _ hpre =>
      right
      by_contra hlt
      exact Bool.false_ne_true ((first_inBlock hin (by omega)).not_pre.symm.trans hpre)
  | exhausted h0 =>
      right
      by_contra hlt
      exact (first_inBlock hin (by omega)).ne_zero h0

theorem inBlock_luiText (hn : n ≤ 2 ^ 20) (hj : j < n) :
    InBlock (.plain false) (luiText n) (0x10000 + BitVec.ofNat 32 (4 * j)) := by
  have hfetch := fetch_luiText hn hj
  refine ⟨?_, rfl, ?_, ?_⟩
  · rw [hfetch]
    decide
  · rw [hfetch]
    decide
  · rw [hfetch]
    rfl

/-- A block takes a word for the scratch register and a word for each
instruction. -/
theorem MainAdded.length_ge (hadd : MainAdded h elf a c ps q e c')
    (hwalk : BlockWalk h r elf pc ps q e) : ps.length < c'.memory.length := by
  have hwords : ps.length < (walkedWords ps).length := by
    rw [walkedWords, List.length_append]
    exact Nat.lt_of_le_of_lt hwalk.length_le (Nat.lt_add_of_pos_left (by decide))
  have hle : (c.memory ++ walkedWords ps).length ≤ c'.memory.length := by
    cases hadd with
    | closed =>
        simp only [CodeCache.memory_insertAt, CodeCache.memory_emit, CodeCache.memory_setCurrentBB,
          List.length_append]
        omega
    | cut =>
        simp only [CodeCache.memory_insertAt, CodeCache.memory_emit, CodeCache.memory_setCurrentBB,
          List.length_append]
        omega
    | left => exact le_rfl
  rw [List.length_append] at hle
  omega

theorem length_allocateEntry_luiText (hn : n ≤ 2 ^ 20) :
    n < (allocateEntry h (.plain false) (luiText n)).2.memory.length := by
  obtain ⟨ps, q, e, c₁, hwalk, -, hmain, hpre, hend⟩ := allocateBB_walk h (.plain false)
    (luiText n).jumpToEntry (allocateRoot h (luiText n)).2 (luiText n).entryAddr
  have hlen := hmain.length_ge hwalk
  have hgrows := hpre.memory.length_le
  have hin : ∀ i < n, InBlock (.plain false) (luiText n).jumpToEntry
      ((luiText n).entryAddr.setWidth 32 + BitVec.ofNat 32 (4 * i)) := by
    intro i hi
    exact inBlock_luiText hn hi
  show n < (allocateBB h (.plain false) (luiText n).jumpToEntry (allocateRoot h (luiText n)).2
    (luiText n).entryAddr).2.memory.length
  rcases hwalk.length_ge hin with he | hle
  · have hfuel : loopFuel = 2 ^ 30 := rfl
    have hlong := (hend he).1
    omega
  · omega

theorem length_started_luiText (hn : n ≤ 2 ^ 20) :
    n < (started (.plain false) (luiText n)).cache.memory.length := by
  obtain ⟨next, -, hinit⟩ := @init_dispatcher requestedHost (.plain false) idleCallbacks
    (luiText n) (fun _ => 0) none
  rw [started, hinit]
  dsimp only
  rw [memory_lookup]
  exact length_allocateEntry_luiText hn

end Overflow

theorem handlers_outside_moved : ∀ a ∈ [requestedHost.contextSwitch,
    requestedHost.contextSwitchTaken, requestedHost.contextSwitchTraceExit,
    requestedHost.contextSwitchTraceExitTaken, requestedHost.contextSwitchInstrument,
    requestedHost.initSwitch], cacheSize ≤ (a - 0x10000000).toNat := by
  simp [requestedHost, cacheSize]

theorem moved_page : (0x10000000 : DWord).toNat % 4096 = 0 := rfl

/-- A process in which `mmap` has not granted the requested address. -/
def movedHost : Host :=
  { requestedHost with
    base := 0x10000000
    base_page := moved_page
    handlers_outside := handlers_outside_moved }

/-- The text of `2 ^ 20` instructions and an exit fills the cache, and more,
before anything has run; and where the cache has been mapped elsewhere, the
first link is written outside of it. -/
theorem luiText_overflows :
    (∃ l d, Run (dispatch requestedHost (Rail.plain false) idleCallbacks (luiText 1048576) none)
      Any l d ∧ cacheSize / 4 < d.cache.memoryIndex) ∧
    ∃ l d e, Run (dispatch movedHost (Rail.plain true) idleCallbacks loopText none) Any l d ∧
      ∃ i ∈ d.written movedHost (Rail.plain true) idleCallbacks e, cacheSize / 4 ≤ i := by
  have hsize : cacheSize / 4 = 1048576 := rfl
  rw [hsize]
  constructor
  · exact ⟨[], started (.plain false) (luiText 1048576), run_started _ _ _,
      length_started_luiText (by omega)⟩
  · have hlink : (init movedHost (Rail.plain true) idleCallbacks (rootDispatcher movedHost loopText
        none) fun _ => 0).dispatcher.linking movedHost (Rail.plain true) idleCallbacks
          (leaving 1 0x10000) = some (0x1000003c, 1) := by decide +kernel
    refine ⟨[], _, leaving 1 0x10000, .start ⟨fun _ => 0, rfl⟩, 62914584, .inr ⟨_, hlink, ?_⟩, ?_⟩
    · decide
    · decide

end RailTranslator
