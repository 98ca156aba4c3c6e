import RailTranslator.Instrumentation
import RailTranslator.Tally

/-!
The control flow graph without routines.

Every call of `stub` counts an edge, from the block that is left to the one
that is entered, and an emulated exit counts the last one and writes the graph.
What is written is the walk of the guest: one line for each step of it, with
the number of times the step was taken.
-/

namespace RailTranslator

open Rv64 Transition Tally

/-! ### Nodes and their texts -/

inductive Node
  | start
  | addr (a : DWord)
  | finish
  deriving DecidableEq

def Node.text : Node → String
  | .start => "START"
  | .addr a => hexAddress a
  | .finish => "END"

def edgeLine (e : Node × Node) (n : ℕ) : String :=
  CfgGenerator.edge e.1.text e.2.text ++ " [label=\"" ++ toString n ++ "\"];"

theorem digitChar_inj : ∀ m < 16, ∀ n < 16, Nat.digitChar m = Nat.digitChar n → m = n := by
  decide

theorem digitChar_plain : ∀ n < 16, Nat.digitChar n ∉ ['"', 'S', 'N'] := by
  decide

theorem toDigits_inj {m n : ℕ} (heq : Nat.toDigits 16 m = Nat.toDigits 16 n) : m = n := by
  induction m using Nat.strongRecOn generalizing n with
  | ind m ih =>
      rw [@Nat.toDigits_eq_if 16 m (by decide), @Nat.toDigits_eq_if 16 n (by decide)] at heq
      split_ifs at heq with hm hn hn
      · exact digitChar_inj m hm n hn (List.cons.inj heq).1
      · have hlen := congrArg List.length heq
        have hpos := List.length_pos_iff.mpr (@Nat.toDigits_ne_nil (n / 16) 16)
        rw [List.length_append, List.length_singleton, List.length_singleton] at hlen
        omega
      · have hlen := congrArg List.length heq
        have hpos := List.length_pos_iff.mpr (@Nat.toDigits_ne_nil (m / 16) 16)
        rw [List.length_append, List.length_singleton, List.length_singleton] at hlen
        omega
      · obtain ⟨hdiv, hmod⟩ := List.append_inj' heq rfl
        have hdiv' := ih (m / 16) (by omega) hdiv
        have hmod' := digitChar_inj _ (Nat.mod_lt m (by decide)) _ (Nat.mod_lt n (by decide))
          (List.cons.inj hmod).1
        omega

theorem toDigits_plain (n : ℕ) : ∀ c ∈ Nat.toDigits 16 n, c ∉ ['"', 'S', 'N'] := by
  induction n using Nat.strongRecOn with
  | ind n ih =>
      intro c hc
      rw [@Nat.toDigits_eq_if 16 n (by decide)] at hc
      split at hc
      · rw [List.mem_singleton.mp hc]
        exact digitChar_plain n (by assumption)
      · rcases List.mem_append.mp hc with hc | hc
        · exact ih (n / 16) (by omega) c hc
        · rw [List.mem_singleton.mp hc]
          exact digitChar_plain _ (Nat.mod_lt n (by decide))

theorem toList_hexAddress (a : DWord) : (hexAddress a).toList = Nat.toDigits 16 a.toNat := by
  rw [hexAddress, String.toList_ofList]

theorem Node.text_injective : Function.Injective Node.text := by
  have hdigits (a : DWord) (c : Char) (hc : c ∈ ['"', 'S', 'N']) : c ∉ (hexAddress a).toList := by
    rw [toList_hexAddress]
    exact fun hin => toDigits_plain _ c hin hc
  intro x y heq
  cases x with
  | start =>
      cases y with
      | start => rfl
      | addr a =>
          refine absurd ?_ (hdigits a 'S' (by decide))
          rw [← show "START" = hexAddress a from heq]
          decide
      | finish => exact absurd heq (by decide)
  | addr a =>
      cases y with
      | start =>
          refine absurd ?_ (hdigits a 'S' (by decide))
          rw [show hexAddress a = "START" from heq]
          decide
      | addr b =>
          have hlist := congrArg String.toList (show hexAddress a = hexAddress b from heq)
          rw [toList_hexAddress, toList_hexAddress] at hlist
          rw [BitVec.eq_of_toNat_eq (toDigits_inj hlist)]
      | finish =>
          refine absurd ?_ (hdigits a 'N' (by decide))
          rw [show hexAddress a = "END" from heq]
          decide
  | finish =>
      cases y with
      | start => exact absurd heq (by decide)
      | addr a =>
          refine absurd ?_ (hdigits a 'N' (by decide))
          rw [← show "END" = hexAddress a from heq]
          decide
      | finish => rfl

theorem Node.quote_notMem (x : Node) : '"' ∉ x.text.toList := by
  cases x with
  | start => decide
  | addr a =>
      show '"' ∉ (hexAddress a).toList
      rw [toList_hexAddress]
      exact fun hin => toDigits_plain _ _ hin (by decide)
  | finish => decide

def edgeKey (e : Node × Node) : String := CfgGenerator.edge e.1.text e.2.text

theorem append_cons_cancel {α : Type} {c : α} {xs xs' ys ys' : List α} (hxs : c ∉ xs)
    (hxs' : c ∉ xs') (heq : xs ++ c :: ys = xs' ++ c :: ys') : xs = xs' ∧ ys = ys' := by
  induction xs generalizing xs' with
  | nil =>
      cases xs' with
      | nil => exact ⟨rfl, (List.cons.inj heq).2⟩
      | cons x xs' =>
          obtain ⟨rfl, -⟩ := List.cons.inj heq
          exact absurd List.mem_cons_self hxs'
  | cons x xs ih =>
      cases xs' with
      | nil =>
          obtain ⟨rfl, -⟩ := List.cons.inj heq
          exact absurd List.mem_cons_self hxs
      | cons x' xs' =>
          obtain ⟨rfl, htail⟩ := List.cons.inj heq
          obtain ⟨rfl, hys⟩ := ih (fun hin => hxs (List.mem_cons_of_mem _ hin))
            (fun hin => hxs' (List.mem_cons_of_mem _ hin)) htail
          exact ⟨rfl, hys⟩

theorem edgeKey_injective : Function.Injective edgeKey := by
  rintro ⟨x, y⟩ ⟨x', y'⟩ heq
  have hkey (x y : Node) : (edgeKey (x, y)).toList =
      '"' :: (x.text.toList ++ '"' :: ([' ', '-', '>', ' ', '"'] ++ (y.text.toList ++ ['"']))) := by
    have hopen : ("\"" : String).toList = ['"'] := by decide
    have harrow : ("\" -> \"" : String).toList = ['"', ' ', '-', '>', ' ', '"'] := by decide
    simp only [edgeKey, CfgGenerator.edge, String.toList_append, hopen, harrow, List.append_assoc]
    rfl
  have hlist := congrArg String.toList heq
  rw [hkey, hkey] at hlist
  obtain ⟨hx, hrest⟩ := append_cons_cancel x.quote_notMem x'.quote_notMem (List.cons.inj hlist).2
  have hy := List.append_cancel_right (List.append_cancel_left hrest)
  rw [Node.text_injective (String.toList_injective hx),
    Node.text_injective (String.toList_injective hy)]

/-! ### The walk -/

def nextBlockAddrs (h : Host) (r : Rail) (cb : Callbacks) (l : List (Dispatcher × Event)) :
    List DWord :=
  l.filterMap fun
    | (d, .call io f taken a) => (d.leave h r cb io f taken a).toOption.map (·.nextBlockAddr)
    | (_, .instrument _) => none

/-- The guest goes from the start to the entry, and from block to block. -/
def guestWalk (h : Host) (r : Rail) (cb : Callbacks) (elf : ElfReader)
    (l : List (Dispatcher × Event)) : List Node :=
  .start :: (elf.entryAddr :: nextBlockAddrs h r cb l).map .addr

/-- `stub` is called by a block that has been translated. -/
def LeavesBlock (d : Dispatcher) : Event → Prop
  | .call _ _ _ _ => d.current ≠ .empty
  | .instrument _ => True

/-- The record of a block at `x` that ends by itself and begins a basic block
of the guest. -/
structure PlainBlock (x : DWord) (b : RailBasicBlock) : Prop where
  firstAddr : b.firstAddr = x
  basicBlockAddress : b.basicBlockAddress = x
  assigned : b.type.Assigned
  not_segmented : b.type ≠ .segmented

section Walk

variable {h : Host} {r : Rail} {cb : Callbacks} {elf : ElfReader}
  {cfgGenerator : Option CfgGenerator} {ok : Dispatcher → Event → Prop}
  {l : List (Dispatcher × Event)} {d : Dispatcher}

theorem Rail.NoCallbacks.segmentsBB (hr : r.NoCallbacks) (pc : BitVec 32) (w : Word) :
    segmentsBB r pc w = false := by
  rw [RailTranslator.segmentsBB]
  split_ifs <;> first | exact hr.postInstrumented _ _ | rfl

theorem BlockWalk.of_noCallbacks (hr : r.NoCallbacks) {a q : BitVec 32} {ps : List Piece}
    {e : BlockEnd} (hwalk : BlockWalk h r elf a ps q e) : e ≠ .segmented ∧ e ≠ .pre :=
  hwalk.of_uncut hr.segmentsBB fun pc w => hr.preInstrumented pc w

/-- Where no routine cuts a block, every block begins a basic block. -/
theorem recordRule_plainBlock (hseg : ∀ pc w, segmentsBB r pc w = false)
    (hnopre : ∀ pc w, preInstrumented r pc w = false) (hlink : r.traceLinkingEnabled = false) :
    RecordRule h r elf fun x b => b = .empty ∨ PlainBlock x b where
  empty _ := .inl rfl
  renamed bb hP hseg := by
    rcases hP with rfl | hplain
    · cases hseg
    · exact absurd hseg hplain.not_segmented
  allocated {pc c a n x b} hb := by
    rw [allocate, hlink] at hb
    change (allocateBB h r (elf.setProgramCounter pc) c a).2.railBasicBlocks x = some b at hb
    obtain ⟨ps, q, e, c₁, hwalk, -, hmain, hpre, -⟩ :=
      allocateBB_walk h r (elf.setProgramCounter pc) c a
    obtain ⟨hnotseg, hnotpre⟩ := hwalk.of_uncut hseg hnopre
    generalize (allocateBB h r (elf.setProgramCounter pc) c a).2 = c' at *
    cases hpre with
    | added => exact absurd rfl hnotpre
    | none =>
        cases hmain with
        | cut => exact absurd rfl hnotpre
        | left => exact .inl hb
        | closed he hdesc hplace hbb =>
            obtain rfl := he.resolve_right hnotseg
            obtain ⟨rfl, rfl⟩ | ⟨-, hb⟩ := insertAt_cases hb
            · have htype := exitType_plain ((elf.setProgramCounter pc).fetch q)
              have heq := hdesc.type
              rw [BlockEnd.type] at heq
              rw [← heq] at htype
              exact .inr (.inr ⟨hdesc.firstAddr, hbb, htype.1, htype.2⟩)
            · exact .inl hb

theorem recordRule_noCallbacks (hr : r.NoCallbacks) (hlink : r.traceLinkingEnabled = false) :
    RecordRule h r elf fun x b => b = .empty ∨ PlainBlock x b :=
  recordRule_plainBlock hr.segmentsBB (fun pc w => hr.preInstrumented pc w) hlink

theorem plainBlock_current (hr : r.NoCallbacks) (hlink : r.traceLinkingEnabled = false)
    (hrun : Run (dispatch h r cb elf cfgGenerator) ok l d) (hne : d.current ≠ .empty) :
    PlainBlock (d.cache.currentBB.setWidth 64) d.current := by
  have hrec := ((recordRule_noCallbacks hr hlink).run hrun).2
  rw [Dispatcher.current, CodeCache.lookup] at hne ⊢
  rcases hb : d.cache.railBasicBlocks (d.cache.currentBB.setWidth 64) with _ | b
  · rw [hb] at hne
    exact absurd rfl hne
  · rw [hb] at hne
    exact (hrec _ b hb).resolve_left hne

/-- Behind `init` and every call: the steps of the walk have been counted, and
the walk stands at the basic block of the current record. -/
structure CountsWalk (h : Host) (r : Rail) (cb : Callbacks) (elf : ElfReader)
    (l : List (Dispatcher × Event)) (d : Dispatcher) : Prop where
  counts : ∃ g, d.cfgGenerator = some g ∧ g.writefile = [] ∧
    Counts g.entries ((steps (guestWalk h r cb elf l)).map edgeKey)
  stands : ∃ front last, guestWalk h r cb elf l = front ++ [.addr last] ∧
    (d.current = .empty ∨ d.current.basicBlockAddress = last)

theorem entries_addEdge (g : CfgGenerator) (x y : Node) :
    (g.addEdge x.text y.text).entries = bump g.entries (edgeKey (x, y)) := by
  simp only [CfgGenerator.addEdge, CfgGenerator.label, bump, edgeKey]
  rcases g.entries.lookup (CfgGenerator.edge x.text y.text) with _ | v
  · rfl
  · rfl

theorem counts_addEdge {g : CfgGenerator} {front : List Node} {x : Node} (y : Node)
    (hg : Counts g.entries ((steps (front ++ [x])).map edgeKey)) :
    Counts (g.addEdge x.text y.text).entries ((steps (front ++ [x] ++ [y])).map edgeKey) := by
  have hsteps : steps (front ++ [x] ++ [y]) = steps (front ++ [x]) ++ [(x, y)] := by
    rw [List.append_assoc]
    exact steps_snoc front x y
  rw [entries_addEdge, hsteps, List.map_append, List.map_singleton]
  exact hg.bump _

theorem guestWalk_instrument (f : TrapFrame) :
    guestWalk h r cb elf (l ++ [(d, .instrument f)]) = guestWalk h r cb elf l := by
  simp [guestWalk, nextBlockAddrs, List.filterMap_append]

theorem guestWalk_call {io : IoRequest → DWord} {f : TrapFrame} {taken a : DWord} {s : Successor}
    (hs : d.leave h r cb io f taken a = .returned s) :
    guestWalk h r cb elf (l ++ [(d, .call io f taken a)]) =
      guestWalk h r cb elf l ++ [.addr s.nextBlockAddr] := by
  simp [guestWalk, nextBlockAddrs, List.filterMap_append, hs, StubOutcome.toOption]

theorem countsWalk_init (hr : r.NoCallbacks) (hlink : r.traceLinkingEnabled = false)
    (hrange : elf.InRange) (f : TrapFrame) :
    CountsWalk h r cb elf []
      (init h r cb (rootDispatcher h elf (some ⟨[], []⟩)) f).dispatcher := by
  have hcurrent := @current_init h r cb elf (some ⟨[], []⟩) hlink hrange f
  obtain ⟨next, hnext, hinit⟩ := @init_dispatcher h r cb elf f (some ⟨[], []⟩)
  refine ⟨⟨_, by rw [hinit]; rfl, rfl, ?_⟩, [.start], elf.entryAddr, rfl, ?_⟩
  · have hempty : Counts (CfgGenerator.mk [] []).entries
        ((steps ([] ++ [Node.start])).map edgeKey) := counts_nil
    exact counts_addEdge (.addr elf.entryAddr) hempty
  · have hrec := @RecordRule.start h r cb elf (some ⟨[], []⟩) _ (recordRule_noCallbacks hr hlink) f
      elf.entryAddr next (by rw [hinit, hnext]; exact railBasicBlocks_lookup_self _ _)
    rw [hcurrent, ← hnext]
    exact hrec.imp id (·.basicBlockAddress)

theorem countsWalk_call (hr : r.NoCallbacks) (hlink : r.traceLinkingEnabled = false)
    (hrange : elf.InRange) {io : IoRequest → DWord} {f : TrapFrame} {taken a : DWord} {res : Resume}
    {s : Successor} {next : RailBasicBlock} (hst : StubStep h r cb io d f taken a res s next)
    (hrun : Run (dispatch h r cb elf cfgGenerator) ok l d)
    (hrun' : Run (dispatch h r cb elf cfgGenerator) ok (l ++ [(d, .call io f taken a)])
      res.dispatcher) (hne : d.current ≠ .empty) (hwalk : CountsWalk h r cb elf l d) :
    CountsWalk h r cb elf (l ++ [(d, .call io f taken a)]) res.dispatcher := by
  obtain ⟨⟨g, hg, hfile, hcounts⟩, front, last, hfront, hlast⟩ := hwalk
  have hplain := plainBlock_current hr hlink hrun hne
  have hassigned : (d.left h a).exitType.Assigned := by
    rw [left_of_exits (exits_run hlink hrun)]
    exact hplain.assigned
  obtain ⟨hblock, hlt, -, -⟩ := hst.entered hlink hrange hrun'
  have hplain' := plainBlock_current hr hlink hrun' hblock.ne_empty
  have hkey : res.dispatcher.cache.currentBB.setWidth 64 = s.nextBlockAddr := by
    rw [hst.cache, CodeCache.currentBB_setCurrentBB]
    have hfirst : next.firstAddr = s.nextBlockAddr := (hst.entered hlink hrange hrun').2.2.1
    rw [hfirst]
    bv_omega
  rw [hkey] at hplain'
  rw [hfront] at hcounts
  refine ⟨⟨g.addEdge (Node.addr last).text (Node.addr s.nextBlockAddr).text, ?_, hfile, ?_⟩,
    front ++ [.addr last], s.nextBlockAddr, ?_, .inr hplain'.basicBlockAddress⟩
  · rw [hst.cfgGenerator, if_pos hassigned, hg, hlast.resolve_left hne]
    rfl
  · rw [guestWalk_call hst.leave, hfront]
    exact counts_addEdge _ hcounts
  · rw [guestWalk_call hst.leave, hfront]

theorem countsWalk_run (hr : r.NoCallbacks) (hlink : r.traceLinkingEnabled = false)
    (hrange : elf.InRange)
    (hrun : Run (dispatch h r cb elf (some ⟨[], []⟩)) LeavesBlock l d) :
    CountsWalk h r cb elf l d := by
  induction hrun with
  | start hs =>
      obtain ⟨f, rfl⟩ := hs
      exact countsWalk_init hr hlink hrange f
  | @next l d d' e hrun hok hstep ih =>
      have hrun' := hrun.next hok hstep
      cases e with
      | instrument f =>
          obtain rfl := Option.some.inj hstep
          have hnil : instrumentCalls h r d.current = [] := by
            rw [instrumentCalls, hr.typedPre, hr.typedPre]
            split <;> rfl
          rw [instrument_of_nil hnil]
          refine ⟨?_, ?_⟩
          · rw [guestWalk_instrument]
            exact ih.counts
          · rw [guestWalk_instrument, current_lookedUp]
            exact ih.stands
      | call io f taken a =>
          obtain ⟨res, hstub, rfl⟩ := Option.map_eq_some_iff.mp hstep
          obtain ⟨s, next, hst⟩ := stub_step (StubOutcome.eq_returned hstub)
          exact countsWalk_call hr hlink hrange hst hrun hrun' hok ih

/-! ### What is written -/

theorem cfgGenerator_exitBinary {g : CfgGenerator} (hg : d.cfgGenerator = some g) :
    (exitBinary r d).cfgGenerator =
      some (g.addEdge (hexAddress d.current.basicBlockAddress) "END").finish := by
  rw [exitBinary]
  cases r.exitRoutine with
  | none =>
      simp only [hg]
      rfl
  | some func =>
      simp only [hg]
      rfl

theorem perm_lines {g : CfgGenerator} {es : List (Node × Node)} (hfile : g.writefile = [])
    (hg : Counts g.entries (es.map edgeKey)) (hfew : ∀ e, es.count e < 2 ^ 31) :
    g.finish.writefile.Perm (es.dedup.map fun e => edgeLine e (es.count e)) := by
  have hperm := hg.perm
  rw [List.dedup_map_of_injective edgeKey_injective, List.map_map] at hperm
  have hlines := hperm.map fun e : String × BitVec 32 =>
    e.1 ++ " [label=\"" ++ toString e.2.toInt ++ "\"];"
  rw [List.map_map] at hlines
  have hwrite : g.finish.writefile = g.entries.map fun e : String × BitVec 32 =>
      e.1 ++ " [label=\"" ++ toString e.2.toInt ++ "\"];" := by
    rw [CfgGenerator.finish, hfile, List.nil_append]
  rw [hwrite]
  refine hlines.trans (List.Perm.of_eq (List.map_congr_left fun e _ => ?_))
  have hcount : (es.map edgeKey).count (edgeKey e) = es.count e := by
    rw [List.count_eq_countP, List.countP_map, List.count_eq_countP]
    refine List.countP_congr fun e' _ => ?_
    rw [Function.comp_apply, beq_iff_eq, beq_iff_eq, edgeKey_injective.eq_iff]
  have hvalue : ((es.count e : ℕ) : BitVec 32).toInt = es.count e := by
    have hlt := hfew e
    have hnat : ((es.count e : ℕ) : BitVec 32).toNat = es.count e := by
      rw [BitVec.natCast_eq_ofNat, BitVec.toNat_ofNat]
      omega
    rw [BitVec.toInt_eq_toNat_of_lt (by omega), hnat]
  show edgeKey e ++ " [label=\"" ++ toString
    (((es.map edgeKey).count (edgeKey e) : ℕ) : BitVec 32).toInt ++ "\"];" = edgeLine e (es.count e)
  rw [hcount, hvalue]
  rfl

/-- A run of the guest that ends in an emulated exit writes its walk: one line
for each step of it, with the number of times it was taken; and every block is
entered as often as it is left. -/
theorem guestCfg_walk (hr : r.NoCallbacks) (hlink : r.traceLinkingEnabled = false)
    (hrange : elf.InRange)
    (hrun : Run (dispatch h r cb elf (some ⟨[], []⟩)) LeavesBlock l d) {io : IoRequest → DWord}
    {f : TrapFrame} {taken a : DWord} {d' : Dispatcher}
    (hexit : d.leave h r cb io f taken a = .exited d')
    (hfew : ∀ e, (steps (guestWalk h r cb elf l ++ [.finish])).count e < 2 ^ 31) :
    stub h r cb io d f taken a = .exited d' ∧ ∃ g, d'.cfgGenerator = some g ∧
      g.writefile.Perm ((steps (guestWalk h r cb elf l ++ [.finish])).dedup.map fun e =>
        edgeLine e ((steps (guestWalk h r cb elf l ++ [.finish])).count e)) ∧
      ∀ x, (((steps (guestWalk h r cb elf l ++ [.finish])).dedup.filter fun e => e.2 = .addr x).map
          fun e => (steps (guestWalk h r cb elf l ++ [.finish])).count e).sum =
        (((steps (guestWalk h r cb elf l ++ [.finish])).dedup.filter fun e => e.1 = .addr x).map
          fun e => (steps (guestWalk h r cb elf l ++ [.finish])).count e).sum := by
  obtain ⟨⟨g, hg, hfile, hcounts⟩, front, last, hfront, hlast⟩ := countsWalk_run hr hlink hrange hrun
  obtain ⟨htype, d₁, rfl, -, hcache, hcfg⟩ := leave_exited hexit
  have hcur : d₁.current = d.current := by
    rw [← current_lookedUp d, Dispatcher.current, hcache]
    rfl
  have hne : d.current ≠ .empty := by
    rintro hempty
    rw [left_of_exits (exits_run hlink hrun), hempty] at htype
    cases htype
  have hcounted : Counts (g.addEdge (hexAddress d₁.current.basicBlockAddress) "END").entries
      ((steps (guestWalk h r cb elf l ++ [.finish])).map edgeKey) := by
    have hsnoc := @counts_addEdge g front (.addr last) .finish (by rwa [hfront] at hcounts)
    rw [hfront, hcur, hlast.resolve_left hne]
    exact hsnoc
  refine ⟨stub_of_exited hexit, _, cfgGenerator_exitBinary (hcfg.trans hg),
    perm_lines hfile hcounted hfew, fun x => ?_⟩
  rw [sum_count_steps, sum_count_steps]
  refine steps_balanced ?_ ?_
  · intro heq
    cases heq
  · intro heq
    cases heq

/-- `jal x0, 8; nop; ecall`, and a word the translator does not read. -/
def exitingText : ElfReader :=
  .ofWords 0x10000 [0x0080006f, 0x00000013, 0x00000073, 0x00000013]

theorem exitingText_walk : ∃ l d d' g,
    Run (dispatch requestedHost (Rail.plain false) idleCallbacks exitingText (some ⟨[], []⟩))
      LeavesBlock l d ∧
    stub requestedHost (Rail.plain false) idleCallbacks (fun _ => 0) d exitFrame 0 0 = .exited d' ∧
    d'.cfgGenerator = some g ∧
    g.writefile.Perm ["\"START\" -> \"10000\" [label=\"1\"];",
      "\"10000\" -> \"10008\" [label=\"1\"];", "\"10008\" -> \"END\" [label=\"1\"];"] := by
  generalize hd₀ : (init requestedHost (Rail.plain false) idleCallbacks
    (rootDispatcher requestedHost exitingText (some ⟨[], []⟩)) fun _ => 0).dispatcher = d₀
  have hstart : Run (dispatch requestedHost (Rail.plain false) idleCallbacks exitingText
      (some ⟨[], []⟩)) LeavesBlock [] d₀ := .start ⟨_, hd₀.symm⟩
  have hok : LeavesBlock d₀ (leaving 1 0) := by
    show d₀.current ≠ .empty
    rw [← hd₀]
    decide +kernel
  have hstep : ((dispatch requestedHost (Rail.plain false) idleCallbacks exitingText
      (some ⟨[], []⟩)).step d₀ (leaving 1 0)).map (fun d => (d.leave requestedHost
        (Rail.plain false) idleCallbacks (fun _ => 0) exitFrame 0 0).toOption.isNone) = some true := by
    rw [← hd₀]
    decide +kernel
  have hwalk : guestWalk requestedHost (Rail.plain false) idleCallbacks exitingText
      [(d₀, leaving 1 0)] = [.start, .addr 0x10000, .addr 0x10008] := by
    rw [← hd₀]
    decide +kernel
  obtain ⟨d, hd, hnone⟩ := Option.map_eq_some_iff.mp hstep
  have hrun := hstart.next hok hd
  rcases hexit : d.leave requestedHost (Rail.plain false) idleCallbacks (fun _ => 0) exitFrame 0 0
    with s | d'
  · rw [hexit] at hnone
    cases hnone
  · have hrange : exitingText.InRange := inRange_ofWords (by decide) (by decide)
    obtain ⟨hstub, g, hg, hlines, -⟩ := guestCfg_walk
      (Rail.uninstrumented_plain false).toNoCallbacks rfl hrange hrun hexit fun e => by
          rw [List.nil_append, hwalk]
          exact List.count_le_length.trans_lt (by decide)
    refine ⟨_, d, d', g, hrun, hstub, hg, ?_⟩
    rw [List.nil_append, hwalk] at hlines
    exact hlines.trans (List.Perm.of_eq (by decide +kernel))

end Walk

end RailTranslator
