import Mathlib.Data.List.Basic

/-!
The words a process finds on its stack when it starts.

A count, so many arguments and a zero, the environment up to a zero, and an
auxiliary vector of pairs up to one of type zero. Nothing but the separators
tells where one part ends and the next one begins. `parse` reads the parts off
a list of words, and is not misled by what stands behind the last one.
-/

namespace ProcessStart

variable {ω : Type*}

structure Start (ω : Type*) where
  argc : ω
  argv : List ω
  envp : List ω
  auxv : List (ω × ω)

def entryWords (entry : ω × ω) : List ω := [entry.1, entry.2]

variable [Zero ω] [DecidableEq ω] (count : ω → ℕ)

def untilZero : List ω → Option (List ω × List ω)
  | [] => none
  | w :: ws => if w = 0 then some ([], ws) else (untilZero ws).map fun p => (w :: p.1, p.2)

def pairs : List ω → Option (List (ω × ω))
  | [] => none
  | [t] => if t = 0 then some [] else none
  | t :: v :: ws => if t = 0 then some [] else (pairs ws).map fun entries => (t, v) :: entries

def parseBehind (argc : ω) (argv : List ω) : List ω → Option (Start ω)
  | [] => none
  | z :: ws =>
    if z = 0 then
      (untilZero ws).bind fun p => (pairs p.2).map fun auxv => ⟨argc, argv, p.1, auxv⟩
    else none

def parse : List ω → Option (Start ω)
  | [] => none
  | argc :: ws =>
    if count argc ≤ ws.length then
      parseBehind argc (ws.take (count argc)) (ws.drop (count argc))
    else none

variable {count} {argc : ω} {argv envp ws vs : List ω} {auxv : List (ω × ω)} {s : Start ω}

/-! ### Separators -/

theorem untilZero_append_zero (hne : ∀ w ∈ envp, w ≠ 0) :
    untilZero (envp ++ 0 :: ws) = some (envp, ws) := by
  induction envp with
  | nil => simp [untilZero]
  | cons w envp ih =>
      obtain ⟨hw, hrest⟩ := List.forall_mem_cons.mp hne
      simp [untilZero, hw, ih hrest]

theorem pairs_append_zero (hne : ∀ entry ∈ auxv, entry.1 ≠ 0) :
    pairs (auxv.flatMap entryWords ++ 0 :: ws) = some auxv := by
  induction auxv with
  | nil => cases ws <;> simp [pairs]
  | cons entry auxv ih =>
      obtain ⟨hentry, hrest⟩ := List.forall_mem_cons.mp hne
      simp [entryWords, pairs, hentry, ih hrest]

theorem parse_eq_some_iff :
    parse count ws = some s ↔ ∃ rest behind, ws = s.argc :: (s.argv ++ 0 :: rest) ∧
      s.argv.length = count s.argc ∧ untilZero rest = some (s.envp, behind) ∧
        pairs behind = some s.auxv := by
  constructor
  · intro h
    cases ws with
    | nil => cases h
    | cons argc ws =>
        rw [parse] at h
        split at h
        · rename_i hle
          cases hdrop : ws.drop (count argc) with
          | nil =>
              rw [hdrop] at h
              cases h
          | cons z rest =>
              rw [hdrop, parseBehind] at h
              split at h
              · rename_i hz
                obtain ⟨p, hp, hmap⟩ := Option.bind_eq_some_iff.mp h
                obtain ⟨auxv, hauxv, rfl⟩ := Option.map_eq_some_iff.mp hmap
                refine ⟨rest, p.2, ?_, List.length_take_of_le hle, hp, hauxv⟩
                rw [← hz, ← hdrop, List.take_append_drop]
              · cases h
        · cases h
  · intro h
    obtain ⟨rest, behind, rfl, hlen, hrest, hbehind⟩ := h
    have hle : count s.argc ≤ (s.argv ++ 0 :: rest).length := by
      rw [← hlen, List.length_append]
      exact Nat.le_add_right _ _
    rw [parse, if_pos hle, ← hlen, List.take_left, List.drop_left, parseBehind, if_pos rfl, hrest,
      Option.bind_some, hbehind]
    rfl

/-! ### The encoder -/

def encode (s : Start ω) : List ω :=
  s.argc :: (s.argv ++ 0 :: (s.envp ++ 0 :: (s.auxv.flatMap entryWords ++ [0])))

theorem parse_encode (hargc : s.argv.length = count s.argc) (henvp : ∀ w ∈ s.envp, w ≠ 0)
    (hauxv : ∀ entry ∈ s.auxv, entry.1 ≠ 0) : parse count (encode s ++ ws) = some s := by
  apply parse_eq_some_iff.mpr
  refine ⟨s.envp ++ 0 :: (s.auxv.flatMap entryWords ++ 0 :: ws), _, ?_, hargc,
    untilZero_append_zero henvp, pairs_append_zero hauxv⟩
  simp [encode]

/-! ### More words -/

theorem untilZero_append {p : List ω × List ω} (h : untilZero ws = some p) :
    untilZero (ws ++ vs) = some (p.1, p.2 ++ vs) := by
  induction ws generalizing p with
  | nil => cases h
  | cons w ws ih =>
      rw [untilZero] at h
      rw [List.cons_append, untilZero]
      split at h
      · cases h
        rw [if_pos (by assumption)]
      · obtain ⟨q, hq, rfl⟩ := Option.map_eq_some_iff.mp h
        rw [if_neg (by assumption), ih hq]
        rfl

theorem pairs_append (h : pairs ws = some auxv) : pairs (ws ++ vs) = some auxv := by
  induction ws using pairs.induct generalizing auxv with
  | case1 => cases h
  | case2 =>
      cases vs with
      | nil => exact h
      | cons v vs =>
          simp only [pairs, ↓reduceIte] at h
          simpa [pairs] using h
  | case3 t hne =>
      rw [pairs, if_neg hne] at h
      cases h
  | case4 v ws =>
      simp only [pairs, ↓reduceIte] at h
      simpa [pairs] using h
  | case5 t v ws hne ih =>
      rw [pairs, if_neg hne] at h
      obtain ⟨entries, hentries, rfl⟩ := Option.map_eq_some_iff.mp h
      rw [List.cons_append, List.cons_append, pairs, if_neg hne, ih hentries]
      rfl

theorem parse_append (h : parse count ws = some s) : parse count (ws ++ vs) = some s := by
  obtain ⟨rest, behind, rfl, hlen, hrest, hbehind⟩ := parse_eq_some_iff.mp h
  apply parse_eq_some_iff.mpr
  refine ⟨rest ++ vs, behind ++ vs, ?_, hlen, untilZero_append hrest, pairs_append hbehind⟩
  simp

/-! ### Words in memory -/

/-- The words of a memory, read from its start, are those of `s`. -/
def Reads (count : ω → ℕ) (mem : ℕ → ω) (s : Start ω) : Prop :=
  ∃ n, parse count ((List.range n).map mem) = some s

theorem Reads.length_argv {mem : ℕ → ω} (h : Reads count mem s) :
    s.argv.length = count s.argc := by
  obtain ⟨n, hn⟩ := h
  obtain ⟨_, _, _, hlen, _⟩ := parse_eq_some_iff.mp hn
  exact hlen

/-- A memory is read in one way at most. -/
theorem Reads.unique {mem : ℕ → ω} {s' : Start ω} (h : Reads count mem s)
    (h' : Reads count mem s') : s = s' := by
  obtain ⟨n, hn⟩ := h
  obtain ⟨n', hn'⟩ := h'
  have hsplit (a b : ℕ) : (List.range (a + b)).map mem =
      (List.range a).map mem ++ (List.range b).map fun i => mem (a + i) := by
    rw [List.range_add, List.map_append, List.map_map]
    rfl
  have hs : parse count ((List.range (n + n')).map mem) = some s := by
    rw [hsplit]
    exact parse_append hn
  have hs' : parse count ((List.range (n + n')).map mem) = some s' := by
    rw [Nat.add_comm, hsplit]
    exact parse_append hn'
  rw [hs] at hs'
  exact Option.some.inj hs'

end ProcessStart
