import Mathlib.Algebra.BigOperators.Group.List.Lemmas
import Mathlib.Data.BitVec

/-!
Counting keys in an association list, and the steps of a walk.

`bump` counts a key once more; `Counts` says that a list of entries holds the
numbers of occurrences of some keys, and is kept by `bump`. The steps of a walk
are its consecutive pairs. In a walk between two ends every other node is
entered as often as it is left.
-/

namespace Tally

variable {κ α ν : Type*} [DecidableEq κ]

/-! ### Keys -/

/-- A new key is counted once, a known one once more. -/
def bump [One α] [Add α] (m : List (κ × α)) (k : κ) : List (κ × α) :=
  match m.lookup k with
  | none => m ++ [(k, 1)]
  | some _ => m.map fun e => if e.1 = k then (e.1, e.2 + 1) else e

/-- The entries hold how often each of the keys occurs, and no other key. -/
structure Counts [NatCast α] (m : List (κ × α)) (ks : List κ) : Prop where
  nodup : (m.map Prod.fst).Nodup
  mem : ∀ k v, (k, v) ∈ m ↔ k ∈ ks ∧ v = (ks.count k : α)

theorem counts_nil [NatCast α] : Counts ([] : List (κ × α)) [] where
  nodup := List.nodup_nil
  mem k v := by simp

theorem lookup_eq_none_iff {m : List (κ × α)} {k : κ} :
    m.lookup k = none ↔ k ∉ m.map Prod.fst := by
  rw [List.lookup_eq_none_iff]
  simp only [List.mem_map, not_exists, not_and, bne_iff_ne, ne_eq]
  exact ⟨fun h e he heq => h e he heq.symm, fun h e he heq => h e he heq.symm⟩

variable [AddMonoidWithOne α] {m : List (κ × α)} {ks : List κ}

theorem Counts.mem_keys (hm : Counts m ks) (k : κ) : k ∈ m.map Prod.fst ↔ k ∈ ks := by
  rw [List.mem_map]
  constructor
  · rintro ⟨⟨k, v⟩, he, rfl⟩
    exact ((hm.mem k v).mp he).1
  · intro hk
    exact ⟨(k, _), (hm.mem k _).mpr ⟨hk, rfl⟩, rfl⟩

theorem count_snoc (ks : List κ) (k x : κ) :
    (ks ++ [k]).count x = ks.count x + if x = k then 1 else 0 := by
  rw [List.count_append, List.count_singleton]
  by_cases hx : x = k
  · rw [if_pos hx, if_pos (beq_iff_eq.mpr hx.symm)]
  · rw [if_neg hx, if_neg (by rw [beq_iff_eq]; exact fun heq => hx heq.symm)]

theorem Counts.first (hm : Counts m ks) {k : κ} (hnew : k ∉ ks) :
    Counts (m ++ [(k, 1)]) (ks ++ [k]) := by
  refine ⟨?_, fun x v => ?_⟩
  · rw [List.map_append, List.map_singleton, List.nodup_append]
    refine ⟨hm.nodup, List.nodup_singleton _, fun x hx y hy => ?_⟩
    obtain rfl := List.mem_singleton.mp hy
    rintro rfl
    exact hnew ((hm.mem_keys x).mp hx)
  · rw [List.mem_append, List.mem_singleton, List.mem_append, List.mem_singleton, hm.mem,
      count_snoc]
    by_cases hx : x = k
    · subst hx
      have h0 : ks.count x = 0 := List.count_eq_zero.mpr hnew
      simp [hnew, h0]
    · simp [hx]

theorem Counts.again (hm : Counts m ks) {k : κ} (hold : k ∈ ks) :
    Counts (m.map fun e => if e.1 = k then (e.1, e.2 + 1) else e) (ks ++ [k]) := by
  have hfst : (m.map fun e => if e.1 = k then (e.1, e.2 + 1) else e).map Prod.fst =
      m.map Prod.fst := by
    rw [List.map_map]
    refine List.map_congr_left fun e _ => ?_
    show (if e.1 = k then (e.1, e.2 + 1) else e).1 = e.1
    split <;> rfl
  refine ⟨by rw [hfst]; exact hm.nodup, fun x v => ?_⟩
  rw [List.mem_map, List.mem_append, List.mem_singleton, count_snoc]
  constructor
  · rintro ⟨⟨y, u⟩, he, heq⟩
    obtain ⟨hy, hu⟩ := (hm.mem y u).mp he
    by_cases hyk : y = k
    · rw [if_pos hyk] at heq
      obtain ⟨rfl, rfl⟩ := Prod.mk.inj heq
      refine ⟨.inl hy, ?_⟩
      rw [if_pos hyk, hu, Nat.cast_add, Nat.cast_one]
    · rw [if_neg hyk] at heq
      obtain ⟨rfl, rfl⟩ := Prod.mk.inj heq
      refine ⟨.inl hy, ?_⟩
      rw [if_neg hyk, hu, Nat.add_zero]
  · rintro ⟨hx, rfl⟩
    have hx' : x ∈ ks := hx.elim id fun heq => heq ▸ hold
    refine ⟨(x, (ks.count x : α)), (hm.mem x _).mpr ⟨hx', rfl⟩, ?_⟩
    by_cases hxk : x = k
    · rw [if_pos hxk, if_pos hxk, Nat.cast_add, Nat.cast_one]
    · rw [if_neg hxk, if_neg hxk, Nat.add_zero]

theorem Counts.bump (hm : Counts m ks) (k : κ) : Counts (bump m k) (ks ++ [k]) := by
  rw [Tally.bump]
  cases hlookup : m.lookup k with
  | none =>
      refine hm.first ?_
      rw [← hm.mem_keys]
      exact lookup_eq_none_iff.mp hlookup
  | some v =>
      refine hm.again ?_
      rw [← hm.mem_keys]
      by_contra hnot
      rw [lookup_eq_none_iff.mpr hnot] at hlookup
      cases hlookup

theorem Counts.perm (hm : Counts m ks) :
    m.Perm (ks.dedup.map fun k => (k, (ks.count k : α))) := by
  have hinj : Function.Injective fun k => (k, (ks.count k : α)) := fun k k' heq =>
    (Prod.mk.inj heq).1
  refine (List.perm_ext_iff_of_nodup hm.nodup.of_map ((List.nodup_dedup ks).map hinj)).mpr ?_
  rintro ⟨k, v⟩
  rw [hm.mem, List.mem_map]
  constructor
  · rintro ⟨hk, rfl⟩
    exact ⟨k, List.mem_dedup.mpr hk, rfl⟩
  · rintro ⟨k', hk', heq⟩
    obtain ⟨rfl, rfl⟩ := Prod.mk.inj heq
    exact ⟨List.mem_dedup.mp hk', rfl⟩

/-! ### Walks -/

def steps (w : List ν) : List (ν × ν) := w.zip w.tail

theorem steps_snoc (w : List ν) (a b : ν) : steps (w ++ [a, b]) = steps (w ++ [a]) ++ [(a, b)] := by
  induction w with
  | nil => rfl
  | cons x w ih =>
      cases w with
      | nil => rfl
      | cons y w => exact congrArg ((x, y) :: ·) ih

theorem map_fst_steps (w : List ν) : (steps w).map Prod.fst = w.dropLast := by
  induction w with
  | nil => rfl
  | cons x w ih =>
      cases w with
      | nil => rfl
      | cons y w => exact congrArg (x :: ·) ih

theorem map_snd_steps (w : List ν) : (steps w).map Prod.snd = w.tail := by
  rw [steps, List.map_snd_zip]
  rw [List.length_tail]
  omega

variable [DecidableEq ν]

theorem sum_count_steps (w : List ν) (p : ν × ν → Bool) :
    (((steps w).dedup.filter p).map fun e => (steps w).count e).sum = (steps w).countP p := by
  have hbeq : (instBEqProd : BEq (ν × ν)) = instBEqOfDecidableEq := lawful_beq_subsingleton _ _
  rw [hbeq]
  exact List.sum_map_count_dedup_filter_eq_countP p (steps w)

/-- A node that is not an end is entered as often as it is left. -/
theorem steps_balanced {a b : ν} {w : List ν} {x : ν} (ha : x ≠ a) (hb : x ≠ b) :
    (steps (a :: (w ++ [b]))).countP (fun e => e.2 = x) =
      (steps (a :: (w ++ [b]))).countP (fun e => e.1 = x) := by
  have hin : (steps (a :: (w ++ [b]))).countP (fun e => e.2 = x) = w.countP (· = x) := by
    have hmap : (steps (a :: (w ++ [b]))).countP (fun e => e.2 = x) =
        ((steps (a :: (w ++ [b]))).map Prod.snd).countP (· = x) := by
      rw [List.countP_map]
      rfl
    rw [hmap, map_snd_steps, List.tail_cons, List.countP_append, List.countP_singleton,
      if_neg (by simpa using hb.symm), Nat.add_zero]
  have hout : (steps (a :: (w ++ [b]))).countP (fun e => e.1 = x) = w.countP (· = x) := by
    have hmap : (steps (a :: (w ++ [b]))).countP (fun e => e.1 = x) =
        ((steps (a :: (w ++ [b]))).map Prod.fst).countP (· = x) := by
      rw [List.countP_map]
      rfl
    rw [hmap, map_fst_steps, ← List.cons_append, List.dropLast_concat, List.countP_cons_of_neg]
    simpa using ha.symm
  rw [hin, hout]

end Tally
