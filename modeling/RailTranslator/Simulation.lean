import Mathlib.Data.List.Basic

/-!
One labelled step relation that follows another.

`Steps` are the runs of a step relation whose steps carry labels: what happens
to the system from outside, and thus the same on both sides of a comparison.
A relation between the states of two systems is a simulation when the second
one can take every step of the first one, as long as it is not `stuck`, and
whatever step it takes then, the states remain related. The second system need
not be deterministic.

The two systems need not take steps of one size: `Steps.cut` makes a run of turns
of a run of small steps. What is `Seen` of the first run is what a log of the
second one gathers.

A system that takes a short cut has no step of its own for some steps of the
first one. Those are `silent`, and `Shadows` is a simulation with such steps.
-/

namespace Transition

variable {σ τ ι : Type*}

/-- The runs of a step relation, one label for each step. -/
inductive Steps (step : ι → σ → σ → Prop) : List ι → σ → σ → Prop
  | nil (s : σ) : Steps step [] s s
  | cons {i : ι} {l : List ι} {s s' s'' : σ} (hstep : step i s s')
      (hrest : Steps step l s' s'') : Steps step (i :: l) s s''

/-- The second step relation follows the first one along `R`. -/
structure Follows (step : ι → σ → σ → Prop) (step' : ι → τ → τ → Prop) (stuck : τ → Prop)
    (R : σ → τ → Prop) : Prop where
  progress : ∀ {i : ι} {s s' : σ} {t : τ}, R s t → step i s s' → ¬ stuck t → ∃ t', step' i t t'
  keeps : ∀ {i : ι} {s s' : σ} {t t' : τ}, R s t → step i s s' → step' i t t' → R s' t'

namespace Steps

variable {step : ι → σ → σ → Prop} {l l' : List ι} {s s' s'' : σ}

theorem append (h : Steps step l s s') (h' : Steps step l' s' s'') :
    Steps step (l ++ l') s s'' := by
  induction h with
  | nil => exact h'
  | cons hstep _ ih => exact .cons hstep (ih h')

theorem single {i : ι} (h : step i s s') : Steps step [i] s s' := .cons h (.nil s')

end Steps

namespace Follows

variable {step : ι → σ → σ → Prop} {step' : ι → τ → τ → Prop} {stuck : τ → Prop}
  {R : σ → τ → Prop} {l : List ι} {s s' : σ} {t t' : τ}

theorem related (hf : Follows step step' stuck R) (hR : R s t) (hs : Steps step l s s')
    (ht : Steps step' l t t') : R s' t' := by
  induction hs generalizing t with
  | nil =>
      cases ht
      exact hR
  | cons hstep _ ih =>
      cases ht with
      | cons hstep' hrest' => exact ih (hf.keeps hR hstep hstep') hrest'

/-- A run is followed to its end, or up to a state in which the second system
is stuck. -/
theorem exists_steps (hf : Follows step step' stuck R) (hR : R s t) (hs : Steps step l s s') :
    ∃ l₁ l₂ t', l = l₁ ++ l₂ ∧ Steps step' l₁ t t' ∧ (l₂ = [] ∨ stuck t') := by
  induction hs generalizing t with
  | nil => exact ⟨[], [], t, rfl, .nil t, .inl rfl⟩
  | @cons i l s s' s'' hstep _ ih =>
      by_cases hstuck : stuck t
      · exact ⟨[], i :: l, t, rfl, .nil t, .inr hstuck⟩
      · obtain ⟨t₁, hstep'⟩ := hf.progress hR hstep hstuck
        obtain ⟨l₁, l₂, t', rfl, hsteps, hend⟩ := ih (hf.keeps hR hstep hstep')
        exact ⟨i :: l₁, l₂, t', rfl, .cons hstep' hsteps, hend⟩

theorem exists_run (hf : Follows step step' (fun _ => False) R) (hR : R s t)
    (hs : Steps step l s s') : ∃ t', Steps step' l t t' := by
  obtain ⟨l₁, l₂, t', rfl, hsteps, hend⟩ := hf.exists_steps hR hs
  rcases hend with rfl | hstuck
  · exact ⟨t', by rwa [List.append_nil]⟩
  · exact hstuck.elim

end Follows

/-! ### Runs cut into turns -/

section Cut

variable {step : ι → σ → σ → Prop} {l : List ι} {s s' : σ}

/-- What a step brings back from the state behind it holds along a run in front
of a state with it. -/
theorem Steps.backward {Q : σ → Prop} (hQ : ∀ {i : ι} {s s' : σ}, step i s s' → Q s' → Q s)
    (hs : Steps step l s s') (hend : Q s') :
    Steps (fun i s s' => step i s s' ∧ Q s') l s s' ∧ Q s := by
  induction hs with
  | nil s => exact ⟨.nil s, hend⟩
  | cons hstep _ ih =>
      obtain ⟨hrest, hQ'⟩ := ih hend
      exact ⟨.cons ⟨hstep, hQ'⟩ hrest, hQ hstep hQ'⟩

/-- A run of small steps is a run of turns: when a turn that has begun at `t` has
come to `s`, a small step goes on with it or ends it. What the turn is labelled
with is the label of that step, if anything. -/
theorem Steps.cut {κ : Type*} {turn : κ → τ → τ → Prop} {f : κ → Option ι} {Part : τ → σ → Prop}
    (hcut : ∀ {i : ι} {t : τ} {s s' : σ}, Part t s → step i s s' → Part t s' ∨
      ∃ j t', (∀ i', f j = some i' → i' = i) ∧ turn j t t' ∧ Part t' s')
    {t : τ} (hs : Steps step l s s') (ht : Part t s) :
    ∃ l' t', (l'.filterMap f).Sublist l ∧ Steps turn l' t t' ∧ Part t' s' := by
  induction hs generalizing t with
  | nil s => exact ⟨[], t, .slnil, .nil t, ht⟩
  | cons hstep _ ih =>
      rcases hcut ht hstep with hon | ⟨j, t₁, hf, hturn, hbegun⟩
      · obtain ⟨l', t', hsub, hturns, hpart⟩ := ih hon
        exact ⟨l', t', hsub.cons _, hturns, hpart⟩
      · obtain ⟨l', t', hsub, hturns, hpart⟩ := ih hbegun
        refine ⟨j :: l', t', ?_, .cons hturn hturns, hpart⟩
        rcases hj : f j with _ | i'
        · rw [List.filterMap_cons_none hj]
          exact hsub.cons _
        · rw [List.filterMap_cons_some hj, hf i' hj]
          exact hsub.cons_cons _

end Cut

/-! ### What is seen of a run -/

inductive Seen {β : Type*} (step : ι → σ → σ → Prop) (see : σ → σ → β) :
    List ι → σ → σ → List β → Prop
  | nil (s : σ) : Seen step see [] s s []
  | cons {i : ι} {l : List ι} {s s' s'' : σ} {bs : List β} (hstep : step i s s')
      (hrest : Seen step see l s' s'' bs) : Seen step see (i :: l) s s'' (see s s' :: bs)

section Seen

variable {β : Type*} {step : ι → σ → σ → Prop} {step' : ι → τ → τ → Prop} {stuck : τ → Prop}
  {R : σ → τ → Prop} {see : σ → σ → β} {l : List ι} {s s' : σ} {t t' : τ} {bs : List β}

theorem Seen.steps (hs : Seen step see l s s' bs) : Steps step l s s' := by
  induction hs with
  | nil s => exact .nil s
  | cons hstep _ ih => exact .cons hstep ih

/-- What is kept when the step of the first system is seen behind what has been
seen before holds of all that is seen of the run. -/
theorem Follows.gathers (hf : Follows step step' stuck R) {P : List β → τ → Prop}
    (hP : ∀ {i : ι} {s s' : σ} {t t' : τ} {bs : List β}, R s t → step i s s' → step' i t t' →
      P bs t → P (bs ++ [see s s']) t')
    {bs' : List β} (hR : R s t) (hs : Seen step see l s s' bs) (ht : Steps step' l t t')
    (hinit : P bs' t) : P (bs' ++ bs) t' := by
  induction hs generalizing t bs' with
  | nil =>
      cases ht
      rwa [List.append_nil]
  | cons hstep _ ih =>
      cases ht with
      | cons hstep' hrest' =>
          have hnext := ih (hf.keeps hR hstep hstep') hrest' (hP hR hstep hstep' hinit)
          rwa [List.append_assoc] at hnext

/-- A log to which every step of the second system adds what is seen of the step
of the first one is what is seen of the run. -/
theorem Follows.logged (hf : Follows step step' stuck R) (log : τ → List β)
    (hlog : ∀ {i : ι} {s s' : σ} {t t' : τ}, R s t → step i s s' → step' i t t' →
      log t' = log t ++ [see s s']) (hR : R s t) (hs : Seen step see l s s' bs)
    (ht : Steps step' l t t') : log t' = log t ++ bs := by
  have hP {i : ι} {s₁ s₂ : σ} {t₁ t₂ : τ} {bs : List β} (hR : R s₁ t₁) (hstep : step i s₁ s₂)
      (hstep' : step' i t₁ t₂) (hbs : log t₁ = log t ++ bs) :
      log t₂ = log t ++ (bs ++ [see s₁ s₂]) := by
    rw [hlog hR hstep hstep', hbs, List.append_assoc]
  exact hf.gathers (P := fun bs t' => log t' = log t ++ bs) hP hR hs ht (List.append_nil _).symm

end Seen

/-! ### Silent steps -/

/-- In whatever way the second system goes, it takes a step for each label and
can take one, but for some of the labels that are silent, and comes to a state
with `P` in the end, or to one in which it is stuck. -/
inductive Tracks (step : ι → τ → τ → Prop) (silent : ι → Prop) (stuck P : τ → Prop) :
    List ι → τ → Prop
  | here {t : τ} (ht : P t) : Tracks step silent stuck P [] t
  | stuck {l : List ι} {t : τ} (ht : stuck t) : Tracks step silent stuck P l t
  | skip {i : ι} {l : List ι} {t : τ} (hi : silent i) (hrest : Tracks step silent stuck P l t) :
      Tracks step silent stuck P (i :: l) t
  | move {i : ι} {l : List ι} {t : τ} (hstep : ∃ t', step i t t')
      (hrest : ∀ t', step i t t' → Tracks step silent stuck P l t') :
      Tracks step silent stuck P (i :: l) t

/-- The second step relation follows the first one along `R`, with a step for
every label that is not silent. -/
structure Shadows (step : ι → σ → σ → Prop) (step' : ι → τ → τ → Prop) (silent : ι → Prop)
    (stuck : τ → Prop) (R : σ → τ → Prop) : Prop where
  turn : ∀ {i : ι} {s s' : σ} {t : τ}, R s t → step i s s' → ¬ stuck t →
    silent i ∧ R s' t ∨ (∃ t', step' i t t') ∧ ∀ t', step' i t t' → stuck t' ∨ R s' t'

section Shadows

variable {step : ι → σ → σ → Prop} {step' : ι → τ → τ → Prop} {silent : ι → Prop}
  {stuck P Q : τ → Prop} {R : σ → τ → Prop} {l : List ι} {s s' : σ} {t : τ}

theorem Tracks.mono (ht : Tracks step' silent stuck P l t) (hPQ : ∀ t, ¬ stuck t → P t → Q t) :
    Tracks step' silent stuck Q l t := by
  induction ht with
  | @here t hP =>
      by_cases hstuck : stuck t
      · exact .stuck hstuck
      · exact .here (hPQ t hstuck hP)
  | stuck hstuck => exact .stuck hstuck
  | skip hi _ ih => exact .skip hi ih
  | move hstep _ ih => exact .move hstep ih

/-- A run is tracked to a state that is related to its end. -/
theorem Shadows.tracks (hsh : Shadows step step' silent stuck R) (hR : R s t)
    (hs : Steps step l s s') : Tracks step' silent stuck (R s') l t := by
  induction hs generalizing t with
  | nil => exact .here hR
  | cons hstep _ ih =>
      by_cases hstuck : stuck t
      · exact .stuck hstuck
      · rcases hsh.turn hR hstep hstuck with ⟨hsilent, hstays⟩ | ⟨hmoves, hall⟩
        · exact .skip hsilent (ih hstays)
        · exact .move hmoves fun t' hstep' => (hall t' hstep').elim .stuck ih

end Shadows

end Transition
