import Mathlib.Data.Set.Basic

/-!
Transition systems and their runs.

A system has states it may start in and a partial step function. A run keeps
the steps it has taken, each with the state it was taken in, so that what is
said about a run may look back; and it may be held to a condition, which every
step has to meet in the state in which it is taken.
-/

namespace Transition

/-- Where a system starts, and the state an event leads to, if it may happen. -/
structure System (σ ε : Type*) where
  init : Set σ
  step : σ → ε → Option σ

variable {σ ε : Type*}

/-- The runs of a system whose steps meet the condition `ok`: the steps, the
oldest first, and the state they lead to. -/
inductive Run (sys : System σ ε) (ok : σ → ε → Prop) : List (σ × ε) → σ → Prop
  | start {s : σ} (hs : s ∈ sys.init) : Run sys ok [] s
  | next {l : List (σ × ε)} {s s' : σ} {e : ε} (hrun : Run sys ok l s) (hok : ok s e)
      (hstep : sys.step s e = some s') : Run sys ok (l ++ [(s, e)]) s'

abbrev Any (_ : σ) (_ : ε) : Prop := True

/-- The state a list of events leads to, and the steps that are taken. -/
def System.replay (sys : System σ ε) : σ → List ε → Option (List (σ × ε) × σ)
  | s, [] => some ([], s)
  | s, e :: es => (sys.step s e).bind fun s' =>
      (sys.replay s' es).map fun end_ => ((s, e) :: end_.1, end_.2)

def System.follow (sys : System σ ε) : σ → List (σ → ε) → Option (List (σ × ε) × σ)
  | s, [] => some ([], s)
  | s, choose :: rest => (sys.step s (choose s)).bind fun s' =>
      (sys.follow s' rest).map fun end_ => ((s, choose s) :: end_.1, end_.2)

namespace Run

variable {sys : System σ ε} {ok : σ → ε → Prop} {l : List (σ × ε)} {s s' : σ}

/-- What holds at the start and is kept by every step holds after every run. -/
theorem invariant {I : σ → Prop} (hinit : ∀ s ∈ sys.init, I s)
    (hkeep : ∀ s e s', I s → ok s e → sys.step s e = some s' → I s')
    (hrun : Run sys ok l s) : I s := by
  induction hrun with
  | start hs => exact hinit _ hs
  | next _ hok hstep ih => exact hkeep _ _ _ ih hok hstep

theorem mono {ok' : σ → ε → Prop} (hok : ∀ s e, ok s e → ok' s e) (hrun : Run sys ok l s) :
    Run sys ok' l s := by
  induction hrun with
  | start hs => exact .start hs
  | next _ h hstep ih => exact .next ih (hok _ _ h) hstep

theorem split {p : σ × ε} (hrun : Run sys ok l s) (hp : p ∈ l) :
    ∃ l₁ l₂, Run sys ok l₁ p.1 ∧ ok p.1 p.2 ∧ l = l₁ ++ [p] ++ l₂ := by
  induction hrun with
  | start => exact absurd hp List.not_mem_nil
  | @next l s s' e hrun hok _ ih =>
      rcases List.mem_append.mp hp with hp | hp
      · obtain ⟨l₁, l₂, hrun₁, hok₁, rfl⟩ := ih hp
        exact ⟨l₁, l₂ ++ [(s, e)], hrun₁, hok₁, List.append_assoc _ _ _⟩
      · obtain rfl := List.mem_singleton.mp hp
        exact ⟨l, [], hrun, hok, (List.append_nil _).symm⟩

theorem replay {es : List ε} {l' : List (σ × ε)} (hrun : Run sys Any l s)
    (hes : sys.replay s es = some (l', s')) : Run sys Any (l ++ l') s' := by
  induction es generalizing l s l' with
  | nil =>
      obtain ⟨rfl, rfl⟩ := Prod.mk.inj (Option.some.inj hes)
      rwa [List.append_nil]
  | cons e es ih =>
      obtain ⟨s₁, hstep, hrest⟩ := Option.bind_eq_some_iff.mp hes
      obtain ⟨⟨l₁, s₂⟩, htail, heq⟩ := Option.map_eq_some_iff.mp hrest
      obtain ⟨rfl, rfl⟩ := Prod.mk.inj heq
      have hnext := ih (hrun.next trivial hstep) htail
      rwa [List.append_assoc] at hnext

/-- A run goes on as events are chosen, if the steps meet the condition. -/
theorem follow {choices : List (σ → ε)} {l' : List (σ × ε)} (hrun : Run sys ok l s)
    (hfollow : sys.follow s choices = some (l', s')) (hok : ∀ p ∈ l', ok p.1 p.2) :
    Run sys ok (l ++ l') s' := by
  induction choices generalizing l s l' with
  | nil =>
      obtain ⟨rfl, rfl⟩ := Prod.mk.inj (Option.some.inj hfollow)
      rwa [List.append_nil]
  | cons choose rest ih =>
      obtain ⟨s₁, hstep, hrest⟩ := Option.bind_eq_some_iff.mp hfollow
      obtain ⟨⟨l₁, s₂⟩, htail, heq⟩ := Option.map_eq_some_iff.mp hrest
      obtain ⟨rfl, rfl⟩ := Prod.mk.inj heq
      have hfirst := hrun.next (hok _ List.mem_cons_self) hstep
      have hnext := ih hfirst htail fun p hp => hok p (List.mem_cons_of_mem _ hp)
      rwa [List.append_assoc] at hnext

end Run

end Transition
