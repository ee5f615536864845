import Remmy.Lib.System

/-!
# Two Systems Side by Side

A system `B` that uses a system `A`: a step of `B` that takes part in an event of `A` is a
step of both, every other step of `B` is its own.

- `join` is for an `A` without steps of its own, `joinHidden` for one that has such.
- A run of a join is a run of each part (`Run.left`, `Run.right`).
- `Run.join_refines`: to put a system that `A` refines in the place of `A` keeps all runs.
-/

namespace Remmy.Lib.System

universe u v w x u' v'

variable {σ : Type u} {α : Type v} {τ : Type w} {β : Type x}

/-- A step of `B`, and with it the step of `A` that it takes part in, if it does in one. -/
inductive JoinStep (A : System σ α) (B : System τ β) (event : β → Option α) :
    σ × τ → β → σ × τ → Prop
  | alone {s : σ} {t t' : τ} {b : β} : event b = none → B.step t b t' →
      JoinStep A B event (s, t) b (s, t')
  | together {s s' : σ} {t t' : τ} {a : α} {b : β} : event b = some a → A.step s a s' →
      B.step t b t' → JoinStep A B event (s, t) b (s', t')

/-- `A` and `B` side by side; `event` are the events of `A` in which steps of `B` take part. -/
def join (A : System σ α) (B : System τ β) (event : β → Option α) : System (σ × τ) β where
  init p := A.init p.1 ∧ B.init p.2
  step := JoinStep A B event

/-- A step of the join, or one of `A` alone that `B` does not see. -/
inductive JoinHiddenStep (A : System σ α) (B : System τ β) (event : β → Option α)
    (hidden : α → Prop) : σ × τ → Option β → σ × τ → Prop
  | hidden {s s' : σ} {t : τ} {a : α} : hidden a → A.step s a s' →
      JoinHiddenStep A B event hidden (s, t) none (s', t)
  | seen {p p' : σ × τ} {b : β} : JoinStep A B event p b p' →
      JoinHiddenStep A B event hidden p (some b) p'

/-- `A` and `B` side by side, where `A` also takes the steps that are `hidden` from `B`. -/
def joinHidden (A : System σ α) (B : System τ β) (event : β → Option α) (hidden : α → Prop) :
    System (σ × τ) (Option β) where
  init p := A.init p.1 ∧ B.init p.2
  step := JoinHiddenStep A B event hidden

variable {A : System σ α} {B : System τ β} {event : β → Option α} {hidden : α → Prop}

namespace JoinStep

theorem right {p p' : σ × τ} {b : β} (h : JoinStep A B event p b p') : B.step p.2 b p'.2 := by
  cases h with
  | alone _ hB => exact hB
  | together _ _ hB => exact hB

end JoinStep

namespace Run

/-- A run of no steps ends where it starts. -/
theorem init_of_nil {s : σ} (h : A.Run [] s) : A.init s := by
  generalize htr : ([] : List α) = tr at h
  cases h with
  | start hinit => exact hinit
  | next _ _ => simp at htr

/-- The part of a run that `A` takes. -/
theorem left {tr : List β} {p : σ × τ} (h : (A.join B event).Run tr p) :
    A.Run (tr.filterMap event) p.1 := by
  induction h with
  | start hinit => exact .start hinit.1
  | @next tr p p' b _ hstep ih =>
    cases hstep with
    | alone hnone _ => simpa [hnone] using ih
    | together hsome hA _ => simpa [hsome] using ih.next hA

/-- The part of a run that `B` takes. -/
theorem right {tr : List β} {p : σ × τ} (h : (A.join B event).Run tr p) : B.Run tr p.2 := by
  induction h with
  | start hinit => exact .start hinit.2
  | next _ hstep ih => exact ih.next hstep.right

/-- What `A` does in a run with hidden steps is a run of it. -/
theorem left_hidden {tr : List (Option β)} {p : σ × τ}
    (h : (A.joinHidden B event hidden).Run tr p) : ∃ trA, A.Run trA p.1 := by
  induction h with
  | start hinit => exact ⟨[], .start hinit.1⟩
  | next _ hstep ih =>
    obtain ⟨trA, hA⟩ := ih
    cases hstep with
    | hidden _ hstepA => exact ⟨_, hA.next hstepA⟩
    | seen hseen =>
      cases hseen with
      | alone _ _ => exact ⟨_, hA⟩
      | together _ hstepA _ => exact ⟨_, hA.next hstepA⟩

/-- Simulation rule for a part: if each step of `A` is one of `A'` or nothing to it, and what
    is hidden of `A` is nothing to `A'`, then a run with `A` is a run with `A'`. -/
theorem join_refines {σ' : Type u'} {α' : Type v'} {A' : System σ' α'} {event' : β → Option α'}
    (abs : σ → σ') (vis : α → Option α') (start : ∀ s, A.init s → A'.init (abs s))
    (keep : ∀ tr s a s', A.Run tr s → A.step s a s' →
      match vis a with
      | some a' => A'.step (abs s) a' (abs s')
      | none => abs s' = abs s)
    (hhidden : ∀ a, hidden a → vis a = none)
    (hevent : ∀ b, event' b = (event b).bind vis)
    {tr : List (Option β)} {p : σ × τ} (h : (A.joinHidden B event hidden).Run tr p) :
    (A'.join B event').Run tr.reduceOption (abs p.1, p.2) := by
  show (A'.join B event').Run (tr.filterMap id) (abs p.1, p.2)
  refine h.simulates (fun p => (abs p.1, p.2)) id ?_ ?_
  · intro p hinit
    exact ⟨start _ hinit.1, hinit.2⟩
  · intro tr p e p' hr hstep
    obtain ⟨trA, hA⟩ := hr.left_hidden
    cases hstep with
    | hidden hhid hstepA =>
      have hkeep := keep _ _ _ _ hA hstepA
      rw [hhidden _ hhid] at hkeep
      exact congrArg (·, _) hkeep
    | seen hseen =>
      cases hseen with
      | alone hnone hB => exact .alone (by rw [hevent, hnone]; rfl) hB
      | @together s s' t t' a _ hsome hstepA hB =>
        have hkeep := keep _ _ _ _ hA hstepA
        cases hvis : vis a with
        | none =>
          rw [hvis] at hkeep
          show JoinStep A' B event' (abs s, t) _ (abs s', t')
          rw [hkeep]
          exact .alone (by rw [hevent, hsome]; exact hvis) hB
        | some a' =>
          rw [hvis] at hkeep
          exact .together (by rw [hevent, hsome]; exact hvis) hkeep hB

end Run

end Remmy.Lib.System
