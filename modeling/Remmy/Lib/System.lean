import Mathlib.Data.List.Basic
import Mathlib.Algebra.BigOperators.Group.Finset.Basic
import Mathlib.Tactic.Abel

/-!
# Labelled Systems and Their Runs

The shared vocabulary of the concurrent models: a `System` is a set of initial
states and a labelled step relation, and a `Run` keeps the whole list of labels
seen so far, oldest first.  Every history that a theorem talks about (which value
was inserted, which open was refused) is read off that list, so no model carries
ghost state of its own.

- `Run.invariant` packages the induction over runs once.
- `Run.simulates` carries a run along a step-by-step simulation.
- `Run.length_le` bounds the length of a run by a potential that its steps use up.
- `sum_update_add` is the bookkeeping rule for a total over all threads when one
  thread moves.
-/

namespace Remmy.Lib

universe u v w u' v'

/-- A labelled transition system: initial states and labelled atomic steps. -/
structure System (σ : Type u) (ε : Type v) where
  /-- The states a run may start in. -/
  init : σ → Prop
  /-- `step s e s'`: one atomic step from `s` to `s'`, seen as `e`. -/
  step : σ → ε → σ → Prop

namespace System

variable {σ : Type u} {ε : Type v} (S : System σ ε)

/-- `S.Run tr s`: some run of `S` shows the labels `tr`, oldest first, and ends in `s`. -/
inductive Run : List ε → σ → Prop
  | start {s : σ} : S.init s → Run [] s
  | next {tr : List ε} {s s' : σ} {e : ε} : Run tr s → S.step s e s' → Run (tr ++ [e]) s'

/-- The system whose steps are those of `S` that satisfy `P` in the state before them. -/
def restrict (P : σ → ε → Prop) : System σ ε where
  init := S.init
  step s e s' := S.step s e s' ∧ P s e

variable {S}

namespace Run

/-- Invariant rule: what holds at the start and is kept by every step holds in every
    run, for properties of the labels seen so far and the state reached. -/
theorem invariant {I : List ε → σ → Prop} (start : ∀ s, S.init s → I [] s)
    (keep : ∀ tr s e s', S.Run tr s → I tr s → S.step s e s' → I (tr ++ [e]) s')
    {tr : List ε} {s : σ} (h : S.Run tr s) : I tr s := by
  induction h with
  | start hs => exact start _ hs
  | next hr hstep ih => exact keep _ _ _ _ hr ih hstep

/-- Invariant rule for properties of the state alone. -/
theorem invariant_state {I : σ → Prop} (start : ∀ s, S.init s → I s)
    (keep : ∀ s e s', I s → S.step s e s' → I s')
    {tr : List ε} {s : σ} (h : S.Run tr s) : I s :=
  h.invariant (I := fun _ s => I s) start fun _ s e s' _ hi hs => keep s e s' hi hs

/-- Simulation rule: when every step is one step of `A` between the abstracted states,
    or changes nothing that `A` can see, every run is a run of `A`. -/
theorem simulates {α : Type u'} {β : Type v'} {A : System α β} (abs : σ → α) (vis : ε → Option β)
    (start : ∀ s, S.init s → A.init (abs s))
    (keep : ∀ tr s e s', S.Run tr s → S.step s e s' →
      match vis e with
      | some b => A.step (abs s) b (abs s')
      | none => abs s' = abs s)
    {tr : List ε} {s : σ} (h : S.Run tr s) : A.Run (tr.filterMap vis) (abs s) := by
  induction h with
  | start hs => exact .start (start _ hs)
  | @next tr s s' e hr hstep ih =>
    have hkeep := keep tr s e s' hr hstep
    rw [List.filterMap_append]
    cases hv : vis e with
    | none =>
      rw [hv] at hkeep
      rw [hkeep]
      simpa [hv] using ih
    | some b =>
      rw [hv] at hkeep
      simpa [hv] using ih.next hkeep

/-- Amortisation rule: when each step uses up a unit of a potential, besides what it saves and
    what it is given, the length of a run is bounded by what there was and what was given. -/
theorem length_le {potential : σ → ℕ} {given saved : ε → ℕ} {bound : ℕ}
    (start : ∀ s, S.init s → potential s ≤ bound)
    (keep : ∀ tr s e s', S.Run tr s → S.step s e s' →
      potential s' + 1 + saved e ≤ potential s + given e)
    {tr : List ε} {s : σ} (h : S.Run tr s) :
    tr.length + potential s + (tr.map saved).sum ≤ bound + (tr.map given).sum := by
  induction h with
  | start hs => simpa using start _ hs
  | @next tr s s' e hr hstep ih =>
    have hkeep := keep tr s e s' hr hstep
    simp only [List.length_append, List.length_singleton, List.map_append, List.sum_append,
      List.map_cons, List.map_nil, List.sum_singleton]
    omega

/-- A run of the restricted system is a run of the system. -/
theorem of_restrict {P : σ → ε → Prop} {tr : List ε} {s : σ}
    (h : (S.restrict P).Run tr s) : S.Run tr s := by
  induction h with
  | start hs => exact .start hs
  | next _ hstep ih => exact ih.next hstep.1

end Run

/-! ## Stretches of a run -/

/-- `S.Path s p s'`: from `s`, the steps of `p` lead to `s'`.  Each entry of `p` is a
    label and the state after it, so that a theorem can speak of the moments in between. -/
inductive Path : σ → List (ε × σ) → σ → Prop
  | nil (s : σ) : Path s [] s
  | cons {s s' t : σ} {e : ε} {p : List (ε × σ)} : S.step s e s' → Path s' p t →
      Path s ((e, s') :: p) t

namespace Path

/-- A stretch of two parts passes through a state between them. -/
theorem split {s t : σ} {p q : List (ε × σ)} (h : S.Path s (p ++ q) t) :
    ∃ m, S.Path s p m ∧ S.Path m q t := by
  induction p generalizing s with
  | nil => exact ⟨s, .nil s, h⟩
  | cons x p ih =>
    cases h with
    | cons hstep hrest =>
      obtain ⟨m, hp, hq⟩ := ih hrest
      exact ⟨m, .cons hstep hp, hq⟩

/-- Two stretches, one after the other. -/
theorem append {s m t : σ} {p q : List (ε × σ)} (h : S.Path s p m) (h' : S.Path m q t) :
    S.Path s (p ++ q) t := by
  induction h with
  | nil s => exact h'
  | cons hstep _ ih => exact .cons hstep (ih h')

/-- A stretch goes on by one more step. -/
theorem snoc {s m t : σ} {e : ε} {p : List (ε × σ)} (h : S.Path s p m) (hstep : S.step m e t) :
    S.Path s (p ++ [(e, t)]) t :=
  h.append (.cons hstep (.nil t))

/-- What one step of a stretch keeps, the stretch keeps. -/
theorem invariant {I : σ → Prop} {s t : σ} {p : List (ε × σ)} (h : S.Path s p t) (hs : I s)
    (keep : ∀ s x, x ∈ p → I s → S.step s x.1 x.2 → I x.2) : I t := by
  induction h with
  | nil s => exact hs
  | cons hstep _ ih =>
    apply ih (keep _ _ List.mem_cons_self hs hstep)
    intro s x hx
    exact keep s x (List.mem_cons_of_mem _ hx)

/-- A run goes on along a stretch that starts where it ends. -/
theorem run {tr : List ε} {s t : σ} {p : List (ε × σ)} (hr : S.Run tr s) (h : S.Path s p t) :
    S.Run (tr ++ p.map Prod.fst) t := by
  induction h generalizing tr with
  | nil s => simpa using hr
  | cons hstep _ ih => simpa using ih (hr.next hstep)

end Path

end System

/-! ## Totals over all threads -/

/-- When one thread moves from `f i` to `y`, a total over all threads changes by the
    difference of its two contributions. -/
theorem sum_update_add {ι : Type u} {α : Type v} {M : Type w} [Fintype ι] [DecidableEq ι]
    [AddCommMonoid M] (f : ι → α) (g : ι → α → M) (i : ι) (y : α) :
    (∑ k, g k (Function.update f i y k)) + g i (f i) = (∑ k, g k (f k)) + g i y := by
  rw [← Finset.add_sum_erase _ _ (Finset.mem_univ i),
    ← Finset.add_sum_erase Finset.univ (fun k => g k (f k)) (Finset.mem_univ i)]
  have hrest : ∑ k ∈ Finset.univ.erase i, g k (Function.update f i y k) =
      ∑ k ∈ Finset.univ.erase i, g k (f k) := by
    refine Finset.sum_congr rfl fun k hk => ?_
    rw [Function.update_of_ne (Finset.ne_of_mem_erase hk)]
  rw [hrest, Function.update_self]
  abel

end Remmy.Lib
