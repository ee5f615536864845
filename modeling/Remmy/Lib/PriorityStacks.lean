import Mathlib.Data.Fin.Tuple.Basic

/-!
# One Stack for Each Priority

Lists of items by priority, each list with its newest item first.  `pop` takes the newest item
of the lowest-numbered priority that has one.
-/

namespace Remmy.Lib

universe u

/-- The items of each priority, the newest first. -/
abbrev PriorityStacks (P : ℕ) (α : Type u) := Fin P → List α

namespace PriorityStacks

variable {P : ℕ} {α : Type u}

/-- Nothing at any priority. -/
def empty : PriorityStacks P α := fun _ => []

/-- Put an item on the stack of its priority. -/
def push (s : PriorityStacks P α) (x : α) (p : Fin P) : PriorityStacks P α :=
  Function.update s p (x :: s p)

/-- The lowest-numbered priority that has an item. -/
def first (s : PriorityStacks P α) : Option (Fin P) := Fin.find? fun p => !(s p).isEmpty

/-- Take the newest item of the lowest-numbered priority that has one. -/
def pop (s : PriorityStacks P α) : Option (α × PriorityStacks P α) :=
  s.first.bind fun p =>
    match s p with
    | [] => none
    | x :: rest => some (x, Function.update s p rest)

theorem first_eq_some {s : PriorityStacks P α} {p : Fin P} :
    s.first = some p ↔ s p ≠ [] ∧ ∀ p' < p, s p' = [] := by
  simp [first]

/-- The item popped is on top of a stack below whose priority there is nothing. -/
theorem pop_eq_some {s : PriorityStacks P α} {p : Fin P} {x : α} {rest : List α}
    (hp : s p = x :: rest) (hless : ∀ p' < p, s p' = []) :
    s.pop = some (x, Function.update s p rest) := by
  have hsome : s p ≠ [] := by
    rw [hp]
    exact List.cons_ne_nil x rest
  have hfirst : s.first = some p := first_eq_some.mpr ⟨hsome, hless⟩
  rw [pop, hfirst, Option.bind_some, hp]

/-- What is popped was on top of the first stack with an item. -/
theorem pop_spec {s s' : PriorityStacks P α} {x : α} (h : s.pop = some (x, s')) :
    ∃ p rest, s p = x :: rest ∧ ∀ p' < p, s p' = [] := by
  obtain ⟨p, hfirst, hpop⟩ := Option.bind_eq_some_iff.mp h
  obtain ⟨-, hless⟩ := first_eq_some.mp hfirst
  cases hp : s p with
  | nil =>
    rw [hp] at hpop
    cases hpop
  | cons y rest =>
    rw [hp] at hpop
    cases hpop
    exact ⟨p, rest, hp, hless⟩

example : (((empty : PriorityStacks 3 ℕ).push 5 2).push 6 1).pop.map Prod.fst = some 6 := by decide

end PriorityStacks

end Remmy.Lib
