import Mathlib.Data.List.Count
import Mathlib.Data.List.Flatten
import Mathlib.Logic.Function.Basic

/-!
# Merges That Keep the Order of Each Source

Items come from several sources, and each source's items are to end up in one list in the
order in which they came, whatever the order between sources.

- `IsMerge` says so of the finished list.
- A `Transit` is for the time in between: of each source, some items are placed, some wait
  in groups, and the last ones are still held back.  Its rules say what may be done to it.
-/

namespace Remmy.Lib

universe u v

variable {K : Type u} {C : Type v} [DecidableEq K] {key : C → K}

/-- `order` has the items of `calls`, those of each source in the same order. -/
def IsMerge (key : C → K) (order calls : List C) : Prop :=
  ∀ x, order.filter (key · = x) = calls.filter (key · = x)

/-- A merge has the same items, each as often. -/
theorem IsMerge.perm {order calls : List C} (h : IsMerge key order calls) : order.Perm calls := by
  classical
  rw [List.perm_iff_count]
  intro c
  have hcount (l : List C) : (l.filter (key · = key c)).count c = l.count c :=
    List.count_filter (by simp)
  rw [← hcount order, ← hcount calls, h (key c)]

/-- Items on their way into one list. -/
structure Transit (K : Type u) (C : Type v) where
  placed : List C
  /-- Groups that are to be placed next, each as a whole. -/
  waiting : K → List (List C)
  held : K → List C

namespace Transit

/-- Nothing has come yet. -/
def empty : Transit K C := ⟨[], fun _ => [], fun _ => []⟩

/-- Of each source, what is placed, what waits and what is held is what came, in order. -/
def Balanced (key : C → K) (calls : List C) (l : Transit K C) : Prop :=
  ∀ x, calls.filter (key · = x) =
    l.placed.filter (key · = x) ++ ((l.waiting x).flatten ++ l.held x)

theorem balanced_empty : (empty : Transit K C).Balanced key [] := fun _ => rfl

/-- Give a source other groups, and hold other items of it. -/
def regroup (l : Transit K C) (x : K) (groups : List (List C)) (held : List C) : Transit K C where
  placed := l.placed
  waiting := Function.update l.waiting x groups
  held := Function.update l.held x held

/-- Place a group of a source. -/
def place (l : Transit K C) (x : K) (group : List C) (groups : List (List C)) : Transit K C where
  placed := l.placed ++ group
  waiting := Function.update l.waiting x groups
  held := l.held

@[simp] theorem waiting_regroup (l : Transit K C) (x : K) (groups : List (List C)) (held : List C) :
    (l.regroup x groups held).waiting x = groups := Function.update_self ..

@[simp] theorem waiting_place (l : Transit K C) (x : K) (group : List C) (groups : List (List C)) :
    (l.place x group groups).waiting x = groups := Function.update_self ..

theorem waiting_regroup_of_ne (l : Transit K C) {x y : K} (h : y ≠ x) (groups : List (List C))
    (held : List C) : (l.regroup x groups held).waiting y = l.waiting y :=
  Function.update_of_ne h ..

theorem waiting_place_of_ne (l : Transit K C) {x y : K} (h : y ≠ x) (group : List C)
    (groups : List (List C)) : (l.place x group groups).waiting y = l.waiting y :=
  Function.update_of_ne h ..

namespace Balanced

variable {calls : List C} {l : Transit K C} {x : K}

/-- What waits or is held for a source comes from it. -/
theorem key_eq (h : l.Balanced key calls) {c : C} (hc : c ∈ (l.waiting x).flatten ++ l.held x) :
    key c = x := by
  have hmem : c ∈ calls.filter (key · = x) := by
    rw [h x]
    exact List.mem_append_right _ hc
  simpa using (List.mem_filter.mp hmem).2

/-- Regrouping rule: new items of a source come after the old ones. -/
theorem regroup (h : l.Balanced key calls) {new : List C} (hnew : ∀ c ∈ new, key c = x)
    {groups : List (List C)} {held : List C}
    (heq : groups.flatten ++ held = (l.waiting x).flatten ++ l.held x ++ new) :
    (l.regroup x groups held).Balanced key (calls ++ new) := by
  intro y
  rw [List.filter_append, h y]
  by_cases hy : y = x
  · subst hy
    have hall : new.filter (key · = y) = new := by
      rw [List.filter_eq_self]
      intro c hc
      simpa using hnew c hc
    simp only [Transit.regroup, Function.update_self, hall, heq, List.append_assoc]
  · have hnone : new.filter (key · = y) = [] := by
      rw [List.filter_eq_nil_iff]
      intro c hc
      simpa [hnew c hc] using Ne.symm hy
    simp only [Transit.regroup, Function.update_of_ne hy, hnone, List.append_nil]

/-- Placing rule: the first group that waits goes to the end of the list. -/
theorem place (h : l.Balanced key calls) {group : List C} {groups : List (List C)}
    (hwaiting : l.waiting x = group :: groups) : (l.place x group groups).Balanced key calls := by
  have hkey (c : C) (hc : c ∈ group) : key c = x := by
    apply h.key_eq
    rw [hwaiting]
    exact List.mem_append_left _ (List.mem_append_left _ hc)
  intro y
  rw [h y]
  simp only [Transit.place, List.filter_append]
  by_cases hy : y = x
  · subst hy
    have hall : group.filter (key · = y) = group := by
      rw [List.filter_eq_self]
      intro c hc
      simpa using hkey c hc
    rw [hwaiting, Function.update_self, hall, List.flatten_cons]
    simp only [List.append_assoc]
  · have hnone : group.filter (key · = y) = [] := by
      rw [List.filter_eq_nil_iff]
      intro c hc
      simpa [hkey c hc] using Ne.symm hy
    rw [Function.update_of_ne hy, hnone, List.append_nil]

/-- When nothing waits and nothing is held, the list is a merge of what came. -/
theorem isMerge (h : l.Balanced key calls) (hwaiting : ∀ x, l.waiting x = [])
    (hheld : ∀ x, l.held x = []) : IsMerge key l.placed calls := by
  intro x
  rw [h x, hwaiting, hheld]
  simp

end Balanced

end Transit

end Remmy.Lib
