import Mathlib.Data.List.Basic
import Mathlib.Order.Basic
import Mathlib.Algebra.Order.Group.Nat

/-!
# Separated Lists and Their Components

A list cut at a separator, runs of separators counting as one, and the search for the
last separator at or before a position (`std::string_view::rfind`).

- `components_append_cons` says where a list may be cut without changing its components.
- `rfind_eq_some` and `rfind_eq_none` are the specification of the search.
-/

namespace Remmy.Lib

universe u

variable {α : Type u} [DecidableEq α]

/-! ## Components -/

/-- The non-empty pieces of `l` between the separators. -/
def components (sep : α) (l : List α) : List (List α) :=
  (l.splitOn sep).filter (· ≠ [])

variable {sep : α}

@[simp] theorem components_nil : components sep [] = [] := rfl

/-- **Cutting at a separator**: the components of the two sides, one after the other. -/
theorem components_append_cons (a b : List α) :
    components sep (a ++ sep :: b) = components sep a ++ components sep b := by
  rw [components, List.splitOn_append_cons_self, List.filter_append]
  rfl

@[simp] theorem components_cons_self (l : List α) :
    components sep (sep :: l) = components sep l := by
  have hcut : components sep ([] ++ sep :: l) = components sep [] ++ components sep l :=
    components_append_cons [] l
  simpa using hcut

@[simp] theorem components_append_self (l : List α) :
    components sep (l ++ [sep]) = components sep l := by
  have hcut : components sep (l ++ sep :: []) = components sep l ++ components sep [] :=
    components_append_cons l []
  simpa using hcut

/-- Cutting at the position of a separator. -/
theorem components_take_drop {l : List α} {k : ℕ} (h : l[k]? = some sep) :
    components sep l = components sep (l.take k) ++ components sep (l.drop k) := by
  obtain ⟨hlt, hsep⟩ := List.getElem?_eq_some_iff.mp h
  have hdrop : l.drop k = sep :: l.drop (k + 1) := by
    rw [← hsep, List.getElem_cons_drop hlt]
  conv_lhs => rw [← List.take_append_drop k l]
  rw [hdrop, components_append_cons, components_cons_self]

/-- A non-empty list without separators is its own only component. -/
theorem components_of_notMem {l : List α} (hne : l ≠ []) (hsep : sep ∉ l) :
    components sep l = [l] := by
  rw [components, List.splitOn_eq_singleton hsep]
  simp [hne]

/-- Leading separators do not matter. -/
theorem components_dropWhile (l : List α) :
    components sep (l.dropWhile (· = sep)) = components sep l := by
  induction l with
  | nil => rfl
  | cons x l ih =>
    by_cases hx : x = sep
    · subst hx
      rw [List.dropWhile_cons_of_pos (by simp), ih, components_cons_self]
    · rw [List.dropWhile_cons_of_neg (by simpa using hx)]

/-- Only separators have no components. -/
theorem components_eq_nil {l : List α} : components sep l = [] ↔ ∀ x ∈ l, x = sep := by
  induction l with
  | nil => simp
  | cons x l ih =>
    by_cases hx : x = sep
    · subst hx
      rw [components_cons_self, ih]
      simp
    · refine iff_of_false ?_ fun h => hx (h x List.mem_cons_self)
      intro hnil
      have hsplit : (x :: l).splitOn sep = (l.splitOn sep).modifyHead (List.cons x) := by
        rw [List.splitOn_cons_eq_if_modifyHead]
        simp [hx]
      rw [components, hsplit] at hnil
      cases hl : l.splitOn sep with
      | nil => exact List.splitOn_ne_nil sep l hl
      | cons head tail => simp [hl] at hnil

/-! ## The last separator -/

/-- `rfind`: the largest index at or before `pos` where `l` has `c`. -/
def rfind (c : α) (l : List α) : ℕ → Option ℕ
  | 0 => if l[0]? = some c then some 0 else none
  | pos + 1 => if l[pos + 1]? = some c then some (pos + 1) else rfind c l pos

theorem rfind_eq_none {c : α} {l : List α} {pos : ℕ} :
    rfind c l pos = none ↔ ∀ j ≤ pos, l[j]? ≠ some c := by
  induction pos with
  | zero => simp [rfind]
  | succ pos ih =>
    rw [rfind]
    split
    · rename_i hpos
      simp only [reduceCtorEq, false_iff]
      exact fun h => h (pos + 1) le_rfl hpos
    · rename_i hpos
      rw [ih]
      constructor
      · intro h j hj
        rcases Nat.le_succ_iff.mp hj with hj | rfl
        · exact h j hj
        · exact hpos
      · exact fun h j hj => h j (hj.trans (Nat.le_succ pos))

theorem rfind_eq_some {c : α} {l : List α} {pos i : ℕ} :
    rfind c l pos = some i ↔ i ≤ pos ∧ l[i]? = some c ∧ ∀ j, i < j → j ≤ pos → l[j]? ≠ some c := by
  induction pos with
  | zero =>
    simp only [rfind, Option.ite_none_right_eq_some, Option.some.injEq, nonpos_iff_eq_zero]
    constructor
    · rintro ⟨h, rfl⟩
      exact ⟨rfl, h, fun j hj hj' => by omega⟩
    · rintro ⟨rfl, h, -⟩
      exact ⟨h, rfl⟩
  | succ pos ih =>
    rw [rfind]
    split
    · rename_i hpos
      rw [Option.some.injEq]
      constructor
      · rintro rfl
        exact ⟨le_rfl, hpos, fun j hj hj' => by omega⟩
      · rintro ⟨hle, -, hlast⟩
        by_contra hne
        exact hlast (pos + 1) (by omega) le_rfl hpos
    · rename_i hpos
      rw [ih]
      constructor
      · rintro ⟨hle, hi, hlast⟩
        refine ⟨by omega, hi, fun j hj hj' => ?_⟩
        rcases Nat.le_succ_iff.mp hj' with hj' | rfl
        · exact hlast j hj hj'
        · exact hpos
      · rintro ⟨hle, hi, hlast⟩
        have hne : i ≠ pos + 1 := fun h => hpos (h ▸ hi)
        exact ⟨by omega, hi, fun j hj hj' => hlast j hj (by omega)⟩

/-- What is found is where the list can be cut. -/
theorem take_append_of_rfind {c : α} {l : List α} {pos i : ℕ} (h : rfind c l pos = some i) :
    l = l.take i ++ c :: l.drop (i + 1) := by
  obtain ⟨hi, hc⟩ := List.getElem?_eq_some_iff.mp (rfind_eq_some.mp h).2.1
  rw [← hc, List.getElem_cons_drop hi, List.take_append_drop]

/-- The last separator of a list whose end has none. -/
theorem rfind_append_cons {c : α} (a : List α) {b : List α} (hb : c ∉ b) :
    rfind c (a ++ c :: b) (a ++ c :: b).length = some a.length := by
  refine rfind_eq_some.mpr ⟨by simp, by simp, fun j hj _ hc => hb ?_⟩
  obtain ⟨k, rfl⟩ : ∃ k, j = a.length + 1 + k := ⟨j - (a.length + 1), by omega⟩
  rw [List.getElem?_append_right (by omega), Nat.add_assoc, Nat.add_sub_cancel_left,
    Nat.add_comm 1 k, List.getElem?_cons_succ] at hc
  exact List.mem_of_getElem? hc

/-- A search from the end leaves no separator behind what it finds. -/
theorem notMem_drop_of_rfind {c : α} {l : List α} {i : ℕ} (h : rfind c l l.length = some i) :
    c ∉ l.drop (i + 1) := by
  intro hmem
  obtain ⟨k, hk⟩ := List.mem_iff_getElem?.mp hmem
  rw [List.getElem?_drop] at hk
  have hlt : i + 1 + k < l.length := (List.getElem?_eq_some_iff.mp hk).1
  exact (rfind_eq_some.mp h).2.2 _ (by omega) hlt.le hk

/-- A search from the end that finds nothing means there is nothing. -/
theorem notMem_of_rfind {c : α} {l : List α} (h : rfind c l l.length = none) : c ∉ l := by
  intro hmem
  obtain ⟨k, hk⟩ := List.mem_iff_getElem?.mp hmem
  have hlt : k < l.length := (List.getElem?_eq_some_iff.mp hk).1
  exact rfind_eq_none.mp h k hlt.le hk

end Remmy.Lib
