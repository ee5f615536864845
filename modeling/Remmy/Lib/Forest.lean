import Mathlib.Algebra.BigOperators.Group.Finset.Basic
import Mathlib.Data.Finset.Basic
import Mathlib.Data.Fintype.Basic
import Mathlib.Order.WellFounded

/-!
# Forests

A forest given by the parent of each of its elements, and what is left of it while elements
are taken away from below.

- `Within a i`: `i` is `a` or somewhere below it.
- `Grown left`: with an element, `left` has everything above it, which stays so as long as only
  elements without children are taken away.
- `size i` is the number of elements within `i`; the sizes of its children fit into it.
-/

namespace Remmy.Lib

universe u

/-- A forest: the parent of each element, and that there is no endless way up. -/
structure Forest (ι : Type u) where
  up : ι → Option ι
  wf : WellFounded fun a i => up i = some a

namespace Forest

variable {ι : Type u} (F : Forest ι)

/-- `i` is `a` or below `a`. -/
inductive Within (a : ι) : ι → Prop
  | self : Within a a
  | step {i d : ι} : F.up i = some d → Within a d → Within a i

variable {F}

namespace Within

theorem trans {a b i : ι} (hab : F.Within a b) (hbi : F.Within b i) : F.Within a i := by
  induction hbi with
  | self => exact hab
  | step hup _ ih => exact .step hup ih

theorem child {a c : ι} (h : F.up c = some a) : F.Within a c := .step h .self

/-- What `c` is above, the parent of `c` is above too. -/
theorem trans_child {c d i : ι} (h : F.Within c i) (hup : F.up c = some d) : F.Within d i :=
  (child hup).trans h

/-- Below an element means below one of its children. -/
theorem cases_down {a i : ι} (h : F.Within a i) : i = a ∨ ∃ c, F.up c = some a ∧ F.Within c i := by
  induction h with
  | self => exact .inl rfl
  | @step i d hup _ ih =>
    rcases ih with rfl | ⟨c, hc, hwithin⟩
    · exact .inr ⟨i, hup, .self⟩
    · exact .inr ⟨c, hc, .step hup hwithin⟩

/-- Of two elements above a third, one is above the other. -/
theorem comparable {a b i : ι} (ha : F.Within a i) (hb : F.Within b i) :
    F.Within a b ∨ F.Within b a := by
  induction ha with
  | self => exact .inr hb
  | step hup hwithin ih =>
    cases hb with
    | self => exact .inl (.step hup hwithin)
    | step hup' hb' =>
      rw [hup] at hup'
      cases hup'
      exact ih hb'

/-- What is above an element without a parent is the element itself. -/
theorem eq_of_root {a r : ι} (h : F.Within a r) (hr : F.up r = none) : a = r := by
  cases h with
  | self => rfl
  | step hup =>
    rw [hr] at hup
    cases hup

end Within

/-- An element is not within one of its children. -/
theorem Within.not_child {c d : ι} (hup : F.up c = some d) : ¬F.Within c d := by
  -- By induction on `d`, from the root down: a way down to `d` goes through its parent.
  induction d using F.wf.induction generalizing c with
  | _ d ih =>
    intro h
    cases h with
    | self => exact ih _ hup hup .self
    | step hup' hwithin => exact ih _ hup' hup' (hwithin.trans_child hup)

/-- Everything above an element that is left is left. -/
def Grown (F : Forest ι) (left : Finset ι) : Prop :=
  ∀ i ∈ left, ∀ d, F.up i = some d → d ∈ left

namespace Grown

variable {left : Finset ι}

theorem within (h : F.Grown left) {a i : ι} (hwithin : F.Within a i) (hi : i ∈ left) : a ∈ left := by
  induction hwithin with
  | self => exact hi
  | step hup _ ih => exact ih (h _ hi _ hup)

/-- What is below an element that is left, is a child of it that is left or below one. -/
theorem cases_down (h : F.Grown left) {a i : ι} (hwithin : F.Within a i) (hi : i ∈ left) :
    i = a ∨ ∃ c ∈ left, F.up c = some a ∧ F.Within c i := by
  rcases hwithin.cases_down with rfl | ⟨c, hc, hci⟩
  · exact .inl rfl
  · exact .inr ⟨c, h.within hci hi, hc, hci⟩

theorem univ [Fintype ι] : F.Grown Finset.univ := fun _ _ _ _ => Finset.mem_univ _

/-- An element without children may be taken away. -/
theorem erase [DecidableEq ι] (h : F.Grown left) {a : ι} (hleaf : ∀ c, F.up c = some a → c ∉ left) :
    F.Grown (left.erase a) := by
  intro i hi d hup
  have hleft := Finset.mem_of_mem_erase hi
  refine Finset.mem_erase.mpr ⟨?_, h i hleft d hup⟩
  intro heq
  rw [heq] at hup
  exact hleaf i hup hleft

end Grown

/-! ## Sizes -/

section Size

variable [Fintype ι]

open Classical in
/-- The elements within `i`. -/
noncomputable def below (F : Forest ι) (i : ι) : Finset ι := Finset.univ.filter fun j => F.Within i j

/-- The number of elements within `i`. -/
noncomputable def size (F : Forest ι) (i : ι) : ℕ := (F.below i).card

theorem mem_below {i j : ι} : j ∈ F.below i ↔ F.Within i j := by
  simp [below]

/-- Below two children of one element is nothing in common. -/
theorem disjoint_below {c c' i : ι} (hup : F.up c = some i) (hup' : F.up c' = some i)
    (hne : c ≠ c') : Disjoint (F.below c) (F.below c') := by
  have hnot : ∀ {c c'}, F.up c = some i → F.up c' = some i → c ≠ c' → ¬F.Within c c' := by
    intro c c' hup hup' hne h
    cases h with
    | self => exact hne rfl
    | step hup'' hwithin =>
      rw [hup'] at hup''
      cases hup''
      exact Within.not_child hup hwithin
  refine Finset.disjoint_left.mpr fun j hj hj' => ?_
  rcases (mem_below.mp hj).comparable (mem_below.mp hj') with h | h
  · exact hnot hup hup' hne h
  · exact hnot hup' hup hne.symm h

/-- **The sizes of the children** and the element itself fit into its size. -/
theorem sum_size_lt (i : ι) (children : Finset ι) (h : ∀ c ∈ children, F.up c = some i) :
    ∑ c ∈ children, F.size c < F.size i := by
  classical
  have hcard : ∑ c ∈ children, F.size c = (children.biUnion F.below).card := by
    refine (Finset.card_biUnion fun c hc c' hc' hne => ?_).symm
    exact disjoint_below (h c hc) (h c' hc') hne
  rw [hcard]
  apply Finset.card_lt_card
  refine Finset.ssubset_iff_of_subset (fun j hj => ?_) |>.mpr ⟨i, mem_below.mpr .self, ?_⟩
  · obtain ⟨c, hc, hj⟩ := Finset.mem_biUnion.mp hj
    exact mem_below.mpr ((mem_below.mp hj).trans_child (h c hc))
  · intro hi
    obtain ⟨c, hc, hi⟩ := Finset.mem_biUnion.mp hi
    exact Within.not_child (h c hc) (mem_below.mp hi)

end Size

end Forest

end Remmy.Lib
