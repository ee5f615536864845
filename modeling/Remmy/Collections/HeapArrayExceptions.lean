import Remmy.Collections.HeapArrayMembers

/-!
# What the Calls Throw

What the language and the allocator ask of a call, and when it throws.  A call throws where it
builds a block, and nowhere else: `length_error` when the block would have more elements than
`MaxSize`, and otherwise what `allocate` throws when the allocator refuses.
-/

namespace Remmy.Collections

open Remmy.Lib Program

variable {ι A T : Type} [Setoid A]

/-- What is thrown by building a block for `n` elements when `allocate` was called `calls` times. -/
def refusal (traits : AllocTraits A T) (a : A) (n calls : ℕ) : Option Exception :=
  if n = 0 then none
  else if HeapArray.maxSize traits a < n then some .lengthError
  else if traits.refuses calls then some .badAlloc
  else none

/-- What a call may be made on: a constructor where there is no array, every other member function
    on arrays that exist, and `swap` on arrays whose allocators are equal unless they are swapped
    as well. -/
def Op.Allowed (traits : AllocTraits A T) (lists : Lists ι A T) : Op ι A T → Prop
  | constructEmpty this _ => lists this = none
  | constructCount this _ _ => lists this = none
  | constructForOverwrite this _ _ _ => lists this = none
  | constructValue this _ _ _ => lists this = none
  | constructIterators this _ _ => lists this = none
  | constructFromRange this _ _ => lists this = none
  | constructInitialiserList this _ _ => lists this = none
  | copyConstruct this other => lists this = none ∧ (lists other).isSome
  | copyConstructWith this other _ => lists this = none ∧ (lists other).isSome
  | moveConstruct this other => lists this = none ∧ (lists other).isSome
  | moveConstructWith this other _ => lists this = none ∧ (lists other).isSome
  | destruct this => (lists this).isSome
  | copyAssign this other => (lists this).isSome ∧ (lists other).isSome
  | moveAssign this other => (lists this).isSome ∧ (lists other).isSome
  | initialiserListAssign this _ => (lists this).isSome
  | swap this other => ∃ l a l' a', lists this = some (l, a) ∧ lists other = some (l', a') ∧
      (traits.propagateOnContainerSwap ∨ a ≈ a')

variable [DecidableRel ((· ≈ ·) : A → A → Prop)] [DecidableEq ι]

/-- The block that a call builds: who allocates it, and for how many elements. -/
def Op.request (traits : AllocTraits A T) (lists : Lists ι A T) : Op ι A T → Option (A × ℕ)
  | constructEmpty _ _ => none
  | constructCount _ count a => some (a, count)
  | constructForOverwrite _ count _ a => some (a, count)
  | constructValue _ count _ a => some (a, count)
  | constructIterators _ range a => some (a, range.length)
  | constructFromRange _ range a => some (a, range.length)
  | constructInitialiserList _ init a => some (a, init.length)
  | copyConstruct _ other =>
      (lists other).map fun s => (traits.selectOnContainerCopyConstruction s.2, s.1.length)
  | copyConstructWith _ other a => (lists other).map fun s => (a, s.1.length)
  | moveConstruct _ _ => none
  | moveConstructWith _ other a =>
      (lists other).bind fun s => if a ≈ s.2 then none else some (a, s.1.length)
  | destruct _ => none
  | copyAssign this other =>
      match lists this, lists other with
      | some (_, a), some (l', a') =>
        if this = other then none
        else if traits.propagateOnContainerCopyAssignment ∧ ¬ a ≈ a' then some (a', l'.length)
        else some (a, l'.length)
      | _, _ => none
  | moveAssign this other =>
      match lists this, lists other with
      | some (_, a), some (l', a') =>
        if this = other then none
        else if traits.propagateOnContainerMoveAssignment then none
        else if a ≈ a' then none
        else some (a, l'.length)
      | _, _ => none
  | initialiserListAssign this init => (lists this).map fun s => (s.2, init.length)
  | swap _ _ => none

/-- What a call throws, if anything. -/
def Op.refusal (traits : AllocTraits A T) (lists : Lists ι A T) (calls : ℕ) (op : Op ι A T) :
    Option Exception :=
  (op.request traits lists).bind fun r => Collections.refusal traits r.1 r.2 calls

section Pieces

variable {w : World ι A T} {this : ι}

omit [DecidableRel ((· ≈ ·) : A → A → Prop)] [DecidableEq ι] in
/-- After a look at an array that exists, what is thrown may depend on it. -/
theorem deref_throws {α : Type} {f : HeapArray A → Action ι A T α} {x : HeapArray A}
    {r : Option Exception} (hx : w.array this = some x) (h : Throws (f x) w r) :
    Throws (deref this >>= f) w r := by
  change Throws (Program.read (fun w => w.array this) >>= f) w r
  exact Throws.read_bind hx h

omit [DecidableRel ((· ≈ ·) : A → A → Prop)] in
theorem assign_throws (f : HeapArray A → HeapArray A) :
    Throws (assign this f : Action ι A T _) w none := .change _

omit [DecidableRel ((· ≈ ·) : A → A → Prop)] in
theorem emplace_throws (h : HeapArray A) : Throws (emplace this h : Action ι A T _) w none :=
  .change _

omit [DecidableRel ((· ≈ ·) : A → A → Prop)] in
theorem vanish_throws : Throws (vanish this : Action ι A T _) w none := .change _

omit [DecidableRel ((· ≈ ·) : A → A → Prop)] [DecidableEq ι] in
theorem construct_throws (raw : Option ℕ) (i : ℕ) (x : T) :
    Throws (construct raw i x : Action ι A T _) w none := .change _

omit [DecidableRel ((· ≈ ·) : A → A → Prop)] [DecidableEq ι] in
/-- `allocate` throws when the allocator refuses this call. -/
theorem allocate_throws (traits : AllocTraits A T) (a : A) (n : ℕ) :
    Throws (allocate traits a n : Action ι A T _) w
      (if traits.refuses w.calls then some .badAlloc else none) := by
  apply Throws.read_bind rfl
  apply Throws.bind (.change _)
  intro _ w'
  by_cases hrefuses : traits.refuses w.calls
  · rw [if_pos hrefuses, if_pos hrefuses]
    exact .throw _
  · rw [if_neg hrefuses, if_neg hrefuses]
    exact Throws.andThen (.read _) fun _ _ => Throws.andThen (.change _) fun _ _ => .pure _

namespace HeapArray

variable (traits : AllocTraits A T)

omit [DecidableRel ((· ≈ ·) : A → A → Prop)] [DecidableEq ι] in
/-- Building a block throws what its allocation is refused with; the elements throw nothing. -/
theorem buildBlock_throws (a : A) (n : ℕ) {init : Option ℕ → ℕ → Action ι A T Unit}
    (hinit : ∀ raw i w, Throws (init raw i) w none) :
    Throws (buildBlock traits a n init) w (refusal traits a n w.calls) := by
  unfold buildBlock refusal
  by_cases hn : n = 0
  · rw [if_pos hn, if_pos hn]
    exact .pure _
  · rw [if_neg hn, if_neg hn]
    by_cases hmax : maxSize traits a < n
    · rw [if_pos hmax, if_pos hmax]
      exact .throw _
    · rw [if_neg hmax, if_neg hmax, allocateBlock, if_neg hn]
      apply (allocate_throws traits a n).andThen
      intro p w'
      exact (Throws.forUp (hinit p) n).andThen fun _ _ => .pure _

omit [DecidableEq ι] in
theorem destroyAndDeallocate_throws :
    Throws (destroyAndDeallocate this : Action ι A T _) w none := by
  apply Throws.andThen (.read _)
  intro h w'
  split_ifs
  · exact .pure _
  · exact (Throws.forDown (fun _ _ => .change _) _).andThen fun _ _ => .change _

omit [DecidableRel ((· ≈ ·) : A → A → Prop)] [DecidableEq ι] in
theorem fromIterator_throws (values : List T) (raw : Option ℕ) (i : ℕ) (w : World ι A T) :
    Throws (fromIterator values raw i) w none :=
  Throws.andThen (.read _) fun _ _ => .change _

omit [DecidableRel ((· ≈ ·) : A → A → Prop)] [DecidableEq ι] in
theorem copyElement_throws (src raw : Option ℕ) (i : ℕ) (w : World ι A T) :
    Throws (copyElement src raw i) w none :=
  Throws.andThen (.read _) fun _ _ => .change _

omit [DecidableRel ((· ≈ ·) : A → A → Prop)] [DecidableEq ι] in
theorem moveElement_throws (src raw : Option ℕ) (i : ℕ) (w : World ι A T) :
    Throws (moveElement traits src raw i) w none :=
  Throws.andThen (.read _) fun _ _ => Throws.andThen (.change _) fun _ _ => .change _

omit [DecidableRel ((· ≈ ·) : A → A → Prop)] in
theorem constructor_throws (a : A) (n : ℕ) {init : Option ℕ → ℕ → Action ι A T Unit}
    (hinit : ∀ raw i w, Throws (init raw i) w none) :
    Throws (HeapArray.construct traits this a n init) w (refusal traits a n w.calls) :=
  (buildBlock_throws traits a n hinit).andThen fun _ _ => emplace_throws _

end HeapArray

end Pieces

section Calls

variable {traits : AllocTraits A T} {w : World ι A T} {lists : Lists ι A T} {this other : ι}

namespace HeapArray

/-- A copy assignment builds a block, unless an array is assigned to itself. -/
theorem copyAssign_throws (traits : AllocTraits A T) {x o : HeapArray A} (hx : w.array this = some x)
    (ho : w.array other = some o) :
    Throws (copyAssign traits this other) w
      (if this = other then none
      else if traits.propagateOnContainerCopyAssignment ∧ ¬ x.alloc ≈ o.alloc then
        refusal traits o.alloc o.size w.calls
      else refusal traits x.alloc o.size w.calls) := by
  unfold copyAssign
  by_cases hself : this = other
  · rw [if_pos hself, if_pos hself]
    exact .pure _
  rw [if_neg hself, if_neg hself]
  apply deref_throws hx
  apply deref_throws ho
  split_ifs
  -- After the block is built nothing throws.
  · apply (buildBlock_throws traits _ _ (copyElement_throws _)).andThen
    intro p w₁
    apply destroyAndDeallocate_throws.andThen
    exact fun _ _ => (assign_throws _).andThen fun _ _ => assign_throws _
  · apply (buildBlock_throws traits _ _ (copyElement_throws _)).andThen
    intro p w₁
    apply destroyAndDeallocate_throws.andThen
    exact fun _ _ => (assign_throws _).andThen fun _ _ => assign_throws _
  · apply (buildBlock_throws traits _ _ (copyElement_throws _)).andThen
    intro p w₁
    apply destroyAndDeallocate_throws.andThen
    exact fun _ _ => (assign_throws _).andThen fun _ _ => .pure _

/-- A move assignment builds a block only when it may not take the other array's. -/
theorem moveAssign_throws (traits : AllocTraits A T) {x o : HeapArray A} (hx : w.array this = some x)
    (ho : w.array other = some o) :
    Throws (moveAssign traits this other) w
      (if this = other then none
      else if traits.propagateOnContainerMoveAssignment then none
      else if x.alloc ≈ o.alloc then none
      else refusal traits x.alloc o.size w.calls) := by
  unfold moveAssign
  by_cases hself : this = other
  · rw [if_pos hself, if_pos hself]
    exact .pure _
  rw [if_neg hself, if_neg hself]
  apply deref_throws hx
  apply deref_throws ho
  by_cases hpocma : traits.propagateOnContainerMoveAssignment
  · rw [if_pos hpocma, if_pos hpocma]
    apply destroyAndDeallocate_throws.andThen
    exact fun _ _ => (assign_throws _).andThen fun _ _ => (assign_throws _).andThen fun _ _ =>
      (assign_throws _).andThen fun _ _ => assign_throws _
  rw [if_neg hpocma, if_neg hpocma]
  by_cases hequal : x.alloc ≈ o.alloc
  · rw [if_pos hequal, if_pos hequal]
    apply destroyAndDeallocate_throws.andThen
    exact fun _ _ => (assign_throws _).andThen fun _ _ => assign_throws _
  · rw [if_neg hequal, if_neg hequal]
    apply (buildBlock_throws traits _ _ (moveElement_throws traits _)).andThen
    intro p w₁
    apply destroyAndDeallocate_throws.andThen
    exact fun _ _ => (assign_throws _).andThen fun _ _ =>
      destroyAndDeallocate_throws.andThen fun _ _ => assign_throws _

/-- A move with an allocator builds a block only when the other one is not equal. -/
theorem moveConstructWith_throws (traits : AllocTraits A T) {o : HeapArray A}
    (ho : w.array other = some o) (a : A) : Throws (moveConstructWith traits this other a) w
      (if a ≈ o.alloc then none else refusal traits a o.size w.calls) := by
  apply deref_throws ho
  split_ifs
  · exact (assign_throws _).andThen fun _ _ => emplace_throws _
  · exact constructor_throws traits _ _ (moveElement_throws traits _)

omit [DecidableRel ((· ≈ ·) : A → A → Prop)] in
theorem swap_throws : Throws (swap traits this other) w none := by
  apply Throws.andThen (.read _)
  intro h w₁
  apply Throws.andThen (.read _)
  intro o w₂
  apply (assign_throws _).andThen
  intro _ w₃
  apply (assign_throws _).andThen
  intro _ w₄
  split_ifs
  · exact (assign_throws _).andThen fun _ _ => assign_throws _
  · exact .pure _

end HeapArray

open HeapArray

/-- **What a call throws**: the lists have the sizes and the allocators that it goes by. -/
theorem Op.run_throws (h : Owns w.array w.memory.block lists) (op : Op ι A T)
    (hop : op.Allowed traits lists) : Throws (op.run traits) w (op.refusal traits lists w.calls) := by
  cases op with
  | constructEmpty this a => exact emplace_throws _
  -- The elements of these constructors come from outside.
  | constructCount this count a => exact constructor_throws traits a _ fun _ _ _ => .change _
  | constructForOverwrite this count garbage a =>
    exact constructor_throws traits a _ fun _ _ _ => .change _
  | constructValue this count value a => exact constructor_throws traits a _ fun _ _ _ => .change _
  | constructIterators this range a =>
    exact constructor_throws traits a _ (fromIterator_throws range)
  | constructFromRange this range a =>
    exact constructor_throws traits a _ (fromIterator_throws range)
  | constructInitialiserList this init a =>
    exact constructor_throws traits a _ (fromIterator_throws init)
  | copyConstruct this other =>
    obtain ⟨⟨l, a⟩, hother⟩ := Option.isSome_iff_exists.mp hop.2
    obtain ⟨o, ho, rfl, hholds⟩ := h.exists hother
    rw [refusal, request, hother, Option.map_some, Option.bind_some, ← hholds.size_eq]
    exact deref_throws ho (constructor_throws traits _ _ (copyElement_throws o.data))
  | copyConstructWith this other a' =>
    obtain ⟨⟨l, a⟩, hother⟩ := Option.isSome_iff_exists.mp hop.2
    obtain ⟨o, ho, rfl, hholds⟩ := h.exists hother
    rw [refusal, request, hother, Option.map_some, Option.bind_some, ← hholds.size_eq]
    exact deref_throws ho (constructor_throws traits _ _ (copyElement_throws o.data))
  | moveConstruct this other =>
    exact Throws.andThen (.read _) fun _ _ => (assign_throws _).andThen fun _ _ => emplace_throws _
  | moveConstructWith this other a' =>
    obtain ⟨⟨l, a⟩, hother⟩ := Option.isSome_iff_exists.mp hop.2
    obtain ⟨o, ho, rfl, hholds⟩ := h.exists hother
    have hthrows : Throws (HeapArray.moveConstructWith traits this other a') w _ :=
      moveConstructWith_throws traits ho a'
    rw [refusal, request, hother, Option.bind_some, ← hholds.size_eq]
    split_ifs at hthrows ⊢ with hequal
    · exact hthrows
    · exact hthrows
  | destruct this => exact destroyAndDeallocate_throws.andThen fun _ _ => vanish_throws
  | copyAssign this other =>
    obtain ⟨⟨l, a⟩, hthis⟩ := Option.isSome_iff_exists.mp hop.1
    obtain ⟨⟨l', a'⟩, hother⟩ := Option.isSome_iff_exists.mp hop.2
    obtain ⟨x, hx, rfl, -⟩ := h.exists hthis
    obtain ⟨o, ho, rfl, hsource⟩ := h.exists hother
    have hthrows := copyAssign_throws traits hx ho
    simp only [refusal, request, hthis, hother]
    rw [hsource.size_eq] at hthrows
    split_ifs at hthrows ⊢
    · exact hthrows
    · exact hthrows
    · exact hthrows
  | moveAssign this other =>
    obtain ⟨⟨l, a⟩, hthis⟩ := Option.isSome_iff_exists.mp hop.1
    obtain ⟨⟨l', a'⟩, hother⟩ := Option.isSome_iff_exists.mp hop.2
    obtain ⟨x, hx, rfl, -⟩ := h.exists hthis
    obtain ⟨o, ho, rfl, hsource⟩ := h.exists hother
    have hthrows := moveAssign_throws traits hx ho
    simp only [refusal, request, hthis, hother]
    rw [hsource.size_eq] at hthrows
    split_ifs at hthrows ⊢
    · exact hthrows
    · exact hthrows
    · exact hthrows
    · exact hthrows
  | initialiserListAssign this init =>
    obtain ⟨⟨l, a⟩, hthis⟩ := Option.isSome_iff_exists.mp hop
    obtain ⟨x, hx, rfl, -⟩ := h.exists hthis
    rw [refusal, request, hthis, Option.map_some, Option.bind_some]
    apply deref_throws hx
    apply (buildBlock_throws traits _ _ (fromIterator_throws init)).andThen
    exact fun p _ => destroyAndDeallocate_throws.andThen fun _ _ => assign_throws _
  | swap this other => exact swap_throws

end Calls

end Remmy.Collections
