import Remmy.Collections.HeapArrayExceptions

/-!
# Sequences of Calls

What each call means for plain lists, and what holds after every sequence of such calls.
-/

namespace Remmy.Collections

open Remmy.Lib Program

section Meaning

variable {ι A T : Type} [Setoid A] [DecidableRel ((· ≈ ·) : A → A → Prop)] [DecidableEq ι]
  (traits : AllocTraits A T)

/-- A name stands for a list with an allocator. -/
def Lists.put (lists : Lists ι A T) (this : ι) (l : List T) (a : A) : Lists ι A T :=
  Function.update lists this (some (l, a))

/-- What a call that returns does to the lists. -/
def Op.effect (lists : Lists ι A T) : Op ι A T → Lists ι A T
  | constructEmpty this a => lists.put this [] a
  | constructCount this count a => lists.put this (List.replicate count traits.valueInitialised) a
  | constructForOverwrite this count garbage a =>
      lists.put this ((List.range count).map garbage) a
  | constructValue this count value a => lists.put this (List.replicate count value) a
  | constructIterators this range a => lists.put this range a
  | constructFromRange this range a => lists.put this range a
  | constructInitialiserList this init a => lists.put this init a
  | copyConstruct this other =>
      match lists other with
      | none => lists
      | some (l, a) => lists.put this l (traits.selectOnContainerCopyConstruction a)
  | copyConstructWith this other a' =>
      match lists other with
      | none => lists
      | some (l, _) => lists.put this l a'
  | moveConstruct this other =>
      match lists other with
      | none => lists
      | some (l, a) => (lists.put other [] (traits.movedAllocator a)).put this l a
  | moveConstructWith this other a' =>
      match lists other with
      | none => lists
      | some (l, a) =>
        -- With an unequal allocator the elements are moved one by one.
        if a' ≈ a then (lists.put other [] a).put this l a'
        else (lists.put other (l.map traits.movedElement) a).put this l a'
  | destruct this => Function.update lists this none
  | copyAssign this other =>
      match lists this, lists other with
      | some (_, a), some (l', a') =>
        if this = other then lists
        else lists.put this l' (if traits.propagateOnContainerCopyAssignment then a' else a)
      | _, _ => lists
  | moveAssign this other =>
      match lists this, lists other with
      | some (_, a), some (l', a') =>
        if this = other then lists
        else if traits.propagateOnContainerMoveAssignment then
          (lists.put other [] (traits.movedAllocator a')).put this l' a'
        else (lists.put other [] a').put this l' a
      | _, _ => lists
  | initialiserListAssign this init =>
      match lists this with
      | none => lists
      | some (_, a) => lists.put this init a
  | swap this other =>
      match lists this, lists other with
      | some (l, a), some (l', a') =>
        if traits.propagateOnContainerSwap then (lists.put this l' a').put other l a
        else (lists.put this l' a).put other l a'
      | _, _ => lists

end Meaning

section Calls

variable {ι A T : Type} [Setoid A]

/-- The arrays of a world hold the lists, and it has no other blocks. -/
def World.Owns (w : World ι A T) (lists : Lists ι A T) : Prop :=
  Collections.Owns w.array w.memory.block lists

theorem World.Is.owns {w : World ι A T} {array : ι → Option (HeapArray A)}
    {block : ℕ → Option (Block A T)} {lists : Lists ι A T} (hw : w.Is array block)
    (h : Collections.Owns array block lists) : w.Owns lists := by
  rw [World.Owns, hw.array_eq, hw.block_eq]
  exact h

variable [DecidableEq ι] {traits : AllocTraits A T} {w : World ι A T} {lists : Lists ι A T}
  {this other : ι}

omit [Setoid A] in
/-- Of assignments to two places in turn the last ones count. -/
theorem update_alternately {α : Type} (f : ι → α) (hne : this ≠ other) (a b c d : α) :
    Function.update (Function.update (Function.update (Function.update f this a) other b) this c)
      other d = Function.update (Function.update f other d) this c := by
  rw [Function.update_comm hne.symm, Function.update_idem, Function.update_idem,
    Function.update_comm hne]

namespace HeapArray

/-! ## Constructors and the destructor -/

theorem construct_owns (h : w.Owns lists) (hthis : lists this = none) {l : List T} {a : A}
    {init : Option ℕ → ℕ → Action ι A T Unit}
    (hinit : ∀ R, Initialises w.array (fun _ => w.memory.block) init a l R) :
    Ends (construct traits this a l.length init) w (fun _ w' => w'.Owns (lists.put this l a))
      (fun _ w' => w'.Owns lists) := by
  have hnone : w.array this = none := h.eq_none hthis
  apply Ends.bind
  apply (buildBlock_ends traits ⟨rfl, rfl⟩ (hinit _)).mono
  · rintro data w' ⟨hdata, hfresh, hw'⟩
    apply (emplace_ends hw' hnone _).imp
    intro _ w'' hw''
    have hbuilt := Collections.Owns.rebuild h this hdata hfresh (Setoid.refl a)
    rw [storage, hnone] at hbuilt
    exact hw''.owns hbuilt
  · exact fun _ w' hw' => hw'.owns h

/-- The constructors whose elements do not come from another array. -/
theorem construct_values_owns (traits : AllocTraits A T) (h : w.Owns lists)
    (hthis : lists this = none) {l : List T} (a : A) (values : ℕ → T)
    (hvalues : ∀ k, (hk : k < l.length) → values k = l[k]) :
    Ends
      (construct traits this a l.length fun raw i => Collections.construct raw i (values i)) w
      (fun _ w' => w'.Owns (lists.put this l a)) (fun _ w' => w'.Owns lists) := by
  apply construct_owns h hthis
  intro R
  apply Initialises.of_construct
  intro p _ k hk w b _ Q hQ
  rw [hvalues k hk]
  exact hQ

theorem constructEmpty_owns (h : w.Owns lists) (hthis : lists this = none) (a : A) :
    Ends (constructEmpty this a) w (fun _ w' => w'.Owns (lists.put this [] a))
      (fun _ w' => w'.Owns lists) := by
  have hnone : w.array this = none := h.eq_none hthis
  apply (emplace_ends ⟨rfl, rfl⟩ hnone _).imp
  intro _ w' hw'
  have hempty := Collections.Owns.clear h this a
  rw [storage, hnone] at hempty
  exact hw'.owns hempty

theorem copyConstruct_owns {l : List T} {a : A} (h : w.Owns lists) (hthis : lists this = none)
    (hother : lists other = some (l, a)) :
    Ends (copyConstruct traits this other) w
      (fun _ w' => w'.Owns (lists.put this l (traits.selectOnContainerCopyConstruction a)))
      (fun _ w' => w'.Owns lists) := by
  obtain ⟨o, ho, rfl, hholds⟩ := h.exists hother
  apply Ends.bind
  apply deref_ends ⟨rfl, rfl⟩ ho
  rw [hholds.size_eq]
  exact construct_owns h hthis fun R => copyElement_initialises hholds

theorem copyConstructWith_owns {l : List T} {a : A} (h : w.Owns lists) (hthis : lists this = none)
    (hother : lists other = some (l, a)) (a' : A) :
    Ends (copyConstructWith traits this other a') w (fun _ w' => w'.Owns (lists.put this l a'))
      (fun _ w' => w'.Owns lists) := by
  obtain ⟨o, ho, rfl, hholds⟩ := h.exists hother
  apply Ends.bind
  apply deref_ends ⟨rfl, rfl⟩ ho
  rw [hholds.size_eq]
  exact construct_owns h hthis fun R => copyElement_initialises hholds

theorem moveConstruct_owns {l : List T} {a : A} (h : w.Owns lists) (hthis : lists this = none)
    (hother : lists other = some (l, a)) :
    Ends (moveConstruct traits this other) w
      (fun _ w' => w'.Owns ((lists.put other [] (traits.movedAllocator a)).put this l a))
      (fun _ w' => w'.Owns lists) := by
  obtain ⟨o, ho, rfl, -⟩ := h.exists hother
  have hnone : w.array this = none := h.eq_none hthis
  have hne : this ≠ other := by
    intro heq
    rw [heq, hother] at hthis
    cases hthis
  apply Ends.bind
  apply deref_ends ⟨rfl, rfl⟩ ho
  apply Ends.andThen (assign_ends ⟨rfl, rfl⟩ ho _)
  intro _ w' hw'
  apply (emplace_ends hw' ((Function.update_of_ne hne _ _).trans hnone) _).imp
  intro _ w'' hw''
  have htaken := Collections.Owns.take h hne ho hother (Setoid.refl _)
    (traits.movedAllocator o.alloc)
  rw [storage, hnone] at htaken
  exact hw''.owns htaken

variable [DecidableRel ((· ≈ ·) : A → A → Prop)]

/-- With an equal allocator the storage is taken; otherwise the elements are moved. -/
theorem moveConstructWith_owns {l : List T} {a : A} (h : w.Owns lists)
    (hthis : lists this = none) (hother : lists other = some (l, a)) (a' : A) :
    Ends (moveConstructWith traits this other a') w
      (fun _ w' => w'.Owns
        (if a' ≈ a then (lists.put other [] a).put this l a'
        else (lists.put other (l.map traits.movedElement) a).put this l a'))
      (fun _ w' => w'.Owns lists) := by
  obtain ⟨o, ho, rfl, hholds⟩ := h.exists hother
  have hnone : w.array this = none := h.eq_none hthis
  have hne : this ≠ other := by
    intro heq
    rw [heq, hother] at hthis
    cases hthis
  apply Ends.bind
  apply deref_ends ⟨rfl, rfl⟩ ho
  by_cases heq : a' ≈ o.alloc
  · rw [if_pos heq]
    simp only [if_pos heq]
    apply Ends.andThen (assign_ends ⟨rfl, rfl⟩ ho _)
    intro _ w' hw'
    apply (emplace_ends hw' ((Function.update_of_ne hne _ _).trans hnone) _).imp
    intro _ w'' hw''
    have htaken := Collections.Owns.take h hne ho hother (Setoid.symm heq) o.alloc
    rw [storage, hnone] at htaken
    exact hw''.owns htaken
  · rw [if_neg heq]
    simp only [if_neg heq]
    apply Ends.bind
    rw [hholds.size_eq]
    apply (buildBlock_moveElement_ends traits ⟨rfl, rfl⟩ hholds).mono
    · rintro data w' ⟨block', hmoved, hframe, hdata, hfresh, hw'⟩
      apply (emplace_ends hw' hnone _).imp
      intro _ w'' hw''
      -- First the elements of the other array are moved from, then the block is new.
      have hrewritten := Collections.Owns.rewrite h ho hmoved hframe
      have hbuilt := hrewritten.rebuild this hdata hfresh (Setoid.refl a')
      rw [storage, hnone] at hbuilt
      exact hw''.owns hbuilt
    · exact fun _ w' hw' => hw'.owns h

theorem destruct_owns {l : List T} {a : A} (h : w.Owns lists) (hthis : lists this = some (l, a)) :
    Ends (destruct this) w (fun _ w' => w'.Owns (Function.update lists this none))
      (fun _ w' => w'.Owns lists) := by
  obtain ⟨x, hx, -, hholds⟩ := h.exists hthis
  apply Ends.andThen (destroyAndDeallocate_ends ⟨rfl, rfl⟩ hx hholds)
  intro _ w' hw'
  apply (vanish_ends hw' hx).imp
  intro _ w'' hw''
  have hgone := Collections.Owns.remove h this
  rw [storage_eq hx] at hgone
  exact hw''.owns hgone

/-! ## Assignments and `swap` -/

omit [DecidableEq ι] in
/-- What is built before an array is released does not matter to the release. -/
theorem release_ends {array : ι → Option (HeapArray A)} {block : ℕ → Option (Block A T)}
    {b : Option (Block A T)} {data : Option ℕ} {x : HeapArray A} {l : List T}
    {R : Exception → World ι A T → Prop} (hw : w.Is array (place data b block))
    (hx : array this = some x) (hholds : Holds block x l)
    (hfresh : ∀ p, data = some p → block p = none) :
    Ends (destroyAndDeallocate this) w
      (fun _ w' => w'.Is array (place x.data none (place data b block))) R := by
  apply destroyAndDeallocate_ends hw hx
  apply hholds.congr
  intro p hp
  obtain ⟨owner, -, hblock⟩ := hholds.block_eq p hp
  apply place_of_ne
  intro hdata
  rw [hfresh p hdata] at hblock
  cases hblock

theorem initialiserListAssign_owns {l : List T} {a : A} (h : w.Owns lists)
    (hthis : lists this = some (l, a)) (init : List T) :
    Ends (initialiserListAssign traits this init) w (fun _ w' => w'.Owns (lists.put this init a))
      (fun _ w' => w'.Owns lists) := by
  obtain ⟨x, hx, rfl, hholds⟩ := h.exists hthis
  apply Ends.bind
  apply deref_ends ⟨rfl, rfl⟩ hx
  apply Ends.bind
  apply (buildBlock_ends traits ⟨rfl, rfl⟩ fromIterator_initialises).mono
  · rintro data w₁ ⟨hdata, hfresh, hw₁⟩
    apply Ends.andThen (release_ends hw₁ hx hholds hfresh)
    intro _ w₂ hw₂
    apply (assign_ends hw₂ hx _).imp
    intro _ w₃ hw₃
    have hbuilt := Collections.Owns.rebuild h this hdata hfresh (Setoid.refl x.alloc)
    rw [storage_eq hx] at hbuilt
    exact hw₃.owns hbuilt
  · exact fun _ w' hw' => hw'.owns h

/-- A copy is built before anything is released.  An allocator that propagates and is not equal
    builds it; in every other case the allocator of this array does. -/
theorem copyAssign_owns {l l' : List T} {a a' : A} (h : w.Owns lists)
    (hthis : lists this = some (l, a)) (hother : lists other = some (l', a')) :
    Ends (copyAssign traits this other) w
      (fun _ w' => w'.Owns
        (if this = other then lists
        else lists.put this l' (if traits.propagateOnContainerCopyAssignment then a' else a)))
      (fun _ w' => w'.Owns lists) := by
  obtain ⟨x, hx, rfl, hholds⟩ := h.exists hthis
  obtain ⟨o, ho, rfl, hsource⟩ := h.exists hother
  unfold copyAssign
  -- Assigning an array to itself does nothing.
  by_cases hself : this = other
  · simp only [if_pos hself]
    exact Ends.pure h
  simp only [if_neg hself]
  apply Ends.bind
  apply deref_ends ⟨rfl, rfl⟩ hx
  apply Ends.bind
  apply deref_ends ⟨rfl, rfl⟩ ho
  rw [hsource.size_eq]
  -- Does the allocator of the other array have to build the copy?
  by_cases hpath : traits.propagateOnContainerCopyAssignment ∧ ¬ x.alloc ≈ o.alloc
  · rw [if_pos hpath, if_pos hpath.1]
    apply Ends.bind
    apply (buildBlock_ends traits ⟨rfl, rfl⟩ (copyElement_initialises hsource)).mono
    · rintro data w₁ ⟨hdata, hfresh, hw₁⟩
      apply Ends.andThen (release_ends hw₁ hx hholds hfresh)
      intro _ w₂ hw₂
      apply Ends.andThen (assign_ends hw₂ hx _)
      intro _ w₃ hw₃
      apply (assign_ends hw₃ (Function.update_self _ _ _) _).imp
      intro _ w₄ hw₄
      rw [Function.update_idem] at hw₄
      have hbuilt := Collections.Owns.rebuild h this hdata hfresh (Setoid.refl o.alloc)
      rw [storage_eq hx] at hbuilt
      exact hw₄.owns hbuilt
    · exact fun _ w' hw' => hw'.owns h
  · rw [if_neg hpath]
    apply Ends.bind
    apply (buildBlock_ends traits ⟨rfl, rfl⟩ (copyElement_initialises hsource)).mono
    · rintro data w₁ ⟨hdata, hfresh, hw₁⟩
      apply Ends.andThen (release_ends hw₁ hx hholds hfresh)
      intro _ w₂ hw₂
      apply Ends.andThen (assign_ends hw₂ hx _)
      intro _ w₃ hw₃
      by_cases hpocca : traits.propagateOnContainerCopyAssignment
      · -- The allocators are equal, so the new one may give back what the old one allocated.
        rw [if_pos hpocca, if_pos hpocca]
        have heq : x.alloc ≈ o.alloc := by
          by_contra hne
          exact hpath ⟨hpocca, hne⟩
        apply (assign_ends hw₃ (Function.update_self _ _ _) _).imp
        intro _ w₄ hw₄
        rw [Function.update_idem] at hw₄
        have hbuilt := Collections.Owns.rebuild h this hdata hfresh heq
        rw [storage_eq hx] at hbuilt
        exact hw₄.owns hbuilt
      · rw [if_neg hpocca, if_neg hpocca]
        apply Ends.pure
        have hbuilt := Collections.Owns.rebuild h this hdata hfresh (Setoid.refl x.alloc)
        rw [storage_eq hx] at hbuilt
        exact hw₃.owns hbuilt
    · exact fun _ w' hw' => hw'.owns h

/-- The storage is taken where the allocators allow it; otherwise the elements are moved into a
    new block and the other array is emptied. -/
theorem moveAssign_owns {l l' : List T} {a a' : A} (h : w.Owns lists)
    (hthis : lists this = some (l, a)) (hother : lists other = some (l', a')) :
    Ends (moveAssign traits this other) w
      (fun _ w' => w'.Owns
        (if this = other then lists
        else if traits.propagateOnContainerMoveAssignment then
          (lists.put other [] (traits.movedAllocator a')).put this l' a'
        else (lists.put other [] a').put this l' a))
      (fun _ w' => w'.Owns lists) := by
  obtain ⟨x, hx, rfl, hholds⟩ := h.exists hthis
  obtain ⟨o, ho, rfl, hsource⟩ := h.exists hother
  unfold moveAssign
  -- Assigning an array to itself does nothing.
  by_cases hself : this = other
  · simp only [if_pos hself]
    exact Ends.pure h
  simp only [if_neg hself]
  apply Ends.bind
  apply deref_ends ⟨rfl, rfl⟩ hx
  apply Ends.bind
  apply deref_ends ⟨rfl, rfl⟩ ho
  -- The storage may be taken when its allocator comes with it, or is equal to this one's.
  by_cases hpocma : traits.propagateOnContainerMoveAssignment
  · rw [if_pos hpocma, if_pos hpocma]
    apply Ends.andThen (destroyAndDeallocate_ends ⟨rfl, rfl⟩ hx hholds)
    intro _ w₁ hw₁
    apply Ends.andThen (assign_ends hw₁ hx _)
    intro _ w₂ hw₂
    apply Ends.andThen (assign_ends hw₂ ((Function.update_of_ne (Ne.symm hself) _ _).trans ho) _)
    intro _ w₃ hw₃
    apply Ends.andThen (assign_ends hw₃
      ((Function.update_of_ne hself _ _).trans (Function.update_self _ _ _)) _)
    intro _ w₄ hw₄
    apply (assign_ends hw₄
      ((Function.update_of_ne (Ne.symm hself) _ _).trans (Function.update_self _ _ _)) _).imp
    intro _ w₅ hw₅
    rw [update_alternately _ hself] at hw₅
    have htaken := Collections.Owns.take h hself ho hother (Setoid.refl _)
      (traits.movedAllocator o.alloc)
    rw [storage_eq hx] at htaken
    exact hw₅.owns htaken
  · rw [if_neg hpocma, if_neg hpocma]
    by_cases heq : x.alloc ≈ o.alloc
    · rw [if_pos heq]
      apply Ends.andThen (destroyAndDeallocate_ends ⟨rfl, rfl⟩ hx hholds)
      intro _ w₁ hw₁
      apply Ends.andThen (assign_ends hw₁ hx _)
      intro _ w₂ hw₂
      apply (assign_ends hw₂ ((Function.update_of_ne (Ne.symm hself) _ _).trans ho) _).imp
      intro _ w₃ hw₃
      rw [Function.update_comm hself] at hw₃
      have htaken := Collections.Owns.take h hself ho hother (Setoid.symm heq) o.alloc
      rw [storage_eq hx] at htaken
      exact hw₃.owns htaken
    · rw [if_neg heq, hsource.size_eq]
      apply Ends.bind
      apply (buildBlock_moveElement_ends traits ⟨rfl, rfl⟩ hsource).mono
      · rintro data w₁ ⟨block', hmoved, hframe, hdata, hfresh, hw₁⟩
        have hrewritten := Collections.Owns.rewrite h ho hmoved hframe
        obtain ⟨x', hx', -, hholds'⟩ :=
          hrewritten.exists ((Function.update_of_ne hself _ _).trans hthis)
        obtain rfl : x = x' := Option.some.inj (hx.symm.trans hx')
        apply Ends.andThen (release_ends hw₁ hx hholds' hfresh)
        intro _ w₂ hw₂
        apply Ends.andThen (assign_ends hw₂ hx _)
        intro _ w₃ hw₃
        -- The elements are in this array; the other array still has those that were moved from.
        have hbuilt := hrewritten.rebuild this hdata hfresh (Setoid.refl x.alloc)
        rw [storage_eq hx] at hbuilt
        have ho' : Function.update w.array this
            (some { data := data, size := l'.length, alloc := x.alloc }) other = some o :=
          (Function.update_of_ne (Ne.symm hself) _ _).trans ho
        have hother' : Function.update (Function.update lists other
            (some (l'.map traits.movedElement, o.alloc))) this (some (l', x.alloc)) other =
            some (l'.map traits.movedElement, o.alloc) :=
          (Function.update_of_ne (Ne.symm hself) _ _).trans (Function.update_self _ _ _)
        obtain ⟨o', ho'', -, hholds''⟩ := hbuilt.exists hother'
        obtain rfl : o = o' := Option.some.inj (ho'.symm.trans ho'')
        apply Ends.andThen (destroyAndDeallocate_ends hw₃ ho' hholds'')
        intro _ w₄ hw₄
        apply (assign_ends hw₄ ho' _).imp
        intro _ w₅ hw₅
        have hempty := hbuilt.clear other o.alloc
        have hlists : Function.update (Function.update (Function.update lists other
            (some (l'.map traits.movedElement, o.alloc))) this (some (l', x.alloc))) other
            (some ([], o.alloc)) = (lists.put other [] o.alloc).put this l' x.alloc := by
          rw [Function.update_comm hself, Function.update_idem]
          rfl
        rw [storage_eq ho', hlists] at hempty
        exact hw₅.owns hempty
      · exact fun _ w' hw' => hw'.owns h

omit [DecidableRel ((· ≈ ·) : A → A → Prop)] in
theorem swap_owns {l l' : List T} {a a' : A} (h : w.Owns lists)
    (hthis : lists this = some (l, a)) (hother : lists other = some (l', a'))
    (hequal : traits.propagateOnContainerSwap ∨ a ≈ a') :
    Ends (swap traits this other) w
      (fun _ w' => w'.Owns
        (if traits.propagateOnContainerSwap then (lists.put this l' a').put other l a
        else (lists.put this l' a).put other l a'))
      (fun _ w' => w'.Owns lists) := by
  obtain ⟨x, hx, rfl, -⟩ := h.exists hthis
  obtain ⟨o, ho, rfl, -⟩ := h.exists hother
  apply Ends.bind
  apply deref_ends ⟨rfl, rfl⟩ hx
  apply Ends.bind
  apply deref_ends ⟨rfl, rfl⟩ ho
  apply Ends.andThen (assign_ends ⟨rfl, rfl⟩ hx _)
  intro _ w₁ hw₁
  by_cases hself : this = other
  · -- An array that is swapped with itself is assigned what it has.
    subst hself
    obtain rfl : x = o := Option.some.inj (hx.symm.trans ho)
    obtain ⟨rfl, -⟩ := Prod.mk.inj (Option.some.inj (hthis.symm.trans hother))
    have hlists : lists.put this l x.alloc = lists := by
      rw [Lists.put, ← hthis]
      exact Function.update_eq_self this lists
    have harray : Function.update w.array this (some x) = w.array := by
      rw [← hx]
      exact Function.update_eq_self this w.array
    rw [hlists, hlists, ite_self]
    apply Ends.andThen (assign_ends hw₁ (Function.update_self _ _ _) _)
    intro _ w₂ hw₂
    rw [Function.update_idem] at hw₂
    by_cases hpocs : traits.propagateOnContainerSwap
    · rw [if_pos hpocs]
      apply Ends.andThen (assign_ends hw₂ (Function.update_self _ _ _) _)
      intro _ w₃ hw₃
      apply (assign_ends hw₃ (Function.update_self _ _ _) _).imp
      intro _ w₄ hw₄
      rw [Function.update_idem, Function.update_idem] at hw₄
      exact (harray ▸ hw₄).owns h
    · rw [if_neg hpocs]
      exact Ends.pure ((harray ▸ hw₂).owns h)
  · apply Ends.andThen
      (assign_ends hw₁ ((Function.update_of_ne (Ne.symm hself) _ _).trans ho) _)
    intro _ w₂ hw₂
    have hexchanged := Collections.Owns.exchange h this other
    rw [hx, ho, hthis, hother] at hexchanged
    by_cases hpocs : traits.propagateOnContainerSwap
    · rw [if_pos hpocs, if_pos hpocs]
      apply Ends.andThen (assign_ends hw₂
        ((Function.update_of_ne hself _ _).trans (Function.update_self _ _ _)) _)
      intro _ w₃ hw₃
      apply (assign_ends hw₃
        ((Function.update_of_ne (Ne.symm hself) _ _).trans (Function.update_self _ _ _)) _).imp
      intro _ w₄ hw₄
      rw [update_alternately _ hself] at hw₄
      rw [Lists.put, Lists.put, Function.update_comm hself]
      exact hw₄.owns hexchanged
    · rw [if_neg hpocs, if_neg hpocs]
      apply Ends.pure
      have hequal' : x.alloc ≈ o.alloc := hequal.resolve_left hpocs
      -- Each keeps its own allocator, which is equal to the one that its new block came from.
      have hfirst := hexchanged.reallocate (Function.update_self _ _ _)
        (Function.update_self _ _ _) (Setoid.symm hequal')
      rw [Function.update_idem, Function.update_idem] at hfirst
      have hboth := hfirst.reallocate
        ((Function.update_of_ne (Ne.symm hself) _ _).trans (Function.update_self _ _ _))
        ((Function.update_of_ne (Ne.symm hself) _ _).trans (Function.update_self _ _ _)) hequal'
      rw [Function.update_comm (Ne.symm hself), Function.update_idem,
        Function.update_comm (Ne.symm hself), Function.update_idem] at hboth
      exact hw₂.owns hboth

end HeapArray

/-! ## Every call -/

variable [DecidableRel ((· ≈ ·) : A → A → Prop)]

/-- A call that is allowed has an outcome, and the arrays hold the lists that it should leave. -/
theorem Op.run_owns (h : w.Owns lists) (op : Op ι A T) (hop : op.Allowed traits lists) :
    Ends (op.run traits) w (fun _ w' => w'.Owns (op.effect traits lists))
      (fun _ w' => w'.Owns lists) := by
  cases op with
  | constructEmpty this a => exact HeapArray.constructEmpty_owns h hop a
  | constructCount this count a =>
    have hvalues : ∀ k, (hk : k < (List.replicate count traits.valueInitialised).length) →
        traits.valueInitialised = (List.replicate count traits.valueInitialised)[k] :=
      fun k hk => (List.getElem_replicate hk).symm
    have hconstruct := HeapArray.construct_values_owns traits h hop a
      (fun _ => traits.valueInitialised) hvalues
    rw [List.length_replicate] at hconstruct
    exact hconstruct
  | constructForOverwrite this count garbage a =>
    -- The elements are whatever was there, one of `garbage` for each.
    have hvalues : ∀ k, (hk : k < ((List.range count).map garbage).length) →
        garbage k = ((List.range count).map garbage)[k] := by
      intro k hk
      rw [List.getElem_map, List.getElem_range]
    have hconstruct := HeapArray.construct_values_owns traits h hop a garbage hvalues
    rw [List.length_map, List.length_range] at hconstruct
    exact hconstruct
  | constructValue this count value a =>
    have hvalues : ∀ k, (hk : k < (List.replicate count value).length) →
        value = (List.replicate count value)[k] := fun k hk => (List.getElem_replicate hk).symm
    have hconstruct := HeapArray.construct_values_owns traits h hop a (fun _ => value) hvalues
    rw [List.length_replicate] at hconstruct
    exact hconstruct
  | constructIterators this range a =>
    exact HeapArray.construct_owns h hop fun R => HeapArray.fromIterator_initialises
  | constructFromRange this range a =>
    exact HeapArray.construct_owns h hop fun R => HeapArray.fromIterator_initialises
  | constructInitialiserList this init a =>
    exact HeapArray.construct_owns h hop fun R => HeapArray.fromIterator_initialises
  | copyConstruct this other =>
    -- A constructor needs the other array only.
    obtain ⟨hthis, hother⟩ := hop
    obtain ⟨⟨l, a⟩, hother⟩ := Option.isSome_iff_exists.mp hother
    simp only [effect, hother]
    exact HeapArray.copyConstruct_owns h hthis hother
  | copyConstructWith this other a' =>
    obtain ⟨hthis, hother⟩ := hop
    obtain ⟨⟨l, a⟩, hother⟩ := Option.isSome_iff_exists.mp hother
    simp only [effect, hother]
    exact HeapArray.copyConstructWith_owns h hthis hother a'
  | moveConstruct this other =>
    obtain ⟨hthis, hother⟩ := hop
    obtain ⟨⟨l, a⟩, hother⟩ := Option.isSome_iff_exists.mp hother
    simp only [effect, hother]
    exact HeapArray.moveConstruct_owns h hthis hother
  | moveConstructWith this other a' =>
    obtain ⟨hthis, hother⟩ := hop
    obtain ⟨⟨l, a⟩, hother⟩ := Option.isSome_iff_exists.mp hother
    simp only [effect, hother]
    exact HeapArray.moveConstructWith_owns h hthis hother a'
  | destruct this =>
    obtain ⟨⟨l, a⟩, hthis⟩ := Option.isSome_iff_exists.mp hop
    exact HeapArray.destruct_owns h hthis
  | copyAssign this other =>
    -- An assignment needs both.
    obtain ⟨⟨l, a⟩, hthis⟩ := Option.isSome_iff_exists.mp hop.1
    obtain ⟨⟨l', a'⟩, hother⟩ := Option.isSome_iff_exists.mp hop.2
    simp only [effect, hthis, hother]
    exact HeapArray.copyAssign_owns h hthis hother
  | moveAssign this other =>
    obtain ⟨⟨l, a⟩, hthis⟩ := Option.isSome_iff_exists.mp hop.1
    obtain ⟨⟨l', a'⟩, hother⟩ := Option.isSome_iff_exists.mp hop.2
    simp only [effect, hthis, hother]
    exact HeapArray.moveAssign_owns h hthis hother
  | initialiserListAssign this init =>
    obtain ⟨⟨l, a⟩, hthis⟩ := Option.isSome_iff_exists.mp hop
    simp only [effect, hthis]
    exact HeapArray.initialiserListAssign_owns h hthis init
  | swap this other =>
    obtain ⟨l, a, l', a', hthis, hother, hequal⟩ := hop
    simp only [effect, hthis, hother]
    exact HeapArray.swap_owns h hthis hother hequal

end Calls

/-! ## Every sequence of calls -/

section Runs

variable {ι A T : Type} [Setoid A]

/-- No array yet. -/
def World.start : World ι A T where
  memory := .empty
  array _ := none
  calls := 0

/-- What can be read through an array. -/
def HeapArray.contents (m : Memory A T) (x : HeapArray A) : List (Option T) :=
  (List.range x.size).map fun i => x.data.bind fun p => m.load p i

variable [DecidableRel ((· ≈ ·) : A → A → Prop)] [DecidableEq ι]

/-- A world after some calls that were allowed, and the lists after the same calls; a call that
    threw has done nothing to them. -/
inductive Reaches (traits : AllocTraits A T) : World ι A T → Lists ι A T → Prop
  | start : Reaches traits .start fun _ => none
  | returned {w w' : World ι A T} {lists : Lists ι A T} (op : Op ι A T) :
      Reaches traits w lists → op.Allowed traits lists →
      (op.run traits).outcome w = some (.ok (), w') → Reaches traits w' (op.effect traits lists)
  | threw {w w' : World ι A T} {lists : Lists ι A T} {e : Exception} (op : Op ι A T) :
      Reaches traits w lists → op.Allowed traits lists →
      (op.run traits).outcome w = some (.error e, w') → Reaches traits w' lists

/-- What holds of a world and the lists. -/
structure Sound (traits : AllocTraits A T) (w : World ι A T) (lists : Lists ι A T) : Prop where
  /-- No call that is allowed does what is not defined.  It throws what its allocation is refused
      with, and otherwise it returns. -/
  defined : ∀ op : Op ι A T, op.Allowed traits lists →
    ∃ r w', (op.run traits).outcome w = some (r, w') ∧ thrown r = op.refusal traits lists w.calls
  /-- The arrays that exist are the lists, with their allocators. -/
  absent : ∀ i, lists i = none → w.array i = none
  contents : ∀ i l a, lists i = some (l, a) →
    ∃ x, w.array i = some x ∧ x.alloc = a ∧ x.size = l.length ∧ x.contents w.memory = l.map some
  /-- `data()` is null iff the array is empty. -/
  data_null : ∀ i x, w.array i = some x → (x.data = none ↔ x.size = 0)
  /-- A block is the storage of exactly one array and was not deallocated, or it was deallocated
      exactly once, as it was allocated, after every element in it was destroyed. -/
  blocks : ∀ e ∈ w.memory.log,
    (∃! i, storage w.array i = some e.block) ∧
      (∃ a n, w.memory.log.filter (·.onBlock e.block) = [.allocated e.block a n]) ∨
    Settled w.memory.log e.block
  /-- When the arrays are gone, so is every block. -/
  settled : (∀ i, w.array i = none) → ∀ e ∈ w.memory.log, Settled w.memory.log e.block

variable {traits : AllocTraits A T} {w : World ι A T} {lists : Lists ι A T}

theorem Reaches.owns (h : Reaches traits w lists) : w.Owns lists := by
  induction h with
  | start =>
    refine ⟨fun _ => trivial, ?_, ?_⟩
    · exact fun _ _ _ hi _ => (by cases hi)
    · exact fun _ hp => (by cases hp)
  | returned op _ hop hrun ih =>
    rcases Op.run_owns ih op hop with ⟨_, w', hw', howns⟩ | ⟨_, w', hw', -⟩
    · cases hrun.symm.trans hw'
      exact howns
    · cases hrun.symm.trans hw'
  | threw op _ hop hrun ih =>
    rcases Op.run_owns ih op hop with ⟨_, w', hw', -⟩ | ⟨_, w', hw', howns⟩
    · cases hrun.symm.trans hw'
    · cases hrun.symm.trans hw'
      exact howns

omit [DecidableRel ((· ≈ ·) : A → A → Prop)] [DecidableEq ι] in
/-- An array shows the list it holds. -/
theorem Holds.contents_eq {m : Memory A T} {x : HeapArray A} {l : List T}
    (h : Holds m.block x l) : x.contents m = l.map some := by
  apply List.ext_getElem?
  intro i
  rw [HeapArray.contents, List.getElem?_map, List.getElem?_map, h.size_eq]
  by_cases hi : i < l.length
  · rw [List.getElem?_range hi, List.getElem?_eq_getElem hi]
    cases hdata : x.data with
    | none =>
      rw [h.data_eq_none.mp hdata] at hi
      cases hi
    | some p =>
      obtain ⟨owner, -, hp⟩ := h.block_eq p hdata
      show some (m.load p i) = some (some l[i])
      rw [Memory.load_ofList hp, List.getElem?_eq_getElem hi]
  · rw [List.getElem?_eq_none (not_lt.mp hi), List.getElem?_eq_none]
    · rfl
    · rw [List.length_range]
      exact not_lt.mp hi

omit [DecidableRel ((· ≈ ·) : A → A → Prop)] [DecidableEq ι] in
/-- A block that anything was done to is the storage of one array, or it is settled. -/
theorem World.Owns.blocks (h : w.Owns lists) {e : MemoryEvent A} (he : e ∈ w.memory.log) :
    (∃! i, storage w.array i = some e.block) ∧
      (∃ a n, w.memory.log.filter (·.onBlock e.block) = [.allocated e.block a n]) ∨
    Settled w.memory.log e.block := by
  have hused := w.memory.accounted.used e.block (w.memory.accounted.logged e he)
  cases hb : w.memory.block e.block with
  | none =>
    rw [hb] at hused
    exact .inr hused
  | some b =>
    rw [hb] at hused
    obtain ⟨hblock, -⟩ := hused
    obtain ⟨i, hi⟩ := Collections.Owns.owned h e.block (hb ▸ rfl)
    refine .inl ⟨⟨i, hi, fun j hj => ?_⟩, b.owner, b.count, hblock⟩
    exact Collections.Owns.distinct h j i e.block hj hi

/-- `HeapArray` owns its blocks: whatever is called in whatever order, and whatever the allocator
    propagates, a call returns unless its allocation is refused, every array holds its list in a
    block of its own, and every block is given back once, as it was allocated. -/
theorem heapArray_sound (traits : AllocTraits A T) (w : World ι A T) (lists : Lists ι A T)
    (h : Reaches traits w lists) : Sound traits w lists where
  defined op hop := by
    have hthrows := Op.run_throws h.owns op hop
    rcases Op.run_owns h.owns op hop with ⟨r, w', hw', -⟩ | ⟨e, w', hw', -⟩
    · exact ⟨_, w', hw', hthrows _ w' hw'⟩
    · exact ⟨_, w', hw', hthrows _ w' hw'⟩
  absent i hi := h.owns.eq_none hi
  contents i l a hi := by
    obtain ⟨x, hx, ha, hholds⟩ := h.owns.exists hi
    exact ⟨x, hx, ha, hholds.size_eq, hholds.contents_eq⟩
  data_null i x hx := by
    have hentry := h.owns.entry i
    rw [hx] at hentry
    cases hi : lists i with
    | none =>
      rw [hi] at hentry
      exact hentry.elim
    | some s =>
      rw [hi] at hentry
      obtain ⟨-, hholds⟩ := hentry
      rw [hholds.data_eq_none, hholds.size_eq, List.length_eq_zero_iff]
  blocks e he := h.owns.blocks he
  settled hnone e he := by
    rcases h.owns.blocks he with ⟨⟨i, hi, -⟩, -⟩ | hsettled
    · rw [storage, hnone i] at hi
      cases hi
    · exact hsettled

/-- Whether a call returns. -/
def Op.returns (traits : AllocTraits A T) (op : Op ι A T) (w : World ι A T) : Bool :=
  ((op.run traits).outcome w).any fun r => r.1.isOk

/-- The world after a call. -/
def Op.after (traits : AllocTraits A T) (op : Op ι A T) (w : World ι A T) : World ι A T :=
  ((op.run traits).outcome w).elim w Prod.snd

theorem Reaches.call (h : Reaches traits w lists) (op : Op ι A T) (hop : op.Allowed traits lists)
    (hreturns : op.returns traits w) :
    Reaches traits (op.after traits w) (op.effect traits lists) := by
  rcases Op.run_owns h.owns op hop with ⟨_, w', hw', -⟩ | ⟨_, w', hw', -⟩
  · rw [Op.after, hw']
    exact .returned op h hop hw'
  · rw [Op.returns, hw'] at hreturns
    cases hreturns

/-- An allocator that never propagates; two are equal if they have the same number. -/
structure StickyAlloc where
  id : ℕ
  deriving DecidableEq

instance : Setoid StickyAlloc := ⟨Eq, eq_equivalence⟩

instance : DecidableRel ((· ≈ ·) : StickyAlloc → StickyAlloc → Prop) :=
  fun a b => inferInstanceAs (Decidable (a = b))

/-- The traits of `StickyAlloc`, for numbers. -/
def stickyTraits : AllocTraits StickyAlloc ℕ where
  selectOnContainerCopyConstruction := id
  propagateOnContainerCopyAssignment := false
  propagateOnContainerMoveAssignment := false
  propagateOnContainerSwap := false
  maxSize _ := 2 ^ 61
  refuses _ := false
  movedAllocator := id
  movedElement _ := 0
  valueInitialised := 0

/-- An array is moved to an allocator that is not equal, and both arrays are destroyed. -/
theorem heapArray_sound_sticky :
    ∃ (w : World Bool StickyAlloc ℕ) (lists : Lists Bool StickyAlloc ℕ),
      w.memory.log.length = 12 ∧ Sound stickyTraits w lists := by
  have h₀ : Reaches stickyTraits (World.start : World Bool StickyAlloc ℕ) fun _ => none := .start
  have h₁ := h₀.call (.constructInitialiserList true [7, 8] ⟨1⟩) rfl (by decide +kernel)
  have h₂ := h₁.call (.moveConstructWith false true ⟨2⟩) ⟨rfl, rfl⟩ (by decide +kernel)
  have h₃ := h₂.call (.destruct true) rfl (by decide +kernel)
  have h₄ := h₃.call (.destruct false) rfl (by decide +kernel)
  exact ⟨_, _, by decide +kernel, heapArray_sound _ _ _ h₄⟩

end Runs

end Remmy.Collections
