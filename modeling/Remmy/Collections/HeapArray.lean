import Mathlib.Algebra.Group.Nat.Defs
import Remmy.Lib.BlockMemory
import Remmy.Lib.Program

/-!
# HeapArray

The constructors, assignments, `swap` and destructor of `cutils::HeapArray`, over any allocator
and any elements whose own operations do not fail.

- An array is an object under a name `ι`; a member function works on the objects under the names
  it is given, so that assigning an array to itself is to give one name twice.
- Allocators are compared with `≈`.
- What the language does not define (a null or dangling pointer, a second destruction, storage
  that is given back as it was not allocated) has no outcome.
-/

namespace Remmy.Collections

open Remmy.Lib

/-- What `std::allocator_traits` knows of the allocator, and what moving leaves behind. -/
structure AllocTraits (A T : Type) where
  selectOnContainerCopyConstruction : A → A
  propagateOnContainerCopyAssignment : Bool
  propagateOnContainerMoveAssignment : Bool
  propagateOnContainerSwap : Bool
  maxSize : A → ℕ
  /-- Whether the call of `allocate` with this number throws. -/
  refuses : ℕ → Bool
  /-- The allocator after it was moved from. -/
  movedAllocator : A → A
  /-- The element after it was moved from. -/
  movedElement : T → T
  /-- A value-initialised element. -/
  valueInitialised : T

/-- The members of a `HeapArray`. -/
structure HeapArray (A : Type) where
  data : Option ℕ
  size : ℕ
  alloc : A

/-- What a member function may throw. -/
inductive Exception
  | lengthError
  | badAlloc

/-- The memory, the arrays that exist, and how often `allocate` was called. -/
structure World (ι A T : Type) [Setoid A] where
  memory : Memory A T
  array : ι → Option (HeapArray A)
  calls : ℕ

/-- What runs in a world of arrays. -/
abbrev Action (ι A T : Type) [Setoid A] (α : Type) := Program Exception (World ι A T) α

section Pointers

variable {ι A T : Type} [Setoid A]

/-- Do something to the memory. -/
def onMemory (f : Memory A T → Option (Memory A T)) : Action ι A T Unit :=
  Program.change fun w => (f w.memory).map fun m => { w with memory := m }

/-- `*(raw + i)`. -/
def load (raw : Option ℕ) (i : ℕ) : Action ι A T T :=
  Program.read fun w => raw.bind fun p => w.memory.load p i

/-- `construct(a, raw + i, x)`. -/
def construct (raw : Option ℕ) (i : ℕ) (x : T) : Action ι A T Unit :=
  onMemory fun m => raw.bind fun p => m.construct p i x

/-- `*(raw + i) = x`. -/
def store (raw : Option ℕ) (i : ℕ) (x : T) : Action ι A T Unit :=
  onMemory fun m => raw.bind fun p => m.store p i x

/-- `destroy(a, raw + i)`. -/
def destroy (raw : Option ℕ) (i : ℕ) : Action ι A T Unit :=
  onMemory fun m => raw.bind fun p => m.destroy p i

/-- `deallocate(a, raw, n)`. -/
def deallocate [DecidableRel ((· ≈ ·) : A → A → Prop)] (a : A) (raw : Option ℕ) (n : ℕ) :
    Action ι A T Unit :=
  onMemory fun m => raw.bind fun p => m.deallocate a p n

/-- `allocate(a, n)`. -/
def allocate (traits : AllocTraits A T) (a : A) (n : ℕ) : Action ι A T (Option ℕ) := do
  let call ← Program.read fun w => some w.calls
  Program.change fun w => some { w with calls := call + 1 }
  if traits.refuses call then
    throw .badAlloc
  else
    let p ← Program.read fun w => some w.memory.next
    Program.change fun w => some { w with memory := w.memory.allocate a n }
    pure (some p)

end Pointers

section Objects

variable {ι A T : Type} [Setoid A] [DecidableEq ι]

/-- The members of an array that exists. -/
def deref (this : ι) : Action ι A T (HeapArray A) := Program.read fun w => w.array this

/-- Assign to members of an array that exists. -/
def assign (this : ι) (f : HeapArray A → HeapArray A) : Action ι A T Unit :=
  Program.change fun w => (w.array this).map fun h =>
    { w with array := Function.update w.array this (some (f h)) }

/-- A constructor has returned: there is an array where there was none. -/
def emplace (this : ι) (h : HeapArray A) : Action ι A T Unit :=
  Program.change fun w =>
    match w.array this with
    | none => some { w with array := Function.update w.array this (some h) }
    | some _ => none

/-- A destructor has returned. -/
def vanish (this : ι) : Action ι A T Unit :=
  Program.change fun w => (w.array this).map fun _ =>
    { w with array := Function.update w.array this none }

end Objects

namespace HeapArray

variable {ι A T : Type} [Setoid A] [DecidableRel ((· ≈ ·) : A → A → Prop)] [DecidableEq ι]
  (traits : AllocTraits A T)

/-! ## Storage -/

/-- `MaxSize`; the largest `difference_type` is the other bound. -/
def maxSize (a : A) : ℕ := min (traits.maxSize a) (2 ^ 63 - 1)

/-- `AllocateBlock` -/
def allocateBlock (a : A) (n : ℕ) : Action ι A T (Option ℕ) :=
  if n = 0 then pure none else allocate traits a n

/-- `BuildBlock`; `init raw i` makes the element at `raw + i`. -/
def buildBlock (a : A) (n : ℕ) (init : Option ℕ → ℕ → Action ι A T Unit) :
    Action ι A T (Option ℕ) :=
  if n = 0 then pure none
  else if maxSize traits a < n then throw .lengthError
  else do
    let p ← allocateBlock traits a n
    Program.forUp (init p) n
    pure p

/-- `DestroyAndDeallocate` -/
def destroyAndDeallocate (this : ι) : Action ι A T Unit := do
  let h ← deref this
  if h.size = 0 then pure ()
  else
    Program.forDown (destroy h.data) h.size
    deallocate h.alloc h.data h.size

/-- An element from an iterator that began at the first of `values`. -/
def fromIterator (values : List T) (raw : Option ℕ) (i : ℕ) : Action ι A T Unit := do
  let x ← Program.read fun _ => values[i]?
  construct raw i x

/-- A copy of the element at `src + i`. -/
def copyElement (src raw : Option ℕ) (i : ℕ) : Action ι A T Unit := do
  let x ← load src i
  construct raw i x

/-- The element at `src + i`, moved. -/
def moveElement (src raw : Option ℕ) (i : ℕ) : Action ι A T Unit := do
  let x ← load src i
  construct raw i x
  store src i (traits.movedElement x)

/-! ## Constructors and the destructor -/

/-- A constructor that builds its elements. -/
def construct (this : ι) (a : A) (n : ℕ) (init : Option ℕ → ℕ → Action ι A T Unit) :
    Action ι A T Unit := do
  let data ← buildBlock traits a n init
  emplace this { data := data, size := n, alloc := a }

/-- `HeapArray(alloc)` -/
def constructEmpty (this : ι) (a : A) : Action ι A T Unit :=
  emplace this { data := none, size := 0, alloc := a }

/-- `HeapArray(count, alloc)` -/
def constructCount (this : ι) (count : ℕ) (a : A) : Action ι A T Unit :=
  construct traits this a count fun raw i => Collections.construct raw i traits.valueInitialised

/-- `HeapArray(for_overwrite, count, alloc)`; an element has the value that its memory happens to
    have. -/
def constructForOverwrite (this : ι) (count : ℕ) (garbage : ℕ → T) (a : A) : Action ι A T Unit :=
  construct traits this a count fun raw i => Collections.construct raw i (garbage i)

/-- `HeapArray(count, value, alloc)` -/
def constructValue (this : ι) (count : ℕ) (value : T) (a : A) : Action ι A T Unit :=
  construct traits this a count fun raw i => Collections.construct raw i value

/-- `HeapArray(first, last, alloc)` -/
def constructIterators (this : ι) (range : List T) (a : A) : Action ι A T Unit :=
  construct traits this a range.length (fromIterator range)

/-- `HeapArray(from_range, range, alloc)` -/
def constructFromRange (this : ι) (range : List T) (a : A) : Action ι A T Unit :=
  construct traits this a range.length (fromIterator range)

/-- `HeapArray(init, alloc)` -/
def constructInitialiserList (this : ι) (init : List T) (a : A) : Action ι A T Unit :=
  construct traits this a init.length (fromIterator init)

/-- `HeapArray(const HeapArray& other)` -/
def copyConstruct (this other : ι) : Action ι A T Unit := do
  let o ← deref other
  construct traits this (traits.selectOnContainerCopyConstruction o.alloc) o.size
    (copyElement o.data)

/-- `HeapArray(const HeapArray& other, const Allocator& alloc)` -/
def copyConstructWith (this other : ι) (a : A) : Action ι A T Unit := do
  let o ← deref other
  construct traits this a o.size (copyElement o.data)

/-- `HeapArray(HeapArray&& other)` -/
def moveConstruct (this other : ι) : Action ι A T Unit := do
  let o ← deref other
  assign other fun _ => { data := none, size := 0, alloc := traits.movedAllocator o.alloc }
  emplace this o

/-- `HeapArray(HeapArray&& other, const Allocator& alloc)` -/
def moveConstructWith (this other : ι) (a : A) : Action ι A T Unit := do
  let o ← deref other
  if a ≈ o.alloc then
    assign other fun o => { o with data := none, size := 0 }
    emplace this { data := o.data, size := o.size, alloc := a }
  else
    construct traits this a o.size (moveElement traits o.data)

/-- `~HeapArray()` -/
def destruct (this : ι) : Action ι A T Unit := do
  destroyAndDeallocate this
  vanish this

/-! ## Assignments and `swap` -/

/-- `operator=(const HeapArray& other)` -/
def copyAssign (this other : ι) : Action ι A T Unit := do
  if this = other then pure ()
  else
    let h ← deref this
    let o ← deref other
    if traits.propagateOnContainerCopyAssignment ∧ ¬ h.alloc ≈ o.alloc then
      let p ← buildBlock traits o.alloc o.size (copyElement o.data)
      destroyAndDeallocate this
      assign this fun h => { h with data := p, size := o.size }
      assign this fun h => { h with alloc := o.alloc }
    else
      let p ← buildBlock traits h.alloc o.size (copyElement o.data)
      destroyAndDeallocate this
      assign this fun h => { h with data := p, size := o.size }
      if traits.propagateOnContainerCopyAssignment then
        assign this fun h => { h with alloc := o.alloc }
      else pure ()

/-- `operator=(HeapArray&& other)` -/
def moveAssign (this other : ι) : Action ι A T Unit := do
  if this = other then pure ()
  else
    let h ← deref this
    let o ← deref other
    if traits.propagateOnContainerMoveAssignment then
      destroyAndDeallocate this
      assign this fun h => { h with alloc := o.alloc }
      assign other fun o => { o with alloc := traits.movedAllocator o.alloc }
      assign this fun h => { h with data := o.data, size := o.size }
      assign other fun o => { o with data := none, size := 0 }
    else if h.alloc ≈ o.alloc then
      destroyAndDeallocate this
      assign this fun h => { h with data := o.data, size := o.size }
      assign other fun o => { o with data := none, size := 0 }
    else
      let p ← buildBlock traits h.alloc o.size (moveElement traits o.data)
      destroyAndDeallocate this
      assign this fun h => { h with data := p, size := o.size }
      destroyAndDeallocate other
      assign other fun o => { o with data := none, size := 0 }

/-- `operator=(std::initializer_list<T> init)` -/
def initialiserListAssign (this : ι) (init : List T) : Action ι A T Unit := do
  let h ← deref this
  let p ← buildBlock traits h.alloc init.length (fromIterator init)
  destroyAndDeallocate this
  assign this fun h => { h with data := p, size := init.length }

/-- `swap(other)` -/
def swap (this other : ι) : Action ι A T Unit := do
  let h ← deref this
  let o ← deref other
  assign this fun h => { h with data := o.data, size := o.size }
  assign other fun o => { o with data := h.data, size := h.size }
  if traits.propagateOnContainerSwap then
    assign this fun x => { x with alloc := o.alloc }
    assign other fun x => { x with alloc := h.alloc }
  else pure ()

end HeapArray

/-! ## What a program does with arrays -/

/-- A call of a member function. -/
inductive Op (ι A T : Type)
  | constructEmpty (this : ι) (a : A)
  | constructCount (this : ι) (count : ℕ) (a : A)
  | constructForOverwrite (this : ι) (count : ℕ) (garbage : ℕ → T) (a : A)
  | constructValue (this : ι) (count : ℕ) (value : T) (a : A)
  | constructIterators (this : ι) (range : List T) (a : A)
  | constructFromRange (this : ι) (range : List T) (a : A)
  | constructInitialiserList (this : ι) (init : List T) (a : A)
  | copyConstruct (this other : ι)
  | copyConstructWith (this other : ι) (a : A)
  | moveConstruct (this other : ι)
  | moveConstructWith (this other : ι) (a : A)
  | destruct (this : ι)
  | copyAssign (this other : ι)
  | moveAssign (this other : ι)
  | initialiserListAssign (this : ι) (init : List T)
  | swap (this other : ι)

/-- Make the call. -/
def Op.run {ι A T : Type} [Setoid A] [DecidableRel ((· ≈ ·) : A → A → Prop)] [DecidableEq ι]
    (traits : AllocTraits A T) : Op ι A T → Action ι A T Unit
  | constructEmpty this a => HeapArray.constructEmpty this a
  | constructCount this count a => HeapArray.constructCount traits this count a
  | constructForOverwrite this count garbage a =>
      HeapArray.constructForOverwrite traits this count garbage a
  | constructValue this count value a => HeapArray.constructValue traits this count value a
  | constructIterators this range a => HeapArray.constructIterators traits this range a
  | constructFromRange this range a => HeapArray.constructFromRange traits this range a
  | constructInitialiserList this init a => HeapArray.constructInitialiserList traits this init a
  | copyConstruct this other => HeapArray.copyConstruct traits this other
  | copyConstructWith this other a => HeapArray.copyConstructWith traits this other a
  | moveConstruct this other => HeapArray.moveConstruct traits this other
  | moveConstructWith this other a => HeapArray.moveConstructWith traits this other a
  | destruct this => HeapArray.destruct this
  | copyAssign this other => HeapArray.copyAssign traits this other
  | moveAssign this other => HeapArray.moveAssign traits this other
  | initialiserListAssign this init => HeapArray.initialiserListAssign traits this init
  | swap this other => HeapArray.swap traits this other

end Remmy.Collections
