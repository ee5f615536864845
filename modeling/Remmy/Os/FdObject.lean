import Remmy.Os.Fd
import Mathlib.Data.Fintype.Sigma
import Mathlib.Data.Fintype.Sum
import Mathlib.Tactic.DeriveFintype

/-!
# Objects of Type `Fd` and `std::optional<Fd>`

The member functions of `cutils::os::Fd` and of its niche-optimised `std::optional` as
short programs over the `fd_` of the objects they touch, temporaries included.  Any
number of threads run them on objects that one thread uses at a time.

- An object is a `Loc`: a named `Fd`, the `storage_` of a named `optional`, or a
  temporary of a thread.  `Cell` is what is there: the `fd_` of an `Fd`, or nothing.
- `Close()` calls `::close`, then `Pool::Release`, then resets `fd_`; a cell is `closed`
  between the first and the last of these.
- The pool is the one of `Fd.lean`, with all the steps of `Fd::Open` and `Pool`; the
  objects that it knows of itself are none (`Empty`).
- `Op.effect` says what each member function does to what is seen of the objects,
  `std::optional` with its usual meaning but for a moved-from one, which is disengaged.
-/

namespace Remmy.Os

universe u v w

variable {ι : Type u} {A : Type v} {O : Type w}

/-! ## Objects and memory -/

/-- `Fd::kInvalid`. -/
def kInvalid : ℤ := -1

/-- `Fd::kReserved`, which is `std::optional<Fd>::kDisengaged`. -/
def kReserved : ℤ := -2147483648

/-- A named object; as a reference to an `Fd`, an `optional` stands for its value. -/
inductive Obj (A : Type v) (O : Type w)
  | fd (a : A)
  | opt (o : O)
  deriving DecidableEq, Fintype

/-- A place where an `Fd` can be: a named object, or a temporary of a thread. -/
inductive Loc (ι : Type u) (A : Type v) (O : Type w)
  | obj (x : Obj A O)
  | temp (i : ι) (k : Fin 3)
  deriving DecidableEq, Fintype

/-- What is at a place: no object, or an `Fd` with its `fd_`. -/
inductive Cell
  | dead
  | live (fd : ℤ) (closed : Bool)
  deriving DecidableEq

namespace Cell

/-- `fd_`. -/
def fd : Cell → ℤ
  | dead => kInvalid
  | live v _ => v

/-- `Close()` has called `::close` and has not reset `fd_` yet. -/
def closed : Cell → Bool
  | dead => false
  | live _ c => c

/-- The object owns the descriptor `v`. -/
def Owns (c : Cell) (v : ℤ) : Prop := c = live v false ∧ 0 ≤ v

instance (c : Cell) (v : ℤ) : Decidable (c.Owns v) := inferInstanceAs (Decidable (_ ∧ _))

end Cell

/-- The memory of all objects. -/
abbrev Mem (ι : Type u) (A : Type v) (O : Type w) := Loc ι A O → Cell

/-! ## The pieces of the member functions -/

/-- A step of a member function on one or two objects. -/
inductive Instr (ι : Type u) (A : Type v) (O : Type w)
  /-- `Fd()` or `Fd(sentinel)`. -/
  | set (l : Loc ι A O) (v : ℤ)
  /-- `fd_(std::exchange(other.fd_, kInvalid))`, or the same as an assignment. -/
  | take (l other : Loc ι A O)
  /-- `Close()`. -/
  | close (l : Loc ι A O)
  /-- `Release()`. -/
  | release (l : Loc ι A O)
  /-- The end of the object's lifetime. -/
  | drop (l : Loc ι A O)

variable [DecidableEq ι] [DecidableEq A] [DecidableEq O]

/-- What a step leaves in memory once it is over. -/
def Instr.exec (m : Mem ι A O) : Instr ι A O → Mem ι A O
  | .set l v => Function.update m l (.live v false)
  | .take l other =>
    Function.update (Function.update m l (.live (m other).fd false)) other (.live kInvalid false)
  | .close l | .release l => Function.update m l (.live kInvalid false)
  | .drop l => Function.update m l .dead

/-- What a list of steps leaves in memory. -/
def execAll : List (Instr ι A O) → Mem ι A O → Mem ι A O
  | [], m => m
  | ins :: code, m => execAll code (ins.exec m)

/-- `Fd::operator=(Fd&&)`. -/
def moveAssign (l other : Loc ι A O) : List (Instr ι A O) :=
  if l = other then [] else [.close l, .take l other]

omit [DecidableEq ι] [DecidableEq A] [DecidableEq O] in
/-- `~Fd`. -/
def destroy (l : Loc ι A O) : List (Instr ι A O) := [.close l, .drop l]

/-- `l(std::exchange(obj, T{kDisengaged}))`, with the temporaries 0 and 1 of thread `i`: the
    new value, and the old one on its way out.  The new value lives on. -/
def exchange (i : ι) (l obj : Loc ι A O) : List (Instr ι A O) :=
  [.set (.temp i 0) kReserved, .take (.temp i 1) obj] ++ moveAssign obj (.temp i 0) ++
    [.take l (.temp i 1)] ++ destroy (.temp i 1)

/-! ## The member functions -/

/-- A call on named objects; `r` and `r'` are references to an `Fd`. -/
inductive Op (A : Type v) (O : Type w)
  /-- `Fd::Open`, whose result initialises `a`. -/
  | openFd (a : A)
  | fdDefault (a : A)
  | fdMove (a : A) (r : Obj A O)
  | fdAssign (r r' : Obj A O)
  | fdClose (r : Obj A O)
  | fdRelease (r : Obj A O)
  | fdDestroy (a : A)
  | optEmpty (o : O)
  | optInPlace (o : O)
  /-- Construction from an `Fd&&`, in place or converting. -/
  | optFromValue (o : O) (r : Obj A O)
  | optMove (o p : O)
  | optAssign (o p : O)
  /-- `operator=(U&&)`. -/
  | optSetValue (o : O) (r : Obj A O)
  | optEmplace (o : O) (r : Obj A O)
  | optEmplaceDefault (o : O)
  /-- `reset()` or `operator=(std::nullopt)`. -/
  | optReset (o : O)
  | optSwap (o p : O)
  /-- `Fd a = std::move(o).value_or(std::move(r))`. -/
  | valueOr (a : A) (o : O) (r : Obj A O)
  | optDestroy (o : O)

namespace Op

omit [DecidableEq A] [DecidableEq O] in
/-- The objects that a call names. -/
def objs : Op A O → List (Obj A O)
  | openFd a | fdDefault a | fdDestroy a => [.fd a]
  | fdMove a r => [.fd a, r]
  | fdAssign r r' => [r, r']
  | fdClose r | fdRelease r => [r]
  | optEmpty o | optInPlace o | optEmplaceDefault o | optReset o | optDestroy o => [.opt o]
  | optFromValue o r | optSetValue o r | optEmplace o r => [.opt o, r]
  | optMove o p | optAssign o p | optSwap o p => [.opt o, .opt p]
  | valueOr a o r => [.fd a, .opt o, r]

/-- `storage_ = T(...)` from the temporary 2 of thread `i`. -/
def assignTemp (i : ι) (o : O) : List (Instr ι A O) :=
  moveAssign (.obj (.opt o)) (.temp i 2) ++ destroy (.temp i 2)

/-- The steps of a call by thread `i`.  Those of `Fd::Open` up to `open_fn` are in the pool. -/
def code (i : ι) (m : Mem ι A O) : Op A O → List (Instr ι A O)
  | openFd _ => []
  | fdDefault a => [.set (.obj (.fd a)) kInvalid]
  | fdMove a r => [.take (.obj (.fd a)) (.obj r)]
  | fdAssign r r' => moveAssign (.obj r) (.obj r')
  | fdClose r => [.close (.obj r)]
  | fdRelease r => [.release (.obj r)]
  | fdDestroy a => destroy (.obj (.fd a))
  | optEmpty o => [.set (.obj (.opt o)) kReserved]
  | optInPlace o => [.set (.obj (.opt o)) kInvalid]
  | optFromValue o r => [.take (.obj (.opt o)) (.obj r)]
  | optMove o p => exchange i (.obj (.opt o)) (.obj (.opt p)) ++ destroy (.temp i 0)
  | optAssign o p =>
    if o = p then []
    else
      -- `storage_ = std::exchange(...)`: the result is the temporary 2
      exchange i (.temp i 2) (.obj (.opt p)) ++ assignTemp i o ++ destroy (.temp i 0)
  | optSetValue o r | optEmplace o r => [.take (.temp i 2) (.obj r)] ++ assignTemp i o
  | optEmplaceDefault o => [.set (.temp i 2) kInvalid] ++ assignTemp i o
  | optReset o => [.set (.temp i 2) kReserved] ++ assignTemp i o
  | optSwap o p =>
    -- `std::swap(storage_, other.storage_)`
    [.take (.temp i 2) (.obj (.opt o))] ++ moveAssign (.obj (.opt o)) (.obj (.opt p)) ++
      assignTemp i p
  | valueOr a o r =>
    if (m (.obj (.opt o))).fd ≠ kReserved then [.take (.obj (.fd a)) (.obj (.opt o))]
    else [.take (.obj (.fd a)) (.obj r)]
  | optDestroy o => destroy (.obj (.opt o))

/-- The steps of `Fd::Open` after `open_fn` has given a descriptor: the `Fd` of the
    `return` statement is moved into the result. -/
def claimed (i : ι) (a : A) : List (Instr ι A O) :=
  [.take (.obj (.fd a)) (.temp i 0)] ++ destroy (.temp i 0)

end Op

/-! ## What the calls are for -/

/-- What is seen of an object: an `Fd`, or the value of an `optional`, holds a descriptor
    or none. -/
inductive Seen
  | gone
  | disengaged
  | holds (descriptor : Option ℤ)
  deriving DecidableEq

/-- What is seen of all named objects. -/
abbrev View (A : Type v) (O : Type w) := Obj A O → Seen

/-- What is seen of a cell. -/
def Cell.seen : Cell → Seen
  | .dead => .gone
  | .live v _ =>
    if v = kReserved then .disengaged else .holds (if 0 ≤ v then some v else none)

omit [DecidableEq ι] [DecidableEq A] [DecidableEq O] in
/-- What is seen of memory. -/
def Mem.view (m : Mem ι A O) : View A O := fun x => (m (.obj x)).seen

namespace Op

/-- The value of `r` goes to `x`. -/
def moveValue (σ : View A O) (x r : Obj A O) : View A O :=
  Function.update (Function.update σ x (σ r)) r (.holds none)

/-- What a call does, for a `Fd::Open` that fails.  A moved-from `Fd` holds nothing, a
    moved-from `optional` is disengaged, and moving an object onto itself does nothing. -/
def effect (σ : View A O) : Op A O → View A O
  | openFd _ => σ
  | fdDefault a => Function.update σ (.fd a) (.holds none)
  | fdMove a r => moveValue σ (.fd a) r
  | fdAssign r r' => if r = r' then σ else moveValue σ r r'
  | fdClose r | fdRelease r => Function.update σ r (.holds none)
  | fdDestroy a => Function.update σ (.fd a) .gone
  | optEmpty o | optReset o => Function.update σ (.opt o) .disengaged
  | optInPlace o | optEmplaceDefault o => Function.update σ (.opt o) (.holds none)
  | optFromValue o r => moveValue σ (.opt o) r
  | optMove o p => Function.update (Function.update σ (.opt o) (σ (.opt p))) (.opt p) .disengaged
  | optAssign o p =>
    if o = p then σ
    else Function.update (Function.update σ (.opt o) (σ (.opt p))) (.opt p) .disengaged
  | optSetValue o r | optEmplace o r => if r = .opt o then σ else moveValue σ (.opt o) r
  | optSwap o p => Function.update (Function.update σ (.opt o) (σ (.opt p))) (.opt p) (σ (.opt o))
  | valueOr a o r => moveValue σ (.fd a) (if σ (.opt o) = .disengaged then r else .opt o)
  | optDestroy o => Function.update σ (.opt o) .gone

/-- `r` is a reference to an `Fd`. -/
def IsFd (σ : View A O) (r : Obj A O) : Prop := ∃ d, σ r = .holds d

/-- The call is on objects that are there, and constructs only what is not. -/
def Valid (σ : View A O) : Op A O → Prop
  | openFd a | fdDefault a => σ (.fd a) = .gone
  | fdMove a r => σ (.fd a) = .gone ∧ IsFd σ r
  | fdAssign r r' => IsFd σ r ∧ IsFd σ r'
  | fdClose r | fdRelease r => IsFd σ r
  | fdDestroy a => IsFd σ (.fd a)
  | optEmpty o | optInPlace o => σ (.opt o) = .gone
  | optFromValue o r => σ (.opt o) = .gone ∧ IsFd σ r
  | optMove o p => σ (.opt o) = .gone ∧ σ (.opt p) ≠ .gone
  | optAssign o p | optSwap o p => σ (.opt o) ≠ .gone ∧ σ (.opt p) ≠ .gone
  | optSetValue o r => σ (.opt o) ≠ .gone ∧ IsFd σ r
  -- the value of the `optional` itself ends before the new one is constructed
  | optEmplace o r => σ (.opt o) ≠ .gone ∧ IsFd σ r ∧ r ≠ .opt o
  | optEmplaceDefault o | optReset o | optDestroy o => σ (.opt o) ≠ .gone
  | valueOr a o r => σ (.fd a) = .gone ∧ σ (.opt o) ≠ .gone ∧ IsFd σ r

end Op

/-! ## Threads -/

/-- The pool, the kernel's table of descriptors, memory, and the threads. -/
structure ObjState (ι : Type u) (A : Type v) (O : Type w) where
  pool : FdState ι Empty
  /-- The process has the descriptor open. -/
  isOpen : ℤ → Bool
  mem : Mem ι A O
  /-- The call that a thread is in. -/
  op : ι → Option (Op A O)
  /-- What is left of it. -/
  code : ι → List (Instr ι A O)

/-- What a step shows. -/
inductive ObjEvent (ι : Type u) (A : Type v) (O : Type w)
  | call (i : ι) (op : Op A O)
  | opened (i : ι) (a : A) (v : ℤ)
  | closed (i : ι) (v : ℤ)
  | handedOff (i : ι) (v : ℤ)
  | pool (e : FdEvent ι Empty)
  | returned (i : ι)
  | internal

namespace ObjState

/-- A program with no objects yet, under some limits and with some descriptors open. -/
def initial (soft hard maxFiles : ℕ) (isOpen : ℤ → Bool) : ObjState ι A O where
  pool := .initial soft hard maxFiles
  isOpen := isOpen
  mem _ := .dead
  op _ := none
  code _ := []

/-- Thread `i` is in no call. -/
def Idle (s : ObjState ι A O) (i : ι) : Prop := s.pool.pc i = .idle ∧ s.op i = none

/-- No thread is in a call on `x`. -/
def Unused (s : ObjState ι A O) (x : Obj A O) : Prop := ∀ i op, s.op i = some op → x ∉ op.objs

/-- `has_value()`. -/
def hasValue (s : ObjState ι A O) (o : O) : Bool := (s.mem (.obj (.opt o))).fd ≠ kReserved

/-- Replace what is at one place. -/
def setMem (s : ObjState ι A O) (l : Loc ι A O) (c : Cell) : ObjState ι A O :=
  { s with mem := Function.update s.mem l c }

omit [DecidableEq A] [DecidableEq O] in
/-- Replace what is left of a call. -/
def setCode (s : ObjState ι A O) (i : ι) (code : List (Instr ι A O)) : ObjState ι A O :=
  { s with code := Function.update s.code i code }

section Fields

variable (s : ObjState ι A O) (i : ι) (l : Loc ι A O) (c : Cell) (code : List (Instr ι A O))

@[simp] theorem setMem_pool : (s.setMem l c).pool = s.pool := rfl

@[simp] theorem setMem_isOpen : (s.setMem l c).isOpen = s.isOpen := rfl

@[simp] theorem setMem_mem : (s.setMem l c).mem = Function.update s.mem l c := rfl

@[simp] theorem setMem_op : (s.setMem l c).op = s.op := rfl

@[simp] theorem setMem_code : (s.setMem l c).code = s.code := rfl

omit [DecidableEq A] [DecidableEq O] in
@[simp] theorem setCode_pool : (s.setCode i code).pool = s.pool := rfl

omit [DecidableEq A] [DecidableEq O] in
@[simp] theorem setCode_isOpen : (s.setCode i code).isOpen = s.isOpen := rfl

omit [DecidableEq A] [DecidableEq O] in
@[simp] theorem setCode_mem : (s.setCode i code).mem = s.mem := rfl

omit [DecidableEq A] [DecidableEq O] in
@[simp] theorem setCode_op : (s.setCode i code).op = s.op := rfl

omit [DecidableEq A] [DecidableEq O] in
@[simp] theorem setCode_code : (s.setCode i code).code = Function.update s.code i code := rfl

end Fields

end ObjState

/-- An atomic step of thread `i`, or of the program outside of these classes. -/
inductive ObjStep (i : ι) : ObjState ι A O → ObjEvent ι A O → ObjState ι A O → Prop
  | call {s : ObjState ι A O} (op : Op A O) : s.Idle i → (∀ a, op ≠ .openFd a) →
      op.Valid s.mem.view → (∀ x ∈ op.objs, s.Unused x) →
      ObjStep i s (.call i op)
        ({ s with op := Function.update s.op i (some op) }.setCode i (op.code i s.mem))
  /-- `Fd::Open` begins with its `Reserve`. -/
  | openFd {s : ObjState ι A O} (a : A) {pool : FdState ι Empty} : s.Idle i →
      (Op.openFd a).Valid s.mem.view → s.Unused (.fd a) → FdStep i s.pool (.reserve i) pool →
      ObjStep i s (.call i (.openFd a))
        { s with pool := pool, op := Function.update s.op i (some (.openFd a)) }
  /-- A step of the pool: in `RaiseIfNeeded`, `Refused`, `~Reservation` or `Release`, an
      `open_fn` that fails, or a query. -/
  | pool {s : ObjState ι A O} {e : FdEvent ι Empty} {pool : FdState ι Empty} :
      FdStep i s.pool e pool → e ≠ .reserve i → (s.pool.pc i = .idle → s.op i = none) →
      ObjStep i s (.pool e) { s with pool := pool }
  /-- `open_fn` gives a descriptor: `Claim` it. -/
  | opened {s : ObjState ι A O} {a : A} {before : Leases} (v : ℤ) : s.pool.pc i = .opening before →
      s.op i = some (.openFd a) → s.code i = [] → 0 ≤ v → s.isOpen v = false →
      ObjStep i s (.opened i a v)
        (({ s with pool := s.pool.setPc i .idle, isOpen := Function.update s.isOpen v true }.setMem
          (.temp i 0) (.live v false)).setCode i (Op.claimed i a))
  | exec {s : ObjState ι A O} {ins : Instr ι A O} {code : List (Instr ι A O)} :
      s.pool.pc i = .idle → s.code i = ins :: code → (∀ l, ins ≠ .close l ∧ ins ≠ .release l) →
      ObjStep i s .internal ({ s with mem := ins.exec s.mem }.setCode i code)
  /-- `Close()` of an open descriptor: `::close`, and on to `Pool::Release`. -/
  | close {s : ObjState ι A O} {l : Loc ι A O} {code : List (Instr ι A O)} {v : ℤ} :
      s.pool.pc i = .idle → s.code i = .close l :: code → (s.mem l).Owns v →
      ObjStep i s (.closed i v)
        ({ s with pool := s.pool.setPc i (.closing v.toNat),
                  isOpen := Function.update s.isOpen v false }.setMem l (.live v true))
  /-- `Close()` ends, with nothing to close or after its `Pool::Release`. -/
  | closeDone {s : ObjState ι A O} {l : Loc ι A O} {code : List (Instr ι A O)} :
      s.pool.pc i = .idle → s.code i = .close l :: code → (∀ v, ¬(s.mem l).Owns v) →
      ObjStep i s .internal ((s.setMem l (.live kInvalid false)).setCode i code)
  /-- `Release()` of an open descriptor: `Pool::Forget`. -/
  | release {s : ObjState ι A O} {l : Loc ι A O} {code : List (Instr ι A O)} {v : ℤ} :
      s.pool.pc i = .idle → s.code i = .release l :: code → (s.mem l).Owns v →
      ObjStep i s (.handedOff i v)
        (({ s with pool := s.pool.addLeases (-kAcquire) }.setMem l (.live kInvalid false)).setCode
          i code)
  | releaseNone {s : ObjState ι A O} {l : Loc ι A O} {code : List (Instr ι A O)} :
      s.pool.pc i = .idle → s.code i = .release l :: code → (∀ v, ¬(s.mem l).Owns v) →
      ObjStep i s .internal ((s.setMem l (.live kInvalid false)).setCode i code)
  | returned {s : ObjState ι A O} {op : Op A O} : s.pool.pc i = .idle → s.op i = some op →
      s.code i = [] → ObjStep i s (.returned i) { s with op := Function.update s.op i none }
  /-- The program opens or closes a descriptor that no `Fd` owns. -/
  | outside {s : ObjState ι A O} {v : ℤ} (b : Bool) : (∀ l, ¬(s.mem l).Owns v) →
      ObjStep i s .internal { s with isOpen := Function.update s.isOpen v b }

/-- All threads from the start of the program, in any interleaving. -/
def objSystem (ι : Type u) (A : Type v) (O : Type w) [DecidableEq ι] [DecidableEq A]
    [DecidableEq O] : Lib.System (ObjState ι A O) (ObjEvent ι A O) where
  init s := ∃ soft hard maxFiles isOpen, s = .initial soft hard maxFiles isOpen
  step s e s' := ∃ i, ObjStep i s e s'

end Remmy.Os
