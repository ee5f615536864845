import Remmy.Lib.System
import Remmy.Os.Errno
import Mathlib.Logic.Function.Basic

/-!
# File Descriptors and Their Leases

`cutils::os::Fd` over `cutils::os::limits::fd::Pool`, used by any number of threads.  A
step is one atomic operation of one thread: an access to one of the pool's atomics, or
one system call.

- `open_fn` may give any descriptor or any error; the kernel may refuse at will.
- A descriptor is known by the number of opens that had succeeded before its own; its
  `int` plays no role.
- `F` are the objects of type `Fd`; an object that holds no descriptor is `none`.
-/

namespace Remmy.Os

universe u v

variable {ι : Type u} {F : Type v}

/-! ## AtomicLeases -/

/-- `Leases`: leased descriptors, and how many have been released so far. -/
structure Leases where
  live : BitVec 32
  epoch : BitVec 32
  deriving DecidableEq

/-- `AtomicLeases::Unpack`. -/
def Leases.unpack (bits : BitVec 64) : Leases where
  live := bits.setWidth 32
  epoch := (bits >>> 32).setWidth 32

/-- `kAcquire`. -/
def kAcquire : BitVec 64 := 1

/-- `kRelease`: one lease less, one epoch more. -/
def kRelease : BitVec 64 := (1 <<< 32) - kAcquire

/-- The verdict of `Reservation::Refused` on the leases it reads last. -/
def Leases.retry (before now : Leases) : Bool :=
  now.live ≠ 0 || now.epoch ≠ before.epoch

/-! ## Program counters -/

/-- Where a `CapacityImpl()` stands. -/
inductive CapacityPc
  | load
  | get
  | store (cached : ℕ)

/-- Where a thread stands: in `Reserve` up to `opening`, in `Fd::Open` after a failed
    `open_fn` up to `loadLeases`, in `Close`, or in a query of the pool. -/
inductive FdPc
  | idle
  | capacity (before : Leases) (c : CapacityPc)
  | checkRaise (before : Leases) (capacity : ℕ)
  | setMax (before : Leases)
  | setLimit (before : Leases) (target : ℕ)
  | storeCapacity (before : Leases) (raised : ℕ)
  | storeCeiling (before : Leases)
  | opening (before : Leases)
  | dropReservation (code : Errno)
  | forget (before : Leases) (code : Errno)
  | loadCeiling (before : Leases) (code : Errno)
  | casCeiling (before : Leases) (code : Errno) (ceiling : ℕ)
  | loadLeases (before : Leases) (code : Errno)
  | closing (descriptor : ℕ)
  | readCapacity (c : CapacityPc)
  | exhausted (ceiling : ℕ)

/-- The pool's atomics, the kernel's limits, the `Fd` objects and the threads. -/
structure FdState (ι : Type u) (F : Type v) where
  leases : BitVec 64
  knownCapacity : ℕ
  observedCeiling : ℕ
  raiseAttempted : Bool
  /-- `rlim_cur` and `rlim_max` of `RLIMIT_NOFILE`. -/
  soft : ℕ
  hard : ℕ
  /-- `MaxFilesPerProc()`. -/
  maxFiles : ℕ
  fd : F → Option ℕ
  /-- How many opens have succeeded. -/
  opened : ℕ
  pc : ι → FdPc

/-- What a step shows. -/
inductive FdEvent (ι : Type u) (F : Type v)
  | reserve (i : ι)
  | opened (i : ι) (f : F) (descriptor : ℕ)
  | failed (i : ι) (code : Errno)
  | refused (i : ι) (code : Errno)
  | returned (i : ι) (error : OpenError)
  | closed (i : ι) (f : F) (descriptor : ℕ)
  | released (i : ι) (descriptor : ℕ)
  | handedOff (i : ι) (f : F) (descriptor : ℕ)
  | moved (i : ι) (f g : F)
  | capacityRead (i : ι) (capacity : ℕ)
  | exhaustedRead (i : ι) (answer : Bool)
  | internal

/-- A program that has opened nothing yet, under some limits. -/
def FdState.initial (soft hard maxFiles : ℕ) : FdState ι F where
  leases := 0
  knownCapacity := 0
  observedCeiling := 0
  raiseAttempted := false
  soft := soft
  hard := hard
  maxFiles := maxFiles
  fd _ := none
  opened := 0
  pc _ := .idle

/-- One atomic step of `CapacityImpl`: the new value of `known_capacity`, and where the
    call stands or what it returns.  A failing `Get()` counts as 0. -/
inductive CapacityStep (known soft maxFiles : ℕ) : CapacityPc → ℕ → CapacityPc ⊕ ℕ → Prop
  | cached : known ≠ 0 → CapacityStep known soft maxFiles .load known (.inr known)
  | unknown : known = 0 → CapacityStep known soft maxFiles .load known (.inl .get)
  | get : CapacityStep known soft maxFiles .get known (.inl (.store (min soft maxFiles)))
  | getFailed : CapacityStep known soft maxFiles .get known (.inl (.store 0))
  | store {cached : ℕ} : CapacityStep known soft maxFiles (.store cached) cached (.inr cached)

/-- `kRaiseAtPercent`. -/
def kRaiseAtPercent : ℕ := 50

/-- `capacity == 0 || live * 100 < capacity * kRaiseAtPercent` in 64-bit arithmetic, for
    `live = before.live + 1`. -/
def belowRaise (before : Leases) (capacity : ℕ) : Bool :=
  capacity = 0 || (before.live.toNat + 1) * 100 % 2 ^ 64 < capacity * kRaiseAtPercent % 2 ^ 64

/-- The test of the loop in `Refused` that lowers the ceiling to `held`. -/
def lowersCeiling (held ceiling : ℕ) : Bool :=
  ceiling = 0 || held < ceiling

variable [DecidableEq ι] [DecidableEq F]

namespace FdState

/-- Replace where one thread stands. -/
def setPc (s : FdState ι F) (i : ι) (pc : FdPc) : FdState ι F :=
  { s with pc := Function.update s.pc i pc }

/-- Add to the lease word. -/
def addLeases (s : FdState ι F) (n : BitVec 64) : FdState ι F :=
  { s with leases := s.leases + n }

/-- Replace what one `Fd` holds. -/
def setFd (s : FdState ι F) (f : F) (d : Option ℕ) : FdState ι F :=
  { s with fd := Function.update s.fd f d }

section Fields

variable (s : FdState ι F)

omit [DecidableEq F] in
@[simp] theorem setPc_leases (i : ι) (pc : FdPc) : (s.setPc i pc).leases = s.leases := rfl

omit [DecidableEq F] in
@[simp] theorem setPc_fd (i : ι) (pc : FdPc) : (s.setPc i pc).fd = s.fd := rfl

omit [DecidableEq F] in
@[simp] theorem setPc_opened (i : ι) (pc : FdPc) : (s.setPc i pc).opened = s.opened := rfl

omit [DecidableEq F] in
@[simp] theorem setPc_knownCapacity (i : ι) (pc : FdPc) :
    (s.setPc i pc).knownCapacity = s.knownCapacity := rfl

omit [DecidableEq F] in
@[simp] theorem setPc_observedCeiling (i : ι) (pc : FdPc) :
    (s.setPc i pc).observedCeiling = s.observedCeiling := rfl

omit [DecidableEq F] in
@[simp] theorem setPc_raiseAttempted (i : ι) (pc : FdPc) :
    (s.setPc i pc).raiseAttempted = s.raiseAttempted := rfl

omit [DecidableEq F] in
@[simp] theorem setPc_soft (i : ι) (pc : FdPc) : (s.setPc i pc).soft = s.soft := rfl

omit [DecidableEq F] in
@[simp] theorem setPc_hard (i : ι) (pc : FdPc) : (s.setPc i pc).hard = s.hard := rfl

omit [DecidableEq F] in
@[simp] theorem setPc_maxFiles (i : ι) (pc : FdPc) : (s.setPc i pc).maxFiles = s.maxFiles := rfl

omit [DecidableEq F] in
@[simp] theorem setPc_self (i : ι) (pc : FdPc) : (s.setPc i pc).pc i = pc :=
  Function.update_self ..

omit [DecidableEq F] in
theorem setPc_of_ne {i j : ι} (pc : FdPc) (hj : j ≠ i) : (s.setPc i pc).pc j = s.pc j :=
  Function.update_of_ne hj _ _

omit [DecidableEq ι] in
@[simp] theorem setFd_self (f : F) (d : Option ℕ) : (s.setFd f d).fd f = d :=
  Function.update_self ..

omit [DecidableEq ι] in
theorem setFd_of_ne {f g : F} (d : Option ℕ) (hg : g ≠ f) : (s.setFd f d).fd g = s.fd g :=
  Function.update_of_ne hg _ _

omit [DecidableEq ι] in
@[simp] theorem setFd_pc (f : F) (d : Option ℕ) : (s.setFd f d).pc = s.pc := rfl

omit [DecidableEq ι] in
@[simp] theorem setFd_raiseAttempted (f : F) (d : Option ℕ) :
    (s.setFd f d).raiseAttempted = s.raiseAttempted := rfl

omit [DecidableEq ι] in
@[simp] theorem setFd_soft (f : F) (d : Option ℕ) : (s.setFd f d).soft = s.soft := rfl

omit [DecidableEq ι] in
@[simp] theorem setFd_hard (f : F) (d : Option ℕ) : (s.setFd f d).hard = s.hard := rfl

omit [DecidableEq ι] in
@[simp] theorem setFd_maxFiles (f : F) (d : Option ℕ) : (s.setFd f d).maxFiles = s.maxFiles := rfl

omit [DecidableEq ι] in
@[simp] theorem setFd_knownCapacity (f : F) (d : Option ℕ) :
    (s.setFd f d).knownCapacity = s.knownCapacity := rfl

omit [DecidableEq ι] in
@[simp] theorem setFd_observedCeiling (f : F) (d : Option ℕ) :
    (s.setFd f d).observedCeiling = s.observedCeiling := rfl

omit [DecidableEq ι] in
@[simp] theorem setFd_leases (f : F) (d : Option ℕ) : (s.setFd f d).leases = s.leases := rfl

omit [DecidableEq ι] [DecidableEq F] in
@[simp] theorem addLeases_pc (n : BitVec 64) : (s.addLeases n).pc = s.pc := rfl

omit [DecidableEq ι] [DecidableEq F] in
@[simp] theorem addLeases_fd (n : BitVec 64) : (s.addLeases n).fd = s.fd := rfl

omit [DecidableEq ι] [DecidableEq F] in
@[simp] theorem addLeases_knownCapacity (n : BitVec 64) :
    (s.addLeases n).knownCapacity = s.knownCapacity := rfl

omit [DecidableEq ι] [DecidableEq F] in
@[simp] theorem addLeases_observedCeiling (n : BitVec 64) :
    (s.addLeases n).observedCeiling = s.observedCeiling := rfl

omit [DecidableEq ι] [DecidableEq F] in
@[simp] theorem addLeases_opened (n : BitVec 64) : (s.addLeases n).opened = s.opened := rfl

omit [DecidableEq ι] [DecidableEq F] in
@[simp] theorem addLeases_raiseAttempted (n : BitVec 64) :
    (s.addLeases n).raiseAttempted = s.raiseAttempted := rfl

omit [DecidableEq ι] [DecidableEq F] in
@[simp] theorem addLeases_soft (n : BitVec 64) : (s.addLeases n).soft = s.soft := rfl

omit [DecidableEq ι] [DecidableEq F] in
@[simp] theorem addLeases_hard (n : BitVec 64) : (s.addLeases n).hard = s.hard := rfl

omit [DecidableEq ι] [DecidableEq F] in
@[simp] theorem addLeases_maxFiles (n : BitVec 64) : (s.addLeases n).maxFiles = s.maxFiles := rfl

omit [DecidableEq ι] [DecidableEq F] in
@[simp] theorem addLeases_leases (n : BitVec 64) : (s.addLeases n).leases = s.leases + n := rfl

end Fields

-- The lease word is reasoned about as a sum, never by unfolding 64-bit additions.
attribute [irreducible] addLeases

end FdState

/-! ## Steps -/

/-- An atomic step of thread `i`. -/
inductive FdStep (i : ι) : FdState ι F → FdEvent ι F → FdState ι F → Prop
  /-- `Pool::Reserve`: `fetch_add(kAcquire)`, into `RaiseIfNeeded`. -/
  | reserve {s : FdState ι F} : s.pc i = .idle →
      FdStep i s (.reserve i)
        ((s.addLeases kAcquire).setPc i (.capacity (.unpack s.leases) .load))
  | capacityStep {s : FdState ι F} {before : Leases} {c c' : CapacityPc} {known : ℕ} :
      s.pc i = .capacity before c →
      CapacityStep s.knownCapacity s.soft s.maxFiles c known (.inl c') →
      FdStep i s .internal ({ s with knownCapacity := known }.setPc i (.capacity before c'))
  | capacityDone {s : FdState ι F} {before : Leases} {c : CapacityPc} {known capacity : ℕ} :
      s.pc i = .capacity before c →
      CapacityStep s.knownCapacity s.soft s.maxFiles c known (.inr capacity) →
      FdStep i s .internal ({ s with knownCapacity := known }.setPc i (.checkRaise before capacity))
  | noRaise {s : FdState ι F} {before : Leases} {capacity : ℕ} :
      s.pc i = .checkRaise before capacity →
      (belowRaise before capacity = true ∨ s.raiseAttempted = true) →
      FdStep i s .internal (s.setPc i (.opening before))
  /-- `raise_attempted.test_and_set` by the first thread to get there. -/
  | raise {s : FdState ι F} {before : Leases} {capacity : ℕ} :
      s.pc i = .checkRaise before capacity → belowRaise before capacity = false →
      s.raiseAttempted = false →
      FdStep i s .internal ({ s with raiseAttempted := true }.setPc i (.setMax before))
  | setMax {s : FdState ι F} {before : Leases} : s.pc i = .setMax before →
      FdStep i s .internal (s.setPc i (.setLimit before (min s.hard s.maxFiles)))
  | setMaxFailed {s : FdState ι F} {before : Leases} : s.pc i = .setMax before →
      FdStep i s .internal (s.setPc i (.opening before))
  | setLimit {s : FdState ι F} {before : Leases} {target : ℕ} : s.pc i = .setLimit before target →
      FdStep i s .internal ({ s with soft := target }.setPc i (.storeCapacity before target))
  | setLimitFailed {s : FdState ι F} {before : Leases} {target : ℕ} :
      s.pc i = .setLimit before target →
      FdStep i s .internal (s.setPc i (.opening before))
  | storeCapacity {s : FdState ι F} {before : Leases} {raised : ℕ} :
      s.pc i = .storeCapacity before raised →
      FdStep i s .internal ({ s with knownCapacity := raised }.setPc i (.storeCeiling before))
  | storeCeiling {s : FdState ι F} {before : Leases} : s.pc i = .storeCeiling before →
      FdStep i s .internal ({ s with observedCeiling := 0 }.setPc i (.opening before))
  /-- `open_fn()` gave a descriptor: `Claim` it for a fresh `Fd`. -/
  | opened {s : FdState ι F} {before : Leases} (f : F) : s.pc i = .opening before →
      s.fd f = none →
      FdStep i s (.opened i f s.opened)
        (({ s with opened := s.opened + 1 }.setFd f (some s.opened)).setPc i .idle)
  | failed {s : FdState ι F} {before : Leases} (code : Errno) : s.pc i = .opening before →
      code.outOfDescriptors = false →
      FdStep i s (.failed i code) (s.setPc i (.dropReservation code))
  | refused {s : FdState ι F} {before : Leases} (code : Errno) : s.pc i = .opening before →
      code.outOfDescriptors = true →
      FdStep i s (.refused i code) (s.setPc i (.forget before code))
  /-- `~Reservation`: `fetch_sub(kAcquire)`. -/
  | dropReservation {s : FdState ι F} {code : Errno} : s.pc i = .dropReservation code →
      FdStep i s (.returned i ⟨code, false⟩) ((s.addLeases (-kAcquire)).setPc i .idle)
  /-- `Reservation::Refused`: `fetch_sub(kAcquire)` first. -/
  | forget {s : FdState ι F} {before : Leases} {code : Errno} : s.pc i = .forget before code →
      FdStep i s .internal ((s.addLeases (-kAcquire)).setPc i
        (if before.live ≠ 0 then .loadCeiling before code else .loadLeases before code))
  | loadCeiling {s : FdState ι F} {before : Leases} {code : Errno} :
      s.pc i = .loadCeiling before code →
      FdStep i s .internal (s.setPc i (.casCeiling before code s.observedCeiling))
  | ceilingLow {s : FdState ι F} {before : Leases} {code : Errno} {ceiling : ℕ} :
      s.pc i = .casCeiling before code ceiling →
      lowersCeiling before.live.toNat ceiling = false →
      FdStep i s .internal (s.setPc i (.loadLeases before code))
  | ceilingLowered {s : FdState ι F} {before : Leases} {code : Errno} :
      s.pc i = .casCeiling before code s.observedCeiling →
      lowersCeiling before.live.toNat s.observedCeiling = true →
      FdStep i s .internal
        ({ s with observedCeiling := before.live.toNat }.setPc i (.loadLeases before code))
  /-- `compare_exchange_weak` failed, spuriously or not. -/
  | ceilingAgain {s : FdState ι F} {before : Leases} {code : Errno} {ceiling : ℕ} :
      s.pc i = .casCeiling before code ceiling →
      lowersCeiling before.live.toNat ceiling = true →
      FdStep i s .internal (s.setPc i (.casCeiling before code s.observedCeiling))
  /-- The last read of `Refused`, whose verdict `Fd::Open` returns. -/
  | loadLeases {s : FdState ι F} {before : Leases} {code : Errno} :
      s.pc i = .loadLeases before code →
      FdStep i s (.returned i ⟨code, before.retry (.unpack s.leases)⟩) (s.setPc i .idle)
  /-- `Fd::Close`: `::close`, then `Pool::Release`. -/
  | close {s : FdState ι F} {f : F} {d : ℕ} : s.pc i = .idle → s.fd f = some d →
      FdStep i s (.closed i f d) ((s.setFd f none).setPc i (.closing d))
  | release {s : FdState ι F} {d : ℕ} : s.pc i = .closing d →
      FdStep i s (.released i d) ((s.addLeases kRelease).setPc i .idle)
  /-- `Fd::Release`: `Pool::Forget`, and the caller keeps the descriptor. -/
  | handOff {s : FdState ι F} {f : F} {d : ℕ} : s.pc i = .idle → s.fd f = some d →
      FdStep i s (.handedOff i f d) ((s.addLeases (-kAcquire)).setFd f none)
  /-- Construction of `g` from `f`, or the second half of `g = std::move(f)`. -/
  | move {s : FdState ι F} {f g : F} : s.pc i = .idle → f ≠ g → s.fd g = none →
      FdStep i s (.moved i f g) ((s.setFd g (s.fd f)).setFd f none)
  | readCapacity {s : FdState ι F} : s.pc i = .idle →
      FdStep i s .internal (s.setPc i (.readCapacity .load))
  | readCapacityStep {s : FdState ι F} {c c' : CapacityPc} {known : ℕ} :
      s.pc i = .readCapacity c →
      CapacityStep s.knownCapacity s.soft s.maxFiles c known (.inl c') →
      FdStep i s .internal ({ s with knownCapacity := known }.setPc i (.readCapacity c'))
  | capacityRead {s : FdState ι F} {c : CapacityPc} {known capacity : ℕ} :
      s.pc i = .readCapacity c →
      CapacityStep s.knownCapacity s.soft s.maxFiles c known (.inr capacity) →
      FdStep i s (.capacityRead i capacity) ({ s with knownCapacity := known }.setPc i .idle)
  /-- `Pool::Exhausted` with no ceiling observed. -/
  | notExhausted {s : FdState ι F} : s.pc i = .idle → s.observedCeiling = 0 →
      FdStep i s (.exhaustedRead i false) s
  | exhaustedCeiling {s : FdState ι F} : s.pc i = .idle → s.observedCeiling ≠ 0 →
      FdStep i s .internal (s.setPc i (.exhausted s.observedCeiling))
  | exhaustedRead {s : FdState ι F} {ceiling : ℕ} : s.pc i = .exhausted ceiling →
      FdStep i s (.exhaustedRead i (ceiling ≤ (Leases.unpack s.leases).live.toNat)) (s.setPc i .idle)

/-- All threads from the start of the program, in any interleaving. -/
def fdSystem (ι : Type u) (F : Type v) [DecidableEq ι] [DecidableEq F] :
    Lib.System (FdState ι F) (FdEvent ι F) where
  init s := ∃ soft hard maxFiles, s = .initial soft hard maxFiles
  step s e s' := ∃ i, FdStep i s e s'

end Remmy.Os
