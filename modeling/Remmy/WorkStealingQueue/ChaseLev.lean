import Remmy.Lib.System
import Mathlib.Logic.Function.Basic

/-!
# The Chase-Lev Work-Stealing Queue

`cutils::ChaseLev` as a step machine: `Insert`, `Take` (both for the owner thread)
and `Steal` (for the thieves) are cut at every atomic load, store and
compare-exchange, and each cut is one constructor of the call's program counter.
A `Deque` is the shared fields together with where its owner and each of its
thieves stand; `system` interleaves them in any order.

- `top_` and `bottom_` are `int64_t` in the source and `ℤ` here; no operation moves
  `bottom_` past the number of insertions so far.
- `buffers_` only grows, and `data_` is the position of the active buffer in it.
- `compare_exchange_strong` has no spurious failure.
-/

namespace Remmy.ChaseLev

universe u v

variable {ι : Type u} {T : Type v}

/-! ## Shared fields -/

/-- `kInitCap`. -/
def kInitCap : ℕ := 1024

/-- `ChaseLev::Data`: a buffer of `len` slots. -/
structure Data (T : Type v) where
  len : ℕ
  buffer : ℕ → T

/-- `buffer_[static_cast<std::size_t>(i) % len_]`. -/
def Data.slot (d : Data T) (i : ℤ) : T :=
  d.buffer (i.toNat % d.len)

/-- A store to `buffer_[static_cast<std::size_t>(i) % len]`. -/
def Data.store (d : Data T) (len : ℕ) (i : ℤ) (v : T) : Data T :=
  { d with buffer := Function.update d.buffer (i.toNat % len) v }

/-- The atomics of a queue that its owner and its thieves share. -/
structure Shared (T : Type v) where
  top : ℤ
  bottom : ℤ
  /-- The buffer `data_` points to, as a position in `buffers_`. -/
  data : ℕ
  /-- `buffers_`: the active buffer and, before it, the retired ones. -/
  buffers : ℕ → Data T

/-- The constructor: one buffer of `kInitCap` value-initialised slots. -/
def Shared.empty [Inhabited T] : Shared T where
  top := 0
  bottom := 0
  data := 0
  buffers _ := { len := kInitCap, buffer := fun _ => default }

/-- A store to slot `i % len` of buffer `a`. -/
def Shared.storeSlot (s : Shared T) (a len : ℕ) (i : ℤ) (v : T) : Shared T :=
  { s with buffers := Function.update s.buffers a ((s.buffers a).store len i v) }

/-- `buffers_.push_back(nd)` and the store to `data_` that makes it the active buffer. -/
def Shared.publish (s : Shared T) (nd : Data T) : Shared T :=
  { s with data := s.data + 1, buffers := Function.update s.buffers (s.data + 1) nd }

/-! ## Insert -/

/-- Where an `Insert(v)` stands; the constructors from `resizeData` to `publish` are
    the body of `Resize`. -/
inductive InsertPc (T : Type v)
  | loadBottom (v : T)
  | loadTop (v : T) (b : ℤ)
  | loadData (v : T) (b t : ℤ)
  | checkFull (v : T) (b t : ℤ) (a : ℕ)
  | resizeData (v : T) (b : ℤ)
  | resizeLen (v : T) (b : ℤ) (old : ℕ)
  | resizeTop (v : T) (b : ℤ) (old oldLen : ℕ)
  | resizeBottom (v : T) (b : ℤ) (old oldLen : ℕ) (t : ℤ)
  | copyLoad (v : T) (b : ℤ) (old oldLen : ℕ) (nd : Data T) (i e : ℤ)
  | copyStore (v : T) (b : ℤ) (old oldLen : ℕ) (nd : Data T) (i e : ℤ) (value : T)
  | publish (v : T) (b : ℤ) (nd : Data T)
  | reloadData (v : T) (b : ℤ)
  | loadLen (v : T) (b : ℤ) (a : ℕ)
  | storeSlot (v : T) (b : ℤ) (a len : ℕ)
  | storeBottom (v : T) (b : ℤ)

/-- The value being inserted. -/
def InsertPc.value : InsertPc T → T
  | .loadBottom v | .loadTop v _ | .loadData v _ _ | .checkFull v _ _ _ | .resizeData v _
  | .resizeLen v _ _ | .resizeTop v _ _ _ | .resizeBottom v _ _ _ _ | .copyLoad v _ _ _ _ _ _
  | .copyStore v _ _ _ _ _ _ _ | .publish v _ _ | .reloadData v _ | .loadLen v _ _
  | .storeSlot v _ _ _ | .storeBottom v _ => v

/-- The test `i < b` of the copy loop in `Resize`. -/
def InsertPc.copyNext (v : T) (b : ℤ) (old oldLen : ℕ) (nd : Data T) (i e : ℤ) : InsertPc T :=
  if i < e then .copyLoad v b old oldLen nd i e else .publish v b nd

/-- One atomic step of `Insert`; `none` once it has returned. -/
def insertStep [Inhabited T] (s : Shared T) : InsertPc T → Shared T × Option (InsertPc T)
  | .loadBottom v => (s, some (.loadTop v s.bottom))
  | .loadTop v b => (s, some (.loadData v b s.top))
  | .loadData v b t => (s, some (.checkFull v b t s.data))
  | .checkFull v b t a =>
    -- `b - t > len - 1`: the queue is full.
    if b - t > ((s.buffers a).len : ℤ) - 1 then (s, some (.resizeData v b))
    else (s, some (.loadLen v b a))
  | .resizeData v b => (s, some (.resizeLen v b s.data))
  | .resizeLen v b old => (s, some (.resizeTop v b old (s.buffers old).len))
  | .resizeTop v b old oldLen => (s, some (.resizeBottom v b old oldLen s.top))
  | .resizeBottom v b old oldLen t =>
    (s, some (.copyNext v b old oldLen { len := oldLen * 2, buffer := fun _ => default } t s.bottom))
  | .copyLoad v b old oldLen nd i e =>
    (s, some (.copyStore v b old oldLen nd i e ((s.buffers old).buffer (i.toNat % oldLen))))
  | .copyStore v b old oldLen nd i e value =>
    (s, some (.copyNext v b old oldLen (nd.store nd.len i value) (i + 1) e))
  | .publish v b nd => (s.publish nd, some (.reloadData v b))
  | .reloadData v b => (s, some (.loadLen v b s.data))
  | .loadLen v b a => (s, some (.storeSlot v b a (s.buffers a).len))
  | .storeSlot v b a len => (s.storeSlot a len b v, some (.storeBottom v b))
  | .storeBottom _ b => ({ s with bottom := b + 1 }, none)

/-! ## Take -/

/-- Where a `Take()` stands. -/
inductive TakePc (T : Type v)
  | loadBottom
  | loadData (b : ℤ)
  | storeBottom (b : ℤ) (a : ℕ)
  | loadTop (b : ℤ) (a : ℕ)
  | loadLen (b t : ℤ) (a : ℕ)
  | loadSlot (b t : ℤ) (a len : ℕ)
  | cas (b t : ℤ) (val : T)
  | finishLast (b : ℤ) (result : Option T)
  | restore (b : ℤ)

/-- One atomic step of `Take`; `.inr r` once it has returned `r`. -/
def takeStep (s : Shared T) : TakePc T → Shared T × (TakePc T ⊕ Option T)
  | .loadBottom => (s, .inl (.loadData (s.bottom - 1)))
  | .loadData b => (s, .inl (.storeBottom b s.data))
  | .storeBottom b a => ({ s with bottom := b }, .inl (.loadTop b a))
  | .loadTop b a => if s.top ≤ b then (s, .inl (.loadLen b s.top a)) else (s, .inl (.restore b))
  | .loadLen b t a => (s, .inl (.loadSlot b t a (s.buffers a).len))
  | .loadSlot b t a len =>
    let val := (s.buffers a).buffer (b.toNat % len)
    -- A single last element is raced for; any other is the owner's already.
    if t = b then (s, .inl (.cas b t val)) else (s, .inr (some val))
  | .cas b t val =>
    if s.top = t then ({ s with top := t + 1 }, .inl (.finishLast b (some val)))
    else (s, .inl (.finishLast b none))
  | .finishLast b result => ({ s with bottom := b + 1 }, .inr result)
  | .restore b => ({ s with bottom := b + 1 }, .inr none)

/-! ## Steal -/

/-- Where a `Steal()` stands. -/
inductive StealPc (T : Type v)
  | loadTop
  | loadBottom (t : ℤ)
  | loadData (t : ℤ)
  | loadLen (t : ℤ) (a : ℕ)
  | loadSlot (t : ℤ) (a len : ℕ)
  | cas (t : ℤ) (val : T)

/-- One atomic step of `Steal`; `.inr r` once it has returned `r`. -/
def stealStep (s : Shared T) : StealPc T → Shared T × (StealPc T ⊕ Option T)
  | .loadTop => (s, .inl (.loadBottom s.top))
  | .loadBottom t => if t < s.bottom then (s, .inl (.loadData t)) else (s, .inr none)
  | .loadData t => (s, .inl (.loadLen t s.data))
  | .loadLen t a => (s, .inl (.loadSlot t a (s.buffers a).len))
  | .loadSlot t a len => (s, .inl (.cas t ((s.buffers a).buffer (t.toNat % len))))
  | .cas t val => if s.top = t then ({ s with top := t + 1 }, .inr (some val)) else (s, .inr none)

/-! ## One owner and any number of thieves -/

/-- What the owner thread is doing with the queue. -/
inductive OwnerPc (T : Type v)
  | idle
  | insert (pc : InsertPc T)
  | take (pc : TakePc T)

/-- A queue with the calls in progress on it; `none` is a thief between calls. -/
structure Deque (ι : Type u) (T : Type v) where
  shared : Shared T
  owner : OwnerPc T
  thief : ι → Option (StealPc T)

/-- What a step shows. A call shows its result in its last step, which for a
    successful `Steal` is its compare-exchange. -/
inductive Event (ι : Type u) (T : Type v)
  | beginInsert (v : T)
  | beginTake
  | beginSteal (i : ι)
  | ownerStep
  | thiefStep (i : ι)
  | inserted (v : T)
  | took (result : Option T)
  | stole (i : ι) (result : Option T)

/-- A fresh queue nobody is using. -/
def Deque.empty [Inhabited T] : Deque ι T where
  shared := .empty
  owner := .idle
  thief _ := none

variable [Inhabited T] [DecidableEq ι]

/-- The atomic steps of the owner and of the thieves, in any order. -/
inductive Step : Deque ι T → Event ι T → Deque ι T → Prop
  | beginInsert {d : Deque ι T} (v : T) : d.owner = .idle →
      Step d (.beginInsert v) { d with owner := .insert (.loadBottom v) }
  | beginTake {d : Deque ι T} : d.owner = .idle →
      Step d .beginTake { d with owner := .take .loadBottom }
  | beginSteal {d : Deque ι T} (i : ι) : d.thief i = none →
      Step d (.beginSteal i) { d with thief := Function.update d.thief i (some .loadTop) }
  | insertStep {d : Deque ι T} {pc pc' : InsertPc T} {s : Shared T} : d.owner = .insert pc →
      insertStep d.shared pc = (s, some pc') →
      Step d .ownerStep { d with shared := s, owner := .insert pc' }
  | inserted {d : Deque ι T} {pc : InsertPc T} {s : Shared T} : d.owner = .insert pc →
      insertStep d.shared pc = (s, none) →
      Step d (.inserted pc.value) { d with shared := s, owner := .idle }
  | takeStep {d : Deque ι T} {pc pc' : TakePc T} {s : Shared T} : d.owner = .take pc →
      takeStep d.shared pc = (s, .inl pc') →
      Step d .ownerStep { d with shared := s, owner := .take pc' }
  | took {d : Deque ι T} {pc : TakePc T} {s : Shared T} {r : Option T} : d.owner = .take pc →
      takeStep d.shared pc = (s, .inr r) →
      Step d (.took r) { d with shared := s, owner := .idle }
  | stealStep {d : Deque ι T} {i : ι} {pc pc' : StealPc T} {s : Shared T} : d.thief i = some pc →
      stealStep d.shared pc = (s, .inl pc') →
      Step d (.thiefStep i) { d with shared := s, thief := Function.update d.thief i (some pc') }
  | stole {d : Deque ι T} {i : ι} {pc : StealPc T} {s : Shared T} {r : Option T} :
      d.thief i = some pc → stealStep d.shared pc = (s, .inr r) →
      Step d (.stole i r) { d with shared := s, thief := Function.update d.thief i none }

/-- A queue used from its construction on by one owner and the thieves `ι`. -/
def system (ι : Type u) (T : Type v) [Inhabited T] [DecidableEq ι] :
    Lib.System (Deque ι T) (Event ι T) where
  init d := d = .empty
  step := Step

end Remmy.ChaseLev
