import Remmy.WorkStealingQueue.ChaseLev
import Mathlib.Data.Int.ModEq
import Mathlib.Data.List.Range
import Mathlib.Tactic.Linarith
import Mathlib.Tactic.Ring

/-!
# The Chase-Lev Queue: What Is Stored, and What Every Step Keeps

The contents of a queue are read off its state.  While the owner is inside `Take`,
`bottom_` is one below the index that really bounds the contents, so they are bounded
by `logicalBottom` instead, and a `Take` that has won an element but not yet returned
holds it as a `claim`.

The invariant of one queue has three parts:
- `Core`: the indices and the locals of the owner;
- `ThiefOk`: a thief whose `t` is still `top_` has read, or will read, the value at
  `top_`, whichever buffer it holds.  A thief whose `t` is stale loses its
  compare-exchange, so nothing is said about what it read;
- `Frame`: what the owner may change under a thief.
-/

namespace Remmy.ChaseLev

universe u v

variable {ι : Type u} {T : Type v}

/-! ## Contents -/

/-- The index that bounds the contents from above. -/
def OwnerPc.logicalBottom (bottom : ℤ) : OwnerPc T → ℤ
  | .take (.loadTop b _) | .take (.cas b _ _) | .take (.finishLast b _) | .take (.restore b) => b + 1
  | .take (.loadLen b t _) | .take (.loadSlot b t _ _) => if t = b then b + 1 else b
  | _ => bottom

/-- The element a `Take` has won and not yet returned. -/
def OwnerPc.claim (s : Shared T) : OwnerPc T → List T
  | .take (.loadLen b t a) | .take (.loadSlot b t a _) =>
    if t = b then [] else [(s.buffers a).slot b]
  | .take (.finishLast _ (some v)) => [v]
  | _ => []

/-- The values at the indices `top_` to `e - 1` of the active buffer, oldest first. -/
def Shared.contents (s : Shared T) (e : ℤ) : List T :=
  (List.range (e - s.top).toNat).map fun k : ℕ => (s.buffers s.data).slot (s.top + k)

/-- The values at the indices `top_` to `bottom_ - 1` of the active buffer. -/
def Shared.window (s : Shared T) : List T :=
  s.contents s.bottom

/-- All values inserted and not yet returned, oldest first. -/
def storedBy (s : Shared T) (o : OwnerPc T) : List T :=
  s.contents (o.logicalBottom s.bottom) ++ o.claim s

/-- All values inserted and not yet returned, oldest first. -/
def Deque.stored (d : Deque ι T) : List T :=
  storedBy d.shared d.owner

theorem storedBy_idle (s : Shared T) : storedBy s .idle = s.window := List.append_nil _

theorem Deque.stored_of_idle {d : Deque ι T} (h : d.owner = .idle) :
    d.stored = d.shared.window := by
  rw [Deque.stored, h, storedBy_idle]

/-! ## Slots -/

/-- Two indices less than `len` apart have different slots. -/
theorem toNat_mod_ne {j b : ℤ} {len : ℕ} (h0 : 0 ≤ j) (hjb : j < b) (hlen : b - j < len) :
    j.toNat % len ≠ b.toNat % len := by
  intro h
  have hmod : j.toNat ≡ b.toNat [MOD len] := h
  have hdvd : len ∣ b.toNat - j.toNat := (Nat.modEq_iff_dvd' (by omega)).mp hmod
  have hle : len ≤ b.toNat - j.toNat := Nat.le_of_dvd (by omega) hdvd
  omega

@[simp] theorem Data.len_store (d : Data T) (len : ℕ) (i : ℤ) (v : T) :
    (d.store len i v).len = d.len :=
  rfl

theorem Data.slot_store_self (d : Data T) (i : ℤ) (v : T) : (d.store d.len i v).slot i = v := by
  simp [Data.slot, Data.store]

theorem Data.slot_store_ne (d : Data T) {j b : ℤ} (v : T) (h0 : 0 ≤ j) (hjb : j < b)
    (hlen : b - j < d.len) : (d.store d.len b v).slot j = d.slot j := by
  simp [Data.slot, Data.store, Function.update_of_ne (toNat_mod_ne h0 hjb hlen)]

/-! ## Contents under the index moves -/

theorem contents_of_le {s : Shared T} {e : ℤ} (h : e ≤ s.top) : s.contents e = [] := by
  simp [Shared.contents, Int.toNat_of_nonpos (sub_nonpos.mpr h)]

/-- Raising the bound by one appends the next slot. -/
theorem contents_succ {s : Shared T} {e : ℤ} (h : s.top ≤ e) :
    s.contents (e + 1) = s.contents e ++ [(s.buffers s.data).slot e] := by
  have hcount : (e + 1 - s.top).toNat = (e - s.top).toNat + 1 := by omega
  have hlast : s.top + ((e - s.top).toNat : ℤ) = e := by omega
  simp only [Shared.contents, hcount, List.range_succ, List.map_append, List.map_singleton, hlast]

/-- Raising `top_` by one drops the first slot. -/
theorem contents_of_lt {s : Shared T} {e : ℤ} (h : s.top < e) :
    s.contents e = (s.buffers s.data).slot s.top ::
      Shared.contents { s with top := s.top + 1 } e := by
  have hcount : (e - s.top).toNat = (e - (s.top + 1)).toNat + 1 := by omega
  simp only [Shared.contents, hcount, List.range_succ_eq_map, List.map_cons, List.map_map]
  refine congrArg₂ _ (by simp) (List.map_congr_left fun k _ => ?_)
  simp only [Function.comp_apply, Nat.succ_eq_add_one, Nat.cast_add, Nat.cast_one]
  congr 1
  ring

/-- The contents depend on `top_` and on the slots inside the bounds only. -/
theorem contents_congr {s s' : Shared T} {e : ℤ} (htop : s'.top = s.top)
    (hslot : ∀ j, s.top ≤ j → j < e →
      (s'.buffers s'.data).slot j = (s.buffers s.data).slot j) :
    s'.contents e = s.contents e := by
  simp only [Shared.contents, htop]
  refine List.map_congr_left fun k hk => ?_
  have hk' := List.mem_range.mp hk
  exact hslot _ (by omega) (by omega)

/-! ## The owner -/

/-- The state of the copy loop of `Resize`: the slots from some `t` below `top_` up to
    `i` are copied. -/
structure CopyOk (s : Shared T) (b : ℤ) (old oldLen : ℕ) (nd : Data T) (i e : ℤ) : Prop where
  bottom_eq : b = s.bottom
  stop_eq : e = s.bottom
  data_eq : old = s.data
  oldLen_eq : oldLen = (s.buffers s.data).len
  newLen_eq : nd.len = oldLen * 2
  copied : ∃ t, 0 ≤ t ∧ t ≤ s.top ∧ t ≤ i ∧ e - t ≤ oldLen ∧
    ∀ j, t ≤ j → j < i → nd.slot j = (s.buffers s.data).slot j

/-- What an `Insert` knows at each of its steps. -/
def InsertOk (s : Shared T) : InsertPc T → Prop
  | .loadBottom _ => True
  | .loadTop _ b => b = s.bottom
  | .loadData _ b t => b = s.bottom ∧ t ≤ s.top
  | .checkFull _ b t a => b = s.bottom ∧ t ≤ s.top ∧ a = s.data
  | .resizeData _ b => b = s.bottom
  | .resizeLen _ b old => b = s.bottom ∧ old = s.data
  | .resizeTop _ b old oldLen => b = s.bottom ∧ old = s.data ∧ oldLen = (s.buffers s.data).len
  | .resizeBottom _ b old oldLen t => b = s.bottom ∧ old = s.data ∧
      oldLen = (s.buffers s.data).len ∧ 0 ≤ t ∧ t ≤ s.top ∧ s.bottom - t ≤ oldLen
  | .copyLoad _ b old oldLen nd i e => CopyOk s b old oldLen nd i e ∧ i < e
  | .copyStore _ b old oldLen nd i e value => CopyOk s b old oldLen nd i e ∧ i < e ∧
      value = (s.buffers s.data).slot i
  | .publish _ b nd => b = s.bottom ∧ nd.len = (s.buffers s.data).len * 2 ∧
      ∀ j, s.top ≤ j → j < s.bottom → nd.slot j = (s.buffers s.data).slot j
  | .reloadData _ b => b = s.bottom ∧ b - s.top < (s.buffers s.data).len
  | .loadLen _ b a => b = s.bottom ∧ a = s.data ∧ b - s.top < (s.buffers s.data).len
  | .storeSlot _ b a len => b = s.bottom ∧ a = s.data ∧ b - s.top < (s.buffers s.data).len ∧
      len = (s.buffers s.data).len
  | .storeBottom v b => b = s.bottom ∧ b - s.top < (s.buffers s.data).len ∧
      (s.buffers s.data).slot b = v

/-- What a `Take` knows at each of its steps. -/
def TakeOk (s : Shared T) : TakePc T → Prop
  | .loadBottom => True
  | .loadData b => b = s.bottom - 1
  | .storeBottom b a => b = s.bottom - 1 ∧ a = s.data
  | .loadTop b a => s.bottom = b ∧ a = s.data
  | .loadLen b t a => s.bottom = b ∧ a = s.data ∧ t ≤ b ∧ t ≤ s.top
  | .loadSlot b t a len => s.bottom = b ∧ a = s.data ∧ t ≤ b ∧ t ≤ s.top ∧
      len = (s.buffers s.data).len
  | .cas b t val => s.bottom = b ∧ t = b ∧ t ≤ s.top ∧ val = (s.buffers s.data).slot b
  | .finishLast b _ => s.bottom = b ∧ s.top = b + 1
  | .restore b => s.bottom = b ∧ s.top = b + 1

/-- What the owner knows. -/
def OwnerOk (s : Shared T) : OwnerPc T → Prop
  | .idle => True
  | .insert pc => InsertOk s pc
  | .take pc => TakeOk s pc

/-- The indices, the buffers and the owner's locals. -/
structure Core (s : Shared T) (o : OwnerPc T) : Prop where
  top_nonneg : 0 ≤ s.top
  top_le : s.top ≤ o.logicalBottom s.bottom
  len_pos : ∀ a ≤ s.data, 0 < (s.buffers a).len
  room : o.logicalBottom s.bottom - s.top ≤ (s.buffers s.data).len
  owner : OwnerOk s o

/-- `bottom_` itself is never above the bound of the contents. -/
theorem Core.bottom_le {s : Shared T} {o : OwnerPc T} (h : Core s o) :
    s.bottom ≤ o.logicalBottom s.bottom := by
  have ho := h.owner
  cases o with
  | idle | insert pc => exact le_refl _
  | take pc =>
    cases pc <;> simp only [OwnerOk, TakeOk, OwnerPc.logicalBottom] at ho ⊢ <;>
      (try split_ifs) <;> omega

/-! ## The thieves -/

/-- What a thief knows: all its reads are right as long as its `t` is still `top_`. -/
def ThiefOk (s : Shared T) (lb : ℤ) : StealPc T → Prop
  | .loadTop => True
  | .loadBottom t => t ≤ s.top
  | .loadData t => t ≤ s.top ∧ (t = s.top → t < lb)
  | .loadLen t a => t ≤ s.top ∧ a ≤ s.data ∧
      (t = s.top → t < lb ∧ (s.buffers a).slot t = (s.buffers s.data).slot t)
  | .loadSlot t a len => t ≤ s.top ∧ a ≤ s.data ∧ len = (s.buffers a).len ∧
      (t = s.top → t < lb ∧ (s.buffers a).slot t = (s.buffers s.data).slot t)
  | .cas t val => t ≤ s.top ∧ (t = s.top → t < lb ∧ val = (s.buffers s.data).slot t)

/-- What may change under a thief: if `top_` stays and something was stored at it, that
    value stays where it was in every buffer the thief can hold. -/
structure Frame (s : Shared T) (lb : ℤ) (s' : Shared T) (lb' : ℤ) : Prop where
  top_le : s.top ≤ s'.top
  data_le : s.data ≤ s'.data
  len : ∀ a ≤ s.data, (s'.buffers a).len = (s.buffers a).len
  lt : s'.top = s.top → s.top < lb → s.top < lb'
  slot : s'.top = s.top → s.top < lb → ∀ a ≤ s.data,
    (s'.buffers a).slot s.top = (s.buffers a).slot s.top
  active : s'.top = s.top → s.top < lb →
    (s'.buffers s'.data).slot s.top = (s.buffers s.data).slot s.top

/-- A move that leaves the shared fields alone and does not lower the bound onto `top_`. -/
theorem Frame.of_eq {s : Shared T} {lb lb' : ℤ} (h : s.top < lb → s.top < lb') :
    Frame s lb s lb' :=
  ⟨le_refl _, le_refl _, fun _ _ => rfl, fun _ => h, fun _ _ _ _ => rfl, fun _ _ => rfl⟩

/-- A move of `top_` itself makes every thief at the old `top_` lose. -/
theorem Frame.of_lt {s s' : Shared T} {lb lb' : ℤ} (htop : s.top < s'.top)
    (hdata : s'.data = s.data) (hbuf : s'.buffers = s.buffers) : Frame s lb s' lb' where
  top_le := htop.le
  data_le := hdata.ge
  len _ _ := by rw [hbuf]
  lt h := absurd h htop.ne'
  slot h := absurd h htop.ne'
  active h := absurd h htop.ne'

/-- A thief's knowledge survives every framed move. -/
theorem ThiefOk.frame {s s' : Shared T} {lb lb' : ℤ} {pc : StealPc T} (h : ThiefOk s lb pc)
    (f : Frame s lb s' lb') : ThiefOk s' lb' pc := by
  have htop := f.top_le
  have hdata := f.data_le
  -- if `t` is still the new `top_`, it was the old one too
  have hsame {t : ℤ} (ht : t ≤ s.top) (ht' : t = s'.top) : t = s.top ∧ s'.top = s.top :=
    ⟨by omega, by omega⟩
  cases pc with
  | loadTop => trivial
  | loadBottom t => exact le_trans h htop
  | loadData t =>
    refine ⟨le_trans h.1 htop, fun ht => ?_⟩
    obtain ⟨rfl, heq⟩ := hsame h.1 ht
    exact f.lt heq (h.2 rfl)
  | loadLen t a =>
    refine ⟨le_trans h.1 htop, le_trans h.2.1 hdata, fun ht => ?_⟩
    obtain ⟨rfl, heq⟩ := hsame h.1 ht
    obtain ⟨hlt, hslot⟩ := h.2.2 rfl
    refine ⟨f.lt heq hlt, ?_⟩
    rw [f.slot heq hlt a h.2.1, hslot, f.active heq hlt]
  | loadSlot t a len =>
    refine ⟨le_trans h.1 htop, le_trans h.2.1 hdata, by rw [h.2.2.1, f.len a h.2.1], fun ht => ?_⟩
    obtain ⟨rfl, heq⟩ := hsame h.1 ht
    obtain ⟨hlt, hslot⟩ := h.2.2.2 rfl
    refine ⟨f.lt heq hlt, ?_⟩
    rw [f.slot heq hlt a h.2.1, hslot, f.active heq hlt]
  | cas t val =>
    refine ⟨le_trans h.1 htop, fun ht => ?_⟩
    obtain ⟨rfl, heq⟩ := hsame h.1 ht
    obtain ⟨hlt, hval⟩ := h.2 rfl
    exact ⟨f.lt heq hlt, by rw [hval, f.active heq hlt]⟩

/-- The invariant of one queue. -/
structure Inv (d : Deque ι T) : Prop where
  core : Core d.shared d.owner
  thief : ∀ i pc, d.thief i = some pc →
    ThiefOk d.shared (d.owner.logicalBottom d.shared.bottom) pc

@[simp] theorem stored_empty [Inhabited T] : (Deque.empty : Deque ι T).stored = [] := by
  simp [Deque.stored, storedBy, Deque.empty, Shared.empty, OwnerPc.logicalBottom, OwnerPc.claim,
    Shared.contents]

theorem inv_empty [Inhabited T] : Inv (Deque.empty : Deque ι T) where
  core := {
    top_nonneg := le_refl _
    top_le := le_refl _
    len_pos := fun _ _ => by simp [Deque.empty, Shared.empty, kInitCap]
    room := by simp [Deque.empty, Shared.empty, OwnerPc.logicalBottom]
    owner := trivial }
  thief i pc h := by simp [Deque.empty] at h

/-! ## Steps of Insert -/

/-- A move of the owner that keeps the invariant, in the eyes of owner and thieves. -/
structure Kept (s : Shared T) (o : OwnerPc T) (s' : Shared T) (o' : OwnerPc T) : Prop where
  core : Core s' o'
  frame : Frame s (o.logicalBottom s.bottom) s' (o'.logicalBottom s'.bottom)

/-- A step of `Insert` that only moves its program counter. -/
theorem Core.insert_move {s : Shared T} {pc : InsertPc T} (h : Core s (.insert pc))
    (pc' : InsertPc T) (hpc : InsertOk s pc') :
    Kept s (.insert pc) s (.insert pc') ∧
      storedBy s (.insert pc') = storedBy s (.insert pc) :=
  ⟨⟨⟨h.top_nonneg, h.top_le, h.len_pos, h.room, hpc⟩, .of_eq fun h => h⟩, rfl⟩

/-- Leaving the copy loop, or going round once more. -/
theorem CopyOk.next {s : Shared T} {v : T} {b : ℤ} {old oldLen : ℕ} {nd : Data T} {i e : ℤ}
    (h : CopyOk s b old oldLen nd i e) : InsertOk s (.copyNext v b old oldLen nd i e) := by
  unfold InsertPc.copyNext
  split_ifs with hie
  · exact ⟨h, hie⟩
  · obtain ⟨t, ht0, htop, hti, hroom, hcopied⟩ := h.copied
    refine ⟨h.bottom_eq, by rw [h.newLen_eq, h.oldLen_eq], fun j hj hjb => ?_⟩
    have hstop := h.stop_eq
    exact hcopied j (by omega) (by omega)

/-- Copying slot `i` extends what is copied by one index. -/
theorem CopyOk.store {s : Shared T} {b : ℤ} {old oldLen : ℕ} {nd : Data T} {i e : ℤ}
    (h : CopyOk s b old oldLen nd i e) (hie : i < e) :
    CopyOk s b old oldLen (nd.store nd.len i ((s.buffers s.data).slot i)) (i + 1) e := by
  refine ⟨h.bottom_eq, h.stop_eq, h.data_eq, h.oldLen_eq, h.newLen_eq, ?_⟩
  obtain ⟨t, ht0, htop, hti, hroom, hcopied⟩ := h.copied
  have hnew := h.newLen_eq
  refine ⟨t, ht0, htop, by omega, hroom, fun j hj hji => ?_⟩
  rcases lt_or_eq_of_le (Int.lt_add_one_iff.mp hji) with hlt | rfl
  · rw [Data.slot_store_ne nd _ (by omega) hlt (by omega)]
    exact hcopied j hj hlt
  · exact Data.slot_store_self nd j _

/-- Making the new buffer active moves no value: every stored index has its value in
    the new buffer too, and no retired buffer changes. -/
theorem Core.publish {s : Shared T} {v : T} {b : ℤ} {nd : Data T}
    (h : Core s (.insert (.publish v b nd))) :
    Kept s (.insert (.publish v b nd)) (s.publish nd) (.insert (.reloadData v b)) ∧
      storedBy (s.publish nd) (.insert (.reloadData v b)) =
        storedBy s (.insert (.publish v b nd)) := by
  obtain ⟨hb, hlen, hcopied⟩ : InsertOk s (.publish v b nd) := h.owner
  have hpos := h.len_pos s.data (le_refl _)
  have hroom := h.room
  simp only [OwnerPc.logicalBottom] at hroom
  have hactive : ((s.publish nd).buffers (s.publish nd).data) = nd := by simp [Shared.publish]
  have hretired {a : ℕ} (ha : a ≤ s.data) : (s.publish nd).buffers a = s.buffers a := by
    simp [Shared.publish, Function.update_of_ne (show a ≠ s.data + 1 by omega)]
  refine ⟨⟨⟨h.top_nonneg, h.top_le, ?_, ?_, hb, ?_⟩, ?_⟩, ?_⟩
  · intro a ha
    rcases Nat.lt_or_ge s.data a with hlt | hge
    · have : a = (s.publish nd).data := le_antisymm ha hlt
      rw [this, hactive]
      omega
    · rw [hretired hge]
      exact h.len_pos a hge
  · rw [hactive]
    simp only [OwnerPc.logicalBottom, Shared.publish]
    omega
  · rw [hactive]
    simp only [Shared.publish]
    omega
  · refine ⟨le_refl _, Nat.le_succ _, fun a ha => by rw [hretired ha], fun _ h => h,
      fun _ _ a ha => by rw [hretired ha], fun _ hlt => ?_⟩
    rw [hactive]
    exact hcopied _ (le_refl _) hlt
  · simp only [storedBy, OwnerPc.claim, List.append_nil]
    refine contents_congr rfl fun j hj hjb => ?_
    rw [hactive]
    exact hcopied j hj hjb

/-- Filling the slot at `bottom_` leaves every stored index alone. -/
theorem Core.storeSlot {s : Shared T} {v : T} {b : ℤ} {a len : ℕ}
    (h : Core s (.insert (.storeSlot v b a len))) :
    Kept s (.insert (.storeSlot v b a len)) (s.storeSlot a len b v)
        (.insert (.storeBottom v b)) ∧
      storedBy (s.storeSlot a len b v) (.insert (.storeBottom v b)) =
        storedBy s (.insert (.storeSlot v b a len)) := by
  obtain ⟨rfl, rfl, hfree, rfl⟩ : InsertOk s (.storeSlot v b a len) := h.owner
  set s' := s.storeSlot s.data (s.buffers s.data).len s.bottom v with hs'
  have hlen (a : ℕ) : (s'.buffers a).len = (s.buffers a).len := by
    simp only [hs', Shared.storeSlot, Function.update_apply]
    split_ifs with ha
    · rw [ha, Data.len_store]
    · rfl
  have hother {j : ℤ} (hj : s.top ≤ j) (hjb : j < s.bottom) (a : ℕ) :
      (s'.buffers a).slot j = (s.buffers a).slot j := by
    simp only [hs', Shared.storeSlot, Function.update_apply]
    have h0 := h.top_nonneg
    split_ifs with ha
    · rw [ha]
      exact Data.slot_store_ne _ _ (by omega) hjb (by omega)
    · rfl
  have hself : (s'.buffers s.data).slot s.bottom = v := by
    simp only [hs', Shared.storeSlot, Function.update_self]
    exact Data.slot_store_self _ _ _
  refine ⟨⟨⟨h.top_nonneg, h.top_le, fun a ha => ?_, ?_, rfl, ?_, hself⟩, ?_⟩, ?_⟩
  · rw [hlen]
    exact h.len_pos a ha
  · rw [hlen]
    exact h.room
  · rw [hlen]
    exact hfree
  · exact ⟨le_refl _, le_refl _, fun a _ => hlen a, fun _ h => h,
      fun _ hlt a _ => hother (le_refl _) hlt a, fun _ hlt => hother (le_refl _) hlt _⟩
  · simp only [storedBy, OwnerPc.claim, List.append_nil]
    exact contents_congr rfl fun j hj hjb => hother hj hjb _

variable [Inhabited T]

/-- The value of an `Insert` never changes while it runs. -/
theorem insertStep_value {s s' : Shared T} {pc pc' : InsertPc T}
    (hs : ChaseLev.insertStep s pc = (s', some pc')) : pc'.value = pc.value := by
  cases pc with
  | checkFull v b t a =>
    simp only [ChaseLev.insertStep] at hs
    split_ifs at hs <;> (cases hs; rfl)
  | resizeBottom | copyStore =>
    cases hs
    unfold InsertPc.copyNext
    split_ifs <;> rfl
  | storeBottom => simp [ChaseLev.insertStep] at hs
  | _ =>
    cases hs
    rfl

/-- A step inside `Insert` keeps the invariant and what is stored. -/
theorem Core.insertStep {s s' : Shared T} {pc pc' : InsertPc T} (h : Core s (.insert pc))
    (hs : insertStep s pc = (s', some pc')) :
    Kept s (.insert pc) s' (.insert pc') ∧
      storedBy s' (.insert pc') = storedBy s (.insert pc) := by
  have hok : InsertOk s pc := h.owner
  have hroom := h.room
  simp only [OwnerPc.logicalBottom] at hroom
  cases pc with
  | loadBottom v =>
    cases hs
    exact h.insert_move (.loadTop v s.bottom) rfl
  | loadTop v b =>
    cases hs
    exact h.insert_move (.loadData v b s.top) ⟨hok, le_refl _⟩
  | loadData v b t =>
    cases hs
    exact h.insert_move (.checkFull v b t s.data) ⟨hok.1, hok.2, rfl⟩
  | checkFull v b t a =>
    -- The top that was read is not above the top, so what looks free is free.
    obtain ⟨hb, ht, ha⟩ := hok
    simp only [ChaseLev.insertStep] at hs
    split_ifs at hs with hfull
    · cases hs
      exact h.insert_move (.resizeData v b) hb
    · cases hs
      subst ha
      exact h.insert_move (.loadLen v b s.data) ⟨hb, rfl, by omega⟩
  | resizeData v b =>
    cases hs
    exact h.insert_move (.resizeLen v b s.data) ⟨hok, rfl⟩
  | resizeLen v b old =>
    cases hs
    obtain ⟨hb, rfl⟩ := hok
    exact h.insert_move (.resizeTop v b s.data _) ⟨hb, rfl, rfl⟩
  | resizeTop v b old oldLen =>
    cases hs
    obtain ⟨hb, hold, hlen⟩ := hok
    refine h.insert_move (.resizeBottom v b old oldLen s.top)
      ⟨hb, hold, hlen, h.top_nonneg, le_refl _, ?_⟩
    rw [hlen]
    exact hroom
  | resizeBottom v b old oldLen t =>
    -- Nothing has been copied yet.
    cases hs
    obtain ⟨hb, hold, hlen, ht0, ht, hspan⟩ := hok
    refine h.insert_move _ (CopyOk.next ⟨hb, rfl, hold, hlen, rfl, t, ht0, ht, le_refl _, hspan, ?_⟩)
    intro j hj hj'
    omega
  | copyLoad v b old oldLen nd i e =>
    -- The old array is still the one in use.
    cases hs
    obtain ⟨hcopy, hie⟩ := hok
    refine h.insert_move (.copyStore v b old oldLen nd i e _) ⟨hcopy, hie, ?_⟩
    rw [hcopy.data_eq, hcopy.oldLen_eq]
    rfl
  | copyStore v b old oldLen nd i e value =>
    cases hs
    obtain ⟨hcopy, hie, rfl⟩ := hok
    exact h.insert_move _ (hcopy.store hie).next
  | publish v b nd =>
    cases hs
    exact h.publish
  | reloadData v b =>
    cases hs
    exact h.insert_move (.loadLen v b s.data) ⟨hok.1, rfl, hok.2⟩
  | loadLen v b a =>
    cases hs
    obtain ⟨hb, rfl, hfree⟩ := hok
    exact h.insert_move (.storeSlot v b s.data _) ⟨hb, rfl, hfree, rfl⟩
  | storeSlot v b a len =>
    cases hs
    exact h.storeSlot
  | storeBottom v b => simp [ChaseLev.insertStep] at hs

/-- The last step of `Insert` puts its value at the back. -/
theorem Core.inserted {s s' : Shared T} {pc : InsertPc T} (h : Core s (.insert pc))
    (hs : ChaseLev.insertStep s pc = (s', none)) :
    Kept s (.insert pc) s' .idle ∧
      storedBy s' .idle = storedBy s (.insert pc) ++ [pc.value] := by
  cases pc with
  | storeBottom v b =>
    obtain ⟨rfl, hfree, hslot⟩ : InsertOk s (.storeBottom v b) := h.owner
    cases hs
    have htop := h.top_le
    simp only [OwnerPc.logicalBottom] at htop
    refine ⟨⟨⟨h.top_nonneg, ?_, h.len_pos, ?_, trivial⟩, ?_⟩, ?_⟩
    · simp only [OwnerPc.logicalBottom]
      omega
    · simp only [OwnerPc.logicalBottom]
      omega
    · refine ⟨le_refl _, le_refl _, fun _ _ => rfl, fun _ hlt => ?_, fun _ _ _ _ => rfl,
        fun _ _ => rfl⟩
      simp only [OwnerPc.logicalBottom] at hlt ⊢
      omega
    · simp only [storedBy, OwnerPc.claim, OwnerPc.logicalBottom, List.append_nil, InsertPc.value]
      have hsucc := contents_succ htop
      rw [hslot] at hsucc
      exact hsucc
  | checkFull v b t a =>
    simp only [ChaseLev.insertStep] at hs
    split_ifs at hs <;> simp at hs
  | _ => simp [ChaseLev.insertStep] at hs

/-! ## Steps of Take -/

omit [Inhabited T] in
/-- A step inside `Take` keeps the invariant and what is stored, counting the claim. -/
theorem Core.takeStep {s s' : Shared T} {pc pc' : TakePc T} (h : Core s (.take pc))
    (hs : ChaseLev.takeStep s pc = (s', .inl pc')) :
    Kept s (.take pc) s' (.take pc') ∧ storedBy s' (.take pc') = storedBy s (.take pc) := by
  have hok : TakeOk s pc := h.owner
  have htop := h.top_le
  have hroom := h.room
  cases pc with
  | loadBottom =>
    cases hs
    exact ⟨⟨⟨h.top_nonneg, htop, h.len_pos, hroom, rfl⟩, .of_eq fun h => h⟩, rfl⟩
  | loadData b =>
    cases hs
    exact ⟨⟨⟨h.top_nonneg, htop, h.len_pos, hroom, hok, rfl⟩, .of_eq fun h => h⟩, rfl⟩
  | storeBottom b a =>
    -- The bottom is lowered, but the element that it passes is not claimed yet.
    cases hs
    obtain ⟨rfl, ha⟩ := hok
    have hlb : s.bottom - 1 + 1 = s.bottom := by ring
    simp only [OwnerPc.logicalBottom] at htop hroom
    refine ⟨⟨⟨h.top_nonneg, ?_, h.len_pos, ?_, rfl, ha⟩, ?_⟩, ?_⟩
    · simpa only [OwnerPc.logicalBottom, hlb] using htop
    · simpa only [OwnerPc.logicalBottom, hlb] using hroom
    · refine ⟨le_refl _, le_refl _, fun _ _ => rfl, fun _ hlt => ?_, fun _ _ _ _ => rfl,
        fun _ _ => rfl⟩
      simpa only [OwnerPc.logicalBottom, hlb] using hlt
    · simp only [storedBy, OwnerPc.logicalBottom, OwnerPc.claim, hlb, List.append_nil]
      rfl
  | loadTop b a =>
    obtain ⟨hb, rfl⟩ := hok
    simp only [OwnerPc.logicalBottom] at htop hroom
    simp only [ChaseLev.takeStep] at hs
    split_ifs at hs with hle
    · cases hs
      by_cases hlast : s.top = b
      · -- the last element: it stays in the queue until the compare-exchange
        refine ⟨⟨⟨h.top_nonneg, ?_, h.len_pos, ?_, hb, rfl, hle, le_refl _⟩, .of_eq ?_⟩, ?_⟩
        all_goals simp only [storedBy, OwnerPc.logicalBottom, OwnerPc.claim, hlast, if_true]
        · omega
        · omega
        · omega
      · -- at least two elements: the one at `b` is the owner's from here on
        have hlt : s.top < b := lt_of_le_of_ne hle hlast
        refine ⟨⟨⟨h.top_nonneg, ?_, h.len_pos, ?_, hb, rfl, hle, le_refl _⟩, .of_eq ?_⟩, ?_⟩
        all_goals simp only [storedBy, OwnerPc.logicalBottom, OwnerPc.claim, hlast, if_false]
        · omega
        · omega
        · omega
        · rw [contents_succ hle, List.append_nil]
    · cases hs
      refine ⟨⟨⟨h.top_nonneg, htop, h.len_pos, hroom, hb, ?_⟩, .of_eq fun h => h⟩, rfl⟩
      omega
  | loadLen b t a =>
    cases hs
    obtain ⟨hb, rfl, htb, htt⟩ := hok
    exact ⟨⟨⟨h.top_nonneg, htop, h.len_pos, hroom, hb, rfl, htb, htt, rfl⟩, .of_eq fun h => h⟩, rfl⟩
  | loadSlot b t a len =>
    -- Only the last element is raced for; any other is returned at once.
    obtain ⟨hb, rfl, htb, htt, rfl⟩ := hok
    simp only [ChaseLev.takeStep] at hs
    split_ifs at hs with hlast
    · cases hs
      simp only [OwnerPc.logicalBottom, hlast, if_true] at htop hroom
      refine ⟨⟨⟨h.top_nonneg, htop, h.len_pos, hroom, hb, hlast, htt, rfl⟩, .of_eq ?_⟩, ?_⟩
      · simp only [OwnerPc.logicalBottom, hlast, if_true, imp_self]
      · simp only [storedBy, OwnerPc.logicalBottom, OwnerPc.claim, hlast, if_true]
    · simp at hs
  | cas b t val =>
    obtain ⟨hb, rfl, htt, rfl⟩ := hok
    simp only [OwnerPc.logicalBottom] at htop hroom
    simp only [ChaseLev.takeStep] at hs
    split_ifs at hs with hwin
    · -- won: the last element moves from the contents to the claim
      cases hs
      refine ⟨⟨⟨?_, ?_, h.len_pos, ?_, hb, rfl⟩, .of_lt ?_ rfl rfl⟩, ?_⟩
      · have h0 := h.top_nonneg
        simp only
        omega
      · simp only [OwnerPc.logicalBottom, le_refl]
      · simp only [OwnerPc.logicalBottom]
        omega
      · simp only
        omega
      · simp only [storedBy, OwnerPc.logicalBottom, OwnerPc.claim, List.append_nil]
        rw [contents_of_le (le_refl _), contents_succ hwin.le, contents_of_le hwin.ge]
    · cases hs
      have hlost : s.top = t + 1 := by omega
      refine ⟨⟨⟨h.top_nonneg, htop, h.len_pos, hroom, hb, hlost⟩, .of_eq fun h => h⟩, rfl⟩
  | finishLast b r => simp [ChaseLev.takeStep] at hs
  | restore b => simp [ChaseLev.takeStep] at hs

omit [Inhabited T] in
/-- The last step of `Take` returns what was at the back. -/
theorem Core.took {s s' : Shared T} {pc : TakePc T} {r : Option T} (h : Core s (.take pc))
    (hs : ChaseLev.takeStep s pc = (s', .inr r)) :
    Kept s (.take pc) s' .idle ∧ storedBy s (.take pc) = storedBy s' .idle ++ r.toList := by
  have hok : TakeOk s pc := h.owner
  have htop := h.top_le
  have hroom := h.room
  cases pc with
  | loadSlot b t a len =>
    -- There are others below, so no thief can be after this one.
    obtain ⟨hb, rfl, htb, htt, rfl⟩ := hok
    simp only [ChaseLev.takeStep] at hs
    split_ifs at hs with hlast
    · simp at hs
    · cases hs
      simp only [OwnerPc.logicalBottom, hlast, if_false] at htop hroom
      refine ⟨⟨⟨h.top_nonneg, ?_, h.len_pos, ?_, trivial⟩, .of_eq ?_⟩, ?_⟩
      all_goals simp only [storedBy, OwnerPc.logicalBottom, OwnerPc.claim, hlast, if_false, hb]
      · exact htop
      · exact hroom
      · exact fun h => h
      · simp [Data.slot]
  | finishLast b result =>
    -- The queue is empty, whoever has won.
    obtain ⟨hb, hfull⟩ := hok
    cases hs
    simp only [OwnerPc.logicalBottom] at htop hroom
    refine ⟨⟨⟨h.top_nonneg, htop, h.len_pos, hroom, trivial⟩, ?_⟩, ?_⟩
    · exact ⟨le_refl _, le_refl _, fun _ _ => rfl, fun _ h => h, fun _ _ _ _ => rfl, fun _ _ => rfl⟩
    · cases r <;> simp [storedBy, OwnerPc.logicalBottom, OwnerPc.claim, Shared.contents]
  | restore b =>
    -- The queue was empty before.
    obtain ⟨hb, hfull⟩ := hok
    cases hs
    simp only [OwnerPc.logicalBottom] at htop hroom
    refine ⟨⟨⟨h.top_nonneg, htop, h.len_pos, hroom, trivial⟩, ?_⟩, ?_⟩
    · exact ⟨le_refl _, le_refl _, fun _ _ => rfl, fun _ h => h, fun _ _ _ _ => rfl, fun _ _ => rfl⟩
    · simp [storedBy, OwnerPc.logicalBottom, OwnerPc.claim, Shared.contents]
  | loadTop b a =>
    simp only [ChaseLev.takeStep] at hs
    split_ifs at hs <;> simp at hs
  | cas b t val =>
    simp only [ChaseLev.takeStep] at hs
    split_ifs at hs <;> simp at hs
  | _ => simp [ChaseLev.takeStep] at hs

end Remmy.ChaseLev
