import Remmy.Os.Fd
import Mathlib.Algebra.BigOperators.Group.List.Basic
import Mathlib.Algebra.Order.BigOperators.Group.Finset

/-!
# Descriptor Leases: the Lease Word Counts Them

`leaseCount` is the number of leases that are out: one for each `Fd` that holds a
descriptor, one for each reservation whose open is not settled yet, and one for each
descriptor that is closed but not yet counted as released.  The lease word holds that
number and, shifted by 32, the number of releases so far, as a 64-bit sum; `live` and
`epoch` read them back as long as fewer than `2 ^ 32` leases are out.
-/

namespace Remmy.Os

open Remmy.Lib
open FdState

universe u v

variable {ι : Type u} {F : Type v}

/-! ## Counting leases -/

/-- A thread holds a reservation that is not settled yet. -/
def FdPc.reserved : FdPc → Bool
  | .capacity _ _ | .checkRaise _ _ | .setMax _ | .setLimit _ _ | .storeCapacity _ _
  | .storeCeiling _ | .opening _ | .dropReservation _ | .forget _ _ => true
  | _ => false

/-- A thread has closed a descriptor and not yet counted it as released. -/
def FdPc.releasing : FdPc → Bool
  | .closing _ => true
  | _ => false

/-- The leases a thread has out. -/
def FdPc.leases (pc : FdPc) : ℕ :=
  pc.reserved.toNat + pc.releasing.toNat

/-- The leases out: held by an `Fd`, reserved, or closed and not yet released. -/
def FdState.leaseCount [Fintype ι] [Fintype F] (s : FdState ι F) : ℕ :=
  (∑ f, (s.fd f).isSome.toNat) + ∑ i, (s.pc i).leases

/-- A thread has one lease out at most. -/
theorem FdPc.leases_le_one (pc : FdPc) : pc.leases ≤ 1 := by
  cases pc <;> simp [FdPc.leases, FdPc.reserved, FdPc.releasing]

/-- There are no more leases than threads and `Fd` objects. -/
theorem FdState.leaseCount_le [Fintype ι] [Fintype F] (s : FdState ι F) :
    s.leaseCount ≤ Fintype.card F + Fintype.card ι := by
  apply Nat.add_le_add
  · calc ∑ f, (s.fd f).isSome.toNat ≤ ∑ _f : F, 1 := Finset.sum_le_sum fun f _ => Bool.toNat_le _
      _ = Fintype.card F := by simp
  · calc ∑ i, (s.pc i).leases ≤ ∑ _i : ι, 1 := Finset.sum_le_sum fun i _ => (s.pc i).leases_le_one
      _ = Fintype.card ι := by simp

/-- How many releases an event shows. -/
def FdEvent.releases : FdEvent ι F → ℕ
  | .released _ _ => 1
  | _ => 0

/-- The releases of a run. -/
def releaseCount (tr : List (FdEvent ι F)) : ℕ := (tr.map FdEvent.releases).sum

@[simp] theorem releaseCount_nil : releaseCount ([] : List (FdEvent ι F)) = 0 := rfl

@[simp] theorem releaseCount_append (tr tr' : List (FdEvent ι F)) :
    releaseCount (tr ++ tr') = releaseCount tr + releaseCount tr' := by
  simp [releaseCount]

@[simp] theorem releaseCount_cons (e : FdEvent ι F) (tr : List (FdEvent ι F)) :
    releaseCount (e :: tr) = e.releases + releaseCount tr := by
  simp [releaseCount]

/-! ## How the count changes -/

section Moves

variable [DecidableEq ι] [DecidableEq F] [Fintype ι] [Fintype F] (s : FdState ι F)

omit [DecidableEq F] in
theorem leaseCount_setPc (i : ι) (pc : FdPc) :
    (s.setPc i pc).leaseCount + (s.pc i).leases = s.leaseCount + pc.leases := by
  have hsum := sum_update_add s.pc (fun _ pc => pc.leases) i pc
  simp only [FdState.leaseCount, FdState.setPc] at hsum ⊢
  omega

omit [DecidableEq ι] in
theorem leaseCount_setFd (f : F) (d : Option ℕ) :
    (s.setFd f d).leaseCount + (s.fd f).isSome.toNat = s.leaseCount + d.isSome.toNat := by
  have hsum := sum_update_add s.fd (fun _ d => d.isSome.toNat) f d
  simp only [FdState.leaseCount, FdState.setFd] at hsum ⊢
  omega

omit [DecidableEq ι] [DecidableEq F] in
@[simp] theorem leaseCount_addLeases (n : BitVec 64) :
    (s.addLeases n).leaseCount = s.leaseCount := by
  simp [FdState.leaseCount]

omit [DecidableEq F] in
/-- Moving between two program counters with as many leases keeps the count. -/
theorem leaseCount_setPc_of_eq {i : ι} {pc : FdPc} (heq : (s.pc i).leases = pc.leases) :
    (s.setPc i pc).leaseCount = s.leaseCount := by
  have hpc := leaseCount_setPc s i pc
  omega

omit [DecidableEq F] in
theorem leaseCount_setPc_gain {i : ι} {pc : FdPc} (hold : (s.pc i).leases = 0)
    (hnew : pc.leases = 1) : (s.setPc i pc).leaseCount = s.leaseCount + 1 := by
  have hpc := leaseCount_setPc s i pc
  omega

omit [DecidableEq F] in
theorem leaseCount_setPc_lose {i : ι} {pc : FdPc} (hold : (s.pc i).leases = 1)
    (hnew : pc.leases = 0) : (s.setPc i pc).leaseCount + 1 = s.leaseCount := by
  have hpc := leaseCount_setPc s i pc
  omega

/-- A reservation that becomes a held descriptor, or a held one that is being closed. -/
theorem leaseCount_exchange {i : ι} {pc : FdPc} {f : F} {d : Option ℕ}
    (heq : (s.pc i).leases + (s.fd f).isSome.toNat = pc.leases + d.isSome.toNat) :
    ((s.setFd f d).setPc i pc).leaseCount = s.leaseCount := by
  have hfd := leaseCount_setFd s f d
  have hpc := leaseCount_setPc (s.setFd f d) i pc
  rw [setFd_pc] at hpc
  omega

omit [DecidableEq ι] in
theorem leaseCount_setFd_lose {f : F} {d : ℕ} (hf : s.fd f = some d) :
    (s.setFd f none).leaseCount + 1 = s.leaseCount := by
  have hfd := leaseCount_setFd s f none
  rw [hf] at hfd
  simpa using hfd

omit [DecidableEq ι] in
/-- What is held does not depend on which object holds it. -/
theorem leaseCount_move {f g : F} (hne : f ≠ g) (hg : s.fd g = none) :
    ((s.setFd g (s.fd f)).setFd f none).leaseCount = s.leaseCount := by
  have hset := leaseCount_setFd s g (s.fd f)
  have hclear := leaseCount_setFd (s.setFd g (s.fd f)) f none
  have hf : (s.setFd g (s.fd f)).fd f = s.fd f := Function.update_of_ne hne _ _
  simp only [hg, hf, Option.isSome_none, Bool.toNat_false] at hset hclear
  omega

end Moves

/-! ## The lease word as a sum -/

/-- The lease word with `l` leases out after `r` releases, as a 64-bit sum. -/
def leaseWord (l r : ℕ) : BitVec 64 := BitVec.ofNat 64 (l + 2 ^ 32 * r)

theorem leaseWord_zero : leaseWord 0 0 = 0 := by rfl

theorem leaseWord_acquire (l r : ℕ) : leaseWord l r + kAcquire = leaseWord (l + 1) r := by
  have hone : kAcquire.toNat = 1 := by rfl
  apply BitVec.eq_of_toNat_eq
  rw [BitVec.toNat_add, hone]
  simp only [leaseWord, BitVec.toNat_ofNat]
  omega

theorem leaseWord_forget (l r : ℕ) : leaseWord (l + 1) r + -kAcquire = leaseWord l r := by
  have hone : (-kAcquire).toNat = 18446744073709551615 := by rfl
  apply BitVec.eq_of_toNat_eq
  rw [BitVec.toNat_add, hone]
  simp only [leaseWord, BitVec.toNat_ofNat]
  omega

theorem leaseWord_release (l r : ℕ) : leaseWord (l + 1) r + kRelease = leaseWord l (r + 1) := by
  have hrelease : kRelease.toNat = 4294967295 := by rfl
  apply BitVec.eq_of_toNat_eq
  rw [BitVec.toNat_add, hrelease]
  simp only [leaseWord, BitVec.toNat_ofNat]
  omega

/-- What `Unpack` reads, in general: the carry of too many leases reaches the epoch. -/
theorem unpack_word (l r : ℕ) :
    Leases.unpack (leaseWord l r) = ⟨BitVec.ofNat 32 l, BitVec.ofNat 32 (r + l / 2 ^ 32)⟩ := by
  simp only [Leases.unpack, Leases.mk.injEq]
  constructor
  · apply BitVec.eq_of_toNat_eq
    simp only [leaseWord, BitVec.toNat_setWidth, BitVec.toNat_ofNat]
    omega
  · apply BitVec.eq_of_toNat_eq
    simp only [leaseWord, BitVec.toNat_setWidth, BitVec.toNat_ushiftRight, BitVec.toNat_ofNat,
      Nat.shiftRight_eq_div_pow]
    omega

-- From here on the word is known by these lemmas alone: unfolding it would compute with
-- 64-bit numbers.
attribute [irreducible] leaseWord

/-- What a step does to the lease word and to the number of leases: nothing, or one lease is
    taken, given back, or given back and counted as released. -/
inductive LeaseMove (word word' : BitVec 64) (l l' : ℕ) : ℕ → Prop
  | same : word' = word → l' = l → LeaseMove word word' l l' 0
  | acquire : word' = word + kAcquire → l' = l + 1 → LeaseMove word word' l l' 0
  | forget : word' = word + -kAcquire → l' + 1 = l → LeaseMove word word' l l' 0
  | release : word' = word + kRelease → l' + 1 = l → LeaseMove word word' l l' 1

/-- The word goes on counting. -/
theorem LeaseMove.word {word word' : BitVec 64} {l l' n r : ℕ} (h : LeaseMove word word' l l' n)
    (hword : word = leaseWord l r) : word' = leaseWord l' (r + n) := by
  cases h with
  | same hw hl => rw [hw, hword, hl, add_zero]
  | acquire hw hl => rw [hw, hword, leaseWord_acquire, hl, add_zero]
  | forget hw hl => rw [hw, hword, ← hl, leaseWord_forget, add_zero]
  | release hw hl => rw [hw, hword, ← hl, leaseWord_release]

/-- Leases that the step does not touch. -/
theorem LeaseMove.add {word word' : BitVec 64} {l l' n : ℕ} (h : LeaseMove word word' l l' n)
    (k : ℕ) : LeaseMove word word' (k + l) (k + l') n := by
  cases h with
  | same hw hl => exact .same hw (by omega)
  | acquire hw hl => exact .acquire hw (by omega)
  | forget hw hl => exact .forget hw (by omega)
  | release hw hl => exact .release hw (by omega)

/-! ## The lease word counts the leases -/

section Word

variable [DecidableEq ι] [DecidableEq F] [Fintype ι] [Fintype F]

/-- The lease word counts the leases out, and `r` releases. -/
def WordOk (s : FdState ι F) (r : ℕ) : Prop := s.leases = leaseWord s.leaseCount r

/-- **Step lemma**: the lease word changes by the leases taken and returned, and each
    release adds an epoch. -/
theorem FdStep.leaseMove {i : ι} {s s' : FdState ι F} {e : FdEvent ι F} (hs : FdStep i s e s') :
    LeaseMove s.leases s'.leases s.leaseCount s'.leaseCount e.releases := by
  have hleases {n : BitVec 64} {pc : FdPc} (hpc : s.pc i = pc) {l : ℕ} (hl : pc.leases = l) :
      ((s.addLeases n).pc i).leases = l := by
    rw [addLeases_pc, hpc, hl]
  cases hs with
  | reserve hpc =>
    refine .acquire (by simp) ?_
    rw [leaseCount_setPc_gain _ (hleases hpc rfl) rfl, leaseCount_addLeases]
  | opened f hpc hf =>
    -- The lease of the reservation is now that of the descriptor.
    refine .same rfl (leaseCount_exchange { s with opened := s.opened + 1 } ?_)
    simp [hpc, hf, FdPc.leases, FdPc.reserved, FdPc.releasing]
  | dropReservation hpc =>
    refine .forget (by simp) ?_
    rw [leaseCount_setPc_lose _ (hleases hpc rfl) rfl, leaseCount_addLeases]
  | forget hpc =>
    refine .forget (by simp) ?_
    rw [leaseCount_setPc_lose _ (hleases hpc rfl) (by split_ifs <;> rfl), leaseCount_addLeases]
  | close hpc hf =>
    -- The lease of the descriptor is now to be returned.
    refine .same rfl (leaseCount_exchange s ?_)
    simp [hpc, hf, FdPc.leases, FdPc.reserved, FdPc.releasing]
  | release hpc =>
    refine .release (by simp) ?_
    rw [leaseCount_setPc_lose _ (hleases hpc rfl) rfl, leaseCount_addLeases]
  | @handOff f d hpc hf =>
    refine .forget (by simp) ?_
    rw [leaseCount_setFd_lose _ (d := d) (by simpa using hf), leaseCount_addLeases]
  | move hpc hne hg => exact .same rfl (leaseCount_move s hne hg)
  | notExhausted => exact .same rfl rfl
  | capacityStep hpc | capacityDone hpc | noRaise hpc | raise hpc | setMax hpc | setMaxFailed hpc
  | setLimit hpc | setLimitFailed hpc | storeCapacity hpc | storeCeiling hpc | failed _ hpc
  | refused _ hpc | loadCeiling hpc | ceilingLow hpc | ceilingLowered hpc | ceilingAgain hpc
  | loadLeases hpc | readCapacity hpc | readCapacityStep hpc | capacityRead hpc
  | exhaustedCeiling hpc | exhaustedRead hpc =>
    refine .same rfl (leaseCount_setPc_of_eq _ ?_)
    simp [hpc, FdPc.leases, FdPc.reserved, FdPc.releasing]

/-- **The lease word counts the leases** in every reachable state. -/
theorem word_of_run {tr : List (FdEvent ι F)} {s : FdState ι F} (h : (fdSystem ι F).Run tr s) :
    WordOk s (releaseCount tr) := by
  refine h.invariant (I := fun tr s => WordOk s (releaseCount tr)) ?_ ?_
  · rintro s ⟨soft, hard, maxFiles, rfl⟩
    have hcount : (FdState.initial soft hard maxFiles : FdState ι F).leaseCount = 0 := by
      simp [FdState.leaseCount, FdState.initial, FdPc.leases, FdPc.reserved, FdPc.releasing]
    rw [WordOk, hcount]
    exact leaseWord_zero.symm
  · rintro tr s e s' - hword ⟨i, hs⟩
    simpa [WordOk] using hs.leaseMove.word hword

end Word

end Remmy.Os
