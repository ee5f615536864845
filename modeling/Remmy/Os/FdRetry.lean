import Remmy.Os.FdRefused

/-!
# Descriptor Leases: What "Retryable" Promises

`OpenError::retryable` reads "Refused for lack of descriptors while one of ours held".
`retry_held_iff` says exactly when that is true of the verdict of `Refused`: it is not
when another thread's reservation, of an open that has not succeeded, is what the last
read counts, nor when a descriptor that was closed before the `Reserve` is counted as
released only after it.
-/

namespace Remmy.Os

open Remmy.Lib
open FdState

universe u v

variable {ι : Type u} {F : Type v} [DecidableEq ι] [DecidableEq F]

/-! ## Stretches in which nothing is held -/

/-- Some `Fd` holds a descriptor. -/
def FdState.Holds (s : FdState ι F) : Prop := ∃ f d, s.fd f = some d

/-- At some moment between the `Reserve` of a call and its verdict, some `Fd` holds a
    descriptor. -/
def HeldDuring (s₁ : FdState ι F) (p : List (FdEvent ι F × FdState ι F)) : Prop :=
  s₁.Holds ∨ ∃ x ∈ p, x.2.Holds

/-- The threads that have closed a descriptor and not yet counted it as released. -/
def FdState.releasingCount [Fintype ι] (s : FdState ι F) : ℕ := ∑ i, (s.pc i).releasing.toNat

/-- The threads with a reservation that is not settled. -/
def FdState.reservedCount [Fintype ι] (s : FdState ι F) : ℕ := ∑ i, (s.pc i).reserved.toNat

section Counts

variable [Fintype ι]

omit [DecidableEq ι] [DecidableEq F] in
/-- With nothing held, the leases are reservations and pending releases. -/
theorem leaseCount_of_not_holds [Fintype F] {s : FdState ι F} (h : ¬s.Holds) :
    s.leaseCount = s.reservedCount + s.releasingCount := by
  have hnone : ∀ f, s.fd f = none := by
    intro f
    cases hf : s.fd f with
    | none => rfl
    | some d => exact absurd ⟨f, d, hf⟩ h
  simp [FdState.leaseCount, FdState.reservedCount, FdState.releasingCount, FdPc.leases, hnone,
    Finset.sum_add_distrib]

omit [DecidableEq ι] [DecidableEq F] in
theorem releasingCount_le [Fintype F] (s : FdState ι F) : s.releasingCount ≤ s.leaseCount := by
  have hle : s.releasingCount ≤ ∑ i, (s.pc i).leases :=
    Finset.sum_le_sum fun i _ => Nat.le_add_left _ _
  exact hle.trans (Nat.le_add_left _ _)

omit [DecidableEq ι] [DecidableEq F] [Fintype ι] in
theorem toNat_pos_iff : ∀ b : Bool, 0 < b.toNat ↔ b = true := by decide

omit [DecidableEq ι] [DecidableEq F] in
theorem releasingCount_pos (s : FdState ι F) :
    0 < s.releasingCount ↔ ∃ i, (s.pc i).releasing = true := by
  simp [FdState.releasingCount, Finset.sum_pos_iff, toNat_pos_iff]

omit [DecidableEq ι] [DecidableEq F] in
theorem reservedCount_pos (s : FdState ι F) :
    0 < s.reservedCount ↔ ∃ i, (s.pc i).reserved = true := by
  simp [FdState.reservedCount, Finset.sum_pos_iff, toNat_pos_iff]

omit [DecidableEq F] in
theorem releasingCount_setPc (s : FdState ι F) (i : ι) (pc : FdPc) :
    (s.setPc i pc).releasingCount + (s.pc i).releasing.toNat =
      s.releasingCount + pc.releasing.toNat :=
  sum_update_add s.pc (fun _ pc => pc.releasing.toNat) i pc

omit [DecidableEq F] in
theorem releasingCount_setPc_of_eq {s : FdState ι F} {i : ι} {pc : FdPc}
    (heq : (s.pc i).releasing = pc.releasing) :
    (s.setPc i pc).releasingCount = s.releasingCount := by
  have hpc := releasingCount_setPc s i pc
  rw [heq] at hpc
  omega

omit [DecidableEq ι] [DecidableEq F] in
theorem releasingCount_addLeases (s : FdState ι F) (n : BitVec 64) :
    (s.addLeases n).releasingCount = s.releasingCount := by
  simp [FdState.releasingCount]

/-- Step lemma: while nothing is held, a pending release can only be counted. -/
theorem FdStep.releasingCount {i : ι} {s s' : FdState ι F} {e : FdEvent ι F} (hs : FdStep i s e s')
    (h : ¬s.Holds) : s'.releasingCount + e.releases = s.releasingCount := by
  cases hs with
  | @release d hpc =>
    have hcount := releasingCount_setPc (s.addLeases kRelease) i .idle
    rw [releasingCount_addLeases, addLeases_pc, hpc] at hcount
    exact hcount
  | close _ hf | handOff _ hf => exact absurd ⟨_, _, hf⟩ h
  | reserve hpc | dropReservation hpc =>
    rw [releasingCount_setPc_of_eq (by rw [addLeases_pc, hpc]; rfl), releasingCount_addLeases]
    rfl
  | forget hpc =>
    rw [releasingCount_setPc_of_eq (by rw [addLeases_pc, hpc]; split_ifs <;> rfl),
      releasingCount_addLeases]
    rfl
  | move | notExhausted => rfl
  | opened _ hpc | capacityStep hpc | capacityDone hpc | noRaise hpc | raise hpc | setMax hpc
  | setMaxFailed hpc | setLimit hpc | setLimitFailed hpc | storeCapacity hpc | storeCeiling hpc
  | failed _ hpc | refused _ hpc | loadCeiling hpc | ceilingLow hpc | ceilingLowered hpc
  | ceilingAgain hpc | loadLeases hpc | readCapacity hpc | readCapacityStep hpc | capacityRead hpc
  | exhaustedCeiling hpc | exhaustedRead hpc =>
    refine releasingCount_setPc_of_eq ?_
    simp [hpc, FdPc.releasing]

/-- Run lemma: while nothing is held, what is pending at the start is pending or counted. -/
theorem releasingCount_path {s t : FdState ι F} {p : List (FdEvent ι F × FdState ι F)}
    (h : (fdSystem ι F).Path s p t) (hheld : ¬HeldDuring s p) :
    t.releasingCount + pathReleases p = s.releasingCount := by
  induction h with
  | nil s => rfl
  | @cons s s' t e p hstep hrest ih =>
    obtain ⟨i, hs⟩ := hstep
    simp only [HeldDuring, List.mem_cons, exists_eq_or_imp, not_or] at hheld
    have hfirst := hs.releasingCount hheld.1
    have hlater := ih (not_or.mpr hheld.2)
    simp only [pathReleases, List.map_cons, releaseCount_cons] at hlater ⊢
    omega

omit [DecidableEq F] [Fintype ι] in
/-- Nothing held along a stretch means nothing held at its end. -/
theorem not_holds_end [DecidableEq F] {s t : FdState ι F} {p : List (FdEvent ι F × FdState ι F)}
    (h : (fdSystem ι F).Path s p t) (hheld : ¬HeldDuring s p) : ¬t.Holds := by
  induction h with
  | nil s => exact (not_or.mp hheld).1
  | cons hstep hrest ih =>
    simp only [HeldDuring, List.mem_cons, exists_eq_or_imp, not_or] at hheld
    exact ih (not_or.mpr hheld.2)

end Counts

/-! ## When a retryable refusal was ours -/

variable [Fintype ι] [Fintype F]
variable {i : ι} {tr : List (FdEvent ι F)} {s₀ s₁ s₂ s₃ : FdState ι F}
  {p : List (FdEvent ι F × FdState ι F)} {code : Errno} {verdict : Bool}

/-- With nothing held, the verdict counts reservations of other threads and releases that
    were pending at the `Reserve`. -/
theorem RefusedCall.verdict_of_not_held (c : RefusedCall i tr s₀ s₁ p s₂ code verdict s₃)
    (hheld : ¬HeldDuring s₁ p) (hbefore : s₀.leaseCount < 2 ^ 32) (hnow : s₂.leaseCount < 2 ^ 32) :
    verdict = true ↔
      (∃ j, (s₂.pc j).reserved = true) ∨ ∃ j, (s₀.pc j).releasing = true := by
  have hpending : s₁.releasingCount = s₀.releasingCount := by
    cases c.reserve with
    | reserve hpc =>
      rw [releasingCount_setPc_of_eq (by rw [addLeases_pc, hpc]; rfl), releasingCount_addLeases]
  have hpath := releasingCount_path c.path hheld
  have hcount := leaseCount_of_not_holds (not_holds_end c.path hheld)
  have hle := releasingCount_le s₀
  rw [c.verdict_iff, ← reservedCount_pos, ← releasingCount_pos]
  -- Everything left is arithmetic on these counts.
  omega

/-- **When a retryable refusal was ours.**  The verdict `true` of a call is justified by a
    descriptor held at some moment of the call if and only if one was held, or the lease
    word reads at the end as it did at the start with nothing leased; with fewer than
    `2 ^ 32` leases out, the latter means that at the last read no thread has an unsettled
    reservation and that at the `Reserve` no thread was between `::close` and
    `Pool::Release`. -/
theorem retry_held_iff (c : RefusedCall i tr s₀ s₁ p s₂ code verdict s₃) :
    ((verdict = true → HeldDuring s₁ p) ↔
      HeldDuring s₁ p ∨ (s₂.leaseCount % 2 ^ 32 = 0 ∧
        (releaseCount tr + pathReleases p + s₂.leaseCount / 2 ^ 32) % 2 ^ 32 =
          (releaseCount tr + s₀.leaseCount / 2 ^ 32) % 2 ^ 32)) ∧
      (s₀.leaseCount < 2 ^ 32 → s₂.leaseCount < 2 ^ 32 →
        ((verdict = true → HeldDuring s₁ p) ↔
          HeldDuring s₁ p ∨ ((∀ j, (s₂.pc j).reserved = false) ∧
            ∀ j, (s₀.pc j).releasing = false))) := by
  constructor
  · rw [c.verdict_iff]
    by_cases hheld : HeldDuring s₁ p
    · simp only [hheld, true_or, implies_true]
    · simp only [hheld, imp_false, false_or, not_not]
  · intro hbefore hnow
    by_cases hheld : HeldDuring s₁ p
    · simp only [hheld, true_or, implies_true]
    · rw [c.verdict_of_not_held hheld hbefore hnow]
      simp only [hheld, imp_false, false_or, not_or, not_exists, Bool.not_eq_true]

omit [DecidableEq ι] [DecidableEq F] [Fintype ι] [Fintype F] in
theorem not_heldDuring_of_quiet {s : FdState ι F} (h : ∀ f, s.fd f = none) (hfd₁ : s₁.fd = s.fd)
    (hquiet : Quiet i s p) : ¬HeldDuring s₁ p := by
  rintro (⟨f, d, hf⟩ | ⟨x, hx, f, d, hf⟩)
  · rw [hfd₁, h f] at hf
    cases hf
  · rw [(hquiet x hx).2, h f] at hf
    cases hf

/-- A second open, refused while the first descriptor is held. -/
theorem retry_held_iff_second : ∃ (tr : List (FdEvent (Fin 1) Unit))
    (s₀ s₁ s₂ s₃ : FdState (Fin 1) Unit) (p : List (FdEvent (Fin 1) Unit × FdState (Fin 1) Unit)),
    RefusedCall 0 tr s₀ s₁ p s₂ .emfile true s₃ ∧ HeldDuring s₁ p ∧
      ((true = true → HeldDuring s₁ p) ↔
        HeldDuring s₁ p ∨ ((∀ j, (s₂.pc j).reserved = false) ∧
          ∀ j, (s₀.pc j).releasing = false)) := by
  obtain ⟨tr, s₀, hrun, hfd, hword, hknown, hidle, -⟩ := exists_parked 0 0 le_rfl
  obtain ⟨s₁, p, m, q, s₂, s₃, hcall, -, hfd₁, -⟩ := refusedCall_alone hrun hidle hknown hword
  have hheld : s₁.Holds := ⟨(), 0, by rw [hfd₁, hfd]⟩
  have hcount (s : FdState (Fin 1) Unit) : s.leaseCount < 2 ^ 32 :=
    Nat.lt_of_le_of_lt s.leaseCount_le (by decide)
  exact ⟨tr, s₀, s₁, s₂, s₃, _, hcall, .inl hheld, (retry_held_iff hcall).2 (hcount _) (hcount _)⟩

/-- Two threads whose opens are both refused: the reservation of one makes the refusal of
    the other retryable, though no descriptor was ever opened. -/
theorem retry_without_descriptor : ∃ (tr : List (FdEvent (Fin 2) Unit))
    (s₀ s₁ s₂ s₃ : FdState (Fin 2) Unit) (p : List (FdEvent (Fin 2) Unit × FdState (Fin 2) Unit)),
    RefusedCall 0 tr s₀ s₁ p s₂ .emfile true s₃ ∧ ¬HeldDuring s₁ p ∧ ∀ f, s₃.fd f = none := by
  have hstart : (fdSystem (Fin 2) Unit).Run [] (.initial 0 0 0) := .start ⟨0, 0, 0, rfl⟩
  have hother := hstart.next ⟨1, .reserve rfl⟩
  obtain ⟨s₁, p, m, q, s₂, s₃, hcall, hquiet, hfd₁, hfd₃⟩ :=
    refusedCall_alone (i := 0) (l := 1) (r := 0) hother
      (by rw [setPc_of_ne _ _ (by decide), addLeases_pc]; rfl)
      (by rw [setPc_knownCapacity, addLeases_knownCapacity]; rfl)
      (by rw [setPc_leases, addLeases_leases, ← leaseWord_acquire, leaseWord_zero]; rfl)
  have hnone : ∀ f, (((FdState.initial 0 0 0 : FdState (Fin 2) Unit).addLeases kAcquire).setPc 1
      (.capacity (.unpack 0) .load)).fd f = none := by
    intro f
    rw [setPc_fd, addLeases_fd]
    rfl
  refine ⟨_, _, s₁, s₂, s₃, _, hcall, not_heldDuring_of_quiet hnone hfd₁ hquiet, fun f => ?_⟩
  rw [hfd₃]
  exact hnone f

end Remmy.Os
