import Remmy.Os.FdLeases

/-!
# Descriptor Leases: the Verdict of `Refused`

`Fd::Open` calls a refusal for lack of descriptors retryable when `Reservation::Refused`
says so, which compares the leases before its own `Reserve` with those it reads last.

- A retry that could help is never denied: a descriptor that was held when the kernel
  refused is still leased at the last read, or was released since and moved the epoch.
- A retry is also granted for leases that are not descriptors, and `retry_held_iff` says
  exactly when.
-/

namespace Remmy.Os

open Remmy.Lib
open FdState

universe u v

variable {ι : Type u} {F : Type v}

/-! ## A call of `Refused` -/

/-- The leases a thread read at its `Reserve`, while `Fd::Open` still needs them. -/
def FdPc.before : FdPc → Option Leases
  | .capacity before _ | .checkRaise before _ | .setMax before | .setLimit before _
  | .storeCapacity before _ | .storeCeiling before | .opening before | .forget before _
  | .loadCeiling before _ | .casCeiling before _ _ | .loadLeases before _ => some before
  | _ => none

section Call

variable [DecidableEq ι] [DecidableEq F]

/-- In the run `tr` to `s₀`, thread `i` reserves; along `p` it is refused and comes to
    the last read of `Refused` in `s₂`, which finds `verdict`. -/
structure RefusedCall (i : ι) (tr : List (FdEvent ι F)) (s₀ s₁ : FdState ι F)
    (p : List (FdEvent ι F × FdState ι F)) (s₂ : FdState ι F) (code : Errno) (verdict : Bool)
    (s₃ : FdState ι F) : Prop where
  run : (fdSystem ι F).Run tr s₀
  reserve : FdStep i s₀ (.reserve i) s₁
  path : (fdSystem ι F).Path s₁ p s₂
  /-- It is the same call: no other `Reserve` of the thread in between. -/
  same : ∀ x ∈ p, x.1 ≠ .reserve i
  atLoad : ∃ before, s₂.pc i = .loadLeases before code
  verdict : FdStep i s₂ (.returned i ⟨code, verdict⟩) s₃

/-- The releases along a stretch. -/
def pathReleases (p : List (FdEvent ι F × FdState ι F)) : ℕ := releaseCount (p.map Prod.fst)

/-- A thread's step leaves the other threads where they stand. -/
theorem FdStep.pc_of_ne {i j : ι} {s s' : FdState ι F} {e : FdEvent ι F} (hs : FdStep i s e s')
    (hj : j ≠ i) : s'.pc j = s.pc j := by
  cases hs with
  | handOff | move | notExhausted => simp
  | _ => simp [setPc_of_ne _ _ hj]

/-- A call remembers the leases of its own `Reserve`. -/
theorem FdStep.before {i j : ι} {s s' : FdState ι F} {e : FdEvent ι F} {b₀ : Leases}
    (hs : FdStep j s e s') (he : e ≠ .reserve i)
    (h : ∀ b, (s.pc i).before = some b → b = b₀) (b : Leases) (hb : (s'.pc i).before = some b) :
    b = b₀ := by
  by_cases hij : i = j
  · subst hij
    cases hs with
    | reserve => exact absurd rfl he
    | forget hpc =>
      apply h b
      simp only [setPc_self] at hb
      rw [hpc]
      split_ifs at hb <;> exact hb
    | handOff | move | notExhausted => exact h b (by simpa using hb)
    | capacityStep hpc | capacityDone hpc | noRaise hpc | raise hpc | setMax hpc | setMaxFailed hpc
    | setLimit hpc | setLimitFailed hpc | storeCapacity hpc | storeCeiling hpc | refused _ hpc
    | loadCeiling hpc | ceilingLow hpc | ceilingLowered hpc | ceilingAgain hpc =>
      apply h b
      simp only [setPc_self] at hb
      rw [hpc]
      exact hb
    | _ =>
      -- The thread is done with its reservation, or never had one.
      simp only [setPc_self] at hb
      cases hb
  · rw [hs.pc_of_ne hij] at hb
    exact h b hb

theorem RefusedCall.verdict_eq {i : ι} {tr : List (FdEvent ι F)} {s₀ s₁ s₂ s₃ : FdState ι F}
    {p : List (FdEvent ι F × FdState ι F)} {code : Errno} {verdict : Bool}
    (c : RefusedCall i tr s₀ s₁ p s₂ code verdict s₃) :
    verdict = (Leases.unpack s₀.leases).retry (.unpack s₂.leases) := by
  obtain ⟨before, hpc⟩ := c.atLoad
  have hbefore : before = .unpack s₀.leases := by
    have hkept := c.path.invariant (I := fun s => ∀ b, (s.pc i).before = some b →
      b = .unpack s₀.leases) ?_ ?_
    · exact hkept before (by rw [hpc]; rfl)
    · intro b hb
      cases c.reserve
      simp only [setPc_self, FdPc.before, Option.some.injEq] at hb
      exact hb.symm
    · rintro s x hx h ⟨j, hs⟩
      exact hs.before (c.same x hx) h
  cases c.verdict with
  | loadLeases hload =>
    rw [hpc] at hload
    cases hload
    rw [hbefore]
  | dropReservation hdrop =>
    rw [hpc] at hdrop
    cases hdrop

end Call

/-! ## The verdict in terms of the leases -/

section Verdict

variable [DecidableEq ι] [DecidableEq F] [Fintype ι] [Fintype F]
variable {i : ι} {tr : List (FdEvent ι F)} {s₀ s₁ s₂ s₃ : FdState ι F}
  {p : List (FdEvent ι F × FdState ι F)} {code : Errno} {verdict : Bool}

theorem retry_iff (l₀ r₀ l r : ℕ) :
    (Leases.unpack (leaseWord l₀ r₀)).retry (.unpack (leaseWord l r)) = true ↔
      ¬(l % 2 ^ 32 = 0 ∧ (r + l / 2 ^ 32) % 2 ^ 32 = (r₀ + l₀ / 2 ^ 32) % 2 ^ 32) := by
  have hlive : BitVec.ofNat 32 l = 0 ↔ l % 2 ^ 32 = 0 := by
    rw [← BitVec.toNat_inj, BitVec.toNat_ofNat]
    rfl
  have hepoch : BitVec.ofNat 32 (r + l / 2 ^ 32) = BitVec.ofNat 32 (r₀ + l₀ / 2 ^ 32) ↔
      (r + l / 2 ^ 32) % 2 ^ 32 = (r₀ + l₀ / 2 ^ 32) % 2 ^ 32 := by
    rw [← BitVec.toNat_inj, BitVec.toNat_ofNat, BitVec.toNat_ofNat]
  rw [unpack_word, unpack_word, Leases.retry]
  simp only [ne_eq, hlive, hepoch, Bool.or_eq_true, decide_eq_true_eq]
  tauto

/-- The verdict says whether the count of leases or the epoch reads differently from
    "none leased, none released". -/
theorem RefusedCall.verdict_iff (c : RefusedCall i tr s₀ s₁ p s₂ code verdict s₃) :
    verdict = true ↔ ¬(s₂.leaseCount % 2 ^ 32 = 0 ∧
      (releaseCount tr + pathReleases p + s₂.leaseCount / 2 ^ 32) % 2 ^ 32 =
        (releaseCount tr + s₀.leaseCount / 2 ^ 32) % 2 ^ 32) := by
  have hword₀ : s₀.leases = _ := word_of_run c.run
  have hrun : (fdSystem ι F).Run (tr ++ [.reserve i] ++ p.map Prod.fst) s₂ :=
    c.path.run (c.run.next ⟨i, c.reserve⟩)
  have hword₂ : s₂.leases = _ := word_of_run hrun
  have hcount : releaseCount (tr ++ [.reserve i] ++ p.map Prod.fst) =
      releaseCount tr + pathReleases p := by
    simp [pathReleases, FdEvent.releases]
  rw [c.verdict_eq, hword₀, hword₂, hcount]
  exact retry_iff _ _ _ _

end Verdict

/-! ## A call that nobody disturbs -/

section Alone

variable [DecidableEq ι] [DecidableEq F]

/-- Every entry of a stretch is a step of one open that changes no `Fd`. -/
def Quiet (i : ι) (s : FdState ι F) (p : List (FdEvent ι F × FdState ι F)) : Prop :=
  ∀ x ∈ p, (x.1 = .internal ∨ ∃ code, x.1 = .refused i code) ∧ x.2.fd = s.fd

omit [DecidableEq ι] [DecidableEq F] in
theorem Quiet.append {i : ι} {s : FdState ι F} {p q : List (FdEvent ι F × FdState ι F)}
    (hp : Quiet i s p) (hq : Quiet i s q) : Quiet i s (p ++ q) := by
  intro x hx
  rcases List.mem_append.mp hx with hx | hx
  · exact hp x hx
  · exact hq x hx

omit [DecidableEq ι] [DecidableEq F] in
theorem Quiet.releases {i : ι} {s : FdState ι F} {p : List (FdEvent ι F × FdState ι F)}
    (h : Quiet i s p) : pathReleases p = 0 := by
  induction p with
  | nil => rfl
  | cons x p ih =>
    have hrest := ih fun y hy => h y (List.mem_cons_of_mem _ hy)
    have hx : x.1.releases = 0 := by
      rcases (h x List.mem_cons_self).1 with he | ⟨code, he⟩ <;> rw [he] <;> rfl
    simp only [pathReleases, List.map_cons, releaseCount_cons, hx] at hrest ⊢
    omega

/-- `RaiseIfNeeded` alone, when `Get()` fails: the capacity stays unknown. -/
theorem raiseIfNeeded_alone {i : ι} {s : FdState ι F} {before : Leases}
    (hpc : s.pc i = .capacity before .load) (hknown : s.knownCapacity = 0) :
    ∃ p s', (fdSystem ι F).Path s p s' ∧ Quiet i s p ∧ s'.knownCapacity = 0 ∧ s'.fd = s.fd ∧
      s'.leases = s.leases ∧ s'.opened = s.opened ∧
      s'.pc = Function.update s.pc i (.opening before) := by
  have hload := (System.Path.nil _).snoc (S := fdSystem ι F)
    ⟨i, FdStep.capacityStep hpc (.unknown hknown)⟩
  have hget := hload.snoc ⟨i, FdStep.capacityStep (setPc_self ..) .getFailed⟩
  have hstore := hget.snoc ⟨i, FdStep.capacityDone (setPc_self ..) .store⟩
  have hopening := hstore.snoc ⟨i, FdStep.noRaise (setPc_self ..) (.inl rfl)⟩
  refine ⟨_, _, hopening, ?_, rfl, rfl, rfl, rfl, ?_⟩
  · intro x hx
    simp only [List.nil_append, List.cons_append, List.mem_cons, List.not_mem_nil, or_false] at hx
    rcases hx with rfl | rfl | rfl | rfl <;> exact ⟨.inl rfl, rfl⟩
  · simp [FdState.setPc]

/-- A thread on its own gets from `Reserve` to its `open_fn`. -/
theorem reserve_alone {i : ι} {s : FdState ι F} (hidle : s.pc i = .idle)
    (hknown : s.knownCapacity = 0) :
    ∃ s₁ p s₂, FdStep i s (.reserve i) s₁ ∧ s₁.fd = s.fd ∧ (fdSystem ι F).Path s₁ p s₂ ∧
      Quiet i s p ∧ s₂.knownCapacity = 0 ∧ s₂.fd = s.fd ∧ s₂.leases = s.leases + kAcquire ∧
      s₂.opened = s.opened ∧ s₂.pc = Function.update s.pc i (.opening (.unpack s.leases)) := by
  obtain ⟨p, s₂, hp, hquiet, hknown₂, hfd₂, hword₂, hopened₂, hpc₂⟩ :=
    raiseIfNeeded_alone (s := (s.addLeases kAcquire).setPc i (.capacity (.unpack s.leases) .load))
      (setPc_self ..) (by simpa using hknown)
  refine ⟨_, p, s₂, .reserve hidle, by simp, hp, fun x hx => ?_, hknown₂, ?_, ?_, ?_, ?_⟩
  · simpa using hquiet x hx
  · simpa using hfd₂
  · simpa using hword₂
  · simpa using hopened₂
  · simpa [FdState.setPc] using hpc₂

/-- The loop of `Refused` that lowers the ceiling, alone. -/
theorem lowerCeiling_alone {i : ι} {s : FdState ι F} {before : Leases} {code : Errno}
    (hpc : s.pc i = .loadCeiling before code) :
    ∃ p s', (fdSystem ι F).Path s p s' ∧ Quiet i s p ∧ s'.fd = s.fd ∧ s'.leases = s.leases ∧
      s'.pc i = .loadLeases before code := by
  have hload := (System.Path.nil _).snoc (S := fdSystem ι F) ⟨i, FdStep.loadCeiling hpc⟩
  -- The ceiling is lowered to what was held, or is that low already.
  cases hlow : lowersCeiling before.live.toNat s.observedCeiling with
  | true =>
    have hlast := hload.snoc ⟨i, FdStep.ceilingLowered (setPc_self ..) hlow⟩
    exact ⟨_, _, hlast, by simp [Quiet], rfl, rfl, setPc_self ..⟩
  | false =>
    have hlast := hload.snoc ⟨i, FdStep.ceilingLow (setPc_self ..) hlow⟩
    exact ⟨_, _, hlast, by simp [Quiet], rfl, rfl, setPc_self ..⟩

/-- A thread on its own, refused by the kernel, gets to the last read of `Refused`. -/
theorem refused_alone {i : ι} {s : FdState ι F} {before : Leases} (hpc : s.pc i = .opening before)
    (code : Errno) (hcode : code.outOfDescriptors = true) :
    ∃ m q s₂, (fdSystem ι F).Path s ((.refused i code, m) :: q) s₂ ∧
      Quiet i s ((.refused i code, m) :: q) ∧ s₂.fd = s.fd ∧ s₂.leases = s.leases + -kAcquire ∧
      s₂.pc i = .loadLeases before code := by
  have hrefused : (fdSystem ι F).step s (.refused i code) (s.setPc i (.forget before code)) :=
    ⟨i, .refused code hpc hcode⟩
  have hforget : (fdSystem ι F).step (s.setPc i (.forget before code)) .internal _ :=
    ⟨i, .forget (setPc_self ..)⟩
  by_cases hlive : before.live = 0
  · rw [if_neg (not_not_intro hlive)] at hforget
    refine ⟨_, _, _, .cons hrefused (.cons hforget (.nil _)), ?_, ?_, ?_, setPc_self ..⟩
    · intro x hx
      simp only [List.mem_cons, List.not_mem_nil, or_false] at hx
      rcases hx with rfl | rfl
      · exact ⟨.inr ⟨code, rfl⟩, by rw [setPc_fd]⟩
      · exact ⟨.inl rfl, by rw [setPc_fd, addLeases_fd, setPc_fd]⟩
    · rw [setPc_fd, addLeases_fd, setPc_fd]
    · rw [setPc_leases, addLeases_leases, setPc_leases]
  · rw [if_pos hlive] at hforget
    obtain ⟨q, s₂, hq, hquiet, hfd₂, hword₂, hpc₂⟩ :=
      lowerCeiling_alone (s := ((s.setPc i (.forget before code)).addLeases (-kAcquire)).setPc i
        (.loadCeiling before code)) (setPc_self ..)
    refine ⟨_, _, s₂, .cons hrefused (.cons hforget hq), ?_, ?_, ?_, hpc₂⟩
    · intro x hx
      simp only [List.mem_cons] at hx
      rcases hx with rfl | rfl | hx
      · exact ⟨.inr ⟨code, rfl⟩, by rw [setPc_fd]⟩
      · exact ⟨.inl rfl, by rw [setPc_fd, addLeases_fd, setPc_fd]⟩
      · exact ⟨(hquiet x hx).1, by rw [(hquiet x hx).2, setPc_fd, addLeases_fd, setPc_fd]⟩
    · rw [hfd₂, setPc_fd, addLeases_fd, setPc_fd]
    · rw [hword₂, setPc_leases, addLeases_leases, setPc_leases]

/-- **A call that nobody disturbs** is called retryable according to the leases that were
    out before it. -/
theorem refusedCall_alone {i : ι} {tr : List (FdEvent ι F)} {s : FdState ι F} {l r : ℕ}
    (hrun : (fdSystem ι F).Run tr s) (hidle : s.pc i = .idle) (hknown : s.knownCapacity = 0)
    (hword : s.leases = leaseWord l r) :
    ∃ s₁ p m q s₂ s₃, RefusedCall i tr s s₁ (p ++ (.refused i .emfile, m) :: q) s₂ .emfile
        (l % 2 ^ 32 ≠ 0) s₃ ∧
      Quiet i s (p ++ (.refused i .emfile, m) :: q) ∧ s₁.fd = s.fd ∧ s₃.fd = s.fd := by
  obtain ⟨s₁, p, m₀, hreserve, hfd₁, hp, hquietp, -, hfd₀, hword₀, -, hpc₀⟩ :=
    reserve_alone hidle hknown
  have hopening : m₀.pc i = .opening (.unpack s.leases) := by
    rw [hpc₀, Function.update_self]
  obtain ⟨m, q, s₂, hq, hquietq, hfd₂, hword₂, hpc₂⟩ := refused_alone hopening .emfile rfl
  have hquiet : Quiet i s (p ++ (.refused i .emfile, m) :: q) :=
    hquietp.append fun x hx => ⟨(hquietq x hx).1, (hquietq x hx).2.trans hfd₀⟩
  have hnow : s₂.leases = leaseWord l r := by
    rw [hword₂, hword₀, hword, leaseWord_acquire, leaseWord_forget]
  have hverdict : (Leases.unpack s.leases).retry (.unpack s₂.leases) = decide (l % 2 ^ 32 ≠ 0) := by
    rw [hnow, hword, Bool.eq_iff_iff, retry_iff, decide_eq_true_iff, and_iff_left rfl]
  refine ⟨s₁, p, m, q, s₂, s₂.setPc i .idle, ⟨hrun, hreserve, hp.append hq, ?_, ⟨_, hpc₂⟩, ?_⟩,
    hquiet, hfd₁, ?_⟩
  · intro x hx he
    rcases (hquiet x hx).1 with h | ⟨_, h⟩ <;> rw [he] at h <;> cases h
  · rw [← hverdict]
    exact .loadLeases hpc₂
  · exact hfd₂.trans hfd₀

end Alone

/-! ## A retry that could help is never denied -/

section NeverDenied

variable [DecidableEq ι] [DecidableEq F] {d : ℕ}

/-- A descriptor still has its lease: an `Fd` holds it, or it is closed and not released. -/
def FdState.Leased (s : FdState ι F) (d : ℕ) : Prop :=
  (∃ f, s.fd f = some d) ∨ ∃ j, s.pc j = .closing d

omit [DecidableEq ι] [DecidableEq F] in
/-- A lease is part of the count. -/
theorem FdState.Leased.leaseCount_pos [Fintype ι] [Fintype F] {s : FdState ι F}
    (h : s.Leased d) : 0 < s.leaseCount := by
  rcases h with ⟨f, hf⟩ | ⟨j, hj⟩
  · have hle : (s.fd f).isSome.toNat ≤ ∑ f, (s.fd f).isSome.toNat :=
      Finset.single_le_sum (f := fun f => (s.fd f).isSome.toNat) (fun _ _ => Nat.zero_le _)
        (Finset.mem_univ f)
    rw [hf] at hle
    exact Nat.lt_of_lt_of_le Nat.one_pos (hle.trans (Nat.le_add_right _ _))
  · have hle : (s.pc j).leases ≤ ∑ i, (s.pc i).leases :=
      Finset.single_le_sum (f := fun i => (s.pc i).leases) (fun _ _ => Nat.zero_le _)
        (Finset.mem_univ j)
    rw [hj] at hle
    exact Nat.lt_of_lt_of_le Nat.one_pos (hle.trans (Nat.le_add_left _ _))

omit [DecidableEq ι] in
theorem fd_setFd_of_held {s : FdState ι F} {f g : F} {r : Option ℕ} (hf : s.fd f = some d)
    (hg : s.fd g = none) : (s.setFd g r).fd f = some d := by
  have hne : f ≠ g := by
    rintro rfl
    rw [hf] at hg
    cases hg
  rw [setFd_of_ne _ _ hne, hf]

/-- Step lemma: a leased descriptor stays leased until it is released, unless it is handed
    off. -/
theorem FdStep.leased {i : ι} {s s' : FdState ι F} {e : FdEvent ι F} (hs : FdStep i s e s')
    (h : s.Leased d) (he : ∀ j f, e ≠ .handedOff j f d) : s'.Leased d ∨ e = .released i d := by
  rcases h with ⟨f, hf⟩ | ⟨j, hj⟩
  · left
    cases hs with
    | @opened _ g hpc hg => exact .inl ⟨f, fd_setFd_of_held hf hg⟩
    | @close g d' hpc hg =>
      by_cases hfg : f = g
      · subst hfg
        obtain rfl : d = d' := by simpa [hf] using hg
        exact .inr ⟨i, setPc_self ..⟩
      · exact .inl ⟨f, (setFd_of_ne s none hfg).trans hf⟩
    | @handOff g d' hpc hg =>
      have hfg : f ≠ g := by
        rintro rfl
        obtain rfl : d = d' := by simpa [hf] using hg
        exact he i f rfl
      exact .inl ⟨f, by rw [setFd_of_ne _ _ hfg, addLeases_fd, hf]⟩
    | @move g g' hpc hne hg' =>
      by_cases hfg : f = g
      · -- The descriptor moves along with its owner.
        subst hfg
        exact .inl ⟨g', by rw [setFd_of_ne _ _ hne.symm, setFd_self, hf]⟩
      · exact .inl ⟨f, by rw [setFd_of_ne _ _ hfg, fd_setFd_of_held hf hg']⟩
    | _ => exact .inl ⟨f, by simpa using hf⟩
  -- The descriptor is closed, and its lease is still to be returned.
  · by_cases hij : j = i
    · subst hij
      cases hs with
      | release hpc =>
        obtain rfl : d = _ := by simpa [hj] using hpc
        exact .inr rfl
      | handOff | move | notExhausted => exact .inl (.inr ⟨j, by simpa using hj⟩)
      | reserve hpc | capacityStep hpc | capacityDone hpc | noRaise hpc | raise hpc | setMax hpc
      | setMaxFailed hpc | setLimit hpc | setLimitFailed hpc | storeCapacity hpc | storeCeiling hpc
      | opened _ hpc | failed _ hpc | refused _ hpc | dropReservation hpc | forget hpc
      | loadCeiling hpc | ceilingLow hpc | ceilingLowered hpc | ceilingAgain hpc | loadLeases hpc
      | close hpc | readCapacity hpc | readCapacityStep hpc | capacityRead hpc
      | exhaustedCeiling hpc | exhaustedRead hpc =>
        rw [hj] at hpc
        cases hpc
    · exact .inl (.inr ⟨j, (hs.pc_of_ne hij).trans hj⟩)

/-- Run lemma: at the end of a stretch the descriptor is leased, or it was released. -/
theorem leased_path {s t : FdState ι F} {p : List (FdEvent ι F × FdState ι F)}
    (h : (fdSystem ι F).Path s p t) (hd : s.Leased d)
    (hkept : ∀ x ∈ p, ∀ j f, x.1 ≠ .handedOff j f d) : t.Leased d ∨ 0 < pathReleases p := by
  induction h with
  | nil s => exact .inl hd
  | @cons s s' t e p hstep _ ih =>
    obtain ⟨i, hs⟩ := hstep
    rcases hs.leased hd (hkept (e, s') List.mem_cons_self) with hd' | rfl
    · rcases ih hd' fun x hx => hkept x (List.mem_cons_of_mem _ hx) with hend | hpos
      · exact .inl hend
      · refine .inr (Nat.lt_of_lt_of_le hpos ?_)
        simp [pathReleases]
    · right
      simp [pathReleases, FdEvent.releases]

variable [Fintype ι] [Fintype F]
variable {i : ι} {tr : List (FdEvent ι F)} {s₀ s₁ s₂ s₃ m : FdState ι F}
  {p q : List (FdEvent ι F × FdState ι F)} {code : Errno} {verdict : Bool}

/-- **A retry that could help is never denied.**  If some `Fd` holds a descriptor in the
    state `m` in which the kernel has refused the open, and that descriptor is not handed
    off before the last read of `Refused`, the refusal is retryable, as long as fewer than
    `2 ^ 32` leases are out at the `Reserve` and at that read, and fewer than `2 ^ 32`
    closes are counted in between. -/
theorem retry_never_denied
    (c : RefusedCall i tr s₀ s₁ (p ++ (.refused i code, m) :: q) s₂ code verdict s₃) {f : F}
    (hheld : m.fd f = some d) (hkept : ∀ x ∈ q, ∀ j f, x.1 ≠ .handedOff j f d)
    (hcloses : pathReleases (p ++ (.refused i code, m) :: q) < 2 ^ 32)
    (hbefore : s₀.leaseCount < 2 ^ 32) (hnow : s₂.leaseCount < 2 ^ 32) : verdict = true := by
  obtain ⟨m', hp, hq⟩ := c.path.split
  have hrest : (fdSystem ι F).Path m q s₂ := by
    cases hq with
    | cons _ hrest => exact hrest
  rw [c.verdict_iff]
  rintro ⟨hlive, hepoch⟩
  rcases leased_path hrest (.inl ⟨f, hheld⟩) hkept with hleased | hreleased
  · -- Still leased: the counter is not 0.
    have hpos := hleased.leaseCount_pos
    omega
  · -- Released since: the epoch has moved.
    have hsome : pathReleases q ≤ pathReleases (p ++ (.refused i code, m) :: q) := by
      simp only [pathReleases, List.map_append, List.map_cons, releaseCount_append,
        releaseCount_cons]
      omega
    omega

end NeverDenied

/-- Thread 0 holds the first descriptor, and `n` of the `N` others have a reservation. -/
theorem exists_parked (N n : ℕ) (hn : n ≤ N) :
    ∃ (tr : List (FdEvent (Fin (N + 1)) Unit)) (s : FdState (Fin (N + 1)) Unit),
      (fdSystem (Fin (N + 1)) Unit).Run tr s ∧ s.fd () = some 0 ∧ s.leases = leaseWord (n + 1) 0 ∧
        s.knownCapacity = 0 ∧ s.pc 0 = .idle ∧ ∀ j : Fin (N + 1), n < (j : ℕ) → s.pc j = .idle := by
  induction n with
  | zero =>
    have hstart : (fdSystem (Fin (N + 1)) Unit).Run [] (.initial 0 0 0) := .start ⟨0, 0, 0, rfl⟩
    obtain ⟨s₁, p, s₂, hreserve, -, hp, -, hknown, hfd, hword, hopened, hpc⟩ :=
      reserve_alone (ι := Fin (N + 1)) (F := Unit) (i := 0) (s := .initial 0 0 0) rfl rfl
    have hrun := hp.run (hstart.next ⟨0, hreserve⟩)
    have hopening : s₂.pc 0 = .opening (.unpack 0) := by
      rw [hpc, Function.update_self]
      rfl
    refine ⟨_, _, hrun.next ⟨0, .opened () hopening (congrFun hfd ())⟩, ?_, ?_, hknown, ?_, ?_⟩
    · rw [setPc_fd, setFd_self, hopened]
      rfl
    · rw [setPc_leases, setFd_leases, hword, ← leaseWord_acquire, leaseWord_zero]
      rfl
    · rw [setPc_self]
    · intro j hj
      have hne : j ≠ 0 := fun h => by simp [h] at hj
      rw [setPc_of_ne _ _ hne, setFd_pc, hpc, Function.update_of_ne hne]
      rfl
  | succ n ih =>
    obtain ⟨tr, s, hrun, hfd, hword, hknown, hidle, hothers⟩ := ih (Nat.le_of_succ_le hn)
    -- The next thread reserves and goes no further.
    have hj := hothers ⟨n + 1, Nat.lt_succ_of_le hn⟩ (Nat.lt_succ_self n)
    refine ⟨_, _, hrun.next ⟨_, .reserve hj⟩, ?_, ?_, ?_, ?_, ?_⟩
    · rw [setPc_fd, addLeases_fd, hfd]
    · rw [setPc_leases, addLeases_leases, hword, leaseWord_acquire]
    · rw [setPc_knownCapacity, addLeases_knownCapacity, hknown]
    · rw [setPc_of_ne _ _ (by simp [Fin.ext_iff]), addLeases_pc, hidle]
    · intro j hj
      rw [setPc_of_ne _ _ (by rintro rfl; simp at hj), addLeases_pc, hothers j (by omega)]

/-- An open that is refused while its own thread's first descriptor is held. -/
theorem retry_never_denied_one : ∃ (tr : List (FdEvent (Fin 1) Unit))
    (s₀ s₁ s₂ s₃ m : FdState (Fin 1) Unit) (p q : List (FdEvent (Fin 1) Unit × FdState (Fin 1) Unit))
    (verdict : Bool), RefusedCall 0 tr s₀ s₁ (p ++ (.refused 0 .emfile, m) :: q) s₂ .emfile verdict s₃ ∧
      m.fd () = some 0 ∧ verdict = true := by
  obtain ⟨tr, s₀, hrun, hfd, hword, hknown, hidle, -⟩ := exists_parked 0 0 le_rfl
  obtain ⟨s₁, p, m, q, s₂, s₃, hcall, hquiet, -, -⟩ := refusedCall_alone hrun hidle hknown hword
  have hheld : m.fd () = some 0 := by
    rw [(hquiet (.refused 0 .emfile, m) (by simp)).2, hfd]
  have hkept : ∀ x ∈ q, ∀ j f, x.1 ≠ .handedOff j f 0 := by
    intro x hx j f he
    rcases (hquiet x (by simp [hx])).1 with h | ⟨_, h⟩ <;> rw [he] at h <;> cases h
  have hcount (s : FdState (Fin 1) Unit) : s.leaseCount < 2 ^ 32 :=
    Nat.lt_of_le_of_lt s.leaseCount_le (by decide)
  exact ⟨tr, s₀, s₁, s₂, s₃, m, p, q, _, hcall, hheld,
    retry_never_denied hcall hheld hkept (by rw [hquiet.releases]; decide) (hcount _) (hcount _)⟩

/-- With `2 ^ 32` leases out the counter reads 0, and a retry that could help is denied:
    one descriptor is held all along, and `2 ^ 32 - 1` other threads have reserved. -/
theorem retry_denied_beyond_counter : ∃ (N : ℕ) (tr : List (FdEvent (Fin (N + 1)) Unit))
    (s₀ s₁ s₂ s₃ m : FdState (Fin (N + 1)) Unit)
    (p q : List (FdEvent (Fin (N + 1)) Unit × FdState (Fin (N + 1)) Unit)),
    RefusedCall 0 tr s₀ s₁ (p ++ (.refused 0 .emfile, m) :: q) s₂ .emfile false s₃ ∧
      m.fd () = some 0 ∧ (∀ x ∈ q, ∀ j f, x.1 ≠ .handedOff j f 0) ∧
      pathReleases (p ++ (.refused 0 .emfile, m) :: q) = 0 := by
  obtain ⟨tr, s₀, hrun, hfd, hword, hknown, hidle, -⟩ := exists_parked 4294967295 4294967295 le_rfl
  obtain ⟨s₁, p, m, q, s₂, s₃, hcall, hquiet, -, -⟩ := refusedCall_alone hrun hidle hknown hword
  refine ⟨4294967295, tr, s₀, s₁, s₂, s₃, m, p, q, hcall, ?_, ?_, hquiet.releases⟩
  · rw [(hquiet (.refused 0 .emfile, m) (by simp)).2, hfd]
  · intro x hx j f he
    rcases (hquiet x (by simp [hx])).1 with h | ⟨_, h⟩ <;> rw [he] at h <;> cases h

end Remmy.Os
