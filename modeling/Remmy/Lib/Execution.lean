import Remmy.Lib.System
import Mathlib.Order.WellFounded

/-!
# Infinite Executions

Safety is about runs, which end; liveness is about executions, which do not.  At each moment an
`Execution` makes one step or pauses, so that an execution may also come to rest.

- `Execution.run` leads back to runs, and with them to every invariant.
- `eventually_of_rank` is the variant rule: what never grows, and goes down now and again until
  the goal is reached, reaches it.
- `exists_of_progress` is the progress rule: it makes an execution out of steps that are always
  possible.
- `exists_of_run` makes one out of a run: when the run is over the execution rests.
-/

namespace Remmy.Lib.System

universe u v w

variable {σ : Type u} {ε : Type v} {S : System σ ε}

/-- What happens at one moment: a step, or a pause. -/
def Moment (S : System σ ε) (s : σ) (o : Option ε) (s' : σ) : Prop :=
  match o with
  | some e => S.step s e s'
  | none => s' = s

/-- An infinite execution: the state at each moment, and what happens there, if anything. -/
structure Execution (S : System σ ε) where
  state : ℕ → σ
  event : ℕ → Option ε
  start : S.init (state 0)
  next : ∀ n, S.Moment (state n) (event n) (state (n + 1))

namespace Execution

/-- The labels of the first `n` moments. -/
def trace (x : S.Execution) (n : ℕ) : List ε := (List.range n).filterMap x.event

theorem trace_succ (x : S.Execution) (n : ℕ) :
    x.trace (n + 1) = x.trace n ++ (x.event n).toList := by
  rw [trace, List.range_succ, List.filterMap_append]
  cases h : x.event n <;> simp [trace, h]

theorem step (x : S.Execution) {n : ℕ} {e : ε} (h : x.event n = some e) :
    S.step (x.state n) e (x.state (n + 1)) := by
  have hnext := x.next n
  rwa [h] at hnext

theorem pause (x : S.Execution) {n : ℕ} (h : x.event n = none) :
    x.state (n + 1) = x.state n := by
  have hnext := x.next n
  rwa [h] at hnext

/-- The first moments of an execution are a run. -/
theorem run (x : S.Execution) (n : ℕ) : S.Run (x.trace n) (x.state n) := by
  induction n with
  | zero => exact .start x.start
  | succ n ih =>
    rw [trace_succ]
    cases h : x.event n with
    | none =>
      rw [x.pause h]
      simpa using ih
    | some e => exact ih.next (x.step h)

/-- The labels seen later go on from those seen before. -/
theorem trace_prefix (x : S.Execution) {n m : ℕ} (h : n ≤ m) : x.trace n <+: x.trace m := by
  induction m, h using Nat.le_induction with
  | base => exact List.prefix_rfl
  | succ m _ ih =>
    rw [trace_succ]
    exact ih.trans (List.prefix_append _ _)

/-- What one step keeps from a moment on holds from then on. -/
theorem always_of_step (x : S.Execution) {I : σ → Prop} {n₀ : ℕ} (start : I (x.state n₀))
    (keep : ∀ n e, n₀ ≤ n → x.event n = some e → I (x.state n) → I (x.state (n + 1))) :
    ∀ n, n₀ ≤ n → I (x.state n) := by
  intro n hn
  induction n, hn using Nat.le_induction with
  | base => exact start
  | succ n hn ih =>
    cases h : x.event n with
    | none =>
      rw [x.pause h]
      exact ih
    | some e => exact keep n e hn h ih

/-! ## The variant rule -/

/-- What no moment makes greater is never greater later than earlier. -/
theorem le_of_forall_succ_le {α : Type w} [Preorder α] {rank : ℕ → α} {n m : ℕ} (hnm : n ≤ m)
    (h : ∀ k, n ≤ k → rank (k + 1) ≤ rank k) : rank m ≤ rank n := by
  induction m, hnm using Nat.le_induction with
  | base => exact le_rfl
  | succ m hnm ih => exact (h m hnm).trans ih

/-- **Variant rule**: while the goal is not reached a rank never grows, and each time some
    later moment makes it less; so the goal is reached. -/
theorem eventually_of_rank {α : Type w} [Preorder α] [WellFoundedLT α] (rank : ℕ → α)
    (goal : ℕ → Prop) (n₀ : ℕ) (hle : ∀ n, n₀ ≤ n → ¬goal n → rank (n + 1) ≤ rank n)
    (hlt : ∀ n, n₀ ≤ n → ¬goal n → ∃ m, n ≤ m ∧ (goal m ∨ rank (m + 1) < rank m)) :
    ∃ n, n₀ ≤ n ∧ goal n := by
  by_contra hnever
  have hnot (n : ℕ) (hn : n₀ ≤ n) : ¬goal n := fun hgoal => hnever ⟨n, hn, hgoal⟩
  -- by induction on the rank at the moment reached
  suffices h : ∀ r n, n₀ ≤ n → rank n ≠ r from h _ n₀ le_rfl rfl
  intro r
  induction r using WellFoundedLT.induction with
  | ind r ih =>
    intro n hn hr
    obtain ⟨m, hnm, hgoal | hless⟩ := hlt n hn (hnot n hn)
    · exact hnot m (hn.trans hnm) hgoal
    · have hdown : rank m ≤ rank n :=
        le_of_forall_succ_le hnm fun k hk => hle k (hn.trans hk) (hnot k (hn.trans hk))
      have hrank : rank (m + 1) < r := hr ▸ hless.trans_le hdown
      exact ih _ hrank (m + 1) (hn.trans (hnm.trans (Nat.le_succ m))) rfl

/-! ## The progress rule -/

/-- **Progress rule**: where an invariant always leaves a step to choose, or a pause, there is an
    execution made of the chosen steps. -/
theorem exists_of_progress {I : σ → Prop} {R : σ → Option ε → σ → Prop} {s₀ : σ}
    (hinit : S.init s₀) (h₀ : I s₀)
    (progress : ∀ s, I s → ∃ o s', I s' ∧ R s o s' ∧ S.Moment s o s') :
    ∃ x : S.Execution, ∀ n, I (x.state n) ∧ R (x.state n) (x.event n) (x.state (n + 1)) := by
  choose event next hkeep hR hstep using progress
  let state (n : ℕ) : {s // I s} :=
    n.rec ⟨s₀, h₀⟩ fun _ s => ⟨next s.1 s.2, hkeep s.1 s.2⟩
  let x : S.Execution :=
    { state := fun n => (state n).1
      event := fun n => event (state n).1 (state n).2
      start := hinit
      next := fun n => hstep (state n).1 (state n).2 }
  exact ⟨x, fun n => ⟨(state n).2, hR (state n).1 (state n).2⟩⟩

/-- An execution that has come to rest. -/
def RestsFrom (x : S.Execution) (n₀ : ℕ) (tr : List ε) (s : σ) : Prop :=
  ∀ n, n₀ ≤ n → x.state n = s ∧ x.event n = none ∧ x.trace n = tr

/-- An execution that rests may make one more step before it rests. -/
theorem exists_next (x : S.Execution) {n₀ : ℕ} {tr : List ε} {s s' : σ} {e : ε}
    (h : x.RestsFrom n₀ tr s) (hstep : S.step s e s') :
    ∃ y : S.Execution, y.RestsFrom (n₀ + 1) (tr ++ [e]) s' := by
  have hstate := (h n₀ le_rfl).1
  let y : S.Execution :=
    { state := fun n => if n ≤ n₀ then x.state n else s'
      event := fun n => if n = n₀ then some e else x.event n
      start := by simpa using x.start
      next := by
        intro n
        rcases lt_trichotomy n n₀ with hn | rfl | hn
        · simpa [hn.le, hn.ne, Nat.succ_le_iff.mpr hn] using x.next n
        · simpa [Moment, hstate, Nat.not_succ_le_self] using hstep
        · have hlate : ¬n + 1 ≤ n₀ := by omega
          simp [Moment, (h n hn.le).2.1, hn.ne', hn.not_ge, hlate] }
  have hbefore : y.trace n₀ = tr := by
    rw [← (h n₀ le_rfl).2.2, trace, trace]
    refine List.filterMap_congr fun n hn => ?_
    exact if_neg (List.mem_range.mp hn).ne
  refine ⟨y, fun n hn => ?_⟩
  induction n, hn using Nat.le_induction with
  | base =>
    refine ⟨if_neg (Nat.not_succ_le_self n₀), ?_, ?_⟩
    · exact (if_neg (Nat.succ_ne_self n₀)).trans (h _ (Nat.le_succ n₀)).2.1
    · rw [trace_succ, hbefore]
      simp [y]
  | succ n hn ih =>
    obtain ⟨-, hevent, htrace⟩ := ih
    refine ⟨if_neg (by omega), ?_, ?_⟩
    · exact (if_neg (by omega)).trans (h _ (by omega)).2.1
    · rw [trace_succ, htrace, hevent]
      exact List.append_nil _

/-- Every run may be followed by rest. -/
theorem exists_of_run {tr : List ε} {s : σ} (h : S.Run tr s) :
    ∃ x : S.Execution, x.RestsFrom tr.length tr s := by
  induction h with
  | @start s hs =>
    let x : S.Execution := ⟨fun _ => s, fun _ => none, hs, fun _ => rfl⟩
    have htrace : ∀ n, x.trace n = [] := fun n => List.filterMap_eq_nil_iff.mpr fun _ _ => rfl
    exact ⟨x, fun n _ => ⟨rfl, rfl, htrace n⟩⟩
  | next _ hstep ih =>
    obtain ⟨x, hx⟩ := ih
    rw [List.length_append]
    exact x.exists_next hx hstep

end Execution

end Remmy.Lib.System
