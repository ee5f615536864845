import Remmy.Os.Errno
import Mathlib.Data.List.Flatten
import Mathlib.Data.List.TakeWhile

/-!
# `BasicFdWriter`

`WriteMany` of `fd_writer.hpp`: pieces are gathered into batches for `writev`, and a batch is
passed again until all of it is accepted.

`run` is the call, against the results that `writev` gives one after another; while there are
no more results it is `waiting`.  `vectored_write` says what it does for all of them.
-/

namespace Remmy.Io.FdWriter

open Remmy.Os

universe u

variable {α : Type u}

/-- What `writev` returns: a count, or -1 with an `errno`. -/
inductive Answer
  | wrote (count : ℕ)
  | failed (code : Errno)
  deriving DecidableEq

/-- `std::errc::io_error`. -/
def kIoError : Errno := .other 5

/-- The error with which `WriteMany` returns at this result. -/
def Answer.error : Answer → Option Errno
  | wrote 0 => some kIoError
  | wrote _ => none
  | failed .eintr => none
  | failed code => some code

/-- `kMaxPieces` and `kMaxBytes`. -/
def kMaxPieces : ℕ := 64
def kMaxBytes : ℕ := 2147483647

/-- Where the loops are: the ranges of the batch that are not accepted yet, `rest`, and the
    pieces from `it` on. -/
structure Progress (α : Type u) where
  batch : List (List α)
  rest : List α
  pieces : List (List α)

namespace Progress

/-- The inner loop that fills `iov`, with `bytes` bytes in it. -/
def gather (batch : List (List α)) (bytes : ℕ) (rest : List α) (pieces : List (List α)) :
    Progress α :=
  if batch.length < kMaxPieces ∧ bytes < kMaxBytes then
    if rest = [] then
      match pieces with
      | [] => ⟨batch, [], []⟩
      | piece :: pieces => gather batch bytes piece pieces
    else
      let take := min rest.length (kMaxBytes - bytes)
      gather (batch ++ [rest.take take]) (bytes + take) (rest.drop take) pieces
  else ⟨batch, rest, pieces⟩
termination_by (pieces.length, rest.length)
decreasing_by
  · exact Prod.Lex.left _ _ (Nat.lt_succ_self _)
  · rename_i hroom hrest
    have hpos := List.length_pos_iff.mpr hrest
    exact Prod.Lex.right _ (by rw [List.length_drop]; omega)

/-- The head of the outer loop: a new batch when the last one is done. -/
def refill (s : Progress α) : Progress α :=
  if s.batch = [] then gather [] 0 s.rest s.pieces else s

/-- `batch` after `writev` has accepted `count` bytes of it. -/
def advance : List (List α) → ℕ → List (List α)
  | [], _ => []
  | range :: ranges, count =>
    if range.length ≤ count then advance ranges (count - range.length)
    else range.drop count :: ranges

/-- What is not accepted yet. -/
def unsent (s : Progress α) : List α := s.batch.flatten ++ (s.rest ++ s.pieces.flatten)

end Progress

/-- How the call ends; it is `waiting` as long as a `writev` is to come. -/
inductive Outcome
  | success
  | error (code : Errno)
  | waiting
  deriving DecidableEq

/-- The outcome, the ranges of each `writev`, and the bytes accepted. -/
structure Report (α : Type u) where
  outcome : Outcome
  calls : List (List (List α))
  accepted : List α

/-- The rest of the call from a point between two `writev`s. -/
def run : List Answer → Progress α → Report α
  | [], s => ⟨if s.refill.batch = [] then .success else .waiting, [], []⟩
  | answer :: answers, s =>
    let s := s.refill
    if s.batch = [] then ⟨.success, [], []⟩
    else
      match answer.error, answer with
      | some code, _ => ⟨.error code, [s.batch], []⟩
      | none, .failed _ =>
        let later := run answers s
        ⟨later.outcome, s.batch :: later.calls, later.accepted⟩
      | none, .wrote count =>
        let later := run answers { s with batch := Progress.advance s.batch count }
        ⟨later.outcome, s.batch :: later.calls, s.batch.flatten.take count ++ later.accepted⟩

/-- `WriteMany`. -/
def writeMany (answers : List Answer) (pieces : List (List α)) : Report α :=
  run answers ⟨[], [], pieces⟩

/-! ## Batches -/

/-- The ranges may be passed to `writev`: none is empty, and there are not too many, of not too
    many bytes. -/
structure Allowed (batch : List (List α)) : Prop where
  nonempty : ∀ range ∈ batch, range ≠ []
  length_le : batch.length ≤ kMaxPieces
  bytes_le : batch.flatten.length ≤ kMaxBytes

namespace Progress

theorem allowed_nil : Allowed ([] : List (List α)) := ⟨nofun, Nat.zero_le _, Nat.zero_le _⟩

/-- The inner loop makes an allowed batch of what comes first, and stops without one only when
    there is nothing left. -/
theorem gather_spec {batch : List (List α)} {bytes : ℕ} (h : Allowed batch)
    (hbytes : bytes = batch.flatten.length) (rest : List α) (pieces : List (List α)) :
    Allowed (gather batch bytes rest pieces).batch ∧
      (gather batch bytes rest pieces).unsent = batch.flatten ++ (rest ++ pieces.flatten) ∧
      ((gather batch bytes rest pieces).batch = [] →
        (gather batch bytes rest pieces).unsent = []) := by
  induction batch, bytes, rest, pieces using gather.induct with
  | case1 batch bytes hroom =>
    rw [gather.eq_def, if_pos hroom, if_pos rfl]
    refine ⟨h, rfl, ?_⟩
    rintro (rfl : batch = [])
    rfl
  | case2 batch bytes hroom piece pieces ih =>
    rw [gather.eq_def, if_pos hroom, if_pos rfl]
    exact ih h hbytes
  | case3 batch bytes rest pieces hroom hrest take ih =>
    have htake : (rest.take take).length = take := by
      rw [List.length_take]
      exact min_eq_left (min_le_left _ _)
    have hpos := List.length_pos_iff.mpr hrest
    have hallowed : Allowed (batch ++ [rest.take take]) := by
      refine ⟨?_, ?_, ?_⟩
      · intro range hrange
        rcases List.mem_append.mp hrange with hrange | hrange
        · exact h.nonempty range hrange
        · rw [List.mem_singleton.mp hrange, ← List.length_pos_iff, htake]
          omega
      · rw [List.length_append]
        exact hroom.1
      · rw [List.flatten_append, List.length_append, ← hbytes, List.flatten_singleton, htake]
        omega
    have hcount : bytes + take = (batch ++ [rest.take take]).flatten.length := by
      rw [List.flatten_append, List.length_append, ← hbytes, List.flatten_singleton, htake]
    rw [gather.eq_def, if_pos hroom, if_neg hrest]
    obtain ⟨hbatch, hunsent, hdone⟩ := ih hallowed hcount
    refine ⟨hbatch, hunsent.trans ?_, hdone⟩
    rw [List.flatten_append, List.flatten_singleton, List.append_assoc,
      ← List.append_assoc (rest.take take), List.take_append_drop]
  | case4 batch bytes rest pieces hroom =>
    rw [gather.eq_def, if_neg hroom]
    refine ⟨h, rfl, ?_⟩
    -- a batch is full only with something in it
    rintro (rfl : batch = [])
    have hzero : bytes = 0 := hbytes
    rw [hzero] at hroom
    exact absurd ⟨show 0 < kMaxPieces by decide, show 0 < kMaxBytes by decide⟩ hroom

theorem refill_spec {s : Progress α} (h : Allowed s.batch) :
    Allowed s.refill.batch ∧ s.refill.unsent = s.unsent ∧
      (s.refill.batch = [] → s.unsent = []) := by
  unfold refill
  split_ifs with hbatch
  · have hzero : 0 = ([] : List (List α)).flatten.length := rfl
    obtain ⟨hallowed, hunsent, hdone⟩ := gather_spec allowed_nil hzero s.rest s.pieces
    have heq : (gather [] 0 s.rest s.pieces).unsent = s.unsent := by
      rw [hunsent, unsent, hbatch]
    exact ⟨hallowed, heq, fun hnone => heq ▸ hdone hnone⟩
  · exact ⟨h, rfl, fun hnone => absurd hnone hbatch⟩

/-- `advance` takes off what was accepted. -/
theorem advance_spec {batch : List (List α)} (h : ∀ range ∈ batch, range ≠ []) (count : ℕ) :
    (advance batch count).flatten = batch.flatten.drop count ∧
      (∀ range ∈ advance batch count, range ≠ []) ∧
      (advance batch count).length ≤ batch.length := by
  induction batch generalizing count with
  | nil => exact ⟨by simp [advance], nofun, le_rfl⟩
  | cons range ranges ih =>
    rw [advance]
    split_ifs with hle
    · obtain ⟨hflatten, hnonempty, hlength⟩ :=
        ih (fun r hr => h r (List.mem_cons_of_mem range hr)) (count - range.length)
      refine ⟨?_, hnonempty, hlength.trans (Nat.le_succ _)⟩
      rw [hflatten, List.flatten_cons, List.drop_append, List.drop_eq_nil_of_le hle,
        List.nil_append]
    · rw [not_le] at hle
      refine ⟨?_, ?_, le_rfl⟩
      · rw [List.flatten_cons, List.flatten_cons, List.drop_append_of_le_length hle.le]
      · intro r hr
        rcases List.mem_cons.mp hr with rfl | hr
        · rw [Ne, List.drop_eq_nil_iff]
          omega
        · exact h r (List.mem_cons_of_mem range hr)

theorem allowed_advance {batch : List (List α)} (h : Allowed batch) (count : ℕ) :
    Allowed (advance batch count) := by
  obtain ⟨hflatten, hnonempty, hlength⟩ := advance_spec h.nonempty count
  refine ⟨hnonempty, hlength.trans h.length_le, ?_⟩
  rw [hflatten, List.length_drop]
  exact (Nat.sub_le _ _).trans h.bytes_le

end Progress

/-! ## The whole call -/

theorem flatten_ne_nil {batch : List (List α)} (h : Allowed batch) (hne : batch ≠ []) :
    batch.flatten ≠ [] := by
  cases batch with
  | nil => exact absurd rfl hne
  | cons range ranges =>
    rw [List.flatten_cons, Ne, List.append_eq_nil_iff, not_and_or]
    exact .inl (h.nonempty range List.mem_cons_self)

theorem unsent_ne_nil {s : Progress α} (h : Allowed s.batch) (hne : s.batch ≠ []) :
    s.unsent ≠ [] := by
  rw [Progress.unsent, Ne, List.append_eq_nil_iff, not_and_or]
  exact .inl (flatten_ne_nil h hne)

theorem Answer.error_wrote {count : ℕ} : (Answer.wrote count).error = none ↔ count ≠ 0 := by
  cases count <;> simp [Answer.error]

theorem Answer.error_failed {code : Errno} : (Answer.failed code).error = none ↔ code = .eintr := by
  cases code <;> simp [Answer.error]

/-- The bytes that a result says were written. -/
def Answer.count : Answer → ℕ
  | wrote count => count
  | failed _ => 0

/-- What the calls have written, each as much of its ranges as the result says. -/
def taken : List (List (List α)) → List Answer → List α
  | call :: calls, answer :: answers => call.flatten.take answer.count ++ taken calls answers
  | _, _ => []

/-- What is known of the rest of a call, from a point where `unsent` is not accepted yet. -/
structure Delivers (answers : List Answer) (unsent : List α) (r : Report α) : Prop where
  allowed : ∀ call ∈ r.calls, call ≠ [] ∧ Allowed call
  /-- Each `writev` is given the first of what those before it have not written. -/
  call_prefix : ∀ k call, r.calls[k]? = some call →
    call.flatten <+: unsent.drop (taken (r.calls.take k) answers).length
  accepted_eq : r.accepted = taken r.calls answers
  /-- At any time, what was written is a prefix. -/
  taken_prefix : ∀ k, taken (r.calls.take k) answers <+: unsent
  success : r.outcome = .success ↔ r.accepted = unsent
  /-- Before the last result used, no result ends the call. -/
  goesOn : ∀ answer ∈ answers.take (r.calls.length - 1), answer.error = none
  error : ∀ code, r.outcome = .error code ↔ ∃ answer, r.calls ≠ [] ∧
    answers[r.calls.length - 1]? = some answer ∧ answer.error = some code
  calls_le : r.calls.length ≤ answers.length
  /-- While the call waits, each result but `EINTR` was for a byte at least. -/
  waiting : r.outcome = .waiting →
    answers.countP (· ≠ .failed .eintr) ≤ r.accepted.length

/-- What was accepted when the call ends is a prefix as well. -/
theorem Delivers.accepted_prefix {answers : List Answer} {unsent : List α} {r : Report α}
    (h : Delivers answers unsent r) : r.accepted <+: unsent := by
  have hall := h.taken_prefix r.calls.length
  rwa [List.take_length, ← h.accepted_eq] at hall

theorem Answer.count_of_error {answer : Answer} {code : Errno} (h : answer.error = some code) :
    answer.count = 0 := by
  cases answer with
  | wrote count => cases count with
    | zero => rfl
    | succ count => cases h
  | failed code => rfl

/-- A call that ends with success at once. -/
theorem Delivers.done (answers : List Answer) : Delivers answers ([] : List α) ⟨.success, [], []⟩ where
  allowed := nofun
  call_prefix := nofun
  accepted_eq := rfl
  taken_prefix _ := by rw [List.take_nil]; exact List.prefix_rfl
  success := by simp
  goesOn := nofun
  error := by simp
  calls_le := Nat.zero_le _
  waiting := nofun

/-- A result after which the call goes on. -/
theorem Delivers.cons {answers : List Answer} {answer : Answer} {batch : List (List α)}
    {unsent left : List α} {later : Report α} (h : Delivers answers left later)
    (hanswer : answer.error = none) (hbatch : batch ≠ []) (hallowed : Allowed batch)
    (hfirst : batch.flatten <+: unsent)
    (hunsent : unsent = batch.flatten.take answer.count ++ left)
    (hcount : answer = .failed .eintr ∨ batch.flatten.take answer.count ≠ []) :
    Delivers (answer :: answers) unsent
      ⟨later.outcome, batch :: later.calls, batch.flatten.take answer.count ++ later.accepted⟩ := by
  refine ⟨?_, ?_, ?_, ?_, ?_, ?_, ?_, ?_, ?_⟩
  · intro call hcall
    rcases List.mem_cons.mp hcall with rfl | hcall
    · exact ⟨hbatch, hallowed⟩
    · exact h.allowed call hcall
  -- The first call is of what is unsent now, the others of what it leaves.
  · intro k call hcall
    cases k with
    | zero =>
      cases hcall
      exact hfirst
    | succ k =>
      have hlater := h.call_prefix k call hcall
      rw [hunsent, List.take_succ_cons, taken, List.length_append, ← List.drop_drop, List.drop_left]
      exact hlater
  · rw [h.accepted_eq, taken]
  · intro k
    cases k with
    | zero => exact List.nil_prefix
    | succ k =>
      rw [List.take_succ_cons, taken, hunsent]
      exact (List.prefix_append_right_inj _).mpr (h.taken_prefix k)
  · rw [h.success, hunsent, List.append_cancel_left_eq]
  · intro answer' hanswer'
    cases hcalls : later.calls with
    | nil =>
      rw [hcalls] at hanswer'
      cases hanswer'
    | cons call calls =>
      have hgoes := h.goesOn
      rw [hcalls] at hanswer' hgoes
      rcases List.mem_cons.mp hanswer' with rfl | hmem
      · exact hanswer
      · exact hgoes answer' hmem
  · intro code
    rw [h.error]
    cases hcalls : later.calls with
    | nil => simp [hanswer]
    | cons call calls => simp
  · exact Nat.succ_le_succ h.calls_le
  · intro hwaiting
    have hle := h.waiting hwaiting
    rw [List.countP_cons, List.length_append]
    rcases hcount with rfl | hne
    · rw [if_neg (by simp)]
      exact hle.trans (Nat.le_add_left ..)
    · have hpos := List.length_pos_iff.mpr hne
      split_ifs <;> omega

/-- A result that ends the call. -/
theorem Delivers.failed {answers : List Answer} {answer : Answer} {batch : List (List α)}
    {unsent : List α} {code : Errno} (hanswer : answer.error = some code) (hbatch : batch ≠ [])
    (hallowed : Allowed batch) (hfirst : batch.flatten <+: unsent) (hunsent : unsent ≠ []) :
    Delivers (answer :: answers) unsent ⟨.error code, [batch], []⟩ where
  allowed call hcall := by
    obtain rfl := List.mem_singleton.mp hcall
    exact ⟨hbatch, hallowed⟩
  call_prefix k call hcall := by
    cases k with
    | zero =>
      cases hcall
      exact hfirst
    | succ k => cases hcall
  accepted_eq := by simp [taken, Answer.count_of_error hanswer]
  taken_prefix k := by
    cases k with
    | zero => exact List.nil_prefix
    | succ k => simp [taken, Answer.count_of_error hanswer]
  success := by simpa using hunsent.symm
  goesOn := nofun
  error := by simp [hanswer]
  calls_le := Nat.succ_le_succ (Nat.zero_le _)
  waiting := nofun

/-- A call that waits for its first result. -/
theorem Delivers.waits {unsent : List α} (hunsent : unsent ≠ []) :
    Delivers [] unsent ⟨.waiting, [], []⟩ where
  allowed := nofun
  call_prefix := nofun
  accepted_eq := rfl
  taken_prefix _ := by rw [List.take_nil]; exact List.nil_prefix
  success := by simpa using hunsent.symm
  goesOn := nofun
  error := by simp
  calls_le := le_rfl
  waiting _ := le_rfl

/-- **Run lemma**, by induction on the results of `writev`. -/
theorem run_delivers (answers : List Answer) {s : Progress α} (h : Allowed s.batch) :
    Delivers answers s.unsent (run answers s) := by
  induction answers generalizing s with
  | nil =>
    obtain ⟨hallowed, hunsent, hdone⟩ := Progress.refill_spec h
    rw [run]
    split_ifs with hbatch
    · rw [hdone hbatch]
      exact .done []
    · exact .waits (hunsent ▸ unsent_ne_nil hallowed hbatch)
  | cons answer answers ih =>
    obtain ⟨hallowed, hunsent, hdone⟩ := Progress.refill_spec h
    rw [run.eq_def]
    dsimp only
    split_ifs with hbatch
    · rw [hdone hbatch]
      exact .done _
    · have hne := unsent_ne_nil hallowed hbatch
      have hfirst : s.refill.batch.flatten <+: s.refill.unsent := List.prefix_append _ _
      rw [← hunsent]
      split
      · next code hcode => exact .failed hcode hbatch hallowed hfirst hne
      · next code hcode =>
        -- `EINTR`: the same batch again
        obtain rfl := Answer.error_failed.mp hcode
        exact .cons (ih hallowed) hcode hbatch hallowed hfirst rfl (.inl rfl)
      · next count hcount =>
        have hpos := Answer.error_wrote.mp hcount
        obtain ⟨hadvance, -, -⟩ := Progress.advance_spec hallowed.nonempty count
        have hlater := ih (s := { s.refill with batch := Progress.advance s.refill.batch count })
          (Progress.allowed_advance hallowed count)
        refine .cons hlater hcount hbatch hallowed hfirst ?_ (.inr ?_)
        · rw [Progress.unsent, Progress.unsent, hadvance, Answer.count,
            ← List.append_assoc _ (List.drop ..), List.take_append_drop]
        · rw [Ne, List.take_eq_nil_iff, not_or]
          exact ⟨hpos, flatten_ne_nil hallowed hbatch⟩

/-- Results that are not `EINTR` for ever are enough of others, sooner or later. -/
theorem exists_count_le {f : ℕ → Answer} (h : ∀ n, ∃ m, n ≤ m ∧ f m ≠ .failed .eintr) (total : ℕ) :
    ∃ n, ∀ k, n ≤ k → total ≤ ((List.range k).map f).countP (· ≠ .failed .eintr) := by
  induction total with
  | zero => exact ⟨0, fun _ _ => Nat.zero_le _⟩
  | succ total ih =>
    obtain ⟨n, hn⟩ := ih
    obtain ⟨m, hnm, hm⟩ := h n
    refine ⟨m + 1, fun k hk => ?_⟩
    have hsub : ((List.range (m + 1)).map f).Sublist ((List.range k).map f) :=
      (List.range_sublist.mpr hk).map f
    have hlast : ((List.range (m + 1)).map f).countP (· ≠ .failed .eintr) =
        ((List.range m).map f).countP (· ≠ .failed .eintr) + 1 := by
      rw [List.range_succ, List.map_append, List.countP_append]
      simp [hm]
    calc total + 1 ≤ ((List.range m).map f).countP (· ≠ .failed .eintr) + 1 :=
          Nat.succ_le_succ (hn m hnm)
      _ = ((List.range (m + 1)).map f).countP (· ≠ .failed .eintr) := hlast.symm
      _ ≤ ((List.range k).map f).countP (· ≠ .failed .eintr) := hsub.countP_le

/-- **Vectored write.**  Whatever `writev` returns, `WriteMany` passes it allowed batches, each of
    what was not written before it; what is accepted is what the results say was written, always a
    prefix of the pieces; and the call ends with success exactly when all of it is, and otherwise
    at the first result that is an error.  It ends unless `EINTR` goes on for ever. -/
theorem vectored_write (pieces : List (List α)) :
    (∀ answers, Delivers answers pieces.flatten (writeMany answers pieces)) ∧
      ∀ f : ℕ → Answer, (∀ n, ∃ m, n ≤ m ∧ f m ≠ .failed .eintr) →
        ∃ n, ∀ k, n ≤ k → (writeMany ((List.range k).map f) pieces).outcome ≠ .waiting := by
  have hdelivers (answers : List Answer) : Delivers answers pieces.flatten (writeMany answers pieces) :=
    run_delivers answers (s := ⟨[], [], pieces⟩) Progress.allowed_nil
  refine ⟨hdelivers, fun f hf => ?_⟩
  obtain ⟨n, hn⟩ := exists_count_le hf (pieces.flatten.length + 1)
  refine ⟨n, fun k hk hwaiting => ?_⟩
  have hr := hdelivers ((List.range k).map f)
  have hcount := (hn k hk).trans (hr.waiting hwaiting)
  have hle := hr.accepted_prefix.length_le
  omega

/-- Two pieces in two parts, with an interruption between them. -/
theorem vectored_write_parts :
    Delivers [.wrote 1, .failed .eintr, .wrote 2] [5, 6, 7]
        (writeMany [.wrote 1, .failed .eintr, .wrote 2] [[5, 6], [], [7]]) ∧
      ∃ n, ∀ k, n ≤ k →
        (writeMany ((List.range k).map fun i => if i = 1 then .failed .eintr else .wrote 1)
          [[5, 6], [], [7]]).outcome ≠ .waiting := by
  refine ⟨(vectored_write [[5, 6], [], [7]]).1 _,
    (vectored_write [[5, 6], [], [7]]).2 _ fun n => ⟨n + 2, Nat.le_add_right n 2, ?_⟩⟩
  simp

end Remmy.Io.FdWriter
