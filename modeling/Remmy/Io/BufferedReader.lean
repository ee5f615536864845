import Mathlib.Data.List.Basic
import Mathlib.Tactic.SplitIfs

/-!
# `BufferedReader` Refines the Plain Byte Stream

`BufferedReader` in front of a reader that delivers its stream in chunks of any size.

`reader_refines` says that any mix of `Read`, `ReadByte` and `SkipPast` takes the bytes of the
stream one after another, as the same calls on the plain stream would.
-/

namespace Remmy.Io

universe u v

/-! ## The reader behind the buffer -/

/-- A `Reader`: what is left of its stream, and how it answers each of its calls. -/
structure Source (α : Type u) (ε : Type v) where
  rest : List α
  /-- How many bytes a call delivers, as far as there are any and they fit, or its error. -/
  answer : ℕ → Except ε ℕ
  calls : ℕ

variable {α : Type u} {ε : Type v}

/-- `Read` into a span of this size: the bytes put at the front of it, or the error. -/
def Source.read (s : Source α ε) (size : ℕ) : Except ε (List α) × Source α ε :=
  match s.answer s.calls with
  | .error e => (.error e, { s with calls := s.calls + 1 })
  | .ok n =>
    -- at least one byte, so that 0 bytes mean the end
    let count := min (max n 1) size
    (.ok (s.rest.take count), { s with rest := s.rest.drop count, calls := s.calls + 1 })

/-- No call fails. -/
def Source.Plain (s : Source α ε) : Prop := ∀ k, ∃ n, s.answer k = .ok n

/-! ## The buffer -/

/-- `BufferedReader`, constructed with a capacity above 0. -/
structure BufferedReader (α : Type u) (ε : Type v) where
  source : Source α ε
  capacity : ℕ
  capacity_pos : 0 < capacity
  /-- `buf_[0, len_)`. -/
  filled : List α
  pos : ℕ
  pos_le : pos ≤ filled.length

/-- After construction. -/
def BufferedReader.new (source : Source α ε) (capacity : ℕ) (h : 0 < capacity) :
    BufferedReader α ε :=
  ⟨source, capacity, h, [], 0, Nat.zero_le _⟩

/-- What a call of a member function is. -/
inductive ReadCall (α : Type u)
  /-- `Read` into a target of `n` bytes. -/
  | read (n : ℕ) (nonempty : 0 < n)
  | readByte
  | skipPast (delim : α)

/-- What it gives back. -/
inductive ReadAnswer (α : Type u) (ε : Type v)
  | bytes (result : Except ε (List α))
  | byte (result : Option α)
  | skipped (found : Bool)

namespace BufferedReader

/-- `Buffered`. -/
def buffered (r : BufferedReader α ε) : List α := r.filled.drop r.pos

/-- `pos_ += n`. -/
def advance (r : BufferedReader α ε) (n : ℕ) (h : n ≤ r.buffered.length) : BufferedReader α ε :=
  { r with
    pos := r.pos + n
    pos_le := by
      have hlen : r.buffered.length = r.filled.length - r.pos := List.length_drop
      have hpos := r.pos_le
      omega }

/-- `Fill`. -/
def fill (r : BufferedReader α ε) : Except ε ℕ × BufferedReader α ε :=
  match r.source.read r.capacity with
  | (.error e, source) =>
    (.error e, { r with source := source, filled := [], pos := 0, pos_le := Nat.zero_le _ })
  | (.ok got, source) =>
    (.ok got.length, { r with source := source, filled := got, pos := 0, pos_le := Nat.zero_le _ })

/-- `Fill().value_or(0)`. -/
def filledOr0 (filled : Except ε ℕ) : ℕ := filled.toOption.getD 0

/-- The end of `Read`, which copies what is buffered. -/
def take (r : BufferedReader α ε) (n : ℕ) : Except ε (List α) × BufferedReader α ε :=
  (.ok (r.buffered.take (min n r.buffered.length)),
    r.advance (min n r.buffered.length) (Nat.min_le_right ..))

/-- `Read` into a target of `n` bytes. -/
def read (r : BufferedReader α ε) (n : ℕ) : Except ε (List α) × BufferedReader α ε :=
  if r.buffered.isEmpty then
    if r.capacity ≤ n then
      -- past the buffer
      let (got, source) := r.source.read n
      (got, { r with source := source })
    else
      match r.fill with
      | (.error e, r') => (.error e, r')
      | (.ok 0, r') => (.ok [], r')
      | (.ok (_ + 1), r') => r'.take n
  else r.take n

/-- `buf_[pos_++]`, where something is buffered. -/
def next (r : BufferedReader α ε) : Option α × BufferedReader α ε :=
  match h : r.buffered with
  | [] => (none, r)
  | byte :: _ => (some byte, r.advance 1 (by rw [h]; exact Nat.succ_pos _))

/-- `ReadByte`. -/
def readByte (r : BufferedReader α ε) : Option α × BufferedReader α ε :=
  if r.buffered.isEmpty then
    let (filled, r') := r.fill
    if filledOr0 filled = 0 then (none, r') else r'.next
  else r.next

theorem rest_fill_lt {r : BufferedReader α ε} (h : filledOr0 r.fill.1 ≠ 0) :
    r.fill.2.source.rest.length < r.source.rest.length := by
  unfold fill Source.read at *
  cases hanswer : r.source.answer r.source.calls with
  | error e =>
    rw [hanswer] at h
    exact absurd rfl h
  | ok n =>
    simp only [hanswer, filledOr0, Except.toOption, Option.getD_some, List.length_take,
      List.length_drop] at h ⊢
    omega

/-- `SkipPast`. -/
def skipPast [DecidableEq α] (r : BufferedReader α ε) (delim : α) : Bool × BufferedReader α ε :=
  let found := r.buffered.idxOf delim
  if h : found < r.buffered.length then (true, r.advance (found + 1) h)
  else if _hfill : filledOr0 r.fill.1 = 0 then (false, r.fill.2)
  else r.fill.2.skipPast delim
termination_by r.source.rest.length
decreasing_by exact rest_fill_lt _hfill

/-- A call of a member function. -/
def perform [DecidableEq α] (r : BufferedReader α ε) :
    ReadCall α → ReadAnswer α ε × BufferedReader α ε
  | .read n _ => let (got, r') := r.read n; (.bytes got, r')
  | .readByte => let (byte, r') := r.readByte; (.byte byte, r')
  | .skipPast delim => let (found, r') := r.skipPast delim; (.skipped found, r')

/-- Calls one after another, each with its answer. -/
def run [DecidableEq α] (r : BufferedReader α ε) :
    List (ReadCall α) → List (ReadCall α × ReadAnswer α ε) × BufferedReader α ε
  | [] => ([], r)
  | call :: calls =>
    let (answer, r') := r.perform call
    let (answers, r'') := r'.run calls
    ((call, answer) :: answers, r'')

/-- The plain stream: what is buffered, and what the reader behind has left. -/
def left (r : BufferedReader α ε) : List α := r.buffered ++ r.source.rest

end BufferedReader

/-! ## The plain stream -/

/-- The call with this answer takes the bytes `taken` of a stream that goes on with `left`. -/
inductive Takes : ReadCall α → ReadAnswer α ε → List α → List α → Prop
  | read {n : ℕ} {hn : 0 < n} {taken left : List α} : taken ≠ [] → taken.length ≤ n →
      Takes (.read n hn) (.bytes (.ok taken)) taken left
  | readEnd {n : ℕ} {hn : 0 < n} : Takes (.read n hn) (.bytes (.ok [])) [] []
  | byte {b : α} {left : List α} : Takes .readByte (.byte (some b)) [b] left
  | byteEnd : Takes .readByte (.byte none) [] []
  | skip {delim : α} {before left : List α} : delim ∉ before →
      Takes (.skipPast delim) (.skipped true) (before ++ [delim]) left
  | skipEnd {delim : α} {before : List α} : delim ∉ before →
      Takes (.skipPast delim) (.skipped false) before []

/-- The calls with these answers take the bytes `taken`, one after another. -/
inductive PlainRun : List (ReadCall α × ReadAnswer α ε) → List α → List α → Prop
  | nil {left : List α} : PlainRun [] [] left
  | cons {call : ReadCall α} {answer : ReadAnswer α ε} {answers : List (ReadCall α × ReadAnswer α ε)}
      {piece taken left : List α} : Takes call answer piece (taken ++ left) →
      PlainRun answers taken left → PlainRun ((call, answer) :: answers) (piece ++ taken) left

/-! ## One call -/

/-- A call on the reader behind the buffer delivers the next bytes, and none only at the end. -/
theorem Source.read_spec {s : Source α ε} (hplain : s.Plain) {size : ℕ} (hsize : 0 < size) :
    ∃ got, (s.read size).1 = .ok got ∧ s.rest = got ++ (s.read size).2.rest ∧
      got.length ≤ size ∧ (got = [] → s.rest = []) ∧ (s.read size).2.Plain := by
  obtain ⟨n, hn⟩ := hplain s.calls
  unfold read
  rw [hn]
  refine ⟨s.rest.take (min (max n 1) size), rfl, (List.take_append_drop _ _).symm, ?_, ?_, hplain⟩
  · rw [List.length_take]
    omega
  · intro hnone
    rcases List.take_eq_nil_iff.mp hnone with hcount | hrest
    · omega
    · exact hrest

namespace BufferedReader

variable {r : BufferedReader α ε}

@[simp] theorem left_new (source : Source α ε) {capacity : ℕ} (h : 0 < capacity) :
    (new source capacity h).left = source.rest := rfl

/-- Moving `pos_` takes these bytes off the stream. -/
theorem left_advance {n : ℕ} (h : n ≤ r.buffered.length) :
    r.left = r.buffered.take n ++ (r.advance n h).left := by
  have hrest : (r.advance n h).buffered = r.buffered.drop n := by
    change r.filled.drop (r.pos + n) = (r.filled.drop r.pos).drop n
    rw [List.drop_drop]
  unfold left
  rw [hrest, ← List.append_assoc, List.take_append_drop]
  rfl

/-- A refill takes nothing off the stream behind the buffer, also when it fails. -/
theorem left_fill (r : BufferedReader α ε) : r.fill.2.left = r.source.rest := by
  unfold fill Source.read
  cases r.source.answer r.source.calls with
  | error e => rfl
  | ok n => exact List.take_append_drop _ _

/-- `Fill` replaces what is buffered by the next bytes, by none only at the end. -/
theorem fill_spec (hplain : r.source.Plain) :
    ∃ got, r.fill.1 = .ok got.length ∧ r.fill.2.buffered = got ∧ r.source.rest = r.fill.2.left ∧
      (got = [] → r.fill.2.left = []) ∧ r.fill.2.source.Plain := by
  obtain ⟨got, hgot, hrest, -, hend, hplain'⟩ := Source.read_spec hplain r.capacity_pos
  refine ⟨got, ?_⟩
  cases hread : r.source.read r.capacity with
  | mk result source =>
    rw [hread] at hgot hrest hplain'
    obtain rfl : result = .ok got := hgot
    have hfill : r.fill = (.ok got.length,
        { r with source := source, filled := got, pos := 0, pos_le := Nat.zero_le _ }) := by
      unfold fill
      rw [hread]
    rw [hfill]
    exact ⟨rfl, rfl, hrest, fun hnone => hrest.symm.trans (hend hnone), hplain'⟩

/-- With something buffered, the end of `Read` takes between 1 and `n` bytes. -/
theorem take_spec {n : ℕ} (hn : 0 < n) (hbuffered : r.buffered ≠ []) :
    ∃ taken, (r.take n).1 = .ok taken ∧ taken ≠ [] ∧ taken.length ≤ n ∧
      r.left = taken ++ (r.take n).2.left := by
  have hlen : 0 < r.buffered.length := List.length_pos_iff.mpr hbuffered
  refine ⟨r.buffered.take (min n r.buffered.length), rfl, ?_, ?_,
    left_advance (Nat.min_le_right ..)⟩
  · intro hnone
    rcases List.take_eq_nil_iff.mp hnone with hcount | hrest
    · omega
    · exact hbuffered hrest
  · rw [List.length_take]
    omega

theorem next_spec {byte : α} {rest : List α} (hbuffered : r.buffered = byte :: rest) :
    r.next.1 = some byte ∧ r.left = [byte] ++ r.next.2.left ∧ r.next.2.source = r.source := by
  have hone : r.buffered.take 1 = [byte] := by
    rw [hbuffered]
    rfl
  unfold next
  split
  · rename_i hnone
    rw [hnone] at hbuffered
    cases hbuffered
  · rename_i hsome
    have hadvance := left_advance (r := r) (n := 1) (by rw [hsome]; exact Nat.succ_pos _)
    rw [hone] at hadvance
    rw [hsome] at hbuffered
    exact ⟨congrArg some (List.cons.inj hbuffered).1, hadvance, rfl⟩

/-- `Read` takes between 1 and `n` bytes, and none only at the end. -/
theorem read_spec (hplain : r.source.Plain) {n : ℕ} (hn : 0 < n) :
    ∃ taken, (r.read n).1 = .ok taken ∧ r.left = taken ++ (r.read n).2.left ∧
      taken.length ≤ n ∧ (taken = [] → r.left = []) ∧ (r.read n).2.source.Plain := by
  unfold read
  split_ifs with hempty hlarge
  · -- the target is large enough to read past the buffer
    have hbuffered := List.isEmpty_iff.mp hempty
    obtain ⟨got, hgot, hrest, hlen, hend, hplain'⟩ := Source.read_spec hplain hn
    refine ⟨got, hgot, ?_, hlen, fun hnone => ?_, hplain'⟩
    · unfold left
      change _ = _ ++ (r.buffered ++ _)
      rw [hbuffered]
      exact hrest
    · rw [left, hbuffered, hend hnone]
      rfl
  · -- the buffer is filled first
    have hbuffered := List.isEmpty_iff.mp hempty
    obtain ⟨got, hgot, hfilled, hrest, hend, hplain'⟩ := fill_spec hplain
    have hleft : r.left = r.fill.2.left := by
      rw [← hrest, left, hbuffered]
      rfl
    cases hfill : r.fill with
    | mk count r' =>
      rw [hfill] at hgot hfilled hleft hend hplain'
      obtain rfl : count = .ok got.length := hgot
      cases got with
      | nil => exact ⟨[], rfl, hleft, Nat.zero_le _, fun hnone => hleft.trans (hend hnone), hplain'⟩
      | cons b bytes =>
        have hsome : r'.buffered ≠ [] := by
          rw [hfilled]
          exact List.cons_ne_nil _ _
        obtain ⟨taken, htaken, hne, hlen, htake⟩ := take_spec hn hsome
        exact ⟨taken, htaken, hleft.trans htake, hlen, fun hnone => absurd hnone hne, hplain'⟩
  · have hsome : r.buffered ≠ [] := fun hnone => hempty (List.isEmpty_iff.mpr hnone)
    obtain ⟨taken, htaken, hne, hlen, htake⟩ := take_spec hn hsome
    exact ⟨taken, htaken, htake, hlen, fun hnone => absurd hnone hne, hplain⟩

/-- `ReadByte` takes the next byte, and none only at the end. -/
theorem readByte_spec (hplain : r.source.Plain) :
    r.left = r.readByte.1.toList ++ r.readByte.2.left ∧
      (r.readByte.1 = none → r.left = []) ∧ r.readByte.2.source.Plain := by
  unfold readByte
  split_ifs with hempty
  · have hbuffered := List.isEmpty_iff.mp hempty
    obtain ⟨got, hgot, hfilled, hrest, hend, hplain'⟩ := fill_spec hplain
    have hleft : r.left = r.fill.2.left := by
      rw [← hrest, left, hbuffered]
      rfl
    cases hfill : r.fill with
    | mk count r' =>
      rw [hfill] at hgot hfilled hleft hend hplain'
      obtain rfl : count = .ok got.length := hgot
      cases got with
      | nil => exact ⟨hleft, fun _ => hleft.trans (hend rfl), hplain'⟩
      | cons byte bytes =>
        obtain ⟨hbyte, hnext, hsource⟩ := next_spec hfilled
        change r.left = r'.next.1.toList ++ _ ∧ (r'.next.1 = none → _) ∧ r'.next.2.source.Plain
        rw [hbyte, hleft, hsource]
        exact ⟨hnext, nofun, hplain'⟩
  · obtain ⟨byte, bytes, hbuffered⟩ := List.exists_cons_of_ne_nil
      fun hnone => hempty (List.isEmpty_iff.mpr hnone)
    obtain ⟨hbyte, hnext, hsource⟩ := next_spec hbuffered
    rw [hbyte, hsource]
    exact ⟨hnext, nofun, hplain⟩

/-- What `ReadByte` gives back is off the stream. -/
theorem left_readByte {byte : α} (h : r.readByte.1 = some byte) :
    r.left = byte :: r.readByte.2.left := by
  have hnext {r' : BufferedReader α ε} (h' : r'.next.1 = some byte) :
      r'.left = byte :: r'.next.2.left := by
    cases hbuffered : r'.buffered with
    | nil =>
      unfold next at h'
      split at h'
      · cases h'
      · rename_i hsome
        rw [hbuffered] at hsome
        cases hsome
    | cons b bytes =>
      obtain ⟨hbyte, hleft, -⟩ := next_spec hbuffered
      rw [hbyte] at h'
      rw [hleft, Option.some.inj h']
      rfl
  unfold readByte at h ⊢
  split_ifs at h ⊢ with hempty
  · have hleft : r.left = r.fill.2.left := by
      rw [left_fill, left, List.isEmpty_iff.mp hempty]
      rfl
    change (if filledOr0 r.fill.1 = 0 then (none, r.fill.2) else r.fill.2.next).1 = _ at h
    change r.left = byte :: (if filledOr0 r.fill.1 = 0 then (none, r.fill.2) else r.fill.2.next).2.left
    split_ifs at h ⊢
    exact hleft.trans (hnext h)
  · exact hnext h

/-- `SkipPast` puts nothing back. -/
theorem left_skipPast_le [DecidableEq α] (r : BufferedReader α ε) (delim : α) :
    (r.skipPast delim).2.left.length ≤ r.left.length := by
  have hfill (r : BufferedReader α ε) : r.fill.2.left.length ≤ r.left.length := by
    rw [left_fill, left, List.length_append]
    exact Nat.le_add_left _ _
  fun_induction skipPast r delim with
  | case1 r found hfound =>
    rw [left_advance hfound, List.length_append]
    exact Nat.le_add_left _ _
  | case2 r found hfound hnone => exact hfill r
  | case3 r found hfound hsome ih => exact Nat.le_trans ih (hfill r)

/-- `SkipPast` takes everything up to the next delimiter, or everything. -/
theorem skipPast_spec [DecidableEq α] (hplain : r.source.Plain) (delim : α) :
    ∃ before, delim ∉ before ∧ (r.skipPast delim).2.source.Plain ∧
      if (r.skipPast delim).1 then r.left = before ++ [delim] ++ (r.skipPast delim).2.left
      else r.left = before ∧ (r.skipPast delim).2.left = [] := by
  -- one refill after another, as `SkipPast` goes
  fun_induction skipPast r delim with
  | case1 r found hfound =>
    have hmem : delim ∈ r.buffered := List.idxOf_lt_length_iff.mp hfound
    have hcut : r.buffered.take (found + 1) = r.buffered.take found ++ [delim] := by
      rw [← List.take_append_getElem hfound, List.getElem_idxOf hfound]
    refine ⟨r.buffered.take found, ?_, hplain, ?_⟩
    · rw [List.mem_take_iff_idxOf_lt hmem]
      exact Nat.lt_irrefl _
    · rw [if_pos rfl, ← hcut]
      exact left_advance hfound
  | case2 r found hfound hnone =>
    obtain ⟨got, hgot, hfilled, hrest, hend, hplain'⟩ := fill_spec hplain
    rw [hgot] at hnone
    obtain rfl : got = [] := List.length_eq_zero_iff.mp hnone
    refine ⟨r.buffered, fun hmem => hfound (List.idxOf_lt_length_iff.mpr hmem), hplain', ?_⟩
    rw [if_neg Bool.false_ne_true, left, hrest, hend rfl]
    exact ⟨List.append_nil _, rfl⟩
  | case3 r found hfound hsome ih =>
    obtain ⟨got, hgot, hfilled, hrest, hend, hplain'⟩ := fill_spec hplain
    obtain ⟨before, hbefore, hplain'', hskip⟩ := ih hplain'
    have hmem : delim ∉ r.buffered := fun hmem => hfound (List.idxOf_lt_length_iff.mpr hmem)
    refine ⟨r.buffered ++ before, fun h => (List.mem_append.mp h).elim hmem hbefore, hplain'', ?_⟩
    rw [left, hrest]
    split_ifs at hskip ⊢
    · rw [hskip]
      simp only [List.append_assoc]
    · exact ⟨by rw [hskip.1], hskip.2⟩

/-- **Step lemma**: every call takes the bytes that its answer says off the plain stream. -/
theorem perform_spec [DecidableEq α] (hplain : r.source.Plain) (call : ReadCall α) :
    ∃ taken, r.left = taken ++ (r.perform call).2.left ∧
      Takes call (r.perform call).1 taken (r.perform call).2.left ∧
      (r.perform call).2.source.Plain := by
  cases call with
  | read n hn =>
    -- Nothing is returned at the end only.
    obtain ⟨taken, hread, hleft, hlen, hend, hplain'⟩ := read_spec hplain hn
    refine ⟨taken, hleft, ?_, hplain'⟩
    change Takes _ (.bytes (r.read n).1) taken (r.read n).2.left
    rw [hread]
    cases taken with
    | nil =>
      have hnone : (r.read n).2.left = [] := hleft.symm.trans (hend rfl)
      rw [hnone]
      exact .readEnd
    | cons b bytes => exact .read (List.cons_ne_nil _ _) hlen
  | readByte =>
    obtain ⟨hleft, hend, hplain'⟩ := readByte_spec hplain
    refine ⟨r.readByte.1.toList, hleft, ?_, hplain'⟩
    change Takes _ (.byte r.readByte.1) _ r.readByte.2.left
    cases hbyte : r.readByte.1 with
    | none =>
      rw [hbyte] at hleft
      have hnone : r.readByte.2.left = [] := hleft.symm.trans (hend hbyte)
      rw [hnone]
      exact .byteEnd
    | some byte => exact .byte
  | skipPast delim =>
    -- The delimiter is found, or the stream ends before it.
    obtain ⟨before, hbefore, hplain', hskip⟩ := skipPast_spec hplain delim
    change ∃ taken, _ ∧ Takes _ (.skipped (r.skipPast delim).1) taken _ ∧ _
    cases hfound : (r.skipPast delim).1 with
    | true =>
      rw [hfound, if_pos rfl] at hskip
      exact ⟨before ++ [delim], hskip, .skip hbefore, hplain'⟩
    | false =>
      rw [hfound, if_neg Bool.false_ne_true] at hskip
      obtain ⟨hleft, hnone⟩ := hskip
      refine ⟨before, ?_, ?_, hplain'⟩
      · change r.left = before ++ (r.skipPast delim).2.left
        rw [hnone, List.append_nil, hleft]
      · change Takes _ _ before (r.skipPast delim).2.left
        rw [hnone]
        exact .skipEnd hbefore

/-- **Run lemma**: calls in any order take the plain stream one piece after another. -/
theorem run_spec [DecidableEq α] (hplain : r.source.Plain) (calls : List (ReadCall α)) :
    ∃ taken, r.left = taken ++ (r.run calls).2.left ∧
      PlainRun (r.run calls).1 taken (r.run calls).2.left := by
  induction calls generalizing r with
  | nil => exact ⟨[], rfl, .nil⟩
  | cons call calls ih =>
    obtain ⟨piece, hleft, htakes, hplain'⟩ := perform_spec hplain call
    obtain ⟨taken, hrest, hrun⟩ := ih hplain'
    rw [hrest] at hleft htakes
    refine ⟨piece ++ taken, ?_, .cons htakes hrun⟩
    rw [hleft, List.append_assoc]
    rfl

end BufferedReader

open BufferedReader

/-- **`BufferedReader` refines the plain byte stream.**  For every capacity, every stream in
    chunks of any sizes and every sequence of calls, the calls and their answers are a run of
    the plain stream: together they take a prefix of it, and the rest is still to come. -/
theorem reader_refines [DecidableEq α] (source : Source α ε) {capacity : ℕ}
    (hcapacity : 0 < capacity) (hplain : source.Plain) (calls : List (ReadCall α)) :
    ∃ taken, source.rest = taken ++ ((new source capacity hcapacity).run calls).2.left ∧
      PlainRun ((new source capacity hcapacity).run calls).1 taken
        ((new source capacity hcapacity).run calls).2.left :=
  run_spec (r := new source capacity hcapacity) hplain calls

/-- A stream of five bytes in chunks of two, through a buffer of two. -/
theorem reader_refines_five :
    let source : Source ℕ Empty := ⟨[1, 2, 3, 4, 5], fun _ => .ok 2, 0⟩
    let calls := [.readByte, .skipPast 4, .read 3 (by decide), .readByte]
    ∃ taken left, [1, 2, 3, 4, 5] = taken ++ left ∧
      PlainRun ((new source 2 (by decide)).run calls).1 taken left := by
  intro source calls
  obtain ⟨taken, hrest, hrun⟩ := reader_refines source (Nat.succ_pos 1) (fun _ => ⟨2, rfl⟩) calls
  exact ⟨taken, _, hrest, hrun⟩

end Remmy.Io
