import Remmy.Bytes
import Mathlib.Algebra.Order.Ring.Int
import Mathlib.Data.List.TakeWhile
import Mathlib.Tactic.Positivity

/-!
# The Environment

`env.hpp`: how a value is read from an environment variable, and `ThreadCount` of `main.cpp`, which
reads the number of workers from one.

- `Integral` is an integral type by its width and its sign; a `Value` of it is in its range.
- `Spells` says which texts are an integer in decimals, without reading them.
- `parse_spec` says of every text what reading it gives.
- `threadCount_spec` says of every environment how many workers are made.
-/

namespace Remmy.CommandLine

/-- `EnvError`. -/
inductive EnvError
  | notSet
  | malformed
  | outOfRange
  deriving DecidableEq

/-- `EnvParser`. -/
class EnvParser (α : Type) where
  /-- `Parse`. -/
  parse : Bytes → Except EnvError α

/-! ## Integral types -/

/-- An integral type other than `bool`. -/
structure Integral where
  bits : ℕ
  isSigned : Bool

/-- `std::uint16_t`. -/
def uint16 : Integral := { bits := 16, isSigned := false }

namespace Integral

/-- `std::numeric_limits<T>::min`. -/
def min (t : Integral) : ℤ := if t.isSigned then -2 ^ (t.bits - 1) else 0

/-- `std::numeric_limits<T>::max`. -/
def max (t : Integral) : ℤ := if t.isSigned then 2 ^ (t.bits - 1) - 1 else 2 ^ t.bits - 1

/-- A value of the type. -/
@[ext]
structure Value (t : Integral) where
  val : ℤ
  min_le : t.min ≤ val
  le_max : val ≤ t.max
  deriving DecidableEq

theorem min_le_zero (t : Integral) : t.min ≤ 0 := by
  unfold min
  split
  · exact neg_nonpos.mpr (by positivity)
  · exact le_refl 0

theorem zero_le_max (t : Integral) : 0 ≤ t.max := by
  have hone : ∀ k : ℕ, (1 : ℤ) ≤ 2 ^ k := fun k => one_le_pow₀ (by norm_num)
  unfold max
  split
  · exact sub_nonneg.mpr (hone _)
  · exact sub_nonneg.mpr (hone _)

/-- `T value{}`. -/
def zero (t : Integral) : t.Value := ⟨0, t.min_le_zero, t.zero_le_max⟩

theorem not_neg_of_unsigned {t : Integral} (h : t.isSigned = false) (v : t.Value) : 0 ≤ v.val := by
  have hmin := v.min_le
  rw [min, h] at hmin
  exact hmin

end Integral

/-! ## Reading an integer -/

/-- `'-'`. -/
def minus : UInt8 := '-'.toUInt8

/-- A character from `'0'` to `'9'`. -/
def isDigit (b : UInt8) : Bool := '0'.toUInt8 ≤ b && b ≤ '9'.toUInt8

/-- The number that digits stand for. -/
def numeral (digits : Bytes) : ℕ :=
  digits.foldl (fun n b => 10 * n + (b.toNat - '0'.toNat)) 0

/-- `std::errc` as `std::from_chars` has it. -/
inductive FromCharsErrc
  | invalidArgument
  | resultOutOfRange
  deriving DecidableEq

/-- `std::from_chars_result`: the text from `ptr` on, and `ec` or the value that is set. -/
structure FromCharsResult (t : Integral) where
  stopped : Bytes
  value : Except FromCharsErrc t.Value

/-- The minus sign that `std::from_chars` takes, of a signed type only, and what follows it. -/
def takeSign (t : Integral) (raw : Bytes) : Bool × Bytes :=
  if t.isSigned = true ∧ raw.head? = some minus then (true, raw.tail) else (false, raw)

/-- A number as a value of the type, if it is in range. -/
def inRange (t : Integral) (n : ℤ) : Except FromCharsErrc t.Value :=
  if h : t.min ≤ n ∧ n ≤ t.max then .ok ⟨n, h.1, h.2⟩ else .error .resultOutOfRange

/-- A number with its sign. -/
def withSign (negative : Bool) (n : ℕ) : ℤ := if negative then -n else n

/-- `std::from_chars` in base ten: the longest run of digits is read, whatever follows it. -/
def fromChars (t : Integral) (raw : Bytes) : FromCharsResult t :=
  if (takeSign t raw).2.takeWhile isDigit = [] then
    { stopped := raw, value := .error .invalidArgument }
  else
    { stopped := (takeSign t raw).2.dropWhile isDigit
      value := inRange t
        (withSign (takeSign t raw).1 (numeral ((takeSign t raw).2.takeWhile isDigit))) }

/-- `EnvParser<T>::Parse` of an integral type. -/
def Integral.parse (t : Integral) (raw : Bytes) : Except EnvError t.Value :=
  match (fromChars t raw).value with
  | .error .resultOutOfRange => .error .outOfRange
  | .error .invalidArgument => .error .malformed
  | .ok v => if (fromChars t raw).stopped = [] then .ok v else .error .malformed

instance (t : Integral) : EnvParser t.Value := ⟨t.parse⟩

/-! ## Reading the other types -/

/-- `detail::AsciiLower`. -/
def asciiLower (c : UInt8) : UInt8 :=
  if 'A'.toUInt8 ≤ c ∧ c ≤ 'Z'.toUInt8 then c - 'A'.toUInt8 + 'a'.toUInt8 else c

/-- `detail::EqualsIgnoreCase`. -/
def equalsIgnoreCase (lhs rhs : Bytes) : Bool := lhs.map asciiLower == rhs.map asciiLower

/-- `detail::MatchesAny`. -/
def matchesAny (raw : Bytes) (spellings : List Bytes) : Bool :=
  spellings.any (equalsIgnoreCase raw)

/-- The spellings of a truth value. -/
def boolSpellings : Bool → List Bytes
  | true => [text "1", text "true", text "yes", text "on"]
  | false => [text "0", text "false", text "no", text "off"]

/-- `EnvParser<bool>::Parse`. -/
def parseBool (raw : Bytes) : Except EnvError Bool :=
  if matchesAny raw (boolSpellings true) then .ok true
  else if matchesAny raw (boolSpellings false) then .ok false
  else .error .malformed

instance : EnvParser Bool := ⟨parseBool⟩

/-- `EnvParser<std::string_view>::Parse`. -/
instance : EnvParser Bytes := ⟨.ok⟩

/-! ## Reading a variable -/

section GetEnv

variable {α : Type} [EnvParser α] (getenv : Bytes → Option Bytes) (name : Bytes)

/-- `GetEnv`. -/
def getEnv : Except EnvError α :=
  match getenv name with
  | none => .error .notSet
  | some raw => EnvParser.parse raw

/-- `GetEnvOrDefault`. -/
def getEnvOrDefault (fallback : α) : α := (getEnv getenv name).toOption.getD fallback

end GetEnv

/-- `kEnvThreadsName`. -/
def kEnvThreadsName : Bytes := text "REMMY_THREADS"

/-- `kMaxThreads`. -/
def kMaxThreads : ℕ := 4

/-- `ThreadCount`, with what `std::thread::hardware_concurrency` returns. -/
def threadCount (getenv : Bytes → Option Bytes) (hw : ℕ) : ℕ :=
  if 0 < (getEnvOrDefault getenv kEnvThreadsName uint16.zero).val then
    (getEnvOrDefault getenv kEnvThreadsName uint16.zero).val.toNat
  else min hw kMaxThreads % 2 ^ 16

/-- `max_workers_`, from the `worker_count` that the constructor of `TaskScheduler` is given. -/
def maxWorkers (workerCount : ℕ) : ℕ := max 1 workerCount

/-! ## What is an integer in decimals -/

/-- One digit or more. -/
structure IsRun (digits : Bytes) : Prop where
  ne_nil : digits ≠ []
  isDigit : ∀ b ∈ digits, isDigit b = true

/-- `raw` is the integer `n`: digits, after a minus sign if it is negative. -/
inductive Spells (t : Integral) : Bytes → ℤ → Prop
  | digits {run : Bytes} (h : IsRun run) : Spells t run (numeral run)
  | negative {run : Bytes} (hsigned : t.isSigned = true) (h : IsRun run) :
      Spells t (minus :: run) (-numeral run)

/-- `raw` starts with the integer `n`, with no digit right after it, and `rest` follows. -/
def Reads (t : Integral) (raw : Bytes) (n : ℤ) (rest : Bytes) : Prop :=
  ∃ head, raw = head ++ rest ∧ Spells t head n ∧ ∀ b ∈ rest.head?, isDigit b = false

section Reads

variable {t : Integral} {raw rest run : Bytes} {n : ℤ}

theorem takeWhile_run (hrun : IsRun run) (hrest : ∀ b ∈ rest.head?, isDigit b = false) :
    (run ++ rest).takeWhile isDigit = run := by
  rw [List.takeWhile_append_of_pos hrun.isDigit]
  cases rest with
  | nil => simp
  | cons b rest => simp [hrest b rfl]

theorem dropWhile_run (hrun : IsRun run) (hrest : ∀ b ∈ rest.head?, isDigit b = false) :
    (run ++ rest).dropWhile isDigit = rest := by
  rw [List.dropWhile_append_of_pos hrun.isDigit]
  cases rest with
  | nil => rfl
  | cons b rest => simp [hrest b rfl]

theorem isRun_takeWhile (h : raw.takeWhile isDigit ≠ []) : IsRun (raw.takeWhile isDigit) :=
  ⟨h, fun _ hb => List.mem_takeWhile_imp hb⟩

theorem head_dropWhile : ∀ b ∈ (raw.dropWhile isDigit).head?, isDigit b = false := by
  intro b hb
  have hne := List.head?_dropWhile_not isDigit raw
  rw [hb] at hne
  simpa using hne

/-- A digit is not taken for a sign. -/
theorem takeSign_run (hrun : IsRun run) : takeSign t (run ++ rest) = (false, run ++ rest) := by
  obtain _ | ⟨b, run⟩ := run
  · exact absurd rfl hrun.ne_nil
  · refine if_neg fun h => ?_
    have hb : b = minus := Option.some.inj h.2
    -- The minus sign would be a digit.
    have hdigit := hrun.isDigit b List.mem_cons_self
    rw [hb] at hdigit
    exact absurd hdigit (by decide)

/-- What is read is what `takeSign` and the longest run of digits say. -/
theorem reads_iff : Reads t raw n rest ↔
    (takeSign t raw).2.takeWhile isDigit ≠ [] ∧
      n = withSign (takeSign t raw).1 (numeral ((takeSign t raw).2.takeWhile isDigit)) ∧
      rest = (takeSign t raw).2.dropWhile isDigit := by
  constructor
  -- What is spelled is what `std::from_chars` takes: its sign, then all of its digits.
  · rintro ⟨head, rfl, hspells, hrest⟩
    cases hspells with
    | digits hrun =>
      rw [takeSign_run hrun]
      exact ⟨by rw [takeWhile_run hrun hrest]; exact hrun.ne_nil,
        by rw [takeWhile_run hrun hrest]; rfl, (dropWhile_run hrun hrest).symm⟩
    | @negative run hsigned hrun =>
      have hsign : takeSign t (minus :: run ++ rest) = (true, run ++ rest) :=
        if_pos ⟨hsigned, rfl⟩
      rw [hsign]
      exact ⟨by rw [takeWhile_run hrun hrest]; exact hrun.ne_nil,
        by rw [takeWhile_run hrun hrest]; rfl, (dropWhile_run hrun hrest).symm⟩
  · rintro ⟨hne, rfl, rfl⟩
    -- The sign is taken, or there is none that may be.
    by_cases hsign : t.isSigned = true ∧ raw.head? = some minus
    · have htake : takeSign t raw = (true, raw.tail) := if_pos hsign
      rw [htake] at hne ⊢
      refine ⟨minus :: raw.tail.takeWhile isDigit, ?_, .negative hsign.1 (isRun_takeWhile hne),
        head_dropWhile⟩
      rw [List.cons_append, List.takeWhile_append_dropWhile]
      exact (List.cons_head?_tail hsign.2).symm
    · have htake : takeSign t raw = (false, raw) := if_neg hsign
      rw [htake] at hne ⊢
      exact ⟨raw.takeWhile isDigit, List.takeWhile_append_dropWhile.symm,
        .digits (isRun_takeWhile hne), head_dropWhile⟩

theorem fromChars_of_reads (h : Reads t raw n rest) :
    fromChars t raw = { stopped := rest, value := inRange t n } := by
  obtain ⟨hne, rfl, rfl⟩ := reads_iff.mp h
  exact if_neg hne

theorem fromChars_of_not_reads (h : ∀ n rest, ¬Reads t raw n rest) :
    fromChars t raw = { stopped := raw, value := .error .invalidArgument } :=
  if_pos (by_contra fun hne => h _ _ (reads_iff.mpr ⟨hne, rfl, rfl⟩))

theorem reads_nil_iff : Reads t raw n [] ↔ Spells t raw n := by
  constructor
  · rintro ⟨head, rfl, hspells, -⟩
    rwa [List.append_nil]
  · intro hspells
    exact ⟨raw, (List.append_nil raw).symm, hspells, fun _ hb => by cases hb⟩

end Reads

/-! ## What reading an integer gives -/

/-- `raw` starts with an integer that the type cannot hold. -/
def IsOutOfRange (t : Integral) (raw : Bytes) : Prop :=
  ∃ n rest, Reads t raw n rest ∧ ¬(t.min ≤ n ∧ n ≤ t.max)

/-- `raw` does not start with an integer, or with one in range that is not all of it. -/
def IsMalformed (t : Integral) (raw : Bytes) : Prop :=
  ∀ n rest, Reads t raw n rest → t.min ≤ n ∧ n ≤ t.max ∧ rest ≠ []

section Parse

variable {t : Integral} {raw rest : Bytes} {n : ℤ}

theorem inRange_of_mem (hmin : t.min ≤ n) (hmax : n ≤ t.max) :
    inRange t n = .ok ⟨n, hmin, hmax⟩ :=
  dif_pos ⟨hmin, hmax⟩

theorem parse_of_reads (h : Reads t raw n rest) (hmin : t.min ≤ n) (hmax : n ≤ t.max) :
    t.parse raw = if rest = [] then .ok ⟨n, hmin, hmax⟩ else .error .malformed := by
  rw [Integral.parse, fromChars_of_reads h, inRange_of_mem hmin hmax]

theorem parse_of_spells {v : t.Value} (h : Spells t raw v.val) : t.parse raw = .ok v :=
  parse_of_reads (reads_nil_iff.mpr h) v.min_le v.le_max

theorem parse_of_isOutOfRange (h : IsOutOfRange t raw) : t.parse raw = .error .outOfRange := by
  obtain ⟨n, rest, hreads, hout⟩ := h
  have hvalue : inRange t n = .error .resultOutOfRange := dif_neg hout
  rw [Integral.parse, fromChars_of_reads hreads, hvalue]

theorem parse_of_isMalformed (h : IsMalformed t raw) : t.parse raw = .error .malformed := by
  by_cases hreads : ∃ n rest, Reads t raw n rest
  · obtain ⟨n, rest, hreads⟩ := hreads
    obtain ⟨hmin, hmax, hrest⟩ := h n rest hreads
    rw [parse_of_reads hreads hmin hmax, if_neg hrest]
  · rw [Integral.parse, fromChars_of_not_reads fun n rest h => hreads ⟨n, rest, h⟩]

/-- Every text is a value of the type, out of range or malformed. -/
theorem classify (t : Integral) (raw : Bytes) :
    (∃ v : t.Value, Spells t raw v.val) ∨ IsOutOfRange t raw ∨ IsMalformed t raw := by
  by_cases hout : IsOutOfRange t raw
  · exact .inr (.inl hout)
  by_cases hspells : ∃ v : t.Value, Spells t raw v.val
  · exact .inl hspells
  refine .inr (.inr fun n rest hreads => ?_)
  have hrange : t.min ≤ n ∧ n ≤ t.max := by_contra fun h => hout ⟨n, rest, hreads, h⟩
  refine ⟨hrange.1, hrange.2, fun hrest => hspells ⟨⟨n, hrange.1, hrange.2⟩, ?_⟩⟩
  rw [hrest] at hreads
  exact reads_nil_iff.mp hreads

theorem parse_eq_ok {v : t.Value} : t.parse raw = .ok v ↔ Spells t raw v.val := by
  refine ⟨fun h => ?_, parse_of_spells⟩
  obtain ⟨w, hw⟩ | hout | hmalformed := classify t raw
  · rw [parse_of_spells hw] at h
    rwa [← Except.ok.inj h]
  · rw [parse_of_isOutOfRange hout] at h
    cases h
  · rw [parse_of_isMalformed hmalformed] at h
    cases h

theorem parse_eq_error {e : EnvError} : t.parse raw = .error e ↔
    (e = .outOfRange ∧ IsOutOfRange t raw) ∨ (e = .malformed ∧ IsMalformed t raw) := by
  constructor
  · intro h
    obtain ⟨w, hw⟩ | hout | hmalformed := classify t raw
    · rw [parse_of_spells hw] at h
      cases h
    · rw [parse_of_isOutOfRange hout] at h
      exact .inl ⟨(Except.error.inj h).symm, hout⟩
    · rw [parse_of_isMalformed hmalformed] at h
      exact .inr ⟨(Except.error.inj h).symm, hmalformed⟩
  · rintro (⟨rfl, hout⟩ | ⟨rfl, hmalformed⟩)
    · exact parse_of_isOutOfRange hout
    · exact parse_of_isMalformed hmalformed

/-- **Reading an integer.**  It is read from a text that is that integer in decimals and nothing
    else.  A text that starts with an integer out of range is out of range, whatever follows, and
    every other text is malformed. -/
theorem parse_spec (t : Integral) (raw : Bytes) :
    (∀ v, t.parse raw = .ok v ↔ Spells t raw v.val) ∧
      (t.parse raw = .error .outOfRange ↔ IsOutOfRange t raw) ∧
      (t.parse raw = .error .malformed ↔ IsMalformed t raw) ∧
      t.parse raw ≠ .error .notSet := by
  refine ⟨fun v => parse_eq_ok, ?_, ?_, fun h => ?_⟩
  · simp [parse_eq_error]
  · simp [parse_eq_error]
  · simp [parse_eq_error] at h

example : uint16.parse (text "65536x") = .error .outOfRange := by decide

example : uint16.parse (text "-5") = .error .malformed := by decide

end Parse

/-! ## A written integer is read back -/

theorem toNat_mem_of_isDigit {c : Char} (h : c.isDigit = true) : 48 ≤ c.toNat ∧ c.toNat ≤ 57 := by
  rw [Char.isDigit, Bool.and_eq_true, decide_eq_true_eq, decide_eq_true_eq] at h
  exact ⟨UInt32.le_iff_toNat_le.mp h.1, UInt32.le_iff_toNat_le.mp h.2⟩

/-- A digit is one byte. -/
theorem toUInt8_of_isDigit {c : Char} (h : c.isDigit = true) : c.toUInt8.toNat = c.toNat :=
  Nat.mod_eq_of_lt (Nat.lt_of_le_of_lt (toNat_mem_of_isDigit h).2 (by decide))

theorem isDigit_of_isDigit {c : Char} (h : c.isDigit = true) : isDigit c.toUInt8 = true := by
  obtain ⟨hge, hle⟩ := toNat_mem_of_isDigit h
  rw [← toUInt8_of_isDigit h] at hge hle
  rw [isDigit, Bool.and_eq_true, decide_eq_true_eq, decide_eq_true_eq]
  exact ⟨UInt8.le_iff_toNat_le.mpr hge, UInt8.le_iff_toNat_le.mpr hle⟩

theorem text_toString (n : ℕ) : text (toString n) = (Nat.toDigits 10 n).map Char.toUInt8 :=
  congrArg (List.map Char.toUInt8) Nat.toList_repr

theorem isRun_toString (n : ℕ) : IsRun (text (toString n)) := by
  rw [text_toString]
  refine ⟨fun h => Nat.toDigits_ne_nil (List.map_eq_nil_iff.mp h), fun b hb => ?_⟩
  obtain ⟨c, hc, rfl⟩ := List.mem_map.mp hb
  exact isDigit_of_isDigit (Nat.isDigit_of_mem_toDigits (by decide) (by decide) hc)

theorem foldl_digits {cs : List Char} (h : ∀ c ∈ cs, c.isDigit = true) (n : ℕ) :
    (cs.map Char.toUInt8).foldl (fun n b => 10 * n + (b.toNat - '0'.toNat)) n =
      Nat.ofDigitChars 10 cs n := by
  induction cs generalizing n with
  | nil => rw [Nat.ofDigitChars_nil]; rfl
  | cons c cs ih =>
    rw [List.map_cons, List.foldl_cons, Nat.ofDigitChars_cons,
      toUInt8_of_isDigit (h c List.mem_cons_self)]
    exact ih (fun c hc => h c (List.mem_cons_of_mem _ hc)) _

theorem numeral_toString (n : ℕ) : numeral (text (toString n)) = n := by
  rw [text_toString, numeral, foldl_digits fun c hc =>
    Nat.isDigit_of_mem_toDigits (by decide) (by decide) hc, Nat.ofDigitChars_ten_toDigits]

theorem spells_toString {t : Integral} (v : t.Value) : Spells t (text (toString v.val)) v.val := by
  cases hval : v.val with
  | ofNat n =>
    have hspells := Spells.digits (t := t) (isRun_toString n)
    rwa [numeral_toString] at hspells
  | negSucc n =>
    have hsigned : t.isSigned = true := by
      by_contra hunsigned
      have hnonneg := Integral.not_neg_of_unsigned (Bool.eq_false_of_not_eq_true hunsigned) v
      omega
    have hspells := Spells.negative hsigned (isRun_toString (n + 1))
    have htext : text (toString (Int.negSucc n)) = minus :: text (toString (n + 1)) := by
      have hrepr : (Int.negSucc n).repr = "-" ++ (n + 1).repr := rfl
      rw [text, Int.toString_eq_repr, hrepr, String.toList_append]
      rfl
    rw [numeral_toString] at hspells
    rw [htext]
    exact hspells

/-- Every value of the type is read back from its decimals. -/
theorem parse_toString {t : Integral} (v : t.Value) : t.parse (text (toString v.val)) = .ok v :=
  parse_of_spells (spells_toString v)

/-! ## What reading a truth value gives -/

/-- The spellings are in small letters, so a text is compared with them in small letters. -/
theorem matchesAny_boolSpellings {raw : Bytes} {b : Bool} :
    matchesAny raw (boolSpellings b) = true ↔ raw.map asciiLower ∈ boolSpellings b := by
  have hlower : ∀ b, ∀ s ∈ boolSpellings b, s.map asciiLower = s := by decide
  rw [matchesAny, List.any_eq_true]
  constructor
  · rintro ⟨spelling, hmem, hequal⟩
    rw [equalsIgnoreCase, beq_iff_eq, hlower b spelling hmem] at hequal
    rwa [hequal]
  · intro hmem
    refine ⟨_, hmem, ?_⟩
    rw [equalsIgnoreCase, beq_iff_eq, hlower b _ hmem]

/-- A truth value is read from its spellings, in any case.  No text is in both lists, so it does
    not matter which is searched first. -/
theorem parseBool_eq_ok {raw : Bytes} {b : Bool} :
    parseBool raw = .ok b ↔ raw.map asciiLower ∈ boolSpellings b := by
  have hdisjoint : ∀ s ∈ boolSpellings true, s ∉ boolSpellings false := by decide
  rw [← matchesAny_boolSpellings, parseBool]
  by_cases htrue : matchesAny raw (boolSpellings true) = true
  · have hfalse : ¬matchesAny raw (boolSpellings false) = true := fun h =>
      hdisjoint _ (matchesAny_boolSpellings.mp htrue) (matchesAny_boolSpellings.mp h)
    cases b with
    | true => simp [htrue]
    | false => simp [htrue, hfalse]
  · rw [if_neg htrue]
    cases b with
    | true =>
      split
      · simp [htrue]
      · simp [htrue]
    | false => simp

/-! ## The number of workers -/

/-- The environment asks for `n` workers. -/
def Asks (getenv : Bytes → Option Bytes) (n : ℕ) : Prop :=
  ∃ raw, getenv kEnvThreadsName = some raw ∧ Spells uint16 raw n ∧ 0 < n ∧ n < 2 ^ 16

section ThreadCount

variable {getenv : Bytes → Option Bytes} {n : ℕ}

theorem getEnvOrDefault_ok {α : Type} [EnvParser α] {name raw : Bytes} {fallback v : α}
    (hraw : getenv name = some raw) (hparse : EnvParser.parse raw = .ok v) :
    getEnvOrDefault getenv name fallback = v := by
  rw [getEnvOrDefault, getEnv, hraw]
  simp only [hparse, Except.toOption, Option.getD_some]

/-- The default is taken when the variable is not set or cannot be read. -/
theorem getEnvOrDefault_error {α : Type} [EnvParser α] {name : Bytes} {fallback : α} {e : EnvError}
    (h : getEnv getenv name = (.error e : Except EnvError α)) :
    getEnvOrDefault getenv name fallback = fallback := by
  rw [getEnvOrDefault, h]
  rfl

/-- What is asked for is what is read. -/
theorem asks_iff : Asks getenv n ↔
    0 < n ∧ (getEnvOrDefault getenv kEnvThreadsName uint16.zero).val = n := by
  constructor
  · rintro ⟨raw, hraw, hspells, hpos, hlt⟩
    have hmin : uint16.min ≤ n := Int.natCast_nonneg n
    have hmax : (n : ℤ) ≤ uint16.max := by
      have hmax : uint16.max = 2 ^ 16 - 1 := rfl
      omega
    have hparse : EnvParser.parse raw = .ok (⟨n, hmin, hmax⟩ : uint16.Value) :=
      parse_of_spells hspells
    rw [getEnvOrDefault_ok hraw hparse]
    exact ⟨hpos, rfl⟩
  · rintro ⟨hpos, hval⟩
    -- What cannot be read is taken for 0, and asks for nothing.
    cases hget : (getEnv getenv kEnvThreadsName : Except EnvError uint16.Value) with
    | error e =>
      rw [getEnvOrDefault_error hget] at hval
      have hzero : uint16.zero.val = 0 := rfl
      omega
    | ok v =>
      have hdefault : getEnvOrDefault getenv kEnvThreadsName uint16.zero = v := by
        rw [getEnvOrDefault, hget]
        rfl
      rw [hdefault] at hval
      cases hraw : getenv kEnvThreadsName with
      | none =>
        rw [getEnv, hraw] at hget
        cases hget
      | some raw =>
        rw [getEnv, hraw] at hget
        have hspells : Spells uint16 raw v.val := parse_eq_ok.mp hget
        have hmax := v.le_max
        have hval_max : uint16.max = 2 ^ 16 - 1 := rfl
        rw [hval] at hspells hmax
        exact ⟨raw, hraw, hspells, hpos, by omega⟩

/-- **The number of workers.**  A number of workers that the environment asks for is made; if it
    asks for none, because the variable is not set, is not a number, is zero or does not fit, there
    are as many as the hardware runs at a time and four at most.  There is always one. -/
theorem threadCount_spec (getenv : Bytes → Option Bytes) (hw : ℕ) :
    (∀ n, Asks getenv n → maxWorkers (threadCount getenv hw) = n) ∧
      ((∀ n, ¬Asks getenv n) →
        maxWorkers (threadCount getenv hw) = max 1 (min hw kMaxThreads)) ∧
      0 < maxWorkers (threadCount getenv hw) ∧ maxWorkers (threadCount getenv hw) < 2 ^ 16 := by
  have hvalue := (getEnvOrDefault getenv kEnvThreadsName uint16.zero).le_max
  have hmax : uint16.max = 2 ^ 16 - 1 := rfl
  have hwmax : kMaxThreads = 4 := rfl
  rw [maxWorkers, threadCount]
  refine ⟨fun n hasks => ?_, fun hnone => ?_, ?_, ?_⟩
  · obtain ⟨hpos, hval⟩ := asks_iff.mp hasks
    rw [hval, if_pos (by omega), Int.toNat_natCast]
    omega
  · have hzero : ¬0 < (getEnvOrDefault getenv kEnvThreadsName uint16.zero).val := fun hpos =>
      hnone _ (asks_iff.mpr ⟨by omega, (Int.toNat_of_nonneg (by omega)).symm⟩)
    rw [if_neg hzero]
    omega
  · exact Nat.lt_of_lt_of_le Nat.one_pos (le_max_left 1 _)
  · split
    · omega
    · omega

end ThreadCount

end Remmy.CommandLine
