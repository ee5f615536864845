import Remmy.DirNode.Path
import Remmy.FileSystem.Walk
import Remmy.Lib.Program
import Mathlib.Data.List.TakeWhile
import Remmy.Os.Errno

/-!
# Opening and Removing Long Paths

`OpenLong`, `DirNode::Open` and `DirNode::RemoveEmpty` on a file system that does not
change: cut into pieces, a path leads to the directory that the whole path names.

The kernel may fail any call; when an open succeeds it gives the directory that the path
names.
-/

namespace Remmy.DirNode

open Remmy.Lib Remmy.Os Remmy.FileSystem

universe u

variable {ι : Type u} {fs : FileTree ι}

/-! ## System calls -/

/-- A system call of a `DirNode`, with the path it is given. -/
inductive Call (ι : Type u)
  | openAt (dir : Option ι) (path : Bytes) (noFollow : Bool)
  | rmdir (path : Bytes)
  | unlinkat (dir : ι) (name : Bytes)

/-- The path string of a call. -/
def Call.path : Call ι → Bytes
  | .openAt _ path _ => path
  | .rmdir path => path
  | .unlinkat _ name => name

/-- The answers of a kernel over `fs`.  Opens are numbered: the same open may fail once and
    succeed later. -/
structure Kernel (fs : FileTree ι) where
  openAt : ℕ → Option ι → Bytes → Bool → Except OpenError ι
  rmdir : Bytes → Except Errno Unit
  unlinkat : ι → Bytes → Except Errno Unit
  openAt_reach : ∀ {n : ℕ} {dir : Option ι} {path : Bytes} {noFollow : Bool} {e : ι},
    openAt n dir path noFollow = .ok e → fs.Reach (dir.getD fs.cwd) path noFollow e

/-- The error in a result. -/
def errorCode {α : Type u} : Except OpenError α → Option Errno
  | .ok _ => none
  | .error e => some e.code

/-- The error with which call number `n` fails, if it does. -/
def Kernel.error (k : Kernel fs) (n : ℕ) : Call ι → Option Errno
  | .openAt dir path noFollow => errorCode (k.openAt n dir path noFollow)
  | .rmdir path => Program.thrown (k.rmdir path)
  | .unlinkat dir name => Program.thrown (k.unlinkat dir name)

/-- `k.Answers n calls r`: the calls, the first one being number `n`, succeed one after the other,
    but for the last one, whose error is `r`. -/
inductive Kernel.Answers (k : Kernel fs) : ℕ → List (Call ι) → Option Errno → Prop
  | last {n : ℕ} {call : Call ι} : Answers k n [call] (k.error n call)
  | next {n : ℕ} {call : Call ι} {calls : List (Call ι)} {r : Option Errno} :
      k.error n call = none → Answers k (n + 1) calls r → Answers k n (call :: calls) r

/-- Every open of a directory that is there succeeds, if its path fits. -/
def Kernel.OpensReached (k : Kernel fs) (pathMax : ℕ) : Prop :=
  ∀ n dir path noFollow e, path.length < pathMax → fs.Reach (dir.getD fs.cwd) path noFollow e →
    ∃ e', k.openAt n dir path noFollow = .ok e'

/-- Such an open gives the directory that the path names. -/
theorem Kernel.OpensReached.openAt_eq {k : Kernel fs} {pathMax n : ℕ} {dir : Option ι}
    {path : Bytes} {noFollow : Bool} {e : ι} (h : k.OpensReached pathMax)
    (hlen : path.length < pathMax) (hreach : fs.Reach (dir.getD fs.cwd) path noFollow e) :
    k.openAt n dir path noFollow = .ok e := by
  obtain ⟨e', he'⟩ := h n dir path noFollow e hlen hreach
  rw [he', (k.openAt_reach he').unique hreach]

/-- One more call, after calls that have succeeded. -/
theorem Kernel.Answers.concat {k : Kernel fs} {n : ℕ} {calls : List (Call ι)} {r : Option Errno}
    (h : k.Answers n calls r) (hr : r = none) (call : Call ι) :
    k.Answers n (calls ++ [call]) (k.error (n + calls.length) call) := by
  induction h with
  | last => exact .next hr .last
  | @next n first calls r hfirst _ ih =>
    rw [List.cons_append, List.length_cons, Nat.add_comm calls.length, ← Nat.add_assoc]
    exact .next hfirst (ih hr)

/-! ## The code -/

/-- `OpenLong` from `dir`, its next open being number `n`: the result and the calls made. -/
def openLong (k : Kernel fs) (pathMax : ℕ) (noFollow : Bool) (n : ℕ) (dir : Option ι)
    (path : Bytes) : Except OpenError ι × List (Call ι) :=
  match _h : nextPiece pathMax path with
  | .whole => (k.openAt n dir path noFollow, [.openAt dir path noFollow])
  | .tooLong => (.error ⟨.enametoolong, false⟩, [])
  | .piece first rest =>
    match k.openAt n dir first false with
    | .error e => (.error e, [.openAt dir first false])
    | .ok next =>
      let (result, calls) := openLong k pathMax noFollow (n + 1) (some next) rest
      (result, .openAt dir first false :: calls)
termination_by path.length
decreasing_by exact length_rest_lt _h

/-- `DirNode::Open` of a node with this chain. -/
def openNode (k : Kernel fs) (pathMax : ℕ) (fd : Option ι) (chain : List Bytes) :
    Except OpenError ι × List (Call ι) :=
  match fd with
  | some dir => (.ok dir, [])
  | none => openLong k pathMax true 0 none (pathInto chain)

/-- `DirNode::RemoveEmpty` of a node with this chain. -/
def removeEmpty (k : Kernel fs) (pathMax : ℕ) (chain : List Bytes) :
    Except Errno Unit × List (Call ι) :=
  let path := pathInto chain
  if path.length < pathMax then (k.rmdir path, [.rmdir path])
  else
    match rfind slash path path.length with
    | none => (.error .enametoolong, [])
    | some i =>
      match openLong k pathMax false 0 none (path.take i) with
      | (.error e, calls) => (.error e.code, calls)
      | (.ok dir, calls) =>
        (k.unlinkat dir (path.drop (i + 1)), calls ++ [.unlinkat dir (path.drop (i + 1))])

/-! ## Paths that can be cut -/

/-- The loop of `OpenLong` gets to the end of the path. -/
inductive Cuts (pathMax : ℕ) : Bytes → Prop
  | whole {path : Bytes} : path.length < pathMax → Cuts pathMax path
  | piece {path first rest : Bytes} : nextPiece pathMax path = .piece first rest →
      Cuts pathMax rest → Cuts pathMax path

variable {pathMax : ℕ} {path first rest : Bytes}

/-- A slash that fits, not at the start, is enough to cut. -/
theorem nextPiece_of_slash {j : ℕ} (hlong : ¬path.length < pathMax) (hj : 0 < j)
    (hfits : j ≤ pathMax - 1) (hslash : path[j]? = some slash) :
    ∃ cut, j ≤ cut ∧ rfind slash path (pathMax - 1) = some cut ∧
      nextPiece pathMax path = .piece (path.take cut) ((path.drop cut).dropWhile (· = slash)) := by
  cases hfind : rfind slash path (pathMax - 1) with
  | none => exact absurd hslash (rfind_eq_none.mp hfind j hfits)
  | some cut =>
    have hle : j ≤ cut := by
      by_contra hlt
      exact (rfind_eq_some.mp hfind).2.2 j (by omega) hfits hslash
    refine ⟨cut, hle, rfl, ?_⟩
    obtain ⟨cut, rfl⟩ : ∃ k, cut = k + 1 := ⟨cut - 1, by omega⟩
    rw [nextPiece, if_neg hlong, hfind]

/-- A piece fits. -/
theorem first_lt (hpiece : nextPiece pathMax path = .piece first rest) : first.length < pathMax := by
  obtain ⟨cut, hcut, hfind, rfl, -⟩ := nextPiece_piece hpiece
  have hle := (rfind_eq_some.mp hfind).1
  rw [List.length_take]
  omega

/-- The components of the rest are those behind the cut. -/
theorem components_rest {cut : ℕ} (hfind : rfind slash path (pathMax - 1) = some cut) :
    components slash path =
      components slash (path.take cut) ++
        components slash ((path.drop cut).dropWhile (· = slash)) := by
  rw [components_dropWhile]
  exact components_take_drop (rfind_eq_some.mp hfind).2.1

theorem head_dropWhile_ne (l : Bytes) : (l.dropWhile (· = slash)).head? ≠ some slash := by
  intro h
  have hnot := List.head?_dropWhile_not (fun x : UInt8 => decide (x = slash)) l
  rw [h] at hnot
  simp at hnot

/-- The first component of a path that is too long ends at a slash that fits. -/
theorem exists_slash (hlong : ¬path.length < pathMax) (hhead : path.head? ≠ some slash)
    (hshort : ∀ c ∈ components slash path, c.length + 1 < pathMax) (hmax : 0 < pathMax) :
    ∃ j, 0 < j ∧ j ≤ pathMax - 1 ∧ path[j]? = some slash := by
  by_cases hslash : slash ∈ path
  · obtain ⟨c, tail, rfl, hc⟩ := List.eq_append_cons_of_mem hslash
    have hne : c ≠ [] := by
      rintro rfl
      exact hhead rfl
    have hmem : c ∈ components slash (c ++ slash :: tail) := by
      rw [components_append_cons, components_of_notMem hne hc]
      exact List.mem_append_left _ List.mem_cons_self
    have hfits := hshort c hmem
    exact ⟨c.length, List.length_pos_iff.mpr hne, by omega, by simp⟩
  · exfalso
    have hne : path ≠ [] := by
      rintro rfl
      exact hlong hmax
    have hfits := hshort path (by simp [components_of_notMem hne hslash])
    omega

/-- A path of short components that does not start with a slash can be cut to the end. -/
theorem cuts_of_components (hhead : path.head? ≠ some slash)
    (hshort : ∀ c ∈ components slash path, c.length + 1 < pathMax) (hmax : 0 < pathMax) :
    Cuts pathMax path := by
  induction hn : path.length using Nat.strong_induction_on generalizing path with
  | _ n ih =>
    subst hn
    by_cases hlong : path.length < pathMax
    · exact .whole hlong
    · obtain ⟨j, hj, hfits, hslash⟩ := exists_slash hlong hhead hshort hmax
      obtain ⟨cut, -, hfind, hpiece⟩ := nextPiece_of_slash hlong hj hfits hslash
      apply Cuts.piece hpiece
      apply ih _ (length_rest_lt hpiece) (head_dropWhile_ne _) _ rfl
      intro c hc
      apply hshort
      rw [components_rest hfind]
      exact List.mem_append_right _ hc

/-- **Cutting a chain's path**: the path of an operand that fits and of names that fit can be
    cut to the end. -/
theorem cuts_path {operand : Bytes} {names : List Bytes} (hoperand : operand ≠ [])
    (hlen : operand.length < pathMax)
    (hnames : ∀ name ∈ names, IsName name ∧ name.length + 1 < pathMax) :
    Cuts pathMax (operand ++ names.flatMap (slash :: ·)) := by
  have hcomponents := components_names fun name hname => (hnames name hname).1
  generalize htail : names.flatMap (slash :: ·) = tail at hcomponents ⊢
  by_cases hlong : (operand ++ tail).length < pathMax
  · exact .whole hlong
  -- The slash behind the operand fits, so the first cut leaves only names.
  have hslash : (operand ++ tail)[operand.length]? = some slash := by
    cases names with
    | nil =>
      rw [← htail] at hlong
      simp [hlen] at hlong
    | cons name names =>
      rw [← htail]
      simp
  obtain ⟨cut, hcut, hfind, hpiece⟩ := nextPiece_of_slash hlong (List.length_pos_iff.mpr hoperand)
    (by omega) hslash
  apply Cuts.piece hpiece
  apply cuts_of_components (head_dropWhile_ne _) _ (by omega)
  intro c hc
  refine (hnames c ?_).2
  have hcutSlash := (rfind_eq_some.mp hfind).2.1
  rw [List.getElem?_append_right hcut] at hcutSlash
  rw [← hcomponents, components_take_drop hcutSlash]
  rw [components_dropWhile, List.drop_append, List.drop_eq_nil_of_le hcut, List.nil_append] at hc
  exact List.mem_append_right _ hc

/-! ## OpenLong -/

section OpenLong

variable (k : Kernel fs) {noFollow : Bool} {n : ℕ} {dir : Option ι}

theorem openLong_whole (h : path.length < pathMax) :
    openLong k pathMax noFollow n dir path =
      (k.openAt n dir path noFollow, [.openAt dir path noFollow]) := by
  rw [openLong]
  split
  · rfl
  · rename_i htoo
    rw [nextPiece_whole h] at htoo
    cases htoo
  · rename_i hpiece
    rw [nextPiece_whole h] at hpiece
    cases hpiece

theorem openLong_piece (h : nextPiece pathMax path = .piece first rest) :
    openLong k pathMax noFollow n dir path =
      match k.openAt n dir first false with
      | .error e => (.error e, [.openAt dir first false])
      | .ok next =>
        ((openLong k pathMax noFollow (n + 1) (some next) rest).1,
          .openAt dir first false :: (openLong k pathMax noFollow (n + 1) (some next) rest).2) := by
  rw [openLong]
  split
  · rename_i hwhole
    rw [h] at hwhole
    cases hwhole
  · rename_i htoo
    rw [h] at htoo
    cases htoo
  · rename_i hpiece
    rw [h] at hpiece
    cases hpiece
    rfl

/-- Every path that `OpenLong` gives to the kernel fits. -/
theorem openLong_fits (h : Cuts pathMax path) :
    ∀ call ∈ (openLong k pathMax noFollow n dir path).2, call.path.length < pathMax := by
  induction h generalizing n dir with
  | whole hlen =>
    rw [openLong_whole k hlen]
    intro call hcall
    rw [List.mem_singleton] at hcall
    subst hcall
    exact hlen
  | @piece path first rest hpiece _ ih =>
    have hfirst := first_lt hpiece
    rw [openLong_piece k hpiece]
    intro call hcall
    split at hcall
    · rw [List.mem_singleton] at hcall
      subst hcall
      exact hfirst
    · rcases List.mem_cons.mp hcall with rfl | hcall
      · exact hfirst
      · exact ih call hcall

/-- `OpenLong` makes no other calls than opens. -/
theorem openLong_opens (h : Cuts pathMax path) :
    ∀ call ∈ (openLong k pathMax noFollow n dir path).2,
      ∃ dir path noFollow, call = .openAt dir path noFollow := by
  induction h generalizing n dir with
  | whole hlen =>
    rw [openLong_whole k hlen]
    intro call hcall
    exact ⟨_, _, _, List.mem_singleton.mp hcall⟩
  | piece hpiece _ ih =>
    rw [openLong_piece k hpiece]
    intro call hcall
    split at hcall
    · exact ⟨_, _, _, List.mem_singleton.mp hcall⟩
    · rcases List.mem_cons.mp hcall with rfl | hcall
      · exact ⟨_, _, _, rfl⟩
      · exact ih call hcall

/-- When a path can be cut to the end, an error of `OpenLong` is that of the last open it makes. -/
theorem openLong_error (h : Cuts pathMax path) {e : OpenError}
    (he : (openLong k pathMax noFollow n dir path).1 = .error e) :
    ∃ before dir' path' noFollow',
      (openLong k pathMax noFollow n dir path).2 = before ++ [.openAt dir' path' noFollow'] ∧
        k.openAt (n + before.length) dir' path' noFollow' = .error e := by
  induction h generalizing n dir with
  | whole hlen =>
    rw [openLong_whole k hlen] at he ⊢
    exact ⟨[], _, _, _, rfl, he⟩
  | piece hpiece _ ih =>
    rw [openLong_piece k hpiece] at he ⊢
    split at he
    · rename_i hopen
      cases he
      exact ⟨[], _, _, _, rfl, hopen⟩
    · rename_i next hopen
      obtain ⟨before, dir', path', noFollow', hcalls, herror⟩ := ih he
      refine ⟨_ :: before, dir', path', noFollow', congrArg (List.cons _) hcalls, ?_⟩
      rwa [List.length_cons, Nat.add_comm before.length, ← Nat.add_assoc]

/-- The calls of `OpenLong` are answered with success one by one, but for the last one, whose
    answer is the result. -/
theorem openLong_answers (h : Cuts pathMax path) :
    k.Answers n (openLong k pathMax noFollow n dir path).2
      (errorCode (openLong k pathMax noFollow n dir path).1) := by
  induction h generalizing n dir with
  | whole hlen =>
    rw [openLong_whole k hlen]
    exact .last
  | @piece path first rest hpiece _ ih =>
    rw [openLong_piece k hpiece]
    split
    · rename_i e hopen
      have hlast : k.Answers n [.openAt dir first false] (k.error n (.openAt dir first false)) := .last
      rw [Kernel.error, hopen] at hlast
      exact hlast
    · rename_i next hopen
      refine .next ?_ ih
      rw [Kernel.error, hopen]
      rfl

theorem base_of_head_ne {d : ι} (h : path.head? ≠ some slash) : fs.base d path = d :=
  if_neg h

/-- What is reached piece by piece is what the whole path names. -/
theorem reach_of_pieces {d m e : ι} (hpiece : nextPiece pathMax path = .piece first rest)
    (hfirst : fs.Reach d first false m) (hrest : fs.Reach m rest noFollow e) :
    fs.Reach d path noFollow e := by
  obtain ⟨cut, hcut, hfind, rfl, rfl⟩ := nextPiece_piece hpiece
  have hslash := (rfind_eq_some.mp hfind).2.1
  have hcomponents := components_rest hfind
  have hhead := head_dropWhile_ne (path.drop cut)
  generalize hr : (path.drop cut).dropWhile (· = slash) = rest at *
  have hbase : fs.base d path = fs.base d (path.take cut) := by
    rw [FileTree.base, FileTree.base, List.head?_take, if_neg hcut.ne']
  have hwalkRest := hrest.walk
  rw [base_of_head_ne hhead] at hwalkRest
  refine ⟨?_, ?_, fun hno hlast hlink => ?_⟩
  · rintro rfl
    simp at hslash
  · rw [hcomponents, hbase]
    exact hfirst.walk.append hwalkRest
  -- A link at the end of the path would be one at the end of the rest.
  · obtain ⟨init, c, m', target, hinit, hself, hparent, hwalk, hentry⟩ := hlink
    have hsuffix : rest <:+ path := by
      rw [← hr]
      exact (List.dropWhile_suffix _).trans (List.drop_suffix cut path)
    have hlastRest : rest.getLast? ≠ some slash := by
      obtain ⟨before, hbefore⟩ := hsuffix
      rwa [← hbefore, List.getLast?_append_of_ne_nil _ hrest.nonempty] at hlast
    rcases List.eq_nil_or_concat (components slash rest) with hnil | ⟨initRest, last, hconcat⟩
    · cases rest with
      | nil => exact hrest.nonempty rfl
      | cons x xs =>
        exact hhead (congrArg some (components_eq_nil.mp hnil x List.mem_cons_self))
    · rw [List.concat_eq_append] at hconcat
      rw [hcomponents, hconcat, ← List.append_assoc] at hinit
      obtain ⟨rfl, hsingle⟩ := List.append_inj' hinit rfl
      cases hsingle
      rw [hbase] at hwalk
      obtain ⟨m'', hm'', hwalk'⟩ := hwalk.split
      rw [hm''.unique hfirst.walk] at hwalk'
      refine hrest.noLink hno hlastRest ⟨initRest, c, m', target, hconcat, hself, hparent, ?_, hentry⟩
      rwa [base_of_head_ne hhead]

/-- What the whole path names is reached piece by piece. -/
theorem pieces_of_reach {d e : ι} (hpiece : nextPiece pathMax path = .piece first rest)
    (hlast : path.getLast? ≠ some slash) (h : fs.Reach d path noFollow e) :
    ∃ m, fs.Reach d first false m ∧ fs.Reach m rest noFollow e := by
  obtain ⟨cut, hcut, hfind, rfl, rfl⟩ := nextPiece_piece hpiece
  have hslash := (rfind_eq_some.mp hfind).2.1
  have hcomponents := components_rest hfind
  have hhead := head_dropWhile_ne (path.drop cut)
  have hsuffix : (path.drop cut).dropWhile (· = slash) <:+ path :=
    (List.dropWhile_suffix _).trans (List.drop_suffix cut path)
  -- The path does not end with a slash, so there is something behind the cut.
  have hrest : (path.drop cut).dropWhile (· = slash) ≠ [] := by
    intro hnil
    have hall := List.dropWhile_eq_nil_iff.mp hnil
    have hcutlt := (List.getElem?_eq_some_iff.mp hslash).1
    have hne : path.drop cut ≠ [] := by
      rw [Ne, List.drop_eq_nil_iff]
      omega
    have hmem := hall _ (List.getLast_mem hne)
    rw [decide_eq_true_eq, List.getLast_drop hne] at hmem
    exact hlast (by rw [List.getLast?_eq_some_getLast h.nonempty, hmem])
  generalize (path.drop cut).dropWhile (· = slash) = rest at *
  have hbase : fs.base d path = fs.base d (path.take cut) := by
    rw [FileTree.base, FileTree.base, List.head?_take, if_neg hcut.ne']
  have hwalk := h.walk
  rw [hcomponents] at hwalk
  obtain ⟨m, hm, he⟩ := hwalk.split
  refine ⟨m, ⟨?_, hbase ▸ hm, fun hno => by cases hno⟩, ⟨hrest, ?_, fun hno _ hlink => ?_⟩⟩
  · rw [Ne, List.take_eq_nil_iff, not_or]
    exact ⟨hcut.ne', h.nonempty⟩
  · rwa [base_of_head_ne hhead]
  -- A link at the end of the rest would be one at the end of the path.
  · obtain ⟨init, c, m', target, hinit, hself, hparent, hwalk', hentry⟩ := hlink
    rw [base_of_head_ne hhead] at hwalk'
    refine h.noLink hno hlast ⟨components slash (path.take cut) ++ init, c, m', target, ?_, hself,
      hparent, hm.append hwalk', hentry⟩
    rw [hcomponents, hinit, List.append_assoc]

/-- **Pieces lead where the path leads**: what `OpenLong` opens is the directory that the
    whole path names. -/
theorem openLong_reach (h : Cuts pathMax path) {e : ι}
    (he : (openLong k pathMax noFollow n dir path).1 = .ok e) :
    fs.Reach (dir.getD fs.cwd) path noFollow e := by
  induction h generalizing n dir with
  | whole hlen =>
    rw [openLong_whole k hlen] at he
    exact k.openAt_reach he
  | piece hpiece _ ih =>
    rw [openLong_piece k hpiece] at he
    split at he
    · cases he
    · rename_i next hopen
      exact reach_of_pieces hpiece (k.openAt_reach hopen) (ih he)

/-- And what the whole path names is opened, when the opens of what is there succeed. -/
theorem openLong_of_reach (hk : k.OpensReached pathMax) (h : Cuts pathMax path) {e : ι}
    (hlast : pathMax ≤ path.length → path.getLast? ≠ some slash)
    (hreach : fs.Reach (dir.getD fs.cwd) path noFollow e) :
    (openLong k pathMax noFollow n dir path).1 = .ok e := by
  induction h generalizing n dir with
  | whole hlen =>
    rw [openLong_whole k hlen]
    exact hk.openAt_eq hlen hreach
  | @piece path first rest hpiece _ ih =>
    have hlong : pathMax ≤ path.length := by
      by_contra hshort
      rw [nextPiece_whole (not_le.mp hshort)] at hpiece
      cases hpiece
    obtain ⟨m, hfirst, hrest⟩ := pieces_of_reach hpiece (hlast hlong) hreach
    have hopen := hk.openAt_eq (n := n) (first_lt hpiece) hfirst
    rw [openLong_piece k hpiece, hopen]
    refine ih (fun _ hslash => hlast hlong ?_) hrest
    -- The rest ends as the path does.
    obtain ⟨cut, -, -, -, rfl⟩ := nextPiece_piece hpiece
    obtain ⟨before, hbefore⟩ := (List.dropWhile_suffix (fun x : UInt8 => decide (x = slash))
      (l := path.drop cut)).trans (List.drop_suffix cut path)
    rw [← hbefore, List.getLast?_append_of_ne_nil _ hrest.nonempty]
    exact hslash

end OpenLong

/-! ## Long paths -/

/-- `fs.Names d path m c`: looked up relative to `d`, `path` names the entry `c` of the
    directory `m`. -/
def Names (fs : FileTree ι) (d : ι) (path : Bytes) (m : ι) (c : Bytes) : Prop :=
  ∃ init, components slash path = init ++ [c] ∧ fs.Walk (fs.base d path) init m

/-- From the operand, the names lead to `e` one by one. -/
def Follows (fs : FileTree ι) (operand : Bytes) (names : List Bytes) (e : ι) : Prop :=
  ∃ root, fs.Walk (fs.base fs.cwd operand) (components slash operand) root ∧ fs.Walk root names e

theorem base_append {d : ι} {a : Bytes} (b : Bytes) (h : a ≠ []) :
    fs.base d (a ++ b) = fs.base d a := by
  rw [FileTree.base, FileTree.base, List.head?_append_of_ne_nil _ h]

/-- What the path of a chain names is where the names lead. -/
theorem follows_of_reach {operand : Bytes} {names : List Bytes} {noFollow : Bool} {e : ι}
    (hoperand : operand ≠ []) (hnames : ∀ name ∈ names, IsName name)
    (h : fs.Reach fs.cwd (operand ++ names.flatMap (slash :: ·)) noFollow e) :
    Follows fs operand names e := by
  have hwalk := h.walk
  rw [components_path operand hnames, base_append _ hoperand] at hwalk
  exact hwalk.split

variable (k : Kernel fs) {operand : Bytes} {names : List Bytes}

/-- `RemoveEmpty` of a path that fits is one `rmdir`. -/
theorem removeEmpty_short (h : (pathInto (names.reverse ++ [operand])).length < pathMax) :
    removeEmpty k pathMax (names.reverse ++ [operand]) =
      (k.rmdir (pathInto (names.reverse ++ [operand])),
        [.rmdir (pathInto (names.reverse ++ [operand]))]) := by
  rw [removeEmpty, if_pos h]

/-- `RemoveEmpty` of a longer path opens the parent's path and removes the last name there. -/
theorem removeEmpty_long {below : List Bytes} {leaf : Bytes} (hleaf : IsName leaf)
    (h : ¬(pathInto ((below ++ [leaf]).reverse ++ [operand])).length < pathMax) :
    removeEmpty k pathMax ((below ++ [leaf]).reverse ++ [operand]) =
      match openLong k pathMax false 0 none (operand ++ below.flatMap (slash :: ·)) with
      | (.error e, calls) => (.error e.code, calls)
      | (.ok dir, calls) => (k.unlinkat dir leaf, calls ++ [.unlinkat dir leaf]) := by
  have hpath : pathInto ((below ++ [leaf]).reverse ++ [operand]) =
      (operand ++ below.flatMap (slash :: ·)) ++ slash :: leaf := by
    rw [pathInto_eq, List.flatMap_append]
    simp
  have hfind := rfind_append_cons (operand ++ below.flatMap (slash :: ·)) hleaf.2
  have hdrop : ((operand ++ below.flatMap (slash :: ·)) ++ slash :: leaf).drop
      ((operand ++ below.flatMap (slash :: ·)).length + 1) = leaf := by
    rw [← List.drop_drop, List.drop_left]
    rfl
  rw [removeEmpty, if_neg h]
  simp only [hpath, hfind, List.take_left, hdrop]

/-- A long path ends with a name, and so not with a slash. -/
theorem getLast?_path_ne (hnames : ∀ name ∈ names, IsName name)
    (hlen : operand.length < pathMax)
    (hlong : pathMax ≤ (operand ++ names.flatMap (slash :: ·)).length) :
    (operand ++ names.flatMap (slash :: ·)).getLast? ≠ some slash := by
  rcases List.eq_nil_or_concat names with rfl | ⟨before, last, rfl⟩
  · simp at hlong
    omega
  · obtain ⟨hne, hslash⟩ := hnames last (by simp)
    have hpath : operand ++ (before.concat last).flatMap (slash :: ·) =
        (operand ++ before.flatMap (slash :: ·) ++ [slash]) ++ last := by
      simp
    rw [hpath, List.getLast?_append_of_ne_nil _ hne, List.getLast?_eq_some_getLast hne]
    intro hlast
    exact hslash (Option.some.inj hlast ▸ List.getLast_mem hne)

/-- The path of a chain names what the names lead to, links at its end included. -/
theorem reach_of_follows (hoperand : operand ≠ []) (hnames : ∀ name ∈ names, IsName name) {e : ι}
    (h : Follows fs operand names e) :
    fs.Reach fs.cwd (operand ++ names.flatMap (slash :: ·)) false e := by
  obtain ⟨root, hroot, he⟩ := h
  refine ⟨by simp [hoperand], ?_, fun hno => by cases hno⟩
  rw [components_path operand hnames, base_append _ hoperand]
  exact hroot.append he

/-- `RemoveEmpty` of a path that does not fit: opens as far as they succeed, and then one
    `unlinkat` of the entry that the path names. -/
structure RemovesLong (k : Kernel fs) (pathMax : ℕ) (operand : Bytes) (names : List Bytes)
    (below : List Bytes) (leaf : Bytes) (removed : Except Errno Unit × List (Call ι)) : Prop where
  names_eq : names = below ++ [leaf]
  calls : ∃ opens : List (Call ι), (∀ call ∈ opens, ∃ dir p noFollow, call = .openAt dir p noFollow) ∧
    ((∃ code, removed = (.error code, opens)) ∨
      ∃ m, Follows fs operand below m ∧
        Names fs fs.cwd (operand ++ names.flatMap (slash :: ·)) m leaf ∧
        removed = (k.unlinkat m leaf, opens ++ [.unlinkat m leaf]))
  /-- It comes to the `unlinkat` when the opens of what is there succeed. -/
  removes : k.OpensReached pathMax → ∀ m, Follows fs operand below m →
    ∃ opens, removed = (k.unlinkat m leaf, opens ++ [.unlinkat m leaf])

/-- What `RemoveEmpty` does with a path that does not fit, and that its calls fit. -/
theorem removeEmpty_removesLong (hoperand : operand ≠ []) (hlen : operand.length < pathMax)
    (hnames : ∀ name ∈ names, IsName name ∧ name.length + 1 < pathMax)
    (hlong : ¬(pathInto (names.reverse ++ [operand])).length < pathMax) :
    let removed := removeEmpty k pathMax (names.reverse ++ [operand])
    (∃ below leaf, RemovesLong k pathMax operand names below leaf removed) ∧
      (∀ call ∈ removed.2, call.path.length < pathMax) ∧
      k.Answers 0 removed.2 (Program.thrown removed.1) := by
  intro removed
  have hpath : pathInto (names.reverse ++ [operand]) = operand ++ names.flatMap (slash :: ·) :=
    pathInto_eq operand names
  -- A path that does not fit has a name below the operand.
  rcases List.eq_nil_or_concat names with rfl | ⟨below, leaf, hconcat⟩
  · rw [hpath] at hlong
    exact absurd hlen (by simpa using hlong)
  rw [List.concat_eq_append] at hconcat
  subst hconcat
  have hbelow : ∀ name ∈ below, IsName name ∧ name.length + 1 < pathMax :=
    fun name hname => hnames name (List.mem_append_left _ hname)
  have hisName : ∀ name ∈ below, IsName name := fun name hname => (hbelow name hname).1
  have hleaf := hnames leaf (by simp)
  have hcuts := cuts_path hoperand hlen hbelow
  have hremoved : removed = _ := removeEmpty_long k hleaf.1 hlong
  generalize hresult : openLong k pathMax false 0 none
    (operand ++ below.flatMap (slash :: ·)) = result at hremoved
  have hfits : ∀ call ∈ result.2, call.path.length < pathMax := hresult ▸ openLong_fits k hcuts
  have hopens : ∀ call ∈ result.2, ∃ dir p noFollow, call = .openAt dir p noFollow :=
    hresult ▸ openLong_opens k hcuts
  have hanswers : k.Answers 0 result.2 (errorCode result.1) := hresult ▸ openLong_answers k hcuts
  have hreach (m : ι) (hm : result.1 = .ok m) :
      fs.Reach fs.cwd (operand ++ below.flatMap (slash :: ·)) false m := by
    rw [← hresult] at hm
    exact openLong_reach k hcuts hm
  have hreached (hk : k.OpensReached pathMax) (m : ι) (hm : Follows fs operand below m) :
      result.1 = .ok m := by
    rw [← hresult]
    exact openLong_of_reach k hk hcuts (getLast?_path_ne hisName hlen)
      (reach_of_follows hoperand hisName hm)
  clear hresult
  obtain ⟨answer, opens⟩ := result
  cases answer with
  | error e =>
    rw [hremoved]
    refine ⟨⟨below, leaf, rfl, ⟨opens, hopens, .inl ⟨_, rfl⟩⟩, fun hk m hm => ?_⟩, hfits, hanswers⟩
    cases hreached hk m hm
  | ok m =>
    have hfollows := follows_of_reach hoperand hisName (hreach m rfl)
    obtain ⟨root, hroot, hm⟩ := hfollows
    have hentry : Names fs fs.cwd (operand ++ (below ++ [leaf]).flatMap (slash :: ·)) m leaf := by
      refine ⟨components slash operand ++ below, ?_, ?_⟩
      · rw [components_path operand fun name hname => (hnames name hname).1, List.append_assoc]
      · rw [base_append _ hoperand]
        exact hroot.append hm
    rw [hremoved]
    refine ⟨⟨below, leaf, rfl, ⟨opens, hopens, .inr ⟨m, ⟨root, hroot, hm⟩, hentry, rfl⟩⟩, ?_⟩, ?_, ?_⟩
    · intro hk m' hm'
      cases hreached hk m' hm'
      exact ⟨opens, rfl⟩
    · intro call hcall
      rcases List.mem_append.mp hcall with hcall | hcall
      · exact hfits call hcall
      · rw [List.mem_singleton] at hcall
        subst hcall
        exact Nat.lt_of_succ_lt hleaf.2
    · exact hanswers.concat rfl _

/-- **Long paths resolve to the right directory.**  For a chain whose operand and names fit:
    every path given to the kernel is shorter than `PATH_MAX`; a result is that of the last call
    made, all calls before it having succeeded; `Open` gives the directory that the whole path
    names, which is where the names lead from the operand, and gives it whenever the opens of
    what is there succeed; and `RemoveEmpty` is one `rmdir` of the whole path, or one `unlinkat`
    of the entry that this would remove. -/
theorem long_paths (hoperand : operand ≠ []) (hlen : operand.length < pathMax)
    (hnames : ∀ name ∈ names, IsName name ∧ name.length + 1 < pathMax) :
    let chain := names.reverse ++ [operand]
    let opened := openNode k pathMax none chain
    let removed := removeEmpty k pathMax chain
    (pathInto chain = operand ++ names.flatMap (slash :: ·) ∧
        pathSize chain = (pathInto chain).length) ∧
      (∀ call ∈ opened.2 ++ removed.2, call.path.length < pathMax) ∧
      (k.Answers 0 opened.2 (errorCode opened.1) ∧
        ∀ e, opened.1 = .error e → ∃ before dir path noFollow,
          opened.2 = before ++ [.openAt dir path noFollow] ∧
            k.openAt before.length dir path noFollow = .error e) ∧
      k.Answers 0 removed.2 (Program.thrown removed.1) ∧
      (∀ e, opened.1 = .ok e →
        fs.Reach fs.cwd (pathInto chain) true e ∧ Follows fs operand names e) ∧
      (k.OpensReached pathMax →
        ∀ e, fs.Reach fs.cwd (pathInto chain) true e → opened.1 = .ok e) ∧
      if (pathInto chain).length < pathMax then
        removed = (k.rmdir (pathInto chain), [.rmdir (pathInto chain)])
      else ∃ below leaf, RemovesLong k pathMax operand names below leaf removed := by
  intro chain opened removed
  have hpath : pathInto chain = operand ++ names.flatMap (slash :: ·) := pathInto_eq operand names
  have hisName : ∀ name ∈ names, IsName name := fun name hname => (hnames name hname).1
  have hcuts : Cuts pathMax (pathInto chain) := hpath ▸ cuts_path hoperand hlen hnames
  have hsize : pathSize chain = (pathInto chain).length := by
    rw [pathInto, length_pathFill, List.length_nil, Nat.add_zero]
  -- The removal, of a path that fits and of one that does not.
  have hremoved : (∀ call ∈ removed.2, call.path.length < pathMax) ∧
      k.Answers 0 removed.2 (Program.thrown removed.1) ∧
      if (pathInto chain).length < pathMax then
        removed = (k.rmdir (pathInto chain), [.rmdir (pathInto chain)])
      else ∃ below leaf, RemovesLong k pathMax operand names below leaf removed := by
    split_ifs with hshort
    · have hrmdir : removed = _ := removeEmpty_short k hshort
      rw [hrmdir]
      refine ⟨?_, .last, rfl⟩
      intro call hcall
      rw [List.mem_singleton] at hcall
      subst hcall
      exact hshort
    · obtain ⟨hlong, hfits, hanswers⟩ := removeEmpty_removesLong k hoperand hlen hnames hshort
      exact ⟨hfits, hanswers, hlong⟩
  obtain ⟨hfits, hanswers, hremoves⟩ := hremoved
  refine ⟨⟨hpath, hsize⟩, ?_, ⟨openLong_answers k hcuts, fun e he => ?_⟩, hanswers, fun e he => ?_,
    fun hk e hreach => ?_, hremoves⟩
  · intro call hcall
    rcases List.mem_append.mp hcall with hcall | hcall
    · exact openLong_fits k hcuts call hcall
    · exact hfits call hcall
  · obtain ⟨before, dir, path, noFollow, hcalls, herror⟩ := openLong_error k hcuts he
    exact ⟨before, dir, path, noFollow, hcalls, Nat.zero_add before.length ▸ herror⟩
  -- What is opened is where the whole path leads, and so where the names lead.
  · have hreach := openLong_reach k hcuts he
    refine ⟨hreach, ?_⟩
    rw [hpath] at hreach
    exact follows_of_reach hoperand hisName hreach
  · refine openLong_of_reach k hk hcuts ?_ hreach
    rw [hpath]
    exact getLast?_path_ne hisName hlen

/-- A working directory 0 with `d` in it, and `x` in `d`. -/
def nestedTree : FileTree ℕ where
  root := 0
  cwd := 0
  up _ := 0
  entry i name :=
    if i = 0 ∧ name = text "d" then some (.dir 1)
    else if i = 1 ∧ name = text "x" then some (.dir 2)
    else none

/-- A single name of a directory is reached by opening it. -/
theorem nestedTree_reach {d e : ℕ} {name : Bytes} {noFollow : Bool}
    (hcomponents : components slash name = [name]) (hname : name ≠ self ∧ name ≠ parent)
    (hbase : nestedTree.base d name = d) (hentry : nestedTree.entry d name = some (.dir e)) :
    nestedTree.Reach d name noFollow e := by
  refine ⟨?_, ?_, fun _ _ hlink => ?_⟩
  · rintro rfl
    cases hcomponents
  · rw [hcomponents, hbase]
    exact .dir hname.1 hname.2 hentry (.nil e)
  · obtain ⟨init, c, m, target, hinit, -, -, hwalk, hlink⟩ := hlink
    rw [hcomponents] at hinit
    obtain ⟨rfl, hc⟩ := List.append_inj' (show [] ++ [name] = init ++ [c] from hinit) rfl
    cases hc
    rw [hbase] at hwalk
    cases hwalk
    rw [hentry] at hlink
    cases hlink

/-- A kernel over this tree, with `PATH_MAX` 3: it opens `d`, and `x` from there. -/
def nestedKernel : Kernel nestedTree where
  openAt _ dir path _ :=
    if dir = none ∧ path = text "d" then .ok 1
    else if dir = some 1 ∧ path = text "x" then .ok 2
    else .error ⟨.enoent, false⟩
  rmdir _ := .error .enametoolong
  unlinkat dir name := if dir = 1 ∧ name = text "x" then .ok () else .error .enoent
  openAt_reach := by
    intro n dir path noFollow e h
    split_ifs at h with hd hx
    · cases h
      obtain ⟨rfl, rfl⟩ := hd
      exact nestedTree_reach rfl (by decide) rfl rfl
    · cases h
      obtain ⟨rfl, rfl⟩ := hx
      exact nestedTree_reach rfl (by decide) rfl rfl

/-- `d/x` with `PATH_MAX` 3, cut into `d` and `x`: `x` is opened in `d`, and removed from it. -/
theorem long_paths_nested :
    (openNode nestedKernel 3 none [text "x", text "d"]).1 = .ok 2 ∧
      (nestedTree.Reach 0 (text "d/x") true 2 ∧ Follows nestedTree (text "d") [text "x"] 2) ∧
      removeEmpty nestedKernel 3 [text "x", text "d"] =
        (.ok (), [.openAt none (text "d") false, .unlinkat 1 (text "x")]) ∧
      ∃ below leaf, RemovesLong nestedKernel 3 (text "d") [text "x"] below leaf
        (removeEmpty nestedKernel 3 [text "x", text "d"]) := by
  have hcut : nextPiece 3 (text "d/x") = .piece (text "d") (text "x") := by rfl
  have hopened : (openNode nestedKernel 3 none [text "x", text "d"]).1 = .ok 2 := by
    have hshort : (text "x").length < 3 := by decide
    rw [openNode, show pathInto [text "x", text "d"] = text "d/x" from rfl,
      openLong_piece nestedKernel hcut]
    change (openLong nestedKernel 3 true 1 (some 1) (text "x")).1 = .ok 2
    rw [openLong_whole nestedKernel hshort]
    rfl
  have hremoved : removeEmpty nestedKernel 3 [text "x", text "d"] =
      (.ok (), [.openAt none (text "d") false, .unlinkat 1 (text "x")]) := by
    have hshort : (text "d" ++ ([] : List Bytes).flatMap (slash :: ·)).length < 3 := by decide
    have hleaf : IsName (text "x") := by simp only [IsName]; decide
    have hlong := @removeEmpty_long ℕ nestedTree 3 nestedKernel (text "d") [] (text "x") hleaf
      (by decide)
    rw [openLong_whole nestedKernel hshort] at hlong
    exact hlong
  have hspec := @long_paths ℕ nestedTree 3 nestedKernel (text "d") [text "x"] (by decide)
    (by decide) (by simp only [IsName]; decide)
  exact ⟨hopened, hspec.2.2.2.2.1 2 hopened, hremoved, hspec.2.2.2.2.2.2⟩

end Remmy.DirNode
