import Mathlib.Logic.Function.Basic
import Xv6.Params

/-!
# The command strace

`main` of `strace.c` and what the loop of `sys_exec` fetches of the vector that it is given. A pointer is a number and 0 is the
null pointer. The array `nargv` is a function on its indices; what it holds before `main` writes to it is any value. `str` gives
the string at a pointer, or `none` if `fetchstr` fails there.

`main` never writes a null pointer behind the arguments: the word behind them is what the stack held before.
-/

namespace Xv6.Strace

/-- `argv[i]` for `i < argc`, which are pointers to strings. -/
structure Args where
  argc : ℕ
  argv : ℕ → ℕ
  ne_null : ∀ i < argc, argv i ≠ 0

/-- `atoi`, without the sign that it does not know. -/
def atoi (n : BitVec 32) : List UInt8 → BitVec 32
  | [] => n
  | c :: s => if '0'.toUInt8 ≤ c ∧ c ≤ '9'.toUInt8 then atoi (n * 10 + c.toBitVec.setWidth 32 - 48) s else n

/-- What `main` does in the end: `exit(1)` with a message, or `exec` after `trace(mask)`. -/
inductive Outcome where
  | wrongFormat
  | traceFailed
  | exec (mask : BitVec 32) (path : ℕ) (nargv : ℕ → ℕ)

/-- What `sys_trace` returns: `argint` does not fail. -/
def trace (_ : BitVec 32) : Int := 0

/-- `traceError`, for the string at `argv[1]`: the outcome if it exits. -/
def traceError (argc : ℕ) (arg : List UInt8) : Option Outcome :=
  if argc < 3 ∨ (arg.headD 0 < '0'.toUInt8 ∨ arg.headD 0 > '9'.toUInt8) then some .wrongFormat
  else if trace (atoi 0 arg) < 0 then some .traceFailed
  else none

def copyLoop (argc : ℕ) (argv : ℕ → ℕ) (i : ℕ) (nargv : ℕ → ℕ) : ℕ → ℕ :=
  if i < argc ∧ i < MAXARG then copyLoop argc argv (i + 1) (Function.update nargv (i - 2) (argv i)) else nargv
termination_by MAXARG - i

/-- `main`, with `nargv` as the stack leaves it. -/
def main (a : Args) (str : ℕ → Option (List UInt8)) (nargv : ℕ → ℕ) : Outcome :=
  let arg := (str (a.argv 1)).getD []
  match traceError a.argc arg with
  | some outcome => outcome
  | none =>
    let nargv := copyLoop a.argc a.argv 2 nargv
    .exec (atoi 0 arg) (nargv 0) nargv

/-- The loop of `sys_exec` with `n` places of its array left, at the `i`-th word of the vector. -/
def fetchLoop (str : ℕ → Option (List UInt8)) (uargv : ℕ → ℕ) : ℕ → ℕ → Option (List (List UInt8))
  | 0, _ => none
  | n + 1, i =>
    if uargv i = 0 then some []
    else do
      let s ← str (uargv i)
      let rest ← fetchLoop str uargv n (i + 1)
      some (s :: rest)

def Args.command (a : Args) : List ℕ := (List.range (a.argc - 2)).map fun j => a.argv (j + 2)

/-- The arguments of the command and a null pointer are at the beginning of the array. -/
structure Passed (a : Args) (nargv : ℕ → ℕ) : Prop where
  room : a.argc - 2 < MAXARG
  words : ∀ j < a.argc - 2, nargv j = a.argv (j + 2)
  null : nargv (a.argc - 2) = 0

/-- `exec` is called with the arguments of the command and a null pointer, and `sys_exec` fetches exactly these arguments. -/
def Runs (a : Args) (str : ℕ → Option (List UInt8)) (nargv : ℕ → ℕ) : Prop :=
  ∃ mask argv, main a str nargv = .exec mask (a.argv 2) argv ∧ Passed a argv ∧
    fetchLoop str argv MAXARG 0 = a.command.mapM str

lemma copyLoop_apply {argc : ℕ} {argv nargv : ℕ → ℕ} {i j : ℕ} (two : 2 ≤ i) :
    copyLoop argc argv i nargv j = if i ≤ j + 2 ∧ j + 2 < argc ∧ j + 2 < MAXARG then argv (j + 2) else nargv j := by
  induction i, nargv using copyLoop.induct argc argv with
  | case1 i nargv more ih =>
    rw [copyLoop, if_pos more, ih (by omega)]
    by_cases here : j = i - 2
    · subst here
      have at_i : i - 2 + 2 = i := by omega
      rw [if_neg (by omega), if_pos (by omega), Function.update_self, at_i]
    · rw [Function.update_of_ne here]
      exact if_congr (by omega) rfl rfl
  | case2 i nargv stop =>
    rw [copyLoop, if_neg stop, if_neg (by omega)]

lemma fetchLoop_eq {str : ℕ → Option (List UInt8)} {uargv : ℕ → ℕ} {n i k : ℕ} (room : k < n)
    (words : ∀ j < k, uargv (i + j) ≠ 0) (null : uargv (i + k) = 0) :
    fetchLoop str uargv n i = ((List.range k).map fun j => uargv (i + j)).mapM str := by
  induction k generalizing i n with
  | zero =>
    obtain ⟨n, rfl⟩ : ∃ m, n = m + 1 := ⟨n - 1, by omega⟩
    rw [fetchLoop, if_pos (by simpa using null)]
    rfl
  | succ k ih =>
    obtain ⟨n, rfl⟩ : ∃ m, n = m + 1 := ⟨n - 1, by omega⟩
    have next (j : ℕ) : i + 1 + j = i + (j + 1) := by omega
    rw [fetchLoop, if_neg (by simpa using words 0 (by omega)),
      ih (i := i + 1) (by omega) (fun j lt => by rw [next]; exact words (j + 1) (by omega)) (by rw [next]; exact null),
      List.range_succ_eq_map]
    simp [next, Function.comp_def]

/-- The first argument of strace starts with a digit. -/
def Numeric (a : Args) (str : ℕ → Option (List UInt8)) : Prop :=
  '0'.toUInt8 ≤ ((str (a.argv 1)).getD []).headD 0 ∧ ((str (a.argv 1)).getD []).headD 0 ≤ '9'.toUInt8

instance {a : Args} {str : ℕ → Option (List UInt8)} : Decidable (Numeric a str) := instDecidableAnd

/-- With enough arguments, `exec` is called unless the first one does not start with a digit. -/
lemma main_eq {a : Args} (str : ℕ → Option (List UInt8)) (nargv : ℕ → ℕ) (three : 3 ≤ a.argc) :
    main a str nargv = if Numeric a str then
      .exec (atoi 0 ((str (a.argv 1)).getD [])) (a.argv 2) (copyLoop a.argc a.argv 2 nargv) else .wrongFormat := by
  have first : copyLoop a.argc a.argv 2 nargv 0 = a.argv 2 := by
    rw [copyLoop_apply (Nat.le_refl 2), if_pos ⟨Nat.le_refl 2, by omega, by decide⟩]
  have format : (a.argc < 3 ∨ ((str (a.argv 1)).getD []).headD 0 < '0'.toUInt8 ∨
      ((str (a.argv 1)).getD []).headD 0 > '9'.toUInt8) ↔ ¬Numeric a str := by
    simp only [Numeric, UInt8.not_le, not_and_or, gt_iff_lt]
    constructor
    · rintro (few | bad)
      · omega
      · exact bad
    · exact .inr
  by_cases numeric : Numeric a str
  · simp only [main, traceError, format, numeric, not_true_eq_false, if_false, if_true, trace, first, Int.lt_irrefl]
  · simp only [main, traceError, format, numeric, not_false_eq_true, if_false, if_true]

/-- The command runs with its arguments, for any content of the array before, exactly if the word behind the arguments happened
to be a null pointer. Of more than thirty arguments the others would have to be in the array already. -/
theorem strace_runs_iff (a : Args) (str : ℕ → Option (List UInt8)) (nargv : ℕ → ℕ) (three : 3 ≤ a.argc) :
    Runs a str nargv ↔ Numeric a str ∧ nargv (a.argc - 2) = 0 ∧ a.argc - 2 < MAXARG ∧
      ∀ j, MAXARG - 2 ≤ j → j < a.argc - 2 → nargv j = a.argv (j + 2) := by
  have behind : copyLoop a.argc a.argv 2 nargv (a.argc - 2) = nargv (a.argc - 2) := by
    rw [copyLoop_apply (Nat.le_refl 2), if_neg (by omega)]
  have copied (j : ℕ) (lt : j < a.argc - 2) : copyLoop a.argc a.argv 2 nargv j =
      if j < MAXARG - 2 then a.argv (j + 2) else nargv j := by
    rw [copyLoop_apply (Nat.le_refl 2)]
    exact if_congr (by omega) rfl rfl
  rw [Runs, main_eq str nargv three]
  constructor
  · rintro ⟨mask, argv, eq, passed, -⟩
    by_cases numeric : Numeric a str
    · rw [if_pos numeric] at eq
      cases eq
      refine ⟨numeric, behind ▸ passed.null, passed.room, fun j ge lt => ?_⟩
      have word := passed.words j lt
      rwa [copied j lt, if_neg (by omega)] at word
    · rw [if_neg numeric] at eq
      cases eq
  · rintro ⟨numeric, null, room, already⟩
    have passed : Passed a (copyLoop a.argc a.argv 2 nargv) := by
      refine ⟨room, fun j lt => ?_, behind.trans null⟩
      rw [copied j lt]
      split
      · rfl
      · exact already j (by omega) lt
    refine ⟨_, _, if_pos numeric, passed, ?_⟩
    rw [fetchLoop_eq room (fun j lt => ?_) (by rw [Nat.zero_add]; exact passed.null)]
    · congr 1
      refine List.map_congr_left fun j mem => ?_
      rw [Nat.zero_add, passed.words j (List.mem_range.mp mem)]
    · rw [Nat.zero_add, passed.words j lt]
      exact a.ne_null _ (by omega)

def straceLs : Args := ⟨3, fun i => 64 + 8 * i, fun _ _ => by omega⟩

/-- The strings of `strace 1 ls`; another string is at 96. -/
def strings : ℕ → Option (List UInt8)
  | 72 => some ['1'.toUInt8]
  | 80 => some ['l'.toUInt8, 's'.toUInt8]
  | 96 => some ['x'.toUInt8]
  | _ => none

/-- With a zero on the stack `strace 1 ls` runs. -/
theorem strace_ls : Runs straceLs strings (fun _ => 0) :=
  (strace_runs_iff straceLs strings (fun _ => 0) (by decide)).mpr
    ⟨⟨by decide, by decide⟩, rfl, by decide, fun j (ge : 30 ≤ j) (lt : j < 1) => by omega⟩

/-- With a pointer to a string and a zero on the stack, `ls` has one more argument than it was given. -/
theorem strace_stale_word :
    ¬Runs straceLs strings (fun j => if j = 1 then 96 else 0) ∧
      ∃ mask argv, main straceLs strings (fun j => if j = 1 then 96 else 0) = .exec mask 80 argv ∧
        fetchLoop strings argv MAXARG 0 = some [['l'.toUInt8, 's'.toUInt8], ['x'.toUInt8]] := by
  have numeric : Numeric straceLs strings := by decide
  have run := main_eq (a := straceLs) strings (fun j => if j = 1 then 96 else 0) (by decide)
  rw [if_pos numeric] at run
  constructor
  · rintro ⟨mask, argv, eq, passed, -⟩
    cases run.symm.trans eq
    have null := passed.null
    rw [copyLoop_apply (Nat.le_refl 2)] at null
    exact absurd null (by decide)
  · refine ⟨_, _, run, ?_⟩
    rw [fetchLoop_eq (k := 2) (by decide)]
    all_goals simp only [copyLoop_apply (Nat.le_refl 2)]
    all_goals decide

end Xv6.Strace
