import Mathlib.Data.BitVec
import Mathlib.Data.Nat.Digits.Lemmas
import Mathlib.Data.Nat.Digits.Defs

/-!
# Numbers printed by user programs

`printint`, `printptr` and `vprintf` of `printf.c`. What is printed is the list of the bytes given to `putc`, and a store
outside of the 16 bytes of `buf` gives `none`. An argument of `vprintf` is a 64-bit word of the `va_list`; `va_arg(ap, int)`
is its low half. The strings of a program are a function `str` from pointers to the bytes before the terminating zero.

On the other side stands the reading of numerals (`readNat`, `readInt`). What the loop of `printint` leaves in the buffer is
the list of the digits that `Nat.digits` has for the number (`digitLoop_eq`), and every claim about a numeral is a fact about
this list.
-/

namespace Xv6.Printf

def digits : List UInt8 :=
  ['0', '1', '2', '3', '4', '5', '6', '7', '8', '9', 'A', 'B', 'C', 'D', 'E', 'F'].map Char.toUInt8

def digit (d : ℕ) : UInt8 := digits.getD d 0

/-- A base that the table of digits serves. -/
structure Base where
  val : ℕ
  two_le : 2 ≤ val
  le_sixteen : val ≤ 16

/-- The bases of `%d`, `%l` and of `%x`. -/
def ten : Base := ⟨10, by decide, by decide⟩
@[inherit_doc ten] def sixteen : Base := ⟨16, by decide, by decide⟩

/-- `buf[i++] = c`, where `buf` lists what is stored from the last byte to the first. -/
def store (buf : List UInt8) (c : UInt8) : Option (List UInt8) :=
  if buf.length < 16 then some (c :: buf) else none

/-- `do{ buf[i++] = digits[x % base]; }while((x /= base) != 0);` -/
def digitLoop (base : Base) (x : ℕ) (buf : List UInt8) : Option (List UInt8) := do
  let buf ← store buf (digit (x % base.val))
  if x / base.val = 0 then some buf else digitLoop base (x / base.val) buf
termination_by x
decreasing_by
  rename_i more
  exact Nat.div_lt_self (Nat.pos_of_ne_zero fun zero => more (by simp [zero])) base.two_le

/-- What `printint` prints: the buffer from its last byte to its first. -/
def printint (xx : BitVec 32) (base : Base) (sgn : Bool) : Option (List UInt8) := do
  let neg := sgn && decide (xx.toInt < 0)
  let x := if neg then -xx else xx
  let buf ← digitLoop base x.toNat []
  if neg then store buf '-'.toUInt8 else some buf

def ptrLoop : ℕ → BitVec 64 → List UInt8
  | 0, _ => []
  | k + 1, x => digit (x >>> 60).toNat :: ptrLoop k (x <<< 4)

def printptr (x : BitVec 64) : List UInt8 := '0'.toUInt8 :: 'x'.toUInt8 :: ptrLoop 16 x

/-- The variables of `vprintf`: whether `state` is `'%'`, the number of arguments that are taken, and what is printed. -/
structure State where
  percent : Bool
  next : ℕ
  out : List UInt8

/-- The next argument is taken and `o` is printed for it. -/
def State.print (s : State) (o : List UInt8) : State := ⟨false, s.next + 1, s.out ++ o⟩

/-- The body of the loop of `vprintf` at the byte `c` of the format. -/
def vstep (str : BitVec 64 → List UInt8) (ap : ℕ → BitVec 64) (s : State) (c : UInt8) : Option State :=
  let a := ap s.next
  if s.percent = false then
    if c = '%'.toUInt8 then some { s with percent := true }
    else some { s with out := s.out ++ [c] }
  else if c = 'd'.toUInt8 then (printint (a.setWidth 32) ten true).map s.print
  -- the 64-bit argument becomes the parameter `int xx`
  else if c = 'l'.toUInt8 then (printint (a.setWidth 32) ten false).map s.print
  else if c = 'x'.toUInt8 then (printint (a.setWidth 32) sixteen false).map s.print
  else if c = 'p'.toUInt8 then some (s.print (printptr a))
  else if c = 's'.toUInt8 then
    some (s.print (if a = 0 then ['(', 'n', 'u', 'l', 'l', ')'].map Char.toUInt8 else str a))
  else if c = 'c'.toUInt8 then some (s.print [(a.setWidth 8).toNat.toUInt8])
  else if c = '%'.toUInt8 then some { s with percent := false, out := s.out ++ [c] }
  else some { s with percent := false, out := s.out ++ ['%'.toUInt8, c] }

/-- `vprintf`: the state at the end of the format. -/
def vprintf (str : BitVec 64 → List UInt8) (fmt : List UInt8) (ap : ℕ → BitVec 64) : Option State :=
  fmt.foldlM (vstep str ap) ⟨false, 0, []⟩

/-! ### Reading numerals -/

def readDigit (base : ℕ) (c : UInt8) : Option ℕ :=
  let d := if '0'.toUInt8 ≤ c ∧ c ≤ '9'.toUInt8 then some (c.toNat - 48)
    else if 'A'.toUInt8 ≤ c ∧ c ≤ 'F'.toUInt8 then some (c.toNat - 55) else none
  d.filter (· < base)

/-- The digits of a numeral, from the one with the greatest weight on. -/
def readNat (base : ℕ) (cs : List UInt8) : Option ℕ :=
  if cs = [] then none else cs.foldlM (fun v c => (readDigit base c).map (v * base + ·)) 0

/-- A numeral with an optional minus sign. -/
def readInt (base : ℕ) : List UInt8 → Option ℤ
  | [] => none
  | c :: cs => if c = '-'.toUInt8 then (readNat base cs).map fun n : ℕ => -(n : ℤ)
    else (readNat base (c :: cs)).map fun n : ℕ => (n : ℤ)

/-- A numeral has a leading zero only if it has no other digit. -/
def Canonical (cs : List UInt8) : Prop := cs.head? = some '0'.toUInt8 → cs.length = 1

/-- The conversions that print a number. -/
inductive Conversion where
  | d
  | l
  | x
  | p
  deriving DecidableEq

def Conversion.char : Conversion → UInt8
  | d => 'd'.toUInt8
  | l => 'l'.toUInt8
  | x => 'x'.toUInt8
  | p => 'p'.toUInt8

/-- `o` is a numeral of the argument `a`, which is an `int` for `%d`, 32 bits for `%x` and a `uint64` for `%l` and `%p`. -/
def Denotes : Conversion → BitVec 64 → List UInt8 → Prop
  | .d, a, o => readInt 10 o = some (a.setWidth 32).toInt ∧ Canonical o ∧
      ∀ ds, o = '-'.toUInt8 :: ds → Canonical ds
  | .l, a, o => readNat 10 o = some a.toNat ∧ Canonical o
  | .x, a, o => readNat 16 o = some (a.setWidth 32).toNat ∧ Canonical o
  | .p, a, o => ∃ ds, o = '0'.toUInt8 :: 'x'.toUInt8 :: ds ∧ readNat 16 ds = some a.toNat

/-- The digits of a number, from the one with the greatest weight on. -/
def numeral (base x : ℕ) : List UInt8 := ((if x = 0 then [0] else Nat.digits base x).reverse).map digit

lemma readDigit_digit {base : ℕ} {d : ℕ} (hb : base ≤ 16) (lt : d < base) : readDigit base (digit d) = some d := by
  have table : ∀ d < 16, readDigit 16 (digit d) = some d := by decide
  have read := table d (by omega)
  simp only [readDigit, Option.filter_eq_some_iff] at read ⊢
  exact ⟨read.1, by simpa using lt⟩

lemma foldlM_digits {base : ℕ} {ds : List ℕ} {v : ℕ} (hb : base ≤ 16) (lt : ∀ d ∈ ds, d < base) :
    (ds.map digit).foldlM (fun v c => (readDigit base c).map (v * base + ·)) v =
      some (ds.foldl (fun v d => v * base + d) v) := by
  induction ds generalizing v with
  | nil => rfl
  | cons d ds ih =>
    rw [List.map_cons, List.foldlM_cons, readDigit_digit hb (lt d List.mem_cons_self)]
    exact ih fun e mem => lt e (List.mem_cons_of_mem d mem)

lemma numeral_zero {base : ℕ} : numeral base 0 = ['0'.toUInt8] := rfl

lemma numeral_pos {base x : ℕ} (pos : x ≠ 0) : numeral base x = (Nat.digits base x).reverse.map digit := by
  rw [numeral, if_neg pos]

lemma numeral_ne_nil {base x : ℕ} : numeral base x ≠ [] := by
  by_cases zero : x = 0
  · simp [zero, numeral_zero]
  · simp [numeral_pos zero, Nat.digits_ne_nil_iff_ne_zero.mpr zero]

lemma readNat_numeral {base x : ℕ} (two : 2 ≤ base) (hb : base ≤ 16) : readNat base (numeral base x) = some x := by
  rw [readNat, if_neg numeral_ne_nil]
  by_cases zero : x = 0
  · subst zero
    have zero : readDigit base (digit 0) = some 0 := readDigit_digit hb (by omega)
    change (readDigit base (digit 0)).map _ >>= _ = _
    rw [zero]
    simp
  · rw [numeral_pos zero, foldlM_digits hb fun d mem => Nat.digits_lt_base two (List.mem_reverse.mp mem)]
    have value : (Nat.digits base x).foldr (fun d v => d + base * v) 0 = x :=
      (Nat.ofDigits_eq_foldr base _).symm.trans (Nat.ofDigits_digits base x)
    simpa only [List.foldl_reverse, Nat.add_comm, Nat.mul_comm] using congrArg some value

lemma digit_eq_zero {d : ℕ} (lt : d < 16) (zero : digit d = '0'.toUInt8) : d = 0 := by
  have table : ∀ d < 16, digit d = '0'.toUInt8 → d = 0 := by decide
  exact table d lt zero

lemma canonical_numeral {base x : ℕ} (two : 2 ≤ base) (hb : base ≤ 16) : Canonical (numeral base x) := by
  intro leading
  by_cases zero : x = 0
  · simp [zero, numeral_zero]
  · have ne := Nat.digits_ne_nil_iff_ne_zero (b := base).mpr zero
    rw [numeral_pos zero, List.head?_map, List.head?_reverse, List.getLast?_eq_some_getLast ne] at leading
    have last := digit_eq_zero ?_ (Option.some.inj leading)
    · exact absurd last (Nat.getLast_digit_ne_zero base zero)
    · exact (Nat.digits_lt_base two (List.getLast_mem ne)).trans_le hb

lemma numeral_div {base x : ℕ} (two : 2 ≤ base) (more : x / base ≠ 0) :
    numeral base x = numeral base (x / base) ++ [digit (x % base)] := by
  have pos : x ≠ 0 := fun zero => more (by simp [zero])
  rw [numeral_pos pos, numeral_pos more, Nat.digits_def' two (Nat.pos_of_ne_zero pos)]
  simp

lemma numeral_lt {base x : ℕ} (two : 2 ≤ base) (last : x / base = 0) : numeral base x = [digit (x % base)] := by
  have lt : x < base := (Nat.div_eq_zero_iff_lt (by omega)).mp last
  rw [Nat.mod_eq_of_lt lt]
  by_cases zero : x = 0
  · rw [zero, numeral_zero]
    rfl
  · rw [numeral_pos zero, Nat.digits_of_lt base x zero lt]
    rfl

/-! ### What the loops print -/

lemma digitLoop_eq {base : Base} {x : ℕ} {buf : List UInt8} (fits : (numeral base.val x).length + buf.length ≤ 16) :
    digitLoop base x buf = some (numeral base.val x ++ buf) := by
  induction x using Nat.strongRecOn generalizing buf with
  | ind x ih =>
    rw [digitLoop]
    by_cases last : x / base.val = 0
    · rw [numeral_lt base.two_le last] at fits ⊢
      have room : buf.length < 16 := by simpa [Nat.add_comm] using fits
      simp [store, room, last]
    · have lt : x / base.val < x :=
        Nat.div_lt_self (Nat.pos_of_ne_zero fun zero => last (by simp [zero])) base.two_le
      rw [numeral_div base.two_le last] at fits ⊢
      simp only [List.length_append, List.length_singleton] at fits
      have room : buf.length < 16 := by omega
      have rest : digitLoop base (x / base.val) (digit (x % base.val) :: buf) = _ :=
        ih _ lt (by rw [List.length_cons]; omega)
      simp [store, room, last, rest]

lemma length_numeral {base x : ℕ} (large : 10 ≤ base) (lt : x < 2 ^ 32) : (numeral base x).length ≤ 10 := by
  by_cases zero : x = 0
  · simp [zero, numeral_zero]
  · rw [numeral_pos zero, List.length_map, List.length_reverse, Nat.digits_length_le_iff (by omega)]
    calc x < 10 ^ 10 := by omega
      _ ≤ base ^ 10 := Nat.pow_le_pow_left large 10

lemma digitLoop_word {base : Base} {x : ℕ} (large : 10 ≤ base.val) (lt : x < 2 ^ 32) :
    digitLoop base x [] = some (numeral base.val x) := by
  have short := length_numeral large lt
  rw [digitLoop_eq (by simp only [List.length_nil]; omega), List.append_nil]

lemma printint_unsigned {xx : BitVec 32} {base : Base} (large : 10 ≤ base.val) :
    printint xx base false = some (numeral base.val xx.toNat) := by
  simp [printint, digitLoop_word large xx.isLt]

/-- A number is printed with a sign as its numeral or, also for the least one, as a minus sign and the numeral of its
absolute value. -/
lemma printint_signed {xx : BitVec 32} {base : Base} (large : 10 ≤ base.val) :
    printint xx base true = some (if xx.toInt < 0 then '-'.toUInt8 :: numeral base.val xx.toInt.natAbs
      else numeral base.val xx.toInt.natAbs) := by
  have value := BitVec.toInt_eq_toNat_cond xx
  have lt := xx.isLt
  have loop : digitLoop base xx.toInt.natAbs [] = some (numeral base.val xx.toInt.natAbs) :=
    digitLoop_word large (by split at value <;> omega)
  by_cases neg : xx.toInt < 0
  · have abs : (-xx).toNat = xx.toInt.natAbs := by
      rw [BitVec.toNat_neg]
      split at value <;> omega
    have short : (numeral base.val xx.toInt.natAbs).length ≤ 10 := length_numeral large (by omega)
    have room : (numeral base.val xx.toInt.natAbs).length < 16 := by omega
    simp [printint, neg, abs, loop, store, room]
  · have abs : xx.toNat = xx.toInt.natAbs := by split at value <;> omega
    simp [printint, neg, loop, abs]

lemma shift_digits {k : ℕ} {x : BitVec 64} (lt : k < 16) :
    (x >>> 60).toNat * 16 ^ k + (x <<< 4).toNat / 2 ^ (64 - 4 * k) = x.toNat / 2 ^ (64 - 4 * (k + 1)) := by
  have weight : 2 ^ 60 = 2 ^ (60 - 4 * k) * 16 ^ k := by
    rw [show 16 = 2 ^ 4 from rfl, ← Nat.pow_mul, ← Nat.pow_add]
    congr 1
    omega
  have low : 2 ^ (64 - 4 * k) = 16 * 2 ^ (60 - 4 * k) := by
    rw [show 16 = 2 ^ 4 from rfl, ← Nat.pow_add]
    congr 1
    omega
  have shifted : (x <<< 4).toNat = 16 * (x.toNat % 2 ^ 60) := by
    rw [BitVec.toNat_shiftLeft, Nat.shiftLeft_eq]
    omega
  have top : (x >>> 60).toNat = x.toNat / 2 ^ 60 := by
    rw [BitVec.toNat_ushiftRight, Nat.shiftRight_eq_div_pow]
  have exponent : 64 - 4 * (k + 1) = 60 - 4 * k := by omega
  rw [top, shifted, low, exponent, Nat.mul_div_mul_left _ _ (by decide)]
  calc x.toNat / 2 ^ 60 * 16 ^ k + x.toNat % 2 ^ 60 / 2 ^ (60 - 4 * k)
      = (2 ^ (60 - 4 * k) * (x.toNat / 2 ^ 60 * 16 ^ k) + x.toNat % 2 ^ 60) / 2 ^ (60 - 4 * k) :=
        (Nat.mul_add_div (Nat.two_pow_pos _) _ _).symm
    _ = (2 ^ 60 * (x.toNat / 2 ^ 60) + x.toNat % 2 ^ 60) / 2 ^ (60 - 4 * k) := by
        rw [weight]
        ring_nf
    _ = x.toNat / 2 ^ (60 - 4 * k) := by rw [Nat.div_add_mod]

lemma ptrLoop_value {k : ℕ} {x : BitVec 64} {v : ℕ} (le : k ≤ 16) :
    (ptrLoop k x).foldlM (fun v c => (readDigit 16 c).map (v * 16 + ·)) v =
      some (v * 16 ^ k + x.toNat / 2 ^ (64 - 4 * k)) := by
  induction k generalizing x v with
  | zero =>
    simpa [ptrLoop] using x.isLt
  | succ k ih =>
    have top : (x >>> 60).toNat < 16 := by
      have := x.isLt
      simp [Nat.shiftRight_eq_div_pow]
      omega
    rw [ptrLoop, List.foldlM_cons, readDigit_digit le_rfl top]
    simp only [Option.map_some, Option.bind_eq_bind, Option.bind_some]
    rw [ih (by omega)]
    have digits := shift_digits (x := x) (show k < 16 by omega)
    rw [← digits, Nat.pow_succ]
    congr 1
    ring

lemma readNat_ptrLoop {x : BitVec 64} : readNat 16 (ptrLoop 16 x) = some x.toNat := by
  have value := ptrLoop_value (x := x) (v := 0) (le_refl 16)
  rw [readNat, if_neg (by simp [ptrLoop]), value]
  simp

lemma head_numeral {x : ℕ} : (numeral 10 x).head? ≠ some '-'.toUInt8 := by
  intro minus
  have read : readNat 10 (numeral 10 x) = some x := readNat_numeral (by decide) (by decide)
  obtain ⟨ds, eq⟩ : ∃ ds, numeral 10 x = '-'.toUInt8 :: ds := by
    cases eq : numeral 10 x with
    | nil => exact absurd eq numeral_ne_nil
    | cons c ds =>
      rw [eq] at minus
      exact ⟨ds, by rw [← Option.some.inj minus]⟩
  have none : readDigit 10 '-'.toUInt8 = none := by decide
  simp [readNat, eq, none] at read

/-- The numeral of an integer, with a minus sign if it is negative, is read as the integer. -/
lemma readInt_signed {i : ℤ} :
    readInt 10 (if i < 0 then '-'.toUInt8 :: numeral 10 i.natAbs else numeral 10 i.natAbs) = some i := by
  have read : readNat 10 (numeral 10 i.natAbs) = some i.natAbs := readNat_numeral (by decide) (by decide)
  by_cases neg : i < 0
  · have value : -(i.natAbs : ℤ) = i := by omega
    rw [if_pos neg, readInt, if_pos rfl, read, Option.map_some, value]
  · have plain := head_numeral (x := i.natAbs)
    rw [if_neg neg]
    cases eq : numeral 10 i.natAbs with
    | nil => exact absurd eq numeral_ne_nil
    | cons c ds =>
      rw [eq] at plain read
      have value : (i.natAbs : ℤ) = i := by omega
      rw [readInt, if_neg fun minus => plain (by rw [minus]; rfl), read, Option.map_some, value]

lemma canonical_signed {i : ℤ} {o : List UInt8}
    (eq : o = if i < 0 then '-'.toUInt8 :: numeral 10 i.natAbs else numeral 10 i.natAbs) :
    Canonical o ∧ ∀ ds, o = '-'.toUInt8 :: ds → Canonical ds := by
  have digits : Canonical (numeral 10 i.natAbs) := canonical_numeral (by decide) (by decide)
  subst eq
  by_cases neg : i < 0
  · rw [if_pos neg]
    refine ⟨fun zero => absurd (Option.some.inj zero) (by decide), fun ds eq => ?_⟩
    rwa [← (List.cons.inj eq).2]
  · rw [if_neg neg]
    exact ⟨digits, fun ds eq => absurd (by rw [eq]; rfl) (head_numeral (x := i.natAbs))⟩

lemma vstep_isSome {str : BitVec 64 → List UInt8} {ap : ℕ → BitVec 64} {s : State} {c : UInt8} :
    ∃ s', vstep str ap s c = some s' := by
  have decimal : 10 ≤ ten.val := le_rfl
  have hex : 10 ≤ sixteen.val := by decide
  unfold vstep
  simp only [printint_signed decimal, printint_unsigned decimal, printint_unsigned hex, Option.map_some]
  split_ifs <;> exact ⟨_, rfl⟩

lemma vprintf_isSome {str : BitVec 64 → List UInt8} {fmt : List UInt8} {ap : ℕ → BitVec 64} :
    ∃ s, vprintf str fmt ap = some s := by
  unfold vprintf
  generalize (⟨false, 0, []⟩ : State) = s
  induction fmt generalizing s with
  | nil => exact ⟨s, rfl⟩
  | cons c fmt ih =>
    obtain ⟨s', step⟩ : ∃ s', vstep str ap s c = some s' := vstep_isSome
    obtain ⟨t, rest⟩ := ih s'
    exact ⟨t, by rw [List.foldlM_cons, step]; exact rest⟩

def Conversion.numeral : Conversion → BitVec 64 → List UInt8
  | .d, a => if (a.setWidth 32).toInt < 0 then '-'.toUInt8 :: Printf.numeral 10 (a.setWidth 32).toInt.natAbs
      else Printf.numeral 10 (a.setWidth 32).toInt.natAbs
  | .l, a => Printf.numeral 10 (a.setWidth 32).toNat
  | .x, a => Printf.numeral 16 (a.setWidth 32).toNat
  | .p, a => printptr a

lemma vstep_conversion {str : BitVec 64 → List UInt8} {ap : ℕ → BitVec 64} {s : State} {k : Conversion}
    (percent : s.percent = true) : vstep str ap s k.char = some (s.print (k.numeral (ap s.next))) := by
  have decimal : 10 ≤ ten.val := le_rfl
  have hex : 10 ≤ sixteen.val := by decide
  obtain ⟨_, next, out⟩ := s
  subst percent
  cases k with
  | d =>
    change (printint _ ten true).map _ = _
    rw [printint_signed decimal]
    rfl
  | l =>
    change (printint _ ten false).map _ = _
    rw [printint_unsigned decimal]
    rfl
  | x =>
    change (printint _ sixteen false).map _ = _
    rw [printint_unsigned hex]
    rfl
  | p => rfl

/-- For no format is a byte stored outside of the buffer of `printint`, and at any conversion of a format the numeral that is
printed denotes the argument, without superfluous zeros, unless the conversion is `%l` and the argument has more than 32 bits. -/
theorem numerals_denote_iff (str : BitVec 64 → List UInt8) (ap : ℕ → BitVec 64) :
    (∀ fmt, (vprintf str fmt ap).isSome) ∧
    ∀ (s : State) (k : Conversion), s.percent = true →
      ((∃ o, vstep str ap s k.char = some (s.print o) ∧ Denotes k (ap s.next) o) ↔
        (k = .l → (ap s.next).toNat < 2 ^ 32)) := by
  constructor
  · intro fmt
    obtain ⟨s, eq⟩ : ∃ s, vprintf str fmt ap = some s := vprintf_isSome
    rw [eq]
    rfl
  intro s k percent
  have print (o o' : List UInt8) (eq : s.print o = s.print o') : o = o' :=
    List.append_cancel_left (congrArg State.out eq)
  have same : (∃ o, vstep str ap s k.char = some (s.print o) ∧ Denotes k (ap s.next) o) ↔
      Denotes k (ap s.next) (k.numeral (ap s.next)) := by
    rw [vstep_conversion percent]
    constructor
    · rintro ⟨o, eq, holds⟩
      rwa [print _ _ (Option.some.inj eq)]
    · exact fun holds => ⟨_, rfl, holds⟩
  rw [same]
  generalize ap s.next = a
  cases k with
  | d => exact iff_of_true ⟨readInt_signed, canonical_signed rfl⟩ (by simp)
  | l =>
    have read : readNat 10 (numeral 10 (a.setWidth 32).toNat) = some (a.setWidth 32).toNat :=
      readNat_numeral (by decide) (by decide)
    have canonical : Canonical (numeral 10 (a.setWidth 32).toNat) := canonical_numeral (by decide) (by decide)
    have value : (a.setWidth 32).toNat = a.toNat ↔ a.toNat < 2 ^ 32 := by
      rw [BitVec.toNat_setWidth]
      exact Nat.mod_eq_iff_lt (by decide)
    rw [Denotes, Conversion.numeral, read, Option.some.injEq, value]
    simp only [canonical, and_true, forall_const]
  | x =>
    exact iff_of_true ⟨readNat_numeral (by decide) (by decide), canonical_numeral (by decide) (by decide)⟩ (by simp)
  | p => exact iff_of_true ⟨_, rfl, readNat_ptrLoop⟩ (by simp)

/-- The size of a file of 4 GiB is printed as `0`. -/
theorem print_four_gib :
    vprintf (fun _ => []) ['%'.toUInt8, 'l'.toUInt8] (fun _ => 2 ^ 32) = some ⟨false, 1, ['0'.toUInt8]⟩ ∧
      ¬Denotes .l (2 ^ 32) ['0'.toUInt8] := by
  constructor
  · have plain : vstep (fun _ => []) (fun _ => 2 ^ 32) ⟨false, 0, []⟩ '%'.toUInt8 = some ⟨true, 0, []⟩ := rfl
    rw [vprintf, List.foldlM_cons, plain]
    change (vstep _ _ _ Conversion.l.char >>= _) = _
    rw [vstep_conversion rfl]
    rfl
  · rintro ⟨read, -⟩
    exact absurd read (by decide)

/-- The most negative `int` is printed right. -/
theorem print_least_int :
    ∃ o, vstep (fun _ => []) (fun _ => 2 ^ 31) ⟨true, 0, []⟩ Conversion.d.char = some (State.print ⟨true, 0, []⟩ o) ∧
      Denotes .d (2 ^ 31) o :=
  ((numerals_denote_iff (fun _ => []) (fun _ => 2 ^ 31)).2 ⟨true, 0, []⟩ .d rfl).mpr (by decide)

end Xv6.Printf
