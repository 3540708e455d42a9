import Mathlib.Tactic.Lemma
import Mathlib.Algebra.Group.Nat.Defs

/-!
# Little-endian integers in a byte array

A byte array of fixed length `N` is a function on `Fin N`. `getLE b o len` reads the `len` bytes at
offset `o` as a little-endian number and `putLE b o len v` stores `v` there. The two lemmas a client
needs are that a read of the range just written returns the number (`getLE_putLE`) and that a read of
a disjoint range is not affected (`getLE_putLE_disj`).
-/

/-- A byte array of length `N`. -/
abbrev ByteVec (N : Nat) := Fin N → UInt8

namespace ByteVec

variable {N : Nat}

/-- The byte at offset `o`, and `0` past the end of the array. -/
def get8 (b : ByteVec N) (o : Nat) : UInt8 :=
  if h : o < N then b ⟨o, h⟩ else 0

/-- Store a byte at offset `o`; a store past the end has no effect. -/
def put8 (b : ByteVec N) (o : Nat) (v : UInt8) : ByteVec N :=
  fun i => if i.val = o then v else b i

/-- Read `len` bytes at offset `o` as a little-endian number. -/
def getLE (b : ByteVec N) : Nat → Nat → Nat
  | _, 0 => 0
  | o, len + 1 => (get8 b o).toNat + 256 * getLE b (o + 1) len

/-- Store the `len` low bytes of `v` at offset `o`, least significant byte first. -/
def putLE (b : ByteVec N) : Nat → Nat → Nat → ByteVec N
  | _, 0, _ => b
  | o, len + 1, v => put8 (putLE b (o + 1) len (v / 256)) o (UInt8.ofNat v)

/-- Store the 32-bit words `a 0`, `a 1` and so on, `n` of them, at offset `o`. -/
def putWords (b : ByteVec N) (o : Nat) : Nat → (Nat → Nat) → ByteVec N
  | 0, _ => b
  | n + 1, a => putLE (putWords b o n a) (o + 4 * n) 4 (a n)

def bytes (b : ByteVec N) (o n : Nat) : List UInt8 := (List.range n).map fun i => get8 b (o + i)

/-- An array that starts with a list of bytes and is zero after it. -/
def ofBytes (bs : List UInt8) : ByteVec N := fun i => bs.getD i.val 0

/-- Store a list of bytes at offset `o`. -/
def putBytes (b : ByteVec N) (o : Nat) (bs : List UInt8) : ByteVec N :=
  fun i => if o ≤ i.val then bs.getD (i.val - o) (b i) else b i

lemma get8_zero {o : Nat} : get8 (fun _ => 0 : ByteVec N) o = 0 := by
  simp [get8]

@[simp]
lemma get8_put8 {b : ByteVec N} {o v} (lt : o < N) : get8 (put8 b o v) o = v := by
  simp [get8, put8, lt]

lemma get8_put8_ne {b : ByteVec N} {o o' v} (ne : o' ≠ o) : get8 (put8 b o v) o' = get8 b o' := by
  simp [get8, put8, ne]

lemma get8_putLE {b : ByteVec N} {o len v o'} (out : o' < o ∨ o + len ≤ o') :
    get8 (putLE b o len v) o' = get8 b o' := by
  induction len generalizing o v with
  | zero => rfl
  | succ len ih =>
    have ne : o' ≠ o := by omega
    rw [putLE, get8_put8_ne ne]
    apply ih
    omega

lemma get8_putLE_zero {b : ByteVec N} {o len o'} (lo : o ≤ o') (hi : o' < o + len) : get8 (putLE b o len 0) o' = 0 := by
  induction len generalizing o with
  | zero => omega
  | succ len ih =>
    rw [putLE]
    by_cases eq : o' = o
    · simp [get8, put8, eq]
    · rw [get8_put8_ne eq]
      exact ih (by omega) (by omega)

lemma getLE_lt {b : ByteVec N} {o len} : getLE b o len < 256 ^ len := by
  induction len generalizing o with
  | zero => simp [getLE]
  | succ len ih =>
    have lt := (get8 b o).toNat_lt
    have ih := ih (o := o + 1)
    simp only [getLE, Nat.pow_succ]
    omega

lemma getLE_congr {b b' : ByteVec N} {o len}
    (eq : ∀ i, o ≤ i → i < o + len → get8 b i = get8 b' i) : getLE b o len = getLE b' o len := by
  induction len generalizing o with
  | zero => rfl
  | succ len ih =>
    have hd := eq o (by omega) (by omega)
    have tl : getLE b (o + 1) len = getLE b' (o + 1) len := by
      apply ih
      intro i lo hi
      exact eq i (by omega) (by omega)
    simp only [getLE, hd, tl]

@[simp]
lemma getLE_zero {o len} : getLE (fun _ => 0 : ByteVec N) o len = 0 := by
  induction len generalizing o with
  | zero => rfl
  | succ len ih => simp [getLE, get8, ih]

lemma getLE_of_le {b : ByteVec N} {o len} (le : N ≤ o) : getLE b o len = 0 := by
  induction len generalizing o with
  | zero => rfl
  | succ len ih =>
    have out : ¬o < N := by omega
    simp [getLE, get8, out, ih (Nat.le_succ_of_le le)]

lemma getLE_putLE_disj {b : ByteVec N} {o len v o' len'}
    (disj : o' + len' ≤ o ∨ o + len ≤ o') :
    getLE (putLE b o len v) o' len' = getLE b o' len' := by
  apply getLE_congr
  intro i lo hi
  apply get8_putLE
  omega

lemma getLE_putLE {b : ByteVec N} {o len v} (le : o + len ≤ N) :
    getLE (putLE b o len v) o len = v % 256 ^ len := by
  induction len generalizing o v with
  | zero => simp [getLE, Nat.mod_one]
  | succ len ih =>
    have hd : get8 (putLE b o (len + 1) v) o = UInt8.ofNat v := by
      rw [putLE, get8_put8 (by omega)]
    have tl : getLE (putLE b o (len + 1) v) (o + 1) len = v / 256 % 256 ^ len := by
      rw [← ih (o := o + 1) (v := v / 256) (by omega)]
      apply getLE_congr
      intro i lo hi
      rw [putLE, get8_put8_ne (by omega)]
    have sp : v % (256 ^ len * 256) = v % 256 + 256 * (v / 256 % 256 ^ len) := by
      rw [Nat.mul_comm, Nat.mod_mul]
    rw [getLE, hd, tl, Nat.pow_succ, sp]
    simp

lemma getLE_putWords_disj {b : ByteVec N} {o n a o' len'} (disj : o' + len' ≤ o ∨ o + 4 * n ≤ o') :
    getLE (putWords b o n a) o' len' = getLE b o' len' := by
  induction n with
  | zero => rfl
  | succ n ih => rw [putWords, getLE_putLE_disj (by omega), ih (by omega)]

lemma getLE_putWords {b : ByteVec N} {o n a k} (le : o + 4 * n ≤ N) (lt : k < n) :
    getLE (putWords b o n a) (o + 4 * k) 4 = a k % 2 ^ 32 := by
  induction n with
  | zero => omega
  | succ n ih =>
    rw [putWords]
    by_cases eq : k = n
    · rw [eq, getLE_putLE (by omega), show 256 ^ 4 = 2 ^ 32 by decide]
    · rw [getLE_putLE_disj (by omega), ih (by omega) (by omega)]

lemma get8_putBytes {b : ByteVec N} {o i} {bs : List UInt8} (lt : o + bs.length ≤ N) (le : o ≤ i)
    (hi : i < o + bs.length) : get8 (putBytes b o bs) i = bs.getD (i - o) 0 := by
  have lb : i - o < bs.length := by omega
  have ln : i < N := by omega
  simp [get8, putBytes, ln, le, lb]

lemma get8_putBytes_ne {b : ByteVec N} {o i} {bs : List UInt8} (out : i < o ∨ o + bs.length ≤ i) :
    get8 (putBytes b o bs) i = get8 b i := by
  unfold get8 putBytes
  split
  · by_cases le : o ≤ i
    · have : bs.length ≤ i - o := by omega
      simp [le, List.getD, List.getElem?_eq_none this]
    · simp [le]
  · rfl

end ByteVec
