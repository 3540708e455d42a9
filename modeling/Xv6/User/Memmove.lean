import Mathlib.Tactic.Lemma
import Mathlib.Algebra.Group.Nat.Defs

/-!
# The two `memmove`s

The kernel's `memmove` (string.c) and the one of the user library (ulib.c) copy `n` bytes between
ranges that may overlap. Both choose between a forward and a backward loop by comparing the two
pointers, the kernel also by whether the destination starts inside the source. A memory is a function
on the 64-bit pointers, and pointers advance modulo `2^64`.

What makes a copy in place right is the same for both loops: no byte is overwritten before it is read.
For the forward loop that is a condition on the distance from the source up to the destination, for
the backward loop on the distance from the destination up to the source, both taken modulo `2^64`
(`forward_apply`, `backward_apply`).
-/

namespace Xv6.Memmove

/-- A pointer. -/
abbrev Addr := BitVec 64

/-- The bytes of an address space. -/
abbrev Memory := Addr → UInt8

def Memory.set (m : Memory) (d : Addr) (v : UInt8) : Memory := fun a => if a = d then v else m a

/-- `while(n-- > 0) *d++ = *s++;` with `n` iterations to come. -/
def forward : Nat → Addr → Addr → Memory → Memory
  | 0, _, _, m => m
  | n + 1, d, s, m => forward n (d + 1) (s + 1) (m.set d (m s))

/-- `while(n-- > 0) *--d = *--s;` with `n` iterations to come. -/
def backward : Nat → Addr → Addr → Memory → Memory
  | 0, _, _, m => m
  | n + 1, d, s, m => backward n (d - 1) (s - 1) (m.set (d - 1) (m (s - 1)))

/-- The kernel's `memmove`, whose length is a `uint`: the pointer it returns and the memory after. -/
def kernelMemmove (dst src : Addr) (n : BitVec 32) (m : Memory) : Addr × Memory :=
  if n = 0 then (dst, m)
  else if src < dst ∧ src + n.zeroExtend 64 > dst then
    (dst, backward n.toNat (dst + n.zeroExtend 64) (src + n.zeroExtend 64) m)
  else (dst, forward n.toNat dst src m)

/-- The user library's `memmove`, whose length is an `int`: a loop `while(n-- > 0)` does nothing at a
negative `n`, and the pointers are moved by the sign-extended length. -/
def userMemmove (dst src : Addr) (n : BitVec 32) (m : Memory) : Addr × Memory :=
  if src > dst then (dst, forward n.toInt.toNat dst src m)
  else (dst, backward n.toInt.toNat (dst + n.signExtend 64) (src + n.signExtend 64) m)

/-- The `n` bytes at `p` do not wrap around the end of the address space. -/
def Fits (p : Addr) (n : Nat) : Prop := p.toNat + n ≤ 2 ^ 64

instance {p : Addr} {n : Nat} : Decidable (Fits p n) := Nat.decLe _ _

/-- The memory with the `n` bytes at `dst` replaced by what stood at `src`. -/
def moved (dst src : Addr) (n : Nat) (m : Memory) : Memory :=
  fun a => if dst.toNat ≤ a.toNat ∧ a.toNat < dst.toNat + n then
    m (BitVec.ofNat 64 (src.toNat + (a.toNat - dst.toNat))) else m a

/-- The memory with the bytes at the `n` addresses from `d` on, counted modulo `2^64`, replaced by
those from `s` on. -/
def copied (d s : Addr) (n : Nat) (m : Memory) : Memory :=
  fun a => if (a - d).toNat < n then m (s + (a - d)) else m a

lemma copied_zero {d s : Addr} {m : Memory} : copied d s 0 m = m := rfl

lemma copied_eq_moved {d s : Addr} {n : Nat} {m : Memory} (hd : Fits d n) :
    copied d s n m = moved d s n m := by
  unfold Fits at hd
  funext a
  have inside : (a - d).toNat < n ↔ d.toNat ≤ a.toNat ∧ a.toNat < d.toNat + n := by bv_omega
  simp only [copied, moved, inside]
  split
  · congr 1
    bv_omega
  · rfl

/-- The forward loop copies when the destination is not inside the source past its first byte. -/
lemma forward_apply {n : Nat} {d s : Addr} {m : Memory} (fits : n < 2 ^ 64)
    (apart : d = s ∨ n ≤ (d - s).toNat) : forward n d s m = copied d s n m := by
  induction n generalizing d s m with
  | zero => rfl
  | succ n ih =>
    have rest : d + 1 = s + 1 ∨ n ≤ (d + 1 - (s + 1)).toNat := by
      have same : d + 1 - (s + 1) = d - s := by grind
      exact apart.imp (by rintro rfl; rfl) (by rw [same]; omega)
    rw [forward, ih (by omega) rest]
    funext a
    by_cases first : a = d
    · subst first
      have out : ¬(a - (a + 1)).toNat < n := by bv_omega
      have here : (a - a).toNat < n + 1 := by bv_omega
      have source : s + (a - a) = s := by bv_omega
      simp only [copied, if_neg out, if_pos here, source, Memory.set, if_true]
    · have shift : (a - (d + 1)).toNat < n ↔ (a - d).toNat < n + 1 := by bv_omega
      have source : s + 1 + (a - (d + 1)) = s + (a - d) := by grind
      simp only [copied, shift, source, Memory.set, first, if_false]
      -- the byte just written is not read again
      split
      next near =>
        rw [if_neg]
        intro again
        have distance : d - s = a - d := by grind
        obtain rfl | far := apart
        · exact first (by grind)
        · rw [distance] at far
          omega
      next => rfl

/-- The backward loop copies when the source is not inside the destination past its first byte. -/
lemma backward_apply {n : Nat} {d s : Addr} {m : Memory} (fits : n < 2 ^ 64)
    (apart : d = s ∨ n ≤ (s - d).toNat) :
    backward n (d + BitVec.ofNat 64 n) (s + BitVec.ofNat 64 n) m = copied d s n m := by
  induction n generalizing m with
  | zero => simp [backward, copied_zero]
  | succ n ih =>
    have last (p : Addr) : p + BitVec.ofNat 64 (n + 1) - 1 = p + BitVec.ofNat 64 n := by bv_omega
    rw [backward, last, last, ih (by omega) (apart.imp_right Nat.le_of_succ_le)]
    funext a
    by_cases final : a = d + BitVec.ofNat 64 n
    · have offset : a - d = BitVec.ofNat 64 n := by bv_omega
      have len : (BitVec.ofNat 64 n).toNat = n := by bv_omega
      have later : ¬n < n := Nat.lt_irrefl n
      simp only [copied, offset, len, if_neg later, if_pos n.lt_succ_self, Memory.set, if_pos final]
    · have shift : (a - d).toNat < n ↔ (a - d).toNat < n + 1 := by bv_omega
      simp only [copied, shift, Memory.set, final, if_false]
      split
      · rw [if_neg (by bv_omega)]
      · rfl

lemma kernelMemmove_eq {dst src : Addr} {n : BitVec 32} {m : Memory}
    (hs : Fits src n.toNat) (hd : Fits dst n.toNat) :
    kernelMemmove dst src n m = (dst, moved dst src n.toNat m) := by
  have width := n.isLt
  have len : n.zeroExtend 64 = BitVec.ofNat 64 n.toNat := by bv_omega
  rw [← copied_eq_moved hd, kernelMemmove]
  unfold Fits at hs hd
  split
  next empty =>
    subst empty
    rfl
  next some =>
    split
    next within => rw [len, backward_apply (by omega) (by bv_omega)]
    next apart => rw [forward_apply (by omega) (by bv_omega)]

/-- The user library's test does too: it copies forward exactly when the source is above. -/
lemma userMemmove_eq {dst src : Addr} {n : BitVec 32} {m : Memory}
    (hs : Fits src n.toInt.toNat) (hd : Fits dst n.toInt.toNat) :
    userMemmove dst src n m = (dst, moved dst src n.toInt.toNat m) := by
  have width : n.toInt.toNat < 2 ^ 32 := by have := n.toInt_lt; omega
  rw [← copied_eq_moved hd, userMemmove]
  unfold Fits at hs hd
  split
  next above => rw [forward_apply (by omega) (by bv_omega)]
  next below =>
    by_cases neg : n.toInt < 0
    · have none : n.toInt.toNat = 0 := by omega
      simp [none, backward, copied_zero]
    · have len : n.signExtend 64 = BitVec.ofNat 64 n.toInt.toNat := by
        apply BitVec.eq_of_toInt_eq
        rw [BitVec.toInt_signExtend_of_le (by decide), BitVec.toInt_ofNat', Int.bmod_eq_of_le]
        all_goals omega
      rw [len, backward_apply (by omega) (by bv_omega)]

/-- Whichever way the ranges overlap, both functions replace the `n` bytes at `dst` by the bytes that
stood at `src` and change nothing else, so on a length that both types hold they agree. -/
theorem memmove_any_overlap (dst src : Addr) (n : BitVec 32) (m : Memory) :
    (Fits src n.toNat → Fits dst n.toNat →
      kernelMemmove dst src n m = (dst, moved dst src n.toNat m)) ∧
    (Fits src n.toInt.toNat → Fits dst n.toInt.toNat →
      userMemmove dst src n m = (dst, moved dst src n.toInt.toNat m)) ∧
    (0 ≤ n.toInt → Fits src n.toNat → Fits dst n.toNat →
      userMemmove dst src n m = kernelMemmove dst src n m) := by
  refine ⟨kernelMemmove_eq, userMemmove_eq, fun pos hs hd => ?_⟩
  have len : n.toInt.toNat = n.toNat := by
    have width := n.isLt
    rw [BitVec.toInt_eq_toNat_cond] at pos ⊢
    split at pos <;> omega
  rw [kernelMemmove_eq hs hd, userMemmove_eq (len ▸ hs) (len ▸ hd), len]

/-- Four bytes moved up by two, and four moved down by two to the end of the address space. -/
theorem memmove_overlapping :
    (Fits 0 4 ∧ Fits 2 4 ∧
      kernelMemmove 2 0 4 (fun a => UInt8.ofNat a.toNat) =
        (2, moved 2 0 4 fun a => UInt8.ofNat a.toNat)) ∧
    (Fits (-4) 4 ∧ Fits (-6) 4 ∧
      userMemmove (-6) (-4) 4 (fun a => UInt8.ofNat a.toNat) =
        (-6, moved (-6) (-4) 4 fun a => UInt8.ofNat a.toNat) ∧
      userMemmove (-6) (-4) 4 (fun a => UInt8.ofNat a.toNat) =
        kernelMemmove (-6) (-4) 4 fun a => UInt8.ofNat a.toNat) :=
  ⟨⟨by decide, by decide, (memmove_any_overlap 2 0 4 _).1 (by decide) (by decide)⟩,
    by decide, by decide, (memmove_any_overlap (-6) (-4) 4 _).2.1 (by decide) (by decide),
    (memmove_any_overlap (-6) (-4) 4 _).2.2 (by decide) (by decide) (by decide)⟩

end Xv6.Memmove
