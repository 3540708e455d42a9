import Xv6.Params
import Xv6.Lib.Bytes

/-!
# The header block of the log

`read_head` and `write_head` of `kernel/log.c` on the contents of the header block, which is a
`struct logheader`: the count `n` and then the block numbers. What `write_head` stores `read_head`
reads back (`readHead_writeHead`), as long as the entries fit the block.
-/

namespace Xv6

/-- A disk block. -/
abbrev Block := ByteVec BSIZE

namespace Log

/-- A 32-bit field of a block as a number. -/
def get32 (b : Block) (o : Nat) : Nat := b.getLE o 4

def put32 (b : Block) (o : Nat) (v : Nat) : Block := b.putLE o 4 v

/-- The block numbers `read_head` copies out of the header block; `lh->n` is a signed `int`. -/
def readHead (hb : Block) : List Nat :=
  let n := get32 hb 0
  (List.range (if n < 2 ^ 31 then n else 0)).map fun i => get32 hb (4 + 4 * i)

/-- The loop of `write_head`, storing block numbers from entry `i` on. -/
def writeEntries (hb : Block) : Nat → List Nat → Block
  | _, [] => hb
  | i, b :: bs => writeEntries (put32 hb (4 + 4 * i) b) (i + 1) bs

/-- The header block as `write_head` updates it; entries past `lh.n` keep their old contents. -/
def writeHead (hb : Block) (lh : List Nat) : Block :=
  writeEntries (put32 hb 0 lh.length) 0 lh

lemma get32_put32 {b : Block} {o v} (le : o + 4 ≤ BSIZE) (lt : v < 2 ^ 32) :
    get32 (put32 b o v) o = v := by
  rw [get32, put32, ByteVec.getLE_putLE le]
  omega

lemma get32_put32_disj {b : Block} {o o' v} (disj : o' + 4 ≤ o ∨ o + 4 ≤ o') :
    get32 (put32 b o v) o' = get32 b o' :=
  ByteVec.getLE_putLE_disj disj

lemma get32_writeEntries_lo {hb : Block} {i lh o} (lo : o + 4 ≤ 4 + 4 * i) :
    get32 (writeEntries hb i lh) o = get32 hb o := by
  induction lh generalizing hb i with
  | nil => rfl
  | cons b bs ih =>
    rw [writeEntries, ih (by omega), get32_put32_disj (by omega)]

lemma get32_writeEntries {hb : Block} {i lh j b} (fit : 4 + 4 * (i + lh.length) ≤ BSIZE)
    (small : ∀ b ∈ lh, b < 2 ^ 32) (get : lh[j]? = some b) :
    get32 (writeEntries hb i lh) (4 + 4 * (i + j)) = b := by
  induction lh generalizing hb i j with
  | nil => simp at get
  | cons b' bs ih =>
    rw [List.length_cons] at fit
    cases j with
    | zero =>
      simp only [List.getElem?_cons_zero, Option.some.injEq] at get
      subst get
      rw [writeEntries, get32_writeEntries_lo (by omega)]
      exact get32_put32 (by omega) (small b' (by simp))
    | succ j =>
      rw [writeEntries, show i + (j + 1) = i + 1 + j by omega]
      exact ih (by omega) (fun b mem => small b (by simp [mem])) (by simpa using get)

lemma readHead_writeHead {hb : Block} {lh} (fit : lh.length ≤ LOGSIZE)
    (small : ∀ b ∈ lh, b < 2 ^ 32) : readHead (writeHead hb lh) = lh := by
  simp only [LOGSIZE, MAXOPBLOCKS] at fit
  have n : get32 (writeHead hb lh) 0 = lh.length := by
    rw [writeHead, get32_writeEntries_lo (by omega)]
    exact get32_put32 (by simp [BSIZE]) (by omega)
  have len : readHead (writeHead hb lh) =
      (List.range lh.length).map fun i => get32 (writeHead hb lh) (4 + 4 * i) := by
    rw [readHead, n, if_pos (by omega)]
  rw [len]
  apply List.ext_getElem (by simp)
  intro j lt lt'
  have e : get32 (writeEntries (put32 hb 0 lh.length) 0 lh) (4 + 4 * (0 + j)) = lh[j] :=
    get32_writeEntries (by simp only [BSIZE]; omega) small (List.getElem?_eq_getElem lt')
  rw [Nat.zero_add] at e
  simpa [writeHead] using e

lemma readHead_writeHead_nil {hb : Block} : readHead (writeHead hb []) = [] :=
  readHead_writeHead (by simp) (by simp)

end Log
end Xv6
