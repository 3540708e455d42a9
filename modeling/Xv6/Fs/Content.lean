import Xv6.Fs.File

/-!
# The content of files

`writei` and `readi` of `kernel/fs.c` on a file as an array of bytes. A write with a source that can be read replaces the bytes
it says it has written, and stops early only if no block is free; a read returns the bytes that are there. Both treat
`off + n` as a 32-bit number: a write that overflows fails, and a read returns nothing (`file_content`).
-/

namespace Xv6.Fs

open Fallible

/-- The file after bytes `i < w` of the source have been written at `off`. -/
def Node.write (nd : Node) (src : ℕ → Option UInt8) (off w : ℕ) : Node :=
  { nd with
    size := max nd.size (off + w)
    byte := fun o => if off ≤ o ∧ o < off + w then (src (o - off)).getD 0 else nd.byte o }

lemma Node.write_congr {nd : Node} {src src' : ℕ → Option UInt8} {off w : ℕ} (eq : ∀ i, i < w → src i = src' i) :
    nd.write src off w = nd.write src' off w := by
  simp only [Node.write, Node.mk.injEq, true_and]
  funext o
  split
  · rw [eq (o - off) (by omega)]
  · rfl

lemma Node.write_zero {nd : Node} {src : ℕ → Option UInt8} {off : ℕ} (le : off ≤ nd.size) : nd.write src off 0 = nd := by
  have none : ∀ o, ¬(off ≤ o ∧ o < off) := fun o h => by omega
  simp only [Node.write, none, if_false, Nat.add_zero, Nat.max_eq_left le]

lemma Node.write_append (nd : Node) (bs cs : List UInt8) (off : ℕ) :
    (nd.write (bs[·]?) off bs.length).write (cs[·]?) (off + bs.length) cs.length =
      nd.write ((bs ++ cs)[·]?) off (bs ++ cs).length := by
  simp only [Node.write, List.length_append, Node.mk.injEq, true_and]
  refine ⟨by omega, funext fun o => ?_⟩
  by_cases second : off + bs.length ≤ o
  · have sub : o - off - bs.length = o - (off + bs.length) := by omega
    rw [List.getElem?_append_right (by omega), sub]
    grind
  · by_cases first : off ≤ o
    · rw [List.getElem?_append_left (by omega)]
      grind
    · grind

variable {sb : Superblock} {s s' : State} {ip : Fin NINODE} {off n w : ℕ} {src : ℕ → Option UInt8}

lemma Node.Written.eq {nd nd' : Node} (W : Node.Written src off n w nd nd') (all : ∀ i, i < n → (src i).isSome) :
    nd' = nd.write src off w := by
  rw [W.fields, Node.write]
  congr 1
  funext o
  split
  · rename_i inside
    have byte := W.bytes (o - off) (by omega)
    rw [Nat.add_sub_cancel' inside.1] at byte
    rw [byte, Option.getD_some]
  · rename_i outside
    by_cases below : o < off
    · exact W.other o (by omega)
    · exact W.kept all o (by omega)

lemma writei_cases (O : Owned sb s.disk) (c : s.Clean ip) (lt : (s.itable ip).inum < sb.ninodes)
    (alloc : (s.itable ip).din.type ≠ .free) (all : ∀ i, i < n → (src i).isSome) :
    ∃ r s', writei sb ip src off n s = .ok (r, s') ∧
      (r = none ∧ s' = s ∧ (off > (s.itable ip).din.size ∨ (off + n) % 2 ^ 32 < off ∨ off + n > MAXFILE * BSIZE) ∨
        ∃ w, r = some w ∧ w ≤ n ∧ off ≤ (s.itable ip).din.size ∧ off + n ≤ MAXFILE * BSIZE ∧ Writes sb ip src s s' off n w ∧
          (w < n → s'.disk.Full sb)) := by
  apply exists_of_wp
  refine wp_writei O c lt alloc (fun range => .inl ⟨rfl, rfl, range⟩) fun w s₁ s' lo fits le ends eq W => ?_
  refine .inr ⟨w, rfl, le, lo, fits, W, fun more => ?_⟩
  rw [eq]
  exact (ends.stop more).elim (fun full => full.1) fun short => absurd (by simpa using all) short.not_all

/-- `readi` of a range that does not overflow, with a destination that can be written. -/
lemma readi_bytes {dst : ℕ → Bool} (O : Owned sb s.disk) (c : s.Clean ip) (lt : (s.itable ip).inum < sb.ninodes)
    (alloc : (s.itable ip).din.type ≠ .free) (range : ¬(off + n) % 2 ^ 32 < off)
    (all : ∀ i, i < min n ((s.itable ip).din.size - off) → dst i) :
    readi sb ip dst off n s = .ok (some ((List.range (min n ((s.itable ip).din.size - off))).map fun i =>
      (s.disk.node sb (s.itable ip).inum).byte (off + i)), s) := by
  have size : (s.disk.node sb (s.itable ip).inum).size = (s.itable ip).din.size := by rw [c]; rfl
  rw [readi_eq O c lt alloc, Node.readi, size]
  by_cases above : off > (s.itable ip).din.size
  · rw [if_pos (.inl above), show (s.itable ip).din.size - off = 0 by omega, Nat.min_zero]
    rfl
  · rw [if_neg (by omega)]
    exact congrArg (fun r => Except.ok (r, s)) (if_pos all)

lemma Writes.clean (W : Writes sb ip src s s' off n w) : s'.Clean ip := by
  rw [State.Clean, W.self]

lemma Writes.readi (W : Writes sb ip src s s' off n w) (lt : (s.itable ip).inum < sb.ninodes)
    (c : s.Clean ip) (alloc : (s.itable ip).din.type ≠ .free) (all : ∀ i, i < n → (src i).isSome)
    (fits : off + w ≤ MAXFILE * BSIZE) :
    Fs.readi sb ip (fun _ => true) off w s' = .ok (some ((List.range w).map fun i => (src i).getD 0), s') := by
  have inum : (s'.itable ip).inum = (s.itable ip).inum := by rw [W.self]
  have file := W.file.eq all
  have type : (s'.itable ip).din.type = (s.itable ip).din.type := by
    rw [W.self, c]
    exact congrArg Node.type file
  have size : (s'.itable ip).din.size = max (s.itable ip).din.size (off + w) := by
    rw [W.self, c]
    exact congrArg Node.size file
  have small : MAXFILE * BSIZE < 2 ^ 32 := by decide
  have count : min w ((s'.itable ip).din.size - off) = w := by omega
  rw [readi_bytes W.owned W.clean (inum ▸ lt) (type ▸ alloc) (by omega) fun _ _ => rfl, count, inum, file]
  refine congrArg (fun bs => Except.ok (some bs, s')) (List.map_congr_left fun i mem => ?_)
  have li := List.mem_range.1 mem
  rw [Node.write]
  simp only
  rw [if_pos (by omega), Nat.add_sub_cancel_left]

/-- Files are arrays of bytes. For an inode in memory that is as on the disk, and 32-bit numbers `off` and `n`: a write of
which the source can be read is the write of its first `tot` bytes, where `tot < n` only if no block is free, and a read
after it returns what has been written; it fails, and nothing changes, iff the range is bad. A read returns the bytes of the
range that are there and changes nothing, or nothing if the range overflows. -/
theorem file_content (O : Owned sb s.disk) (c : s.Clean ip) (lt : (s.itable ip).inum < sb.ninodes)
    (alloc : (s.itable ip).din.type ≠ .free) (off32 : off < 2 ^ 32) (n32 : n < 2 ^ 32) :
    (∀ src : ℕ → Option UInt8, (∀ i, i < n → (src i).isSome) → ∃ r s', writei sb ip src off n s = .ok (r, s') ∧
      (r = none ↔ off > (s.itable ip).din.size ∨ 2 ^ 32 ≤ off + n ∨ off + n > MAXFILE * BSIZE) ∧ (r = none → s' = s) ∧
      ∀ tot, r = some tot → tot ≤ n ∧ (tot < n → s'.disk.Full sb) ∧ Owned sb s'.disk ∧
        s'.disk.node sb (s.itable ip).inum = (s.disk.node sb (s.itable ip).inum).write src off tot ∧
        (∀ m, m ≠ (s.itable ip).inum → s'.disk.files sb m = s.disk.files sb m) ∧
        readi sb ip (fun _ => true) off tot s' = .ok (some ((List.range tot).map fun i => (src i).getD 0), s')) ∧
    ∀ dst : ℕ → Bool, (∀ i, i < min n ((s.itable ip).din.size - off) → dst i) →
      readi sb ip dst off n s = .ok (if 2 ^ 32 ≤ off + n then some [] else
        some ((List.range (min n ((s.itable ip).din.size - off))).map fun i =>
          (s.disk.node sb (s.itable ip).inum).byte (off + i)), s) := by
  have overflow : (off + n) % 2 ^ 32 < off ↔ 2 ^ 32 ≤ off + n := by omega
  constructor
  · intro src all
    obtain ⟨r, t, eq, ⟨rfl, same, range⟩ | ⟨w, rfl, le, lo, fits, W, full⟩⟩ := writei_cases O c lt alloc all
    · refine ⟨none, t, eq, ⟨fun _ => by rwa [overflow] at range, fun _ => rfl⟩, fun _ => same, fun tot h => ?_⟩
      cases h
    · refine ⟨some w, t, eq, ⟨nofun, fun range => ?_⟩, nofun, ?_⟩
      · have small : MAXFILE * BSIZE < 2 ^ 32 := by decide
        omega
      · rintro tot ⟨⟩
        exact ⟨le, full, W.owned, W.file.eq all, W.files, W.readi lt c alloc all (by omega)⟩
  · intro dst all
    split
    · rename_i large
      rw [readi_eq O c lt alloc, Node.readi, if_pos (.inr (overflow.2 large))]
    · rename_i under
      exact readi_bytes O c lt alloc (mt overflow.1 under) all

/-- A disk with one file of two bytes, whose block is the only data block. -/
def smallDisk : Disk where
  bitmap _ := true
  inodes n := if n = 1 then ⟨.file, 0, 0, 1, 2, fun k => if k = 0 then 3 else 0⟩ else ⟨.free, 0, 0, 0, 0, fun _ => 0⟩
  blocks _ _ := 0

def smallSb : Superblock := ⟨4, 1, 2, by decide, by decide, by decide, by decide⟩

/-- The file is in memory, and open for reading and writing. -/
def smallState : State where
  disk := smallDisk
  unlogged _ := none
  itable ip := if ip = 0 then ⟨1, 1, true, smallDisk.inodes 1⟩ else ⟨0, 0, false, smallDisk.inodes 0⟩
  ftable f := if f = 0 then ⟨.inode, 1, true, true, 0, 0, 0⟩ else ⟨.none, 0, false, false, 0, 0, 0⟩
  procs _ := ⟨.used, none, fun _ => some 0⟩

lemma smallDisk_slots (k : ℕ × Slot) : smallDisk.slots smallSb k = if k = (1, .addr 0) then 3 else 0 := by
  obtain ⟨n, l⟩ := k
  by_cases one : n = 1
  · subst one
    cases l with
    | addr k =>
      by_cases zero : k = 0
      · subst zero
        rfl
      · simp [Disk.slots, Disk.addr, smallDisk, zero]
    | entry j => simp [Disk.slots, Disk.addr, smallDisk]
  · simp [Disk.slots, smallDisk, one]

lemma smallDisk_owned : Owned smallSb smallDisk := by
  refine ⟨⟨by decide, ?_, ?_, ?_⟩, ?_⟩
  · intro k ne
    rw [smallDisk_slots] at ne ⊢
    split at ne
    · rename_i eq
      rw [if_pos eq]
      decide
    · exact absurd rfl ne
  · intro k l ne eq
    simp only [smallDisk_slots] at ne eq
    grind
  · intro b lt
    refine iff_of_true rfl ?_
    by_cases reserved : b < 3
    · exact .inl reserved
    · have small : b < 4 := lt
      exact .inr ⟨(1, .addr 0), by simp [smallDisk_slots], by simp [smallDisk_slots]; omega⟩
  · intro n _ alloc
    by_cases one : n = 1
    · subst one
      refine ⟨by decide, fun off lt => ?_⟩
      have small : off < 2 := lt
      have block : off / BSIZE = 0 := Nat.div_eq_of_lt (by simp only [BSIZE]; omega)
      rw [block, smallDisk_slots]
      decide
    · simp [smallDisk, one] at alloc

/-- A write that begins at the second byte of the file and goes beyond its end, and a read of what it has written. -/
theorem file_content_small : ∃ tot s', tot ≤ 2 ∧
    writei smallSb 0 (fun i => some (UInt8.ofNat (i + 7))) 1 2 smallState = .ok (some tot, s') ∧
    readi smallSb 0 (fun _ => true) 1 tot s' = .ok (some ((List.range tot).map fun i => UInt8.ofNat (i + 7)), s') := by
  have content := @file_content smallSb smallState 0 1 2 smallDisk_owned rfl (by decide) (by decide) (by decide) (by decide)
  obtain ⟨r, s', eq, fails, -, done⟩ := content.1 (fun i => some (UInt8.ofNat (i + 7))) fun _ _ => rfl
  cases r with
  | none => exact absurd (fails.1 rfl) (by decide)
  | some tot =>
    obtain ⟨le, -, -, -, -, read⟩ := done tot rfl
    exact ⟨tot, s', le, eq, read⟩

/-- A read of `2 ^ 32 - 1` bytes at offset 1 returns nothing, although there is a byte. -/
theorem readi_overflow : Owned smallSb smallState.disk ∧ smallState.Clean 0 ∧ (smallState.itable 0).din.size = 2 ∧
    readi smallSb 0 (fun _ => true) 1 (2 ^ 32 - 1) smallState = .ok (some [], smallState) := by
  have c : smallState.Clean 0 := rfl
  refine ⟨smallDisk_owned, c, rfl, ?_⟩
  rw [readi_eq smallDisk_owned c (by decide) (by decide), Node.readi, if_pos (.inr (by decide))]

end Xv6.Fs
