import Xv6.Fs.Block
import Mathlib.Data.List.TakeWhile

/-!
# Files

What `readi` and `writei` do, seen from above: the disk is a set of files (`Disk.files`), each with its type, its
number of links and its bytes. `readi` changes nothing, as every block below the size of a file is there. `writei`
changes the bytes of one file, and allocates blocks for it.
-/

namespace Xv6.Fs

open Fallible

/-- A file. There is a byte for every offset, which is 0 beyond the size. -/
@[ext]
structure Node where
  type : FileType
  major : BitVec 16
  minor : BitVec 16
  nlink : BitVec 16
  size : ℕ
  byte : ℕ → UInt8

/-- The byte of an inode at an offset. -/
def Disk.byte (sb : Superblock) (D : Disk) (n off : ℕ) : UInt8 :=
  (D.blocks (D.slots sb (n, slotOf (off / BSIZE)))).get8 (off % BSIZE)

/-- The file of an inode with given fields. -/
def Disk.node (sb : Superblock) (D : Disk) (n : ℕ) : Node where
  type := (D.inodes n).type
  major := (D.inodes n).major
  minor := (D.inodes n).minor
  nlink := (D.inodes n).nlink
  size := (D.inodes n).size
  byte off := if off < (D.inodes n).size then D.byte sb n off else 0

def Disk.files (sb : Superblock) (D : Disk) (n : ℕ) : Option Node :=
  if n < sb.ninodes ∧ (D.inodes n).type ≠ .free then some (D.node sb n) else none

/-- The blocks of a file are there. -/
def Disk.Mapped (sb : Superblock) (D : Disk) (n : ℕ) : Prop :=
  (D.inodes n).size ≤ MAXFILE * BSIZE ∧ ∀ off, off < (D.inodes n).size → D.slots sb (n, slotOf (off / BSIZE)) ≠ 0

/-- The free map is exact, and the blocks of every file are there. -/
structure Owned (sb : Superblock) (D : Disk) : Prop where
  sound : Sound sb D
  mapped : ∀ n, n < sb.ninodes → (D.inodes n).type ≠ .free → D.Mapped sb n

variable {sb : Superblock} {P : Panic → Prop} {s s' t : State} {D D' : Disk} {ip : Fin NINODE} {n b k j off tot : ℕ}
  {l l' : Slot} {src : ℕ → Option UInt8}

lemma slotOf_inj {a b : ℕ} (eq : slotOf a = slotOf b) : a = b := by
  unfold slotOf at eq
  split at eq <;> split at eq <;> simp at eq <;> omega

lemma block_lt (lt : off < MAXFILE * BSIZE) : off / BSIZE < MAXFILE :=
  (Nat.div_lt_iff_lt_mul (by decide)).mpr lt

lemma slots_blocks (data : ∀ n, D.slots sb (n, .addr NDIRECT) ≠ 0 → D.slots sb (n, .addr NDIRECT) ≠ b) (blk : Block) :
    Disk.slots sb { D with blocks := Function.update D.blocks b blk } = D.slots sb := by
  funext ⟨m, i⟩
  by_cases h : m < sb.ninodes ∧ (D.inodes m).type ≠ .free ∧ i.Ok
  · simp only [Disk.slots, if_pos h]
    cases i with
    | addr k => rfl
    | entry j =>
      simp only [Disk.addr]
      split
      · rfl
      · rename_i ind
        have own : D.slots sb (m, .addr NDIRECT) = (D.inodes m).addrs NDIRECT :=
          Disk.slots_eq (l := .addr NDIRECT) h.1 h.2.1 (Nat.le_refl NDIRECT)
        rw [Function.update_of_ne (own ▸ data m (own ▸ ind))]
  · simp only [Disk.slots, if_neg h]

lemma Sound.data_ne (S : Sound sb D) (data : l ≠ .addr NDIRECT) (m) (ne : D.slots sb (m, .addr NDIRECT) ≠ 0) :
    D.slots sb (m, .addr NDIRECT) ≠ D.slots sb (n, l) := by
  intro eq
  exact data (congrArg Prod.snd (S.inj ne eq)).symm

/-- What a write of `w` out of `n` bytes at `off` does, from byte `tot` of the source on. If not all bytes of the
source can be read, the bytes after those written may have changed too. -/
structure Wrote (sb : Superblock) (ip : Fin NINODE) (src : ℕ → Option UInt8) (s s' : State) (off tot n w : ℕ) :
    Prop where
  inodes : s'.disk.inodes = s.disk.inodes
  ftable : s'.ftable = s.ftable
  procs : s'.procs = s.procs
  others : ∀ j, j ≠ ip → s'.itable j = s.itable j
  self : ∃ addrs, s'.itable ip = { s.itable ip with din := { (s.itable ip).din with addrs := addrs } }
  sound : Sound sb (s'.flush ip)
  slots : ∀ k, (s.flush ip).slots sb k ≠ 0 → (s'.flush ip).slots sb k = (s.flush ip).slots sb k
  mapped : ∀ i, i < w → (s'.flush ip).slots sb ((s.itable ip).inum, slotOf ((off + i) / BSIZE)) ≠ 0
  written : ∀ i, i < w → src (tot + i) = some ((s'.flush ip).byte sb (s.itable ip).inum (off + i))
  bytes : ∀ m o, (s.flush ip).slots sb (m, slotOf (o / BSIZE)) ≠ 0 → o / BSIZE < MAXFILE →
    ¬(m = (s.itable ip).inum ∧ off ≤ o ∧ o < off + n) → (s'.flush ip).byte sb m o = (s.flush ip).byte sb m o
  kept : (∀ i, i < n → (src (tot + i)).isSome) → ∀ o, (s.flush ip).slots sb ((s.itable ip).inum, slotOf (o / BSIZE)) ≠ 0 →
    o / BSIZE < MAXFILE → off + w ≤ o → (s'.flush ip).byte sb (s.itable ip).inum o = (s.flush ip).byte sb (s.itable ip).inum o
  zero : (∀ i, i < n → (src (tot + i)).isSome) → ∀ o, (s.flush ip).slots sb ((s.itable ip).inum, slotOf (o / BSIZE)) = 0 →
    (s'.flush ip).slots sb ((s.itable ip).inum, slotOf (o / BSIZE)) ≠ 0 → o / BSIZE < MAXFILE → off + w ≤ o →
    (s'.flush ip).byte sb (s.itable ip).inum o = 0
  unlogged : ∀ k, s'.unlogged ((s'.flush ip).slots sb k) = none ∨
    (s'.flush ip).slots sb k = (s.flush ip).slots sb k ∧
      s'.unlogged ((s'.flush ip).slots sb k) = s.unlogged ((s.flush ip).slots sb k) ∨
    k.1 = (s.itable ip).inum ∧ k.2 ≠ .addr NDIRECT ∧ ¬∀ i, i < n → (src (tot + i)).isSome
  settled : (∀ i, i < n → (src (tot + i)).isSome) → s.Settled → s'.Settled

lemma Grows.byte {m o} (g : Grows sb ip s s') (ne : (s.flush ip).slots sb (m, slotOf (o / BSIZE)) ≠ 0)
    (lt : o / BSIZE < MAXFILE) : (s'.flush ip).byte sb m o = (s.flush ip).byte sb m o := by
  rw [Disk.byte, Disk.byte, g.slots _ ne]
  exact congrArg (ByteVec.get8 · _) (g.data m _ (slotOf_ok lt).2 ne)

lemma Grows.wrote (g : Grows sb ip s s') (S : Sound sb (s'.flush ip)) : Wrote sb ip src s s' off tot n 0 where
  inodes := g.inodes
  ftable := g.ftable
  procs := g.procs
  others := g.others
  self := g.self
  sound := S
  slots := g.slots
  mapped i lt := absurd lt (Nat.not_lt_zero i)
  written i lt := absurd lt (Nat.not_lt_zero i)
  bytes m o ne lt _ := g.byte ne lt
  kept _ o ne lt _ := g.byte ne lt
  zero _ o none ne lt _ := by
    rw [Disk.byte]
    exact (congrArg (ByteVec.get8 · _) (g.zero _ _ (slotOf_ok lt).2 none ne)).trans ByteVec.get8_zero
  unlogged k := by
    rcases g.unlogged k with none | same
    · exact .inl none
    · exact .inr (.inl same)
  settled _ := g.settled

/-- The disk after some bytes have been stored in the block of an inode that has offset `off`. -/
def Disk.put (sb : Superblock) (D : Disk) (n off : ℕ) (bs : List UInt8) : Disk :=
  let a := D.slots sb (n, slotOf (off / BSIZE))
  { D with blocks := Function.update D.blocks a ((D.blocks a).putBytes (off % BSIZE) bs) }

section

variable {bs : List UInt8} {m o : ℕ}

lemma same_block (le : off ≤ o) (lt : o < off + k) (room : off % BSIZE + k ≤ BSIZE) :
    o / BSIZE = off / BSIZE ∧ o % BSIZE = off % BSIZE + (o - off) := by
  have := Nat.div_add_mod off BSIZE
  have eq : o = BSIZE * (off / BSIZE) + (off % BSIZE + (o - off)) := by omega
  have small : off % BSIZE + (o - off) < BSIZE := by omega
  constructor
  · rw [eq, Nat.mul_add_div (by decide), Nat.div_eq_of_lt small, Nat.add_zero]
  · rw [eq, Nat.mul_add_mod, Nat.mod_eq_of_lt small]
    omega

lemma blocks_put : (D.put sb n off bs).blocks =
    Function.update D.blocks (D.slots sb (n, slotOf (off / BSIZE)))
      ((D.blocks (D.slots sb (n, slotOf (off / BSIZE)))).putBytes (off % BSIZE) bs) := rfl

lemma slots_put (S : Sound sb D) (lt : off / BSIZE < MAXFILE) : (D.put sb n off bs).slots sb = D.slots sb :=
  slots_blocks (S.data_ne (slotOf_ok lt).2) _

lemma byte_put (S : Sound sb D) (lt : off / BSIZE < MAXFILE) (room : off % BSIZE + bs.length ≤ BSIZE)
    (le : off ≤ o) (lo : o < off + bs.length) : (D.put sb n off bs).byte sb n o = bs.getD (o - off) 0 := by
  obtain ⟨div, mod⟩ := same_block le lo room
  rw [Disk.byte, slots_put S lt, div, mod, blocks_put, Function.update_self,
    ByteVec.get8_putBytes room (by omega) (by omega)]
  congr 1
  omega

lemma byte_put_ne (S : Sound sb D) (lt : off / BSIZE < MAXFILE)
    (ne : D.slots sb (m, slotOf (o / BSIZE)) ≠ 0) (out : ¬(m = n ∧ off ≤ o ∧ o < off + bs.length)) :
    (D.put sb n off bs).byte sb m o = D.byte sb m o := by
  rw [Disk.byte, slots_put S lt, blocks_put, Disk.byte]
  by_cases eq : D.slots sb (m, slotOf (o / BSIZE)) = D.slots sb (n, slotOf (off / BSIZE))
  · have key := S.inj ne eq
    obtain rfl : m = n := congrArg Prod.fst key
    have div : o / BSIZE = off / BSIZE := slotOf_inj (congrArg Prod.snd key)
    rw [eq, Function.update_self]
    refine ByteVec.get8_putBytes_ne ?_
    have := Nat.div_add_mod off BSIZE
    have := Nat.div_add_mod o BSIZE
    rw [div] at this
    omega
  · rw [Function.update_of_ne eq]

lemma Wrote.store {w} {u : Option Block} (S : Sound sb (s.flush ip)) (lt : off / BSIZE < MAXFILE)
    (ne : b ≠ 0) (own : (s.flush ip).slots sb ((s.itable ip).inum, slotOf (off / BSIZE)) = b)
    (room : off % BSIZE + bs.length ≤ BSIZE) (le : bs.length ≤ n)
    (done : w = bs.length ∧ (∀ i, i < w → src (tot + i) = some (bs.getD i 0)) ∧ u = none ∨
      w = 0 ∧ ¬∀ i, i < n → (src (tot + i)).isSome) :
    Wrote sb ip src s (s.store b ((s.disk.blocks b).putBytes (off % BSIZE) bs) u) off tot n w := by
  have disk : (s.store b ((s.disk.blocks b).putBytes (off % BSIZE) bs) u).flush ip =
      (s.flush ip).put sb (s.itable ip).inum off bs := by
    rw [Disk.put, own]
    rfl
  have slots := congrArg (Disk.slots sb) disk
  rw [slots_put S lt] at slots
  have nz : (s.flush ip).slots sb ((s.itable ip).inum, slotOf (off / BSIZE)) ≠ 0 := own.symm ▸ ne
  have small : w ≤ bs.length := by omega
  constructor
  case inodes => rfl
  case ftable => rfl
  case procs => rfl
  case others => exact fun _ _ => rfl
  case self => exact ⟨_, rfl⟩
  case sound =>
    rw [Sound, slots]
    exact S
  case slots => exact fun k _ => congrFun slots k
  case mapped =>
    intro i li
    rw [slots, (same_block (Nat.le_add_right off i) (by omega) room).1]
    exact nz
  case written =>
    intro i li
    obtain ⟨rfl, eq, -⟩ | ⟨rfl, -⟩ := done
    · rw [eq i li, disk, byte_put S lt room (by omega) (by omega), Nat.add_sub_cancel_left]
    · omega
  case bytes =>
    intro m o nz _ out
    rw [disk, byte_put_ne S lt nz (by omega)]
  case kept =>
    intro all o nz _ ge
    obtain ⟨rfl, -, -⟩ | ⟨rfl, bad⟩ := done
    · rw [disk, byte_put_ne S lt nz (by omega)]
    · exact absurd all bad
  case zero =>
    intro _ o none some
    rw [slots] at some
    exact absurd none some
  case settled =>
    intro all old
    obtain ⟨-, -, rfl⟩ | ⟨-, bad⟩ := done
    · exact old.store
    · exact absurd all bad
  case unlogged =>
    intro k
    rw [slots]
    by_cases eq : (s.flush ip).slots sb k = b
    · obtain rfl := S.inj nz (own.trans eq.symm)
      obtain ⟨-, -, rfl⟩ | ⟨-, bad⟩ := done
      · exact .inl (by simp [State.store, eq])
      · exact .inr (.inr ⟨rfl, (slotOf_ok lt).2, bad⟩)
    · exact .inr (.inl ⟨rfl, Function.update_of_ne eq _ _⟩)

lemma Wrote.trans {m w} (g : Wrote sb ip src s s' off tot m m) (h : Wrote sb ip src s' t (off + m) (tot + m) (n - m) w)
    (le : m ≤ n) (fits : off + n ≤ MAXFILE * BSIZE) : Wrote sb ip src s t off tot n (m + w) := by
  obtain ⟨addrs, self⟩ := g.self
  have inum : (s'.itable ip).inum = (s.itable ip).inum := by rw [self]
  -- what can be read of the source
  have first : (∀ i, i < n → (src (tot + i)).isSome) → ∀ i, i < m → (src (tot + i)).isSome :=
    fun all i li => all i (by omega)
  have rest : (∀ i, i < n → (src (tot + i)).isSome) → ∀ i, i < n - m → (src (tot + m + i)).isSome := by
    intro all i li
    have := all (m + i) (by omega)
    rwa [← Nat.add_assoc] at this
  constructor
  case inodes => exact h.inodes.trans g.inodes
  case ftable => exact h.ftable.trans g.ftable
  case procs => exact h.procs.trans g.procs
  case others => exact fun j ne => (h.others j ne).trans (g.others j ne)
  case self =>
    obtain ⟨addrs', self'⟩ := h.self
    exact ⟨addrs', by rw [self', self]⟩
  case sound => exact h.sound
  case slots =>
    intro k ne
    have old := g.slots k ne
    rw [h.slots k (old ▸ ne), old]
  case mapped =>
    intro i li
    by_cases lm : i < m
    · rw [h.slots _ (g.mapped i lm)]
      exact g.mapped i lm
    · have := h.mapped (i - m) (by omega)
      rwa [inum, show off + m + (i - m) = off + i by omega] at this
  case written =>
    intro i li
    by_cases lm : i < m
    · rw [g.written i lm, h.bytes _ _ (g.mapped i lm) (block_lt (by omega)) (by omega)]
    · have := h.written (i - m) (by omega)
      rwa [inum, show off + m + (i - m) = off + i by omega, show tot + m + (i - m) = tot + i by omega] at this
  case bytes =>
    intro k o ne lt out
    have mid := g.slots _ ne
    rw [h.bytes k o (mid ▸ ne) lt (by rw [inum]; omega), g.bytes k o ne lt (by omega)]
  case kept =>
    intro all o ne lt ge
    have mid := g.slots _ ne
    have := h.kept (rest all) o (by rw [inum]; exact mid ▸ ne) lt (by omega)
    rw [inum] at this
    rw [this, g.kept (first all) o ne lt (by omega)]
  case zero =>
    intro all o none some lt ge
    by_cases mid : (s'.flush ip).slots sb ((s.itable ip).inum, slotOf (o / BSIZE)) = 0
    · have := h.zero (rest all) o (by rwa [inum]) (by rwa [inum]) lt (by omega)
      rwa [inum] at this
    · have := h.kept (rest all) o (by rwa [inum]) lt (by omega)
      rw [inum] at this
      rw [this, g.zero (first all) o none mid lt (by omega)]
  case settled => exact fun all old => h.settled (rest all) (g.settled (first all) old)
  case unlogged =>
    intro k
    rcases h.unlogged k with none | ⟨slot, eq⟩ | ⟨own, data, bad⟩
    · exact .inl none
    · rw [slot] at eq ⊢
      rw [eq]
      rcases g.unlogged k with none | same | ⟨own, data, bad⟩
      · exact .inl none
      · exact .inr (.inl same)
      · exact .inr (.inr ⟨own, data, fun all => bad (first all)⟩)
    · exact .inr (.inr ⟨own.trans inum, data, fun all => bad (rest all)⟩)

end

lemma copyin_length_le {m} : (copyin src tot m).length ≤ m := by
  have := (List.takeWhile_sublist (fun i => (src (tot + i)).isSome) (l := List.range m)).length_le
  simpa [copyin] using this

lemma copyin_full {m i} (full : (copyin src tot m).length = m) (lt : i < m) :
    src (tot + i) = some ((copyin src tot m).getD i 0) := by
  have all : (List.range m).takeWhile (fun i => (src (tot + i)).isSome) = List.range m := by
    refine (List.takeWhile_prefix _).eq_of_length ?_
    simpa [copyin] using full
  have some : (src (tot + i)).isSome := List.takeWhile_eq_self_iff.mp all i (List.mem_range.mpr lt)
  obtain ⟨v, eq⟩ := Option.isSome_iff_exists.mp some
  rw [copyin, all]
  simp [lt, eq]

lemma copyin_short {m} (short : (copyin src tot m).length ≠ m) : ¬∀ i, i < m → (src (tot + i)).isSome := by
  intro all
  refine short ?_
  have : (List.range m).takeWhile (fun i => (src (tot + i)).isSome) = List.range m :=
    List.takeWhile_eq_self_iff.mpr fun i mem => all i (List.mem_range.mp mem)
  simp [copyin, this]

/-- The slots that a write of `n` bytes at `off` may fill. -/
def Spans (off n : ℕ) (l : Slot) : Prop := ∃ i, i < n ∧ Covers ((off + i) / BSIZE) l

/-- Slots that refer to a block afterwards have done so before, or are some of the write of `n` bytes at `off`. -/
def Fresh (sb : Superblock) (ip : Fin NINODE) (off n : ℕ) (s s' : State) : Prop :=
  ∀ k, (s'.flush ip).slots sb k ≠ 0 → (s.flush ip).slots sb k ≠ 0 ∨ k.1 = (s.itable ip).inum ∧ Spans off n k.2

/-- The write of `n` bytes stops after `w` bytes because the source cannot be read: the bytes of the next block up to the first
that cannot be read are in the buffer, which has not been passed to `log_write`. -/
def Short (sb : Superblock) (ip : Fin NINODE) (src : ℕ → Option UInt8) (s s' : State) (off tot n w : ℕ) : Prop :=
  ∃ s₁ a m, Wrote sb ip src s s₁ off tot w w ∧ m = min (n - w) (BSIZE - (off + w) % BSIZE) ∧ a ≠ 0 ∧
    (s₁.flush ip).slots sb ((s.itable ip).inum, slotOf ((off + w) / BSIZE)) = a ∧ (copyin src (tot + w) m).length < m ∧
    s' = s₁.store a ((s₁.disk.blocks a).putBytes ((off + w) % BSIZE) (copyin src (tot + w) m))
      (some ((s₁.unlogged a).getD (s₁.disk.blocks a)))

/-- How the loop of `writei` ends: it has written all bytes, or none, or those up to the end of a block, where there is no
free block or the source cannot be read. -/
structure Ends (sb : Superblock) (ip : Fin NINODE) (src : ℕ → Option UInt8) (s s' : State) (off tot n w : ℕ) : Prop where
  wrote : Wrote sb ip src s s' off tot n w
  fresh : Fresh sb ip off n s s'
  last : w < n → w = 0 ∨ (off + w) % BSIZE = 0
  stop : w < n → s'.disk.Full sb ∧ (s'.flush ip).slots sb ((s.itable ip).inum, slotOf ((off + w) / BSIZE)) = 0 ∨
    Short sb ip src s s' off tot n w

section

variable {m w : ℕ}

lemma Maps.fresh_write {a : ℕ} {l : Slot} (maps : Maps sb ip (Covers (off / BSIZE)) l s a s') (pos : 0 < n) :
    Fresh sb ip off n s s' :=
  fun k ne => (maps.fresh k ne).imp_right fun new => ⟨new.1, 0, pos, new.2⟩

lemma Fresh.trans (g : Fresh sb ip off n s s') (h : Fresh sb ip (off + m) (n - m) s' t) (le : m ≤ n)
    (inum : (s'.itable ip).inum = (s.itable ip).inum) : Fresh sb ip off n s t := by
  intro k ne
  obtain old | ⟨eq, i, li, covers⟩ := h k ne
  · exact g k old
  · rw [Nat.add_assoc] at covers
    exact .inr ⟨eq.trans inum, m + i, by omega, covers⟩

lemma Fresh.store (g : Fresh sb ip off n s s') (S : Sound sb (s'.flush ip)) {bn : ℕ} (lt : bn < MAXFILE)
    (own : (s'.flush ip).slots sb ((s'.itable ip).inum, slotOf bn) = b) (blk : Block) (u : Option Block) :
    Fresh sb ip off n s (s'.store b blk u) := by
  have slots : ((s'.store b blk u).flush ip).slots sb = (s'.flush ip).slots sb :=
    slots_blocks (own ▸ S.data_ne (slotOf_ok lt).2) blk
  intro k ne
  rw [slots] at ne
  exact g k ne

lemma Short.not_all (h : Short sb ip src s s' off tot n w) : ¬∀ i, i < n → (src (tot + i)).isSome := by
  obtain ⟨s₁, a, m, -, rfl, -, -, short, -⟩ := h
  intro all
  refine copyin_short (Nat.ne_of_lt short) fun i li => ?_
  rw [Nat.add_assoc]
  exact all (w + i) (by omega)

lemma Short.cons (g : Wrote sb ip src s s' off tot m m) (h : Short sb ip src s' t (off + m) (tot + m) (n - m) w)
    (le : m + w ≤ n) (fits : off + n ≤ MAXFILE * BSIZE) : Short sb ip src s t off tot n (m + w) := by
  obtain ⟨addrs, self⟩ := g.self
  have inum : (s'.itable ip).inum = (s.itable ip).inum := by rw [self]
  obtain ⟨s₁, a, k, wrote, rfl, ne, slot, short, eq⟩ := h
  rw [inum] at slot
  rw [Nat.sub_sub, Nat.add_assoc, Nat.add_assoc] at *
  have wrote : Wrote sb ip src s' s₁ (off + m) (tot + m) (m + w - m) w := by rwa [Nat.add_sub_cancel_left]
  exact ⟨s₁, a, _, g.trans wrote (Nat.le_add_right m w) (by omega), rfl, ne, slot, short, eq⟩

end

lemma wp_writeLoop {Q : ℕ × ℕ → State → Prop} (S : Sound sb (s.flush ip)) (lt : (s.itable ip).inum < sb.ninodes)
    (alloc : (s.itable ip).din.type ≠ .free) (fits : off + n ≤ MAXFILE * BSIZE)
    (h : ∀ w s', w ≤ n → Ends sb ip src s s' off tot n w → Q (off + w, tot + w) s') :
    wp P (writeLoop sb ip src off n tot) Q s := by
  induction n using Nat.strongRecOn generalizing s off tot Q with
  | ind n ih =>
    unfold writeLoop
    split
    · refine h 0 s (Nat.zero_le _) ⟨Grows.refl.wrote S, fun k ne => .inl ne, fun _ => .inl rfl, fun _ => by omega⟩
    · rename_i pos
      have lb : off / BSIZE < MAXFILE := block_lt (by omega)
      rw [wp_bind]
      refine wp_bmap S lt alloc lb fun a s₁ maps => ?_
      have g := maps.grows
      have S₁ := maps.sound
      have fresh : Fresh sb ip off n s s₁ := maps.fresh_write (by omega)
      split
      · rename_i zero
        refine h 0 s₁ (Nat.zero_le _) ⟨g.wrote S₁, fresh, fun _ => .inl rfl, fun _ => .inl ⟨maps.full zero, ?_⟩⟩
        exact maps.addr.trans zero
      · rename_i ne
        obtain ⟨addrs, self⟩ := g.self
        have inum : (s₁.itable ip).inum = (s.itable ip).inum := by rw [self]
        have type : (s₁.itable ip).din.type = (s.itable ip).din.type := by rw [self]
        have own : (s₁.flush ip).slots sb ((s₁.itable ip).inum, slotOf (off / BSIZE)) = a := by rw [inum, maps.addr]
        have mod : off % BSIZE < BSIZE := Nat.mod_lt _ (by decide)
        have grown : Wrote sb ip src s s₁ off tot 0 0 := g.wrote S₁
        simp only [bread, wp_bind, wp_get, wp_pure]
        generalize eqm : min n (BSIZE - off % BSIZE) = m
        have len : (copyin src tot m).length ≤ m := copyin_length_le
        have room : off % BSIZE + (copyin src tot m).length ≤ BSIZE := by omega
        split
        · rename_i full
          have step : Wrote sb ip src s₁ (s₁.store a _ none) off tot m m := .store S₁ lb ne own room len
            (.inl ⟨full.symm, fun i li => copyin_full full li, rfl⟩)
          have chunk := grown.trans step (Nat.zero_le _) (by omega)
          rw [Nat.zero_add] at chunk
          have stored := fresh.store S₁ lb own ((s₁.disk.blocks a).putBytes (off % BSIZE) (copyin src tot m)) none
          refine ih (n - m) (by omega) chunk.sound (inum ▸ lt) (type ▸ alloc) (by omega) fun w s' le ends => ?_
          rw [Nat.add_assoc, Nat.add_assoc]
          refine h (m + w) s' (by omega) ⟨chunk.trans ends.wrote (by omega) fits, stored.trans ends.fresh (by omega) inum, ?_, ?_⟩
          · intro more
            right
            rcases ends.last (by omega) with rfl | last
            · -- the first block is full
              have := Nat.div_add_mod off BSIZE
              rw [show off + (m + 0) = BSIZE * (off / BSIZE + 1) by rw [Nat.mul_add]; omega]
              exact Nat.mul_mod_right _ _
            · rwa [Nat.add_assoc] at last
          · intro more
            refine (ends.stop (by omega)).imp (fun stop => ⟨stop.1, ?_⟩) fun short => short.cons chunk (by omega) fits
            have slot : (s'.flush ip).slots sb ((s₁.itable ip).inum, slotOf ((off + m + w) / BSIZE)) = 0 := stop.2
            rwa [inum, Nat.add_assoc] at slot
        · rename_i part
          have step : Wrote sb ip src s₁ (s₁.store a _ (some ((s₁.unlogged a).getD (s₁.disk.blocks a)))) off tot n 0 :=
            .store S₁ lb ne own room (by omega)
            (.inr ⟨rfl, fun all => copyin_short part fun i li => all i (by omega)⟩)
          refine h 0 _ (Nat.zero_le _) ⟨grown.trans step (Nat.zero_le _) (by omega), ?_, fun _ => .inl rfl, fun _ => .inr ?_⟩
          · exact fresh.store S₁ lb own _ _
          · exact ⟨s₁, a, m, grown, eqm.symm, ne, maps.addr, show (copyin src tot m).length < m by omega, rfl⟩

lemma Disk.slots_fields (types : ∀ m, (D'.inodes m).type = (D.inodes m).type)
    (addrs : ∀ m, (D'.inodes m).addrs = (D.inodes m).addrs) (blocks : D'.blocks = D.blocks) :
    D'.slots sb = D.slots sb := by
  funext ⟨m, l⟩
  simp only [Disk.slots, types]
  split
  · cases l <;> simp only [Disk.addr, addrs, blocks]
  · rfl

/-- An inode in memory that is as on the disk. -/
def State.Clean (s : State) (ip : Fin NINODE) : Prop := (s.itable ip).din = s.disk.inodes (s.itable ip).inum

lemma State.Clean.flush (c : s.Clean ip) : s.flush ip = s.disk := by
  rw [State.flush, c, Function.update_eq_self]

/-- A file after a write of `w` out of `n` bytes at `off`. -/
structure Node.Written (src : ℕ → Option UInt8) (off n w : ℕ) (nd nd' : Node) : Prop where
  fields : nd' = { nd with size := max nd.size (off + w), byte := nd'.byte }
  bytes : ∀ i, i < w → src i = some (nd'.byte (off + i))
  other : ∀ o, ¬(off ≤ o ∧ o < off + n) → nd'.byte o = nd.byte o
  kept : (∀ i, i < n → (src i).isSome) → ∀ o, off + w ≤ o → nd'.byte o = nd.byte o

/-- What `writei` does. -/
structure Writes (sb : Superblock) (ip : Fin NINODE) (src : ℕ → Option UInt8) (s s' : State) (off n w : ℕ) :
    Prop where
  ftable : s'.ftable = s.ftable
  procs : s'.procs = s.procs
  others : ∀ j, j ≠ ip → s'.itable j = s.itable j
  self : s'.itable ip = { s.itable ip with din := s'.disk.inodes (s.itable ip).inum }
  owned : Owned sb s'.disk
  inodes : ∀ m, m ≠ (s.itable ip).inum → s'.disk.inodes m = s.disk.inodes m
  files : ∀ m, m ≠ (s.itable ip).inum → s'.disk.files sb m = s.disk.files sb m
  file : Node.Written src off n w (s.disk.node sb (s.itable ip).inum) (s'.disk.node sb (s.itable ip).inum)
  unlogged : ∀ k, s'.unlogged (s'.disk.slots sb k) = none ∨
    s'.disk.slots sb k = s.disk.slots sb k ∧ s'.unlogged (s'.disk.slots sb k) = s.unlogged (s.disk.slots sb k) ∨
    k.1 = (s.itable ip).inum ∧ k.2 ≠ .addr NDIRECT ∧ ¬∀ i, i < n → (src i).isSome

/-- The end of `writei`: the new size, and `iupdate`. -/
def State.resize (s : State) (ip : Fin NINODE) (size : ℕ) : State :=
  { s with
    disk := { s.disk with
      inodes := Function.update s.disk.inodes (s.itable ip).inum { (s.itable ip).din with size := size } }
    itable := Function.update s.itable ip { s.itable ip with din := { (s.itable ip).din with size := size } } }

lemma slots_resize {size} : (s.resize ip size).disk.slots sb = (s.flush ip).slots sb := by
  refine Disk.slots_fields ?_ ?_ rfl <;>
  · intro m
    simp only [State.resize, State.flush, Function.update_apply]
    split <;> rfl

lemma byte_resize {size} : (s.resize ip size).disk.byte sb = (s.flush ip).byte sb := by
  funext m o
  rw [Disk.byte, slots_resize]
  rfl

lemma Disk.node_congr (inode : D'.inodes n = D.inodes n)
    (bytes : ∀ o, o < (D.inodes n).size → D'.byte sb n o = D.byte sb n o) : D'.node sb n = D.node sb n := by
  simp only [Disk.node, inode, Node.mk.injEq, true_and]
  funext o
  split
  · exact bytes o ‹_›
  · rfl

lemma Disk.files_congr (inode : D'.inodes n = D.inodes n)
    (bytes : n < sb.ninodes → (D.inodes n).type ≠ .free → ∀ o, o < (D.inodes n).size → D'.byte sb n o = D.byte sb n o) :
    D'.files sb n = D.files sb n := by
  simp only [Disk.files, inode]
  split
  · rename_i h
    rw [Disk.node_congr inode (bytes h.1 h.2)]
  · rfl

lemma Wrote.resize {w} (g : Wrote sb ip src s s' off 0 n w) (O : Owned sb s.disk) (c : s.Clean ip)
    (lt : (s.itable ip).inum < sb.ninodes) (alloc : (s.itable ip).din.type ≠ .free) (le : w ≤ n)
    (lo : off ≤ (s.itable ip).din.size) (fits : off + n ≤ MAXFILE * BSIZE) :
    Writes sb ip src s (s'.resize ip (max (s.itable ip).din.size (off + w))) off n w := by
  obtain ⟨addrs, self⟩ := g.self
  have inum : (s'.itable ip).inum = (s.itable ip).inum := by rw [self]
  have same := c.flush
  have own := O.mapped _ lt (c ▸ alloc)
  -- the inodes at the end
  have inode : (s'.resize ip (max (s.itable ip).din.size (off + w))).disk.inodes (s.itable ip).inum =
      { (s.itable ip).din with size := max (s.itable ip).din.size (off + w), addrs := addrs } := by
    rw [State.resize, self]
    exact Function.update_self _ _ _
  have other : ∀ m, m ≠ (s.itable ip).inum →
      (s'.resize ip (max (s.itable ip).din.size (off + w))).disk.inodes m = s.disk.inodes m := by
    intro m ne
    rw [← g.inodes]
    exact Function.update_of_ne (inum ▸ ne) _ _
  -- and the bytes of the files there were
  have old : ∀ m, m < sb.ninodes → (s.disk.inodes m).type ≠ .free → ∀ o, o < (s.disk.inodes m).size →
      ¬(m = (s.itable ip).inum ∧ off ≤ o ∧ o < off + n) →
      (s'.resize ip (max (s.itable ip).din.size (off + w))).disk.byte sb m o = s.disk.byte sb m o := by
    intro m lm am o lo out
    have M := O.mapped m lm am
    rw [byte_resize, g.bytes m o (by rw [same]; exact M.2 o lo) (block_lt (lo.trans_le M.1)) out, same]
  have size : (s.disk.inodes (s.itable ip).inum).size = (s.itable ip).din.size := by rw [c]
  constructor
  case ftable => exact g.ftable
  case procs => exact g.procs
  case others =>
    intro j ne
    rw [← g.others j ne]
    exact Function.update_of_ne ne _ _
  case self =>
    rw [inode, State.resize, self]
    exact Function.update_self _ _ _
  case owned =>
    constructor
    · rw [Sound, slots_resize]
      exact g.sound
    · intro m lm am
      by_cases eq : m = (s.itable ip).inum
      · subst eq
        rw [Disk.Mapped, inode, slots_resize]
        have max_le := own.1
        rw [size] at max_le
        refine ⟨Nat.max_le.mpr ⟨max_le, by omega⟩, fun o lo => ?_⟩
        by_cases lt : o < (s.itable ip).din.size
        · have ne := own.2 o (size ▸ lt)
          rw [← same] at ne
          rwa [g.slots _ ne]
        · have := g.mapped (o - off) (by simp only at lo; omega)
          rwa [Nat.add_sub_of_le (by omega)] at this
      · rw [other m eq] at am
        have M := O.mapped m lm am
        rw [Disk.Mapped, other m eq, slots_resize]
        refine ⟨M.1, fun o lo => ?_⟩
        have ne := M.2 o lo
        rw [← same] at ne
        rwa [g.slots _ ne]
  case inodes => exact other
  case files =>
    intro m ne
    exact Disk.files_congr (other m ne) fun lm am o lo => old m lm am o lo fun h => ne h.1
  case file =>
    -- beyond the old size there are only bytes that have been written
    have kept : ∀ o, (o < off ∨ off + w ≤ o) →
        (o < (s.itable ip).din.size →
          (s'.resize ip (max (s.itable ip).din.size (off + w))).disk.byte sb (s.itable ip).inum o =
            s.disk.byte sb (s.itable ip).inum o) →
        ((s'.resize ip (max (s.itable ip).din.size (off + w))).disk.node sb (s.itable ip).inum).byte o =
          (s.disk.node sb (s.itable ip).inum).byte o := by
      intro o out eq
      simp only [Disk.node, inode, size]
      by_cases lt : o < (s.itable ip).din.size
      · rw [if_pos (by omega), if_pos lt, eq lt]
      · rw [if_neg (by omega), if_neg lt]
    constructor
    · have din : s.disk.inodes (s.itable ip).inum = (s.itable ip).din := c.symm
      simp only [Disk.node, inode, din]
    · intro i li
      have := g.written i li
      rw [Nat.zero_add] at this
      rw [this, Disk.node, inode, byte_resize]
      exact congrArg some (if_pos (by simp only; omega)).symm
    · intro o out
      refine kept o (by omega) fun lt => ?_
      exact old _ (by assumption) (c ▸ alloc) o (size ▸ lt) fun h => out h.2
    · intro all o ge
      refine kept o (.inr ge) fun lt => ?_
      have ne := own.2 o (size ▸ lt)
      rw [← same] at ne
      rw [byte_resize, g.kept (by simpa using all) o ne (block_lt ((size ▸ lt : o < _).trans_le own.1)) ge, same]
  case unlogged =>
    intro k
    rw [slots_resize, ← same]
    have := g.unlogged k
    simp only [Nat.zero_add] at this
    exact this

lemma wp_writei {Q : Option ℕ → State → Prop} (O : Owned sb s.disk) (c : s.Clean ip)
    (lt : (s.itable ip).inum < sb.ninodes) (alloc : (s.itable ip).din.type ≠ .free)
    (bad : off > (s.itable ip).din.size ∨ (off + n) % 2 ^ 32 < off ∨ off + n > MAXFILE * BSIZE → Q none s)
    (h : ∀ w s₁ s', off ≤ (s.itable ip).din.size → off + n ≤ MAXFILE * BSIZE → w ≤ n → Ends sb ip src s s₁ off 0 n w →
      s' = s₁.resize ip (max (s.itable ip).din.size (off + w)) → Writes sb ip src s s' off n w → Q (some w) s') :
    wp P (writei sb ip src off n) Q s := by
  simp only [writei, inode, wp_bind, wp_get, wp_pure]
  split
  · rename_i range
    exact bad (range.imp_right .inl)
  · rename_i range
    split
    · rename_i large
      exact bad (.inr (.inr large))
    · rename_i room
      rw [wp_bind]
      refine wp_writeLoop (c.flush.symm ▸ O.sound) lt alloc (by omega) fun w s' le ends => ?_
      have W := ends.wrote.resize O c lt alloc le (by omega) (by omega)
      obtain ⟨addrs, self⟩ := ends.wrote.self
      have size : (if off + w > (s'.itable ip).din.size then off + w else (s'.itable ip).din.size) =
          max (s.itable ip).din.size (off + w) := by
        rw [self]
        simp only
        split <;> omega
      have := h w s' _ (by omega) (by omega) le ends rfl W
      simp only [setDin, setInode, iupdate, wp_bind, wp_modify, wp_pure, size]
      simpa [State.resize] using this

lemma block_bytes {m : ℕ} (room : off % BSIZE + m ≤ BSIZE) :
    (s.disk.blocks ((s.flush ip).slots sb ((s.itable ip).inum, slotOf (off / BSIZE)))).bytes (off % BSIZE) m =
      (List.range m).map fun i => (s.flush ip).byte sb (s.itable ip).inum (off + i) := by
  refine List.map_congr_left fun i li => ?_
  obtain ⟨div, mod⟩ := same_block (o := off + i) (k := m) (by omega) (by simpa using li) room
  rw [Disk.byte, div, mod, Nat.add_sub_cancel_left]
  rfl

/-- The loop of `readi` reads the bytes and changes nothing, if all blocks are there. -/
lemma readLoop_eq {dst : ℕ → Bool} (lt : (s.itable ip).inum < sb.ninodes) (alloc : (s.itable ip).din.type ≠ .free)
    (fits : off + n ≤ MAXFILE * BSIZE)
    (mapped : ∀ o, off ≤ o → o < off + n → (s.flush ip).slots sb ((s.itable ip).inum, slotOf (o / BSIZE)) ≠ 0) :
    readLoop sb ip dst off n tot s =
      .ok (if ∀ i, i < n → dst (tot + i)
        then some ((List.range n).map fun i => (s.flush ip).byte sb (s.itable ip).inum (off + i)) else none, s) := by
  induction n using Nat.strongRecOn generalizing off tot with
  | ind n ih =>
    apply eq_ok
    unfold readLoop
    split
    · subst_vars
      simp
    · rename_i pos
      have mod : off % BSIZE < BSIZE := Nat.mod_lt _ (by decide)
      have ne := mapped off (Nat.le_refl _) (by omega)
      rw [wp_bind, wp_ok (bmap_eq lt alloc (block_lt (by omega)) ne), if_neg ne]
      simp only [bread, wp_bind, wp_get, wp_pure]
      generalize eqm : min n (BSIZE - off % BSIZE) = m
      have room : off % BSIZE + m ≤ BSIZE := by omega
      split
      · rename_i all
        simp only [List.all_eq_true, List.mem_range] at all
        rw [wp_bind, wp_ok (ih (n - m) (by omega) (by omega) fun o ge lo => mapped o (by omega) (by omega))]
        have split : (∀ i, i < n → dst (tot + i)) ↔ ∀ i, i < n - m → dst (tot + m + i) := by
          constructor
          · intro h i li
            rw [Nat.add_assoc]
            exact h (m + i) (by omega)
          · intro h i li
            by_cases lm : i < m
            · exact all i lm
            · have := h (i - m) (by omega)
              rwa [show tot + m + (i - m) = tot + i by omega] at this
        by_cases rest : ∀ i, i < n - m → dst (tot + m + i)
        · rw [if_pos rest, if_pos (split.mpr rest)]
          obtain ⟨r, rfl⟩ : ∃ r, n = m + r := ⟨n - m, by omega⟩
          simp only [wp_pure, and_true, Option.some.injEq]
          rw [block_bytes room, Nat.add_sub_cancel_left, List.range_add, List.map_append, List.map_map]
          simp only [Function.comp_def, Nat.add_assoc]
        · rw [if_neg rest, if_neg (mt split.mp rest)]
          exact ⟨rfl, rfl⟩
      · rename_i bad
        rw [if_neg]
        · simp
        · simp only [List.all_eq_true, List.mem_range] at bad
          exact fun all => bad fun i li => all i (by omega)

/-- The bytes `readi` reads: those of the file below its size. -/
def Node.readi (nd : Node) (dst : ℕ → Bool) (off n : ℕ) : Option (List UInt8) :=
  if off > nd.size ∨ (off + n) % 2 ^ 32 < off then some []
  else
    let m := min n (nd.size - off)
    if ∀ i, i < m → dst i then some ((List.range m).map fun i => nd.byte (off + i)) else none

lemma readi_eq {dst : ℕ → Bool} (O : Owned sb s.disk) (c : s.Clean ip) (lt : (s.itable ip).inum < sb.ninodes)
    (alloc : (s.itable ip).din.type ≠ .free) :
    readi sb ip dst off n s = .ok ((s.disk.node sb (s.itable ip).inum).readi dst off n, s) := by
  have own := O.mapped _ lt (c ▸ alloc)
  have din : s.disk.inodes (s.itable ip).inum = (s.itable ip).din := c.symm
  have size : (s.disk.node sb (s.itable ip).inum).size = (s.itable ip).din.size := by rw [← din]; rfl
  rw [Disk.Mapped, din] at own
  apply eq_ok
  simp only [readi, inode, wp_bind, wp_get, wp_pure, Node.readi, size]
  split
  · exact ⟨rfl, rfl⟩
  · rename_i range
    have left : (if off + n > (s.itable ip).din.size then (s.itable ip).din.size - off else n) =
        min n ((s.itable ip).din.size - off) := by
      split <;> omega
    have fits : off + min n ((s.itable ip).din.size - off) ≤ (s.itable ip).din.size := by omega
    rw [left, wp_ok (readLoop_eq lt alloc (fits.trans own.1) fun o _ lo => by
      rw [c.flush]
      exact own.2 o (by omega))]
    simp only [Nat.zero_add, c.flush, and_true]
    split
    · refine congrArg some (List.map_congr_left fun i li => ?_)
      rw [List.mem_range] at li
      simp only [Disk.node, din]
      rw [if_pos (by omega)]
    · rfl

end Xv6.Fs
