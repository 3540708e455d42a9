import Xv6.Fs.Inode
import Xv6.Lib.Alloc

/-!
# Blocks of inodes

What `balloc`, `bfree` and `bmap` do to the free map and to the slots that refer to blocks. Inside of `writei` and
`itrunc` the inode in memory is ahead of the one on the disk, so that the free map is exact for the disk as it will
be after `iupdate` (`State.flush`).
-/

namespace Xv6.Fs

open Fallible

/-- A place that refers to a block: an element of `addrs`, or an entry of the indirect block. -/
inductive Slot where
  | addr (k : ℕ)
  | entry (j : ℕ)
  deriving DecidableEq

/-- The slots there are. -/
def Slot.Ok : Slot → Prop
  | .addr k => k ≤ NDIRECT
  | .entry j => j < NINDIRECT

instance : DecidablePred Slot.Ok
  | .addr k => inferInstanceAs (Decidable (k ≤ NDIRECT))
  | .entry j => inferInstanceAs (Decidable (j < NINDIRECT))

def slotOf (bn : ℕ) : Slot :=
  if bn < NDIRECT then .addr bn else .entry (bn - NDIRECT)

def Disk.addr (D : Disk) (n : ℕ) : Slot → ℕ
  | .addr k => (D.inodes n).addrs k
  | .entry j =>
    if (D.inodes n).addrs NDIRECT = 0 then 0 else (D.blocks ((D.inodes n).addrs NDIRECT)).getLE (4 * j) 4

/-- The content of the slots of the allocated inodes. -/
def Disk.slots (sb : Superblock) (D : Disk) (k : ℕ × Slot) : ℕ :=
  if k.1 < sb.ninodes ∧ (D.inodes k.1).type ≠ .free ∧ k.2.Ok then D.addr k.1 k.2 else 0

/-- The free map is exact. -/
def Sound (sb : Superblock) (D : Disk) : Prop :=
  Exact sb.nmeta sb.size D.bitmap (D.slots sb)

/-- There is no free block. -/
def Disk.Full (sb : Superblock) (D : Disk) : Prop := ∀ b, b < sb.size → D.bitmap b = true

/-- No buffer differs from its block on the disk without having been passed to `log_write`. -/
def State.Settled (s : State) : Prop := ∀ b blk, s.unlogged b = some blk → blk = s.disk.blocks b

def State.flush (s : State) (ip : Fin NINODE) : Disk :=
  { s.disk with inodes := Function.update s.disk.inodes (s.itable ip).inum (s.itable ip).din }

def State.alloc (s : State) (b : ℕ) : State :=
  { s with
    disk :=
      { s.disk with
        bitmap := Function.update s.disk.bitmap b true
        blocks := Function.update s.disk.blocks b fun _ => 0 }
    unlogged := Function.update s.unlogged b none }

variable {sb : Superblock} {P : Panic → Prop} {s s' : State} {D D' : Disk} {ip : Fin NINODE} {n b k j : ℕ} {l l' : Slot}

lemma Disk.slots_eq (lt : n < sb.ninodes) (ne : (D.inodes n).type ≠ .free) (ok : l.Ok) :
    D.slots sb (n, l) = D.addr n l :=
  if_pos ⟨lt, ne, ok⟩

lemma Disk.slots_ne {m} (ne : D.slots sb (m, l) ≠ 0) :
    m < sb.ninodes ∧ (D.inodes m).type ≠ .free ∧ l.Ok ∧ D.slots sb (m, l) = D.addr m l := by
  by_cases h : m < sb.ninodes ∧ (D.inodes m).type ≠ .free ∧ l.Ok
  · exact ⟨h.1, h.2.1, h.2.2, if_pos h⟩
  · exact absurd (if_neg h) ne

/-- The slots of an inode depend on the inode and, for the entries, on its indirect block. -/
lemma Disk.slots_congr {m} (inode : D'.inodes m = D.inodes m) (blocks : D'.blocks = D.blocks) :
    D'.slots sb (m, l) = D.slots sb (m, l) := by
  have addr : D'.addr m l = D.addr m l := by
    cases l <;> simp only [Disk.addr, inode, blocks]
  by_cases h : m < sb.ninodes ∧ (D.inodes m).type ≠ .free ∧ l.Ok
  · rw [Disk.slots, if_pos (by simpa [inode] using h), Disk.slots, if_pos h, addr]
  · rw [Disk.slots, if_neg (by simpa [inode] using h), Disk.slots, if_neg h]

lemma wp_balloc {Q : ℕ → State → Prop} (full : s.disk.Full sb → Q 0 s)
    (found : ∀ b, b < sb.size → s.disk.bitmap b = false → Q b (s.alloc b)) : wp P (balloc sb) Q s := by
  simp only [balloc, wp_bind, wp_get]
  split
  · rename_i b eq
    have free := List.find?_some eq
    have mem := List.mem_of_find?_eq_some eq
    simp only [setBit, bwrite, setDisk, wp_bind, wp_modify, wp_pure]
    exact found b (List.mem_range.mp mem) (by simpa using free)
  · rename_i none
    refine full fun b lt => ?_
    simpa using List.find?_eq_none.1 none b (List.mem_range.2 lt)

lemma Disk.slots_apply (types : ∀ m, (D'.inodes m).type = (D.inodes m).type)
    (addrs : ∀ m l, m < sb.ninodes → (D.inodes m).type ≠ .free → l.Ok →
      D'.addr m l = Function.update (fun k : ℕ × Slot => D.addr k.1 k.2) (n, l') b (m, l))
    (lt : n < sb.ninodes) (alloc : (D.inodes n).type ≠ .free) (ok : l'.Ok) :
    D'.slots sb = Function.update (D.slots sb) (n, l') b := by
  funext ⟨m, l⟩
  by_cases h : m < sb.ninodes ∧ (D.inodes m).type ≠ .free ∧ l.Ok
  · rw [Disk.slots, if_pos (by simpa [types] using h), addrs m l h.1 h.2.1 h.2.2]
    simp only [Function.update_apply]
    split
    · rfl
    · exact (if_pos h).symm
  · have ne : (m, l) ≠ (n, l') := by
      rintro ⟨rfl, rfl⟩
      exact h ⟨lt, alloc, ok⟩
    rw [Disk.slots, if_neg (by simpa [types] using h), Function.update_of_ne ne, Disk.slots, if_neg h]

lemma Sound.indirect_ne (S : Sound sb D) (lt : n < sb.ninodes) (alloc : (D.inodes n).type ≠ .free)
    (ne : (D.inodes n).addrs NDIRECT ≠ 0) (free : D.bitmap b = false) : (D.inodes n).addrs NDIRECT ≠ b := by
  have eq : D.slots sb (n, .addr NDIRECT) = (D.inodes n).addrs NDIRECT :=
    Disk.slots_eq (l := .addr NDIRECT) lt alloc (Nat.le_refl NDIRECT)
  rw [← eq] at ne ⊢
  exact S.ne_of_free free ne

lemma slots_setAddr (S : Sound sb D) (lt : n < sb.ninodes) (alloc : (D.inodes n).type ≠ .free) (ok : k ≤ NDIRECT)
    (empty : (D.inodes n).addrs k = 0) (lb : b < sb.size) (free : D.bitmap b = false) :
    Disk.slots sb
      ⟨Function.update D.bitmap b true,
        Function.update D.inodes n { D.inodes n with addrs := Function.update (D.inodes n).addrs k b },
        Function.update D.blocks b fun _ => 0⟩ = Function.update (D.slots sb) (n, .addr k) b := by
  have pos : b ≠ 0 := by
    have := S.le_of_free lb free
    have := S.pos
    omega
  refine Disk.slots_apply ?_ ?_ lt alloc ok
  · intro m
    simp only [Function.update_apply]
    split <;> simp [*]
  · intro m l lm am okm
    cases l with
    | addr i =>
      by_cases eq : m = n
      · subst eq
        simp [Disk.addr, Function.update_apply]
      · simp [Disk.addr, eq]
    | entry j =>
      have ind := S.indirect_ne (b := b) lm am
      rw [Function.update_of_ne (by simp)]
      simp only [Disk.addr, Function.update_apply]
      by_cases eq : m = n
      · subst eq
        by_cases last : NDIRECT = k
        · subst last
          simp [empty, pos]
        · simp only [if_true]
          grind
      · simp only [eq, if_false]
        grind

lemma Sound.indirect_inj {m} (S : Sound sb D) (lt : n < sb.ninodes) (alloc : (D.inodes n).type ≠ .free)
    (lm : m < sb.ninodes) (am : (D.inodes m).type ≠ .free) (ne : (D.inodes n).addrs NDIRECT ≠ 0)
    (eq : (D.inodes n).addrs NDIRECT = (D.inodes m).addrs NDIRECT) : n = m := by
  have en : D.slots sb (n, .addr NDIRECT) = (D.inodes n).addrs NDIRECT :=
    Disk.slots_eq (l := .addr NDIRECT) lt alloc (Nat.le_refl NDIRECT)
  have em : D.slots sb (m, .addr NDIRECT) = (D.inodes m).addrs NDIRECT :=
    Disk.slots_eq (l := .addr NDIRECT) lm am (Nat.le_refl NDIRECT)
  rw [← en] at ne
  rw [← en, ← em] at eq
  exact congrArg Prod.fst (S.inj ne eq)

lemma slots_setEntry (S : Sound sb D) (lt : n < sb.ninodes) (alloc : (D.inodes n).type ≠ .free)
    (ind : (D.inodes n).addrs NDIRECT ≠ 0) (lj : j < NINDIRECT) (lb : b < sb.size)
    (free : D.bitmap b = false) :
    Disk.slots sb
      ⟨Function.update D.bitmap b true, D.inodes,
        Function.update (Function.update D.blocks b fun _ => 0) ((D.inodes n).addrs NDIRECT)
          ((D.blocks ((D.inodes n).addrs NDIRECT)).putLE (4 * j) 4 b)⟩ =
      Function.update (D.slots sb) (n, .entry j) b := by
  refine Disk.slots_apply (fun _ => rfl) ?_ lt alloc lj
  intro m l lm am okm
  cases l with
  | addr i => simp [Disk.addr]
  | entry i =>
    have free' := S.indirect_ne (b := b) lm am
    by_cases zero : (D.inodes m).addrs NDIRECT = 0
    · have ne : m ≠ n := fun eq => ind (eq ▸ zero)
      simp [Disk.addr, zero, ne]
    · have nb := free' zero free
      by_cases eq : m = n
      · subst eq
        by_cases ij : i = j
        · subst ij
          have small : b < 256 ^ 4 := Nat.lt_trans lb sb.size_lt
          have le : 4 * i + 4 ≤ BSIZE := by
            simp only [NINDIRECT, BSIZE] at lj ⊢
            omega
          have value : ∀ blk : Block, (blk.putLE (4 * i) 4 b).getLE (4 * i) 4 = b :=
            fun _ => (ByteVec.getLE_putLE le).trans (Nat.mod_eq_of_lt small)
          simp [Disk.addr, zero, value]
        · simp [Disk.addr, zero, ij]
          exact ByteVec.getLE_putLE_disj (by omega)
      · have other : (D.inodes m).addrs NDIRECT ≠ (D.inodes n).addrs NDIRECT :=
          fun h => eq (S.indirect_inj lm am lt alloc zero h)
        simp [Disk.addr, zero, eq, other, nb]

/-- What the allocation of blocks for the inode leaves as it is: the disk apart from blocks that were free and the
indirect block of the inode, and the slots that refer to a block. -/
structure Grows (sb : Superblock) (ip : Fin NINODE) (s s' : State) : Prop where
  inodes : s'.disk.inodes = s.disk.inodes
  ftable : s'.ftable = s.ftable
  procs : s'.procs = s.procs
  others : ∀ j, j ≠ ip → s'.itable j = s.itable j
  self : ∃ addrs, s'.itable ip = { s.itable ip with din := { (s.itable ip).din with addrs := addrs } }
  slots : ∀ k, (s.flush ip).slots sb k ≠ 0 → (s'.flush ip).slots sb k = (s.flush ip).slots sb k
  data : ∀ n l, l ≠ .addr NDIRECT → (s.flush ip).slots sb (n, l) ≠ 0 →
    s'.disk.blocks ((s.flush ip).slots sb (n, l)) = s.disk.blocks ((s.flush ip).slots sb (n, l))
  zero : ∀ n l, l ≠ .addr NDIRECT → (s.flush ip).slots sb (n, l) = 0 → (s'.flush ip).slots sb (n, l) ≠ 0 →
    s'.disk.blocks ((s'.flush ip).slots sb (n, l)) = fun _ => 0
  unlogged : ∀ k, s'.unlogged ((s'.flush ip).slots sb k) = none ∨ (s'.flush ip).slots sb k = (s.flush ip).slots sb k ∧
    s'.unlogged ((s'.flush ip).slots sb k) = s.unlogged ((s.flush ip).slots sb k)
  settled : s.Settled → s'.Settled

namespace Grows

variable {t : State}

lemma refl : Grows sb ip s s where
  inodes := rfl
  ftable := rfl
  procs := rfl
  others _ _ := rfl
  self := ⟨_, rfl⟩
  slots _ _ := rfl
  data _ _ _ _ := rfl
  zero _ _ _ none ne := absurd none ne
  unlogged _ := .inr ⟨rfl, rfl⟩
  settled h := h

lemma trans (g : Grows sb ip s s') (h : Grows sb ip s' t) : Grows sb ip s t where
  inodes := h.inodes.trans g.inodes
  ftable := h.ftable.trans g.ftable
  procs := h.procs.trans g.procs
  others j ne := (h.others j ne).trans (g.others j ne)
  self := by
    obtain ⟨a, eq⟩ := g.self
    obtain ⟨a', eq'⟩ := h.self
    exact ⟨a', by rw [eq', eq]⟩
  slots k ne := by
    have old := g.slots k ne
    rw [h.slots k (old ▸ ne), old]
  data n l nd ne := by
    have old := g.slots (n, l) ne
    rw [← g.data n l nd ne, ← old, h.data n l nd (old ▸ ne)]
  zero n l nd none ne := by
    by_cases mid : (s'.flush ip).slots sb (n, l) = 0
    · exact h.zero n l nd mid ne
    · rw [h.slots (n, l) mid, h.data n l nd mid, g.zero n l nd none mid]
  unlogged k := by
    rcases h.unlogged k with none | ⟨slot, eq⟩
    · exact .inl none
    · rw [slot] at eq ⊢
      rw [eq]
      exact g.unlogged k
  settled old := h.settled (g.settled old)

end Grows

lemma unlogged_update {A : ℕ × Slot → ℕ} {u u' : ℕ → Option Block} {k k'} (fresh : u' b = none)
    (old : ∀ c, u' c = none ∨ u' c = u c) :
    u' (Function.update A k b k') = none ∨
      Function.update A k b k' = A k' ∧ u' (Function.update A k b k') = u (A k') := by
  by_cases eq : k' = k
  · subst eq
    simp [fresh]
  · rw [Function.update_of_ne eq]
    rcases old (A k') with none | same
    · exact .inl none
    · exact .inr ⟨rfl, same⟩

@[simp]
lemma State.flush_self : (s.flush ip).inodes (s.itable ip).inum = (s.itable ip).din :=
  Function.update_self _ _ _

/-- The state after a block has been allocated for `addrs[k]`. -/
def State.setAddr (s : State) (ip : Fin NINODE) (k b : ℕ) : State :=
  { s.alloc b with
    itable := Function.update s.itable ip
      { s.itable ip with
        din := { (s.itable ip).din with addrs := Function.update (s.itable ip).din.addrs k b } } }

lemma State.flush_setAddr :
    (s.setAddr ip k b).flush ip =
      ⟨Function.update (s.flush ip).bitmap b true,
        Function.update (s.flush ip).inodes (s.itable ip).inum
          { (s.flush ip).inodes (s.itable ip).inum with
            addrs := Function.update ((s.flush ip).inodes (s.itable ip).inum).addrs k b },
        Function.update (s.flush ip).blocks b fun _ => 0⟩ := by
  simp [State.flush, State.setAddr, State.alloc]

lemma Sound.blocks_alloc {k} (S : Sound sb D) (free : D.bitmap b = false) (ne : D.slots sb k ≠ 0) (z : Block) :
    Function.update D.blocks b z (D.slots sb k) = D.blocks (D.slots sb k) :=
  Function.update_of_ne (S.ne_of_free free ne) _ _

lemma State.Settled.store {blk : Block} (old : s.Settled) : (s.store b blk none).Settled := by
  intro c x eq
  simp only [State.store, Function.update_apply] at eq ⊢
  split at eq
  · cases eq
  · rename_i ne
    rw [if_neg ne]
    exact old c x eq

lemma State.Settled.alloc (old : s.Settled) : (s.alloc b).Settled :=
  old.store

/-- A slot that refers to a block after an allocation is an old one, or the one it was made for. -/
lemma slots_fresh {A : ℕ × Slot → ℕ} {k k'} (slots : D'.slots sb = Function.update A k b) (none : A k' = 0)
    (ne : D'.slots sb k' ≠ 0) : k' = k ∧ D'.slots sb k' = b := by
  rw [slots] at ne ⊢
  by_cases eq : k' = k
  · exact ⟨eq, by rw [eq, Function.update_self]⟩
  · rw [Function.update_of_ne eq] at ne
    exact absurd none ne

lemma Sound.setAddr (S : Sound sb (s.flush ip)) (lt : (s.itable ip).inum < sb.ninodes)
    (alloc : (s.itable ip).din.type ≠ .free) (ok : k ≤ NDIRECT) (empty : (s.itable ip).din.addrs k = 0)
    (lb : b < sb.size) (free : s.disk.bitmap b = false) :
    Sound sb ((s.setAddr ip k b).flush ip) ∧ Grows sb ip s (s.setAddr ip k b) ∧
      ((s.setAddr ip k b).flush ip).slots sb =
        Function.update ((s.flush ip).slots sb) ((s.itable ip).inum, .addr k) b := by
  have slots : ((s.setAddr ip k b).flush ip).slots sb =
      Function.update ((s.flush ip).slots sb) ((s.itable ip).inum, .addr k) b := by
    rw [State.flush_setAddr]
    exact slots_setAddr S lt (by simpa using alloc) ok (by simpa using empty) lb free
  have zero : (s.flush ip).slots sb ((s.itable ip).inum, .addr k) = 0 := by
    rw [Disk.slots_eq (l := .addr k) lt (by simpa using alloc) ok]
    simpa [Disk.addr] using empty
  refine ⟨?_, ?_, slots⟩
  · rw [Sound, slots]
    exact S.insert lb free zero
  · refine ⟨rfl, rfl, rfl, ?_, ⟨_, Function.update_self _ _ _⟩, ?_, ?_, ?_, ?_, State.Settled.alloc⟩
    · intro j ne
      exact Function.update_of_ne ne _ _
    · intro k' ne
      rw [slots, Function.update_of_ne]
      rintro rfl
      exact ne zero
    · intro n l _ ne
      exact S.blocks_alloc free ne _
    · intro n l _ none ne
      obtain ⟨-, eq⟩ := slots_fresh slots none ne
      rw [eq]
      exact Function.update_self _ _ _
    · intro k'
      rw [slots]
      refine unlogged_update (Function.update_self _ _ _) fun c => ?_
      simp only [State.setAddr, State.alloc, Function.update_apply]
      split <;> simp

/-- What `bmap` and its parts do for the slots `L`, one of which is `l`: they return the content of `l`, and if it is 0 no
block is free. -/
structure Maps (sb : Superblock) (ip : Fin NINODE) (L : Slot → Prop) (l : Slot) (s : State) (a : ℕ) (s' : State) : Prop where
  grows : Grows sb ip s s'
  sound : Sound sb (s'.flush ip)
  addr : (s'.flush ip).slots sb ((s.itable ip).inum, l) = a
  full : a = 0 → s'.disk.Full sb
  fresh : ∀ k, (s'.flush ip).slots sb k ≠ 0 → (s.flush ip).slots sb k ≠ 0 ∨ k.1 = (s.itable ip).inum ∧ L k.2

lemma wp_bmapAddr {Q : ℕ → State → Prop} (S : Sound sb (s.flush ip)) (lt : (s.itable ip).inum < sb.ninodes)
    (alloc : (s.itable ip).din.type ≠ .free) (ok : k ≤ NDIRECT)
    (h : ∀ a s', Maps sb ip (· = .addr k) (.addr k) s a s' → Q a s') :
    wp P (bmapAddr sb ip k) Q s := by
  have own : (s.flush ip).slots sb ((s.itable ip).inum, .addr k) = (s.itable ip).din.addrs k := by
    rw [Disk.slots_eq (l := .addr k) lt (by simpa using alloc) ok]
    simp [Disk.addr]
  simp only [bmapAddr, inode, wp_bind, wp_get, wp_pure]
  split
  · rename_i empty
    rw [wp_bind]
    refine wp_balloc ?_ ?_
    · exact fun full => h 0 s ⟨.refl, S, own.trans empty, fun _ => full, fun _ ne => .inl ne⟩
    · intro b lb free
      split
      · -- block 0 is reserved
        have := S.le_of_free lb free
        have := S.pos
        omega
      · rename_i nz
        obtain ⟨S', g, slots⟩ := S.setAddr lt alloc ok empty lb free
        refine h b _ ⟨g, S', (congrFun slots _).trans (Function.update_self _ _ _), fun zero => absurd zero nz,
          fun k' ne => ?_⟩
        refine or_iff_not_imp_left.2 fun none => ?_
        obtain ⟨rfl, -⟩ := slots_fresh slots (not_not.1 none) ne
        exact ⟨rfl, rfl⟩
  · rename_i ne
    exact h _ s ⟨.refl, S, own, fun zero => absurd zero ne, fun _ ne => .inl ne⟩

/-- The state after a block has been allocated for an entry of the indirect block `ind`. -/
def State.setEntry (s : State) (ind j b : ℕ) : State :=
  { s.alloc b with
    disk :=
      { (s.alloc b).disk with
        blocks := Function.update (s.alloc b).disk.blocks ind ((s.disk.blocks ind).putLE (4 * j) 4 b) }
    unlogged := Function.update (s.alloc b).unlogged ind none }

lemma Sound.setEntry (S : Sound sb (s.flush ip)) (lt : (s.itable ip).inum < sb.ninodes)
    (alloc : (s.itable ip).din.type ≠ .free) (ind : (s.itable ip).din.addrs NDIRECT ≠ 0) (lj : j < NINDIRECT)
    (empty : (s.disk.blocks ((s.itable ip).din.addrs NDIRECT)).getLE (4 * j) 4 = 0)
    (lb : b < sb.size) (free : s.disk.bitmap b = false) :
    Sound sb ((s.setEntry ((s.itable ip).din.addrs NDIRECT) j b).flush ip) ∧
      Grows sb ip s (s.setEntry ((s.itable ip).din.addrs NDIRECT) j b) ∧
      ((s.setEntry ((s.itable ip).din.addrs NDIRECT) j b).flush ip).slots sb =
        Function.update ((s.flush ip).slots sb) ((s.itable ip).inum, .entry j) b := by
  have alloc' : ((s.flush ip).inodes (s.itable ip).inum).type ≠ .free := by simpa using alloc
  have slots : ((s.setEntry ((s.itable ip).din.addrs NDIRECT) j b).flush ip).slots sb =
      Function.update ((s.flush ip).slots sb) ((s.itable ip).inum, .entry j) b := by
    have := slots_setEntry S lt alloc' (by simpa using ind) lj lb free
    rw [State.flush_self] at this
    exact this
  have zero : (s.flush ip).slots sb ((s.itable ip).inum, .entry j) = 0 := by
    rw [Disk.slots_eq (l := .entry j) lt alloc' lj]
    simpa [Disk.addr, ind, State.flush] using empty
  have own : (s.flush ip).slots sb ((s.itable ip).inum, .addr NDIRECT) = (s.itable ip).din.addrs NDIRECT := by
    rw [Disk.slots_eq (l := .addr NDIRECT) lt alloc' (Nat.le_refl NDIRECT)]
    simp [Disk.addr]
  have nb : (s.itable ip).din.addrs NDIRECT ≠ b := by
    have := S.indirect_ne lt alloc' (by simpa using ind) free
    simpa using this
  refine ⟨?_, ?_, slots⟩
  · rw [Sound, slots]
    exact S.insert lb free zero
  · refine ⟨rfl, rfl, rfl, fun _ _ => rfl, ⟨_, rfl⟩, ?_, ?_, ?_, ?_, fun old => old.alloc.store⟩
    · intro k' ne
      rw [slots, Function.update_of_ne]
      rintro rfl
      exact ne zero
    · intro n l nd ne
      have other : (s.flush ip).slots sb (n, l) ≠ (s.itable ip).din.addrs NDIRECT := by
        rw [← own]
        intro eq
        exact nd (congrArg Prod.snd (S.inj ne eq))
      refine (Function.update_of_ne other _ _).trans ?_
      exact S.blocks_alloc free ne _
    · intro n l _ none ne
      obtain ⟨-, eq⟩ := slots_fresh slots none ne
      rw [eq]
      exact (Function.update_of_ne nb.symm _ _).trans (Function.update_self _ _ _)
    · intro k'
      rw [slots]
      refine unlogged_update ?_ fun c => ?_
      · simp [State.setEntry, State.alloc, Function.update_apply]
      · simp only [State.setEntry, State.alloc, Function.update_apply]
        grind

lemma wp_bmapEntry {Q : ℕ → State → Prop} (S : Sound sb (s.flush ip)) (lt : (s.itable ip).inum < sb.ninodes)
    (alloc : (s.itable ip).din.type ≠ .free) (ind : (s.itable ip).din.addrs NDIRECT ≠ 0) (lj : j < NINDIRECT)
    (h : ∀ a s', Maps sb ip (· = .entry j) (.entry j) s a s' → Q a s') :
    wp P (bmapEntry sb ((s.itable ip).din.addrs NDIRECT) j) Q s := by
  have own : (s.flush ip).slots sb ((s.itable ip).inum, .entry j) =
      (s.disk.blocks ((s.itable ip).din.addrs NDIRECT)).getLE (4 * j) 4 := by
    rw [Disk.slots_eq (l := .entry j) lt (by simpa using alloc) lj]
    simp [Disk.addr, ind, State.flush]
  simp only [bmapEntry, bread, wp_bind, wp_get, wp_pure]
  split
  · rename_i empty
    rw [wp_bind]
    refine wp_balloc ?_ ?_
    · exact fun full => h 0 s ⟨.refl, S, own.trans empty, fun _ => full, fun _ ne => .inl ne⟩
    · intro b lb free
      split
      · have := S.le_of_free lb free
        have := S.pos
        omega
      · rename_i nz
        have nb : (s.itable ip).din.addrs NDIRECT ≠ b := by
          have := S.indirect_ne lt (by simpa using alloc) (by simpa using ind) free
          simpa using this
        obtain ⟨S', g, slots⟩ := S.setEntry lt alloc ind lj empty lb free
        have same : (s.alloc b).disk.blocks ((s.itable ip).din.addrs NDIRECT) =
          s.disk.blocks ((s.itable ip).din.addrs NDIRECT) := Function.update_of_ne nb _ _
        simp only [bwrite, wp_bind, wp_get, wp_pure, wp_modify, same]
        refine h b _ ⟨g, S', ?_, fun zero => absurd zero nz, fun k' ne => ?_⟩
        · exact (congrFun slots _).trans (Function.update_self _ _ _)
        · refine or_iff_not_imp_left.2 fun none => ?_
          obtain ⟨rfl, -⟩ := slots_fresh slots (not_not.1 none) ne
          exact ⟨rfl, rfl⟩
  · rename_i ne
    exact h _ s ⟨.refl, S, own, fun zero => absurd zero ne, fun _ ne => .inl ne⟩

lemma entry_lt {bn} (lt : bn < MAXFILE) (ge : ¬ bn < NDIRECT) : bn - NDIRECT < NINDIRECT := by
  have : MAXFILE = NDIRECT + NINDIRECT := rfl
  omega

/-- The slot of a block of a file is one there is, and is not the one of the indirect block. -/
lemma slotOf_ok {bn} (lt : bn < MAXFILE) : (slotOf bn).Ok ∧ slotOf bn ≠ .addr NDIRECT := by
  unfold slotOf
  split
  · exact ⟨Nat.le_of_lt ‹_›, by simp; omega⟩
  · exact ⟨entry_lt lt ‹_›, by simp⟩

/-- The slots that `bmap` may fill for the block `bn`. -/
def Covers (bn : ℕ) (l : Slot) : Prop := l = slotOf bn ∨ l = .addr NDIRECT ∧ NDIRECT ≤ bn

lemma wp_bmap {Q : ℕ → State → Prop} {bn} (S : Sound sb (s.flush ip)) (lt : (s.itable ip).inum < sb.ninodes)
    (alloc : (s.itable ip).din.type ≠ .free) (lb : bn < MAXFILE)
    (h : ∀ a s', Maps sb ip (Covers bn) (slotOf bn) s a s' → Q a s') :
    wp P (bmap sb ip bn) Q s := by
  unfold bmap
  split
  · rename_i direct
    have slot : slotOf bn = .addr bn := if_pos direct
    refine wp_bmapAddr S lt alloc (Nat.le_of_lt direct) fun a s' m => h a s' ?_
    exact ⟨m.grows, m.sound, slot ▸ m.addr, m.full, fun k ne => (m.fresh k ne).imp_right fun h =>
      ⟨h.1, .inl (slot ▸ h.2)⟩⟩
  · rename_i indirect
    have slot : slotOf bn = .entry (bn - NDIRECT) := if_neg indirect
    rw [if_pos (entry_lt lb indirect), wp_bind]
    refine wp_bmapAddr S lt alloc (Nat.le_refl _) fun ind s₁ m₁ => ?_
    obtain ⟨addrs, self⟩ := m₁.grows.self
    have inum : (s₁.itable ip).inum = (s.itable ip).inum := by rw [self]
    have type : (s₁.itable ip).din.type = (s.itable ip).din.type := by rw [self]
    have own : (s₁.itable ip).din.addrs NDIRECT = ind := by
      have eq := m₁.addr
      rw [← inum, Disk.slots_eq (l := .addr NDIRECT) (inum ▸ lt) (by simpa [type] using alloc) (Nat.le_refl NDIRECT)] at eq
      simpa [Disk.addr] using eq
    have fresh₁ : ∀ k, (s₁.flush ip).slots sb k ≠ 0 →
        (s.flush ip).slots sb k ≠ 0 ∨ k.1 = (s.itable ip).inum ∧ Covers bn k.2 := fun k ne =>
      (m₁.fresh k ne).imp_right fun h => ⟨h.1, .inr ⟨h.2, Nat.le_of_not_lt indirect⟩⟩
    split
    · rename_i zero
      refine h 0 s₁ ⟨m₁.grows, m₁.sound, ?_, fun _ => m₁.full zero, fresh₁⟩
      rw [slot, ← inum, Disk.slots_eq (l := .entry _) (inum ▸ lt) (by simpa [type] using alloc) (entry_lt lb indirect)]
      simp [Disk.addr, own, zero]
    · rename_i ne
      rw [← own] at ne ⊢
      refine wp_bmapEntry m₁.sound (inum ▸ lt) (type ▸ alloc) ne (entry_lt lb indirect) fun a s' m => ?_
      refine h a s' ⟨m₁.grows.trans m.grows, m.sound, ?_, m.full, fun k ne => ?_⟩
      · rw [slot, ← inum]
        exact m.addr
      · obtain old | ⟨eq, new⟩ := m.fresh k ne
        · exact fresh₁ k old
        · exact .inr ⟨eq.trans inum, .inl (slot ▸ new)⟩

lemma bmap_eq {bn} (lt : (s.itable ip).inum < sb.ninodes) (alloc : (s.itable ip).din.type ≠ .free)
    (lb : bn < MAXFILE) (ne : (s.flush ip).slots sb ((s.itable ip).inum, slotOf bn) ≠ 0) :
    bmap sb ip bn s = .ok ((s.flush ip).slots sb ((s.itable ip).inum, slotOf bn), s) := by
  apply eq_ok
  have eq := Disk.slots_eq (D := s.flush ip) lt (by simpa using alloc) (slotOf_ok lb).1
  rw [eq] at ne ⊢
  unfold bmap
  by_cases direct : bn < NDIRECT
  · have addr : (s.flush ip).addr (s.itable ip).inum (slotOf bn) = (s.itable ip).din.addrs bn := by
      simp [slotOf, direct, Disk.addr]
    rw [addr] at ne ⊢
    simp [direct, bmapAddr, inode, ne]
  · have ind : (s.itable ip).din.addrs NDIRECT ≠ 0 := by
      intro zero
      simp [slotOf, direct, Disk.addr, zero] at ne
    have addr : (s.flush ip).addr (s.itable ip).inum (slotOf bn) =
        (s.disk.blocks ((s.itable ip).din.addrs NDIRECT)).getLE (4 * (bn - NDIRECT)) 4 := by
      simp [slotOf, direct, Disk.addr, ind, State.flush]
    rw [addr] at ne ⊢
    simp only [direct, if_false, entry_lt lb direct, if_true, bmapAddr, inode, wp_bind, wp_get, wp_pure, ind,
      bmapEntry, bread, ne, and_self]

end Xv6.Fs
