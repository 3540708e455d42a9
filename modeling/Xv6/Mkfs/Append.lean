import Xv6.Mkfs.Files

/-!
# `iappend`

What one call of `iappend` does to the files on the image. Blocks are taken in order, so that those from `freeblock` on are
still zero; the program dies when it reads a block beyond the end of the image, which is the first thing it does with
a block it has taken.
-/

namespace Xv6.Mkfs

open Fs Fallible

/-- The image with the disk it is seen as. -/
structure Core (st : State) (D : Disk) : Prop where
  len : st.image.len = FSSIZE
  low : nmeta ≤ st.freeblock
  high : st.freeblock ≤ FSSIZE
  bitmap : D.bitmap = fun b => decide (b < st.freeblock)
  blocks : D.blocks = st.image.blocks
  zero : ∀ {b}, st.freeblock ≤ b → st.image.blocks b = fun _ => 0
  sound : Sound super D

variable {st st' : State} {D D' : Disk} {P : Exit → Prop} {i j k b fbn off : ℕ} {din din' : RawDinode} {c bs : List UInt8}

lemma seek_eq (lt : b < 2 ^ 22) : seek b = b := by
  simp only [seek, BSIZE]
  omega

lemma wp_rsect {Q : Fs.Block → State → Prop} (len : st.image.len = FSSIZE) (small : b < 2 ^ 22)
    (found : b < FSSIZE → Q (st.image.blocks b) st) (beyond : FSSIZE ≤ b → P (.die "read")) : wp P (rsect b) Q st := by
  simp only [rsect, wp_bind, wp_get, seek_eq small, len]
  split
  case isTrue lt => exact found lt
  case isFalse ge => exact beyond (by omega)

/-- The state after a block has been written. -/
def State.write (st : State) (b : ℕ) (blk : Fs.Block) : State :=
  { st with image := ⟨st.image.len, Function.update st.image.blocks b blk⟩ }

lemma wp_wsect {Q : Unit → State → Prop} {blk : Fs.Block} (len : st.image.len = FSSIZE) (lt : b < FSSIZE)
    (h : Q () (st.write b blk)) : wp P (wsect b blk) Q st := by
  have small : b < 2 ^ 22 := lt.trans (by decide)
  have same : max st.image.len (b + 1) = st.image.len := by omega
  simp only [wsect, wp_modify, seek_eq small, same]
  exact h

namespace Core

lemma next (h : Core st D) : D.bitmap st.freeblock = false ∧ Function.update D.blocks st.freeblock (fun _ => 0) = D.blocks := by
  refine ⟨by simp [h.bitmap], ?_⟩
  rw [h.blocks, ← h.zero (b := st.freeblock) (Nat.le_refl _), Function.update_eq_self]

lemma bitmap_next (h : Core st D) :
    Function.update D.bitmap st.freeblock true = fun b => decide (b < st.freeblock + 1) := by
  funext b
  rw [h.bitmap]
  by_cases eq : b = st.freeblock
  · simp [eq]
  · simp only [Function.update_of_ne eq, decide_eq_decide]
    omega

lemma addr (h : Core st D) (lt : i < NINODES) (alloc : (D.inodes i).type ≠ .free) (ok : k ≤ NDIRECT)
    (empty : (D.inodes i).addrs k = 0) (room : st.freeblock < FSSIZE) :
    ∃ D', Core { st with freeblock := st.freeblock + 1 } D' ∧
      D'.inodes = Function.update D.inodes i { D.inodes i with addrs := Function.update (D.inodes i).addrs k st.freeblock } ∧
      D'.blocks = D.blocks ∧ D'.slots super = Function.update (D.slots super) (i, .addr k) st.freeblock := by
  obtain ⟨free, zero⟩ := h.next
  have slots := slots_setAddr h.sound lt alloc ok empty room free
  have zeroSlot : D.slots super (i, .addr k) = 0 := (Disk.slots_eq (l := .addr k) lt alloc ok).trans empty
  have exact := h.sound.insert (k := (i, .addr k)) room free zeroSlot
  rw [zero] at slots
  refine ⟨⟨Function.update D.bitmap st.freeblock true, Function.update D.inodes i _, D.blocks⟩,
    ⟨h.len, h.low.trans (Nat.le_succ _), room, h.bitmap_next, h.blocks, fun {b} le => ?_, ?_⟩, rfl, rfl, slots⟩
  · exact h.zero (Nat.le_of_succ_le le)
  · rw [Sound, slots]
    exact exact

lemma entry (h : Core st D) (lt : i < NINODES) (alloc : (D.inodes i).type ≠ .free) {ind : ℕ}
    (is : (D.inodes i).addrs NDIRECT = ind) (ne : ind ≠ 0) (lj : j < NINDIRECT)
    (empty : (D.blocks ind).getLE (4 * j) 4 = 0) (room : st.freeblock < FSSIZE) :
    ∃ D', Core { st.write ind ((st.image.blocks ind).putLE (4 * j) 4 st.freeblock) with freeblock := st.freeblock + 1 } D' ∧
      D'.inodes = D.inodes ∧ D'.blocks = Function.update D.blocks ind ((D.blocks ind).putLE (4 * j) 4 st.freeblock) ∧
      D'.slots super = Function.update (D.slots super) (i, .entry j) st.freeblock := by
  obtain ⟨free, zero⟩ := h.next
  have slots := slots_setEntry h.sound lt alloc (is ▸ ne) lj room free
  rw [zero, is] at slots
  have slot : D.slots super (i, .addr NDIRECT) = ind := by
    rw [Disk.slots_eq (l := .addr NDIRECT) lt alloc (Nat.le_refl NDIRECT)]
    exact is
  have below : ind < st.freeblock := by
    have used := h.sound.used_of_ref (k := (i, .addr NDIRECT)) (by rwa [slot])
    rw [slot, h.bitmap] at used
    simpa using used
  have zeroSlot : D.slots super (i, .entry j) = 0 := by
    rw [Disk.slots_eq (l := .entry j) lt alloc lj]
    simp [Disk.addr, is, ne, empty]
  have exact := h.sound.insert (k := (i, .entry j)) room free zeroSlot
  refine ⟨⟨Function.update D.bitmap st.freeblock true, D.inodes, Function.update D.blocks ind _⟩,
    ⟨h.len, h.low.trans (Nat.le_succ _), room, h.bitmap_next, ?_, fun {b} le => ?_, ?_⟩, rfl, rfl, slots⟩
  · simp [State.write, h.blocks]
  · have le : st.freeblock + 1 ≤ b := le
    have nb : b ≠ ind := by omega
    simp only [State.write, Function.update_of_ne nb]
    exact h.zero (by omega)
  · rw [Sound, slots]
    exact exact

end Core

/-- So many blocks have been taken for block `fbn` of inode `i`, whose fields are now `din` with the size `off`. -/
structure Took (i fbn off : ℕ) (st st' : State) (D D' : Disk) (din : RawDinode) (new : ℕ) : Prop where
  core : Core st' D'
  ext : Ext i fbn D D'
  inode : D'.inodes i = ({ din with size := off } : RawDinode).toDinode
  ok : din.Ok
  low : ∀ b, b < nmeta → st'.image.blocks b = st.image.blocks b
  freeinode : st'.freeinode = st.freeinode
  freeblock : st'.freeblock = st.freeblock + new

/-- The inode that is appended to: its number, and its fields in memory. -/
structure Open (i off : ℕ) (D : Disk) (din : RawDinode) : Prop where
  lt : i < NINODES
  alloc : (D.inodes i).type ≠ .free
  inode : D.inodes i = ({ din with size := off } : RawDinode).toDinode
  ok : din.Ok

lemma Open.addr (o : Open i off D din) (le : k ≤ NDIRECT) : D.slots super (i, .addr k) = din.addrs k := by
  rw [Disk.slots_eq (l := .addr k) o.lt o.alloc le, Disk.addr, o.inode]
  rfl

lemma Took.open {new : ℕ} {din' : RawDinode} (t : Took i fbn off st st' D D' din' new) (o : Open i off D din) :
    Open i off D' din' := by
  refine ⟨o.lt, ?_, t.inode, t.ok⟩
  obtain ⟨addrs, eq⟩ := t.ext.self
  rw [eq]
  exact o.alloc

lemma wp_addrBlock {Q : ℕ × RawDinode → State → Prop} (h : Core st D) (o : Open i off D din) (le : k ≤ NDIRECT)
    (which : Slot.addr k = slotOf fbn ∨ k = NDIRECT ∧ NDIRECT ≤ fbn)
    (found : ∀ r st' D', Took i fbn off st st' D D' r.2 (if D.slots super (i, .addr k) = 0 then 1 else 0) →
      D'.slots super (i, .addr k) = r.1 → r.1 ≠ 0 →
      (∀ l, l ≠ .addr k → D'.slots super (i, l) = D.slots super (i, l)) → st'.image = st.image → Q r st')
    (full : D.slots super (i, .addr k) = 0 → st.freeblock = FSSIZE → ∀ r st', r.1 = FSSIZE → st'.image = st.image → Q r st') :
    wp P (addrBlock din k) Q st := by
  have slot := o.addr le
  simp only [addrBlock]
  split
  case isFalse ne =>
    rw [wp_pure]
    refine found _ st D ⟨h, .refl, o.inode, o.ok, fun _ _ => rfl, rfl, ?_⟩ slot ne (fun _ _ => rfl) rfl
    rw [if_neg (by rwa [slot]), Nat.add_zero]
  case isTrue zero =>
    simp only [nextBlock, wp_bind, wp_get, wp_modify, wp_pure]
    by_cases room : st.freeblock < FSSIZE
    · obtain ⟨D', core, inodes, blocks, slots⟩ := h.addr o.lt o.alloc le (by rw [o.inode]; exact zero) room
      have pos : st.freeblock ≠ 0 := by
        have := h.low
        simp only [nmeta] at this
        omega
      refine found _ _ D' ⟨core, ?_, ?_, ?_, fun _ _ => rfl, rfl, ?_⟩ ?_ pos (fun l ne => ?_) rfl
      · refine Ext.insert (l := .addr k) (fun j ne => ?_) ⟨_, by rw [inodes, Function.update_self]⟩ slots (by rw [slot, zero]) ?_
          (fun _ _ _ _ => by rw [blocks]) ?_
        · rw [inodes, Function.update_of_ne ne]
        · exact which.imp id fun h => ⟨by rw [h.1], h.2⟩
        · rw [blocks, h.blocks]
          exact h.zero (Nat.le_refl _)
      · rw [inodes, Function.update_self, o.inode]
        rfl
      · refine ⟨o.ok.type, o.ok.major, o.ok.minor, o.ok.nlink, o.ok.size, fun m => ?_, fun m lt => ?_⟩
        · dsimp only
          by_cases eq : m = k
          · subst eq
            rw [Function.update_self]
            exact room.trans (by decide)
          · rw [Function.update_of_ne eq]
            exact o.ok.addrs m
        · dsimp only
          rw [Function.update_of_ne (by omega)]
          exact o.ok.last m lt
      · rw [if_pos (by rw [slot, zero])]
      · rw [slots, Function.update_self]
      · rw [slots, Function.update_of_ne (by simpa using ne)]
    · have eq : st.freeblock = FSSIZE := Nat.le_antisymm h.high (Nat.le_of_not_lt room)
      exact full (by rw [slot, zero]) eq _ _ eq rfl

lemma wp_entryBlock {Q : ℕ → State → Prop} (h : Core st D) (o : Open i off D din) {ind : ℕ}
    (is : D.slots super (i, .addr NDIRECT) = ind) (ne : ind ≠ 0) (lj : j < NINDIRECT) (eq : slotOf fbn = .entry j)
    (found : ∀ b st' D', Took i fbn off st st' D D' din (if D.slots super (i, .entry j) = 0 then 1 else 0) →
      D'.slots super (i, .entry j) = b → b ≠ 0 →
      (∀ l, l ≠ .entry j → D'.slots super (i, l) = D.slots super (i, l)) → Q b st')
    (full : D.slots super (i, .entry j) = 0 → st.freeblock = FSSIZE → ∀ b st', b = FSSIZE → st'.image.len = FSSIZE → Q b st') :
    wp P (entryBlock ind j) Q st := by
  have addr : (D.inodes i).addrs NDIRECT = ind := by
    rw [← is, Disk.slots_eq (l := .addr NDIRECT) o.lt o.alloc (Nat.le_refl NDIRECT)]
    rfl
  have lt : ind < FSSIZE := is ▸ (h.sound.range (k := (i, .addr NDIRECT)) (by rwa [is])).2
  have ge : nmeta ≤ ind := is ▸ (h.sound.range (k := (i, .addr NDIRECT)) (by rwa [is])).1
  have slot : D.slots super (i, .entry j) = (st.image.blocks ind).getLE (4 * j) 4 := by
    rw [Disk.slots_eq (l := .entry j) o.lt o.alloc lj, ← h.blocks]
    simp [Disk.addr, addr, ne]
  rw [entryBlock, wp_bind]
  refine wp_rsect h.len (lt.trans (by decide)) (fun _ => ?_) fun le => absurd lt (by omega)
  split
  case isFalse nz =>
    rw [wp_pure]
    refine found _ st D ⟨h, .refl, o.inode, o.ok, fun _ _ => rfl, rfl, ?_⟩ slot nz fun _ _ => rfl
    rw [if_neg (by rwa [slot]), Nat.add_zero]
  case isTrue zero =>
    simp only [nextBlock, wp_bind, wp_get, wp_modify, wp_pure]
    refine wp_wsect h.len lt ?_
    by_cases room : st.freeblock < FSSIZE
    · obtain ⟨D', core, inodes, blocks, slots⟩ := h.entry o.lt o.alloc addr ne lj (by rw [h.blocks]; exact zero) room
      have pos : st.freeblock ≠ 0 := by
        have := h.low
        simp only [nmeta] at this
        omega
      refine found _ _ D' ⟨core, ?_, ?_, o.ok, fun b lb => ?_, rfl, ?_⟩ ?_ pos fun l ne => ?_
      · refine Ext.insert (l := .entry j) (fun _ _ => by rw [inodes]) ⟨_, by rw [inodes]⟩ slots (by rw [slot, zero])
          (.inl eq.symm) (fun j' l' data nz => ?_) ?_
        · have out : D.slots super (j', l') ≠ ind := by
            intro same
            exact data (congrArg Prod.snd (h.sound.inj nz (same.trans is.symm)))
          rw [blocks, Function.update_of_ne out]
        · have out : st.freeblock ≠ ind := by
            rintro same
            have used := h.sound.used_of_ref (k := (i, .addr NDIRECT)) (by rwa [is])
            rw [is, ← same, h.bitmap] at used
            simp at used
          rw [blocks, Function.update_of_ne out, h.blocks]
          exact h.zero (Nat.le_refl _)
      · rw [inodes]
        exact o.inode
      · exact Function.update_of_ne (by omega) _ _
      · rw [if_pos (by rw [slot, zero])]
        rfl
      · rw [slots, Function.update_self]
      · rw [slots, Function.update_of_ne (by simpa using ne)]
    · have eq : st.freeblock = FSSIZE := Nat.le_antisymm h.high (Nat.le_of_not_lt room)
      exact full (by rw [slot, zero]) eq _ _ eq h.len

/-- The blocks that are taken for block `fbn` of inode `i`. -/
def need (D : Disk) (i fbn : ℕ) : ℕ :=
  (if NDIRECT ≤ fbn ∧ D.slots super (i, .addr NDIRECT) = 0 then 1 else 0) + if D.slots super (i, slotOf fbn) = 0 then 1 else 0

lemma wp_fileBlock {Q : ℕ × RawDinode → State → Prop} (h : Core st D) (o : Open i off D din) (lt : fbn < MAXFILE)
    (found : ∀ r st' D', Took i fbn off st st' D D' r.2 (need D i fbn) → D'.slots super (i, slotOf fbn) = r.1 → r.1 ≠ 0 →
      (NDIRECT ≤ fbn → D'.slots super (i, .addr NDIRECT) ≠ 0) → Q r st')
    (full : FSSIZE < st.freeblock + need D i fbn → ∀ r st', r.1 = FSSIZE → st'.image.len = FSSIZE → Q r st')
    (die : FSSIZE < st.freeblock + need D i fbn → P (.die "read")) : wp P (fileBlock din fbn) Q st := by
  rw [fileBlock]
  by_cases direct : fbn < NDIRECT
  · have slot : slotOf fbn = .addr fbn := if_pos direct
    have need : need D i fbn = if D.slots super (i, .addr fbn) = 0 then 1 else 0 := by
      rw [Mkfs.need, slot, if_neg (by omega), Nat.zero_add]
    rw [if_pos direct]
    refine wp_addrBlock h o (Nat.le_of_lt direct) (.inl slot.symm) (fun r st' D' took is ne _ _ => ?_) fun zero eq r st' is same => ?_
    · exact found r st' D' (need ▸ took) (by rw [slot, is]) ne (by omega)
    · refine full ?_ r st' is (by rw [same, h.len])
      rw [need, if_pos zero, eq]
      exact Nat.lt_succ_self _
  · have slot : slotOf fbn = .entry (fbn - NDIRECT) := if_neg direct
    have lj := entry_lt lt direct
    rw [if_neg direct, wp_bind]
    refine wp_addrBlock h o (Nat.le_refl NDIRECT) (.inr ⟨rfl, Nat.le_of_not_lt direct⟩) (fun r st₁ D₁ took₁ is₁ ne₁ same₁ image => ?_)
      fun zero eq r st' is same => ?_
    · have o₁ := took₁.open o
      have e₁ : D₁.slots super (i, .entry (fbn - NDIRECT)) = D.slots super (i, .entry (fbn - NDIRECT)) := same₁ _ (by simp)
      have need : need D i fbn = (if D.slots super (i, .addr NDIRECT) = 0 then 1 else 0) +
          if D₁.slots super (i, .entry (fbn - NDIRECT)) = 0 then 1 else 0 := by
        rw [Mkfs.need, slot, e₁]
        simp [Nat.le_of_not_lt direct]
      simp only [wp_bind]
      refine wp_entryBlock took₁.core o₁ is₁ ne₁ lj slot (fun b st₂ D₂ took₂ is₂ ne₂ same₂ => ?_) fun zero eq b st' is len => ?_
      · refine found (b, r.2) st₂ D₂ ?_ (by rw [slot, is₂]) ne₂ fun _ => by rw [same₂ _ (by simp), is₁]; exact ne₁
        refine ⟨took₂.core, took₁.ext.trans took₂.ext lt, took₂.inode, took₂.ok, fun b lb => ?_, ?_, ?_⟩
        · rw [took₂.low b lb, took₁.low b lb]
        · rw [took₂.freeinode, took₁.freeinode]
        · rw [took₂.freeblock, took₁.freeblock, need, Nat.add_assoc]
      · refine full ?_ (b, r.2) st' is len
        rw [need, if_pos zero]
        have := took₁.freeblock
        omega
    · -- the indirect block is beyond the end of the image
      have bad : FSSIZE < st.freeblock + need D i fbn := by
        rw [need, if_pos ⟨by omega, zero⟩]
        omega
      obtain ⟨x, din'⟩ := r
      obtain rfl : x = FSSIZE := is
      simp only [wp_bind, entryBlock]
      refine wp_rsect (by rw [same, h.len]) (by decide) (fun lt => absurd lt (Nat.lt_irrefl _)) fun _ => die bad

/-! ### The loop -/

/-- The blocks of a file of size `n`, with its indirect block. -/
def cost (n : ℕ) : ℕ := (n + (BSIZE - 1)) / BSIZE + if NDIRECT * BSIZE < n then 1 else 0

lemma cost_mono {m n : ℕ} (le : m ≤ n) : cost m ≤ cost n := by
  simp only [cost, BSIZE, NDIRECT]
  split <;> split <;> omega

lemma Holds.cost_add (h : Holds D i c) (lt : c.length / BSIZE < MAXFILE) (pos : bs ≠ [])
    (room : c.length % BSIZE + bs.length ≤ BSIZE) :
    cost (c.length + bs.length) = cost c.length + need D i (c.length / BSIZE) := by
  have slot := h.slot lt
  have ind := h.indirect
  have pos : 0 < bs.length := List.length_pos_iff.2 pos
  have slot' : D.slots super (i, slotOf (c.length / BSIZE)) = 0 ↔ ¬c.length / BSIZE * BSIZE < c.length := by
    rw [← slot, not_not]
  have ind' : D.slots super (i, .addr NDIRECT) = 0 ↔ ¬NDIRECT * BSIZE < c.length := by
    rw [← ind, not_not]
  simp only [need, slot', ind', cost]
  generalize c.length = n at *
  generalize bs.length = m at *
  simp only [NDIRECT, BSIZE] at *
  split <;> split <;> split <;> split <;> omega

/-- What `iappend` does to the image with the bytes `p` for inode `i`, which has the bytes `c`. -/
structure Appended (i : ℕ) (c p : List UInt8) (st st' : State) (D D' : Disk) (din : RawDinode) : Prop where
  core : Core st' D'
  opened : Open i (c ++ p).length D' din
  holds : Holds D' i (c ++ p)
  others : ∀ {j c'}, j ≠ i → Holds D j c' → Holds D' j c'
  inodes : ∀ j, j ≠ i → D'.inodes j = D.inodes j
  type : (D'.inodes i).type = (D.inodes i).type
  low : ∀ b, b < nmeta → st'.image.blocks b = st.image.blocks b
  freeinode : st'.freeinode = st.freeinode
  freeblock : st'.freeblock + cost c.length = st.freeblock + cost (c ++ p).length

lemma Appended.trans {st'' : State} {D'' : Disk} {p q : List UInt8} {din din' : RawDinode}
    (a : Appended i c p st st' D D' din) (b : Appended i (c ++ p) q st' st'' D' D'' din') :
    Appended i c (p ++ q) st st'' D D'' din' where
  core := b.core
  opened := by simpa using b.opened
  holds := by simpa using b.holds
  others ne h := b.others ne (a.others ne h)
  inodes j ne := (b.inodes j ne).trans (a.inodes j ne)
  type := b.type.trans a.type
  low x lt := (b.low x lt).trans (a.low x lt)
  freeinode := b.freeinode.trans a.freeinode
  freeblock := by
    have := a.freeblock
    have := b.freeblock
    rw [List.append_assoc] at this
    omega

lemma Took.store (t : Took i (c.length / BSIZE) c.length st st' D D' din (need D i (c.length / BSIZE)))
    (o : Open i c.length D din') (h : Holds D i c) (s : Stored i bs c D D') :
    Appended i c bs st (st'.write (D'.slots super (i, slotOf (c.length / BSIZE)))
      ((st'.image.blocks (D'.slots super (i, slotOf (c.length / BSIZE)))).putBytes (c.length % BSIZE) bs))
      D (Mkfs.store D' i c bs) din := by
  have range := t.core.sound.range s.here
  have below : D'.slots super (i, slotOf (c.length / BSIZE)) < st'.freeblock := by
    have used := t.core.sound.used_of_ref s.here
    rw [t.core.bitmap] at used
    simpa using used
  constructor
  case core =>
    refine ⟨t.core.len, t.core.low, t.core.high, t.core.bitmap, ?_, fun {b} le => ?_, ?_⟩
    · simp [Mkfs.store, resize, Disk.put, State.write, t.core.blocks]
    · have le : st'.freeblock ≤ b := le
      simp only [State.write]
      rw [Function.update_of_ne (by omega)]
      exact t.core.zero le
    · rw [Sound, s.slots_store]
      exact t.core.sound
  case opened =>
    refine ⟨o.lt, ?_, ?_, t.ok⟩
    · have := (t.open o).alloc
      simpa [Mkfs.store, resize, Disk.put] using this
    · simp only [Mkfs.store, resize, Disk.put, Function.update_self, t.inode]
      rfl
  case holds => exact s.holds h
  case others => exact fun ne h' => s.other h' ne
  case inodes =>
    intro j ne
    simp only [Mkfs.store, resize, Disk.put, Function.update_of_ne ne]
    exact t.ext.others j ne
  case type =>
    obtain ⟨addrs, eq⟩ := t.ext.self
    simp [Mkfs.store, resize, Disk.put, eq]
  case low =>
    intro b lt
    simp only [State.write]
    rw [Function.update_of_ne, t.low b lt]
    rintro rfl
    exact absurd range.1 (by simpa using lt)
  case freeinode => exact t.freeinode
  case freeblock =>
    have := h.cost_add s.lt s.pos s.room
    have := t.freeblock
    simp only [State.write, List.length_append]
    omega

/-- There is no room for a file of size `n` that has size `m` now: it is too large, or the image is full. -/
def Full (st : State) (m n : ℕ) : Prop := MAXFILE * BSIZE < n ∨ FSSIZE + cost m < st.freeblock + cost n

lemma Appended.refl (h : Core st D) (o : Open i c.length D din) (holds : Holds D i c) : Appended i c [] st st D D din where
  core := h
  opened := by simpa using o
  holds := by simpa using holds
  others _ := id
  inodes _ _ := rfl
  type := rfl
  low _ _ := rfl
  freeinode := rfl
  freeblock := by rw [List.append_nil]

lemma wp_appendLoop {Q : ℕ × RawDinode → State → Prop} {p : List UInt8} (h : Core st D) (o : Open i c.length D din)
    (holds : Holds D i c)
    (done : ∀ st' D' din', Appended i c p st st' D D' din' → Q ((c ++ p).length, din') st')
    (full : Full st c.length (c.length + p.length) → ∀ e, P e) : wp P (appendLoop p c.length din) Q st := by
  induction eq : p.length using Nat.strongRecOn generalizing p c st D din with
  | ind n ih =>
    unfold appendLoop
    split
    case isTrue nil =>
      subst nil
      rw [wp_pure]
      simpa using done st D din (.refl h o holds)
    case isFalse ne =>
      have pos : 0 < p.length := List.length_pos_iff.2 ne
      have div := Nat.div_add_mod c.length BSIZE
      have mod : c.length % BSIZE < BSIZE := Nat.mod_lt _ (by decide)
      by_cases lt : c.length / BSIZE < MAXFILE
      · rw [if_pos lt]
        -- the bytes of this round
        have n1 : min p.length ((c.length / BSIZE + 1) * BSIZE - c.length) = min p.length (BSIZE - c.length % BSIZE) := by
          rw [Nat.add_mul, Nat.mul_comm]
          omega
        have o1 : c.length - c.length / BSIZE * BSIZE = c.length % BSIZE := by
          rw [Nat.mul_comm]
          omega
        simp only [n1, o1]
        generalize eqm : min p.length (BSIZE - c.length % BSIZE) = m
        have len : (p.take m).length = m := by
          rw [List.length_take]
          omega
        have some : p.take m ≠ [] := by
          rw [← List.length_pos_iff]
          omega
        have room : c.length % BSIZE + (p.take m).length ≤ BSIZE := by omega
        have cost := holds.cost_add lt some room
        have mono : Mkfs.cost (c.length + (p.take m).length) ≤ Mkfs.cost (c.length + p.length) := cost_mono (by omega)
        have short : FSSIZE < st.freeblock + need D i (c.length / BSIZE) → ∀ e, P e := fun bad => full (.inr (by omega))
        rw [wp_bind]
        refine wp_fileBlock h o lt (fun r st' D' took is nz ind => ?_) (fun bad r st' is len => ?_) fun bad => short bad _
        · obtain ⟨x, din'⟩ := r
          have is : D'.slots super (i, slotOf (c.length / BSIZE)) = x := is
          have stored : Stored i (p.take m) c D D' := ⟨took.ext, took.core.sound, lt, by rwa [is], ind, some, room⟩
          have range := took.core.sound.range stored.here
          rw [is] at range
          have below : x < FSSIZE := range.2
          rw [wp_bind]
          refine wp_rsect took.core.len (below.trans (by decide)) (fun _ => ?_) fun le => absurd below (by omega)
          rw [wp_bind]
          refine wp_wsect took.core.len below ?_
          have app := took.store o holds stored
          rw [is] at app
          have next := app.opened
          have len' : (c ++ p.take m).length = c.length + m := by rw [List.length_append, len]
          rw [← len']
          refine ih (p.drop m).length (by rw [List.length_drop]; omega) app.core app.opened app.holds (fun st'' D'' din'' a => ?_)
            (fun bad => full ?_) rfl
          · have := done st'' D'' din'' (by simpa using app.trans a)
            simpa using this
          · have count := app.freeblock
            have left : (p.drop m).length = p.length - m := List.length_drop
            have total : c.length + m + (p.length - m) = c.length + p.length := by omega
            simp only [Full, len', left, total] at bad count ⊢
            omega
        · -- the block is beyond the end of the image
          obtain ⟨x, din'⟩ := r
          obtain rfl : x = FSSIZE := is
          simp only [wp_bind]
          exact wp_rsect len (by decide) (fun lt => absurd lt (Nat.lt_irrefl _)) fun _ => short bad _
      · rw [if_neg lt, wp_throw]
        refine full (.inl ?_) _
        have : MAXFILE * BSIZE ≤ c.length / BSIZE * BSIZE := Nat.mul_le_mul_right _ (Nat.le_of_not_lt lt)
        rw [Nat.mul_comm (c.length / BSIZE)] at this
        omega

end Xv6.Mkfs
