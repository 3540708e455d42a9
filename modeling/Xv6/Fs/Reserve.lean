import Xv6.Fs.Call
import Xv6.Fs.Content
import Xv6.Fs.Dinode
import Xv6.Lib.Journal

/-!
# The blocks that a write logs

`filewrite` cuts a write into operations of at most `WRITEMAX` bytes, so that each of them logs no more than the
`MAXOPBLOCKS` blocks for which `begin_op` has made room. Here the functions of `Xv6.Fs.Inode` on the way of a write keep a
journal of the blocks they pass to `log_write`, and without it are those functions (`erases_writei`). A block of the file that
is allocated costs itself and a block of the free map, one that is there costs itself; the indirect block costs two, once, and
the inode one.
-/

namespace Xv6.Fs

/-- Where the inodes and the free map begin (`struct superblock`). -/
structure Layout where
  inodestart : ℕ
  bmapstart : ℕ

/-- Bits per block of the free map (`fs.h`). -/
abbrev BPB : ℕ := BSIZE * 8

/-- `BBLOCK`: the block of the free map with the bit of a block. -/
def Layout.bblock (lo : Layout) (b : ℕ) : ℕ := b / BPB + lo.bmapstart

/-- `IBLOCK`: the block with an inode. -/
def Layout.iblock (lo : Layout) (i : ℕ) : ℕ := i / IPB + lo.inodestart

/-- The blocks below the size of the inode in memory are there. -/
def State.Mapped (s : State) (ip : Fin NINODE) : Prop :=
  ∀ off, off < (s.itable ip).din.size → (s.flush ip).addr (s.itable ip).inum (slotOf (off / BSIZE)) ≠ 0

/-- The state in which the inode has been read from the disk. -/
def State.loaded (s : State) (ip : Fin NINODE) : State :=
  if (s.itable ip).valid then s
  else
    { s with
      itable := Function.update s.itable ip
        { s.itable ip with valid := true, din := s.disk.inodes (s.itable ip).inum } }

section

variable {s : State} {ip : Fin NINODE}

@[simp]
lemma State.loaded_disk : (s.loaded ip).disk = s.disk := by
  unfold State.loaded
  split <;> rfl

@[simp]
lemma State.loaded_ftable : (s.loaded ip).ftable = s.ftable := by
  unfold State.loaded
  split <;> rfl

@[simp]
lemma State.loaded_inum : ((s.loaded ip).itable ip).inum = (s.itable ip).inum := by
  unfold State.loaded
  split <;> simp

end

lemma wp_load_loaded {P : Panic → Prop} {s : State} {ip : Fin NINODE} {Q : Unit → State → Prop}
    (free : (s.disk.inodes (s.itable ip).inum).type = .free → P .ilockNoType) (h : Q () (s.loaded ip)) : Fallible.wp P (load ip) Q s := by
  simp only [load, inode, Fallible.wp_bind, Fallible.wp_get, Fallible.wp_pure]
  unfold State.loaded at h
  split
  · rename_i valid
    rwa [if_pos valid] at h
  · rename_i invalid
    rw [if_neg invalid] at h
    simp only [setInode, Fallible.wp_bind, Fallible.wp_get, Fallible.wp_modify]
    split
    · exact free ‹_›
    · exact h

/-- The part of `filewrite` between `begin_op` and `end_op`, for `n` bytes. -/
def writeOp (sb : Superblock) (f : Fin NFILE) (ip : Fin NINODE) (src : ℕ → Option UInt8) (n : ℕ) : M (Option ℕ) := do
  load ip
  let s ← get
  let r ← writei sb ip src (s.ftable f).off n
  if let some w := r then setFile f fun F => { F with off := F.off + w }
  return r

/-- Programs with a journal of the calls of `log_write`. -/
abbrev L := Journal State ℕ Panic

end Xv6.Fs

namespace Xv6.Logging

open Fs Journal
open Calls (WRITEMAX)
open Fallible (wp)

section

variable (lo : Layout) (sb : Superblock)

def balloc : L ℕ := do
  let x ← get
  match (List.range sb.size).find? fun b => !x.1.disk.bitmap b with
  | some b =>
    lift (setBit b true)
    tell (lo.bblock b)
    lift (bwrite b fun _ => 0)
    tell b
    return b
  | none => return 0

/-- The part of `bmap` for an element of `addrs`. -/
def bmapAddr (ip : Fin NINODE) (k : ℕ) : L ℕ := do
  let addr := (← lift (inode ip)).din.addrs k
  if addr = 0 then
    let addr ← balloc lo sb
    if addr = 0 then return 0
    else
      lift (setDin ip fun d => { d with addrs := Function.update d.addrs k addr })
      return addr
  else return addr

/-- The part of `bmap` for an entry of the indirect block. -/
def bmapEntry (ind j : ℕ) : L ℕ := do
  let addr := (← lift (bread ind)).getLE (4 * j) 4
  if addr = 0 then
    let addr ← balloc lo sb
    if addr = 0 then return 0
    else
      lift (bwrite ind ((← lift (bread ind)).putLE (4 * j) 4 addr))
      tell ind
      return addr
  else return addr

def bmap (ip : Fin NINODE) (bn : ℕ) : L ℕ := do
  if bn < NDIRECT then bmapAddr lo sb ip bn
  else if bn - NDIRECT < NINDIRECT then
    let ind ← bmapAddr lo sb ip NDIRECT
    if ind = 0 then return 0 else bmapEntry lo sb ind (bn - NDIRECT)
  else throw .bmapOutOfRange

/-- The loop of `writei`. A block that could not be filled is not logged. -/
def writeLoop (ip : Fin NINODE) (src : ℕ → Option UInt8) (off n tot : ℕ) : L (ℕ × ℕ) := do
  if _h : n = 0 then return (off, tot)
  else
    let addr ← bmap lo sb ip (off / BSIZE)
    if addr = 0 then return (off, tot)
    else
      let m := min n (BSIZE - off % BSIZE)
      let bytes := copyin src tot m
      let blk := (← lift (bread addr)).putBytes (off % BSIZE) bytes
      if bytes.length = m then
        lift (bwrite addr blk)
        tell addr
        writeLoop ip src (off + m) (n - m) (tot + m)
      else
        lift (bchange addr blk)
        return (off, tot)
termination_by n
decreasing_by
  have : off % 1024 < 1024 := Nat.mod_lt _ (by decide)
  simp only [BSIZE]
  omega

def writei (ip : Fin NINODE) (src : ℕ → Option UInt8) (off n : ℕ) : L (Option ℕ) := do
  let I ← lift (inode ip)
  if off > I.din.size ∨ (off + n) % 2 ^ 32 < off then return none
  else if off + n > MAXFILE * BSIZE then return none
  else
    let (off, tot) ← writeLoop lo sb ip src off n 0
    lift (setDin ip fun d => { d with size := if off > d.size then off else d.size })
    lift (iupdate ip)
    tell (lo.iblock I.inum)
    return some tot

def writeOp (f : Fin NFILE) (ip : Fin NINODE) (src : ℕ → Option UInt8) (n : ℕ) : L (Option ℕ) := do
  lift (load ip)
  let x ← get
  let r ← writei lo sb ip src (x.1.ftable f).off n
  if let some w := r then lift (setFile f fun F => { F with off := F.off + w })
  return r

/-- An operation of `filewrite`: the state in which it begins, and the blocks it logs. -/
structure Section where
  start : State
  log : List ℕ

/-- The loop of `filewrite`: its operations, and whether all bytes have been written. What the other processes do before the
operation that begins with byte `i` is `others i`. -/
def filewriteLoop (others : ℕ → State → State) (f : Fin NFILE) (ip : Fin NINODE) (src : ℕ → Option UInt8) (i n : ℕ)
    (s : State) : List Section × Except Panic (Bool × State) :=
  if _h : n = 0 then ([], .ok (true, s))
  else
    let n₁ := min n WRITEMAX
    match writeOp lo sb f ip (fun j => src (i + j)) n₁ (others i s, []) with
    | .error e => ([], .error e)
    | .ok (r, s', log) =>
      if r = some n₁ then
        let rest := filewriteLoop others f ip src (i + n₁) (n - n₁) s'
        (⟨others i s, log⟩ :: rest.1, rest.2)
      else ([⟨others i s, log⟩], .ok (false, s'))
termination_by n
decreasing_by
  simp only [WRITEMAX, MAXOPBLOCKS, BSIZE]
  omega

end

variable {lo : Layout} {sb : Superblock} {P : Panic → Prop} {ip : Fin NINODE} {f : Fin NFILE} {src : ℕ → Option UInt8}
  {off n tot : ℕ} {s : State} {l : List ℕ}

lemma erases_balloc : Erases (balloc lo sb) (Fs.balloc sb) := by
  refine .get fun s l => ?_
  dsimp only
  cases (List.range sb.size).find? fun b => !s.disk.bitmap b with
  | some b => exact .bind .lift fun _ => .tell (.bind .lift fun _ => .tell .pure)
  | none => exact .pure

lemma erases_bmapAddr {k : ℕ} : Erases (bmapAddr lo sb ip k) (Fs.bmapAddr sb ip k) := by
  refine .bind .lift fun I => ?_
  dsimp only
  split
  · refine .bind erases_balloc fun addr => ?_
    split
    · exact .pure
    · exact .bind .lift fun _ => .pure
  · exact .pure

lemma erases_bmapEntry {ind j : ℕ} : Erases (bmapEntry lo sb ind j) (Fs.bmapEntry sb ind j) := by
  refine .bind .lift fun blk => ?_
  dsimp only
  split
  · refine .bind erases_balloc fun addr => ?_
    split
    · exact .pure
    · exact .bind .lift fun _ => .bind .lift fun _ => .tell .pure
  · exact .pure

lemma erases_bmap {bn : ℕ} : Erases (bmap lo sb ip bn) (Fs.bmap sb ip bn) := by
  unfold bmap Fs.bmap
  split
  · exact erases_bmapAddr
  · split
    · refine .bind erases_bmapAddr fun ind => ?_
      split
      · exact .pure
      · exact erases_bmapEntry
    · exact .throw

lemma erases_writeLoop : Erases (writeLoop lo sb ip src off n tot) (Fs.writeLoop sb ip src off n tot) := by
  induction n using Nat.strongRecOn generalizing off tot with
  | ind n ih =>
    unfold writeLoop Fs.writeLoop
    split
    · exact .pure
    · rename_i pos
      refine .bind erases_bmap fun addr => ?_
      split
      · exact .pure
      · refine .bind .lift fun blk => ?_
        dsimp only
        split
        · refine .bind .lift fun _ => .tell (ih _ ?_)
          have : off % 1024 < 1024 := Nat.mod_lt _ (by decide)
          simp only [BSIZE]
          omega
        · exact .bind .lift fun _ => .pure

lemma erases_writei : Erases (writei lo sb ip src off n) (Fs.writei sb ip src off n) := by
  refine .bind .lift fun I => ?_
  dsimp only
  split
  · exact .pure
  · split
    · exact .pure
    · exact .bind erases_writeLoop fun r => .bind .lift fun _ => .bind .lift fun _ => .tell .pure


/-- The indirect block and the block with its bit, if there is one. -/
def own (lo : Layout) (ind : ℕ) : Finset ℕ := if ind = 0 then ∅ else {ind, lo.bblock ind}

lemma card_own {ind : ℕ} : (own lo ind).card ≤ 2 := by
  unfold own
  split
  · exact Nat.zero_le _
  · exact Finset.card_le_two

/-- The blocks that have been logged from `x` to `x'` are in `X`, apart from those for the indirect block. -/
structure Charges (lo : Layout) (ip : Fin NINODE) (X : Finset ℕ) (x x' : State × List ℕ) : Prop where
  ind : (x.1.itable ip).din.addrs NDIRECT ≠ 0 →
    (x'.1.itable ip).din.addrs NDIRECT = (x.1.itable ip).din.addrs NDIRECT
  logs : ∀ b ∈ x'.2, b ∈ x.2 ∨ b ∈ X ∨ b ∈ own lo ((x'.1.itable ip).din.addrs NDIRECT)

namespace Charges

variable {X Y : Finset ℕ} {x y z : State × List ℕ} {s' : State} {b : ℕ}

lemma refl : Charges lo ip X x x := ⟨fun _ => rfl, fun _ mem => .inl mem⟩

/-- One part after the other. The indirect block that the first part has used is the one of the second. -/
lemma trans (g : Charges lo ip X x y) (h : Charges lo ip Y y z) : Charges lo ip (X ∪ Y) x z where
  ind ne := by
    have eq := g.ind ne
    rw [h.ind (eq ▸ ne), eq]
  logs b mem := by
    rw [Finset.mem_union]
    rcases h.logs b mem with old | new | ind
    · rcases g.logs b old with old | new | ind
      · exact .inl old
      · exact .inr (.inl (.inl new))
      · refine .inr (.inr ?_)
        by_cases zero : (y.1.itable ip).din.addrs NDIRECT = 0
        · simp [own, zero] at ind
        · rwa [h.ind zero]
    · exact .inr (.inl (.inr new))
    · exact .inr (.inr ind)

/-- Blocks of `X` and the indirect block are logged, and the inode in memory does not change. -/
lemma log (g : Charges lo ip X x (s, l)) (itable : s'.itable = s.itable) {l' : List ℕ}
    (mem : ∀ b ∈ l', b ∈ X ∨ b ∈ own lo ((s.itable ip).din.addrs NDIRECT)) : Charges lo ip X x (s', l ++ l') where
  ind ne := by
    simp only [itable]
    exact g.ind ne
  logs b h := by
    simp only [itable]
    rcases List.mem_append.1 h with old | new
    · exact g.logs b old
    · exact .inr (mem b new)

end Charges

variable {k bn ind j : ℕ}

lemma wp_balloc {Q : ℕ → State × List ℕ → Prop} (full : Q 0 (s, l))
    (found : ∀ b, Q b (s.alloc b, l ++ [lo.bblock b, b])) : wp P (balloc lo sb) Q (s, l) := by
  simp only [balloc, Fallible.wp_bind, Fallible.wp_get]
  split
  · rename_i b _
    simp only [setBit, bwrite, setDisk, Fallible.wp_bind, wp_lift, wp_tell, Fallible.wp_modify, Fallible.wp_pure,
      List.append_assoc]
    exact found b
  · exact full

lemma wp_bmapAddr {Q : ℕ → State × List ℕ → Prop} (kept : Q ((s.itable ip).din.addrs k) (s, l))
    (found : (s.itable ip).din.addrs k = 0 → ∀ b,
      Q b (if b = 0 then s.alloc b else s.setAddr ip k b, l ++ [lo.bblock b, b])) :
    wp P (bmapAddr lo sb ip k) Q (s, l) := by
  simp only [bmapAddr, inode, Fallible.wp_bind, wp_lift, Fallible.wp_get, Fallible.wp_pure]
  split
  · rename_i zero
    rw [zero] at kept
    rw [Fallible.wp_bind]
    refine wp_balloc (by simpa using kept) fun b => ?_
    have new := found zero b
    split
    · rename_i b0
      subst b0
      exact new
    · rename_i ne
      rw [if_neg ne] at new
      exact new
  · exact kept

/-- The part of `bmap` for an entry of the indirect block, which is logged if a block is allocated. -/
lemma wp_bmapEntry {Q : ℕ → State × List ℕ → Prop} (kept : Q ((s.disk.blocks ind).getLE (4 * j) 4) (s, l))
    (found : ∀ b s', s'.itable = s.itable → ∀ l', (∀ c ∈ l', c = lo.bblock b ∨ c = b ∨ c = ind) → Q b (s', l ++ l')) :
    wp P (bmapEntry lo sb ind j) Q (s, l) := by
  simp only [bmapEntry, bread, Fallible.wp_bind, wp_lift, Fallible.wp_get, Fallible.wp_pure]
  split
  · rename_i zero
    rw [zero] at kept
    rw [Fallible.wp_bind]
    refine wp_balloc (by simpa using kept) fun b => ?_
    split
    · rename_i b0
      subst b0
      exact found 0 (s.alloc 0) rfl [lo.bblock 0, 0] (by simp)
    · simp only [bwrite, Fallible.wp_bind, wp_lift, wp_tell, Fallible.wp_get, Fallible.wp_modify, Fallible.wp_pure,
        List.append_assoc]
      refine found b _ ?_ [lo.bblock b, b, ind] (by simp)
      rfl
  · exact kept

lemma wp_bmap {Q : ℕ → State × List ℕ → Prop} (lt : bn < MAXFILE)
    (h : ∀ a X x, X.card ≤ 2 → (a ≠ 0 → a ∈ X) → Charges lo ip X (s, l) x → Q a x) :
    wp P (bmap lo sb ip bn) Q (s, l) := by
  -- what a block costs that is there, and one that is allocated
  have old : ∀ {a x}, Charges lo ip {a} (s, l) x → Q a x := fun c =>
    h _ _ _ ((Finset.card_singleton _).trans_le (by decide)) (fun _ => Finset.mem_singleton_self _) c
  have new : ∀ {a x}, Charges lo ip {lo.bblock a, a} (s, l) x → Q a x := fun c =>
    h _ _ _ Finset.card_le_two (fun _ => by simp) c
  unfold bmap
  split
  · rename_i direct
    refine wp_bmapAddr (old .refl) fun _ b => new ?_
    have last : NDIRECT ≠ bn := by omega
    have ind : ((if b = 0 then s.alloc b else s.setAddr ip bn b).itable ip).din.addrs NDIRECT =
        (s.itable ip).din.addrs NDIRECT := by
      split
      · rfl
      · simp [State.setAddr, Function.update_of_ne last]
    exact ⟨fun _ => ind, fun c mem => (List.mem_append.1 mem).imp_right fun mem => .inl (by simpa using mem)⟩
  · rename_i indirect
    rw [if_pos (entry_lt lt indirect), Fallible.wp_bind]
    -- the indirect block is there, or has been allocated
    have entry : ∀ t l', (t.itable ip).din.addrs NDIRECT ≠ 0 → Charges lo ip ∅ (s, l) (t, l') →
        wp P (bmapEntry lo sb ((t.itable ip).din.addrs NDIRECT) (bn - NDIRECT)) Q (t, l') := by
      intro t l' ne c
      have sub : ∀ X, Charges lo ip X (t, l') (t, l') → Charges lo ip X (s, l) (t, l') := fun X g => by
        simpa using c.trans g
      refine wp_bmapEntry (old (sub _ .refl)) fun b s' itable l'' mem => new ?_
      refine (sub _ .refl).log itable fun d h => ?_
      rcases mem d h with rfl | rfl | rfl
      · exact .inl (by simp)
      · exact .inl (by simp)
      · exact .inr (by simp [own, ne])
    refine wp_bmapAddr ?_ fun zero b => ?_
    · split
      · exact h 0 ∅ _ (by decide) (fun ne => absurd rfl ne) .refl
      · rename_i ne
        exact entry s l ne .refl
    · split
      · rename_i b0
        subst b0
        refine new ⟨fun ne => absurd zero ne, fun c mem => (List.mem_append.1 mem).imp_right fun mem => .inl ?_⟩
        simpa using mem
      · rename_i ne
        have ind : ((s.setAddr ip NDIRECT b).itable ip).din.addrs NDIRECT = b := by simp [State.setAddr]
        have := entry (s.setAddr ip NDIRECT b) (l ++ [lo.bblock b, b]) (ind.symm ▸ ne) ?_
        · rwa [ind] at this
        · refine ⟨fun ne => absurd zero ne, fun c mem => (List.mem_append.1 mem).imp_right fun mem => .inr ?_⟩
          rw [ind, own, if_neg ne]
          simpa [or_comm] using mem

lemma wp_bmap_mapped {Q : ℕ → State × List ℕ → Prop} (lt : bn < MAXFILE)
    (ne : (s.flush ip).addr (s.itable ip).inum (slotOf bn) ≠ 0)
    (h : Q ((s.flush ip).addr (s.itable ip).inum (slotOf bn)) (s, l)) : wp P (bmap lo sb ip bn) Q (s, l) := by
  unfold bmap
  by_cases direct : bn < NDIRECT
  · have addr : (s.flush ip).addr (s.itable ip).inum (slotOf bn) = (s.itable ip).din.addrs bn := by
      simp [slotOf, direct, Disk.addr]
    rw [addr] at ne h
    rw [if_pos direct]
    exact wp_bmapAddr h fun zero => absurd zero ne
  · have ind : (s.itable ip).din.addrs NDIRECT ≠ 0 := by
      intro zero
      simp [slotOf, direct, Disk.addr, zero] at ne
    have addr : (s.flush ip).addr (s.itable ip).inum (slotOf bn) =
        (s.disk.blocks ((s.itable ip).din.addrs NDIRECT)).getLE (4 * (bn - NDIRECT)) 4 := by
      simp [slotOf, direct, Disk.addr, ind, State.flush]
    rw [addr] at ne h
    rw [if_neg direct, if_pos (entry_lt lt direct), Fallible.wp_bind]
    refine wp_bmapAddr ?_ fun zero => absurd zero ind
    rw [if_neg ind]
    simp only [bmapEntry, bread, Fallible.wp_bind, wp_lift, Fallible.wp_get, Fallible.wp_pure]
    rwa [if_neg ne]

/-- The number of blocks with the bytes from `off` to `off + n`. -/
def blocks (off n : ℕ) : ℕ := if n = 0 then 0 else (off % BSIZE + n + (BSIZE - 1)) / BSIZE

lemma blocks_succ (pos : n ≠ 0) :
    blocks (off + min n (BSIZE - off % BSIZE)) (n - min n (BSIZE - off % BSIZE)) + 1 = blocks off n := by
  have mod : off % 1024 < 1024 := Nat.mod_lt _ (by decide)
  simp only [blocks, BSIZE, if_neg pos]
  rcases Nat.le_total n (1024 - off % 1024) with le | le
  · rw [Nat.min_eq_left le, if_pos (Nat.sub_self n)]
    omega
  · rw [Nat.min_eq_right le]
    split <;> omega

lemma wp_writeLoop_block {Q : ℕ × ℕ → State × List ℕ → Prop} {a m : ℕ} {X : Finset ℕ} {x : State × List ℕ} {r : ℕ × ℕ}
    {bytes : List UInt8} (mem : a ∈ X) (c : Charges lo ip X x (s, l))
    (stop : ∀ y, Charges lo ip X x y → Q r y)
    (next : ∀ t l', Charges lo ip X x (t, l') → wp P (writeLoop lo sb ip src (off + m) (n - m) (tot + m)) Q (t, l')) :
    wp P (do
      let blk := (← lift (bread a)).putBytes (off % BSIZE) bytes
      if bytes.length = m then
        lift (bwrite a blk)
        tell a
        writeLoop lo sb ip src (off + m) (n - m) (tot + m)
      else
        lift (bchange a blk)
        return r) Q (s, l) := by
  simp only [bread, Fallible.wp_bind, wp_lift, Fallible.wp_get, Fallible.wp_pure]
  split
  · simp only [bwrite, Fallible.wp_bind, wp_lift, wp_tell, Fallible.wp_modify]
    refine next _ _ (c.log ?_ fun b h => .inl (List.mem_singleton.1 h ▸ mem))
    rfl
  · simp only [bchange, Fallible.wp_bind, wp_lift, Fallible.wp_modify, Fallible.wp_pure]
    refine stop _ ?_
    rw [← List.append_nil l]
    refine c.log ?_ fun b h => absurd h List.not_mem_nil
    rfl

lemma wp_writeLoop {Q : ℕ × ℕ → State × List ℕ → Prop} (fits : off + n ≤ MAXFILE * BSIZE)
    (h : ∀ r X x, X.card ≤ 2 * blocks off n → Charges lo ip X (s, l) x → Q r x) :
    wp P (writeLoop lo sb ip src off n tot) Q (s, l) := by
  induction n using Nat.strongRecOn generalizing off tot s l Q with
  | ind n ih =>
    unfold writeLoop
    split
    · exact h _ ∅ _ (Nat.zero_le _) .refl
    · rename_i pos
      have mod : off % 1024 < 1024 := Nat.mod_lt _ (by decide)
      have more := @blocks_succ off n pos
      rw [Fallible.wp_bind]
      refine wp_bmap (block_lt (by omega)) fun a X x card mem c => ?_
      split
      · exact h _ X _ (by omega) c
      · rename_i ne
        refine wp_writeLoop_block (mem ne) c (fun y c => h _ X _ (by omega) c) fun t l' c => ?_
        refine ih _ (by simp only [BSIZE]; omega) (by omega) fun r Y y cardY d => ?_
        exact h r (X ∪ Y) y ((Finset.card_union_le _ _).trans (by omega)) (c.trans d)

lemma wp_writeLoop_mapped {Q : ℕ × ℕ → State × List ℕ → Prop} (fits : off + n ≤ MAXFILE * BSIZE) (pos : n ≠ 0)
    (ne : (s.flush ip).addr (s.itable ip).inum (slotOf (off / BSIZE)) ≠ 0)
    (h : ∀ r X x, X.card + 1 ≤ 2 * blocks off n → Charges lo ip X (s, l) x → Q r x) :
    wp P (writeLoop lo sb ip src off n tot) Q (s, l) := by
  have more := @blocks_succ off n pos
  unfold writeLoop
  rw [dif_neg pos, Fallible.wp_bind]
  refine wp_bmap_mapped (block_lt (by omega)) ne ?_
  rw [if_neg ne]
  refine wp_writeLoop_block (Finset.mem_singleton_self _) .refl (fun y c => h _ {_} _ ?_ c) fun t l' c => ?_
  · rw [Finset.card_singleton]
    omega
  · refine wp_writeLoop (by omega) fun r Y y cardY d => h r (_ ∪ Y) y ?_ (c.trans d)
    have := Finset.card_union_le {(s.flush ip).addr (s.itable ip).inum (slotOf (off / BSIZE))} Y
    rw [Finset.card_singleton] at this
    omega

/-- A write of at most `WRITEMAX` bytes costs seven blocks, apart from the inode and the indirect block: if it touches four
blocks, it begins inside of a block of the file. -/
lemma wp_writeLoop_max {Q : ℕ × ℕ → State × List ℕ → Prop} (fits : off + n ≤ MAXFILE * BSIZE) (mapped : s.Mapped ip)
    (lo' : off ≤ (s.itable ip).din.size) (le : n ≤ WRITEMAX)
    (h : ∀ r X x, X.card ≤ 7 → Charges lo ip X (s, l) x → Q r x) :
    wp P (writeLoop lo sb ip src off n tot) Q (s, l) := by
  have bound : n ≤ 3 * 1024 := le
  by_cases aligned : n = 0 ∨ off % 1024 = 0
  · refine wp_writeLoop fits fun r X x card => h r X x (card.trans ?_)
    simp only [blocks, BSIZE]
    split <;> omega
  · have ne : (s.flush ip).addr (s.itable ip).inum (slotOf (off / BSIZE)) ≠ 0 := by
      have last := mapped (off - 1) (by omega)
      rwa [show (off - 1) / BSIZE = off / BSIZE by simp only [BSIZE]; omega] at last
    refine wp_writeLoop_mapped fits (by omega) ne fun r X x card => h r X x ?_
    simp only [blocks, BSIZE] at card
    split at card <;> omega

lemma wp_writei {Q : Option ℕ → State × List ℕ → Prop} (mapped : s.Mapped ip) (le : n ≤ WRITEMAX)
    (h : ∀ r x (Z : Finset ℕ), Z.card ≤ MAXOPBLOCKS → (∀ b ∈ x.2, b ∈ l ∨ b ∈ Z) → Q r x) :
    wp P (writei lo sb ip src off n) Q (s, l) := by
  have fails : Q none (s, l) := h none _ ∅ (Nat.zero_le _) fun _ => .inl
  simp only [writei, inode, Fallible.wp_bind, wp_lift, Fallible.wp_get, Fallible.wp_pure]
  split
  · exact fails
  · rename_i range
    split
    · exact fails
    · rename_i room
      rw [Fallible.wp_bind]
      refine wp_writeLoop_max (by omega) mapped (by omega) le ?_
      rintro r X ⟨t, l'⟩ card c
      simp only [setDin, setInode, iupdate, Fallible.wp_bind, wp_lift, wp_tell, Fallible.wp_modify, Fallible.wp_pure]
      refine h _ _ (X ∪ own lo ((t.itable ip).din.addrs NDIRECT) ∪ {lo.iblock (s.itable ip).inum}) ?_ fun b mem => ?_
      · have one := Finset.card_union_le (X ∪ own lo ((t.itable ip).din.addrs NDIRECT)) {lo.iblock (s.itable ip).inum}
        have two := Finset.card_union_le X (own lo ((t.itable ip).din.addrs NDIRECT))
        have three := @card_own lo ((t.itable ip).din.addrs NDIRECT)
        rw [Finset.card_singleton] at one
        simp only [MAXOPBLOCKS]
        omega
      · simp only [Finset.mem_union, Finset.mem_singleton]
        rcases List.mem_append.1 mem with old | new
        · rcases c.logs b old with old | new | ind
          · exact .inl old
          · exact .inr (.inl (.inl new))
          · exact .inr (.inl (.inr ind))
        · exact .inr (.inr (List.mem_singleton.1 new))

lemma writeOp_fits (mapped : (s.loaded ip).Mapped ip) (le : n ≤ WRITEMAX) {r : Option ℕ} {s' : State} {log : List ℕ}
    (eq : writeOp lo sb f ip src n (s, []) = .ok (r, s', log)) : log.toFinset.card ≤ MAXOPBLOCKS := by
  have fits : wp (fun _ => True) (writeOp lo sb f ip src n) (fun _ x => x.2.toFinset.card ≤ MAXOPBLOCKS) (s, []) := by
    simp only [writeOp, Fallible.wp_bind, wp_lift]
    refine wp_load_loaded (fun _ => trivial) ?_
    rw [Fallible.wp_get, Fallible.wp_bind]
    refine wp_writei mapped le fun r x Z card sub => ?_
    have small : x.2.toFinset.card ≤ MAXOPBLOCKS := by
      refine (Finset.card_le_card fun b mem => ?_).trans card
      exact (sub b (List.mem_toFinset.1 mem)).resolve_left List.not_mem_nil
    cases r with
    | none => exact small
    | some w =>
      simp only [Fallible.wp_bind, setFile]
      exact small
  exact (Fallible.wp_ok eq).1 fits

lemma erases_writeOp : Erases (writeOp lo sb f ip src n) (Fs.writeOp sb f ip src n) := by
  refine .bind .lift fun _ => .get fun s l => .bind erases_writei fun r => ?_
  cases r with
  | none => exact .pure
  | some w => exact .bind .lift fun _ => .pure

/-- A sound disk, on which the inode in memory is allocated. -/
structure Writable (sb : Superblock) (ip : Fin NINODE) (s : State) : Prop where
  owned : Owned sb s.disk
  lt : (s.itable ip).inum < sb.ninodes
  alloc : (s.disk.inodes (s.itable ip).inum).type ≠ .free
  clean : (s.itable ip).valid → s.Clean ip
  ref : 1 ≤ (s.itable ip).ref

namespace Writable

lemma loaded (w : Writable sb ip s) : Writable sb ip (s.loaded ip) ∧ (s.loaded ip).Clean ip := by
  unfold State.loaded
  split
  · exact ⟨w, w.clean ‹_›⟩
  · have clean : State.Clean
        { s with
          itable := Function.update s.itable ip
            { s.itable ip with valid := true, din := s.disk.inodes (s.itable ip).inum } } ip := by
      simp [State.Clean]
    exact ⟨⟨w.owned, by simpa using w.lt, by simpa using w.alloc, fun _ => clean, by simpa using w.ref⟩, clean⟩

lemma mapped (w : Writable sb ip s) : (s.loaded ip).Mapped ip := by
  obtain ⟨w, clean⟩ := w.loaded
  intro off lt
  rw [clean] at lt
  have ne := (w.owned.mapped _ w.lt w.alloc).2 off lt
  rwa [clean.flush, ← (Disk.slots_ne ne).2.2.2]

lemma writes {s' : State} {w : ℕ} (g : Writable sb ip s) (W : Writes sb ip src s s' off n w) : Writable sb ip s' where
  owned := W.owned
  lt := by
    rw [W.self]
    exact g.lt
  alloc := by
    rw [W.self]
    have type : (s'.disk.inodes (s.itable ip).inum).type = (s.disk.inodes (s.itable ip).inum).type :=
      congrArg Node.type W.file.fields
    exact fun free => g.alloc (type ▸ free)
  clean _ := W.clean
  ref := by
    rw [W.self]
    exact g.ref

lemma writeOp (w : Writable sb ip s) (f : Fin NFILE) (src : ℕ → Option UInt8) (n : ℕ) :
    ∃ r s', Fs.writeOp sb f ip src n s = .ok (r, s') ∧ Writable sb ip s' := by
  apply Fallible.exists_of_wp
  simp only [Fs.writeOp, Fallible.wp_bind]
  refine wp_load_loaded (fun free => absurd free w.alloc) ?_
  obtain ⟨w, clean⟩ := w.loaded
  rw [Fallible.wp_bind, Fallible.wp_get, Fallible.wp_bind]
  refine Fs.wp_writei w.owned clean w.lt (clean ▸ w.alloc) (fun _ => w) fun m _ s' _ _ _ _ _ W => ?_
  have g := w.writes W
  exact ⟨g.owned, g.lt, g.alloc, g.clean, g.ref⟩

end Writable

/-- The instructions from `begin_op` to `end_op` are the operation, when no other process comes between. -/
lemma alone_writeOp {p : Fin NPROC} {k : Kernel} {r : Option ℕ} {s' : State} {next : Option ℕ → Call Bool}
    (unlocked : k.lock ip = none) (ref : 1 ≤ (k.fs.itable ip).ref) (ref' : 1 ≤ (s'.itable ip).ref)
    (eq : Fs.writeOp sb f ip src n k.fs = .ok (r, s')) :
    alone sb p (do
      Instr.beginOp
      Instr.ilock ip
      let F ← (Instr.file f : Call File)
      let r ← Instr.writei ip src F.off n
      if let some w := r then Instr.seek f w
      Instr.iunlock ip
      Instr.endOp
      next r : Call Bool) k = alone sb p (next r) { k with fs := s' } := by
  obtain ⟨⟨⟩, s₁, load, eq⟩ := Fallible.ok_of_bind eq
  obtain ⟨_, _, ⟨⟩, eq⟩ := Fallible.ok_of_bind eq
  obtain ⟨r', s₂, write, eq⟩ := Fallible.ok_of_bind eq
  have lock : Instr.exec sb p (.ilock ip) { k with ops := Function.update k.ops p (k.ops p + 1) } =
      .ok ((), ⟨s₁, Function.update k.lock ip (some p), Function.update k.ops p (k.ops p + 1)⟩) := by
    apply Fallible.eq_ok
    simp only [Instr.exec, Fallible.wp_bind, Fallible.wp_get, if_neg (Nat.not_lt.2 ref), acquiresleep, unlocked, if_true,
      Fallible.wp_modify, wp_kernel, Fallible.wp_ok load, and_self]
  -- `iunlock` and `end_op`
  have release : ∀ r' : Option ℕ, r' = r → alone sb p (do
      Instr.iunlock ip
      Instr.endOp
      next r' : Call Bool) ⟨s', Function.update k.lock ip (some p), Function.update k.ops p (k.ops p + 1)⟩ =
      alone sb p (next r) { k with fs := s' } := by
    rintro _ rfl
    have unlock : Instr.exec sb p (.iunlock ip)
        ⟨s', Function.update k.lock ip (some p), Function.update k.ops p (k.ops p + 1)⟩ =
        .ok ((), ⟨s', k.lock, Function.update k.ops p (k.ops p + 1)⟩) := by
      apply Fallible.eq_ok
      simp only [Instr.exec, Fallible.wp_bind, Fallible.wp_get, Function.update_self, ref', and_self, if_true,
        Fallible.wp_modify, Function.update_idem, true_and]
      rw [← unlocked, Function.update_eq_self]
    have finish : Instr.exec sb p .endOp ⟨s', k.lock, Function.update k.ops p (k.ops p + 1)⟩ =
        .ok ((), { k with fs := s' }) := by
      apply Fallible.eq_ok
      simp [Instr.exec]
    rw [alone_bind, alone_op, Fallible.bind_ok unlock, alone_bind, alone_op,
      Fallible.bind_ok finish]
  rw [alone_bind, alone_op]
  refine (Fallible.bind_ok rfl).trans ?_
  rw [alone_bind, alone_op, Fallible.bind_ok lock, alone_bind, alone_op]
  refine (Fallible.bind_ok rfl).trans ?_
  have exec : Instr.exec sb p (.writei ip src (s₁.ftable f).off n)
      ⟨s₁, Function.update k.lock ip (some p), Function.update k.ops p (k.ops p + 1)⟩ =
      .ok (r', ⟨s₂, Function.update k.lock ip (some p), Function.update k.ops p (k.ops p + 1)⟩) := by
    simp only [Instr.exec, Fs.lift, write]
  rw [alone_bind, alone_op]
  refine (Fallible.bind_ok exec).trans ?_
  cases r' with
  | none =>
    obtain ⟨⟨⟩, ⟨⟩⟩ := eq
    exact release none rfl
  | some w =>
    obtain ⟨⟨⟩, ⟨⟩⟩ := eq
    dsimp only
    rw [alone_bind, alone_op]
    refine (Fallible.bind_ok rfl).trans ?_
    exact release (some w) rfl

/-- The program of `Calls.filewriteLoop`, run alone, does the operations of the loop and does not panic. -/
theorem alone_filewriteLoop {p : Fin NPROC} {k : Kernel} {i : ℕ} (w : Writable sb ip k.fs) (unlocked : k.lock ip = none) :
    ∃ done s, (filewriteLoop lo sb (fun _ s => s) f ip src i n k.fs).2 = .ok (done, s) ∧
      alone sb p (Calls.filewriteLoop f ip src i n) k = .ok (done, { k with fs := s }) := by
  induction n using Nat.strongRecOn generalizing i k with
  | ind n ih =>
    unfold Calls.filewriteLoop filewriteLoop
    split
    · exact ⟨true, k.fs, rfl, rfl⟩
    · rename_i pos
      obtain ⟨r, s', eq, w'⟩ := w.writeOp f (fun j => src (i + j)) (min n WRITEMAX)
      obtain ⟨log, eq'⟩ := erases_writeOp.exists_ok eq []
      dsimp only
      rw [eq']
      dsimp only
      split
      · rename_i all
        have less : n - min n WRITEMAX < n := by
          simp only [WRITEMAX, MAXOPBLOCKS, BSIZE]
          omega
        obtain ⟨done, s, rest, run⟩ := ih _ less (k := { k with fs := s' }) (i := i + min n WRITEMAX) w' unlocked
        refine ⟨done, s, rest, (alone_writeOp unlocked w.ref w'.ref eq).trans ?_⟩
        rw [if_pos all]
        exact run
      · rename_i short
        refine ⟨false, s', rfl, (alone_writeOp unlocked w.ref w'.ref eq).trans ?_⟩
        rw [if_neg short]
        rfl

theorem alone_filewriteLoop_two : ∃ done s,
    alone smallSb 0 (Calls.filewriteLoop 0 0 (fun _ => some 7) 0 2) ⟨smallState, fun _ => none, fun _ => 0⟩ =
      .ok (done, ⟨s, fun _ => none, fun _ => 0⟩) := by
  have w : Writable smallSb 0 smallState := ⟨smallDisk_owned, by decide, by decide, fun _ => rfl, by decide⟩
  obtain ⟨done, s, -, run⟩ := @alone_filewriteLoop ⟨1, 2⟩ smallSb 0 0 (fun _ => some 7) 2 0 ⟨smallState, fun _ => none, _⟩ 0 w rfl
  exact ⟨done, s, run⟩

lemma filewriteLoop_forall {others : ℕ → State → State} {i : ℕ} {C : Section → Prop} (I : State → Prop) (init : I s)
    (step : ∀ i s m src r s' log, I s → m ≤ WRITEMAX → writeOp lo sb f ip src m (others i s, []) = .ok (r, s', log) →
      C ⟨others i s, log⟩ ∧ I s') : ∀ r ∈ (filewriteLoop lo sb others f ip src i n s).1, C r := by
  induction n using Nat.strongRecOn generalizing i s with
  | ind n ih =>
    intro r mem
    unfold filewriteLoop at mem
    split at mem
    · exact absurd mem List.not_mem_nil
    · rename_i pos
      dsimp only at mem
      split at mem
      · exact absurd mem List.not_mem_nil
      · rename_i w s' log eq
        obtain ⟨holds, next⟩ := step _ _ _ _ _ _ _ init (Nat.min_le_right _ _) eq
        split at mem
        · rcases List.mem_cons.1 mem with rfl | mem
          · exact holds
          · refine ih _ ?_ next r mem
            simp only [WRITEMAX, MAXOPBLOCKS, BSIZE]
            omega
        · obtain rfl := List.mem_singleton.1 mem
          exact holds

lemma filewriteLoop_mapped {i : ℕ} (w : Writable sb ip s) :
    ∀ r ∈ (filewriteLoop lo sb (fun _ s => s) f ip src i n s).1, (r.start.loaded ip).Mapped ip := by
  refine filewriteLoop_forall (Writable sb ip) w fun i s m src r s' log w _ eq => ⟨w.mapped, ?_⟩
  obtain ⟨r', t, run, w'⟩ := w.writeOp f src m
  obtain ⟨log', eq'⟩ := erases_writeOp.exists_ok run []
  cases eq.symm.trans eq'
  exact w'

/-- Every operation of `filewrite` logs at most the `MAXOPBLOCKS` blocks that `begin_op` has reserved for it: for every super
block and place of the inodes and the free map, every offset and number of bytes, and whatever other processes do between the
operations, if the blocks of the inode below its size are there when the operation begins. -/
theorem filewrite_fits (lo : Layout) (sb : Superblock) (others : ℕ → State → State) (f : Fin NFILE) (ip : Fin NINODE)
    (src : ℕ → Option UInt8) (n : ℕ) (s : State) :
    ∀ r ∈ (filewriteLoop lo sb others f ip src 0 n s).1, (r.start.loaded ip).Mapped ip →
      r.log.toFinset.card ≤ MAXOPBLOCKS :=
  filewriteLoop_forall (fun _ => True) trivial fun _ _ _ _ _ _ _ _ le eq => ⟨fun mapped => writeOp_fits mapped le eq, trivial⟩

lemma exists_section {i : ℕ} (w : Writable sb ip s) (pos : n ≠ 0) :
    ∃ r, r ∈ (filewriteLoop lo sb (fun _ s => s) f ip src i n s).1 := by
  obtain ⟨r, s', eq, -⟩ := w.writeOp f (fun j => src (i + j)) (min n WRITEMAX)
  obtain ⟨log, eq'⟩ := erases_writeOp.exists_ok eq []
  unfold filewriteLoop
  rw [dif_neg pos]
  dsimp only
  rw [eq']
  dsimp only
  split <;> exact ⟨_, List.mem_cons_self⟩

/-- A write of two bytes. -/
theorem filewrite_fits_two : ∃ r ∈ (filewriteLoop ⟨1, 2⟩ smallSb (fun _ s => s) 0 0 (fun _ => some 7) 0 2 smallState).1,
    (r.start.loaded 0).Mapped 0 ∧ r.log.toFinset.card ≤ MAXOPBLOCKS := by
  have w : Writable smallSb 0 smallState := ⟨smallDisk_owned, by decide, by decide, fun _ => rfl, by decide⟩
  obtain ⟨r, mem⟩ := @exists_section ⟨1, 2⟩ smallSb 0 0 (fun _ => some 7) 2 smallState 0 w (by decide)
  have mapped := filewriteLoop_mapped w r mem
  exact ⟨r, mem, mapped, filewrite_fits ⟨1, 2⟩ smallSb _ 0 0 _ 2 smallState r mem mapped⟩

end Xv6.Logging
