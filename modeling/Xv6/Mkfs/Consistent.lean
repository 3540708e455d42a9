import Mathlib.Data.List.Nodup
import Xv6.Fs.Dir
import Xv6.Mkfs.Final

/-!
# Consistency of the image

Which images of `mkfs` are consistent, if the program ends with `exit(0)`. The blocks are always in order, but there are
three things the program does not check: the number of inodes, that the size to which the size of the root directory is
rounded is not one block too large, and that the names are different.
-/

namespace Xv6.Mkfs

open Fs Fallible

variable {st : State} {files fs : List Input} {k l m n : ℕ} {de : Dirent} {α : Type}

/-! ### Counting the inodes -/

/-- A program that takes `n` inodes if it does not fail. -/
def Takes (n : ℕ) (prog : M α) : Prop := ∀ st, wp (fun _ => True) prog (fun _ st' => st'.freeinode = st.freeinode + n) st

namespace Takes

variable {β : Type} {prog : M α} {rest : α → M β}

lemma pure (a : α) : Takes 0 (pure a : M α) := fun _ => rfl

lemma throw (e : Exit) : Takes n (throw e : M α) := fun _ => trivial

lemma bind (first : Takes m prog) (second : ∀ a, Takes n (rest a)) : Takes (m + n) (prog >>= rest) := by
  intro st
  rw [wp_bind]
  refine wp_mono (first st) fun a st' eq => wp_mono (second a st') fun _ st'' eq' => ?_
  rw [eq', eq, Nat.add_assoc]

lemma wsect {b : ℕ} {blk : Fs.Block} : Takes 0 (wsect b blk) := fun _ => rfl

lemma rsect {b : ℕ} : Takes 0 (rsect b) := by
  intro st
  simp only [Mkfs.rsect, wp_bind, wp_get]
  split
  · rfl
  · trivial

lemma nextBlock : Takes 0 nextBlock := fun _ => rfl

lemma winode {i : ℕ} {din : RawDinode} : Takes 0 (winode i din) := rsect.bind fun _ => wsect

lemma rinode {i : ℕ} : Takes 0 (rinode i) := rsect.bind fun _ => pure _

lemma ialloc {type : ℕ} : Takes 1 (ialloc type) := by
  refine bind (m := 1) (n := 0) (fun _ => rfl) fun i => ?_
  exact winode.bind (n := 0) fun _ => pure i

lemma balloc {used : ℕ} : Takes 0 (balloc used) := by
  rw [Mkfs.balloc]
  split
  · exact wsect
  · exact throw _

lemma addrBlock {din : RawDinode} : Takes 0 (addrBlock din k) := by
  rw [Mkfs.addrBlock]
  split
  · exact nextBlock.bind fun _ => pure _
  · exact pure _

lemma entryBlock {ind : ℕ} : Takes 0 (entryBlock ind k) := by
  refine rsect.bind (n := 0) fun indirect => ?_
  split
  · exact nextBlock.bind (n := 0) fun b => wsect.bind (n := 0) fun _ => pure b
  · exact pure _

lemma fileBlock {din : RawDinode} : Takes 0 (fileBlock din k) := by
  rw [Mkfs.fileBlock]
  split
  · exact addrBlock
  · exact addrBlock.bind (n := 0) fun _ => entryBlock.bind (n := 0) fun _ => pure _

lemma appendLoop {p : List UInt8} {off : ℕ} {din : RawDinode} : Takes 0 (appendLoop p off din) := by
  induction p, off, din using Mkfs.appendLoop.induct with
  | case1 off din =>
    rw [Mkfs.appendLoop]
    exact pure _
  | case2 p off din ne fbn lt ih =>
    rw [Mkfs.appendLoop, dif_neg ne, if_pos lt]
    exact fileBlock.bind (n := 0) fun r => rsect.bind (n := 0) fun _ => wsect.bind (n := 0) fun _ => ih r.2
  | case3 p off din ne fbn ge =>
    rw [Mkfs.appendLoop, dif_neg ne, if_neg ge]
    exact throw _

lemma iappend {i : ℕ} {p : List UInt8} : Takes 0 (iappend i p) :=
  rinode.bind (n := 0) fun _ => appendLoop.bind (n := 0) fun _ => winode

lemma pieces {i : ℕ} {ps : List (List UInt8)} : Takes 0 (ps.forM (Mkfs.iappend i)) := by
  induction ps with
  | nil => exact pure _
  | cons p ps ih => exact iappend.bind (n := 0) fun _ => ih

lemma addFile {f : Input} : Takes 1 (addFile f) := by
  rw [Mkfs.addFile]
  split
  · exact throw _
  · split
    · exact throw _
    · exact ialloc.bind (n := 0) fun _ => iappend.bind (n := 0) fun _ => pieces

lemma addFiles : Takes fs.length (fs.forM Mkfs.addFile) := by
  induction fs with
  | nil => exact pure _
  | cons f fs ih =>
    rw [List.length_cons, Nat.add_comm]
    exact addFile.bind fun _ => ih

lemma finish : Takes 0 finish :=
  rinode.bind (n := 0) fun _ => winode.bind (n := 0) fun _ => bind (m := 0) (n := 0) (fun _ => rfl) fun _ => balloc

lemma filled {root : ℕ} {p q : List UInt8} :
    Takes fs.length (do Mkfs.iappend root p; Mkfs.iappend root q; fs.forM Mkfs.addFile; Mkfs.finish) := by
  rw [← Nat.zero_add fs.length]
  refine iappend.bind fun _ => ?_
  rw [← Nat.zero_add fs.length]
  exact iappend.bind fun _ => addFiles.bind (n := 0) fun _ => finish

end Takes

lemma freeinode_main (exit : main files init = .ok ((), st)) : st.freeinode = files.length + 2 := by
  refine (wp_ok (P := fun _ => True) (Q := fun _ st' => st'.freeinode = files.length + 2) exit).1 ?_
  rw [main, wp_bind, wp_ok (zeroes_eq (by decide)), wp_bind]
  refine wp_wsect rfl (by decide) ?_
  rw [wp_bind]
  refine wp_mono (Takes.ialloc _) fun root st' eq => ?_
  split
  · refine wp_mono (Takes.filled st') fun _ st'' eq' => ?_
    rw [eq', eq, Nat.add_comm]
    rfl
  · trivial

/-! ### The root directory -/

/-- The entries of the root directory. -/
def allEntries (files : List Input) : List Dirent := ⟨1, dot⟩ :: ⟨1, dotdot⟩ :: rootEntries 2 files

lemma getElem?_rootEntries : (rootEntries m fs)[k]? = fs[k]?.map fun f => ⟨m + k, f.name⟩ := by
  induction fs generalizing m k with
  | nil => simp [rootEntries]
  | cons f fs ih =>
    cases k with
    | zero => simp [rootEntries]
    | succ k => simp [rootEntries, ih, Nat.add_right_comm, Nat.add_assoc]

lemma length_rootEntries : (rootEntries m fs).length = fs.length := by
  induction fs generalizing m with
  | nil => rfl
  | cons f fs ih => simp [rootEntries, ih]

@[simp]
lemma length_allEntries : (allEntries files).length = files.length + 2 := by simp [allEntries, length_rootEntries]

lemma names_allEntries : (allEntries files).map Dirent.name = dot :: dotdot :: files.map Input.name := by
  have rest : ∀ m, (rootEntries m files).map Dirent.name = files.map Input.name := by
    induction files with
    | nil => exact fun _ => rfl
    | cons f fs ih => simp [rootEntries, ih]
  simp [allEntries, rest]

lemma Input.name_ok (f : Input) : f.name.length ≤ DIRSIZ ∧ 0 ∉ f.name := by
  refine ⟨by simp [Input.name], fun mem => f.nonzero ?_⟩
  have short : 0 ∈ f.short := by
    have := List.mem_of_mem_take mem
    split at this
    · exact List.mem_of_mem_tail this
    · exact this
  rw [Input.short] at short
  split at short
  · exact List.mem_of_mem_drop short
  · exact short

lemma allEntries_ok (few : files.length + 2 ≤ NINODES) (mem : (allEntries files)[k]? = some de) :
    de.Ok super ∧ de.inum ≠ 0 := by
  match k with
  | 0 =>
    obtain rfl : ⟨1, dot⟩ = de := by simpa [allEntries] using mem
    exact ⟨⟨by decide, by decide, by decide⟩, by decide⟩
  | 1 =>
    obtain rfl : ⟨1, dotdot⟩ = de := by simpa [allEntries] using mem
    exact ⟨⟨by decide, by decide, by decide⟩, by decide⟩
  | k + 2 =>
    simp only [allEntries, List.getElem?_cons_succ, getElem?_rootEntries, Option.map_eq_some_iff] at mem
    obtain ⟨f, eq, rfl⟩ := mem
    have lt : k < files.length := (List.getElem?_eq_some_iff.1 eq).1
    refine ⟨⟨?_, f.name_ok.1, f.name_ok.2⟩, by simp⟩
    change 2 + k < NINODES
    omega

lemma getD_flatMap {d i : ℕ} {β : Type} {f : α → List β} {x : β} (len : ∀ a, (f a).length = d) (lt : i < d) (as : List α) :
    (as.flatMap f).getD (d * k + i) x = ((as[k]?).map fun a => (f a).getD i x).getD x := by
  induction as generalizing k with
  | nil => simp
  | cons a as ih =>
    rw [List.flatMap_cons]
    cases k with
    | zero =>
      rw [Nat.mul_zero, Nat.zero_add, List.getD_append _ _ _ _ (by rwa [len])]
      rfl
    | succ k =>
      rw [List.getD_append_right _ _ _ _ (by rw [len, Nat.mul_succ]; omega), List.getElem?_cons_succ, ← ih, len]
      congr 1
      rw [Nat.mul_succ]
      omega

lemma length_contents : (contents files).length = DESIZE * (files.length + 2) := by
  have : ∀ ds : List Dirent, (ds.flatMap Dirent.toBytes).length = DESIZE * ds.length := by
    intro ds
    induction ds with
    | nil => rfl
    | cons d ds ih => rw [List.flatMap_cons, List.length_append, length_toBytes, ih, List.length_cons, Nat.mul_succ, Nat.add_comm]
  have := this (allEntries files)
  rwa [length_allEntries] at this

lemma offset_lt {o : ℕ} (lt : o < (contents files).length) :
    o < roundUp (contents files).length ∧ o / BSIZE * BSIZE < (contents files).length := by
  simp only [roundUp, BSIZE]
  omega

section

variable (built : Built files st) (few : files.length + 2 ≤ NINODES)

include built

lemma Built.slot (lt : k < MAXFILE) : st.image.disk.slots super (1, slotOf k) ≠ 0 ↔ k * BSIZE < (contents files).length := by
  rw [← built.root.slot lt, slots_resize]

lemma Built.byte {o : ℕ} (lt : o < roundUp (contents files).length) (block : o / BSIZE * BSIZE < (contents files).length) :
    (st.image.disk.node super 1).byte o = (contents files).getD o 0 := by
  have small : o / BSIZE < MAXFILE := by
    have := built.root.small
    by_contra ge
    have := Nat.mul_le_mul_right BSIZE (Nat.le_of_not_lt ge)
    omega
  have slot := (built.root.slot small).2 block
  rw [← built.root.byte slot small, byte_resize, Disk.node, built.rootSize]
  exact if_pos lt

include few

lemma Built.entry (eq : (allEntries files)[k]? = some de) : (st.image.disk.node super 1).entry k = de := by
  refine Node.entry_eq (fun i li => ?_) (allEntries_ok few eq).1
  have lk : k < files.length + 2 := by
    rw [← length_allEntries]
    exact (List.getElem?_eq_some_iff.1 eq).1
  have lt : DESIZE * k + i < (contents files).length := by
    rw [length_contents]
    simp only [DESIZE] at *
    omega
  obtain ⟨below, block⟩ := offset_lt lt
  rw [built.byte below block, contents, ← allEntries, getD_flatMap length_toBytes li, eq]
  rfl

omit built few in
/-- The end of the root directory is in a block with entries, unless these fill their blocks. -/
lemma last_block {o : ℕ} (part : (files.length + 2) % (BSIZE / DESIZE) ≠ 0) (lt : o < roundUp (contents files).length) :
    o / BSIZE * BSIZE < (contents files).length := by
  rw [length_contents] at *
  simp only [roundUp, BSIZE, DESIZE] at *
  omega

omit few in
lemma Built.entry_beyond (part : (files.length + 2) % (BSIZE / DESIZE) ≠ 0) (le : files.length + 2 ≤ k) :
    ((st.image.disk.node super 1).entry k).inum = 0 := by
  refine Node.entry_zero fun i li => ?_
  by_cases lt : DESIZE * k + i < roundUp (contents files).length
  · rw [built.byte lt (last_block part lt), List.getD_eq_default]
    have := Nat.mul_le_mul_left DESIZE le
    rw [length_contents]
    omega
  · rw [Disk.node, built.rootSize]
    exact if_neg lt

end

/-! ### Consistency -/

/-- The image is consistent: its layout is that of the super block, the inodes that have been given out are in the inode
area, the free map is exact and every block of a file has one owner, the blocks of every file are there, and the names in
the root directory are different. -/
structure Consistent (st : State) : Prop where
  readsb : st.image.readsb = sb
  area : ∀ i, 1 ≤ i → i < st.freeinode →
    i < st.image.readsb.ninodes ∧ st.image.readsb.inodestart ≤ IBLOCK i st.image.readsb ∧
      IBLOCK i st.image.readsb < st.image.readsb.bmapstart
  used : ∀ i, i < NINODES → ((st.image.disk.inodes i).type ≠ .free ↔ 1 ≤ i ∧ i < st.freeinode)
  sound : Sound super st.image.disk
  mapped : ∀ i, i < NINODES → (st.image.disk.inodes i).type ≠ .free → st.image.disk.Mapped super i
  names : ∀ k l, ((st.image.disk.node super 1).entry k).inum ≠ 0 → ((st.image.disk.node super 1).entry l).inum ≠ 0 →
    ((st.image.disk.node super 1).entry k).name = ((st.image.disk.node super 1).entry l).name → k = l

lemma Holds.mapped {D : Disk} {c : List UInt8} (h : Holds D k c) : D.Mapped super k := by
  rw [Disk.Mapped, h.size]
  refine ⟨h.small, fun off lt => ?_⟩
  have block : off / BSIZE < MAXFILE := block_lt (lt.trans_le h.small)
  exact (h.slot block).2 ((Nat.div_mul_le_self off BSIZE).trans_lt lt)

lemma Built.mapped_root (built : Built files st) (few : files.length + 2 ≤ NINODES) :
    st.image.disk.Mapped super 1 ↔ (files.length + 2) % (BSIZE / DESIZE) ≠ 0 := by
  have small : roundUp (contents files).length ≤ MAXFILE * BSIZE := by
    rw [length_contents]
    simp only [roundUp, MAXFILE, NDIRECT, NINDIRECT, BSIZE, DESIZE, NINODES] at *
    omega
  rw [Disk.Mapped, built.rootSize]
  constructor
  · rintro ⟨-, all⟩ full
    -- the offset of the block that is missing
    have lt : (contents files).length < roundUp (contents files).length := by
      simp only [roundUp, BSIZE]
      omega
    have := (built.slot (block_lt (lt.trans_le small))).1 (all _ lt)
    rw [length_contents] at this
    simp only [BSIZE, DESIZE] at *
    omega
  · exact fun part => ⟨small, fun off lt => (built.slot (block_lt (lt.trans_le small))).2 (last_block part lt)⟩

lemma Built.names (built : Built files st) (few : files.length + 2 ≤ NINODES) :
    (dot :: dotdot :: files.map Input.name).Nodup ↔ ∀ k l, k < files.length + 2 → l < files.length + 2 →
      ((st.image.disk.node super 1).entry k).name = ((st.image.disk.node super 1).entry l).name → k = l := by
  have name : ∀ {k} (lt : k < ((allEntries files).map Dirent.name).length),
      ((st.image.disk.node super 1).entry k).name = ((allEntries files).map Dirent.name)[k] := by
    intro k lt
    have here : k < (allEntries files).length := by simpa using lt
    rw [built.entry few (List.getElem?_eq_getElem here), List.getElem_map]
  have len : ((allEntries files).map Dirent.name).length = files.length + 2 := by simp
  rw [← names_allEntries, List.nodup_iff_injective_getElem]
  constructor
  · intro inj k l lk ll eq
    rw [← len] at lk ll
    rw [name lk, name ll] at eq
    exact congrArg Fin.val (@inj ⟨k, lk⟩ ⟨l, ll⟩ eq)
  · rintro all ⟨k, lk⟩ ⟨l, ll⟩ eq
    simp only [← name] at eq
    exact Fin.ext (all k l (len ▸ lk) (len ▸ ll) eq)

lemma Built.consistent_iff (built : Built files st) (few : files.length + 2 ≤ NINODES) :
    Consistent st ↔ (files.length + 2) % (BSIZE / DESIZE) ≠ 0 ∧ (dot :: dotdot :: files.map Input.name).Nodup := by
  have entry : ∀ {k}, k < files.length + 2 → ∃ de, (allEntries files)[k]? = some de := by
    intro k lt
    rw [← length_allEntries] at lt
    exact ⟨_, List.getElem?_eq_getElem lt⟩
  have inum : ∀ {k}, k < files.length + 2 → ((st.image.disk.node super 1).entry k).inum ≠ 0 := by
    intro k lt
    obtain ⟨de, eq⟩ := entry lt
    rw [built.entry few eq]
    exact (allEntries_ok few eq).2
  constructor
  · intro h
    refine ⟨(built.mapped_root few).1 (h.mapped 1 (by decide) ?_), (built.names few).2 fun k l lk ll => h.names k l (inum lk) (inum ll)⟩
    rw [built.rootType]
    decide
  · rintro ⟨part, nodup⟩
    have below : ∀ {k}, ((st.image.disk.node super 1).entry k).inum ≠ 0 → k < files.length + 2 := by
      intro k ne
      by_contra ge
      exact ne (built.entry_beyond part (Nat.le_of_not_lt ge))
    refine ⟨built.readsb, fun i ge lt => ?_, fun i lt => ?_, built.sound, fun i lt ne => ?_,
      fun k l nk nl => (built.names few).1 nodup k l (below nk) (below nl)⟩
    · rw [built.next] at lt
      rw [built.readsb]
      have lt : i < NINODES := by omega
      refine ⟨lt, Nat.le_add_left _ _, ?_⟩
      have := (IBLOCK_lt lt).1
      simp only [IBLOCK, sb, NINODES, nlog, LOGSIZE, MAXOPBLOCKS, ninodeblocks, IPB, DISIZE, BSIZE] at *
      omega
    · rw [built.next]
      exact built.used i lt
    · obtain ⟨ge, li⟩ := (built.used i lt).1 ne
      by_cases root : i = 1
      · rw [root]
        exact (built.mapped_root few).2 part
      · have mem : i - 2 < files.length := by omega
        have holds := (built.file (List.getElem?_eq_getElem mem)).2
        rw [Nat.sub_add_cancel (by omega)] at holds
        exact holds.mapped

lemma built_of_exit (few : files.length + 2 ≤ NINODES) (exit : main files init = .ok ((), st)) : Built files st := by
  rcases main_cases few with ⟨st', exit', built⟩ | ⟨e, fail, -⟩
  · rw [exit] at exit'
    cases exit'
    exact built
  · rw [exit] at fail
    cases fail

lemma exit_of_fits (few : files.length + 2 ≤ NINODES) (fits : Fits files) (readable : Readable files) :
    ∃ st, main files init = .ok ((), st) ∧ Built files st :=
  (main_cases few).resolve_right fun ⟨_, _, no⟩ => no ⟨fits, readable⟩

/-- For every list of files on which `mkfs` ends with `exit(0)`, the image is consistent iff there are inodes for the files,
the entries of the root directory do not fill their blocks, and the names, with those of the entries for the root, are
different. -/
theorem mkfs_consistent (files : List Input) (st : State) (exit : main files init = .ok ((), st)) :
    Consistent st ↔ files.length + 2 ≤ NINODES ∧ (files.length + 2) % (BSIZE / DESIZE) ≠ 0 ∧
      (dot :: dotdot :: files.map Input.name).Nodup := by
  by_cases few : files.length + 2 ≤ NINODES
  · rw [(built_of_exit few exit).consistent_iff few]
    exact (and_iff_right few).symm
  · refine iff_of_false (fun h => ?_) fun h => few h.1
    have next := freeinode_main exit
    have := (h.area NINODES (by decide) (by omega)).1
    rw [h.readsb] at this
    exact absurd this (Nat.lt_irrefl _)

lemma no_pieces : ∀ ps ∈ some ([] : List (List UInt8)), ∀ p ∈ ps, p ≠ [] ∧ p.length ≤ BSIZE := by
  simp

/-- An empty file with a name of one byte. -/
def emptyFile (c : {c : UInt8 // c ≠ 0}) : Input where
  arg := [c.1]
  pieces := some []
  nonzero := by simpa using c.2.symm
  piece := no_pieces

/-- Without files. -/
theorem mkfs_consistent_nil : ∃ st, main [] init = .ok ((), st) ∧ Consistent st := by
  have fits : Fits [] := ⟨by simp, by decide⟩
  obtain ⟨st, exit, -⟩ := exit_of_fits (by decide) fits (by simp [Readable])
  exact ⟨st, exit, (mkfs_consistent [] st exit).2 ⟨by decide, by decide, by decide⟩⟩

/-- With 62 files, the root directory has 64 entries, which fill its block, and a size of two blocks. -/
theorem mkfs_root_hole : ∃ files st, files.length = 62 ∧ (files.map Input.name).Nodup ∧ main files init = .ok ((), st) ∧
    (st.image.disk.inodes 1).size = 2 * BSIZE ∧ st.image.disk.slots super (1, slotOf 1) = 0 ∧ ¬Consistent st := by
  let files := (List.finRange 62).map fun i => emptyFile ⟨UInt8.ofNat (128 + i.1), by revert i; decide⟩
  have fits : Fits files := ⟨by decide, by decide⟩
  have readable : Readable files := by
    simp only [Readable, files, emptyFile]
    decide
  obtain ⟨st, exit, built⟩ := exit_of_fits (by decide) fits readable
  refine ⟨files, st, by decide, by decide, exit, ?_, ?_, ?_⟩
  · rw [built.rootSize, length_contents]
    decide
  · by_contra ne
    have := (built.slot (by decide)).1 ne
    rw [length_contents] at this
    exact absurd this (by decide)
  · rw [built.consistent_iff (by decide)]
    exact fun h => absurd h.1 (by decide)

end Xv6.Mkfs
