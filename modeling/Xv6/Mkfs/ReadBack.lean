import Xv6.Mkfs.Consistent

/-!
# What the kernel reads

The kernel finds the files of an image of `mkfs` by their names and reads their bytes: `dirlookup` in the root directory
returns the inode that `mkfs` has taken for the file, and `readi` the bytes that `mkfs` has read.
-/

namespace Xv6.Mkfs

open Fs Fallible

variable {st : State} {files : List Input} {f : Input} {k l m off n : ℕ} {de : Dirent} {s s' : Fs.State} {dp ip : Fin NINODE}

/-- A kernel that has the image on its disk, with the inodes in memory as on the disk and a free entry in the table. -/
structure Mounted (img : Image) (s : Fs.State) : Prop where
  disk : s.disk = img.disk
  clean : ∀ ip, 0 < (s.itable ip).ref → (s.itable ip).valid → s.Clean ip
  free : ∃ ip, (s.itable ip).ref = 0

/-! ### Reading -/

section

variable {D : Disk} (disk : s.disk = D) (inum : (s.itable ip).inum = k) (clean : s.Clean ip) (lt : k < NINODES)
  (alloc : (D.inodes k).type ≠ .free)

include disk inum clean lt alloc

lemma readi_bytes (le : off ≤ (D.inodes k).size) (nowrap : off + n < 2 ^ 32)
    (fits : off + min n ((D.inodes k).size - off) ≤ MAXFILE * BSIZE)
    (slot : ∀ o, off ≤ o → o < off + min n ((D.inodes k).size - off) → D.slots super (k, slotOf (o / BSIZE)) ≠ 0) :
    readi super ip (fun _ => true) off n s =
      .ok (some ((List.range (min n ((D.inodes k).size - off))).map fun i => D.byte super k (off + i)), s) := by
  have din : (s.itable ip).din = D.inodes k := by rw [clean, disk, inum]
  have flush : s.flush ip = D := by rw [clean.flush, disk]
  have inside : ¬(off > (D.inodes k).size ∨ (off + n) % 2 ^ 32 < off) := by
    rw [Nat.mod_eq_of_lt nowrap]
    omega
  have left : (if off + n > (D.inodes k).size then (D.inodes k).size - off else n) = min n ((D.inodes k).size - off) := by
    split <;> omega
  apply eq_ok
  simp only [readi, inode, wp_bind, wp_get, wp_pure, din]
  rw [if_neg inside, left, wp_ok (readLoop_eq (by rwa [inum]) (by rwa [din]) fits (by rwa [flush, inum]))]
  refine ⟨?_, rfl⟩
  rw [if_pos fun _ _ => rfl, flush, inum]

lemma readi_holds {c : List UInt8} (holds : Holds D k c) (nowrap : off + n < 2 ^ 32) :
    readi super ip (fun _ => true) off n s = .ok (some ((c.drop off).take n), s) := by
  have size := holds.size
  by_cases le : off ≤ c.length
  · have mapped := holds.mapped.2
    have small := holds.small
    rw [size] at mapped
    rw [readi_bytes disk inum clean lt alloc (by omega) nowrap (by omega) fun o _ lo => mapped o (by omega), size]
    congr 3
    refine List.ext_getElem (by simp) fun i li _ => ?_
    have here : off + i < c.length := by
      simp only [List.length_map, List.length_range] at li
      omega
    rw [List.getElem_map, List.getElem_range, holds.byte (mapped _ here) (block_lt (here.trans_le small)),
      List.getElem_take, List.getElem_drop, List.getD_eq_getElem _ _ here]
  · have din : (s.itable ip).din = D.inodes k := by rw [clean, disk, inum]
    apply eq_ok
    simp only [readi, inode, wp_bind, wp_get, wp_pure, din, size]
    rw [if_pos (.inl (by omega)), wp_pure, List.drop_eq_nil_of_le (by omega), List.take_nil]
    exact ⟨rfl, rfl⟩

end

/-! ### The root directory -/

section

variable (built : Built files st) (few : files.length + 2 ≤ NINODES) (disk : s.disk = st.image.disk)
  (inum : (s.itable dp).inum = ROOTINO) (clean : s.Clean dp)

include built few disk inum clean

lemma readDirent_root {msg : Panic} (eq : (allEntries files)[k]? = some de) :
    readDirent super msg dp (DESIZE * k) s = .ok (de, s) := by
  have lk : k < files.length + 2 := by
    rw [← length_allEntries]
    exact (List.getElem?_eq_some_iff.1 eq).1
  have alloc : (st.image.disk.inodes 1).type ≠ .free := by
    rw [built.rootType]
    decide
  have len : DESIZE * k + DESIZE ≤ (contents files).length := by
    rw [length_contents]
    simp only [DESIZE]
    omega
  have all : (contents files).length < roundUp (contents files).length := by
    simp only [roundUp, BSIZE]
    omega
  have size := built.rootSize
  have small := built.root.small
  have m : min DESIZE ((st.image.disk.inodes 1).size - DESIZE * k) = DESIZE := by omega
  have slot : ∀ o, DESIZE * k ≤ o → o < DESIZE * k + min DESIZE ((st.image.disk.inodes 1).size - DESIZE * k) →
      st.image.disk.slots super (1, slotOf (o / BSIZE)) ≠ 0 := by
    intro o _ lo
    have inside : o < (contents files).length := by omega
    exact (built.slot (block_lt (inside.trans_le small))).2 (offset_lt inside).2
  have nowrap : DESIZE * k + DESIZE < 2 ^ 32 := by
    simp only [DESIZE, NINODES] at *
    omega
  have read := readi_bytes (k := 1) disk inum clean (by decide) alloc (by omega) nowrap (by omega) slot
  apply eq_ok
  rw [readDirent, wp_bind, wp_ok read, m]
  simp only [List.length_map, List.length_range, if_true, wp_pure, and_true]
  rw [← built.entry few eq, Node.entry]
  refine congrArg Dirent.ofBytes (List.map_congr_left fun i mem => ?_)
  rw [List.mem_range] at mem
  rw [Disk.node, size]
  exact (if_pos (by omega)).symm

lemma dirScan_root {msg : Panic} {p : Dirent → Bool} (eq : (allEntries files)[k]? = some de) (found : p de)
    (before : ∀ j de', j < k → (allEntries files)[j]? = some de' → ¬p de') (le : l ≤ k) (lt : k < l + m) :
    dirScan super msg dp p m (DESIZE * l) s = .ok (some (DESIZE * k, de), s) := by
  induction m generalizing l with
  | zero => omega
  | succ m ih =>
    apply eq_ok
    rcases Nat.eq_or_lt_of_le le with rfl | more
    · rw [dirScan, wp_bind, wp_ok (readDirent_root built few disk inum clean eq), if_pos found]
      exact ⟨rfl, rfl⟩
    · have there : l < (allEntries files).length := more.trans (List.getElem?_eq_some_iff.1 eq).1
      have eq' := List.getElem?_eq_getElem there
      rw [dirScan, wp_bind, wp_ok (readDirent_root built few disk inum clean eq'), if_neg (before l _ more eq'), ← Nat.mul_succ,
        wp_ok (ih more (by omega))]
      exact ⟨rfl, rfl⟩

lemma dirlookup_root (eq : (allEntries files)[k]? = some de)
    (before : ∀ l de', l < k → (allEntries files)[l]? = some de' → de.name ≠ de'.name) (got : iget de.inum s = .ok (ip, s')) :
    dirlookup super dp de.name s = .ok (some (ip, DESIZE * k), s') := by
  have lk : k < files.length + 2 := by
    rw [← length_allEntries]
    exact (List.getElem?_eq_some_iff.1 eq).1
  have root : (s.itable dp).din = st.image.disk.inodes 1 := by rw [clean, disk, inum]
  have many : k < 0 + Fs.entries (roundUp (contents files).length) 0 := by
    rw [length_contents]
    simp only [Fs.entries, roundUp, BSIZE, DESIZE]
    omega
  have scan := @dirScan_root _ _ _ 0 _ de s dp built few disk inum clean .dirlookupRead (fun de' => de'.inum ≠ 0 ∧ de.name = de'.name) eq (by simpa using (allEntries_ok few eq).2) (fun j de' lj has => ?_) (Nat.zero_le _) many
  · rw [Nat.mul_zero] at scan
    apply eq_ok
    simp only [dirlookup, inode, wp_bind, wp_get, wp_pure, root, built.rootType, built.rootSize, if_true]
    rw [wp_ok scan, wp_bind, wp_ok got]
    exact ⟨rfl, rfl⟩
  · simp [before j de' lj has]

end

/-! ### The files -/

lemma load_eq {D : Disk} (disk : s.disk = D) (inum : (s.itable ip).inum = k) (clean : (s.itable ip).valid → s.Clean ip)
    (alloc : (D.inodes k).type ≠ .free) :
    ∃ s', load ip s = .ok ((), s') ∧ s'.disk = D ∧ (s'.itable ip).inum = k ∧ s'.Clean ip := by
  by_cases valid : (s.itable ip).valid
  · refine ⟨s, eq_ok ?_, disk, inum, clean valid⟩
    simp only [load, inode, wp_bind, wp_get, wp_pure, valid, if_true, and_self]
  · refine ⟨{ s with itable := Function.update s.itable ip { s.itable ip with valid := true, din := D.inodes k } },
      eq_ok ?_, disk, ?_, ?_⟩
    · simp only [load, inode, setInode, wp_bind, wp_get, wp_pure, if_neg valid, wp_modify, disk, inum, if_neg alloc, and_self]
    · simp only [Function.update_self, inum]
    · simp only [Fs.State.Clean, Function.update_self, disk, inum]

lemma iget_load {img : Image} (mounted : Mounted img s) (alloc : (img.disk.inodes k).type ≠ .free) :
    ∃ ip s₁ s₂, iget k s = .ok (ip, s₁) ∧ load ip s₁ = .ok ((), s₂) ∧ s₂.disk = img.disk ∧
      (s₁.itable ip).inum = k ∧ (s₂.itable ip).inum = k ∧ s₂.Clean ip := by
  suffices h : ∃ ip s₁, iget k s = .ok (ip, s₁) ∧ s₁.disk = img.disk ∧ (s₁.itable ip).inum = k ∧
      ((s₁.itable ip).valid → s₁.Clean ip) by
    obtain ⟨ip, s₁, got, disk, inum, clean⟩ := h
    obtain ⟨s₂, loaded, disk₂, inum₂, clean₂⟩ := load_eq disk inum clean alloc
    exact ⟨ip, s₁, s₂, got, loaded, disk₂, inum, inum₂, clean₂⟩
  cases hit : (List.finRange NINODE).find? fun ip => 0 < (s.itable ip).ref ∧ (s.itable ip).inum = k with
  | some ip =>
    have is := List.find?_some hit
    simp only [decide_eq_true_eq] at is
    refine ⟨ip, { s with itable := Function.update s.itable ip { s.itable ip with ref := (s.itable ip).ref + 1 } },
      eq_ok ?_, mounted.disk, ?_, fun valid => ?_⟩
    · simp only [iget, setInode, wp_bind, wp_get, hit, wp_modify, wp_pure, and_self]
    · simp only [Function.update_self, is.2]
    · simp only [Fs.State.Clean, Function.update_self] at valid ⊢
      exact mounted.clean ip is.1 valid
  | none =>
    cases empty : (List.finRange NINODE).find? fun ip => (s.itable ip).ref = 0 with
    | some ip =>
      refine ⟨ip, { s with itable := Function.update s.itable ip { s.itable ip with inum := k, ref := 1, valid := false } },
        eq_ok ?_, mounted.disk, ?_, fun valid => ?_⟩
      · simp only [iget, setInode, wp_bind, wp_get, hit, empty, wp_modify, wp_pure, and_self]
      · simp only [Function.update_self]
      · simp [Function.update_self] at valid
    | none =>
      obtain ⟨ip, zero⟩ := mounted.free
      simp only [List.find?_eq_none, List.mem_finRange, true_implies, decide_eq_true_eq] at empty
      exact absurd zero (empty ip)

lemma name_ne (names : (dot :: dotdot :: files.map Input.name).Nodup) (eq : files[k]? = some f) (lt : l < k + 2)
    (has : (allEntries files)[l]? = some de) : f.name ≠ de.name := by
  intro same
  rw [← names_allEntries] at names
  have own : ((allEntries files).map Dirent.name)[k + 2]? = some f.name := by
    rw [names_allEntries]
    simp [eq]
  have that : ((allEntries files).map Dirent.name)[l]? = some f.name := by
    rw [List.getElem?_map, has, same]
    rfl
  have there : k + 2 < ((allEntries files).map Dirent.name).length := (List.getElem?_eq_some_iff.1 own).1
  exact List.nodup_iff_getElem?_ne_getElem?.1 names l (k + 2) lt there (that.trans own.symm)

/-- `mkfs` ends with `exit(0)` for every list of files that fits the image, with names that are different from each other and
from those of the two entries for the root directory. On the image, `dirlookup` in the root directory finds each name with
the inode of the file, and `readi` returns its bytes, from every offset on. -/
theorem mkfs_read_back (files : List Input) (few : files.length < NINODES - 1) (fits : Fits files) (readable : Readable files)
    (names : (dot :: dotdot :: files.map Input.name).Nodup) :
    ∃ st, main files init = .ok ((), st) ∧ ∀ k f, files[k]? = some f → ∀ s dp, Mounted st.image s → 0 < (s.itable dp).ref →
      (s.itable dp).valid → (s.itable dp).inum = ROOTINO →
      ∃ ip s₁ s₂, dirlookup super dp f.name s = .ok (some (ip, DESIZE * (k + 2)), s₁) ∧ (s₁.itable ip).inum = k + 2 ∧
        load ip s₁ = .ok ((), s₂) ∧ (s₂.itable ip).din.type = .file ∧ (s₂.itable ip).din.size = f.bytes.length ∧
        ∀ off n, off + n < 2 ^ 32 → readi super ip (fun _ => true) off n s₂ = .ok (some ((f.bytes.drop off).take n), s₂) := by
  have few : files.length + 2 ≤ NINODES := by
    simp only [NINODES] at *
    omega
  obtain ⟨st, exit, built⟩ := exit_of_fits few fits readable
  refine ⟨st, exit, fun k f eq s dp mounted pos valid inum => ?_⟩
  have lt : k < files.length := (List.getElem?_eq_some_iff.1 eq).1
  obtain ⟨type, holds⟩ := built.file eq
  have alloc : (st.image.disk.inodes (k + 2)).type ≠ .free := by
    rw [type]
    decide
  obtain ⟨ip, s₁, s₂, got, loaded, disk₂, inum₁, inum₂, clean⟩ := iget_load mounted alloc
  have din : (s₂.itable ip).din = st.image.disk.inodes (k + 2) := by rw [clean, disk₂, inum₂]
  refine ⟨ip, s₁, s₂, ?_, inum₁, loaded, ?_, ?_, fun off n nowrap => ?_⟩
  · have here : (allEntries files)[k + 2]? = some ⟨k + 2, f.name⟩ := by
      simp [allEntries, getElem?_rootEntries, eq, Nat.add_comm]
    exact dirlookup_root built few mounted.disk inum (mounted.clean dp pos valid) here (fun l de ll has => name_ne names eq ll has) got
  · rw [din, type]
  · rw [din, holds.size]
  · exact readi_holds disk₂ inum₂ clean (by omega) alloc holds nowrap

/-- A kernel that has the root directory in memory. -/
def booted (img : Image) : Fs.State where
  disk := img.disk
  unlogged _ := none
  itable ip := if ip = 0 then ⟨ROOTINO, 1, true, img.disk.inodes ROOTINO⟩ else ⟨0, 0, false, img.disk.inodes 0⟩
  ftable _ := ⟨.none, 0, false, false, 0, 0, 0⟩
  procs _ := ⟨.unused, none, fun _ => none⟩

lemma mounted_booted (img : Image) : Mounted img (booted img) where
  disk := rfl
  clean ip pos _ := by
    by_cases eq : ip = 0
    · simp [booted, Fs.State.Clean, eq]
    · simp [booted, eq] at pos
  free := ⟨1, by simp [booted]⟩

/-- The file `init`, which is read in two pieces. -/
def twoPieces : Input where
  arg := [95, 105, 110, 105, 116]
  pieces := some [[1, 2, 3], [4]]
  nonzero := by decide
  piece := by
    intro ps eq p mem
    obtain rfl : [[1, 2, 3], [4]] = ps := by simpa using eq
    simp only [List.mem_cons, List.not_mem_nil, or_false] at mem
    rcases mem with rfl | rfl <;> decide

/-- The file is found as `init`, and read in one piece. -/
theorem mkfs_read_back_init : ∃ st ip s₁ s₂, main [twoPieces] init = .ok ((), st) ∧
    dirlookup super 0 [105, 110, 105, 116] (booted st.image) = .ok (some (ip, 32), s₁) ∧ load ip s₁ = .ok ((), s₂) ∧
    readi super ip (fun _ => true) 0 10 s₂ = .ok (some [1, 2, 3, 4], s₂) := by
  have fits : Fits [twoPieces] := ⟨by decide, by decide⟩
  have readable : Readable [twoPieces] := by
    intro f mem
    obtain rfl : f = twoPieces := by simpa using mem
    exact ⟨by decide, by simp [twoPieces]⟩
  obtain ⟨st, exit, found⟩ := mkfs_read_back [twoPieces] (by decide) fits readable (by decide)
  obtain ⟨ip, s₁, s₂, lookup, -, loaded, -, -, read⟩ :=
    found 0 twoPieces rfl (booted st.image) 0 (mounted_booted _) (by simp [booted]) rfl rfl
  exact ⟨st, ip, s₁, s₂, exit, lookup, loaded, read 0 10 (by decide)⟩

/-- The file `_.`, whose name on the image is that of the entry for the root directory. -/
def dotFile : Input where
  arg := [95, 46]
  pieces := some []
  nonzero := by decide
  piece := no_pieces

/-- The name of a file is `.`: `dirlookup` finds the root directory. -/
theorem mkfs_dot_hidden : Fits [dotFile] ∧ Readable [dotFile] ∧ ([dotFile].map Input.name).Nodup ∧
    ∃ st ip s₁, main [dotFile] init = .ok ((), st) ∧ (st.image.disk.inodes 2).type = .file ∧
      dirlookup super 0 dotFile.name (booted st.image) = .ok (some (ip, 0), s₁) ∧ (s₁.itable ip).inum = ROOTINO := by
  have fits : Fits [dotFile] := ⟨by decide, by decide⟩
  have readable : Readable [dotFile] := by
    intro f mem
    obtain rfl : f = dotFile := by simpa using mem
    exact ⟨by decide, by simp [dotFile]⟩
  obtain ⟨st, exit, built⟩ := exit_of_fits (by decide) fits readable
  have mounted := mounted_booted st.image
  have alloc : (st.image.disk.inodes ROOTINO).type ≠ .free := by
    rw [built.rootType]
    decide
  obtain ⟨ip, s₁, s₂, got, -, -, inum, -, -⟩ := iget_load mounted alloc
  have clean := mounted.clean 0 (by simp [booted]) rfl
  have lookup := dirlookup_root (k := 0) built (by decide) rfl rfl clean rfl (fun l _ lt => absurd lt (Nat.not_lt_zero l)) got
  exact ⟨fits, readable, by decide, st, ip, s₁, exit, (built.file (k := 0) rfl).1, lookup, inum⟩

end Xv6.Mkfs
