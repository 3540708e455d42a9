import Mathlib.Data.Nat.Bitwise
import Xv6.Mkfs.Build

/-!
# The finished image

`main` ends with the size of the root directory, which is rounded up, and the bitmap. `Built files st` says what the
kernel finds on the image when `main` has returned, and `main_cases` that it returns if the files fit (`Fits`).
-/

namespace Xv6.Mkfs

open Fs Fallible

variable {st st' : State} {D : Disk} {P : Exit → Prop} {i j b : ℕ} {c : ℕ → List UInt8} {files : List Input}

/-! ### The super block and the bitmap -/

lemma readsb_eq {img : Image} (h : img.blocks 1 = sb.block) : img.readsb = sb := by
  have field : ∀ k, k < 8 → (img.blocks 1).getLE (4 * k) 4 =
      [sb.magic, sb.size, sb.nblocks, sb.ninodes, sb.nlog, sb.logstart, sb.inodestart, sb.bmapstart].getD k 0 % 256 ^ 4 := by
    intro k lt
    have := ByteVec.getLE_putWords (b := (fun _ => 0 : Fs.Block)) (o := 0) (a := fun k =>
      [sb.magic, sb.size, sb.nblocks, sb.ninodes, sb.nlog, sb.logstart, sb.inodestart, sb.bmapstart].getD k 0)
      (by decide : 0 + 4 * 8 ≤ BSIZE) lt
    rw [h, Super.block]
    simpa using this
  have f0 := field 0 (by decide)
  have f1 := field 1 (by decide)
  have f2 := field 2 (by decide)
  have f3 := field 3 (by decide)
  have f4 := field 4 (by decide)
  have f5 := field 5 (by decide)
  have f6 := field 6 (by decide)
  have f7 := field 7 (by decide)
  rw [Image.readsb]
  congr

def bits (used : ℕ) : Fs.Block :=
  (List.range used).foldl (fun buf i => buf.put8 (i / 8) (buf.get8 (i / 8) ||| UInt8.ofNat (2 ^ (i % 8)))) fun _ => 0

lemma testBit_bits {used : ℕ} (le : used ≤ BSIZE * 8) (lt : b < BSIZE * 8) :
    ((bits used).get8 (b / 8)).toNat.testBit (b % 8) = decide (b < used) := by
  induction used with
  | zero => simp [bits, ByteVec.get8]
  | succ n ih =>
    have old := ih (by omega)
    have bit : (UInt8.ofNat (2 ^ (n % 8))).toNat = 2 ^ (n % 8) := by
      have : 2 ^ (n % 8) < 2 ^ 8 := Nat.pow_lt_pow_right (by decide) (Nat.mod_lt _ (by decide))
      simpa using this
    rw [bits, List.range_succ, List.foldl_append, ← bits, List.foldl_cons, List.foldl_nil]
    by_cases byte : b / 8 = n / 8
    · have here : n / 8 < BSIZE := by
        simp only [BSIZE] at *
        omega
      rw [byte, ByteVec.get8_put8 here, UInt8.toNat_or, Nat.testBit_or, ← byte, old, bit, Nat.testBit_two_pow,
        ← Bool.decide_or, decide_eq_decide]
      omega
    · rw [ByteVec.get8_put8_ne byte, old, decide_eq_decide]
      omega

/-! ### The end of `main` -/

/-- The size of the root directory at the end. -/
def roundUp (size : ℕ) : ℕ := (size / BSIZE + 1) * BSIZE

/-- The image at the end. -/
structure Finished (st : State) (D : Disk) (st' : State) : Prop where
  next : st'.freeinode = st.freeinode
  readsb : st'.image.readsb = sb
  bit : ∀ {b}, b < FSSIZE → st'.image.disk.bitmap b = D.bitmap b
  inodes : ∀ {j}, j < NINODES → st'.image.disk.inodes j = (resize D 1 (roundUp (D.inodes 1).size)).inodes j
  blocks : ∀ {b}, nmeta ≤ b → st'.image.disk.blocks b = D.blocks b

def State.finished (st : State) : State :=
  (st.write (IBLOCK 1 sb) (RawDinode.put (st.image.blocks (IBLOCK 1 sb)) (1 % IPB)
    { inodeAt st.image 1 with size := roundUp (inodeAt st.image 1).size })).write sb.bmapstart (bits st.freeblock)

lemma inodeAt_finished (h : Inv st D c) (root : 1 < st.freeinode) (lt : j < NINODES) :
    inodeAt st.finished.image j =
      if j = 1 then { inodeAt st.image 1 with size := roundUp (inodeAt st.image 1).size } else inodeAt st.image j := by
  have ok : ({ inodeAt st.image 1 with size := roundUp (inodeAt st.image 1).size } : RawDinode).Ok := by
    have old : (inodeAt st.image 1).Ok := RawDinode.get_ok
    refine ⟨old.type, old.major, old.minor, old.nlink, ?_, old.addrs, old.last⟩
    have size : (inodeAt st.image 1).size = (D.inodes 1).size := (congrArg Dinode.size (h.table 1 (by decide))).symm
    have small := (h.holds 1 (Nat.le_refl 1) root).small
    rw [← (h.holds 1 (Nat.le_refl 1) root).size, ← size] at small
    simp only [roundUp, MAXFILE, NDIRECT, NINDIRECT, BSIZE] at *
    omega
  have ne : IBLOCK j sb ≠ sb.bmapstart := by
    have below : IBLOCK j sb < nmeta := (IBLOCK_lt lt).1
    simp only [IBLOCK, sb, NINODES, nlog, LOGSIZE, MAXOPBLOCKS, ninodeblocks, IPB, DISIZE, BSIZE] at *
    omega
  have other : st.finished.image.blocks (IBLOCK j sb) = (st.write (IBLOCK 1 sb) (RawDinode.put
      (st.image.blocks (IBLOCK 1 sb)) (1 % IPB)
        { inodeAt st.image 1 with size := roundUp (inodeAt st.image 1).size })).image.blocks (IBLOCK j sb) :=
    Function.update_of_ne ne _ _
  rw [← inodeAt_write ok, inodeAt, inodeAt, other]

lemma finished_of_inv (h : Inv st D c) (root : 1 < st.freeinode) : Finished st D st.finished := by
  have low : ∀ b, b ≠ IBLOCK 1 sb → b ≠ sb.bmapstart → st.finished.image.blocks b = st.image.blocks b := by
    intro b ne ne'
    simp only [State.finished, State.write]
    rw [Function.update_of_ne ne', Function.update_of_ne ne]
  have readsb : st.finished.image.readsb = sb := readsb_eq (by rw [low 1 (by decide) (by decide), h.sb])
  refine ⟨rfl, readsb, fun {b} lb => ?_, fun {j} lj => ?_, fun {b} le => ?_⟩
  · have lt : b < BSIZE * 8 := lb.trans (by decide)
    have bitmap : st.finished.image.blocks sb.bmapstart = bits st.freeblock := by
      simp only [State.finished, State.write, Function.update_self]
    have div : b % (BSIZE * 8) / 8 = b / 8 := by rw [Nat.mod_eq_of_lt lt]
    simp only [Image.disk, Image.bit, readsb]
    rw [Nat.div_eq_of_lt lt, Nat.zero_add, bitmap, div, testBit_bits (h.core.high.trans (by decide)) lt, h.core.bitmap]
  · have inode : st.finished.image.inode j = inodeAt st.finished.image j := by rw [Image.inode, readsb, inodeAt]
    simp only [Image.disk, inode, inodeAt_finished h root lj, resize]
    by_cases eq : j = 1
    · rw [if_pos eq, eq, Function.update_self, h.table 1 (by decide)]
      rfl
    · rw [if_neg eq, Function.update_of_ne eq, h.table j lj]
  · have first := (IBLOCK_lt (i := 1) (by decide)).1
    have second : sb.bmapstart < nmeta := by decide
    simp only [Image.disk]
    rw [low b (by omega) (by omega), h.core.blocks]

lemma wp_finish {Q : Unit → State → Prop} (h : Inv st D c) (done : Q () st.finished) : wp P finish Q st := by
  have lt : ROOTINO < NINODES := by decide
  have room : st.freeblock < BSIZE * 8 := h.core.high.trans_lt (by decide)
  rw [finish, wp_bind]
  refine wp_rinode h.core.len lt ?_
  rw [wp_bind]
  refine wp_winode h.core.len lt ?_
  rw [wp_bind, wp_get, balloc, if_pos (by exact room)]
  exact wp_wsect h.core.len (by decide) done

lemma slots_agree {D' : Disk} (sound : Sound super D) (inodes : ∀ m, m < NINODES → D'.inodes m = D.inodes m)
    (blocks : ∀ b, nmeta ≤ b → D'.blocks b = D.blocks b) : D'.slots super = D.slots super := by
  funext ⟨m, l⟩
  by_cases alloc : m < NINODES ∧ (D.inodes m).type ≠ .free ∧ l.Ok
  · obtain ⟨lt, ne, ok⟩ := alloc
    rw [Disk.slots_eq lt (by rwa [inodes m lt]) ok, Disk.slots_eq lt ne ok]
    cases l with
    | addr k => simp only [Disk.addr, inodes m lt]
    | entry k =>
      simp only [Disk.addr, inodes m lt]
      by_cases none : (D.inodes m).addrs NDIRECT = 0
      · rw [if_pos none, if_pos none]
      · have slot : D.slots super (m, .addr NDIRECT) = (D.inodes m).addrs NDIRECT :=
          Disk.slots_eq (l := .addr NDIRECT) lt ne (Nat.le_refl NDIRECT)
        rw [if_neg none, if_neg none, blocks _ (slot ▸ (sound.range (slot.symm ▸ none)).1)]
  · have none : D.slots super (m, l) = 0 := if_neg alloc
    rw [none]
    refine if_neg ?_
    rintro ⟨lt, ne, ok⟩
    exact alloc ⟨lt, inodes m lt ▸ ne, ok⟩

namespace Finished

variable (f : Finished st D st')

include f

lemma slots (sound : Sound super D) : st'.image.disk.slots super = D.slots super := by
  rw [← slots_resize (i := 1) (D := D)]
  refine slots_agree ?_ (fun m lt => f.inodes lt) fun b le => f.blocks le
  rw [Sound, slots_resize]
  exact sound

lemma sound (sound : Sound super D) : Sound super st'.image.disk := by
  rw [Sound, f.slots sound]
  refine ⟨sound.pos, sound.range, sound.inj, fun {b} lt => ?_⟩
  rw [f.bit lt]
  exact sound.bit lt

lemma holds {E : Disk} {c : List UInt8} (sound : Sound super D) (h : Holds D i c)
    (size : (E.inodes i).size = (D.inodes i).size) (slots : E.slots super = st'.image.disk.slots super)
    (blocks : E.blocks = st'.image.disk.blocks) : Holds E i c := by
  rw [f.slots sound] at slots
  refine h.congr size (fun l => congrFun slots _) fun l ne => ?_
  rw [blocks, f.blocks (sound.range ne).1]

end Finished

/-! ### `main` -/

def contents (files : List Input) : List UInt8 :=
  (⟨1, dot⟩ :: ⟨1, dotdot⟩ :: rootEntries 2 files).flatMap Dirent.toBytes

/-- The files fit the image. -/
structure Fits (files : List Input) : Prop where
  small : ∀ f ∈ files, f.bytes.length ≤ MAXFILE * BSIZE
  total : nmeta + cost (DESIZE * (files.length + 2)) + (files.map fun f => cost f.bytes.length).sum ≤ FSSIZE

/-- The files can be opened, and their names are no paths. -/
def Readable (files : List Input) : Prop := ∀ f ∈ files, 47 ∉ f.short ∧ f.pieces ≠ none

/-- The image when `main` has returned. -/
structure Built (files : List Input) (st : State) : Prop where
  next : st.freeinode = files.length + 2
  readsb : st.image.readsb = sb
  sound : Sound super st.image.disk
  used : ∀ j, j < NINODES → ((st.image.disk.inodes j).type ≠ .free ↔ 1 ≤ j ∧ j < files.length + 2)
  rootType : (st.image.disk.inodes 1).type = .dir
  rootSize : (st.image.disk.inodes 1).size = roundUp (contents files).length
  root : Holds (resize st.image.disk 1 (contents files).length) 1 (contents files)
  file : ∀ {k f}, files[k]? = some f →
    (st.image.disk.inodes (k + 2)).type = .file ∧ Holds st.image.disk (k + 2) f.bytes
  readable : Readable files

/-- The sizes of the files with the inodes from 1 on. -/
def sizes (files : List Input) (j : ℕ) : ℕ :=
  if j = 1 then DESIZE * (files.length + 2) else (files.map fun f => f.bytes.length).getD (j - 2) 0

lemma sum_sizes (files : List Input) :
    ∑ j ∈ Finset.Ico 1 (files.length + 2), cost (sizes files j) =
      cost (DESIZE * (files.length + 2)) + (files.map fun f => cost f.bytes.length).sum := by
  have rest : ∀ fs : List Input, ∑ k ∈ Finset.range fs.length, cost ((fs.map fun f => f.bytes.length).getD k 0) =
      (fs.map fun f => cost f.bytes.length).sum := by
    intro fs
    induction fs with
    | nil => rfl
    | cons f fs ih =>
      rw [List.length_cons, Finset.sum_range_succ', List.map_cons, List.map_cons, List.sum_cons, ← ih, Nat.add_comm]
      simp
  rw [Finset.sum_eq_sum_Ico_succ_bot (by omega), Finset.sum_Ico_eq_sum_range, ← rest]
  congr 1
  refine Finset.sum_congr rfl fun k _ => ?_
  rw [sizes, if_neg (by omega), Nat.add_sub_cancel_left]

lemma Fits.plan (few : files.length + 2 ≤ NINODES) (fits : Fits files) : Plan (files.length + 2) (sizes files) where
  small j := by
    by_cases root : j = 1
    · rw [sizes, if_pos root]
      simp only [DESIZE, MAXFILE, NDIRECT, NINDIRECT, BSIZE, NINODES] at *
      omega
    · rw [sizes, if_neg root, List.getD_eq_getElem?_getD, List.getElem?_map]
      cases eq : files[j - 2]? with
      | none => exact Nat.zero_le _
      | some f => exact fits.small f (List.mem_of_getElem? eq)
  total := by
    rw [sum_sizes, ← Nat.add_assoc]
    exact fits.total

lemma Added.built {D' : Disk} {c' : ℕ → List UInt8} (a : Added files st D c st' D' c') (two : st.freeinode = 2)
    (dots : c 1 = Dirent.toBytes ⟨1, dot⟩ ++ Dirent.toBytes ⟨1, dotdot⟩) (dir : (D.inodes 1).type = .dir) :
    Built files st'.finished := by
  have root : 1 < st'.freeinode := by
    rw [a.next]
    omega
  have f := finished_of_inv a.inv root
  have sound := a.inv.core.sound
  have type : ∀ {j}, j < NINODES → (st'.finished.image.disk.inodes j).type = (D'.inodes j).type := by
    intro j lt
    rw [f.inodes lt]
    by_cases eq : j = 1
    · rw [eq, inodes_resize]
    · rw [inodes_resize_ne eq]
  have one : c' 1 = contents files := by
    rw [a.root, dots, two, contents]
    simp
  have holds := a.inv.holds 1 (Nat.le_refl 1) root
  rw [one] at holds
  refine ⟨?_, f.readsb, f.sound sound, fun j lt => ?_, ?_, ?_, ?_, fun {k g} eq => ?_, a.ok⟩
  · rw [f.next, a.next, two, Nat.add_comm]
  · rw [type lt, a.inv.used j lt, a.next, two, Nat.add_comm 2]
  · rw [type (by decide), a.types 1 (by omega), dir]
  · rw [f.inodes (by decide), inodes_resize, ← holds.size]
  · refine f.holds sound holds ?_ slots_resize rfl
    rw [inodes_resize, holds.size]
  · have lt : k < files.length := (List.getElem?_eq_some_iff.1 eq).1
    have few := a.inv.last
    have next := a.next
    obtain ⟨bytes, file⟩ := a.file eq
    rw [two, Nat.add_comm] at bytes file
    refine ⟨?_, f.holds sound ?_ ?_ rfl rfl⟩
    · rw [type (by omega), file]
    · rw [← bytes]
      exact a.inv.holds (k + 2) (by omega) (by omega)
    · rw [f.inodes (by omega), inodes_resize_ne (by omega)]

lemma main_cases (few : files.length + 2 ≤ NINODES) :
    (∃ st, main files init = .ok ((), st) ∧ Built files st) ∨
      ∃ e, main files init = .error e ∧ ¬(Fits files ∧ Readable files) := by
  have no : ¬Plan (files.length + 2) (sizes files) → Exit → ¬(Fits files ∧ Readable files) :=
    fun bad _ fits => bad (fits.1.plan few)
  have root : sizes files 1 = 2 * DESIZE + DESIZE * files.length := (if_pos rfl).trans (by rw [Nat.mul_add, Nat.add_comm, Nat.mul_comm 2])
  refine cases_of_wp (P := fun _ => ¬(Fits files ∧ Readable files)) (Q := fun _ st => Built files st) ?_
  rw [main, wp_bind, wp_ok (zeroes_eq (by decide)), wp_bind]
  refine wp_wsect rfl (by decide) ?_
  change wp _ _ _ blank
  obtain ⟨D, h⟩ := inv_blank
  rw [wp_bind]
  refine wp_ialloc h (by decide) (by decide) (by decide) fun st₁ D₁ h₁ fi₁ in₁ => ?_
  have first : blank.freeinode = 1 := rfl
  rw [first] at h₁ fi₁ in₁ ⊢
  have c₁ : Function.update (fun _ => []) 1 [] = fun _ : ℕ => ([] : List UInt8) := Function.update_eq_self _ _
  rw [c₁] at h₁
  -- only the root directory has bytes
  have le : ∀ {p : List UInt8} {st : State}, st.freeinode = 2 → p.length ≤ sizes files 1 → ∀ j, 1 ≤ j → j < st.freeinode →
      (Function.update (fun _ => []) 1 p j).length ≤ sizes files j := by
    intro p st two small j ge lt
    obtain rfl : j = 1 := by omega
    rwa [Function.update_self]
  rw [if_pos rfl, wp_bind]
  refine wp_iappend h₁ (Nat.le_refl 1) (by omega) (fun st₂ D₂ h₂ fi₂ type₂ => ?_)
    fun full => no (h₁.not_full (Nat.le_refl 1) (by omega) (fun _ _ _ => Nat.zero_le _) (by omega) ?_ full)
  · rw [List.nil_append] at h₂
    have c₂ : Function.update (fun _ : ℕ => ([] : List UInt8)) 1 (Dirent.toBytes ⟨1, dot⟩) 1 =
      Dirent.toBytes ⟨1, dot⟩ := Function.update_self _ _ _
    have two : (Dirent.toBytes ⟨1, dot⟩).length + (Dirent.toBytes ⟨1, dotdot⟩).length ≤ sizes files 1 := by
      rw [length_toBytes, length_toBytes]
      omega
    rw [wp_bind]
    refine wp_iappend h₂ (Nat.le_refl 1) (by omega) (fun st₃ D₃ h₃ fi₃ type₃ => ?_)
      fun full => no (h₂.not_full (Nat.le_refl 1) (by omega) (le (by omega) (by omega)) (by omega) ?_ full)
    · rw [c₂, Function.update_idem] at h₃
      have c₃ : Function.update (fun _ : ℕ => ([] : List UInt8)) 1 (Dirent.toBytes ⟨1, dot⟩ ++ Dirent.toBytes ⟨1, dotdot⟩) 1 =
        Dirent.toBytes ⟨1, dot⟩ ++ Dirent.toBytes ⟨1, dotdot⟩ := Function.update_self _ _ _
      have fi : st₃.freeinode = 2 := by omega
      rw [wp_bind]
      refine wp_addFiles (N := files.length + 2) h₃ (by omega) (by omega) (le fi ?_) (by omega) ?_ (fun k f eq => ?_)
        (fun st₄ D₄ c₄ a => ?_) ?_
      · rw [List.length_append]
        exact two
      · rw [c₃, List.length_append, length_toBytes, length_toBytes]
        omega
      · rw [sizes, if_neg (by omega), fi, Nat.add_sub_cancel_left]
        simp [eq]
      · refine wp_finish a.inv (a.built fi c₃ ?_)
        rw [type₃, type₂, in₁]
        rfl
      · rintro (⟨f, mem, bad⟩ | bad)
        · intro _ fits
          obtain ⟨slash, opened⟩ := fits.2 f mem
          exact bad.elim slash opened
        · exact no bad
    · rw [c₂]
      exact two
  · rw [length_toBytes]
    simp only [List.length_nil]
    omega

end Xv6.Mkfs
