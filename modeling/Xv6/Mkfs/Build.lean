import Mathlib.Algebra.BigOperators.Intervals
import Mathlib.Algebra.Order.BigOperators.Group.Finset
import Xv6.Mkfs.Append

/-!
# The image that `mkfs` builds

`Inv st D c`: the inodes below `freeinode` are files with the bytes `c`, the image holds their fields, and the blocks below
`freeblock` are those they need. It is kept from the first inode to the last as long as the inodes fit the inode area
(`wp_addFiles`), and tells when the program dies: only if the files do not fit the image (`Plan`).
-/

namespace Xv6.Mkfs

open Fs Fallible

/-- The fields of an inode in the image. -/
def inodeAt (img : Image) (j : ℕ) : RawDinode := .get (img.blocks (IBLOCK j sb)) (j % IPB)

/-- The inodes below `freeinode` are files with the bytes `c`. -/
structure Inv (st : State) (D : Disk) (c : ℕ → List UInt8) : Prop where
  core : Core st D
  sb : st.image.blocks 1 = Mkfs.sb.block
  table : ∀ j, j < NINODES → D.inodes j = (inodeAt st.image j).toDinode
  first : 1 ≤ st.freeinode
  last : st.freeinode ≤ NINODES
  used : ∀ j, j < NINODES → ((D.inodes j).type ≠ .free ↔ 1 ≤ j ∧ j < st.freeinode)
  holds : ∀ j, 1 ≤ j → j < st.freeinode → Holds D j (c j)
  count : st.freeblock = nmeta + ∑ j ∈ Finset.Ico 1 st.freeinode, cost (c j).length

variable {st st' : State} {D D' : Disk} {P : Exit → Prop} {i j b : ℕ} {din : RawDinode} {c : ℕ → List UInt8}
  {p : List UInt8}

/-! ### Meta blocks -/

lemma IBLOCK_lt (lt : i < NINODES) : IBLOCK i sb < nmeta ∧ 1 < IBLOCK i sb := by
  simp only [IBLOCK, sb, nmeta, NINODES, nlog, LOGSIZE, MAXOPBLOCKS, ninodeblocks, IPB, DISIZE, BSIZE, nbitmap, FSSIZE] at *
  omega

lemma inode_inj (block : IBLOCK i sb = IBLOCK j sb) (place : i % IPB = j % IPB) : i = j := by
  simp only [IBLOCK, IPB, DISIZE, BSIZE] at *
  omega

lemma inodeAt_write (ok : din.Ok) (j : ℕ) :
    inodeAt (st.write (IBLOCK i sb) (din.put (st.image.blocks (IBLOCK i sb)) (i % IPB))).image j =
      if j = i then din else inodeAt st.image j := by
  have place : i % IPB < IPB := Nat.mod_lt _ (by decide)
  simp only [inodeAt, State.write]
  by_cases block : IBLOCK j sb = IBLOCK i sb
  · rw [block, Function.update_self]
    by_cases eq : j = i
    · rw [if_pos eq, eq, RawDinode.get_put ok place]
    · rw [if_neg eq, RawDinode.get_put_ne fun same => eq (inode_inj block same)]
  · rw [Function.update_of_ne block, if_neg]
    rintro rfl
    exact block rfl

lemma Core.meta (h : Core st D) (lt : b < nmeta) (blk : Fs.Block) :
    Core (st.write b blk) { D with blocks := Function.update D.blocks b blk } ∧
      Disk.slots super { D with blocks := Function.update D.blocks b blk } = D.slots super := by
  have ne : ∀ {k}, D.slots super k ≠ 0 → D.slots super k ≠ b := by
    intro k nz eq
    have := (h.sound.range nz).1
    rw [super_nmeta] at this
    omega
  have slots := slots_blocks (fun n => ne (k := (n, .addr NDIRECT))) blk
  refine ⟨⟨h.len, h.low, h.high, h.bitmap, ?_, fun {b'} le => ?_, ?_⟩, slots⟩
  · simp [State.write, h.blocks]
  · have le : st.freeblock ≤ b' := le
    have := h.low
    simp only [State.write]
    rw [Function.update_of_ne (by omega)]
    exact h.zero le
  · rw [Sound, slots]
    exact h.sound

lemma Holds.congr {c : List UInt8} (h : Holds D i c) (size : (D'.inodes i).size = (D.inodes i).size)
    (slots : ∀ l, D'.slots super (i, l) = D.slots super (i, l))
    (blocks : ∀ l, D.slots super (i, l) ≠ 0 → D'.blocks (D.slots super (i, l)) = D.blocks (D.slots super (i, l))) :
    Holds D' i c where
  size := size.trans h.size
  small := h.small
  slot lt := by
    rw [slots]
    exact h.slot lt
  indirect := by
    rw [slots]
    exact h.indirect
  byte {o} ne lt := by
    rw [slots] at ne
    rw [← h.byte ne lt, Disk.byte, Disk.byte, slots, blocks _ ne]

lemma wp_rinode {Q : RawDinode → State → Prop} (len : st.image.len = FSSIZE) (lt : i < NINODES)
    (h : Q (inodeAt st.image i) st) : wp P (rinode i) Q st := by
  have small : IBLOCK i sb < FSSIZE := (IBLOCK_lt lt).1.trans (by decide)
  simp only [rinode, wp_bind]
  exact wp_rsect len (small.trans (by decide)) (fun _ => h) fun le => absurd small (by omega)

lemma wp_winode {Q : Unit → State → Prop} (len : st.image.len = FSSIZE) (lt : i < NINODES)
    (h : Q () (st.write (IBLOCK i sb) (din.put (st.image.blocks (IBLOCK i sb)) (i % IPB)))) : wp P (winode i din) Q st := by
  have small : IBLOCK i sb < FSSIZE := (IBLOCK_lt lt).1.trans (by decide)
  simp only [winode, wp_bind]
  exact wp_rsect len (small.trans (by decide)) (fun _ => wp_wsect len small h) fun le => absurd small (by omega)

/-! ### Inodes and bytes -/

lemma Core.winode (h : Core st D) (lt : i < NINODES) (inode : D.inodes i = din.toDinode) (ok : din.Ok)
    (sb : st.image.blocks 1 = Mkfs.sb.block) (table : ∀ j, j < NINODES → j ≠ i → D.inodes j = (inodeAt st.image j).toDinode)
    (first : 1 ≤ st.freeinode) (last : st.freeinode ≤ NINODES)
    (used : ∀ j, j < NINODES → ((D.inodes j).type ≠ .free ↔ 1 ≤ j ∧ j < st.freeinode))
    (holds : ∀ j, 1 ≤ j → j < st.freeinode → Holds D j (c j))
    (count : st.freeblock = nmeta + ∑ j ∈ Finset.Ico 1 st.freeinode, cost (c j).length) :
    ∃ D', Inv (st.write (IBLOCK i Mkfs.sb) (din.put (st.image.blocks (IBLOCK i Mkfs.sb)) (i % IPB))) D' c ∧ D'.inodes = D.inodes := by
  obtain ⟨low, one⟩ := IBLOCK_lt lt
  obtain ⟨core, slots⟩ := h.meta low (din.put (st.image.blocks (IBLOCK i Mkfs.sb)) (i % IPB))
  refine ⟨_, ⟨core, ?_, fun j lj => ?_, first, last, used, fun j ge lj => ?_, count⟩, rfl⟩
  · simp only [State.write]
    rw [Function.update_of_ne (by omega)]
    exact sb
  · rw [inodeAt_write ok]
    by_cases eq : j = i
    · rw [if_pos eq, eq]
      exact inode
    · rw [if_neg eq]
      exact table j lj eq
  · refine (holds j ge lj).congr rfl (fun l => congrFun slots _) fun l ne => Function.update_of_ne ?_ _ _
    have := (h.sound.range ne).1
    rw [super_nmeta] at this
    omega

lemma sum_update {m : ℕ} (ge : 1 ≤ i) (lt : i < m) :
    ∑ j ∈ Finset.Ico 1 m, cost (Function.update c i p j).length + cost (c i).length =
      ∑ j ∈ Finset.Ico 1 m, cost (c j).length + cost p.length := by
  have mem : i ∈ Finset.Ico 1 m := Finset.mem_Ico.2 ⟨ge, lt⟩
  rw [← Finset.add_sum_erase _ _ mem, ← Finset.add_sum_erase _ (fun j => cost (c j).length) mem, Function.update_self]
  have rest : ∑ j ∈ (Finset.Ico 1 m).erase i, cost (Function.update c i p j).length =
      ∑ j ∈ (Finset.Ico 1 m).erase i, cost (c j).length := by
    refine Finset.sum_congr rfl fun j mj => ?_
    rw [Function.update_of_ne (Finset.ne_of_mem_erase mj)]
  rw [rest]
  omega

lemma wp_iappend {Q : Unit → State → Prop} (h : Inv st D c) (ge : 1 ≤ i) (lt : i < st.freeinode)
    (done : ∀ st' D', Inv st' D' (Function.update c i (c i ++ p)) → st'.freeinode = st.freeinode →
      (∀ j, (D'.inodes j).type = (D.inodes j).type) → Q () st')
    (full : Full st (c i).length ((c i).length + p.length) → ∀ e, P e) : wp P (iappend i p) Q st := by
  have li : i < NINODES := lt.trans_le h.last
  have holds := h.holds i ge lt
  have inode := h.table i li
  have size : (inodeAt st.image i).size = (c i).length := by
    rw [← holds.size, inode]
    rfl
  rw [iappend, wp_bind]
  refine wp_rinode h.core.len li ?_
  have opened : Open i (c i).length D (inodeAt st.image i) := by
    refine ⟨li, (h.used i li).2 ⟨ge, lt⟩, ?_, RawDinode.get_ok⟩
    rw [inode, ← size]
  rw [size, wp_bind]
  refine wp_appendLoop h.core opened holds (fun st' D' din a => ?_) full
  have ok : ({ din with size := (c i ++ p).length } : RawDinode).Ok := by
    have := a.opened.ok
    refine ⟨this.type, this.major, this.minor, this.nlink, ?_, this.addrs, this.last⟩
    exact a.holds.small.trans_lt (by decide)
  have type : ∀ j, (D'.inodes j).type = (D.inodes j).type := by
    intro j
    by_cases eq : j = i
    · rw [eq, a.type]
    · rw [a.inodes j eq]
  have stored := a.core.winode (c := Function.update c i (c i ++ p)) li a.opened.inode ok ?_ ?_ ?_ ?_ ?_ ?_ ?_
  · obtain ⟨D'', inv, inodes⟩ := stored
    refine wp_winode a.core.len li (done _ D'' inv a.freeinode fun j => ?_)
    rw [inodes, type]
  · rw [a.low 1 (by decide), h.sb]
  · intro j lj ne
    rw [a.inodes j ne, h.table j lj, inodeAt, inodeAt, a.low _ (IBLOCK_lt lj).1]
  · rw [a.freeinode]
    exact h.first
  · rw [a.freeinode]
    exact h.last
  · intro j lj
    rw [type, a.freeinode]
    exact h.used j lj
  · intro j gj lj
    rw [a.freeinode] at lj
    by_cases eq : j = i
    · subst eq
      rw [Function.update_self]
      exact a.holds
    · rw [Function.update_of_ne eq]
      exact a.others eq (h.holds j gj lj)
  · have count := h.count
    have new := a.freeblock
    have sum := sum_update (c := c) (p := c i ++ p) ge lt
    rw [a.freeinode]
    omega

lemma wp_ialloc {Q : ℕ → State → Prop} {type : ℕ} (h : Inv st D c) (lt : st.freeinode < NINODES)
    (free : FileType.ofNumber type ≠ .free) (small : type < 2 ^ 16)
    (done : ∀ st' D', Inv st' D' (Function.update c st.freeinode []) → st'.freeinode = st.freeinode + 1 →
      D'.inodes = Function.update D.inodes st.freeinode (RawDinode.toDinode ⟨type, 0, 0, 1, 0, fun _ => 0⟩) →
      Q st.freeinode st') : wp P (ialloc type) Q st := by
  simp only [ialloc, nextInode, wp_bind, wp_get, wp_modify, wp_pure]
  refine wp_winode h.core.len lt ?_
  -- the new inode has no blocks
  let E : Disk := { D with
    inodes := Function.update D.inodes st.freeinode (RawDinode.toDinode ⟨type, 0, 0, 1, 0, fun _ => 0⟩) }
  have unused : (D.inodes st.freeinode).type = .free := by
    by_contra no
    have := ((h.used _ lt).1 no).2
    omega
  have slots : E.slots super = D.slots super := by
    funext x
    obtain ⟨m, l⟩ := x
    by_cases eq : m = st.freeinode
    · have none : D.slots super (m, l) = 0 := if_neg fun h => h.2.1 (eq ▸ unused)
      rw [none, Disk.slots]
      split
      · subst eq
        cases l <;> simp [Disk.addr, E, RawDinode.toDinode]
      · rfl
    · exact Disk.slots_congr (Function.update_of_ne eq _ _) rfl
  have core : Core { st with freeinode := st.freeinode + 1 } E := by
    refine ⟨h.core.len, h.core.low, h.core.high, h.core.bitmap, h.core.blocks, h.core.zero, ?_⟩
    rw [Sound, slots]
    exact h.core.sound
  have new : E.inodes st.freeinode = RawDinode.toDinode ⟨type, 0, 0, 1, 0, fun _ => 0⟩ := Function.update_self _ _ _
  have stored := core.winode (c := Function.update c st.freeinode []) lt new ?_ h.sb ?_ ?_ ?_ ?_ ?_ ?_
  · obtain ⟨D', inv, inodes⟩ := stored
    exact done _ D' inv rfl inodes
  · refine ⟨small, ?_, ?_, ?_, ?_, fun _ => ?_, fun _ _ => rfl⟩ <;> simp
  · intro j lj ne
    simp only [E, Function.update_of_ne ne]
    exact h.table j lj
  · exact Nat.le_add_left 1 _
  · exact lt
  · intro j lj
    by_cases eq : j = st.freeinode
    · have := h.first
      simp only [E, eq, Function.update_self, RawDinode.toDinode]
      exact ⟨fun _ => ⟨this, Nat.lt_succ_self _⟩, fun _ => free⟩
    · simp only [E, Function.update_of_ne eq]
      rw [h.used j lj]
      omega
  · intro j gj lj
    by_cases eq : j = st.freeinode
    · subst eq
      have none : ∀ l, E.slots super (st.freeinode, l) = 0 := by
        intro l
        rw [slots]
        exact if_neg fun h => h.2.1 unused
      rw [Function.update_self]
      refine ⟨?_, Nat.zero_le _, fun _ => ?_, ?_, fun ne => absurd (none _) ne⟩
      · simp [E, RawDinode.toDinode]
      · simp [none]
      · simp [none]
    · rw [Function.update_of_ne eq]
      have lj : j < st.freeinode + 1 := lj
      refine (h.holds j gj (by omega)).congr ?_ (fun l => by rw [slots]) fun _ _ => rfl
      simp only [E, Function.update_of_ne eq]
  · have sum : ∑ j ∈ Finset.Ico 1 st.freeinode, cost (Function.update c st.freeinode [] j).length =
        ∑ j ∈ Finset.Ico 1 st.freeinode, cost (c j).length := by
      refine Finset.sum_congr rfl fun j mj => ?_
      rw [Function.update_of_ne (Finset.mem_Ico.1 mj).2.ne]
    rw [Finset.sum_Ico_succ_top h.first, sum, Function.update_self, h.count]
    rfl

/-! ### The files -/

/-- Files of the sizes `len`, for the inodes from 1 to `N`, fit the image. -/
structure Plan (N : ℕ) (len : ℕ → ℕ) : Prop where
  small : ∀ j, len j ≤ MAXFILE * BSIZE
  total : nmeta + ∑ j ∈ Finset.Ico 1 N, cost (len j) ≤ FSSIZE

lemma Inv.not_full {N n : ℕ} {len : ℕ → ℕ} (h : Inv st D c) (ge : 1 ≤ i) (lt : i < st.freeinode)
    (le : ∀ j, 1 ≤ j → j < st.freeinode → (c j).length ≤ len j) (last : st.freeinode ≤ N) (fits : n ≤ len i)
    (full : Full st (c i).length n) : ¬Plan N len := by
  intro plan
  rcases full with large | many
  · have := plan.small i
    omega
  · have mem : i ∈ Finset.Ico 1 st.freeinode := Finset.mem_Ico.2 ⟨ge, lt⟩
    have rest : ∑ j ∈ (Finset.Ico 1 st.freeinode).erase i, cost (c j).length ≤
        ∑ j ∈ (Finset.Ico 1 st.freeinode).erase i, cost (len j) := by
      refine Finset.sum_le_sum fun j mj => cost_mono ?_
      obtain ⟨gj, lj⟩ := Finset.mem_Ico.1 (Finset.mem_of_mem_erase mj)
      exact le j gj lj
    have more : ∑ j ∈ Finset.Ico 1 st.freeinode, cost (len j) ≤ ∑ j ∈ Finset.Ico 1 N, cost (len j) :=
      Finset.sum_le_sum_of_subset (Finset.Ico_subset_Ico_right last)
    have now := Finset.add_sum_erase (Finset.Ico 1 st.freeinode) (fun j => cost (c j).length) mem
    have then_ := Finset.add_sum_erase (Finset.Ico 1 st.freeinode) (fun j => cost (len j)) mem
    have grown := cost_mono fits
    have count := h.count
    have total := plan.total
    omega

def Input.bytes (f : Input) : List UInt8 := (f.pieces.getD []).flatten

lemma wp_pieces {Q : Unit → State → Prop} {ps : List (List UInt8)} {N : ℕ} {len : ℕ → ℕ} (h : Inv st D c) (ge : 1 ≤ i)
    (lt : i < st.freeinode) (le : ∀ j, 1 ≤ j → j < st.freeinode → (c j).length ≤ len j) (last : st.freeinode ≤ N)
    (fits : (c i ++ ps.flatten).length ≤ len i)
    (done : ∀ st' D', Inv st' D' (Function.update c i (c i ++ ps.flatten)) → st'.freeinode = st.freeinode →
      (∀ j, (D'.inodes j).type = (D.inodes j).type) → Q () st')
    (full : ¬Plan N len → ∀ e, P e) : wp P (ps.forM (iappend i)) Q st := by
  induction ps generalizing st D c with
  | nil =>
    rw [List.forM, wp_pure]
    refine done st D ?_ rfl fun _ => rfl
    rwa [List.flatten_nil, List.append_nil, Function.update_eq_self]
  | cons p ps ih =>
    have total : (c i ++ p ++ ps.flatten).length ≤ len i := by simpa using fits
    rw [List.forM, wp_bind]
    refine wp_iappend h ge lt (fun st₁ D₁ h₁ fi₁ type₁ => ?_) fun bad => full (h.not_full ge lt le last ?_ bad)
    · refine ih h₁ (by omega) ?_ (by omega) ?_ fun st₂ D₂ h₂ fi₂ type₂ => ?_
      · intro j gj lj
        by_cases eq : j = i
        · rw [eq, Function.update_self]
          simp only [List.length_append] at total ⊢
          omega
        · rw [Function.update_of_ne eq]
          exact le j gj (by omega)
      · simpa using total
      · refine done st₂ D₂ ?_ (by omega) fun j => (type₂ j).trans (type₁ j)
        simpa using h₂
    · simp only [List.length_append] at total
      omega

/-- The entries of the root directory for the files, which get the inodes from `m` on. -/
def rootEntries (m : ℕ) : List Input → List Dirent
  | [] => []
  | f :: fs => ⟨m, f.name⟩ :: rootEntries (m + 1) fs

@[simp]
lemma length_toBytes (de : Dirent) : de.toBytes.length = DESIZE := by simp [Dirent.toBytes]

lemma wp_addFile {Q : Unit → State → Prop} {f : Input} {N : ℕ} {len : ℕ → ℕ} (h : Inv st D c) (root : 1 < st.freeinode)
    (lt : st.freeinode < NINODES) (le : ∀ j, 1 ≤ j → j < st.freeinode → (c j).length ≤ len j) (last : st.freeinode < N)
    (dir : (c 1).length + DESIZE ≤ len 1) (file : f.bytes.length ≤ len st.freeinode)
    (done : ∀ st' D', Inv st' D' (Function.update (Function.update c 1 (c 1 ++ Dirent.toBytes ⟨st.freeinode, f.name⟩))
        st.freeinode f.bytes) → st'.freeinode = st.freeinode + 1 → 47 ∉ f.short → f.pieces ≠ none →
      (D'.inodes st.freeinode).type = .file → (∀ j, j < st.freeinode → (D'.inodes j).type = (D.inodes j).type) → Q () st')
    (bad : 47 ∈ f.short ∨ f.pieces = none ∨ ¬Plan N len → ∀ e, P e) : wp P (addFile f) Q st := by
  rw [addFile]
  split
  case isTrue slash => exact bad (.inl slash) _
  case isFalse noslash =>
    split
    case h_1 closed => exact bad (.inr (.inl closed)) _
    case h_2 ps opened =>
      have bytes : f.bytes = ps.flatten := by simp [Input.bytes, opened]
      have full : ¬Plan N len → ∀ e, P e := fun no => bad (.inr (.inr no))
      rw [wp_bind]
      refine wp_ialloc h lt (by decide) (by decide) fun st₁ D₁ h₁ fi₁ in₁ => ?_
      have ne : (1 : ℕ) ≠ st.freeinode := root.ne
      have le₁ : ∀ j, 1 ≤ j → j < st₁.freeinode → (Function.update c st.freeinode [] j).length ≤ len j := by
        intro j gj lj
        by_cases eq : j = st.freeinode
        · simp [eq]
        · rw [Function.update_of_ne eq]
          exact le j gj (by omega)
      have one : Function.update c st.freeinode [] ROOTINO = c 1 := Function.update_of_ne ne _ _
      rw [wp_bind]
      have lt₁ : 1 < st₁.freeinode := by omega
      refine wp_iappend h₁ (Nat.le_refl 1) lt₁ (fun st₂ D₂ h₂ fi₂ type₂ => ?_)
        fun no => full (h₁.not_full (Nat.le_refl 1) lt₁ le₁ (by omega) ?_ no)
      · have c₂ : Function.update (Function.update c st.freeinode []) ROOTINO
            (Function.update c st.freeinode [] ROOTINO ++ Dirent.toBytes ⟨st.freeinode, f.name⟩) st.freeinode = [] := by
          rw [Function.update_of_ne ne.symm, Function.update_self]
        refine wp_pieces h₂ h.first (by omega) ?_ (by omega) ?_ (fun st₃ D₃ h₃ fi₃ type₃ => ?_) full
        · intro j gj lj
          by_cases eq : j = 1
          · rw [eq, Function.update_self, one]
            simpa using dir
          · rw [Function.update_of_ne eq]
            exact le₁ j gj (by omega)
        · rw [c₂]
          simpa [bytes] using file
        · refine done st₃ D₃ ?_ (by omega) noslash (by simp [opened]) ?_ fun j lj => ?_
          · rw [c₂, one] at h₃
            rw [bytes, Function.update_comm ne]
            rw [Function.update_comm ne.symm, Function.update_idem, List.nil_append] at h₃
            rwa [Function.update_comm ne] at h₃
          · rw [type₃, type₂, in₁, Function.update_self]
            rfl
          · rw [type₃, type₂, in₁, Function.update_of_ne lj.ne]
      · rw [one]
        simpa using dir

/-- The files `fs` have been added, which have got the inodes from `freeinode` on. -/
structure Added (fs : List Input) (st : State) (D : Disk) (c : ℕ → List UInt8) (st' : State) (D' : Disk)
    (c' : ℕ → List UInt8) : Prop where
  inv : Inv st' D' c'
  next : st'.freeinode = st.freeinode + fs.length
  root : c' 1 = c 1 ++ (rootEntries st.freeinode fs).flatMap Dirent.toBytes
  file : ∀ {k f}, fs[k]? = some f → c' (st.freeinode + k) = f.bytes ∧ (D'.inodes (st.freeinode + k)).type = .file
  types : ∀ j, j < st.freeinode → (D'.inodes j).type = (D.inodes j).type
  others : ∀ j, j < st.freeinode → j ≠ 1 → c' j = c j
  ok : ∀ f ∈ fs, 47 ∉ f.short ∧ f.pieces ≠ none

lemma wp_addFiles {Q : Unit → State → Prop} {fs : List Input} {N : ℕ} {len : ℕ → ℕ} (h : Inv st D c)
    (root : 1 < st.freeinode) (lt : st.freeinode + fs.length ≤ NINODES)
    (le : ∀ j, 1 ≤ j → j < st.freeinode → (c j).length ≤ len j) (last : st.freeinode + fs.length ≤ N)
    (dir : (c 1).length + DESIZE * fs.length ≤ len 1)
    (files : ∀ k f, fs[k]? = some f → f.bytes.length ≤ len (st.freeinode + k))
    (done : ∀ st' D' c', Added fs st D c st' D' c' → Q () st')
    (bad : (∃ f ∈ fs, 47 ∈ f.short ∨ f.pieces = none) ∨ ¬Plan N len → ∀ e, P e) : wp P (fs.forM addFile) Q st := by
  induction fs generalizing st D c with
  | nil =>
    rw [List.forM, wp_pure]
    refine done st D c ⟨h, rfl, ?_, ?_, fun _ _ => rfl, fun _ _ _ => rfl, ?_⟩ <;> simp [rootEntries]
  | cons f fs ih =>
    rw [List.length_cons] at lt last
    rw [List.length_cons, Nat.mul_succ] at dir
    rw [List.forM, wp_bind]
    refine wp_addFile (N := N) h root (by omega) le (by omega) (by omega) (files 0 f rfl)
      (fun st₁ D₁ h₁ fi₁ slash opened file₁ types₁ => ?_) ?_
    · have one : Function.update (Function.update c 1 (c 1 ++ Dirent.toBytes ⟨st.freeinode, f.name⟩)) st.freeinode
          f.bytes 1 = c 1 ++ Dirent.toBytes ⟨st.freeinode, f.name⟩ := by
        rw [Function.update_of_ne root.ne, Function.update_self]
      refine ih h₁ (by omega) (by omega) (fun j gj lj => ?_) (by omega) ?_ (fun k g eq => ?_) (fun st₂ D₂ c₂ a => ?_) ?_
      · by_cases new : j = st.freeinode
        · rw [new, Function.update_self]
          exact files 0 f rfl
        · rw [Function.update_of_ne new]
          by_cases first : j = 1
          · rw [first, Function.update_self, List.length_append, length_toBytes]
            omega
          · rw [Function.update_of_ne first]
            exact le j gj (by omega)
      · rw [one, List.length_append, length_toBytes]
        omega
      · have := files (k + 1) g eq
        rwa [fi₁, Nat.add_right_comm, Nat.add_assoc]
      · refine done st₂ D₂ c₂ ⟨a.inv, ?_, ?_, fun {k g} eq => ?_, fun j lj => ?_, fun j lj ne => ?_, ?_⟩
        · rw [a.next, fi₁, List.length_cons]
          omega
        · rw [a.root, one, fi₁, rootEntries, List.flatMap_cons, List.append_assoc]
        · cases k with
          | zero =>
            obtain rfl : f = g := by simpa using eq
            have here : st.freeinode < st₁.freeinode := by omega
            rw [Nat.add_zero, a.others _ here (by omega), a.types _ here, Function.update_self]
            exact ⟨rfl, file₁⟩
          | succ k =>
            have := a.file (k := k) (f := g) eq
            rwa [fi₁, Nat.add_right_comm, Nat.add_assoc] at this
        · rw [a.types j (by omega), types₁ j lj]
        · rw [a.others j (by omega) ne, Function.update_of_ne lj.ne, Function.update_of_ne ne]
        · intro g mem
          rcases List.mem_cons.1 mem with rfl | mem
          · exact ⟨slash, opened⟩
          · exact a.ok g mem
      · rintro (⟨g, mem, no⟩ | no)
        · exact bad (.inl ⟨g, List.mem_cons_of_mem f mem, no⟩)
        · exact bad (.inr no)
    · rintro (no | no | no)
      · exact bad (.inl ⟨f, List.mem_cons_self, .inl no⟩)
      · exact bad (.inl ⟨f, List.mem_cons_self, .inr no⟩)
      · exact bad (.inr no)

/-! ### The start of `main` -/

/-- The image before the first inode is taken. -/
def blank : State := ⟨⟨FSSIZE, Function.update (fun _ _ => 0) 1 sb.block⟩, 1, nmeta⟩

lemma zeroes_eq {n : ℕ} (small : n ≤ 2 ^ 22) :
    Fallible.upto (fun i => wsect i fun _ => 0) n init = .ok ((), { init with image := ⟨n, fun _ _ => 0⟩ }) := by
  refine eq_ok (wp_mono (Q := fun _ st => st = { init with image := ⟨n, fun _ _ => 0⟩ }) ?_ fun _ _ eq => ⟨rfl, eq⟩)
  refine wp_upto (fun k st => st = { init with image := ⟨k, fun _ _ => 0⟩ }) rfl fun k st lt eq => ?_
  have same : Function.update (fun _ : ℕ => (fun _ => 0 : Fs.Block)) k (fun _ => 0) = fun _ _ => 0 := Function.update_eq_self k _
  simp only [eq, wsect, wp_modify, seek_eq (lt.trans_le small), same, max_eq_right (Nat.le_succ k)]


lemma inv_blank : ∃ D, Inv blank D fun _ => [] := by
  have zero : ∀ b, b ≠ 1 → blank.image.blocks b = fun _ => 0 := by
    intro b ne
    simp only [blank, Function.update_of_ne ne]
  let D : Disk := ⟨fun b => decide (b < nmeta), fun j => (inodeAt blank.image j).toDinode, blank.image.blocks⟩
  have free : ∀ j, (D.inodes j).type = .free := by
    intro j
    have ge : 32 ≤ IBLOCK j sb := Nat.le_add_left 32 _
    have ne : IBLOCK j sb ≠ 1 := by omega
    simp only [D, inodeAt, zero _ ne, RawDinode.get_zero]
    rfl
  have slots : ∀ k, D.slots super k = 0 := fun k => if_neg fun ⟨_, ne, _⟩ => ne (free _)
  refine ⟨D, ⟨rfl, Nat.le_refl _, by decide, rfl, rfl, fun {b} le => ?_, ?_⟩, ?_, fun _ _ => rfl,
    Nat.le_refl 1, by decide, fun j _ => ?_, fun j ge lt => ?_, ?_⟩
  · have le : nmeta ≤ b := le
    have : 1 < nmeta := by decide
    exact zero b (by omega)
  · refine ⟨by decide, fun {k} ne => absurd (slots k) ne, fun {k l} ne => absurd (slots k) ne, fun {b} _ => ?_⟩
    simp [D, slots]
  · simp only [blank, Function.update_self]
  · have : blank.freeinode = 1 := rfl
    simp only [free, ne_eq, not_true_eq_false, this, false_iff]
    omega
  · have lt : j < 1 := lt
    omega
  · rfl

end Xv6.Mkfs
