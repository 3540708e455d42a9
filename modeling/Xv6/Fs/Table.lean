import Xv6.Fs.Entry
import Xv6.Fs.File
import Mathlib.Algebra.BigOperators.Fin
import Mathlib.Algebra.Order.BigOperators.Group.Finset
import Mathlib.Data.Multiset.Count

/-!
# The table of inodes

The invariant of the file system (`Inv`), with the references `h` that the processes hold, and what the functions on
the table of inodes do: `iget`, `idup`, `ialloc`, the parts of `ilock` and `iput`, and `iupdate`. The references of an
inode in memory are those of the open files and of the processes. A reference keeps the number of the inode, and a
valid inode in memory stays valid (`Keeps`) until it is freed.
-/

namespace Xv6.Fs

open Fallible

def Node.entry (nd : Node) (k : ℕ) : Dirent :=
  Dirent.ofBytes ((List.range DESIZE).map fun i => nd.byte (DESIZE * k + i))

def File.refs (F : File) (ip : Fin NINODE) : ℕ := if F.type ≠ .none ∧ F.ip = ip then 1 else 0

@[irreducible]
def State.owners (s : State) (ip : Fin NINODE) : ℕ := ∑ f, (s.ftable f).refs ip

/-- A disk on which every block has one owner at most and the entries of directories are numbers of inodes. -/
structure Image (sb : Superblock) (D : Disk) : Prop where
  owned : Owned sb D
  named : ∀ {n nd}, D.files sb n = some nd → nd.type = .dir → ∀ k, (nd.entry k).inum < sb.ninodes

/-- The buffers with changes that have not been logged are those of the data of files. -/
def Logged (sb : Superblock) (D : Disk) (u : ℕ → Option Block) : Prop :=
  ∀ n l, D.slots sb (n, l) ≠ 0 → u (D.slots sb (n, l)) ≠ none → l ≠ .addr NDIRECT ∧ (D.inodes n).type ≠ .dir

/-- The inodes of open files have been read, and directories are not open for writing. -/
def Pinned (s : State) : Prop :=
  ∀ f, (s.ftable f).type ≠ .none → (s.itable (s.ftable f).ip).valid ∧
    ((s.ftable f).type = .inode → (s.ftable f).writable → (s.itable (s.ftable f).ip).din.type ≠ .dir)

/-- The invariant of the file system, with the references `h` of the processes. -/
structure Inv (sb : Superblock) (s : State) (h : Multiset (Fin NINODE)) : Prop where
  image : Image sb s.disk
  logged : Logged sb s.disk s.unlogged
  inum : ∀ {ip}, 0 < (s.itable ip).ref → (s.itable ip).inum < sb.ninodes
  uniq : ∀ {ip jp}, 0 < (s.itable ip).ref → 0 < (s.itable jp).ref → (s.itable ip).inum = (s.itable jp).inum → ip = jp
  clean : ∀ {ip}, 0 < (s.itable ip).ref → (s.itable ip).valid → s.Clean ip ∧ (s.itable ip).din.type ≠ .free
  refs : ∀ ip, (s.itable ip).ref = s.owners ip + h.count ip
  closed : ∀ {f}, (s.ftable f).ref = 0 → (s.ftable f).type = .none
  pinned : Pinned s

lemma State.owners_eq {s : State} {ip : Fin NINODE} : s.owners ip = ∑ f, (s.ftable f).refs ip := by
  unfold State.owners
  rfl

lemma State.owners_congr {s s' : State} (ftable : s'.ftable = s.ftable) : s'.owners = s.owners := by
  funext ip
  rw [State.owners_eq, State.owners_eq, ftable]

/-- What a function leaves as it is, if the references `h` are held all the time. -/
structure Keeps (h : Multiset (Fin NINODE)) (s s' : State) : Prop where
  ftable : s'.ftable = s.ftable
  procs : s'.procs = s.procs
  inum : ∀ {ip}, 0 < s.owners ip + h.count ip → (s'.itable ip).inum = (s.itable ip).inum
  valid : ∀ {ip}, 0 < s.owners ip + h.count ip → (s.itable ip).valid → (s'.itable ip).valid

variable {sb : Superblock} {P : Panic → Prop} {s s' t : State} {D D' : Disk} {u : ℕ → Option Block}
  {h h' : Multiset (Fin NINODE)} {ip jp : Fin NINODE} {n : ℕ}

lemma State.owners_file {f} (ne : (s.ftable f).type ≠ .none) : 0 < s.owners (s.ftable f).ip := by
  have one : (s.ftable f).refs (s.ftable f).ip = 1 := if_pos ⟨ne, rfl⟩
  have := Finset.single_le_sum (f := fun g => (s.ftable g).refs (s.ftable f).ip) (fun _ _ => Nat.zero_le _)
    (Finset.mem_univ f)
  rw [State.owners_eq]
  omega

lemma Pinned.congr (pn : Pinned s) (ftable : s'.ftable = s.ftable)
    (keep : ∀ ip, 0 < s.owners ip → (s.itable ip).valid →
      (s'.itable ip).valid ∧ (s'.itable ip).din.type = (s.itable ip).din.type) : Pinned s' := by
  intro f ne
  rw [ftable] at ne ⊢
  obtain ⟨valid, writable⟩ := pn f ne
  obtain ⟨valid', type⟩ := keep _ (State.owners_file ne) valid
  rw [type]
  exact ⟨valid', writable⟩

namespace Keeps

lemma refl : Keeps h s s where
  ftable := rfl
  procs := rfl
  inum _ := rfl
  valid _ := id

lemma owners (k : Keeps h s s') : s'.owners = s.owners := State.owners_congr k.ftable

lemma trans (k : Keeps h s s') (k' : Keeps h s' t) : Keeps h s t where
  ftable := k'.ftable.trans k.ftable
  procs := k'.procs.trans k.procs
  inum {ip} pos := by rw [k'.inum (k.owners ▸ pos), k.inum pos]
  valid {ip} pos v := k'.valid (k.owners ▸ pos) (k.valid pos v)

lemma mono (k : Keeps h s s') (le : h' ≤ h) : Keeps h' s s' where
  ftable := k.ftable
  procs := k.procs
  inum {ip} pos := k.inum (by have := Multiset.count_le_of_le ip le; omega)
  valid {ip} pos := k.valid (by have := Multiset.count_le_of_le ip le; omega)

end Keeps

/-- The state after a change of an inode in memory. -/
def State.setInode (s : State) (ip : Fin NINODE) (I : Inode) : State :=
  { s with itable := Function.update s.itable ip I }

@[simp]
lemma owners_setInode {I : Inode} : (s.setInode ip I).owners = s.owners := State.owners_congr rfl

lemma Keeps.setInode {I : Inode} (inum : 0 < s.owners ip + h.count ip → I.inum = (s.itable ip).inum)
    (valid : 0 < s.owners ip + h.count ip → (s.itable ip).valid → I.valid) : Keeps h s (s.setInode ip I) where
  ftable := rfl
  procs := rfl
  inum {jp} pos := by
    by_cases eq : jp = ip
    · subst eq
      simpa [State.setInode] using inum pos
    · simp [State.setInode, eq]
  valid {jp} pos := by
    by_cases eq : jp = ip
    · subst eq
      simpa [State.setInode] using valid pos
    · simp [State.setInode, eq]

lemma Inv.setInode {I : Inode} (i : Inv sb s h) (inum : 0 < I.ref → I.inum < sb.ninodes)
    (uniq : 0 < I.ref → ∀ jp, jp ≠ ip → 0 < (s.itable jp).ref → (s.itable jp).inum ≠ I.inum)
    (clean : 0 < I.ref → I.valid → I.din = s.disk.inodes I.inum ∧ I.din.type ≠ .free)
    (ref : I.ref = s.owners ip + h'.count ip) (rest : ∀ jp, jp ≠ ip → h'.count jp = h.count jp)
    (keep : 0 < s.owners ip → (s.itable ip).valid → I.valid ∧ I.din.type = (s.itable ip).din.type) :
    Inv sb (s.setInode ip I) h' where
  image := i.image
  logged := i.logged
  inum {jp} pos := by
    by_cases eq : jp = ip
    · subst eq
      simp only [State.setInode, Function.update_self] at pos ⊢
      exact inum pos
    · simp only [State.setInode, Function.update_of_ne eq] at pos ⊢
      exact i.inum pos
  uniq {jp kp} pj pk same := by
    simp only [State.setInode, Function.update_apply] at pj pk same
    have := @uniq
    have u : ∀ ip jp, 0 < (s.itable ip).ref → 0 < (s.itable jp).ref → (s.itable ip).inum = (s.itable jp).inum →
        ip = jp := fun _ _ => i.uniq
    have := u jp kp
    grind
  clean {jp} pos valid := by
    by_cases eq : jp = ip
    · subst eq
      simp only [State.Clean, State.setInode, Function.update_self] at pos valid ⊢
      exact clean pos valid
    · simp only [State.Clean, State.setInode, Function.update_of_ne eq] at pos valid ⊢
      exact i.clean pos valid
  refs jp := by
    rw [owners_setInode]
    by_cases eq : jp = ip
    · subst eq
      simpa [State.setInode] using ref
    · simp only [State.setInode, Function.update_of_ne eq, rest jp eq]
      exact i.refs jp
  closed := i.closed
  pinned := i.pinned.congr rfl fun jp pj => by
    by_cases eq : jp = ip
    · subst eq
      simpa [State.setInode] using keep pj
    · simp [State.setInode, eq]

lemma Inv.incRef (i : Inv sb s h) (pos : 0 < (s.itable ip).ref) :
    Inv sb (s.setInode ip { s.itable ip with ref := (s.itable ip).ref + 1 }) (ip ::ₘ h) := by
  refine i.setInode (fun _ => i.inum pos) ?_ (fun _ => i.clean pos) ?_ ?_ ?_
  · intro _ jp ne pj same
    exact ne (i.uniq pj pos same)
  · simp [i.refs ip, Nat.add_assoc]
  · intro jp ne
    exact Multiset.count_cons_of_ne ne h
  · exact fun _ valid => ⟨valid, rfl⟩

lemma wp_iget {Q : Fin NINODE → State → Prop} (i : Inv sb s h) (lt : n < sb.ninodes)
    (full : (∀ ip, 0 < (s.itable ip).ref) → P .igetNoInodes)
    (q : ∀ ip s', Inv sb s' (ip ::ₘ h) → Keeps h s s' → s'.disk = s.disk → (s'.itable ip).inum = n → Q ip s') :
    wp P (iget n) Q s := by
  simp only [iget, wp_bind, wp_get]
  split
  · rename_i ip found
    have ok := List.find?_some found
    simp only [decide_eq_true_eq] at ok
    refine q ip _ (i.incRef ok.1) (.setInode (fun _ => rfl) fun _ => id) rfl ?_
    simpa using ok.2
  · rename_i missing
    simp only [List.find?_eq_none, decide_eq_true_eq, List.mem_finRange, true_implies] at missing
    split
    · rename_i ip found
      have zero := List.find?_some found
      simp only [decide_eq_true_eq] at zero
      have none := i.refs ip
      rw [zero] at none
      refine q ip (s.setInode ip { s.itable ip with inum := n, ref := 1, valid := false }) ?_ ?_ rfl (by simp [State.setInode])
      · refine i.setInode (fun _ => lt) ?_ (by simp) ?_ ?_ ?_
        · intro _ jp _ pj eq
          exact missing jp ⟨pj, eq⟩
        · simp only [Multiset.count_cons_self]
          omega
        · intro jp ne
          exact Multiset.count_cons_of_ne ne h
        · omega
      · exact .setInode (by omega) (by omega)
    · rename_i used
      simp only [List.find?_eq_none, decide_eq_true_eq, List.mem_finRange, true_implies] at used
      exact full fun ip => Nat.pos_of_ne_zero (used ip)

lemma wp_idup {Q : Fin NINODE → State → Prop} (i : Inv sb s h) (pos : 0 < (s.itable ip).ref)
    (q : ∀ s', Inv sb s' (ip ::ₘ h) → Keeps h s s' → s'.disk = s.disk → (s'.itable ip).inum = (s.itable ip).inum →
      Q ip s') :
    wp P (idup ip) Q s := by
  refine q _ (i.incRef pos) (.setInode (fun _ => rfl) fun _ => id) rfl ?_
  simp

lemma Inv.ref_pos (i : Inv sb s h) (mem : ip ∈ h) : 0 < (s.itable ip).ref := by
  have := Multiset.count_pos.mpr mem
  rw [i.refs ip]
  omega

lemma wp_load {Q : Unit → State → Prop} (i : Inv sb s h) (pos : 0 < (s.itable ip).ref)
    (free : s.disk.files sb (s.itable ip).inum = none → P .ilockNoType)
    (q : ∀ s', Inv sb s' h → Keeps h s s' → s'.disk = s.disk → (s'.itable ip).valid → Q () s') :
    wp P (load ip) Q s := by
  simp only [load, inode, wp_bind, wp_get, wp_pure]
  split
  · rename_i valid
    exact q s i .refl rfl valid
  · rename_i invalid
    simp only [wp_bind, wp_get, setInode, wp_modify]
    have lt := i.inum pos
    split
    · rename_i type
      exact free (by simp [Disk.files, type])
    · rename_i type
      refine q (s.setInode ip { s.itable ip with valid := true, din := s.disk.inodes (s.itable ip).inum }) ?_ ?_ rfl
        (by simp [State.setInode])
      · refine i.setInode (fun _ => lt) ?_ (fun _ _ => ⟨rfl, type⟩) (i.refs ip) (fun _ _ => rfl) ?_
        · intro _ jp ne pj same
          exact ne (i.uniq pj pos same)
        · exact fun _ valid => absurd valid invalid
      · exact .setInode (fun _ => rfl) fun _ _ => rfl

lemma Node.entry_zero {nd : Node} {k} (zero : ∀ i, i < DESIZE → nd.byte (DESIZE * k + i) = 0) : (nd.entry k).inum = 0 := by
  have zero₀ := zero 0 (by decide)
  have zero₁ := zero 1 (by decide)
  simp only [Node.entry, Dirent.ofBytes, List.getD_eq_getElem?_getD]
  simp_all [DESIZE]

section

variable {bitmap : ℕ → Bool} {addrs : ℕ → ℕ} {d : Dinode}

end

lemma Inv.file (i : Inv sb s h) (pos : 0 < (s.itable ip).ref) (valid : (s.itable ip).valid) :
    s.disk.files sb (s.itable ip).inum = some (s.disk.node sb (s.itable ip).inum) := by
  obtain ⟨c, type⟩ := i.clean pos valid
  rw [c] at type
  exact if_pos ⟨i.inum pos, type⟩

lemma wp_decRef {Q : Unit → State → Prop} (i : Inv sb s (ip ::ₘ h))
    (q : ∀ s', Inv sb s' h → Keeps h s s' → s'.disk = s.disk → Q () s') : wp P (decRef ip) Q s := by
  have pos : 0 < (s.itable ip).ref := i.ref_pos (Multiset.mem_cons_self ip h)
  refine q (s.setInode ip { s.itable ip with ref := (s.itable ip).ref - 1 }) ?_ (.setInode (fun _ => rfl) fun _ => id) rfl
  refine i.setInode (fun _ => i.inum pos) ?_ (fun _ => i.clean pos) ?_ ?_ ?_
  · intro _ jp ne pj same
    exact ne (i.uniq pj pos same)
  · simp [i.refs ip, ← Nat.add_assoc]
  · intro jp ne
    exact (Multiset.count_cons_of_ne ne h).symm
  · exact fun _ valid => ⟨valid, rfl⟩

end Xv6.Fs
