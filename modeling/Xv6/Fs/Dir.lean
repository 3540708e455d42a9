import Xv6.Fs.Table

/-!
# Directories

A directory is an array of entries (`Node.entry`). The loops over the entries read this array and change nothing,
`dirlookup` returns the inode of the first entry with the name, and the last part of `dirlink` writes an entry where
there was none or nothing at all.
-/

namespace Xv6.Fs

open Fallible

/-- An entry that fits its field of the directory. -/
structure Dirent.Ok (sb : Superblock) (de : Dirent) : Prop where
  inum : de.inum < sb.ninodes
  length : de.name.length ≤ DIRSIZ
  nonzero : 0 ∉ de.name

variable {sb : Superblock} {P : Panic → Prop} {s s' t : State} {h : Multiset (Fin NINODE)} {dp ip : Fin NINODE}
  {n k : ℕ} {de : Dirent} {nd nd' : Node} {name : Name}

lemma Dirent.ofBytes_toBytes (ok : de.Ok sb) : Dirent.ofBytes de.toBytes = de := by
  obtain ⟨inum, name⟩ := de
  have small : inum < 65536 := ok.inum.trans_le sb.ninodes_le
  have pad : (List.range DIRSIZ).map (fun i => name.getD i 0) = name ++ List.replicate (DIRSIZ - name.length) 0 := by
    have fits : name.length ≤ DIRSIZ := ok.length
    refine List.ext_getElem (by simp; omega) fun i li _ => ?_
    simp only [List.getElem_map, List.getElem_range, List.getD_eq_getElem?_getD]
    by_cases lt : i < name.length
    · simp [lt]
    · simp [Nat.le_of_not_lt lt]
  have cut : (name ++ List.replicate (DIRSIZ - name.length) 0).takeWhile (fun c => decide (c ≠ 0)) = name := by
    have all : ∀ c ∈ name, decide (c ≠ 0) = true := by
      intro c mem
      have : c ≠ 0 := fun zero => ok.nonzero (zero ▸ mem)
      simpa using this
    rw [List.takeWhile_append_of_pos all]
    simp
  have digits : (UInt8.ofNat inum).toNat + 256 * (UInt8.ofNat (inum / 256)).toNat = inum := by
    simp
    omega
  simp only [Dirent.ofBytes, Dirent.toBytes, pad, Dirent.mk.injEq]
  exact ⟨digits, cut⟩

lemma Node.entry_eq (bytes : ∀ i, i < DESIZE → nd.byte (DESIZE * k + i) = de.toBytes.getD i 0) (ok : de.Ok sb) :
    nd.entry k = de := by
  have eq : (List.range DESIZE).map (fun i => nd.byte (DESIZE * k + i)) = de.toBytes := by
    have len : de.toBytes.length = DESIZE := by simp [Dirent.toBytes]
    refine List.ext_getElem (by simp [len]) fun i li lt => ?_
    rw [List.getElem_map, List.getElem_range, bytes i (len ▸ lt)]
    simp [lt]
  rw [Node.entry, eq, Dirent.ofBytes_toBytes ok]

lemma node_entry_beyond {D : Disk} (le : (D.inodes n).size ≤ DESIZE * k) : ((D.node sb n).entry k).inum = 0 :=
  Node.entry_zero fun i _ => if_neg (by omega)

section

variable (i : Inv sb s h) (pos : 0 < (s.itable dp).ref) (valid : (s.itable dp).valid)

include i pos valid

lemma Inv.size : (s.disk.node sb (s.itable dp).inum).size = (s.itable dp).din.size := by
  rw [(i.clean pos valid).1]
  rfl

lemma Inv.type : (s.disk.node sb (s.itable dp).inum).type = (s.itable dp).din.type := by
  rw [(i.clean pos valid).1]
  rfl

lemma readDirent_eq {msg : Panic} :
    readDirent sb msg dp (DESIZE * k) s =
      if DESIZE * k + DESIZE ≤ (s.itable dp).din.size then .ok ((s.disk.node sb (s.itable dp).inum).entry k, s)
      else .error msg := by
  obtain ⟨c, alloc⟩ := i.clean pos valid
  have small := (i.image.owned.mapped _ (i.inum pos) (c ▸ alloc)).1
  rw [← c] at small
  have read : readi sb dp (fun _ => true) (DESIZE * k) DESIZE s = _ := readi_eq i.image.owned c (i.inum pos) alloc
  have bound : MAXFILE * BSIZE + DESIZE < 2 ^ 32 := by decide
  simp only [readDirent, bind, StateT.bind, read, Except.bind, Node.readi, i.size pos valid]
  by_cases fits : DESIZE * k + DESIZE ≤ (s.itable dp).din.size
  · have m : min DESIZE ((s.itable dp).din.size - DESIZE * k) = DESIZE := by omega
    rw [if_neg (by omega), if_pos fits, m, if_pos (by simp)]
    simp only [List.length_map, List.length_range, if_true]
    rfl
  · rw [if_neg fits]
    split
    · rfl
    · rw [if_pos (by simp)]
      simp only [List.length_map, List.length_range]
      rw [if_neg (by omega)]
      rfl

/-- The loops over the entries of a directory end at the first one that satisfies `p`. -/
lemma wp_dirScan {Q : Option (ℕ × Dirent) → State → Prop} {msg : Panic} {p : Dirent → Bool} {m}
    (bad : (∃ j, j < k + m ∧ (s.itable dp).din.size < DESIZE * j + DESIZE) → P msg)
    (none : (∀ j, k ≤ j → j < k + m → ¬p ((s.disk.node sb (s.itable dp).inum).entry j)) → Q none s)
    (some : ∀ j, p ((s.disk.node sb (s.itable dp).inum).entry j) → DESIZE * j + DESIZE ≤ (s.itable dp).din.size →
      (∀ i, k ≤ i → i < j → ¬p ((s.disk.node sb (s.itable dp).inum).entry i)) →
      Q (some (DESIZE * j, (s.disk.node sb (s.itable dp).inum).entry j)) s) :
    wp P (dirScan sb msg dp p m (DESIZE * k)) Q s := by
  induction m generalizing k with
  | zero => exact none fun j ge lt => absurd lt (by omega)
  | succ m ih =>
    rw [dirScan, wp_bind]
    by_cases fits : DESIZE * k + DESIZE ≤ (s.itable dp).din.size
    · rw [wp_ok ((readDirent_eq i pos valid).trans (if_pos fits))]
      split
      · rename_i found
        exact some k found fits fun i ge lt => absurd lt (by omega)
      · rename_i next
        have before : ∀ j, (∀ i, k + 1 ≤ i → i < j → ¬p ((s.disk.node sb (s.itable dp).inum).entry i)) →
            ∀ i, k ≤ i → i < j → ¬p ((s.disk.node sb (s.itable dp).inum).entry i) := by
          intro j rest i ge lt
          rcases Nat.eq_or_lt_of_le ge with rfl | gt
          · exact next
          · exact rest i gt lt
        rw [← Nat.mul_succ]
        refine ih ?_ (fun all => none (before _ fun j ge lt => all j ge (by omega))) fun j pj fits rest => ?_
        · rintro ⟨j, lt, size⟩
          exact bad ⟨j, by omega, size⟩
        · exact some j pj fits (before j rest)
    · rw [wp_error ((readDirent_eq i pos valid).trans (if_neg fits))]
      exact bad ⟨k, by omega, by omega⟩

lemma wp_dirlookup {Q : Option (Fin NINODE × ℕ) → State → Prop}
    (full : (∀ ip, 0 < (s.itable ip).ref) → P .igetNoInodes)
    (dir : (s.itable dp).din.type ≠ .dir → P .dirlookupNotDir)
    (bad : ¬DESIZE ∣ (s.itable dp).din.size → P .dirlookupRead)
    (none : (s.itable dp).din.type = .dir → (∀ k, ((s.disk.node sb (s.itable dp).inum).entry k).inum ≠ 0 →
      ((s.disk.node sb (s.itable dp).inum).entry k).name ≠ name) → Q none s)
    (some : ∀ k ip s', (s.itable dp).din.type = .dir → ((s.disk.node sb (s.itable dp).inum).entry k).inum ≠ 0 →
      ((s.disk.node sb (s.itable dp).inum).entry k).name = name → DESIZE * k + DESIZE ≤ (s.itable dp).din.size →
      (∀ j, j < k → ((s.disk.node sb (s.itable dp).inum).entry j).inum ≠ 0 →
        ((s.disk.node sb (s.itable dp).inum).entry j).name ≠ name) →
      Inv sb s' (ip ::ₘ h) → Keeps h s s' → s'.disk = s.disk →
      (s'.itable ip).inum = ((s.disk.node sb (s.itable dp).inum).entry k).inum → Q (some (ip, DESIZE * k)) s') :
    wp P (dirlookup sb dp name) Q s := by
  obtain ⟨c, -⟩ := i.clean pos valid
  simp only [dirlookup, inode, wp_bind, wp_get, wp_pure]
  split
  · rename_i isDir
    rw [wp_bind]
    refine wp_dirScan (k := 0) i pos valid ?_ (fun all => none isDir fun k ne eq => ?_) fun k found fits before => ?_
    · rintro ⟨j, lt, size⟩
      refine bad fun div => ?_
      simp only [entries, DESIZE] at lt size div
      omega
    · by_cases lt : k < entries (s.itable dp).din.size 0
      · exact all k (Nat.zero_le k) (by omega) (by simp [ne, eq])
      · refine ne (node_entry_beyond ?_)
        rw [← c]
        simp only [entries, DESIZE] at lt ⊢
        omega
    · simp only [ne_eq, Bool.decide_and, decide_not, Bool.and_eq_true, Bool.not_eq_eq_eq_not, Bool.not_true,
        decide_eq_false_iff_not, decide_eq_true_eq] at found
      have lt := i.image.named (i.file pos valid) ((i.type pos valid).trans isDir) k
      simp only [wp_bind]
      refine wp_iget i lt full fun ip s' i' keeps disk inum => ?_
      refine some k ip s' isDir found.1 found.2.symm fits (fun j lj ne eq => ?_) i' keeps disk inum
      exact before j (Nat.zero_le j) lj (by simp [ne, eq])
  · exact dir ‹_›

end

end Xv6.Fs
