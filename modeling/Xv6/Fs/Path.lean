import Xv6.Fs.Call
import Xv6.Fs.Dir

/-!
# Path resolution

`namei` and `nameiparent` of `kernel/fs.c`, run by one process while no other runs. The names of a path are what stands
between its slashes (`components`), and the inode of the path is found by looking them up one after another
(`Disk.resolve`). While `namex` goes along a path it holds one reference more than before, to the inode where it is; that
it never frees an inode on the way is due to the links of the tree (`Tree`).
-/

namespace Xv6.Fs

open Fallible

/-- The names in a path: what stands between slashes, without the empty ones, cut to `DIRSIZ` characters. -/
def components (path : List UInt8) : List Name :=
  ((path.splitOn 47).filter (· ≠ [])).map (·.take DIRSIZ)

/-- The entry of a directory with a name: the first one that is used. -/
def Node.find (nd : Node) (name : Name) : Option ℕ :=
  (List.range (nd.size / DESIZE)).find? fun k => (nd.entry k).inum ≠ 0 ∧ (nd.entry k).name = name

/-- Look up a name in an inode, which has none if it is not a directory. -/
def Disk.lookup (sb : Superblock) (D : Disk) (n : ℕ) (name : Name) : Option ℕ :=
  if (D.inodes n).type = .dir then ((D.node sb n).find name).map fun k => ((D.node sb n).entry k).inum else none

/-- Look up one name after another, from the inode `n` on. -/
def Disk.resolve (sb : Superblock) (D : Disk) (n : ℕ) (names : List Name) : Option ℕ :=
  names.foldlM (D.lookup sb) n

/-- The directory in which the last name is to be looked up, and this name. -/
def Disk.resolveParent (sb : Superblock) (D : Disk) (n : ℕ) (names : List Name) : Option (ℕ × Name) := do
  let last ← names.getLast?
  let d ← D.resolve sb n names.dropLast
  if (D.inodes d).type = .dir then some (d, last) else none

section

variable {path rest : List UInt8} {name : Name}

lemma components_slash : components (47 :: path) = components path := by
  simp [components, List.splitOn, List.splitOnP_cons_eq_if_modifyHead]

lemma components_dropWhile : components (path.dropWhile (· = 47)) = components path := by
  induction path with
  | nil => rfl
  | cons c path ih =>
    by_cases slash : c = 47
    · subst slash
      rw [components_slash, ← ih]
      simp
    · simp [slash]

lemma components_append (ne : name ≠ []) (plain : ∀ c ∈ name, c ≠ 47) (last : ∀ c ∈ rest.head?, c = 47) :
    components (name ++ rest) = name.take DIRSIZ :: components rest := by
  cases rest with
  | nil =>
    have single : name.splitOn 47 = [name] := List.splitOnP_eq_singleton fun c mem => by simpa using plain c mem
    simp [components, single, ne]
  | cons c rest =>
    obtain rfl : c = 47 := last c (by simp)
    have first : (name ++ 47 :: rest).splitOn 47 = name :: rest.splitOn 47 :=
      List.splitOnP_append_cons_of_forall_mem (fun c mem => by simpa using plain c mem) 47 (by simp) rest
    rw [components_slash]
    simp [components, first, ne]

lemma components_cons {c : UInt8} (ne : c ≠ 47) :
    components (c :: path) = ((c :: path).takeWhile (· ≠ 47)).take DIRSIZ :: components ((c :: path).dropWhile (· ≠ 47)) := by
  have first : ((c :: path).takeWhile (· ≠ 47)) ≠ [] := by simp [ne]
  conv_lhs => rw [← List.takeWhile_append_dropWhile (p := fun c : UInt8 => decide (c ≠ 47)) (l := c :: path)]
  refine components_append first (fun d mem => by simpa using List.mem_takeWhile_imp mem) fun d mem => ?_
  have stop := List.head?_dropWhile_not (fun c : UInt8 => decide (c ≠ 47)) (c :: path)
  rw [Option.mem_def.1 mem] at stop
  simpa using stop

lemma dropWhile_slash {c : UInt8} (eq : path.dropWhile (· = 47) = c :: rest) : c ≠ 47 := by
  have stop := List.head?_dropWhile_not (fun c : UInt8 => decide (c = 47)) path
  rw [eq] at stop
  simpa using stop

lemma components_skipelem (h : skipelem path = some (name, rest)) :
    components path = name :: components rest ∧ (rest = [] ↔ components rest = []) := by
  unfold skipelem at h
  split at h
  · cases h
  · rename_i s ne
    obtain ⟨rfl, rfl⟩ := h
    constructor
    · rw [components_dropWhile, ← @components_dropWhile path]
      cases eq : path.dropWhile (· = 47) with
      | nil => exact absurd eq ne
      | cons c t => exact components_cons (dropWhile_slash eq)
    · cases eq : ((path.dropWhile (· = 47)).dropWhile (· ≠ 47)).dropWhile (· = 47) with
      | nil => exact iff_of_true rfl rfl
      | cons c t =>
        refine iff_of_false nofun ?_
        rw [components_cons (dropWhile_slash eq)]
        exact nofun

lemma components_nil (h : skipelem path = none) : components path = [] := by
  unfold skipelem at h
  split at h
  · rename_i eq
    rw [← components_dropWhile, eq]
    rfl
  · cases h

end

section

variable {sb : Superblock} {D : Disk} {n : ℕ} {name : Name} {names : List Name}

lemma resolve_cons : D.resolve sb n (name :: names) = (D.lookup sb n name).bind (D.resolve sb · names) :=
  List.foldlM_cons

lemma resolveParent_cons (ne : names ≠ []) :
    D.resolveParent sb n (name :: names) = (D.lookup sb n name).bind (D.resolveParent sb · names) := by
  obtain ⟨first, names, rfl⟩ := List.exists_cons_of_ne_nil ne
  simp only [Disk.resolveParent, List.getLast?_cons_cons, List.dropLast_cons_cons, resolve_cons]
  cases D.lookup sb n name with
  | none => simp
  | some m => rfl

lemma resolveParent_single :
    D.resolveParent sb n [name] = if (D.inodes n).type = .dir then some (n, name) else none := rfl

lemma lookup_of_ne (type : (D.inodes n).type ≠ .dir) : D.lookup sb n name = none := if_neg type

lemma resolveParent_of_ne (type : (D.inodes n).type ≠ .dir) : D.resolveParent sb n (name :: names) = none := by
  by_cases last : names = []
  · rw [last, resolveParent_single, if_neg type]
  · rw [resolveParent_cons last, lookup_of_ne type]
    rfl

lemma lookup_eq {k : ℕ} (type : (D.inodes n).type = .dir) (used : ((D.node sb n).entry k).inum ≠ 0)
    (eq : ((D.node sb n).entry k).name = name) (fits : DESIZE * k + DESIZE ≤ (D.inodes n).size)
    (first : ∀ j, j < k → ((D.node sb n).entry j).inum ≠ 0 → ((D.node sb n).entry j).name ≠ name) :
    D.lookup sb n name = some ((D.node sb n).entry k).inum := by
  have find : (D.node sb n).find name = some k := by
    rw [Node.find, List.find?_range_eq_some]
    refine ⟨by simp [used, eq], List.mem_range.2 ?_, fun j lt => ?_⟩
    · have size : (D.node sb n).size = (D.inodes n).size := rfl
      simp only [size, DESIZE] at fits ⊢
      omega
    · by_cases zero : ((D.node sb n).entry j).inum = 0
      · simp [zero]
      · simp [first j lt zero]
  rw [Disk.lookup, if_pos type, find]
  rfl

lemma lookup_none (first : ∀ k, ((D.node sb n).entry k).inum ≠ 0 → ((D.node sb n).entry k).name ≠ name) :
    D.lookup sb n name = none := by
  have find : (D.node sb n).find name = none := by
    rw [Node.find, List.find?_eq_none]
    intro k _ found
    simp only [ne_eq, decide_eq_true_eq] at found
    exact first k found.1 found.2
  unfold Disk.lookup
  split
  · rw [find]
    rfl
  · rfl

end

/-- The inode is allocated, and has a link or a reference. -/
def State.Stays (sb : Superblock) (s : State) (n : ℕ) : Prop :=
  ∃ nd, s.disk.files sb n = some nd ∧ (nd.nlink = 0 → ∃ ip, 0 < (s.itable ip).ref ∧ (s.itable ip).inum = n)

/-- The directories are whole, and their entries are inodes that stay. -/
structure Tree (sb : Superblock) (s : State) : Prop where
  root : s.Stays sb ROOTINO
  size : ∀ {n nd}, s.disk.files sb n = some nd → nd.type = .dir → DESIZE ∣ nd.size
  entry : ∀ {n nd k}, s.disk.files sb n = some nd → nd.type = .dir → (nd.entry k).inum ≠ 0 → s.Stays sb (nd.entry k).inum

/-- There are two free entries in the table of inodes. -/
def State.Spare (s : State) : Prop := ∃ ip jp, ip ≠ jp ∧ (s.itable ip).ref = 0 ∧ (s.itable jp).ref = 0

/-- The panics of path resolution from the state `s`. -/
def Crowded (s : State) (e : Stop) : Prop := e = .panic .igetNoInodes ∧ ¬s.Spare

/-- A state of `k₀` in which one holds the references `g` instead of `h`, and the locks are `L`. -/
structure Along (sb : Superblock) (k₀ : Kernel) (h g : Multiset (Fin NINODE)) (L : Fin NINODE → Option (Fin NPROC))
    (k : Kernel) : Prop where
  inv : Inv sb k.fs g
  keeps : Keeps h k₀.fs k.fs
  disk : k.fs.disk = k₀.fs.disk
  lock : k.lock = L
  ops : k.ops = k₀.ops

variable {sb : Superblock} {k₀ k : Kernel} {h g : Multiset (Fin NINODE)} {L : Fin NINODE → Option (Fin NPROC)}
  {p : Fin NPROC} {ip : Fin NINODE} {name : Name} {n : ℕ}

namespace Along

lemma fs {g' : Multiset (Fin NINODE)} {s : State} (a : Along sb k₀ h g L k) (le : h ≤ g) (i : Inv sb s g')
    (keeps : Keeps g k.fs s) (disk : s.disk = k.fs.disk) : Along sb k₀ h g' L { k with fs := s } where
  inv := i
  keeps := a.keeps.trans (keeps.mono le)
  disk := disk.trans a.disk
  lock := a.lock
  ops := a.ops

lemma locks {L' : Fin NINODE → Option (Fin NPROC)} (a : Along sb k₀ h g L k) : Along sb k₀ h g L' { k with lock := L' } :=
  ⟨a.inv, a.keeps, a.disk, rfl, a.ops⟩

lemma two_le (a : Along sb k₀ h (ip ::ₘ g) L k) (i : Inv sb k₀.fs h) (le : h ≤ g) (stays : k₀.fs.Stays sb (k.fs.itable ip).inum)
    (valid : (k.fs.itable ip).valid) (zero : (k.fs.itable ip).din.nlink = 0) : 2 ≤ (k.fs.itable ip).ref := by
  have pos := a.inv.ref_pos (Multiset.mem_cons_self ip g)
  obtain ⟨nd, file, kept⟩ := stays
  rw [← a.disk, a.inv.file pos valid] at file
  obtain rfl := Option.some.inj file
  obtain ⟨jp, held, same⟩ := kept (by rw [Disk.node, ← (a.inv.clean pos valid).1]; exact zero)
  rw [i.refs jp] at held
  have now : 0 < (k.fs.itable jp).ref := by
    have := Multiset.count_le_of_le jp le
    have := Multiset.count_le_of_le jp (Multiset.le_cons_self g ip)
    rw [a.inv.refs jp, a.keeps.owners]
    omega
  obtain rfl := a.inv.uniq now pos ((a.keeps.inum held).trans same)
  have := Multiset.count_le_of_le jp le
  rw [a.inv.refs jp, a.keeps.owners, Multiset.count_cons_self]
  omega

lemma crowded (a : Along sb k₀ h (ip ::ₘ h) L k) (i : Inv sb k₀.fs h) (full : ∀ jp, 0 < (k.fs.itable jp).ref) :
    Crowded k₀.fs (.panic .igetNoInodes) := by
  refine ⟨rfl, ?_⟩
  rintro ⟨jp, jp', ne, zero, zero'⟩
  have other : ∀ x, x ≠ ip → (k₀.fs.itable x).ref ≠ 0 := by
    intro x nx zero
    have := full x
    rw [a.inv.refs x, a.keeps.owners, Multiset.count_cons_of_ne nx, ← i.refs x] at this
    omega
  by_cases eq : jp = ip
  · exact other jp' (fun eq' => ne (eq.trans eq'.symm)) zero'
  · exact other jp eq zero

end Along

section

variable {P : Stop → Prop}

lemma wp_inode {Q : Inode → Kernel → Prop} : wp P (Instr.exec sb p (.inode ip)) Q k ↔ Q (k.fs.itable ip) k := .rfl

lemma wp_ilock {Q : Unit → Kernel → Prop} (a : Along sb k₀ h g L k) (le : h ≤ g) (mem : ip ∈ g) (free : L ip = none)
    (stays : k₀.fs.Stays sb (k.fs.itable ip).inum)
    (q : ∀ k', Along sb k₀ h g (Function.update L ip (some p)) k' → (k'.fs.itable ip).valid →
      (k'.fs.itable ip).inum = (k.fs.itable ip).inum → Q () k') : wp P (Instr.exec sb p (.ilock ip)) Q k := by
  have pos := a.inv.ref_pos mem
  have unlocked : k.lock ip = none := a.lock ▸ free
  simp only [Instr.exec, wp_bind, wp_get, if_neg (Nat.not_lt.2 pos), acquiresleep, unlocked, if_true, wp_modify, wp_kernel]
  refine wp_load a.inv pos (fun none => ?_) fun s i keeps disk valid => ?_
  · obtain ⟨nd, file, -⟩ := stays
    rw [a.disk, file] at none
    cases none
  · have held : 0 < k.fs.owners ip + g.count ip := Nat.add_pos_right _ (Multiset.count_pos.2 mem)
    exact q _ (a.lock ▸ (a.fs le i keeps disk).locks) valid (keeps.inum held)

lemma wp_iunlock {Q : Unit → Kernel → Prop} (a : Along sb k₀ h g (Function.update L ip (some p)) k) (mem : ip ∈ g)
    (free : L ip = none) (q : Along sb k₀ h g L { k with lock := L } → Q () { k with lock := L }) :
    wp P (Instr.exec sb p (.iunlock ip)) Q k := by
  have pos := a.inv.ref_pos mem
  have own : k.lock ip = some p := by rw [a.lock, Function.update_self]
  have back : Function.update k.lock ip none = L := by
    rw [a.lock, Function.update_idem, ← free, Function.update_eq_self]
  simp only [Instr.exec, wp_bind, wp_get]
  rw [if_pos ⟨own, pos⟩, wp_modify, back]
  exact q a.locks

lemma wp_iput {Q : Unit → Kernel → Prop} (a : Along sb k₀ h (ip ::ₘ g) L k) (i : Inv sb k₀.fs h) (le : h ≤ g)
    (stays : k₀.fs.Stays sb (k.fs.itable ip).inum)
    (q : ∀ k', Along sb k₀ h g L k' → (∀ jp ∈ g, (k'.fs.itable jp).inum = (k.fs.itable jp).inum) → Q () k') :
    wp P (alone sb p (Calls.iput ip)) Q k := by
  simp only [Calls.iput, alone_bind, alone_op]
  rw [wp_bind]
  simp only [Instr.exec, wp_bind, wp_get]
  rw [if_neg]
  · simp only [wp_bind, wp_kernel]
    refine wp_decRef a.inv fun s i' keeps disk => ?_
    refine q _ ⟨i', a.keeps.trans (keeps.mono le), disk.trans a.disk, a.lock, a.ops⟩ fun jp mem => ?_
    exact keeps.inum (Nat.add_pos_right _ (Multiset.count_pos.2 mem))
  · rintro ⟨one, valid, zero⟩
    have := a.two_le i le stays valid zero
    omega

lemma wp_iunlockput {Q : Unit → Kernel → Prop} (a : Along sb k₀ h (ip ::ₘ g) (Function.update L ip (some p)) k)
    (i : Inv sb k₀.fs h) (le : h ≤ g) (free : L ip = none) (stays : k₀.fs.Stays sb (k.fs.itable ip).inum)
    (q : ∀ k', Along sb k₀ h g L k' → (∀ jp ∈ g, (k'.fs.itable jp).inum = (k.fs.itable jp).inum) → Q () k') :
    wp P (alone sb p (Calls.iunlockput ip)) Q k := by
  simp only [Calls.iunlockput, alone_bind, alone_op]
  rw [wp_bind]
  refine wp_iunlock a (Multiset.mem_cons_self ip g) free fun a => ?_
  exact wp_iput a i le stays q

end

/-- What path resolution finds. -/
def Found (sb : Superblock) (D : Disk) (parent : Bool) (n : ℕ) (names : List Name) (r : Option (ℕ × Name)) : Prop :=
  if parent then r = D.resolveParent sb n names else r.map Prod.fst = D.resolve sb n names

lemma Found.none {D : Disk} {parent : Bool} {names : List Name} (missing : D.lookup sb n name = none)
    (dir : (D.inodes n).type = .dir → parent = true → names ≠ []) : Found sb D parent n (name :: names) none := by
  cases parent with
  | false => simp [Found, resolve_cons, missing]
  | true =>
    simp only [Found, if_true]
    by_cases type : (D.inodes n).type = .dir
    · rw [resolveParent_cons (dir type rfl), missing]
      rfl
    · exact (resolveParent_of_ne type).symm

lemma Found.cons {D : Disk} {parent : Bool} {names : List Name} {m : ℕ} {r : Option (ℕ × Name)}
    (first : D.lookup sb n name = some m) (ne : parent = true → names ≠ []) (f : Found sb D parent m names r) :
    Found sb D parent n (name :: names) r := by
  cases parent with
  | false => simpa [Found, resolve_cons, first] using f
  | true => simpa [Found, resolveParent_cons (ne rfl), first] using f

/-- The references with the one to the inode that has been found. -/
def holds (h : Multiset (Fin NINODE)) (r : Option (Fin NINODE)) : Multiset (Fin NINODE) := r.elim h (· ::ₘ h)

/-- The loop of `namex`. It holds a reference to the inode where it is, and the locks are free. -/
lemma wp_walk {parent : Bool} {path : List UInt8} (i : Inv sb k₀.fs h) (T : Tree sb k₀.fs) (free : ∀ ip, L ip = none)
    (a : Along sb k₀ h (ip ::ₘ h) L k) (stays : k₀.fs.Stays sb (k.fs.itable ip).inum) :
    wp (Crowded k₀.fs) (alone sb p (Calls.walk parent path ip name))
      (fun r k' => Found sb k₀.fs.disk parent (k.fs.itable ip).inum (components path)
          (r.map fun x => ((k'.fs.itable x.1).inum, x.2)) ∧
        Along sb k₀ h (holds h (r.map Prod.fst)) L k' ∧
        ∀ x, r = some x → k₀.fs.Stays sb (k'.fs.itable x.1).inum) k := by
  induction hn : path.length using Nat.strongRecOn generalizing path ip name k with
  | ind len ih =>
    have le : h ≤ ip ::ₘ h := Multiset.le_cons_self h ip
    have mem : ip ∈ ip ::ₘ h := Multiset.mem_cons_self ip h
    unfold Calls.walk
    split
    · rename_i name rest skip
      obtain ⟨names, last⟩ := components_skipelem skip
      rw [names]
      simp only [alone_bind, alone_op]
      rw [wp_bind]
      refine wp_ilock a le mem (free ip) stays fun k₁ a₁ valid inum₁ => ?_
      rw [← inum₁] at stays ⊢
      have pos := a₁.inv.ref_pos mem
      have file := a₁.inv.file pos valid
      have type : (k₁.fs.itable ip).din.type = (k₀.fs.disk.inodes (k₁.fs.itable ip).inum).type := by
        rw [(a₁.inv.clean pos valid).1, a₁.disk]
      rw [wp_bind, wp_inode]
      split
      · -- a lookup in an inode that is not a directory
        rename_i ne
        rw [type] at ne
        rw [alone_bind, wp_bind]
        refine wp_iunlockput a₁ i (le_refl h) (free ip) stays fun k₂ a₂ _ => ?_
        exact ⟨.none (lookup_of_ne ne) fun dir => absurd dir ne, a₂, by simp⟩
      · rename_i dir
        rw [type, not_not] at dir
        split
        · -- the directory of the last name
          rename_i stop
          obtain ⟨rfl, rfl⟩ := stop
          rw [alone_bind, alone_op, wp_bind]
          refine wp_iunlock a₁ mem (free ip) fun a₂ => ⟨(resolveParent_single.trans (if_pos dir)).symm, a₂, ?_⟩
          rintro _ ⟨⟩
          exact stays
        · rename_i go
          have more : parent = true → components rest ≠ [] := fun up none => go ⟨up, last.2 none⟩
          rw [alone_bind, alone_op, wp_bind]
          simp only [Instr.exec, wp_kernel]
          have size : (k₀.fs.disk.inodes (k₁.fs.itable ip).inum).size = (k₁.fs.itable ip).din.size := by
            rw [(a₁.inv.clean pos valid).1, a₁.disk]
          rw [a₁.disk] at file
          have whole := T.size file dir
          refine wp_dirlookup a₁.inv pos valid (a₁.crowded i) (fun ne => absurd (type.trans dir) ne)
            (fun ndvd => absurd (size ▸ whole) ndvd) (fun _ missing => ?_)
            fun j next s _ used eq fits first inv keeps disk inum => ?_
          · rw [a₁.disk] at missing
            rw [alone_bind, wp_bind]
            refine wp_iunlockput a₁ i (le_refl h) (free ip) stays fun k₂ a₂ _ => ?_
            exact ⟨.none (lookup_none missing) fun _ => more, a₂, by simp⟩
          · rw [a₁.disk] at used eq first inum
            have found := lookup_eq dir used eq (size ▸ fits) first
            have a₂ := a₁.fs le inv keeps disk
            rw [Multiset.cons_swap] at a₂
            have stays' : k₀.fs.Stays sb (s.itable ip).inum := by
              rwa [keeps.inum (Nat.add_pos_right _ (Multiset.count_pos.2 mem))]
            rw [alone_bind, wp_bind]
            refine wp_iunlockput a₂ i (Multiset.le_cons_self h next) (free ip) stays' fun k₃ a₃ same => ?_
            have at' : (k₃.fs.itable next).inum = ((k₀.fs.disk.node sb (k₁.fs.itable ip).inum).entry j).inum :=
              (same next (Multiset.mem_cons_self next h)).trans inum
            have entry := T.entry file dir used
            refine wp_mono (ih _ (hn ▸ skipelem_lt skip) a₃ (at' ▸ entry) rfl) fun r k' done => ?_
            exact ⟨.cons found more (at' ▸ done.1), done.2⟩
    · rename_i skip
      rw [components_nil skip]
      split
      · rename_i up
        subst up
        rw [alone_bind, wp_bind]
        exact wp_iput a i (le_refl h) stays fun k' a' _ => ⟨rfl, a', by simp⟩
      · rename_i down
        obtain rfl : parent = false := by simpa using down
        refine ⟨rfl, a, ?_⟩
        rintro _ ⟨⟩
        exact stays

lemma wp_namex {parent : Bool} {path : List UInt8} {c : Fin NINODE} (i : Inv sb k.fs h) (T : Tree sb k.fs)
    (free : ∀ ip, k.lock ip = none) (cwd : (k.fs.procs p).cwd = some c) (held : c ∈ h)
    (stays : k.fs.Stays sb (k.fs.itable c).inum) :
    wp (Crowded k.fs) (alone sb p (Calls.namex parent path))
      (fun r k' => Found sb k.fs.disk parent (if path.head? = some 47 then ROOTINO else (k.fs.itable c).inum)
          (components path) (r.map fun x => ((k'.fs.itable x.1).inum, x.2)) ∧
        Along sb k h (holds h (r.map Prod.fst)) k.lock k' ∧
        ∀ x, r = some x → k.fs.Stays sb (k'.fs.itable x.1).inum) k := by
  have a : Along sb k h h k.lock k := ⟨i, .refl, rfl, rfl, rfl⟩
  unfold Calls.namex
  split
  · rw [alone_bind, alone_op, wp_bind]
    simp only [Instr.exec, wp_kernel]
    refine wp_iget i sb.root_lt (fun full => ?_) fun ip s inv keeps disk inum => ?_
    · refine ⟨rfl, ?_⟩
      rintro ⟨ip, _, _, zero, _⟩
      have := full ip
      omega
    · rw [← inum]
      exact wp_walk i T free (a.fs (le_refl h) inv keeps disk) (inum ▸ T.root)
  · have exec : Instr.exec sb p .cwd k = .ok (c, k) := by
      apply eq_ok
      simp only [Instr.exec, Fs.cwd, wp_kernel, wp_bind, wp_get, cwd, wp_pure, and_self]
    rw [alone_bind, alone_op, wp_bind, wp_ok exec, alone_bind, alone_op, wp_bind]
    simp only [Instr.exec, wp_kernel]
    refine wp_idup i (i.ref_pos held) fun s inv keeps disk inum => ?_
    rw [← inum] at stays ⊢
    exact wp_walk i T free (a.fs (le_refl h) inv keeps disk) stays

/-- What path resolution leaves as it was: everything but the references to inodes, of which there is one more to the
inode that is returned. -/
structure Leaves (k : Kernel) (r : Option (Fin NINODE)) (k' : Kernel) : Prop where
  disk : k'.fs.disk = k.fs.disk
  ftable : k'.fs.ftable = k.fs.ftable
  procs : k'.fs.procs = k.fs.procs
  lock : k'.lock = k.lock
  ops : k'.ops = k.ops
  refs : ∀ ip, (k'.fs.itable ip).ref = (k.fs.itable ip).ref + if r = some ip then 1 else 0

lemma Along.leaves {k' : Kernel} {r : Option (Fin NINODE)} (i : Inv sb k.fs h) (a : Along sb k h (holds h r) k.lock k') :
    Leaves k r k' where
  disk := a.disk
  ftable := a.keeps.ftable
  procs := a.keeps.procs
  lock := a.lock
  ops := a.ops
  refs ip := by
    rw [a.inv.refs ip, a.keeps.owners, i.refs ip]
    cases r with
    | none => rfl
    | some jp =>
      simp only [holds, Option.elim, Option.some.injEq, Multiset.count_cons, eq_comm, Nat.add_assoc]

/-- The inode where a path begins, for a process with the current directory `c`. -/
def State.origin (s : State) (c : Fin NINODE) (path : Path) : ℕ :=
  if path.chars.head? = some 47 then ROOTINO else (s.itable c).inum

/-- Path resolution, for every path and every current directory in every tree: `namei` returns the inode that is found by
looking up the names of the path one after another, or 0 if there is none, `nameiparent` the directory of the last name
and this name; and apart from the reference to what is returned all is as before. They do not return only if there were no two
free entries in the table of inodes, and `iget` panics. -/
theorem path_resolution {c : Fin NINODE} (i : Inv sb k.fs h) (T : Tree sb k.fs) (free : ∀ ip, k.lock ip = none)
    (cwd : (k.fs.procs p).cwd = some c) (held : c ∈ h) (stays : k.fs.Stays sb (k.fs.itable c).inum) (path : Path) :
    (∀ r k', alone sb p (Calls.namei path) k = .ok (r, k') →
      r.map (fun ip => (k'.fs.itable ip).inum) = k.fs.disk.resolve sb (k.fs.origin c path) (components path.chars) ∧
      Leaves k r k') ∧
    (∀ r k', alone sb p (Calls.nameiparent path) k = .ok (r, k') →
      r.map (fun x => ((k'.fs.itable x.1).inum, x.2)) =
        k.fs.disk.resolveParent sb (k.fs.origin c path) (components path.chars) ∧
      Leaves k (r.map Prod.fst) k') ∧
    ∀ e, alone sb p (Calls.namei path) k = .error e ∨ alone sb p (Calls.nameiparent path) k = .error e →
      e = .panic .igetNoInodes ∧ ¬k.fs.Spare := by
  have down : wp (Crowded k.fs) (alone sb p (Calls.namei path)) (fun r k' =>
      r.map (fun ip => (k'.fs.itable ip).inum) = k.fs.disk.resolve sb (k.fs.origin c path) (components path.chars) ∧
      Leaves k r k') k := by
    rw [Calls.namei, alone_bind, wp_bind]
    refine wp_mono (wp_namex i T free cwd held stays) fun r k' ⟨found, a, _⟩ => ?_
    refine ⟨?_, a.leaves i⟩
    simpa [Found, State.origin, Option.map_map, Function.comp_def] using found
  have up : wp (Crowded k.fs) (alone sb p (Calls.nameiparent path)) (fun r k' =>
      r.map (fun x => ((k'.fs.itable x.1).inum, x.2)) =
        k.fs.disk.resolveParent sb (k.fs.origin c path) (components path.chars) ∧
      Leaves k (r.map Prod.fst) k') k :=
    wp_mono (wp_namex i T free cwd held stays) fun r k' ⟨found, a, _⟩ => ⟨found, a.leaves i⟩
  refine ⟨fun r k' eq => (wp_ok eq).1 down, fun r k' eq => (wp_ok eq).1 up, ?_⟩
  rintro e (eq | eq)
  · exact (wp_error eq).1 down
  · exact (wp_error eq).1 up

def dirsDisk : Disk where
  bitmap b := b < 2
  inodes _ := ⟨.dir, 0, 0, 1, 0, fun _ => 0⟩
  blocks _ _ := 0

def dirsSb : Superblock := ⟨3, 1, 52, by decide, by decide, by decide, by decide⟩

/-- The directories 2 to `m + 1` are in memory, and each is the current directory of a process. -/
def dirsState (m : ℕ) : State where
  disk := dirsDisk
  unlogged _ := none
  itable ip := if ip.val < m then ⟨ip + 2, 1, true, dirsDisk.inodes (ip + 2)⟩ else ⟨0, 0, false, dirsDisk.inodes 0⟩
  ftable _ := ⟨.none, 0, false, false, 0, 0, 0⟩
  procs p := ⟨.used, some (Fin.ofNat NINODE p), fun _ => none⟩

def dirsKernel (m : ℕ) : Kernel := ⟨dirsState m, fun _ => none, fun _ => 0⟩

def dirsRefs (m : ℕ) : Multiset (Fin NINODE) := (Finset.univ.filter fun ip : Fin NINODE => ip.val < m).val

lemma dirsDisk_slots (k : ℕ × Slot) : dirsDisk.slots dirsSb k = 0 := by
  obtain ⟨n, l⟩ := k
  unfold Disk.slots
  split
  · cases l <;> rfl
  · rfl

lemma dirsDisk_entry (n k : ℕ) : ((dirsDisk.node dirsSb n).entry k).inum = 0 := node_entry_beyond (Nat.zero_le _)

lemma dirsDisk_files {n : ℕ} {nd : Node} (eq : dirsDisk.files dirsSb n = some nd) : nd = dirsDisk.node dirsSb n := by
  unfold Disk.files at eq
  split at eq
  · exact (Option.some.inj eq).symm
  · cases eq

lemma dirsDisk_image : Image dirsSb dirsDisk where
  owned := by
    refine ⟨⟨by decide, fun ne => absurd (dirsDisk_slots _) ne, fun ne _ => absurd (dirsDisk_slots _) ne, fun {b} _ => ?_⟩,
      fun n _ _ => ⟨Nat.zero_le _, fun off lt => absurd lt (Nat.not_lt_zero off)⟩⟩
    have reserved : dirsDisk.bitmap b = true ↔ b < dirsSb.nmeta := decide_eq_true_iff
    rw [reserved]
    exact ⟨.inl, fun h => h.elim id fun ⟨k, ne, _⟩ => absurd (dirsDisk_slots k) ne⟩
  named eq _ k := by
    rw [dirsDisk_files eq, dirsDisk_entry]
    decide

lemma dirsState_used {m : ℕ} {ip : Fin NINODE} (pos : 0 < ((dirsState m).itable ip).ref) :
    ip.val < m ∧ (dirsState m).itable ip = ⟨ip + 2, 1, true, dirsDisk.inodes (ip + 2)⟩ := by
  by_cases lt : ip.val < m
  · exact ⟨lt, if_pos lt⟩
  · simp [dirsState, lt] at pos

lemma dirsState_inv (m : ℕ) : Inv dirsSb (dirsState m) (dirsRefs m) where
  image := dirsDisk_image
  logged _ _ ne := absurd (dirsDisk_slots _) ne
  inum {ip} pos := by
    rw [(dirsState_used pos).2]
    exact Nat.add_lt_add_right ip.isLt 2
  uniq {ip jp} pi pj same := by
    rw [(dirsState_used pi).2, (dirsState_used pj).2] at same
    exact Fin.ext (Nat.add_right_cancel same)
  clean {ip} pos _ := by
    rw [State.Clean, (dirsState_used pos).2]
    exact ⟨rfl, by simp [dirsDisk]⟩
  refs ip := by
    have none : (dirsState m).owners ip = 0 := by
      rw [State.owners_eq]
      exact Finset.sum_eq_zero fun f _ => rfl
    rw [none, dirsRefs, Multiset.count_eq_of_nodup (Finset.nodup _)]
    by_cases lt : ip.val < m <;> simp [dirsState, lt]
  closed _ := rfl
  pinned f ne := absurd rfl ne

lemma dirsState_stays {m n : ℕ} (lt : n < 52) : (dirsState m).Stays dirsSb n :=
  ⟨dirsDisk.node dirsSb n, if_pos ⟨lt, by simp [dirsState, dirsDisk]⟩,
    fun zero => absurd zero (show (1 : BitVec 16) ≠ 0 by decide)⟩

lemma dirsState_tree (m : ℕ) : Tree dirsSb (dirsState m) where
  root := dirsState_stays (by decide)
  size eq _ := by
    rw [dirsDisk_files eq]
    exact Nat.dvd_zero _
  entry eq _ used := by
    rw [dirsDisk_files eq] at used
    exact absurd (dirsDisk_entry _ _) used

def rootPath : Path := ⟨[47], by simp⟩

/-- The root directory, while a single directory is in memory. -/
theorem path_resolution_root : ∃ r k', alone dirsSb 0 (Calls.namei rootPath) (dirsKernel 1) = .ok (r, k') ∧
    r.map (fun ip => (k'.fs.itable ip).inum) = some ROOTINO := by
  obtain ⟨down, -, fails⟩ := @path_resolution dirsSb (dirsKernel 1) (dirsRefs 1) 0 0 (dirsState_inv 1) (dirsState_tree 1)
    (fun _ => rfl) rfl (by decide) (dirsState_stays (by decide)) rootPath
  cases eq : alone dirsSb 0 (Calls.namei rootPath) (dirsKernel 1) with
  | error e => exact absurd ⟨1, 2, by decide, rfl, rfl⟩ (fails e (.inl eq)).2
  | ok x => exact ⟨x.1, x.2, rfl, (down _ _ eq).1⟩

lemma namei_panics (ops : Fin NPROC → ℕ) :
    alone dirsSb 0 (Calls.namei rootPath) ⟨dirsState NINODE, fun _ => none, ops⟩ = .error (.panic .igetNoInodes) := by
  have used : ∀ ip, (dirsState NINODE).itable ip = ⟨ip + 2, 1, true, dirsDisk.inodes (ip + 2)⟩ := fun ip => if_pos ip.isLt
  have missing : ((List.finRange NINODE).find? fun ip =>
      0 < ((dirsState NINODE).itable ip).ref ∧ ((dirsState NINODE).itable ip).inum = ROOTINO) = none :=
    List.find?_eq_none.2 fun ip _ => by
      simp only [used, decide_eq_true_eq, ROOTINO]
      omega
  have full : ((List.finRange NINODE).find? fun ip => ((dirsState NINODE).itable ip).ref = 0) = none :=
    List.find?_eq_none.2 fun ip _ => by simp [used]
  have panics : Instr.exec dirsSb 0 (.iget ROOTINO) ⟨dirsState NINODE, fun _ => none, ops⟩ =
      .error (.panic .igetNoInodes) := by
    apply eq_error
    simp only [Instr.exec, wp_kernel, iget, wp_bind, wp_get, missing, full, wp_throw]
  rw [Calls.namei, alone_bind, Calls.namex, if_pos (show rootPath.chars.head? = some 47 from rfl), alone_bind, alone_op]
  exact bind_error (bind_error panics)

/-- Fifty processes are in fifty directories, and one of them looks for the root directory. -/
theorem namei_full_table : Inv dirsSb (dirsState NINODE) (dirsRefs NINODE) ∧ Tree dirsSb (dirsState NINODE) ∧
    (dirsState NINODE).Stays dirsSb ((dirsState NINODE).itable 0).inum ∧
    (dirsState NINODE).disk.resolve dirsSb ROOTINO (components rootPath.chars) = some ROOTINO ∧
    alone dirsSb 0 (Calls.namei rootPath) (dirsKernel NINODE) = .error (.panic .igetNoInodes) :=
  ⟨dirsState_inv NINODE, dirsState_tree NINODE, dirsState_stays (by decide), by rfl, namei_panics _⟩

end Xv6.Fs
