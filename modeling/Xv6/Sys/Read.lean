import Xv6.Pipe.Deliver
import Xv6.Console.Line
import Xv6.Fs.Content
import Xv6.Fs.Call

/-!
# `fileread`

`fileread` of `kernel/file.c` with the memory of its caller: `piperead`, `consoleread` and `readi` copy to the buffer of the
caller. Each of them is given the `int` that the caller has passed, and `readi` takes it for a `uint`. A read of a negative size
from a pipe or the console does nothing, but one from a file may read all the rest of it (`read_of_minus_one`). It stays within the
buffer in all other cases (`fileread_confined_iff`).
-/

namespace Xv6.Read

open Pipes (Pipe dst piperead readBytes)
open Console (C newline INPUT_BUF_SIZE)

/-- The major number of the console (`file.h`). -/
abbrev CONSOLE : ℤ := 1

/-- What `consoleread` uses of `cons`. -/
structure Input where
  buf : ℕ → UInt8
  r : BitVec 32
  w : BitVec 32

/-- The wait of `consoleread` for a character. For each `sleep` the list tells whether the process has been killed before it, and
the input after it. Returns whether the process has been killed, the input and the rest of the list. -/
def waitInput (b : Input) : List (Bool × Input) → Option (Bool × Input × List (Bool × Input))
  | [] => if b.r = b.w then none else some (false, b, [])
  | (killed, b') :: later =>
    if b.r = b.w then
      if killed then some (true, b, later) else waitInput b' later
    else some (false, b, (killed, b') :: later)

/-- The loop of `consoleread` when `i` bytes have been copied and `n` more are wanted. -/
def consoleLoop (addr : BitVec 64) : (n i : ℕ) → Input → List (Bool × Input) → UserMemory → Option (ℤ × Input × UserMemory)
  | 0, i, b, _, m => some (i, b, m)
  | n + 1, i, b, later, m =>
    match waitInput b later with
    | none => none
    | some (true, b, _) => some (-1, b, m)
    | some (false, b, later) =>
      let c := b.buf (b.r.toNat % INPUT_BUF_SIZE)
      let b := { b with r := b.r + 1 }
      if c = C 'D' then
        -- `n < target`
        if 0 < i then some (i, { b with r := b.r - 1 }, m) else some (i, b, m)
      else
        let (r, m) := m.copyout (dst addr i) [c]
        if r = -1 then some (i, b, m)
        else if c = newline then some (i + 1, b, m)
        else consoleLoop addr n (i + 1) b later m

def consoleread (addr : BitVec 64) (n : ℤ) (b : Input) (later : List (Bool × Input)) (m : UserMemory) :
    Option (ℤ × Input × UserMemory) :=
  consoleLoop addr n.toNat 0 b later m

variable (sb : Fs.Superblock)

/-- The loop of `readi` when `n` bytes at `off` are left and `tot` have been copied. -/
def readLoop (ip : Fin Fs.NINODE) (addr : BitVec 64) (off n tot : ℕ) (m : UserMemory) : Fs.M (ℤ × UserMemory) := do
  if _h : n = 0 then return (tot, m)
  else
    let blk ← Fs.bmap sb ip (off / BSIZE)
    if blk = 0 then return (tot, m)
    else
      let k := min n (BSIZE - off % BSIZE)
      let (r, m) := m.copyout (dst addr tot) ((← Fs.bread blk).bytes (off % BSIZE) k)
      if r = -1 then return (-1, m) else readLoop ip addr (off + k) (n - k) (tot + k) m
termination_by n
decreasing_by
  have : off % 1024 < 1024 := Nat.mod_lt _ (by decide)
  simp only [BSIZE]
  omega

def readi (ip : Fin Fs.NINODE) (addr : BitVec 64) (off n : ℕ) (m : UserMemory) : Fs.M (ℤ × UserMemory) := do
  let d := (← Fs.inode ip).din
  if off > d.size ∨ (off + n) % 2 ^ 32 < off then return (0, m)
  else readLoop sb ip addr off (if off + n > d.size then d.size - off else n) 0 m

/-- What an open file is. -/
inductive Kind where
  | none
  | pipe
  | inode (ip : Fin Fs.NINODE)
  | device (major : BitVec 16)

/-- `struct file`. -/
structure File where
  type : Kind
  readable : Bool
  off : ℕ

/-- What a read uses: the file, the file system, the pipe, the input of the console, and the memory of the process. -/
structure State where
  file : File
  fs : Fs.Kernel
  pipe : Pipe
  cons : Input
  mem : UserMemory

/-- Calls that may panic, or wait for ever. -/
abbrev M := Fallible State Fs.Stop

def onFs {α : Type} (m : Fs.K α) : M α := fun s =>
  match m s.fs with
  | .ok (a, k) => .ok (a, { s with fs := k })
  | .error e => .error e

/-- `fileread` by process `p`. The lists tell what is found after each `sleep`, and whether the process has been killed: `killed` is
for the first test of `piperead`. -/
def fileread (p : Fin NPROC) (addr : BitVec 64) (n : ℤ) (killed : Bool) (pipes : List (Pipe × Bool))
    (inputs : List (Bool × Input)) : M ℤ := do
  let s ← get
  if s.file.readable then
    match s.file.type with
    | .pipe =>
      match piperead addr n s.mem ((s.pipe, killed) :: pipes) with
      | none => throw .wait
      | some (_, r, pi, m) =>
        set { s with pipe := pi, mem := m }
        return r
    | .device major =>
      -- `consoleinit` sets the only entry of `devsw`
      if major.toInt < 0 ∨ Calls.NDEV ≤ major.toInt ∨ major.toInt ≠ CONSOLE then return -1
      else
        match consoleread addr n s.cons inputs s.mem with
        | none => throw .wait
        | some (r, b, m) =>
          set { s with cons := b, mem := m }
          return r
    | .inode ip =>
      onFs (Fs.Instr.exec sb p (.ilock ip))
      let (r, m) ← onFs (Fs.lift (readi sb ip addr s.file.off (n % 2 ^ 32).toNat s.mem))
      modify fun s => { s with mem := m }
      if r > 0 then modify fun s => { s with file := { s.file with off := (s.file.off + r.toNat) % 2 ^ 32 } }
      onFs (Fs.Instr.exec sb p (.iunlock ip))
      return r
    | .none => throw (.panic .fileread)
  else return -1

/-! ### Where memory changes -/

section Memory

variable {m m₁ m' : UserMemory} {addr : BitVec 64} {a b i j n k : ℕ}

/-- The user can access addresses below `MAXVA` only. -/
def Low (m : UserMemory) : Prop := ∀ a, m.Accessible a → a < MAXVA

/-- Only the `n` bytes from `a` on have changed. -/
def Confined (m m' : UserMemory) (a n : ℕ) : Prop := ∀ b, b < a ∨ a + n ≤ b → m'.byte b = m.byte b

lemma Confined.refl : Confined m m a n := fun _ _ => rfl

lemma Confined.trans (c : Confined m m₁ a i) (d : Confined m₁ m' b j) (le : a ≤ b) (ge : b + j ≤ a + n) (le' : i ≤ n) :
    Confined m m' a n := by
  intro x out
  rw [d x (by omega), c x (by omega)]

lemma Low.copyout {bs : List UInt8} (low : Low m) : Low (m.copyout a bs).2 := fun b acc => low b (UserMemory.copyout_accessible.1 acc)

lemma dst_eq (near : addr.toNat + i < 2 ^ 64) : dst addr i = addr.toNat + i := by
  rw [dst, BitVec.toNat_add, BitVec.toNat_ofNat]
  omega

/-- The copy of one byte of several. It is refused, unless the buffer is below `MAXVA`. -/
lemma copyout_one {c : UInt8} (low : Low m) (first : 0 < i → addr.toNat < MAXVA) (small : i < 2 ^ 32) :
    Confined m (m.copyout (dst addr i) [c]).2 (addr.toNat + i) 1 ∧
      ((m.copyout (dst addr i) [c]).1 ≠ -1 → addr.toNat < MAXVA) := by
  by_cases acc : m.Accessible (dst addr i)
  · have below : addr.toNat < MAXVA := by
      obtain rfl | pos := Nat.eq_zero_or_pos i
      · simpa [dst] using low _ acc
      · exact first pos
    have near : addr.toNat + i < 2 ^ 64 := by
      simp only [MAXVA] at below
      omega
    refine ⟨fun b out => ?_, fun _ => below⟩
    rw [dst_eq near]
    exact UserMemory.copyout_byte_ne out
  · rw [Pipes.copyout_one_fails acc]
    exact ⟨.refl, fun ne => absurd rfl ne⟩

lemma readBytes_confined (pi : Pipe) (low : Low m) (first : 0 < i → addr.toNat < MAXVA) (small : i + k < 2 ^ 32) :
    (readBytes addr k i pi m).1 ≤ i + k ∧ Confined m (readBytes addr k i pi m).2.2 (addr.toNat + i) k := by
  induction k generalizing i pi m with
  | zero => exact ⟨Nat.le_refl _, .refl⟩
  | succ k ih =>
    rw [readBytes]
    split
    · exact ⟨Nat.le_add_right _ _, .refl⟩
    · obtain ⟨one, below⟩ := copyout_one (c := pi.next) low first (by omega)
      dsimp only
      split
      · exact ⟨Nat.le_add_right _ _, one.trans .refl (Nat.le_refl _) (Nat.le_refl _) (Nat.le_add_left _ _)⟩
      · rename_i done
        obtain ⟨le, rest⟩ := ih (i := i + 1) pi.take low.copyout (fun _ => below done) (by omega)
        exact ⟨by omega, one.trans rest (by omega) (by omega) (by omega)⟩

lemma consoleLoop_confined {c : Input} {later : List (Bool × Input)} {r : ℤ} {c' : Input} (low : Low m)
    (first : 0 < i → addr.toNat < MAXVA) (small : i + k < 2 ^ 32) (eq : consoleLoop addr k i c later m = some (r, c', m')) :
    r ≤ i + k ∧ Confined m m' (addr.toNat + i) k := by
  induction k generalizing i c later m with
  | zero =>
    cases eq
    exact ⟨by simp, .refl⟩
  | succ k ih =>
    rw [consoleLoop] at eq
    cases wait : waitInput c later with
    | none => simp [wait] at eq
    | some found =>
      obtain ⟨killed, c₁, later₁⟩ := found
      rw [wait] at eq
      cases killed with
      | true =>
        cases eq
        exact ⟨by omega, .refl⟩
      | false =>
        dsimp only at eq
        split at eq
        · -- the end of the input
          split at eq
          all_goals
            cases eq
            exact ⟨by omega, .refl⟩
        · obtain ⟨one, below⟩ := copyout_one (c := c₁.buf (c₁.r.toNat % INPUT_BUF_SIZE)) low first (by omega)
          split at eq
          · cases eq
            exact ⟨by omega, one.trans .refl (Nat.le_refl _) (Nat.le_refl _) (Nat.le_add_left _ _)⟩
          · rename_i done
            split at eq
            · cases eq
              exact ⟨by omega, one.trans .refl (Nat.le_refl _) (Nat.le_refl _) (Nat.le_add_left _ _)⟩
            · obtain ⟨le, rest⟩ := ih low.copyout (fun _ => below done) (by omega) eq
              exact ⟨by omega, one.trans rest (by omega) (by omega) (by omega)⟩

/-- `piperead` returns at most the size of the buffer and changes nothing outside of it. -/
lemma piperead_confined {n : ℤ} {tests : List (Pipe × Bool)} {pi pi' : Pipe} {r : ℤ} (low : Low m) (hi : n < 2 ^ 31)
    (eq : piperead addr n m tests = some (pi, r, pi', m')) : r ≤ max n 0 ∧ Confined m m' addr.toNat n.toNat := by
  induction tests with
  | nil => cases eq
  | cons test rest ih =>
    obtain ⟨pi₀, killed⟩ := test
    rw [piperead] at eq
    split at eq
    · split at eq
      · cases eq
        exact ⟨by omega, .refl⟩
      · exact ih eq
    · cases eq
      obtain ⟨le, conf⟩ := readBytes_confined (k := n.toNat) pi low (absurd · (Nat.lt_irrefl 0)) (by omega)
      exact ⟨by omega, conf⟩

end Memory

/-! ### Files -/

section Inode

open Fs Fallible

variable {sb} {s : Fs.State} {ip : Fin Fs.NINODE} {m : UserMemory} {addr : BitVec 64} {off n tot : ℕ}

/-- The bytes `bs` are copied to `a` after `tot` others: how many there are, or -1, and the memory. -/
def copied (m : UserMemory) (a tot : ℕ) (bs : List UInt8) : ℤ × UserMemory :=
  (if (m.copyout a bs).1 = -1 then -1 else tot + bs.length, (m.copyout a bs).2)

lemma copied_append {a : ℕ} {xs ys : List UInt8} : copied m a tot (xs ++ ys) =
    if (m.copyout a xs).1 = -1 then (-1, (m.copyout a xs).2)
    else copied (m.copyout a xs).2 (a + xs.length) (tot + xs.length) ys := by
  rw [copied, UserMemory.copyout_append]
  split
  · rfl
  · rw [copied, List.length_append]
    push_cast
    rw [Int.add_assoc]

lemma copyout_below {a : ℕ} {bs : List UInt8} (low : Low m) (pos : 0 < bs.length) (done : (m.copyout a bs).1 ≠ -1) : a < MAXVA := by
  rw [UserMemory.copyout_fst] at done
  split at done
  · rename_i ready
    exact low a (ready 0 pos)
  · exact absurd rfl done

lemma readLoop_eq (low : Low m) (first : 0 < tot → addr.toNat < MAXVA) (small : tot + n ≤ MAXFILE * BSIZE)
    (lt : (s.itable ip).inum < sb.ninodes) (alloc : (s.itable ip).din.type ≠ .free) (fits : off + n ≤ MAXFILE * BSIZE)
    (mapped : ∀ o, off ≤ o → o < off + n → (s.flush ip).slots sb ((s.itable ip).inum, slotOf (o / BSIZE)) ≠ 0) :
    readLoop sb ip addr off n tot m s =
      .ok (copied m (addr.toNat + tot) tot ((List.range n).map fun i => (s.flush ip).byte sb (s.itable ip).inum (off + i)), s) := by
  induction n using Nat.strongRecOn generalizing off tot m with
  | ind n ih =>
    apply eq_ok
    unfold readLoop
    split
    · subst_vars
      simp [copied, UserMemory.copyout_eq, UserMemory.copyBytes]
    · rename_i pos
      have ne := mapped off (Nat.le_refl _) (by omega)
      rw [wp_bind, wp_ok (bmap_eq lt alloc (block_lt (by omega)) ne), if_neg ne]
      simp only [bread, wp_bind, wp_get, wp_pure]
      have mod : off % BSIZE < BSIZE := Nat.mod_lt _ (by decide)
      obtain ⟨k, eqk, kpos, room, kn⟩ : ∃ k, min n (BSIZE - off % BSIZE) = k ∧ 0 < k ∧ off % BSIZE + k ≤ BSIZE ∧ k ≤ n :=
        ⟨_, rfl, by omega, by omega, by omega⟩
      obtain ⟨r, rfl⟩ : ∃ r, n = k + r := ⟨n - k, by omega⟩
      have at_tot : dst addr tot = addr.toNat + tot := by
        obtain rfl | more := Nat.eq_zero_or_pos tot
        · simp [dst]
        · refine dst_eq ?_
          have below := first more
          have size : MAXFILE * BSIZE < 2 ^ 32 := by decide
          simp only [MAXVA] at below
          omega
      rw [eqk, at_tot, block_bytes room, List.range_add, List.map_append, List.map_map, copied_append]
      simp only [List.length_map, List.length_range]
      split
      · exact ⟨rfl, rfl⟩
      · rename_i done
        have below := copyout_below low (by simpa using kpos) done
        rw [wp_ok (ih (k + r - k) (by omega) low.copyout (fun _ => by omega) (by omega) (by omega) fun o ge lo =>
          mapped o (by omega) (by omega))]
        simp only [Nat.add_sub_cancel_left, Function.comp_def, Nat.add_assoc, and_self]

lemma copied_confined (m : UserMemory) (a : ℕ) (bs : List UInt8) :
    (copied m a 0 bs).1 ≤ bs.length ∧ Confined m (copied m a 0 bs).2 a bs.length := by
  refine ⟨?_, fun b out => UserMemory.copyout_byte_ne out⟩
  rw [copied]
  split <;> omega

def window (size off n : ℕ) : ℕ := if (off + n) % 2 ^ 32 < off then 0 else min n (size - off)

lemma readi_eq (low : Low m) (O : Owned sb s.disk) (c : s.Clean ip) (lt : (s.itable ip).inum < sb.ninodes)
    (alloc : (s.itable ip).din.type ≠ .free) :
    readi sb ip addr off n m s = .ok (copied m addr.toNat 0 ((List.range (window (s.itable ip).din.size off n)).map fun i =>
      s.disk.byte sb (s.itable ip).inum (off + i)), s) := by
  have own := O.mapped _ lt (c ▸ alloc)
  rw [Disk.Mapped, show s.disk.inodes (s.itable ip).inum = (s.itable ip).din from c.symm] at own
  have nothing : copied m addr.toNat 0 [] = (0, m) := by simp [copied, UserMemory.copyout_eq, UserMemory.copyBytes]
  apply eq_ok
  simp only [readi, inode, wp_bind, wp_get, wp_pure]
  split
  · rename_i out
    have none : window (s.itable ip).din.size off n = 0 := by
      rw [window]
      split <;> omega
    rw [none]
    exact ⟨nothing.symm, rfl⟩
  · rename_i range
    have left : (if off + n > (s.itable ip).din.size then (s.itable ip).din.size - off else n) =
        window (s.itable ip).din.size off n := by
      rw [window, if_neg (fun wraps => range (.inr wraps))]
      split <;> omega
    have le : off + window (s.itable ip).din.size off n ≤ (s.itable ip).din.size := by
      rw [← left]
      split <;> omega
    rw [left, wp_ok (readLoop_eq low (absurd · (Nat.lt_irrefl 0)) (by omega) lt alloc (le.trans own.1) fun o _ lo => by
      rw [c.flush]
      exact own.2 o (by omega)), c.flush, Nat.add_zero]
    exact ⟨rfl, rfl⟩

lemma window_le {size : ℕ} {n : ℤ} (nonneg : 0 ≤ n) (hi : n < 2 ^ 31) : window size off (n % 2 ^ 32).toNat ≤ n.toNat := by
  rw [window]
  split <;> omega

/-- A negative size does not: the window is empty only if the file ends before the offset, or the size is not less than minus
the offset. -/
lemma window_eq_zero {size : ℕ} {n : ℤ} (neg : n < 0) (lo : -2 ^ 31 ≤ n) (off32 : off < 2 ^ 32) :
    window size off (n % 2 ^ 32).toNat = 0 ↔ size ≤ off ∨ -n ≤ off := by
  rw [window]
  split <;> omega

lemma window_le_size (size off n : ℕ) : window size off n ≤ size := by
  rw [window]
  split <;> omega

/-- The inode of a file that is open, while it is not locked. -/
structure Opened (sb : Superblock) (k : Kernel) (ip : Fin Fs.NINODE) : Prop where
  owned : Owned sb k.fs.disk
  ref : 0 < (k.fs.itable ip).ref
  valid : (k.fs.itable ip).valid = true
  clean : k.fs.Clean ip
  inum : (k.fs.itable ip).inum < sb.ninodes
  alloc : (k.fs.itable ip).din.type ≠ .free
  free : k.lock ip = none

lemma Opened.size_le {k : Kernel} (o : Opened sb k ip) : (k.fs.itable ip).din.size ≤ MAXFILE * BSIZE := by
  have own := o.owned.mapped _ o.inum (o.clean ▸ o.alloc)
  rw [o.clean]
  exact own.1

/-- The bytes that a read of `n` bytes at `off` reads. -/
def contents (sb : Superblock) (k : Kernel) (ip : Fin Fs.NINODE) (off : ℕ) (n : ℤ) : List UInt8 :=
  (List.range (window (k.fs.itable ip).din.size off (n % 2 ^ 32).toNat)).map fun i =>
    k.fs.disk.byte sb (k.fs.itable ip).inum (off + i)

@[simp]
lemma wp_onFs {α : Type} {P : Stop → Prop} {x : K α} {Q : α → State → Prop} {S : State} :
    wp P (onFs x) Q S ↔ wp P x (fun a k => Q a { S with fs := k }) S.fs := by
  unfold wp onFs
  cases x S.fs with
  | ok r => exact .rfl
  | error e => exact .rfl

lemma wp_fileread_inode {S : State} {P : Stop → Prop} {p : Fin NPROC} {n : ℤ} {killed : Bool} {pipes : List (Pipe × Bool)}
    {inputs : List (Bool × Input)} (low : Low S.mem) (readable : S.file.readable = true) (kind : S.file.type = .inode ip)
    (o : Opened sb S.fs ip) : wp P (fileread sb p addr n killed pipes inputs)
      (fun r S' => (r, S'.mem) = copied S.mem addr.toNat 0 (contents sb S.fs ip S.file.off n)) S := by
  have ref := Nat.not_lt.2 o.ref
  rw [fileread, wp_bind, wp_get, if_pos readable, kind]
  dsimp only
  simp only [wp_bind, wp_onFs, Instr.exec, wp_get, if_neg ref, acquiresleep, o.free, if_true, wp_modify, wp_kernel]
  simp only [load, inode, wp_bind, wp_get, wp_pure, o.valid, if_true]
  rw [wp_ok (readi_eq low o.owned o.clean o.inum o.alloc)]
  have mine : Function.update S.fs.lock ip (some p) ip = some p ∧ 1 ≤ (S.fs.fs.itable ip).ref := ⟨Function.update_self .., o.ref⟩
  split
  all_goals
    simp only [wp_bind, wp_modify, wp_pure, wp_onFs, wp_get, if_pos mine]
    rfl

end Inode

/-! ### All files -/

open Fallible

variable {sb} {F : File} {k : Fs.Kernel} {p : Fin NPROC} {n : ℤ}

def size (F : File) (k : Fs.Kernel) : ℕ :=
  match F.type with
  | .inode ip => (k.fs.itable ip).din.size
  | _ => 0

/-- A read of `n` bytes stays within the buffer, whatever the memory, the pipe and the console. -/
def Confines (sb : Fs.Superblock) (p : Fin NPROC) (F : File) (k : Fs.Kernel) (n : ℤ) : Prop :=
  ∀ (addr : BitVec 64) (m : UserMemory) (pi : Pipe) (b : Input) (killed : Bool) (pipes : List (Pipe × Bool))
    (inputs : List (Bool × Input)), Low m →
    wp (· = .wait) (fileread sb p addr n killed pipes inputs) (fun r S => r ≤ max n 0 ∧ Confined m S.mem addr.toNat n.toNat)
      ⟨F, k, pi, b, m⟩

/-- A memory in which all addresses below `MAXVA` are accessible. -/
def allMemory : UserMemory where
  byte a := if a < MAXVA then some 0 else none
  paged a := by
    have round : PGROUNDDOWN a < MAXVA ↔ a < MAXVA := by
      simp only [PGROUNDDOWN, MAXVA, PGSIZE]
      omega
    simp only [round]

lemma allMemory_accessible {a : ℕ} : allMemory.Accessible a ↔ a < MAXVA := by
  simp [UserMemory.Accessible, allMemory, Option.isSome_ite]

lemma copied_allMemory {bs : List UInt8} (fits : bs.length ≤ Fs.MAXFILE * BSIZE) : (copied allMemory 0 0 bs).1 = bs.length := by
  have ready : allMemory.Ready 0 bs.length := by
    intro i lt
    rw [allMemory_accessible]
    have room : Fs.MAXFILE * BSIZE < MAXVA := by decide
    omega
  rw [copied, UserMemory.copyout_fst, if_pos ready]
  simp

/-- A read returns at most the size of the buffer and changes nothing outside of it, iff the size is not negative, or the file is
not open for reading or not an inode, or its offset is not below its end, or not below minus the size. -/
theorem fileread_confined_iff (off32 : F.off < 2 ^ 32) (lo : -2 ^ 31 ≤ n) (hi : n < 2 ^ 31) (kind : F.type ≠ .none)
    (opened : ∀ ip, F.type = .inode ip → Opened sb k ip) :
    Confines sb p F k n ↔ 0 ≤ n ∨ F.readable = false ∨ (∀ ip, F.type ≠ .inode ip) ∨ size F k ≤ F.off ∨ -n ≤ F.off := by
  constructor
  · intro conf
    by_contra no
    push Not at no
    obtain ⟨neg, readable, ⟨ip, inode⟩, below, above⟩ := no
    have o := opened ip inode
    have low : Low allMemory := fun a => allMemory_accessible.1
    -- with a memory that takes all bytes, the rest of the file is read
    let S : State := ⟨F, k, Pipes.pipealloc fun _ => 0, ⟨fun _ => 0, 0, 0⟩, allMemory⟩
    obtain ⟨r, S', eq, out⟩ : ∃ r S', fileread sb p 0 n false [] [] S = .ok (r, S') ∧
        (r, S'.mem) = copied allMemory 0 0 (contents sb k ip F.off n) :=
      exists_of_wp (wp_fileread_inode low (Bool.eq_true_of_not_eq_false readable) inode o)
    obtain ⟨le, -⟩ := (wp_ok eq).1 (conf 0 allMemory _ _ false [] [] low)
    have window : 0 < (contents sb k ip F.off n).length := by
      rw [size, inode] at below
      have ne := mt (window_eq_zero neg lo off32).1 (not_or.2 ⟨Nat.not_le.2 below, by omega⟩)
      simpa [contents] using Nat.pos_of_ne_zero ne
    have fits : (contents sb k ip F.off n).length ≤ Fs.MAXFILE * BSIZE := by
      rw [contents, List.length_map, List.length_range]
      exact (window_le_size _ _ _).trans o.size_le
    have all := copied_allMemory fits
    rw [← out] at all
    dsimp only at all
    omega
  · intro cond addr m pi b killed pipes inputs low
    cases readable : F.readable with
    | false =>
      rw [fileread, wp_bind, wp_get, if_neg (by simp [readable]), wp_pure]
      exact ⟨by omega, .refl⟩
    | true =>
      cases type : F.type with
      | none => exact absurd type kind
      | pipe =>
        rw [fileread, wp_bind, wp_get, if_pos readable]
        dsimp only
        rw [type]
        dsimp only
        cases eq : piperead addr n m ((pi, killed) :: pipes) with
        | none => exact rfl
        | some x => exact piperead_confined low hi eq
      | device major =>
        rw [fileread, wp_bind, wp_get, if_pos readable]
        dsimp only
        rw [type]
        dsimp only
        split
        · exact ⟨by omega, .refl⟩
        · cases eq : consoleread addr n b inputs m with
          | none => exact rfl
          | some x =>
            obtain ⟨le, conf⟩ := consoleLoop_confined low (absurd · (Nat.lt_irrefl 0)) (by omega) eq
            exact ⟨by simp only [Nat.cast_zero] at le; omega, conf⟩
      | inode ip =>
        refine wp_mono (wp_fileread_inode low readable type (opened ip type)) fun r S' out => ?_
        have length : (contents sb k ip F.off n).length ≤ n.toNat := by
          rw [contents, List.length_map, List.length_range]
          by_cases nonneg : 0 ≤ n
          · exact window_le nonneg hi
          · have ends : size F k ≤ F.off ∨ -n ≤ F.off := by simpa [nonneg, readable, type] using cond
            rw [size, type] at ends
            rw [(window_eq_zero (Int.not_le.1 nonneg) lo off32).2 ends]
            exact Nat.zero_le _
        obtain ⟨le, conf⟩ := copied_confined m addr.toNat (contents sb k ip F.off n)
        rw [← out] at le conf
        exact ⟨by omega, fun b out => conf b (by omega)⟩

/-- The file of two bytes, open for reading at its beginning, while no process is in a call. -/
def smallFile : File := ⟨.inode 0, true, 0⟩

def smallKernel : Fs.Kernel := ⟨Fs.smallState, fun _ => none, fun _ => 0⟩

lemma smallKernel_opened : Opened Fs.smallSb smallKernel 0 :=
  ⟨Fs.smallDisk_owned, by decide, rfl, rfl, by decide, by decide, rfl⟩

/-- A read of one byte. -/
theorem read_of_one : Confines Fs.smallSb 0 smallFile smallKernel 1 := by
  refine (fileread_confined_iff (F := smallFile) (by decide) (by decide) (by decide) nofun ?_).2 (.inl (by decide))
  rintro ip ⟨⟩
  exact smallKernel_opened

/-- A read of -1 bytes returns 2. -/
theorem read_of_minus_one : ∃ S, fileread Fs.smallSb 0 0 (-1) false [] []
    ⟨smallFile, smallKernel, Pipes.pipealloc fun _ => 0, ⟨fun _ => 0, 0, 0⟩, allMemory⟩ = .ok (2, S) := by
  have low : Low allMemory := fun a => allMemory_accessible.1
  obtain ⟨r, S, eq, out⟩ : ∃ r S, fileread Fs.smallSb 0 0 (-1) false [] []
        ⟨smallFile, smallKernel, Pipes.pipealloc fun _ => 0, ⟨fun _ => 0, 0, 0⟩, allMemory⟩ = .ok (r, S) ∧
      (r, S.mem) = copied allMemory 0 0 (contents Fs.smallSb smallKernel 0 0 (-1)) :=
    exists_of_wp (wp_fileread_inode low rfl rfl smallKernel_opened)
  have two : (copied allMemory 0 0 (contents Fs.smallSb smallKernel 0 0 (-1))).1 = 2 := copied_allMemory (by decide)
  rw [← out] at two
  exact ⟨S, two ▸ eq⟩

end Xv6.Read
