import Xv6.Fs.Holds
import Xv6.Fs.Content

/-!
# The calls keep the books

The rules of `Fs.Holds` are right: when a process executes an instruction, the kernel changes as what the process holds does, and
what the other processes hold stays as it is (`Books.wp_exec`). So it is in every state of the system, whatever the order in
which the processes run: the locks, the transactions and the reference counts of the open files are those that the calls in
progress and the descriptors of the other processes account for.
-/

namespace Xv6.Balance

open Fs Calls Program Fallible

/-! ### The inodes and the disk know nothing of the open files -/

/-- The reference counts and types of the open files, and the processes. -/
def outer (s : State) : (Fin NFILE → ℕ × FdType) × (Fin NPROC → Proc) :=
  (fun f => ((s.ftable f).ref, (s.ftable f).type), s.procs)

section

variable {sb : Superblock} {ip : Fin NINODE} {b : ℕ}

lemma spares_setInode {f : Inode → Inode} : Spares outer (setInode ip f) := .modify fun _ => rfl

lemma spares_setDin {f : Dinode → Dinode} : Spares outer (setDin ip f) := spares_setInode

lemma spares_iupdate : Spares outer (iupdate ip) := .modify fun _ => rfl

lemma spares_inode : Spares outer (Fs.inode ip) := .bind .get fun _ => .pure

lemma spares_bread : Spares outer (bread b) := .bind .get fun _ => .pure

lemma spares_bfree : Spares outer (bfree b) := .bind .get fun _ => .ite (.modify fun _ => rfl) .throw

lemma spares_balloc : Spares outer (balloc sb) := by
  refine .bind .get fun s => ?_
  split
  · exact .bind (.modify fun _ => rfl) fun _ => .bind (.modify fun _ => rfl) fun _ => .pure
  · exact .pure

lemma spares_iget {inum : ℕ} : Spares outer (iget inum) := by
  refine .bind .get fun s => ?_
  split
  · exact spares_setInode.bind fun _ => .pure
  · split
    exacts [spares_setInode.bind fun _ => .pure, .throw]

lemma spares_idup : Spares outer (Fs.idup ip) := spares_setInode.bind fun _ => .pure

lemma spares_decRef : Spares outer (Fs.decRef ip) := spares_setInode

lemma spares_ialloc {type : FileType} : Spares outer (Fs.ialloc sb type) := by
  refine .bind .get fun s => ?_
  split
  · exact .bind (.modify fun _ => rfl) fun _ => spares_iget.bind fun _ => .pure
  · exact .pure

lemma spares_load : Spares outer (load ip) :=
  spares_inode.bind fun _ => .ite .pure <| .bind .get fun _ => spares_setInode.bind fun _ => .ite .throw .pure

lemma spares_bmapAddr {k : ℕ} : Spares outer (bmapAddr sb ip k) :=
  spares_inode.bind fun _ => .ite (spares_balloc.bind fun _ => .ite .pure (spares_setDin.bind fun _ => .pure)) .pure

lemma spares_bmapEntry {ind j : ℕ} : Spares outer (bmapEntry sb ind j) :=
  spares_bread.bind fun _ => .ite (spares_balloc.bind fun _ => .ite .pure <|
    spares_bread.bind fun _ => .bind (.modify fun _ => rfl) fun _ => .pure) .pure

lemma spares_bmap {bn : ℕ} : Spares outer (bmap sb ip bn) :=
  .ite spares_bmapAddr <| .ite (spares_bmapAddr.bind fun _ => .ite .pure spares_bmapEntry) .throw

lemma spares_itruncAddr {i : ℕ} : Spares outer (itruncAddr ip i) :=
  spares_inode.bind fun _ => .ite .pure (spares_bfree.bind fun _ => spares_setDin)

lemma spares_itruncEntry {ind j : ℕ} : Spares outer (itruncEntry ind j) :=
  spares_bread.bind fun _ => .ite .pure spares_bfree

lemma spares_itrunc : Spares outer (Fs.itrunc ip) := by
  refine (Spares.upto (fun _ => spares_itruncAddr) _).bind fun _ => spares_inode.bind fun I => .ite ?_ ?_
  · exact spares_setDin.bind fun _ => spares_iupdate
  · refine (Spares.upto (fun _ => spares_itruncEntry) _).bind fun _ => spares_bfree.bind fun _ => ?_
    exact spares_setDin.bind fun _ => spares_setDin.bind fun _ => spares_iupdate

lemma spares_ifree : Spares outer (Fs.ifree ip) :=
  spares_itrunc.bind fun _ => spares_setDin.bind fun _ => spares_iupdate.bind fun _ => spares_setInode

lemma spares_readLoop {dst : ℕ → Bool} {off n tot : ℕ} : Spares outer (readLoop sb ip dst off n tot) := by
  induction off, n, tot using readLoop.induct with
  | case1 off tot =>
    rw [readLoop]
    exact .pure
  | case2 off n tot ne ih =>
    rw [readLoop, dif_neg ne]
    refine spares_bmap.bind fun addr => .ite .pure (spares_bread.bind fun blk => .ite (.bind ih fun o => ?_) .pure)
    cases o
    exacts [.pure, .pure]

lemma spares_readi {dst : ℕ → Bool} {off n : ℕ} : Spares outer (Fs.readi sb ip dst off n) :=
  spares_inode.bind fun _ => .ite .pure spares_readLoop

lemma spares_writeLoop {src : ℕ → Option UInt8} {off n tot : ℕ} : Spares outer (writeLoop sb ip src off n tot) := by
  induction off, n, tot using writeLoop.induct src with
  | case1 off tot =>
    rw [writeLoop]
    exact .pure
  | case2 off n tot ne ih =>
    rw [writeLoop, dif_neg ne]
    refine spares_bmap.bind fun addr => .ite .pure (spares_bread.bind fun blk => ?_)
    dsimp only
    split_ifs with all
    · exact .bind (.modify fun _ => rfl) fun _ => ih all
    · exact .bind (.modify fun _ => rfl) fun _ => .pure

lemma spares_writei {src : ℕ → Option UInt8} {off n : ℕ} : Spares outer (Fs.writei sb ip src off n) :=
  spares_inode.bind fun _ => .ite .pure <| .ite .pure <|
    spares_writeLoop.bind fun _ => spares_setDin.bind fun _ => spares_iupdate.bind fun _ => .pure

lemma spares_readDirent {msg : Panic} {off : ℕ} : Spares outer (readDirent sb msg ip off) := by
  refine spares_readi.bind fun o => ?_
  cases o
  exacts [.throw, .ite .pure .throw]

lemma spares_dirScan {msg : Panic} {p : Dirent → Bool} {k off : ℕ} : Spares outer (dirScan sb msg ip p k off) := by
  induction k generalizing off with
  | zero => exact .pure
  | succ k ih => exact spares_readDirent.bind fun _ => .ite .pure ih

lemma spares_dirlookup {name : Name} : Spares outer (Fs.dirlookup sb ip name) := by
  refine spares_inode.bind fun I => .ite (spares_dirScan.bind fun o => ?_) .throw
  cases o
  exacts [.pure, spares_iget.bind fun _ => .pure]

lemma spares_dirAdd {name : Name} {inum : ℕ} : Spares outer (Fs.dirAdd sb ip name inum) :=
  spares_inode.bind fun _ => spares_dirScan.bind fun _ => spares_writei.bind fun _ => .pure

lemma spares_isdirempty : Spares outer (Fs.isdirempty sb ip) :=
  spares_inode.bind fun _ => spares_dirScan.bind fun _ => .pure

lemma spares_seek {f : Fin NFILE} {n : ℕ} : Spares outer (setFile f fun F => { F with off := F.off + n }) := by
  refine .modify fun s => Prod.ext (funext fun g => ?_) rfl
  by_cases eq : g = f
  · simp [outer, eq]
  · simp [outer, eq]

lemma spares_change {f : Dinode → Dinode} : Spares outer (Fs.change ip f) := spares_setDin.bind fun _ => spares_iupdate

end

/-! ### The books -/

/-- What the processes hold is what the kernel says. -/
structure Held (k : Kernel) (g : Fin NPROC → Holds) : Prop where
  proc : ∀ p, (g p).proc = k.fs.procs p
  gone : ∀ p, (k.fs.procs p).state ≠ .used → ∀ fd, (k.fs.procs p).ofile fd = none
  ref : ∀ f, (k.fs.ftable f).ref = ∑ p, (g p).files f
  type : ∀ f, (k.fs.ftable f).ref = 0 → (k.fs.ftable f).type = .none
  typed : ∀ f, 0 < (k.fs.ftable f).ref → (k.fs.ftable f).type = .none → ∃ p, (g p).blank = some f
  ops : ∀ p, k.ops p = if (g p).op then 1 else 0
  lock : ∀ ip p, k.lock ip = some p ↔ ip ∈ (g p).locks
  blank : ∀ p f, (g p).blank = some f →
    0 < (g p).files f ∧ (k.fs.ftable f).ref = 1 ∧ (k.fs.ftable f).type = .none

/-- What a process holds, which is known if it makes no call. -/
def own (k : Kernel) (h : Fin NPROC → Option Holds) (p : Fin NPROC) : Holds := (h p).getD (rest (k.fs.procs p))

/-- The invariant. -/
structure Books (k : Kernel) (h : Fin NPROC → Option Holds) : Prop where
  held : Held k (own k h)
  there : ∀ p r, h p = some r → (k.fs.procs p).state ≠ .unused

section

variable {k k' : Kernel} {g : Fin NPROC → Holds} {h : Fin NPROC → Option Holds} {p q : Fin NPROC} {r r' : Holds}
  {f : Fin NFILE} {ip : Fin NINODE} {sb : Superblock}

/-- A process that has a reference to a file. -/
lemma Held.files_le (H : Held k g) : (g p).files f ≤ (k.fs.ftable f).ref := by
  rw [H.ref]
  exact Finset.single_le_sum (f := fun p => (g p).files f) (fun _ _ => Nat.zero_le _) (Finset.mem_univ p)

/-- Two processes that have references to a file. -/
lemma Held.files_add_le (H : Held k g) (ne : p ≠ q) : (g p).files f + (g q).files f ≤ (k.fs.ftable f).ref := by
  rw [H.ref, ← Finset.sum_pair (f := fun p => (g p).files f) ne]
  exact Finset.sum_le_sum_of_subset (Finset.subset_univ _)

/-- No other process has a reference to a file that has just been allocated. -/
lemma Held.blank_alone (H : Held k g) (blank : (g q).blank = some f) (pos : 0 < (g p).files f) : p = q := by
  by_contra ne
  obtain ⟨pos', one, -⟩ := H.blank q f blank
  have le := H.files_add_le (f := f) ne
  omega

lemma own_self (at_ : h p = some r) : own k h p = r := by
  simp [own, at_]

/-- One process goes on. -/
lemma own_update (procs : ∀ q, q ≠ p → k'.fs.procs q = k.fs.procs q) :
    own k' (Function.update h p (some r')) = Function.update (own k h) p r' := by
  funext q
  by_cases eq : q = p
  · subst eq
    simp [own]
  · simp [own, eq, procs q eq]

/-- The kernel changes for one process. -/
lemma Held.update (H : Held k g) (procs : ∀ q, q ≠ p → k'.fs.procs q = k.fs.procs q) (proc : r'.proc = k'.fs.procs p)
    (gone : r'.proc.state ≠ .used → ∀ fd, r'.proc.ofile fd = none)
    (ref : ∀ f, (k'.fs.ftable f).ref + (g p).files f = (k.fs.ftable f).ref + r'.files f)
    (type : ∀ f, (k'.fs.ftable f).ref = 0 → (k'.fs.ftable f).type = .none)
    (typed : ∀ f, 0 < (k'.fs.ftable f).ref → (k'.fs.ftable f).type = .none →
      r'.blank = some f ∨ ∃ q, q ≠ p ∧ (g q).blank = some f)
    (ops : k'.ops = Function.update k.ops p (if r'.op then 1 else 0))
    (lock : ∀ ip q, k'.lock ip = some q ↔ if q = p then ip ∈ r'.locks else k.lock ip = some q)
    (blank : ∀ f, r'.blank = some f →
      0 < r'.files f ∧ (k'.fs.ftable f).ref = 1 ∧ (k'.fs.ftable f).type = .none)
    (others : ∀ q f, q ≠ p → (g q).blank = some f →
      (k'.fs.ftable f).ref = (k.fs.ftable f).ref ∧ (k'.fs.ftable f).type = (k.fs.ftable f).type) :
    Held k' (Function.update g p r') where
  proc q := by
    by_cases eq : q = p
    · simpa [eq] using proc
    · simpa [eq, procs q eq] using H.proc q
  gone q := by
    by_cases eq : q = p
    · rw [eq, ← proc]
      exact gone
    · rw [procs q eq]
      exact H.gone q
  ref f := by
    have sum := Fin.sum_comp_update (fun r : Holds => r.files f) g p r'
    have := ref f
    have := H.ref f
    omega
  type := type
  typed f pos none := by
    obtain self | ⟨q, ne, other⟩ := typed f pos none
    · exact ⟨p, by simpa using self⟩
    · exact ⟨q, by simpa [ne] using other⟩
  ops q := by
    rw [ops]
    by_cases eq : q = p
    · simp [eq]
    · simpa [eq] using H.ops q
  lock ip q := by
    rw [lock]
    by_cases eq : q = p
    · simp [eq]
    · simpa [eq] using H.lock ip q
  blank q f := by
    by_cases eq : q = p
    · simpa [eq] using blank f
    · intro b
      simp only [ne_eq, eq, not_false_eq_true, Function.update_of_ne] at b ⊢
      rw [(others q f eq b).1, (others q f eq b).2]
      exact H.blank q f b

/-- A step of one process. -/
lemma Books.step (B : Books k h) (procs : ∀ q, q ≠ p → k'.fs.procs q = k.fs.procs q)
    (state : (k'.fs.procs p).state ≠ .unused) (held : Held k' (Function.update (own k h) p r')) :
    Books k' (Function.update h p (some r')) := by
  refine ⟨own_update procs ▸ held, fun q r at_ => ?_⟩
  by_cases eq : q = p
  · exact eq ▸ state
  · rw [Function.update_of_ne eq] at at_
    exact procs q eq ▸ B.there q r at_

/-- The inodes and the disk change. -/
lemma Books.spared {s : State} (B : Books k h) (same : outer s = outer k.fs) : Books { k with fs := s } h := by
  have ref (f) : (s.ftable f).ref = (k.fs.ftable f).ref := congrArg (fun v => (v.1 f).1) same
  have type (f) : (s.ftable f).type = (k.fs.ftable f).type := congrArg (fun v => (v.1 f).2) same
  have procs : s.procs = k.fs.procs := congrArg Prod.snd same
  have own : own { k with fs := s } h = own k h := by
    funext p
    simp only [own, procs]
  refine ⟨own ▸ ?_, procs ▸ B.there⟩
  obtain ⟨proc, gone, ref', type', typed, ops, lock, blank⟩ := B.held
  refine ⟨procs ▸ proc, procs ▸ gone, fun f => (ref f).trans (ref' f), ?_, ?_, ops, lock, ?_⟩
  · simpa only [ref, type] using type'
  · simpa only [ref, type] using typed
  · simpa only [ref, type] using blank

/-- What the kernel says of a process that makes a call. -/
lemma Books.of_self (B : Books k h) (at_ : h p = some r) :
    r.proc = k.fs.procs p ∧ (r.proc.state ≠ .used → ∀ fd, r.proc.ofile fd = none) ∧
      (∀ f, r.blank = some f → 0 < r.files f ∧ (k.fs.ftable f).ref = 1 ∧ (k.fs.ftable f).type = .none) := by
  have self : own k h p = r := own_self at_
  have proc : r.proc = k.fs.procs p := self ▸ B.held.proc p
  exact ⟨proc, proc ▸ B.held.gone p, self ▸ B.held.blank p⟩

lemma Books.ops_self (B : Books k h) (at_ : h p = some r) : k.ops = Function.update k.ops p (if r.op then 1 else 0) := by
  have ops := B.held.ops p
  rw [own_self at_] at ops
  rw [← ops, Function.update_eq_self]

lemma Books.typed_self (B : Books k h) (at_ : h p = some r) (f : Fin NFILE) (pos : 0 < (k.fs.ftable f).ref)
    (none : (k.fs.ftable f).type = .none) : r.blank = some f ∨ ∃ q, q ≠ p ∧ (own k h q).blank = some f := by
  obtain ⟨q, blank⟩ := B.held.typed f pos none
  by_cases eq : q = p
  · rw [eq, own_self at_] at blank
    exact .inl blank
  · exact .inr ⟨q, eq, blank⟩

lemma Books.mem_locks (B : Books k h) (at_ : h p = some r) : ip ∈ r.locks ↔ k.lock ip = some p := by
  have locks := B.held.lock ip p
  rw [own_self at_] at locks
  exact locks.symm

lemma Books.lock_self (B : Books k h) (at_ : h p = some r) (jp : Fin NINODE) (q : Fin NPROC) :
    k.lock jp = some q ↔ if q = p then jp ∈ r.locks else k.lock jp = some q := by
  by_cases eq : q = p
  · simp [eq, B.mem_locks at_]
  · simp [eq]

/-- A process takes or releases a lock. -/
lemma Books.relock (B : Books k h) (at_ : h p = some r) {lock : Fin NINODE → Option (Fin NPROC)} {L : Finset (Fin NINODE)}
    (locks : ∀ ip q, lock ip = some q ↔ if q = p then ip ∈ L else k.lock ip = some q) :
    Books { k with lock } (Function.update h p (some { r with locks := L })) := by
  obtain ⟨proc, gone, blank⟩ := B.of_self at_
  refine B.step (fun _ _ => rfl) (B.there p r at_) ?_
  exact B.held.update (fun _ _ => rfl) proc gone (fun _ => by rw [own_self at_]) B.held.type (B.typed_self (r := r) at_)
    (B.ops_self (r := r) at_) locks blank fun _ _ _ _ => ⟨rfl, rfl⟩

lemma Books.acquire (B : Books k h) (at_ : h p = some r) (free : k.lock ip = none) :
    Books { k with lock := Function.update k.lock ip (some p) }
      (Function.update h p (some { r with locks := insert ip r.locks })) := by
  refine B.relock at_ fun jp q => ?_
  by_cases eq : jp = ip
  · subst eq
    by_cases eq : q = p
    · simp [eq]
    · simp [eq, free, Ne.symm eq]
  · simp [eq, ← B.lock_self at_]

lemma Books.release (B : Books k h) (at_ : h p = some r) (mem : ip ∈ r.locks) :
    Books { k with lock := Function.update k.lock ip none }
      (Function.update h p (some { r with locks := r.locks.erase ip })) := by
  refine B.relock at_ fun jp q => ?_
  by_cases eq : jp = ip
  · subst eq
    by_cases eq : q = p
    · simp [eq]
    · simp [eq, (B.mem_locks at_).mp mem, Ne.symm eq]
  · simp [eq, ← B.lock_self at_]

/-- A process begins or ends a transaction. -/
lemma Books.setOp (B : Books k h) (at_ : h p = some r) (op : Bool) :
    Books { k with ops := Function.update k.ops p (if op then 1 else 0) } (Function.update h p (some { r with op })) := by
  obtain ⟨proc, gone, blank⟩ := B.of_self at_
  refine B.step (fun _ _ => rfl) (B.there p r at_) ?_
  exact B.held.update (fun _ _ => rfl) proc gone (fun _ => by rw [own_self at_]) B.held.type (B.typed_self (r := r) at_)
    rfl (B.lock_self (r := r) at_) blank fun _ _ _ _ => ⟨rfl, rfl⟩

/-- A process changes a file. -/
lemma Books.setFile (B : Books k h) (at_ : h p = some r) {F : File} {files : Fin NFILE → ℕ} {blank : Option (Fin NFILE)}
    (ref : F.ref + r.files f = (k.fs.ftable f).ref + files f) (same : ∀ g, g ≠ f → files g = r.files g)
    (type : F.ref = 0 → F.type = .none) (typed : 0 < F.ref → F.type = .none → blank = some f)
    (keep : ∀ g, r.blank = some g → g = f ∨ blank = some g)
    (new : ∀ g, blank = some g → g = f ∧ 0 < files f ∧ F.ref = 1 ∧ F.type = .none)
    (others : ∀ q, q ≠ p → (own k h q).blank ≠ some f) :
    Books { k with fs := { k.fs with ftable := Function.update k.fs.ftable f F } }
      (Function.update h p (some { r with files, blank })) := by
  obtain ⟨proc, gone, -⟩ := B.of_self at_
  refine B.step (fun _ _ => rfl) (B.there p r at_) (B.held.update (fun _ _ => rfl) proc gone (fun g => ?_) (fun g => ?_)
    (fun g pos none => ?_) (B.ops_self (r := r) at_) (B.lock_self (r := r) at_) (fun g eq => ?_) fun q g ne eq => ?_)
  · rw [own_self at_]
    by_cases eq : g = f
    · simpa [eq] using ref
    · simp [eq, same g eq]
  · by_cases eq : g = f
    · simpa [eq] using type
    · simpa [eq] using B.held.type g
  · by_cases eq : g = f
    · subst eq
      exact .inl (typed (by simpa using pos) (by simpa using none))
    · simp only [ne_eq, eq, not_false_eq_true, Function.update_of_ne] at pos none
      exact (B.typed_self at_ g pos none).imp_left fun blank => (keep g blank).resolve_left eq
  · obtain ⟨rfl, new⟩ := new g eq
    simpa using new
  · have ne' : g ≠ f := by
      rintro rfl
      exact others q ne eq
    simp [ne']

/-- A process changes its own record. -/
lemma Books.setProc (B : Books k h) (at_ : h p = some r) {P : Proc} (state : P.state ≠ .unused)
    (gone : P.state ≠ .used → ∀ fd, P.ofile fd = none) :
    Books { k with fs := { k.fs with procs := Function.update k.fs.procs p P } }
      (Function.update h p (some { r with proc := P })) := by
  have others (q : Fin NPROC) (ne : q ≠ p) : Function.update k.fs.procs p P q = k.fs.procs q := Function.update_of_ne ne ..
  refine B.step others (by simpa using state) ?_
  exact B.held.update others (by simp) gone (fun _ => by rw [own_self at_]) B.held.type (B.typed_self (r := r) at_)
    (B.ops_self (r := r) at_) (B.lock_self (r := r) at_) (B.of_self at_).2.2 fun _ _ _ _ => ⟨rfl, rfl⟩

/-! ### The instructions -/

/-- The process goes on with a result. -/
def Goes {β : Type} (h : Fin NPROC → Option Holds) (p : Fin NPROC) (Q : β → Holds → Prop) (b : β) (k : Kernel) : Prop :=
  ∃ r, Q b r ∧ Books k (Function.update h p (some r))

/-- If the code does not stop, the process goes on. -/
abbrev Does {β : Type} (m : K β) (h : Fin NPROC → Option Holds) (p : Fin NPROC) (Q : β → Holds → Prop)
    (k : Kernel) : Prop :=
  Fallible.wp (fun _ => True) m (Goes h p Q) k

section

variable {β : Type} {Q : β → Holds → Prop}

lemma Books.goes (B : Books k h) (at_ : h p = some r) {b : β} (q : Q b r) : Goes h p Q b k :=
  ⟨r, q, by rwa [← at_, Function.update_eq_self]⟩

lemma goes_update {o : Option Holds} : Goes (Function.update h p o) p Q = Goes h p Q := by
  simp only [funext_iff, Goes, Function.update_idem, implies_true]

/-- An instruction on the inodes and the disk. -/
lemma Books.lift (B : Books k h) (at_ : h p = some r) {m : M β} (spares : Spares outer m) (q : ∀ b, Q b r) :
    Does (lift m) h p Q k :=
  wp_kernel.mpr (spares.wp fun b _ same => (B.spared same).goes at_ (q b))

end

section

variable {Q : Unit → Holds → Prop} (B : Books k h) (at_ : h p = some r)

include B at_

lemma Books.wp_beginOp (out : r.op = false) (q : Q () { r with op := true }) : Does (Instr.beginOp.exec sb p) h p Q k := by
  have zero := B.held.ops p
  simp only [own_self at_, out] at zero
  refine ⟨_, q, ?_⟩
  simpa [zero] using B.setOp at_ true

lemma Books.wp_endOp (inside : r.op = true) (q : Q () { r with op := false }) : Does (Instr.endOp.exec sb p) h p Q k := by
  have one := B.held.ops p
  simp only [own_self at_, inside] at one
  refine ⟨_, q, ?_⟩
  simpa [one] using B.setOp at_ false

lemma Books.wp_ilock (q : ip ∉ r.locks → Q () { r with locks := insert ip r.locks }) :
    Does ((Instr.ilock ip).exec sb p) h p Q k := by
  simp only [Instr.exec, acquiresleep, Fallible.wp_bind, wp_get]
  split_ifs with ref
  · exact trivial
  simp only [Fallible.wp_bind, wp_get]
  split_ifs with free
  · have out : ip ∉ r.locks := by simp [B.mem_locks at_, free]
    simp only [wp_modify]
    have step := (B.acquire at_ free).lift (Function.update_self ..) (show Spares outer (load ip) from spares_load) fun _ => q out
    rwa [Does, goes_update] at step
  · exact trivial

lemma Books.wp_releasesleep (mem : ip ∈ r.locks) (q : Q () { r with locks := r.locks.erase ip }) :
    Does ((Instr.releasesleep ip).exec sb p) h p Q k :=
  ⟨_, q, B.release at_ mem⟩

lemma Books.wp_iunlock (mem : ip ∈ r.locks) (q : Q () { r with locks := r.locks.erase ip }) :
    Does ((Instr.iunlock ip).exec sb p) h p Q k := by
  simp only [Instr.exec, Fallible.wp_bind, wp_get]
  split_ifs
  · exact ⟨_, q, B.release at_ mem⟩
  · exact trivial

lemma Books.wp_iputLast {Q : Bool → Holds → Prop} (drop : Q false r)
    (last : ip ∉ r.locks → Q true { r with locks := insert ip r.locks }) : Does ((Instr.iputLast ip).exec sb p) h p Q k := by
  simp only [Instr.exec, acquiresleep, Fallible.wp_bind, wp_get]
  split_ifs with free
  · simp only [Fallible.wp_bind, wp_get]
    split_ifs with free
    · have out : ip ∉ r.locks := by simp [B.mem_locks at_, free]
      exact ⟨_, last out, B.acquire at_ free⟩
    · exact trivial
  · simp only [Fallible.wp_bind]
    exact B.lift at_ spares_setInode fun _ => drop

lemma Books.wp_filealloc {Q : Option (Fin NFILE) → Holds → Prop} (empty : r.blank = none)
    (full : Q none r) (q : ∀ f, Q (some f) { r with files := r.files + Pi.single f 1, blank := some f }) :
    Does (Instr.filealloc.exec sb p) h p Q k := by
  simp only [Instr.exec, Fs.filealloc, wp_kernel, Fallible.wp_bind, wp_get]
  split
  · rename_i f found
    have free : (k.fs.ftable f).ref = 0 := by simpa using List.find?_some found
    refine ⟨_, q f, B.setFile at_ ?_ (fun g ne => by simp [ne]) (by simp) (fun _ _ => rfl) (by simp [empty])
      (fun g eq => ?_) fun q ne blank => ?_⟩
    · simp [free, Nat.add_comm]
    · cases eq
      exact ⟨rfl, by simp, rfl, B.held.type f free⟩
    · obtain ⟨-, one, -⟩ := B.held.blank q f blank
      omega
  · exact B.goes at_ full

lemma Books.wp_filedup (pos : 0 < r.files f) (none : r.blank = none) (q : Q () { r with files := r.files + Pi.single f 1 }) :
    Does ((Instr.filedup f).exec sb p) h p Q k := by
  simp only [Instr.exec, Fs.filedup, wp_kernel, Fallible.wp_bind, wp_get]
  split_ifs with ref
  · exact trivial
  · refine ⟨_, q, B.setFile at_ ?_ (fun g ne => by simp [ne]) (by simp) (fun _ type => ?_) (by simp [none])
      (fun g eq => ?_) fun q ne blank => ?_⟩
    · simp only [Pi.add_apply, Pi.single_eq_same]
      omega
    · refine (B.typed_self at_ f (by omega) type).resolve_right ?_
      rintro ⟨q, ne, blank⟩
      exact ne (B.held.blank_alone blank (by rwa [own_self at_])).symm
    · simp [none] at eq
    · exact ne (B.held.blank_alone blank (by rwa [own_self at_])).symm

lemma Books.wp_fileDrop {Q : Option File → Holds → Prop} (pos : 0 < r.files f) (only : r.blank = none ∨ r.blank = some f)
    (q : ∀ o, (r.blank = some f → ∃ F, o = some F ∧ F.type = .none) →
      Q o { r with files := r.files - Pi.single f 1, blank := none }) :
    Does ((Instr.fileDrop f).exec sb p) h p Q k := by
  have others (q : Fin NPROC) (ne : q ≠ p) (blank : (own k h q).blank = some f) : False :=
    ne (B.held.blank_alone blank (by rwa [own_self at_])).symm
  have keep (g : Fin NFILE) (blank : r.blank = some g) : g = f ∨ none = some g := by
    obtain none | self := only
    · simp [none] at blank
    · exact .inl (Option.some.inj (blank.symm.trans self))
  simp only [Instr.exec, Fs.fileDrop, wp_kernel, Fallible.wp_bind, wp_get]
  split_ifs with zero many
  · exact trivial
  · refine ⟨_, q none fun blank => ?_, B.setFile at_ ?_ (fun g ne => by simp [ne]) (fun eq => ?_)
      (fun pos type => ?_) keep (by simp) others⟩
    · have one := ((B.of_self at_).2.2 f blank).2.1
      omega
    · simp only [Pi.sub_apply, Pi.single_eq_same]
      omega
    · simp only at eq
      omega
    · obtain ⟨q, blank⟩ := B.held.typed f (by omega) type
      have one := (B.held.blank q f blank).2.1
      omega
  · refine ⟨_, q _ fun blank => ⟨_, rfl, ((B.of_self at_).2.2 f blank).2.2⟩,
      B.setFile at_ ?_ (fun g ne => by simp [ne]) (fun _ => rfl) (fun pos => absurd pos (lt_irrefl 0)) keep (by simp) others⟩
    simp only [Pi.sub_apply, Pi.single_eq_same]
    omega

lemma Books.wp_fileInit {omode : BitVec 32} (blank : r.blank = some f) (q : Q () { r with blank := none }) :
    Does ((Instr.fileInit f ip omode).exec sb p) h p Q k := by
  obtain ⟨pos, one, -⟩ := (B.of_self at_).2.2 f blank
  simp only [Instr.exec, Fs.fileInit, Fs.inode, wp_kernel, Fallible.wp_bind, wp_get, Fallible.wp_pure]
  refine ⟨_, q, B.setFile at_ rfl (fun _ _ => rfl) (fun eq => ?_) (fun _ type => ?_) (fun g eq => .inl ?_) (by simp)
    fun q ne blank => ?_⟩
  · simp [one] at eq
  · simp only at type
    split_ifs at type
  · exact Option.some.inj (eq.symm.trans blank)
  · exact ne (B.held.blank_alone blank (by rwa [own_self at_])).symm

lemma Books.wp_fdalloc {Q : Option (Fin NOFILE) → Holds → Prop} (used : r.proc.state = .used) (full : Q none r)
    (q : ∀ fd, r.proc.ofile fd = none → Q (some fd) { r with proc := setFd r.proc fd (some f) }) :
    Does ((Instr.fdalloc f).exec sb p) h p Q k := by
  obtain ⟨proc, -, -⟩ := B.of_self at_
  simp only [Instr.exec, Fs.fdalloc, wp_kernel, Fallible.wp_bind, wp_get]
  split
  · rename_i fd found
    have free : r.proc.ofile fd = none := by simpa [proc] using List.find?_some found
    refine ⟨_, q fd free, ?_⟩
    rw [proc] at used ⊢
    exact B.setProc at_ (by simp [used]) (by simp [used])
  · exact B.goes at_ full

lemma Books.wp_fdclear {fd : Fin NOFILE} (q : Q () { r with proc := setFd r.proc fd none }) :
    Does ((Instr.fdclear fd).exec sb p) h p Q k := by
  obtain ⟨proc, gone, -⟩ := B.of_self at_
  refine ⟨_, q, ?_⟩
  have step := B.setProc at_ (P := setFd r.proc fd none) (proc ▸ B.there p r at_) fun state fd' => ?_
  · rw [proc] at step ⊢
    exact step
  · by_cases eq : fd' = fd
    · simp [setFd, eq]
    · simpa [setFd, eq] using gone state fd'

lemma Books.wp_setCwd {o : Option (Fin NINODE)} (q : Q () { r with proc := { r.proc with cwd := o } }) :
    Does ((Instr.setCwd o).exec sb p) h p Q k := by
  obtain ⟨proc, gone, -⟩ := B.of_self at_
  refine ⟨_, q, ?_⟩
  have step := B.setProc at_ (P := { r.proc with cwd := o }) (proc ▸ B.there p r at_) gone
  rwa [proc] at step ⊢

lemma Books.wp_zombie (none : ∀ fd, r.proc.ofile fd = none) (q : Q () { r with proc := { r.proc with state := .zombie } }) :
    Does (Instr.zombie.exec sb p) h p Q k := by
  obtain ⟨proc, -, -⟩ := B.of_self at_
  refine ⟨_, q, ?_⟩
  have step := B.setProc at_ (P := { r.proc with state := .zombie }) nofun fun _ => none
  rwa [proc] at step ⊢

end

/-- The slot of a process that makes no call changes. -/
lemma Books.replace (B : Books k h) (idle : h q = none) {s : State} {P : Proc} (procs : s.procs = Function.update k.fs.procs q P)
    (gone : P.state ≠ .used → ∀ fd, P.ofile fd = none)
    (ref : ∀ f, (s.ftable f).ref + descriptors (k.fs.procs q) f = (k.fs.ftable f).ref + descriptors P f)
    (le : ∀ f, (k.fs.ftable f).ref ≤ (s.ftable f).ref) (pos : ∀ f, 0 < (s.ftable f).ref → 0 < (k.fs.ftable f).ref)
    (type : ∀ f, (s.ftable f).type = (k.fs.ftable f).type)
    (others : ∀ p f, p ≠ q → (own k h p).blank = some f → (s.ftable f).ref = (k.fs.ftable f).ref) :
    Books { k with fs := s } h := by
  have others' (p : Fin NPROC) (ne : p ≠ q) : s.procs p = k.fs.procs p := by simp [procs, ne]
  have self : s.procs q = P := by simp [procs]
  have resting : own k h q = rest (k.fs.procs q) := by simp [own, idle]
  have eq : own { k with fs := s } h = Function.update (own k h) q (rest P) := by
    funext p
    by_cases eq : p = q
    · simp [own, eq, idle, self]
    · simp [own, eq, others' p eq]
  refine ⟨eq ▸ B.held.update others' self.symm gone (fun f => ?_) (fun f zero => ?_) (fun f lt none => ?_) ?_
    (fun ip p => ?_) nofun fun p f ne blank => ⟨others p f ne blank, type f⟩, fun p r at_ => ?_⟩
  · rw [resting]
    exact ref f
  · rw [type]
    exact B.held.type f (Nat.le_zero.mp (zero ▸ le f))
  · obtain ⟨p, blank⟩ := B.held.typed f (pos f lt) (type f ▸ none)
    refine .inr ⟨p, ?_, blank⟩
    rintro rfl
    rw [resting] at blank
    cases blank
  · have ops := B.held.ops q
    rw [resting] at ops
    exact (Function.update_eq_self_iff.mpr ops.symm).symm
  · have locks := B.held.lock ip q
    rw [resting] at locks
    by_cases eq : p = q
    · subst eq
      rw [if_pos rfl]
      exact locks
    · simp [eq]
  · have ne : p ≠ q := by
      rintro rfl
      simp [idle] at at_
    exact others' p ne ▸ B.there p r at_

/-- What `fork` does: the child has copies of the descriptors, which count. -/
structure Forked (s s' : State) (p q : Fin NPROC) (P : Proc) : Prop where
  procs : s'.procs = Function.update s.procs q P
  ref : ∀ f, (s'.ftable f).ref = (s.ftable f).ref + descriptors P f
  type : ∀ f, (s'.ftable f).type = (s.ftable f).type
  copy : ∀ fd f, P.ofile fd = some f → (s.procs p).ofile fd = some f

lemma wp_forkFd {s s' : State} {P : Proc} {i : ℕ} (lt : i < NOFILE) (ne : p ≠ q) (F : Forked s s' p q P)
    (free : ∀ fd : Fin NOFILE, i ≤ fd.val → P.ofile fd = none) :
    Fallible.wp (fun _ => True) (forkFd p q i)
      (fun _ s'' => ∃ P', (∀ fd : Fin NOFILE, i + 1 ≤ fd.val → P'.ofile fd = none) ∧ Forked s s'' p q P') s' := by
  have self : s'.procs q = P := by simp [F.procs]
  have parent : s'.procs p = s.procs p := by simp [F.procs, ne]
  simp only [forkFd, lt, dif_pos, Fallible.wp_bind, wp_get, parent]
  cases used : (s.procs p).ofile ⟨i, lt⟩ with
  | none => exact ⟨P, fun fd le => free fd (Nat.le_of_succ_le le), F⟩
  | some f =>
    simp only [Fs.filedup, Fallible.wp_bind, wp_get]
    split_ifs with ref
    · exact trivial
    have put := descriptors_put (f := f) (free ⟨i, lt⟩ le_rfl)
    refine ⟨setFd P ⟨i, lt⟩ (some f), fun fd le => ?_, ?_, fun g => ?_, fun g => ?_, fun fd g eq => ?_⟩
    · have ne : fd ≠ ⟨i, lt⟩ := by
        rintro rfl
        exact absurd le (Nat.not_succ_le_self i)
      simpa [setFd, ne] using free fd (Nat.le_of_succ_le le)
    · simp [setFd, F.procs]
    · rw [← put]
      by_cases eq : g = f
      · subst eq
        simp [F.ref, Nat.add_assoc]
      · simp [eq, F.ref]
    · by_cases eq : g = f
      · simp [eq, F.type]
      · simp [eq, F.type]
    · by_cases eq' : fd = ⟨i, lt⟩
      · subst eq'
        rw [used, ← eq]
        simp [setFd]
      · exact F.copy fd g (by simpa [setFd, eq'] using eq)

/-- The child starts to run. -/
lemma Forked.replace {s s' : State} {P : Proc} (F : Forked s s' p q P) {s'' : State} (same : outer s'' = outer s')
    (P' : Proc) (ofile : P'.ofile = P.ofile) :
    Forked s { s'' with procs := Function.update s''.procs q P' } p q P' := by
  have desc (f) : descriptors P' f = descriptors P f := by simp only [descriptors, ofile]
  refine ⟨?_, fun f => ?_, fun f => ?_, ofile ▸ F.copy⟩
  · have procs : s''.procs = s'.procs := congrArg Prod.snd same
    simp [procs, F.procs]
  · rw [desc, ← F.ref]
    exact congrArg (fun v => (v.1 f).1) same
  · rw [← F.type]
    exact congrArg (fun v => (v.1 f).2) same

lemma Books.forked (B : Books k h) (at_ : h p = some r) (resting : r = rest r.proc) (idle : h q = none)
    (bare : ∀ fd, (k.fs.procs q).ofile fd = none) {s : State} {P : Proc} (F : Forked k.fs s p q P) (used : P.state = .used) :
    Books { k with fs := s } h := by
  have proc := (B.of_self at_).1
  have zero (f) : descriptors (k.fs.procs q) f = 0 := by simp [descriptors, bare]
  -- the parent has a reference to each file of the child
  have pos (f : Fin NFILE) (ne : descriptors P f ≠ 0) : 0 < (own k h p).files f := by
    obtain ⟨fd, -, ne⟩ := Finset.exists_ne_zero_of_sum_ne_zero ne
    have eq : P.ofile fd = some f := by
      by_contra other
      exact ne (if_neg other)
    rw [own_self at_, resting, proc]
    exact descriptors_pos (F.copy fd f eq)
  refine B.replace idle F.procs (fun ne => absurd used ne) (fun f => ?_) (fun f => ?_) (fun f lt => ?_) F.type
    fun c f ne blank => ?_
  · rw [zero, F.ref, Nat.add_zero]
  · rw [F.ref]
    exact Nat.le_add_right ..
  · rw [F.ref] at lt
    by_contra zero
    have := pos f (by omega)
    have := B.held.files_le (p := p) (f := f)
    omega
  · suffices none : descriptors P f = 0 by rw [F.ref, none, Nat.add_zero]
    by_contra other
    have pos := pos f other
    have self := B.held.blank_alone blank pos
    rw [← self, own_self at_, resting] at blank
    cases blank

lemma spares_cwd : Spares outer (Fs.cwd p) := by
  refine .bind .get fun s => ?_
  split
  exacts [.pure, .throw]

lemma Books.wp_fork {Q : Option (Fin NPROC) → Holds → Prop} (B : Books k h) (at_ : h p = some r) (resting : r = rest r.proc)
    (q : ∀ o, Q o r) : Does (Instr.fork.exec sb p) h p Q k := by
  simp only [Instr.exec, Fs.fork, wp_kernel, Fallible.wp_bind, wp_get]
  split
  · rename_i c found
    have unused : (k.fs.procs c).state = .unused := by simpa using List.find?_some found
    have bare := B.held.gone c (by simp [unused])
    have idle : h c = none := by
      cases eq : h c with
      | none => rfl
      | some r' => exact absurd unused (B.there c r' eq)
    have ne : p ≠ c := by
      rintro rfl
      simp [idle] at at_
    have zero (f) : descriptors (k.fs.procs c) f = 0 := by simp [descriptors, bare]
    simp only [Fallible.wp_bind]
    refine Fallible.wp_mono (Fallible.wp_upto (fun i s => ∃ P : Proc, (∀ fd : Fin NOFILE, i ≤ fd.val → P.ofile fd = none) ∧
      Forked k.fs s p c P) ⟨k.fs.procs c, fun fd _ => bare fd, ?_, ?_, fun _ => rfl, ?_⟩ ?_) ?_
    · simp
    · simp [zero]
    · simp [bare]
    · rintro i s lt ⟨P, free, F⟩
      exact wp_forkFd lt ne F free
    · rintro _ s ⟨P, -, F⟩
      rw [Fallible.wp_bind]
      refine spares_cwd.wp fun ip s₁ same₁ => ?_
      rw [Fallible.wp_bind]
      refine spares_idup.wp fun ip s₂ same₂ => ?_
      have same := same₂.trans same₁
      have procs : s₂.procs c = P := by simpa [outer, F.procs] using congrFun (congrArg Prod.snd same) c
      have child := F.replace same { s₂.procs c with state := .used, cwd := some ip } (by rw [procs])
      exact (B.forked at_ resting idle bare child rfl).goes at_ (q _)
  · exact B.goes at_ (q _)

/-- A process has no descriptor for a file without a type. -/
lemma Books.file_typed (B : Books k h) (at_ : h p = some r) (pos : 0 < r.files f) (none : r.blank = none) :
    (k.fs.ftable f).type ≠ .none := by
  intro type
  have pos' : 0 < (own k h p).files f := by rwa [own_self at_]
  obtain blank | ⟨q, ne, blank⟩ := B.typed_self at_ f (pos'.trans_le B.held.files_le) type
  · simp [none] at blank
  · exact ne (B.held.blank_alone blank pos').symm

/-- The rules are right. -/
lemma Books.wp_exec (B : Books k h) (at_ : h p = some r) {β : Type} {i : Instr β} {Q : β → Holds → Prop} (hr : rule i Q r) :
    Does (i.exec sb p) h p Q k := by
  obtain ⟨lock, op, -, q⟩ := hr
  cases i with
  | beginOp => exact B.wp_beginOp at_ q.1 q.2
  | endOp => exact B.wp_endOp at_ (op rfl) q
  | ilock ip => exact B.wp_ilock at_ q
  | iunlock ip => exact B.wp_iunlock at_ (lock ip rfl) q
  | iputLast ip => exact B.wp_iputLast at_ q.1 q.2
  | releasesleep ip => exact B.wp_releasesleep at_ (lock ip rfl) q
  | filealloc => exact B.wp_filealloc at_ q.1 q.2.1 q.2.2
  | filedup f => exact B.wp_filedup at_ q.1 q.2.1 q.2.2
  | fileDrop f => exact B.wp_fileDrop at_ q.1 q.2.1 q.2.2
  | fileInit f ip omode => exact B.wp_fileInit at_ q.1 q.2
  | fdalloc f => exact B.wp_fdalloc at_ q.1 q.2.1 q.2.2
  | fdclear fd => exact B.wp_fdclear at_ q
  | setCwd o => exact B.wp_setCwd at_ q
  | fork => exact B.wp_fork at_ q.1 q.2
  | zombie => exact B.wp_zombie at_ q.1 q.2
  | panic msg => exact trivial
  | ofile fd => exact B.goes at_ ((B.of_self at_).1 ▸ q)
  | file f => exact B.goes at_ (q _ fun pos none => B.file_typed at_ pos none)
  | inode ip => exact B.lift at_ spares_inode q
  | iget inum => exact B.lift at_ spares_iget q
  | idup ip => exact B.lift at_ spares_idup q
  | ialloc type => exact B.lift at_ spares_ialloc q
  | ifree ip => exact B.lift at_ spares_ifree q
  | decRef ip => exact B.lift at_ spares_decRef q
  | itrunc ip => exact B.lift at_ spares_itrunc q
  | change ip f => exact B.lift at_ spares_change q
  | readi ip dst off n => exact B.lift at_ spares_readi q
  | writei ip src off n => exact B.lift at_ spares_writei q
  | dirlookup dp name => exact B.lift at_ spares_dirlookup q
  | dirAdd dp name ip => exact B.lift at_ (spares_inode.bind fun _ => spares_dirAdd) q
  | dirErase dp off => exact B.lift at_ spares_writei q
  | isdirempty dp => exact B.lift at_ spares_isdirempty q
  | seek f n => exact B.lift at_ spares_seek q
  | cwd => exact B.lift at_ spares_cwd q

/-- What happens apart from the calls. -/
lemma Books.env (B : Books k h) (env : Env (fun p => h p = none) k k') : Books k' h := by
  cases env with
  | reuse _ => exact B.spared rfl
  | @reap q idle zombie =>
    exact B.replace idle rfl (fun _ => B.held.gone q (by simp [zombie])) (fun _ => rfl) (fun _ => le_rfl) (fun _ => id)
      (fun _ => rfl) fun _ _ _ _ => rfl

lemma sound : Threads.Sound (machine sb) (fun {_} => rule) (fun r => r = rest r.proc) Books where
  start {k h p m} B idle start := by
    obtain ⟨used, op, rfl⟩ := start
    refine ⟨rest (k.fs.procs p), wp_call (fun _ _ => rfl) used, B.step (fun _ _ => rfl) (by simp [used]) ?_⟩
    have resting : own k h p = rest (k.fs.procs p) := by simp [own, idle]
    rw [← resting, Function.update_eq_self]
    exact B.held
  op B at_ hr exec := by
    exact (Fallible.wp_ok exec).mp (B.wp_exec at_ hr)
  done {k h p r} B at_ resting := by
    have eq : own k (Function.update h p none) = own k h := by
      funext q
      by_cases eq : q = p
      · subst eq
        simp only [own, Function.update_self, Option.getD_none, at_, Option.getD_some]
        rw [resting, (B.of_self at_).1]
      · simp [own, eq]
    refine ⟨eq ▸ B.held, fun q r at' => ?_⟩
    by_cases eq : q = p
    · simp [eq] at at'
    · exact B.there q r (by simpa [eq] using at')
  env B env := B.env env

end

/-! ### Runs of the system -/

/-- No lock is held, no transaction is in progress, and the reference count of an open file is the number of its
descriptors. -/
structure Quiet (k : Kernel) : Prop where
  lock : ∀ ip, k.lock ip = none
  ops : ∀ p, k.ops p = 0
  ref : ∀ f, (k.fs.ftable f).ref = ∑ p, descriptors (k.fs.procs p) f
  type : ∀ f, (k.fs.ftable f).ref = 0 ↔ (k.fs.ftable f).type = .none
  gone : ∀ p, (k.fs.procs p).state ≠ .used → ∀ fd, (k.fs.procs p).ofile fd = none

lemma quiet_iff {k : Kernel} : Quiet k ↔ Books k fun _ => none := by
  constructor
  · intro quiet
    refine ⟨⟨fun _ => rfl, quiet.gone, quiet.ref, fun f => (quiet.type f).mp, fun f pos none => ?_, fun p => ?_, fun ip p => ?_,
      nofun⟩, nofun⟩
    · have := (quiet.type f).mpr none
      omega
    · rw [quiet.ops]
      rfl
    · rw [quiet.lock]
      exact ⟨nofun, fun mem => absurd mem (Finset.notMem_empty ip)⟩
  · rintro ⟨⟨-, gone, ref, type, typed, ops, lock, -⟩, -⟩
    refine ⟨fun ip => ?_, ops, ref, fun f => ⟨type f, fun none => ?_⟩, gone⟩
    · cases eq : k.lock ip with
      | none => rfl
      | some p => exact absurd ((lock ip p).mp eq) (Finset.notMem_empty ip)
    · by_contra ne
      obtain ⟨p, blank⟩ := typed f (Nat.pos_of_ne_zero ne) none
      cases blank

section

variable {sb : Superblock} {s s' : System} {es : List (Threads.Event (Fin NPROC) Int)}

lemma books_of_run (quiet : Quiet s.shared) (idle : ∀ p, s.thread p = none) (run : Run (Fs.Step sb) s es s') :
    ∃ h, Books s'.shared h ∧ ∀ p, Threads.Agree (fun {_} => rule) (fun r => r = rest r.proc) (s'.thread p) (h p) := by
  refine sound.run ⟨fun _ => none, quiet_iff.mp quiet, fun p => ?_⟩ run
  rw [idle]
  trivial

lemma nfile_pos : 0 < NFILE := by decide

/-- One process has one descriptor. -/
def openProc (p : Fin NPROC) : Proc :=
  ⟨if p.val = 0 then .used else .unused, none, fun fd => if p.val = 0 ∧ fd.val = 0 then some ⟨0, nfile_pos⟩ else none⟩

def openKernel : Kernel := ⟨{ smallState with procs := openProc }, fun _ => none, fun _ => 0⟩

lemma openKernel_quiet : Quiet openKernel where
  lock _ := rfl
  ops _ := rfl
  ref f := by
    have count (p : Fin NPROC) : descriptors (openProc p) f = if p = 0 then if f = 0 then 1 else 0 else 0 := by
      have entry (fd : Fin NOFILE) : (openProc p).ofile fd = some f ↔ p = 0 ∧ f = 0 ∧ fd = 0 := by
        simp only [openProc, ite_eq_iff, Option.some.injEq, reduceCtorEq, and_false, or_false, eq_comm (b := f), Fin.ext_iff]
        tauto
      simp only [descriptors, entry]
      by_cases p = 0 <;> by_cases f = 0 <;> simp [*]
    simp only [openKernel, count, Finset.sum_ite_eq', Finset.mem_univ, if_true, smallState]
    split_ifs <;> rfl
  type f := by
    by_cases eq : f = 0
    · simp [openKernel, smallState, eq]
    · simp [openKernel, smallState, eq]
  gone p unused fd := by
    have ne : p ≠ 0 := by
      rintro rfl
      exact unused rfl
    simp [openKernel, openProc, Fin.val_eq_zero_iff, ne]

/-- The process closes the file: states on the way, and at the end. -/
lemma close_run : ∃ es₁ es₂ es₃ s₁ s₂ s₃,
    (Run (Fs.Step smallSb) ⟨openKernel, fun _ => none⟩ es₁ s₁ ∧ ∃ m, s₁.thread 0 = some (.op (.fileDrop 0) m)) ∧
    (Run (Fs.Step smallSb) ⟨openKernel, fun _ => none⟩ es₂ s₂ ∧ ∃ m, s₂.thread 0 = some (.op (.iputLast 0) m)) ∧
    Run (Fs.Step smallSb) ⟨openKernel, fun _ => none⟩ es₃ s₃ ∧ (∀ p, s₃.thread p = none) ∧ (s₃.shared.fs.ftable 0).ref = 0 := by
  have start : Fs.Step smallSb ⟨openKernel, fun _ => none⟩ (.start 0) _ := .start rfl ⟨rfl, .close 0, rfl⟩
  have run := (Run.nil.snoc start).snoc (.op (i := .ofile 0) (Function.update_self ..) rfl)
  have run₁ := run.snoc (.op (i := .fdclear 0) (Function.update_self ..) rfl)
  have run := run₁.snoc (.op (i := .fileDrop 0) (Function.update_self ..) rfl)
  have run₂ := run.snoc (.op (i := .beginOp) (Function.update_self ..) rfl)
  have run := run₂.snoc (.op (i := .iputLast 0) (Function.update_self ..) rfl)
  have run := run.snoc (.op (i := .endOp) (Function.update_self ..) rfl)
  have run₃ := run.snoc (.done (Function.update_self ..))
  refine ⟨_, _, _, _, _, _, ⟨run₁, _, rfl⟩, ⟨run₂, _, rfl⟩, run₃, fun p => ?_, rfl⟩
  by_cases eq : p = 0
  · simp [eq]
  · simp [eq]

/-- A call that has returned holds no lock and has ended its transactions, and the books are right again when all calls have
returned. -/
theorem calls_balanced (quiet : Quiet s.shared) (idle : ∀ p, s.thread p = none) (run : Run (Fs.Step sb) s es s') :
    (∀ p, s'.thread p = none → s'.shared.ops p = 0 ∧ ∀ ip, s'.shared.lock ip ≠ some p) ∧
      ((∀ p, s'.thread p = none) → Quiet s'.shared) := by
  obtain ⟨h, B, agree⟩ := books_of_run quiet idle run
  have none (p) (eq : s'.thread p = none) : h p = none := (agree p).none_iff.mp eq
  constructor
  · intro p eq
    have resting : own s'.shared h p = rest (s'.shared.fs.procs p) := by simp [own, none p eq]
    constructor
    · rw [B.held.ops, resting]
      rfl
    · intro ip lock
      rw [B.held.lock, resting] at lock
      exact absurd lock (Finset.notMem_empty ip)
  · intro idle
    rw [quiet_iff, ← funext fun p => none p (idle p)]
    exact B

/-- A file is closed, and everything has been given back. -/
theorem calls_balanced_close : Quiet openKernel ∧ ∃ es s', Run (Fs.Step smallSb) ⟨openKernel, fun _ => none⟩ es s' ∧
    (s'.shared.fs.ftable 0).ref = 0 ∧ Quiet s'.shared := by
  obtain ⟨_, _, es, _, _, s, -, -, run, idle, closed⟩ := close_run
  exact ⟨openKernel_quiet, es, s, run, closed, (calls_balanced openKernel_quiet (fun _ => rfl) run).2 idle⟩

end

end Xv6.Balance
