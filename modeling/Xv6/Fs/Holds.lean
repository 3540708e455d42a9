import Xv6.Fs.Call
import Xv6.Lib.Counting
import Mathlib.Algebra.Group.Pi.Basic
import Mathlib.Data.Finset.Insert

/-!
# What a call holds

While a process runs a call it holds locks of inodes and references to open files, and it may be inside a transaction
(`Holds`). The rules say what each instruction needs of this and what it leaves (`rule`): the content of an inode is read and
changed under its lock, the disk is changed and `iput` called inside a transaction, and a transaction begins and ends without a
lock. The result of an instruction may be any one. Every call starts and ends with what the process holds between calls
(`wp_call`).
-/

namespace Xv6.Balance

open Fs Calls Program

/-- What a process holds: its descriptors, which are its own; how many of the references to each open file are its; the inodes
it has locked; whether it is inside a transaction; and a file that it has allocated and not yet filled in. -/
structure Holds where
  proc : Proc
  files : Fin NFILE → ℕ
  locks : Finset (Fin NINODE)
  op : Bool
  blank : Option (Fin NFILE)

/-- The number of descriptors of a process for a file. -/
def descriptors (P : Proc) (f : Fin NFILE) : ℕ := ∑ fd, if P.ofile fd = some f then 1 else 0

/-- What a process holds between calls. -/
def rest (P : Proc) : Holds := ⟨P, descriptors P, ∅, false, none⟩

/-- The inode whose lock the instruction needs. -/
def needsLock {β : Type} : Instr β → Option (Fin NINODE)
  | .inode ip | .iunlock ip | .ifree ip | .releasesleep ip | .itrunc ip | .change ip _ | .readi ip _ _ _ => some ip
  | .writei ip _ _ _ | .dirlookup ip _ | .dirAdd ip _ _ | .dirErase ip _ | .isdirempty ip | .fileInit _ ip _ => some ip
  | _ => none

/-- The instruction may only be used inside a transaction. -/
def needsOp {β : Type} : Instr β → Bool
  | .endOp | .ialloc _ | .iputLast _ | .ifree _ | .decRef _ | .itrunc _ | .change _ _ => true
  | .writei _ _ _ _ | .dirAdd _ _ _ | .dirErase _ _ => true
  | _ => false

/-- The instruction may only be used without a lock. -/
def needsFree {β : Type} : Instr β → Bool
  | .beginOp | .endOp => true
  | _ => false

def setFd (P : Proc) (fd : Fin NOFILE) (o : Option (Fin NFILE)) : Proc :=
  { P with ofile := Function.update P.ofile fd o }

/-- What an instruction leaves. -/
@[reducible]
def next {β : Type} : Instr β → (β → Holds → Prop) → Holds → Prop
  | .beginOp, Q, r => r.op = false ∧ Q () { r with op := true }
  | .endOp, Q, r => Q () { r with op := false }
  | .ilock ip, Q, r => ip ∉ r.locks → Q () { r with locks := insert ip r.locks }
  | .iunlock ip, Q, r => Q () { r with locks := r.locks.erase ip }
  | .iputLast ip, Q, r => Q false r ∧ (ip ∉ r.locks → Q true { r with locks := insert ip r.locks })
  | .releasesleep ip, Q, r => Q () { r with locks := r.locks.erase ip }
  | .filealloc, Q, r =>
    r.blank = none ∧ Q none r ∧ ∀ f, Q (some f) { r with files := r.files + Pi.single f 1, blank := some f }
  | .filedup f, Q, r => 0 < r.files f ∧ r.blank = none ∧ Q () { r with files := r.files + Pi.single f 1 }
  | .fileDrop f, Q, r =>
    0 < r.files f ∧ (r.blank = none ∨ r.blank = some f) ∧ ∀ o, (r.blank = some f → ∃ F, o = some F ∧ F.type = .none) →
      Q o { r with files := r.files - Pi.single f 1, blank := none }
  | .fileInit f _ _, Q, r => r.blank = some f ∧ Q () { r with blank := none }
  | .fdalloc f, Q, r =>
    r.proc.state = .used ∧ Q none r ∧
      ∀ fd, r.proc.ofile fd = none → Q (some fd) { r with proc := setFd r.proc fd (some f) }
  | .ofile fd, Q, r => Q (r.proc.ofile fd) r
  | .fdclear fd, Q, r => Q () { r with proc := setFd r.proc fd none }
  | .setCwd ip, Q, r => Q () { r with proc := { r.proc with cwd := ip } }
  | .fork, Q, r => r = rest r.proc ∧ ∀ q, Q q r
  | .zombie, Q, r => (∀ fd, r.proc.ofile fd = none) ∧ Q () { r with proc := { r.proc with state := .zombie } }
  | .file f, Q, r => ∀ F, (0 < r.files f → r.blank = none → F.type ≠ .none) → Q F r
  | .panic msg, _, _ => msg = .unlinkNlink ∨ msg = .unlinkWritei
  | .inode _, Q, r | .iget _, Q, r | .idup _, Q, r | .ialloc _, Q, r | .ifree _, Q, r => ∀ b, Q b r
  | .decRef _, Q, r | .itrunc _, Q, r | .change _ _, Q, r | .readi _ _ _ _, Q, r | .writei _ _ _ _, Q, r => ∀ b, Q b r
  | .dirlookup _ _, Q, r | .dirAdd _ _ _, Q, r | .dirErase _ _, Q, r | .isdirempty _, Q, r => ∀ b, Q b r
  | .seek _ _, Q, r | .cwd, Q, r => ∀ b, Q b r

/-- The rules of the instructions. -/
def rule {β : Type} (i : Instr β) (Q : β → Holds → Prop) (r : Holds) : Prop :=
  (∀ ip, needsLock i = some ip → ip ∈ r.locks) ∧ (needsOp i → r.op = true) ∧ (needsFree i → r.locks = ∅) ∧ next i Q r

/-- The weakest precondition of a program. -/
abbrev wp {α : Type} (m : Call α) (Q : α → Holds → Prop) : Holds → Prop := Program.wp (fun {_} => rule) m Q

/-- Inside a transaction, with some locks. -/
def within (r : Holds) (L : Finset (Fin NINODE)) : Holds := { r with op := true, locks := L }

/-- Outside a transaction, without a lock. -/
def outside (r : Holds) : Holds := { r with op := false, locks := ∅ }

/-- Outside a transaction, with one lock. -/
def reading (r : Holds) (ip : Fin NINODE) : Holds := { r with op := false, locks := {ip} }

variable {r : Holds} {ip dp : Fin NINODE} {name : Name} {L : Finset (Fin NINODE)}

section

variable {β : Type} {i : Instr β} {Q : β → Holds → Prop} {Q' : Unit → Holds → Prop}

lemma rule_within (lock : needsLock i = none) (free : needsFree i = false) (h : next i Q (within r L)) :
    rule i Q (within r L) :=
  ⟨fun _ h => absurd (lock.symm.trans h) nofun, fun _ => rfl, fun h => absurd (free.symm.trans h) nofun, h⟩

lemma rule_locked (lock : needsLock i = some ip) (free : needsFree i = false) (mem : ip ∈ L) (h : next i Q (within r L)) :
    rule i Q (within r L) :=
  ⟨fun _ h => Option.some.inj (lock.symm.trans h) ▸ mem, fun _ => rfl, fun h => absurd (free.symm.trans h) nofun, h⟩

lemma rule_outside (lock : needsLock i = none) (op : needsOp i = false) (h : next i Q (outside r)) : rule i Q (outside r) :=
  ⟨fun _ h => absurd (lock.symm.trans h) nofun, fun h => absurd (op.symm.trans h) nofun, fun _ => rfl, h⟩

lemma rule_endOp (q : Q' () (outside r)) : rule .endOp Q' (within r ∅) := ⟨nofun, fun _ => rfl, fun _ => rfl, q⟩

lemma rule_reading (lock : needsLock i = none ∨ needsLock i = some ip) (op : needsOp i = false) (free : needsFree i = false)
    (h : next i Q (reading r ip)) : rule i Q (reading r ip) := by
  refine ⟨fun jp at_ => ?_, fun h => absurd (op.symm.trans h) nofun, fun h => absurd (free.symm.trans h) nofun, h⟩
  simpa [at_, reading, eq_comm] using lock

lemma rule_iunlock (q : Q' () (outside r)) : rule (.iunlock ip) Q' (reading r ip) := by
  refine rule_reading (.inr rfl) rfl rfl ?_
  simp only [next, reading, Finset.erase_singleton]
  exact q

lemma wp_halt {msg : Panic} (ok : msg = .unlinkNlink ∨ msg = .unlinkWritei) : wp (halt msg) Q r :=
  ⟨nofun, nofun, nofun, ok⟩

lemma wp_iput (q : Q' () (within r L)) : wp (iput ip) Q' (within r L) := by
  simp only [iput, wp_bind, wp_op]
  refine rule_within rfl rfl ⟨q, fun (free : ip ∉ L) => ?_⟩
  simp only [if_true, wp_bind, wp_op]
  refine rule_locked (r := r) (L := insert ip L) rfl rfl (by simp) fun _ => rule_locked rfl rfl (by simp) ?_
  change rule _ _ (within r ((insert ip L).erase ip))
  rw [Finset.erase_insert free]
  exact rule_within rfl rfl fun _ => q

lemma wp_iunlockput (mem : ip ∈ L) (q : Q' () (within r (L.erase ip))) :
    wp (iunlockput ip) Q' (within r L) := by
  simp only [iunlockput, wp_bind, wp_op]
  exact rule_locked rfl rfl mem (wp_iput q)

lemma wp_iunlockput_last (q : Q' () (within r ∅)) : wp (iunlockput ip) Q' (within r {ip}) :=
  wp_iunlockput (by simp) (by rwa [Finset.erase_singleton])

/-- The lock of the directory is given up first. -/
lemma wp_iunlockput_dir (ne : ip ∉ ({dp} : Finset _)) (q : Q' () (within r {ip})) :
    wp (iunlockput dp) Q' (within r (insert ip {dp})) := by
  refine wp_iunlockput (by simp) ?_
  rwa [Finset.pair_comm, Finset.erase_insert (by simpa [eq_comm] using ne)]

end

lemma wp_dirlink {Q : Bool → Holds → Prop} (mem : dp ∈ L) (q : ∀ b, Q b (within r L)) :
    wp (dirlink dp name ip) Q (within r L) := by
  simp only [dirlink, wp_bind, wp_op]
  refine rule_locked rfl rfl mem ?_
  rintro (_ | ⟨jp, off⟩)
  · exact rule_locked rfl rfl mem q
  · simp only [wp_bind]
    exact wp_iput (q false)

section

variable {Q : Option (Fin NINODE × Name) → Holds → Prop} {parent : Bool} {path : List UInt8}

lemma wp_walk (q : ∀ o, Q o (within r ∅)) : wp (walk parent path ip name) Q (within r ∅) := by
  induction len : path.length using Nat.strongRecOn generalizing path ip name with
  | ind m ih =>
    unfold walk
    split
    · rename_i elem rest eq
      simp only [wp_bind, wp_op]
      refine rule_within rfl rfl fun _ => rule_locked (r := r) (L := {ip}) rfl rfl (by simp) fun I => ?_
      split_ifs with dir last <;> simp only [wp_bind, wp_op]
      · exact wp_iunlockput_last (q none)
      · exact rule_locked rfl rfl (by simp) (by simpa [next, within] using q _)
      · refine rule_locked rfl rfl (by simp) ?_
        rintro (_ | ⟨next, off⟩) <;> simp only [wp_bind]
        · exact wp_iunlockput_last (q none)
        · exact wp_iunlockput_last (ih rest.length (len ▸ skipelem_lt eq) rfl)
    · split_ifs
      · simp only [wp_bind]
        exact wp_iput (q none)
      · exact q _

lemma wp_namex (q : ∀ o, Q o (within r ∅)) : wp (namex parent path) Q (within r ∅) := by
  rw [namex]
  split_ifs <;> simp only [wp_bind, wp_op]
  · exact rule_within rfl rfl fun ip => wp_walk q
  · exact rule_within rfl rfl fun _ => rule_within rfl rfl fun ip => wp_walk q

end

section

variable {Q : Option (Fin NINODE) → Holds → Prop} {path : Path} {type : FileType} {major minor : BitVec 16}

lemma wp_namei (q : ∀ o, Q o (within r ∅)) : wp (namei path) Q (within r ∅) := by
  simp only [namei, wp_bind]
  exact wp_namex fun o => q _

variable (fail : Q none (within r ∅)) (q : ∀ ip, Q (some ip) (within r {ip}))

include fail in
lemma wp_createFail (ne : ip ∉ ({dp} : Finset _)) : wp (createFail ip dp) Q (within r (insert ip {dp})) := by
  simp only [createFail, wp_bind, wp_op]
  refine rule_locked rfl rfl (by simp) fun _ => wp_iunlockput (by simp) ?_
  rw [Finset.erase_insert ne]
  exact wp_iunlockput_last fail

include fail q

lemma wp_createLink (ne : ip ∉ ({dp} : Finset _)) : wp (createLink dp name ip type) Q (within r (insert ip {dp})) := by
  simp only [createLink, wp_bind]
  refine wp_dirlink (by simp) fun b => ?_
  split_ifs with linked dir
  · simp only [wp_bind, wp_op]
    exact rule_locked rfl rfl (by simp) fun _ => wp_iunlockput_dir ne (q ip)
  · simp only [wp_bind]
    exact wp_iunlockput_dir ne (q ip)
  · exact wp_createFail fail ne

lemma wp_createNew : wp (createNew dp name type major minor) Q (within r {dp}) := by
  simp only [createNew, wp_bind, wp_op]
  refine rule_within rfl rfl ?_
  rintro (_ | ip) <;> simp only [wp_bind, wp_op]
  · exact wp_iunlockput_last fail
  · refine rule_within rfl rfl fun ne => rule_locked (r := r) (L := insert ip {dp}) rfl rfl (by simp) fun _ => ?_
    have link (b : Bool) : wp (if b then createLink dp name ip type else createFail ip dp) Q (within r (insert ip {dp})) := by
      split_ifs
      exacts [wp_createLink fail q ne, wp_createFail fail ne]
    split_ifs
    · simp only [createDots, wp_bind]
      refine wp_dirlink (by simp) fun b => ?_
      split_ifs
      exacts [wp_dirlink (by simp) link, link false]
    · exact link true

lemma wp_create : wp (create path type major minor) Q (within r ∅) := by
  simp only [create, nameiparent, wp_bind]
  refine wp_namex ?_
  rintro (_ | ⟨dp, name⟩)
  · exact fail
  simp only [wp_bind, wp_op]
  refine rule_within rfl rfl fun _ => rule_locked (r := r) (L := {dp}) rfl rfl (by simp) ?_
  rintro (_ | ⟨ip, off⟩) <;> simp only [wp_bind, wp_op]
  · exact wp_createNew fail q
  · refine wp_iunlockput_last (rule_within rfl rfl fun _ => rule_locked (r := r) (L := {ip}) rfl rfl (by simp) fun I => ?_)
    split_ifs
    · exact q ip
    · simp only [wp_bind]
      exact wp_iunlockput_last fail

lemma wp_openInode {omode : BitVec 32} : wp (openInode path omode) Q (within r ∅) := by
  rw [openInode]
  split_ifs
  · exact wp_create fail q
  · simp only [wp_bind]
    refine wp_namei ?_
    rintro (_ | ip)
    · exact fail
    simp only [wp_bind, wp_op]
    refine rule_within rfl rfl fun _ => rule_locked (r := r) (L := {ip}) rfl rfl (by simp) fun I => ?_
    split_ifs
    · simp only [wp_bind]
      exact wp_iunlockput_last fail
    · exact q ip

end

lemma wp_execReads {Q : Int → Holds → Prop} {reads : Reads} (q : ∀ v, Q v (within r {ip})) :
    wp (execReads ip reads) Q (within r {ip}) := by
  induction reads with
  | stop result => exact q _
  | read off n next ih =>
    simp only [execReads, wp_bind, wp_op]
    exact rule_locked rfl rfl (by simp) fun o => ih o

section

variable {Q : Int → Holds → Prop} (q : ∀ v, Q v (outside r))

include q

lemma wp_openBad : wp (openBad ip) Q (within r {ip}) := by
  simp only [openBad, wp_bind, wp_op]
  exact wp_iunlockput_last (rule_endOp (q _))

lemma wp_linkBad : wp (linkBad ip) Q (within r ∅) := by
  simp only [linkBad, wp_bind, wp_op]
  refine rule_within rfl rfl fun _ => rule_locked (r := r) (L := {ip}) rfl rfl (by simp) fun _ => ?_
  exact wp_iunlockput_last (rule_endOp (q _))

lemma wp_sysLink {old new : Path} : wp (sysLink old new) Q (outside r) := by
  simp only [sysLink, nameiparent, wp_bind, wp_op]
  refine rule_outside rfl rfl ⟨rfl, wp_namei (r := r) ?_⟩
  rintro (_ | ip) <;> simp only [wp_bind, wp_op]
  · exact rule_endOp (q _)
  refine rule_within rfl rfl fun _ => rule_locked (r := r) (L := {ip}) rfl rfl (by simp) fun I => ?_
  split_ifs with dir <;> simp only [wp_bind, wp_op]
  · exact wp_iunlockput_last (rule_endOp (q _))
  refine rule_locked rfl rfl (by simp) fun _ => rule_locked rfl rfl (by simp) ?_
  change Program.wp _ _ _ (within r (({ip} : Finset _).erase ip))
  rw [Finset.erase_singleton]
  refine wp_namex ?_
  rintro (_ | ⟨dp, name⟩) <;> simp only [wp_bind, wp_op]
  · exact wp_linkBad q
  refine rule_within rfl rfl fun _ => wp_dirlink (r := r) (L := {dp}) (by simp) fun b => ?_
  split_ifs <;> simp only [wp_bind, wp_op]
  · exact wp_iunlockput_last (wp_iput (rule_endOp (q _)))
  · exact wp_iunlockput_last (wp_linkBad q)

lemma wp_unlinkDone {dir : Bool} (ne : ip ∉ ({dp} : Finset _)) :
    wp (unlinkDone dp ip dir) Q (within r (insert ip {dp})) := by
  cases dir <;> simp only [unlinkDone, Bool.false_eq_true, if_false, if_true, wp_bind, wp_op]
  case' true => refine rule_locked rfl rfl (by simp) fun _ => ?_
  all_goals exact wp_iunlockput_dir ne (rule_locked rfl rfl (by simp) fun _ => wp_iunlockput_last (rule_endOp (q _)))

lemma wp_unlinkEntry {off : ℕ} (ne : ip ∉ ({dp} : Finset _)) : wp (unlinkEntry dp ip off) Q (within r (insert ip {dp})) := by
  simp only [unlinkEntry, wp_bind, wp_op]
  refine rule_locked rfl rfl (by simp) fun I => ?_
  have last (b : Bool) : wp (if b then do
      if (← Instr.dirErase dp off) = some DESIZE then unlinkDone dp ip (I.din.type = .dir) else halt .unlinkWritei
    else do
      iunlockput ip
      unlinkBad dp) Q (within r (insert ip {dp})) := by
    cases b <;> simp only [Bool.false_eq_true, if_false, if_true, wp_bind, wp_op]
    · refine wp_iunlockput (by simp) ?_
      rw [Finset.erase_insert ne]
      exact wp_openBad q
    · refine rule_locked rfl rfl (by simp) fun n => ?_
      split_ifs
      exacts [wp_unlinkDone q ne, wp_halt (.inr rfl)]
  split_ifs with few dir
  · exact wp_halt (.inl rfl)
  · exact rule_locked rfl rfl (by simp) last
  · exact last true

lemma wp_sysUnlink {path : Path} : wp (sysUnlink path) Q (outside r) := by
  simp only [sysUnlink, nameiparent, wp_bind, wp_op]
  refine rule_outside rfl rfl ⟨rfl, wp_namex (r := r) ?_⟩
  rintro (_ | ⟨dp, name⟩) <;> simp only [wp_bind, wp_op]
  · exact rule_endOp (q _)
  refine rule_within rfl rfl fun _ => ?_
  split_ifs
  · exact wp_openBad q
  simp only [wp_bind, wp_op]
  refine rule_locked (r := r) (L := {dp}) rfl rfl (by simp) ?_
  rintro (_ | ⟨ip, off⟩) <;> simp only [wp_bind, wp_op]
  · exact wp_openBad q
  · exact rule_within rfl rfl fun ne => wp_unlinkEntry q ne

lemma wp_sysMknod {path : Option Path} {type : FileType} {major minor : BitVec 16} :
    wp (sysMknod path type major minor) Q (outside r) := by
  unfold sysMknod
  cases path <;> simp only [wp_bind, wp_op] <;> refine rule_outside rfl rfl ⟨rfl, ?_⟩
  case none => exact rule_endOp (q _)
  case some path =>
    refine wp_create (r := r) ?_ fun ip => ?_ <;> simp only [wp_bind, wp_op]
    · exact rule_endOp (q _)
    · exact wp_iunlockput_last (rule_endOp (q _))

lemma wp_sysChdir {path : Option Path} (cwd : ∀ v ip, Q v (outside { r with proc := { r.proc with cwd := ip } })) :
    wp (sysChdir path) Q (outside r) := by
  unfold sysChdir
  cases path <;> simp only [wp_bind, wp_op] <;> refine rule_outside rfl rfl ⟨rfl, ?_⟩
  case none => exact rule_endOp (q _)
  case some path =>
    refine wp_namei (r := r) ?_
    rintro (_ | ip) <;> simp only [wp_bind, wp_op]
    · exact rule_endOp (q _)
    refine rule_within rfl rfl fun _ => rule_locked (r := r) (L := {ip}) rfl rfl (by simp) fun I => ?_
    split_ifs <;> simp only [wp_bind, wp_op]
    · exact wp_iunlockput_last (rule_endOp (q _))
    · refine rule_locked rfl rfl (by simp) ?_
      change rule _ _ (within r (({ip} : Finset _).erase ip))
      rw [Finset.erase_singleton]
      refine rule_within rfl rfl fun o => wp_iput (rule_endOp (rule_outside rfl rfl (cwd _ _)))

lemma wp_exec {path : Path} {reads : Reads} : wp (Calls.exec path reads) Q (outside r) := by
  simp only [Calls.exec, wp_bind, wp_op]
  refine rule_outside rfl rfl ⟨rfl, wp_namei (r := r) ?_⟩
  rintro (_ | ip) <;> simp only [wp_bind, wp_op]
  · exact rule_endOp (q _)
  exact rule_within rfl rfl fun _ => wp_execReads (r := r) fun v => wp_iunlockput_last (rule_endOp (q _))

end

section

variable {P : Proc} {fd : Fin NOFILE} {f : Fin NFILE}

lemma descriptors_setFd (P : Proc) (fd : Fin NOFILE) (o : Option (Fin NFILE)) (f : Fin NFILE) :
    descriptors (setFd P fd o) f + (if P.ofile fd = some f then 1 else 0) = descriptors P f + if o = some f then 1 else 0 :=
  Fin.sum_comp_update (fun o => if o = some f then 1 else 0) P.ofile fd o

lemma descriptors_put (free : P.ofile fd = none) : descriptors P + Pi.single f 1 = descriptors (setFd P fd (some f)) := by
  funext g
  have count := descriptors_setFd P fd (some f) g
  simp only [free, reduceCtorEq, if_false, Option.some.injEq] at count
  simp only [Pi.add_apply, Pi.single_apply, eq_comm (a := g)]
  omega

lemma descriptors_clear (used : P.ofile fd = some f) : descriptors P - Pi.single f 1 = descriptors (setFd P fd none) := by
  funext g
  have count := descriptors_setFd P fd none g
  simp only [used, reduceCtorEq, if_false, Option.some.injEq] at count
  simp only [Pi.sub_apply, Pi.single_apply, eq_comm (a := g)]
  omega

lemma descriptors_pos (used : P.ofile fd = some f) : 0 < descriptors P f := by
  have count := descriptors_setFd P fd none f
  simp only [used, if_true, reduceCtorEq, if_false] at count
  omega

/-- Without one of the references to a file. -/
def drop (r : Holds) (f : Fin NFILE) : Holds := { r with files := r.files - Pi.single f 1, blank := none }

lemma wp_fileclose {Q : Unit → Holds → Prop} (none : r.blank = none) (pos : 0 < r.files f) (q : Q () (outside (drop r f))) :
    wp (fileclose f) Q (outside r) := by
  simp only [fileclose, wp_bind, wp_op]
  refine rule_outside rfl rfl ⟨pos, .inl none, fun o _ => ?_⟩
  rcases o with _ | F
  · exact q
  simp only
  split_ifs
  · exact q
  · simp only [wp_bind, wp_op]
    exact rule_outside (r := drop r f) rfl rfl ⟨rfl, wp_iput (rule_endOp q)⟩

/-- A file that has just been allocated is closed without a transaction. -/
lemma wp_fileclose_blank {Q : Unit → Holds → Prop} (blank : r.blank = some f) (pos : 0 < r.files f)
    (q : Q () (within (drop r f) L)) : wp (fileclose f) Q (within r L) := by
  simp only [fileclose, wp_bind, wp_op]
  refine rule_within rfl rfl ⟨pos, .inr blank, fun o none => ?_⟩
  obtain ⟨F, rfl, type⟩ := none blank
  simp only [type, if_true]
  exact q

end

section

variable {Q : Int → Holds → Prop} {P : Proc} {fd : Fin NOFILE} {f : Fin NFILE} (q : ∀ v P, Q v (rest P))

lemma wp_filewriteLoop {Q : Bool → Holds → Prop} {ip : Fin NINODE} {src : ℕ → Option UInt8} {i n : ℕ}
    (q : ∀ b, Q b (rest P)) : wp (filewriteLoop f ip src i n) Q (rest P) := by
  induction n using Nat.strongRecOn generalizing i with
  | ind n ih =>
    unfold filewriteLoop
    split_ifs with zero
    · exact q true
    simp only [wp_bind, wp_op]
    refine rule_outside (r := rest P) rfl rfl ⟨rfl, rule_within (r := rest P) (L := ∅) rfl rfl fun _ => ?_⟩
    refine rule_within (r := rest P) (L := {ip}) rfl rfl fun F _ => rule_locked rfl rfl (by simp) ?_
    have last (w : Option ℕ) : rule (.iunlock ip) (fun _ => rule .endOp fun _ =>
        wp (if w = some (min n WRITEMAX) then filewriteLoop f ip src (i + min n WRITEMAX) (n - min n WRITEMAX) else return false)
          Q) (within (rest P) {ip}) := by
      refine rule_locked rfl rfl (by simp) ?_
      change rule _ _ (within (rest P) (({ip} : Finset _).erase ip))
      rw [Finset.erase_singleton]
      refine rule_endOp ?_
      split_ifs
      · exact ih _ (by simp only [WRITEMAX, MAXOPBLOCKS, BSIZE]; omega)
      · exact q false
    rintro (_ | w) <;> simp only [wp_bind, wp_op]
    · exact last none
    · exact rule_within rfl rfl fun _ => last (some w)

lemma rest_clear (used : P.ofile fd = some f) : drop { rest P with proc := setFd P fd none } f = rest (setFd P fd none) := by
  simp only [drop, rest, descriptors_clear used]

lemma drop_alloc : drop { rest P with files := descriptors P + Pi.single f 1, blank := some f } f = rest P := by
  have eq : descriptors P + Pi.single f 1 - Pi.single f 1 = descriptors P := funext fun g => Nat.add_sub_cancel ..
  simp only [drop, rest, eq]

lemma rest_put (free : P.ofile fd = none) :
    ⟨setFd P fd (some f), descriptors P + Pi.single f 1, ∅, false, none⟩ = rest (setFd P fd (some f)) := by
  simp only [rest, descriptors_put free]

lemma wp_exitFd {Q : Unit → Holds → Prop} {i : ℕ} (lt : i < NOFILE) (free : P.ofile ⟨i, lt⟩ = none → Q () (rest P))
    (clear : Q () (rest (setFd P ⟨i, lt⟩ none))) : wp (exitFd i) Q (rest P) := by
  simp only [exitFd, lt, dif_pos, wp_bind, wp_op]
  refine rule_outside (r := rest P) rfl rfl ?_
  dsimp only [next, outside, rest]
  cases used : P.ofile ⟨i, lt⟩ with
  | none => exact free used
  | some f =>
    simp only [wp_bind, wp_op]
    refine wp_fileclose (r := rest P) rfl (descriptors_pos used) (rule_outside rfl rfl ?_)
    rw [← rest_clear used] at clear
    exact clear

include q

/-- `argfd`. -/
lemma rule_argfd {k : Fin NFILE → Call Int} (h : ∀ f, P.ofile fd = some f → wp (k f) Q (rest P)) :
    wp (do
      match ← Instr.ofile fd with
      | none => return -1
      | some f => k f) Q (rest P) := by
  simp only [wp_bind, wp_op]
  refine rule_outside (r := rest P) rfl rfl ?_
  change Program.wp _ (match P.ofile fd with | none => _ | some f => _) _ _
  cases used : P.ofile fd with
  | none => exact q _ P
  | some f => exact h f used

lemma wp_sysClose : wp (sysClose fd) Q (rest P) := by
  refine rule_argfd q fun f used => ?_
  simp only [wp_bind, wp_op]
  refine rule_outside (r := rest P) rfl rfl (wp_fileclose (r := { rest P with proc := setFd P fd none }) rfl ?_ ?_)
  · exact descriptors_pos used
  · rw [rest_clear used]
    exact q _ _

lemma wp_sysDup (used : P.state = .used) : wp (sysDup fd) Q (rest P) := by
  refine rule_argfd q fun f open_ => ?_
  simp only [wp_bind, wp_op]
  refine rule_outside (r := rest P) rfl rfl ⟨used, q _ P, fun fd' (free : P.ofile fd' = none) => ?_⟩
  simp only [wp_bind, wp_op]
  refine rule_outside (r := { rest P with proc := setFd P fd' (some f) }) rfl rfl ⟨descriptors_pos open_, rfl, ?_⟩
  change Q _ ⟨setFd P fd' (some f), descriptors P + Pi.single f 1, ∅, false, none⟩
  rw [rest_put free]
  exact q _ _

lemma wp_sysFstat : wp (sysFstat fd) Q (rest P) := by
  refine rule_argfd q fun f used => ?_
  simp only [wp_bind, wp_op]
  refine rule_outside (r := rest P) rfl rfl fun F _ => ?_
  split_ifs
  · exact q _ P
  · simp only [wp_bind, wp_op]
    refine rule_outside (r := rest P) rfl rfl fun _ => ?_
    exact rule_reading (r := rest P) (.inr rfl) rfl rfl fun _ => rule_iunlock (q _ P)

lemma wp_fileread (pos : 0 < descriptors P f) {dst : ℕ → Bool} {n : ℕ} : wp (fileread f dst n) Q (rest P) := by
  simp only [fileread, wp_bind, wp_op]
  refine rule_outside (r := rest P) rfl rfl fun F typed => ?_
  split_ifs
  · cases type : F.type with
    | inode =>
      simp only [wp_bind, wp_op]
      refine rule_outside (r := rest P) rfl rfl fun _ => rule_reading (r := rest P) (.inl rfl) rfl rfl fun F _ => ?_
      refine rule_reading (.inr rfl) rfl rfl ?_
      rintro (_ | bs) <;> simp only [wp_bind, wp_op]
      · exact rule_iunlock (q _ P)
      · exact rule_reading (.inl rfl) rfl rfl fun _ => rule_iunlock (q _ P)
    | device => exact q _ P
    | none => exact absurd type (typed pos rfl)
  · exact q _ P

lemma wp_sysRead {dst : ℕ → Bool} {n : ℕ} : wp (sysRead fd dst n) Q (rest P) :=
  rule_argfd q fun _ used => wp_fileread q (descriptors_pos used)

lemma wp_filewrite (pos : 0 < descriptors P f) {src : ℕ → Option UInt8} {n : ℕ} : wp (filewrite f src n) Q (rest P) := by
  simp only [filewrite, wp_bind, wp_op]
  refine rule_outside (r := rest P) rfl rfl fun F typed => ?_
  split_ifs
  · cases type : F.type with
    | inode =>
      simp only [wp_bind]
      exact wp_filewriteLoop fun b => q _ P
    | device => exact q _ P
    | none => exact absurd type (typed pos rfl)
  · exact q _ P

lemma wp_sysWrite {src : ℕ → Option UInt8} {n : ℕ} : wp (sysWrite fd src n) Q (rest P) :=
  rule_argfd q fun _ used => wp_filewrite q (descriptors_pos used)

lemma wp_openFile (used : P.state = .used) {ip : Fin NINODE} {omode : BitVec 32} : wp (openFile ip omode) Q (within (rest P) {ip}) := by
  simp only [openFile, wp_bind, wp_op]
  refine rule_within rfl rfl ⟨rfl, wp_openBad fun v => q v P, fun f => ?_⟩
  simp only [wp_bind, wp_op]
  let r : Holds := { rest P with files := descriptors P + Pi.single f 1, blank := some f }
  refine rule_within (r := r) (L := {ip}) rfl rfl ⟨used, ?_, fun fd (free : P.ofile fd = none) => ?_⟩
  · simp only [wp_bind]
    refine wp_fileclose_blank (r := r) rfl (by simp [r]) ?_
    rw [show drop r f = rest P from drop_alloc]
    exact wp_openBad fun v => q v P
  · simp only [wp_bind, wp_op]
    refine rule_locked (r := { r with proc := setFd P fd (some f) }) (L := {ip}) rfl rfl (by simp) ⟨rfl, ?_⟩
    change rule _ _ (within ⟨setFd P fd (some f), descriptors P + Pi.single f 1, ∅, false, none⟩ {ip})
    rw [rest_put free]
    refine rule_locked rfl rfl (by simp) fun I => ?_
    have last : rule (.iunlock ip) (fun _ => rule .endOp fun _ => Q fd.val) (within (rest (setFd P fd (some f))) {ip}) := by
      refine rule_locked rfl rfl (by simp) ?_
      change rule _ _ (within (rest _) (({ip} : Finset _).erase ip))
      rw [Finset.erase_singleton]
      exact rule_endOp (q _ _)
    split_ifs
    · exact rule_locked rfl rfl (by simp) fun _ => last
    · exact last

lemma wp_sysOpen (used : P.state = .used) {path : Path} {omode : BitVec 32} : wp (sysOpen path omode) Q (rest P) := by
  simp only [sysOpen, wp_bind, wp_op]
  refine rule_outside (r := rest P) rfl rfl ⟨rfl, wp_openInode (r := rest P) ?_ fun ip => ?_⟩
  · exact rule_endOp (q _ P)
  · simp only [wp_bind, wp_op]
    refine rule_locked rfl rfl (by simp) fun I => ?_
    split_ifs
    · exact wp_openBad fun v => q v P
    · exact wp_openFile q used

lemma wp_sysFork {memory : Bool} : wp (sysFork memory) Q (rest P) := by
  rw [sysFork]
  split_ifs
  · simp only [wp_bind, wp_op]
    refine rule_outside (r := rest P) rfl rfl ⟨rfl, fun o => ?_⟩
    cases o <;> exact q _ P
  · exact q _ P

lemma wp_exit : wp exit Q (rest P) := by
  simp only [exit, wp_bind, wp_op]
  refine wp_upto (fun n r => ∃ P', r = rest P' ∧ ∀ fd, fd.val < n → P'.ofile fd = none) ⟨P, rfl, nofun⟩ ?_ ?_
  · rintro n _ Q lt ⟨P, rfl, none⟩ q
    refine wp_exitFd lt (fun free => q _ ⟨P, rfl, fun fd le => ?_⟩) (q _ ⟨_, rfl, fun fd le => ?_⟩)
    · obtain lt | eq := Nat.lt_succ_iff_lt_or_eq.mp le
      · exact none fd lt
      · exact (congrArg P.ofile (Fin.ext eq)).trans free
    · by_cases eq : fd = ⟨n, lt⟩
      · simp [setFd, eq]
      · have ne : fd.val ≠ n := fun h => eq (Fin.ext h)
        simpa [setFd, eq] using none fd (by omega)
  · rintro _ ⟨P, rfl, none⟩
    refine rule_outside (r := rest P) rfl rfl ⟨rfl, rule_within (r := rest P) (L := ∅) rfl rfl fun ip => ?_⟩
    refine wp_iput (rule_endOp (rule_outside rfl rfl ?_))
    refine rule_outside (r := rest { P with cwd := Option.none }) rfl rfl ⟨fun fd => none fd fd.isLt, ?_⟩
    exact q 0 { P with cwd := Option.none, state := .zombie }

/-- Every call ends with what a process holds between calls. -/
lemma wp_call (used : P.state = .used) {op : Op} : wp op.call Q (rest P) := by
  have q' (v : Int) : Q v (outside (rest P)) := q v P
  cases op with
  | «open» path omode => exact wp_sysOpen q used
  | mkdir path => exact wp_sysMknod q'
  | mknod path major minor => exact wp_sysMknod q'
  | link old new => exact wp_sysLink q'
  | unlink path => exact wp_sysUnlink q'
  | chdir path => exact wp_sysChdir q' fun v ip => q v { P with cwd := ip }
  | close fd => exact wp_sysClose q
  | dup fd => exact wp_sysDup q used
  | fstat fd => exact wp_sysFstat q
  | read fd dst n => exact wp_sysRead q
  | write fd src n => exact wp_sysWrite q
  | exec path reads => exact wp_exec q'
  | fork memory => exact wp_sysFork q
  | exit => exact wp_exit q

end

end Xv6.Balance
