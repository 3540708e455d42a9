import Xv6.Fs.Path
import Xv6.Fs.Content
import Xv6.Vm.Program

/-!
# `exec` with the file system

`exec` of `kernel/exec.c` from the path to the new image, on the page frames of the process and the file system. It begins a
transaction, looks the path up and locks the inode; once the program is loaded, or cannot be, it drops the inode and ends the
transaction. Whatever the file contains and wherever memory runs out, nothing is left of an `exec` that fails, and nothing of the
old image after one that succeeds (`exec_all_or_nothing`); but `iget` panics if the table of inodes is full
(`exec_full_table`).
-/

namespace Xv6

/-- The text of a panic of the file system. -/
def Fs.Panic.text : Fs.Panic → String
  | .freeingFreeBlock => "freeing free block"
  | .igetNoInodes => "iget: no inodes"
  | .ilock => "ilock"
  | .ilockNoType => "ilock: no type"
  | .iunlock => "iunlock"
  | .bmapOutOfRange => "bmap: out of range"
  | .dirlookupNotDir => "dirlookup not DIR"
  | .dirlookupRead => "dirlookup read"
  | .dirlinkRead => "dirlink read"
  | .isdirempty => "isdirempty: readi"
  | .unlinkNlink => "unlink: nlink < 1"
  | .unlinkWritei => "unlink: writei"
  | .filedup => "filedup"
  | .fileclose => "fileclose"
  | .fileread => "fileread"
  | .filewrite => "filewrite"
  | .kerneltrap => "kerneltrap"

def Fs.Stop.text : Fs.Stop → String
  | .panic msg => msg.text
  | .wait => "waits for a lock"

/-- The contents of an inode in memory. -/
def Fs.State.executable (sb : Fs.Superblock) (s : Fs.State) (ip : Fin NINODE) : Executable where
  size := (s.itable ip).din.size % 2 ^ 32
  data := (s.disk.node sb (s.itable ip).inum).byte
  size_lt := Nat.mod_lt _ (by decide)

/-- A call of the file system, which process `p` runs while no other does. -/
def fsCall {α : Type} (sb : Fs.Superblock) (p : Fin NPROC) (m : Fs.Call α) (k : Fs.Kernel) : Kernel (α × Fs.Kernel) :=
  match Fs.alone sb p m k with
  | .ok r => pure r
  | .error e => .panic e.text

/-- What `exec` changes of a process. -/
structure UserProc where
  pagetable : Nat
  trapframe : Nat
  sz : Nat
  name : List UInt8

/-- The part of a path after the last slash. -/
def lastPart (path : List UInt8) : List UInt8 := path.foldl (fun last c => if c = 47 then [] else last ++ [c]) []

/-- `exec` by process `p`, with the arguments in the pages `argv`. Returns `argc`, or -1 on error. -/
def execCall (sb : Fs.Superblock) (p : Fin NPROC) (path : Fs.Path) (argv : List Nat) (P : UserProc) (k : Fs.Kernel) :
    Kernel (Int × UserProc × Fs.Kernel) := do
  let (r, k) ← fsCall sb p (do Fs.Instr.beginOp; Calls.namei path) k
  match r with
  | none =>
    let (_, k) ← fsCall sb p Fs.Instr.endOp k
    pure (-1, P, k)
  | some ip =>
    let (_, k) ← fsCall sb p (Fs.Instr.ilock ip) k
    let loaded ← execLoad (k.fs.executable sb ip) P.trapframe
    let (_, k) ← fsCall sb p (do Calls.iunlockput ip; Fs.Instr.endOp) k
    match loaded with
    | none => pure (-1, P, k)
    | some (entry, pagetable, sz) =>
      match ← execFinish entry pagetable sz argv P.trapframe P.pagetable P.sz with
      | none => pure (-1, P, k)
      | some image =>
        -- `safestrcpy` into the 16 bytes of `p->name`
        let name := (lastPart path.chars).take 15
        pure (image.argc, { P with pagetable := image.pagetable, sz := image.sz, name := name }, k)

namespace Fs

open Fallible

variable {sb : Superblock} {k k₀ : Kernel} {r : Multiset (Fin NINODE)} {p : Fin NPROC} {ip : Fin NINODE} {c : Fin NINODE}

lemma Inv.size_lt (i : Inv sb k.fs r) (pos : 0 < (k.fs.itable ip).ref) (valid : (k.fs.itable ip).valid) :
    (k.fs.itable ip).din.size < 2 ^ 32 := by
  obtain ⟨clean, alloc⟩ := i.clean pos valid
  have mapped := i.image.owned.mapped _ (i.inum pos) (clean ▸ alloc)
  rw [clean]
  exact Nat.lt_of_le_of_lt mapped.1 (by decide)

lemma Inv.executable_eq (i : Inv sb k.fs r) (pos : 0 < (k.fs.itable ip).ref) (valid : (k.fs.itable ip).valid) :
    (k.fs.executable sb ip).size = (k.fs.disk.node sb (k.fs.itable ip).inum).size ∧
      (k.fs.executable sb ip).data = (k.fs.disk.node sb (k.fs.itable ip).inum).byte := by
  refine ⟨?_, rfl⟩
  change (k.fs.itable ip).din.size % 2 ^ 32 = (k.fs.disk.inodes (k.fs.itable ip).inum).size
  rw [Nat.mod_eq_of_lt (i.size_lt pos valid), (i.clean pos valid).1]

/-- What `readi` of a locked inode returns is what the model of `exec` reads, and nothing changes. -/
lemma readi_executable {off n : ℕ} (i : Inv sb k.fs r) (pos : 0 < (k.fs.itable ip).ref) (valid : (k.fs.itable ip).valid) :
    alone sb p (Instr.readi ip (fun _ => true) off n) k = .ok (some ((k.fs.executable sb ip).readi off n), k) := by
  obtain ⟨clean, alloc⟩ := i.clean pos valid
  have read : readi sb ip (fun _ => true) off n k.fs = _ := readi_eq i.image.owned clean (i.inum pos) alloc
  rw [alone_op, Instr.exec, lift, read, Node.readi, Executable.readi, ← (i.executable_eq pos valid).1]
  by_cases out : off > (k.fs.executable sb ip).size ∨ (off + n) % 2 ^ 32 < off
  · rw [if_pos out, if_pos out]
  · rw [if_neg out, if_neg out]
    exact congrArg (fun bs => Except.ok (bs, k)) (if_pos fun _ _ => rfl)

lemma wp_beginNamei (i : Inv sb k.fs r) (T : Tree sb k.fs) (free : ∀ ip, k.lock ip = none) (cwd : (k.fs.procs p).cwd = some c)
    (held : c ∈ r) (stays : k.fs.Stays sb (k.fs.itable c).inum) (path : Path) :
    wp (Crowded k.fs) (alone sb p (do Instr.beginOp; Calls.namei path)) (fun found k' =>
      (found.map fun ip => (k'.fs.itable ip).inum) = k.fs.disk.resolve sb (k.fs.origin c path) (components path.chars) ∧
      Along sb { k with ops := Function.update k.ops p (k.ops p + 1) } r (holds r found) k.lock k' ∧
      ∀ ip, found = some ip → k.fs.Stays sb (k'.fs.itable ip).inum) k := by
  rw [alone_bind, alone_op, wp_bind]
  simp only [Instr.exec, wp_modify]
  rw [Calls.namei, alone_bind, wp_bind]
  refine wp_mono (wp_namex i T free cwd held stays) ?_
  rintro found k' ⟨eq, a, kept⟩
  refine ⟨?_, a, fun ip get => ?_⟩
  · simpa [Found, State.origin, Option.map_map, Function.comp_def] using eq
  · obtain ⟨x, at_x, rfl⟩ := Option.map_eq_some_iff.1 get
    exact kept x at_x

lemma wp_endOp {k' : Kernel} {Q : Unit → Kernel → Prop} {P : Stop → Prop} (i : Inv sb k.fs r)
    (a : Along sb { k with ops := Function.update k.ops p (k.ops p + 1) } r r k.lock k')
    (q : ∀ k'', Leaves k none k'' → Q () k'') : wp P (Instr.exec sb p .endOp) Q k' := by
  obtain ⟨disk, ftable, procs, lock, ops, refs⟩ := Along.leaves (k := { k with ops := Function.update k.ops p (k.ops p + 1) })
    (r := none) i a
  simp only [Instr.exec, wp_modify]
  refine q _ ⟨disk, ftable, procs, lock, ?_, refs⟩
  dsimp only at ops ⊢
  rw [ops, Function.update_self, Nat.add_sub_cancel, Function.update_idem, Function.update_eq_self]

end Fs

open Frames Prog

variable {V : Nat → Prop} {Q : String → Prop} {h e : Memory} {us : List Nat} {sb : Fs.Superblock} {k : Fs.Kernel}
  {r : Multiset (Fin Fs.NINODE)} {p : Fin NPROC} {c : Fin Fs.NINODE} {P : UserProc} {argv : List Nat} {strs : List (List UInt8)}
  {page : Page}

lemma wp_fsCall {α : Type} {m : Fs.Call α} {R : α × Fs.Kernel → Memory → Prop}
    (w : Fallible.wp (fun e => Q e.text) (Fs.alone sb p m) (fun a k' => R (a, k') h) k) : wp V Q (fsCall sb p m k) R h := by
  rw [fsCall]
  cases eq : Fs.alone sb p m k with
  | ok x => exact (Fallible.wp_ok eq).1 w
  | error e => exact (Fallible.wp_error eq).1 w

/-- `exec` has replaced the image of the process. -/
def Replaced (sb : Fs.Superblock) (k : Fs.Kernel) (n : ℕ) (path : Fs.Path) (strs : List (List UInt8)) (page : Page)
    (e h : Memory) (P : UserProc) (res : Int) (P' : UserProc) (h' : Memory) : Prop :=
  ∃ ip elf sp us', ip.size = (k.fs.disk.node sb n).size ∧ ip.data = (k.fs.disk.node sb n).byte ∧ ip.elfhdr = some elf ∧
    Installed ip elf strs P.trapframe page e h ⟨P'.pagetable, P'.sz, strs.length⟩ sp us' h' ∧ res = strs.length ∧
    P'.trapframe = P.trapframe ∧ P'.name = (lastPart path.chars).take 15

/-- For every file and every path, wherever memory runs out: `exec` fails and all is as before, or it installs the image of the
file and nothing is left of the old one; there are as many references to every inode as before and no transaction is open. It
panics only if there are no two free entries in the table of inodes. -/
theorem exec_all_or_nothing (hV : ∀ c, V c → Kinit c) (s : Space Leaf (kernelTop P.trapframe) e us P.pagetable h)
    (len : us.length = pages P.sz) (get : e P.trapframe = some page) (args : List.Forall₂ (StringPage e) argv strs)
    (few : argv.length < MAXARG) (i : Fs.Inv sb k.fs r) (T : Fs.Tree sb k.fs) (free : ∀ ip, k.lock ip = none)
    (cwd : (k.fs.procs p).cwd = some c) (held : c ∈ r) (stays : k.fs.Stays sb (k.fs.itable c).inum) (path : Fs.Path) :
    wp V (fun msg => msg = "iget: no inodes" ∧ ¬k.fs.Spare) (execCall sb p path argv P k) (fun x h' =>
      Fs.Leaves k none x.2.2 ∧ ((x.1 = -1 ∧ x.2.1 = P ∧ h' = h) ∨
        ∃ n, k.fs.disk.resolve sb (k.fs.origin c path) (Fs.components path.chars) = some n ∧
          Replaced sb k n path strs page e h P x.1 x.2.1 h')) h := by
  have crowded : ∀ e, Fs.Crowded k.fs e → e.text = "iget: no inodes" ∧ ¬k.fs.Spare := by
    rintro e ⟨rfl, full⟩
    exact ⟨rfl, full⟩
  rw [execCall, wp_bind]
  refine wp_fsCall (Fallible.wp_mono ((Fs.wp_beginNamei i T free cwd held stays path).error crowded) ?_)
  rintro found k₁ ⟨resolved, a, kept⟩
  dsimp only
  cases found with
  | none =>
    rw [wp_bind]
    refine wp_fsCall ?_
    rw [Fs.alone_op]
    exact Fs.wp_endOp i a fun k₂ leaves => ⟨leaves, .inl ⟨rfl, rfl, rfl⟩⟩
  | some ip =>
    have stays₁ := kept ip rfl
    rw [wp_bind]
    refine wp_fsCall ?_
    rw [Fs.alone_op]
    refine Fs.wp_ilock a (Multiset.le_cons_self r ip) (Multiset.mem_cons_self ip r) (free ip) stays₁ fun k₂ a₂ valid inum => ?_
    have pos := a₂.inv.ref_pos (Multiset.mem_cons_self ip r)
    have hget := (s.of_extra get).2.2
    dsimp only
    rw [wp_bind]
    refine wp_mono (wp_execLoad hV s.kinit (s.kinit (by simp [hget]))) fun loaded h₁ post => ?_
    -- the inode is dropped, whether or not the program has been loaded
    rw [wp_bind]
    refine wp_fsCall ?_
    rw [Fs.alone_bind, Fallible.wp_bind]
    refine Fs.wp_iunlockput a₂ i (le_refl r) (free ip) (inum ▸ stays₁) fun k₃ a₃ _ => ?_
    rw [Fs.alone_op]
    refine Fs.wp_endOp i a₃ fun k₄ leaves => ?_
    dsimp only
    obtain ⟨rfl, rfl⟩ | ⟨elf, pt, sz, un, hdr, rfl, lenn, fits, new⟩ := post
    · exact ⟨leaves, .inl ⟨rfl, rfl, rfl⟩⟩
    dsimp only
    rw [wp_bind]
    refine wp_mono (wp_execFinish hV s len get args few lenn fits new) ?_
    rintro res h' (⟨rfl, rfl⟩ | ⟨im, sp, us', rfl, new⟩)
    · exact ⟨leaves, .inl ⟨rfl, rfl, rfl⟩⟩
    obtain ⟨size, data⟩ := a₂.inv.executable_eq pos valid
    rw [a₂.disk, inum] at size data
    refine ⟨leaves, .inr ⟨_, resolved.symm, _, elf, sp, us', size, data, hdr, ?_, congrArg Nat.cast new.argc, rfl, rfl⟩⟩
    rw [← new.argc]
    exact new

/-- A process with one argument calls `exec` of the root directory, while there is room in the table of inodes. -/
theorem exec_root_directory : ∃ pt tf arg h e page, Space Leaf (kernelTop tf) e [] pt h ∧ e tf = some page ∧
    StringPage e arg [] ∧ (Fs.dirsState 1).Spare ∧
    wp (fun _ => False) (fun msg => msg = "iget: no inodes" ∧ ¬(Fs.dirsState 1).Spare)
      (execCall Fs.dirsSb 0 Fs.rootPath [arg] ⟨pt, tf, 0, []⟩ (Fs.dirsKernel 1)) (fun x h' =>
        Fs.Leaves (Fs.dirsKernel 1) none x.2.2 ∧ ((x.1 = -1 ∧ x.2.1 = ⟨pt, tf, 0, []⟩ ∧ h' = h) ∨
          ∃ n, (Fs.dirsState 1).disk.resolve Fs.dirsSb ((Fs.dirsState 1).origin 0 Fs.rootPath) (Fs.components Fs.rootPath.chars) =
              some n ∧
            Replaced Fs.dirsSb (Fs.dirsKernel 1) n Fs.rootPath [[]] page e h ⟨pt, tf, 0, []⟩ x.1 x.2.1 h')) h := by
  obtain ⟨pt, tf, arg, h, e, s, frame, string⟩ := exists_argProcess
  obtain ⟨page, get⟩ := Option.ne_none_iff_exists'.1 frame
  exact ⟨pt, tf, arg, h, e, page, s, get, string, ⟨1, 2, by decide, rfl, rfl⟩,
    @exec_all_or_nothing _ h e [] Fs.dirsSb (Fs.dirsKernel 1) (Fs.dirsRefs 1) 0 0 ⟨pt, tf, 0, []⟩ [arg] [[]] page
      (fun _ => False.elim) s pages_zero.symm get (.cons string .nil) (show 1 < MAXARG by decide) (Fs.dirsState_inv 1)
      (Fs.dirsState_tree 1) (fun _ => rfl) rfl (by decide) (Fs.dirsState_stays (by decide)) Fs.rootPath⟩

/-- The table of inodes is full: `exec` panics. -/
theorem exec_full_table : ∃ pt tf h e, Space Leaf (kernelTop tf) e [] pt h ∧ e tf ≠ none ∧
    Fs.Inv Fs.dirsSb (Fs.dirsState Fs.NINODE) (Fs.dirsRefs Fs.NINODE) ∧ Fs.Tree Fs.dirsSb (Fs.dirsState Fs.NINODE) ∧
    execCall Fs.dirsSb 0 Fs.rootPath [] ⟨pt, tf, 0, []⟩ (Fs.dirsKernel Fs.NINODE) = .panic "iget: no inodes" := by
  obtain ⟨pt, tf, arg, h, e, s, frame, -⟩ := exists_argProcess
  refine ⟨pt, tf, h, e, s, frame, Fs.dirsState_inv _, Fs.dirsState_tree _, ?_⟩
  have stops : Fs.alone Fs.dirsSb 0 (do Fs.Instr.beginOp; Calls.namei Fs.rootPath) (Fs.dirsKernel Fs.NINODE) =
      .error (.panic .igetNoInodes) := by
    rw [Fs.alone_bind, Fs.alone_op]
    exact Fs.namei_panics (Function.update (fun _ => 0) 0 1)
  rw [execCall, fsCall, stops]
  rfl

end Xv6
