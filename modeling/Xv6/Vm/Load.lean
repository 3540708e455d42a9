import Xv6.Vm.Exec

/-!
# Loading a program

What the loop of `exec` over the program headers leaves in memory. An address space is described by the bytes its pages
hold (`Holding`): `uvmalloc` adds pages of zeros, and `loadseg` puts bytes of the file over what is there (`overlay`). If all
went well the memory is the one in which the segments have been placed one after the other (`placed`). The offsets and sizes
that reach `readi` are the `uint` parts of the fields.
-/

namespace Xv6

open Frames Prog

attribute [local irreducible] PTE2PA PA2PTE PTE_FLAGS PX ByteVec.getLE ByteVec.putLE

variable {top : Nat → Option Nat} {h e : Memory} {us : List Nat} {pt : Nat}
  {V : Nat → Prop} {P : String → Prop} {ip : Executable} {mem : Nat → UInt8}

/-! ### The memory that is meant -/

/-- The user can access the page and it holds the bytes `mem`. -/
def Holding (mem : Nat → UInt8) (i fl : Nat) (b : Page) : Prop :=
  UserLeaf i fl b ∧ ∀ o < PGSIZE, b.get8 o = mem (i * PGSIZE + o)

/-- The memory after `n` bytes of the file, those from offset `off` on, have been put at `va`. -/
def overlay (ip : Executable) (off va n : Nat) (mem : Nat → UInt8) (a : Nat) : UInt8 :=
  if va ≤ a ∧ a < va + n then ip.data (off + (a - va)) else mem a

/-- The program header at an offset of the file. -/
def Executable.proghdr (ip : Executable) (off : Nat) : Proghdr := .parse (ip.readi off sizeofProghdr)

/-- The headers that the loop of `exec` reads. -/
def headers (ip : Executable) : Nat → Nat → List Proghdr
  | 0, _ => []
  | n + 1, off => ip.proghdr off :: headers ip n ((off + sizeofProghdr) % 2 ^ 32)

/-- The memory after the segment of a header has been loaded. -/
def place1 (ip : Executable) (mem : Nat → UInt8) (ph : Proghdr) : Nat → UInt8 :=
  if ph.type = ELF_PROG_LOAD then overlay ip (ph.off % 2 ^ 32) ph.vaddr (ph.filesz % 2 ^ 32) mem else mem

/-- The memory after the segments of the headers have been loaded one after the other. -/
def placed (ip : Executable) (phs : List Proghdr) (mem : Nat → UInt8) : Nat → UInt8 := phs.foldl (place1 ip) mem

/-- The headers of the file whose ELF header is `elf`, as `exec` reads them. -/
def Executable.segments (ip : Executable) (elf : ByteVec sizeofElfhdr) : List Proghdr :=
  headers ip (elf.getLE 56 2) (elf.getLE 32 8 % 2 ^ 32)

/-- The segment of a header lies in a memory of `sz` bytes. -/
def Proghdr.Fits (ph : Proghdr) (sz : Nat) : Prop :=
  ph.type = ELF_PROG_LOAD → ph.filesz ≤ ph.memsz ∧ ph.vaddr + ph.memsz ≤ sz

/-- The pages `us` hold the bytes `mem`, and `mem` is zero above them. -/
structure Holds (mem : Nat → UInt8) (top : Nat → Option Nat) (e : Memory) (us : List Nat) (pt : Nat) (h : Memory) : Prop where
  space : Space (Holding mem) top e us pt h
  zero : ∀ a, us.length * PGSIZE ≤ a → mem a = 0

/-- What the loop over the headers `phs` returns and leaves, from a memory of `sz` bytes that is `mem`: an address space, and
if all went well the segments in place. -/
def Loaded (ip : Executable) (phs : List Proghdr) (mem : Nat → UInt8) (sz : Nat) (top : Nat → Option Nat) (e : Memory)
    (pt : Nat) (res : Bool × Nat) (h : Memory) : Prop :=
  ∃ us, us.length = pages res.2 ∧ ((res.1 = false ∧ Space UserLeaf top e us pt h) ∨
    (res.1 = true ∧ sz ≤ res.2 ∧ (∀ ph ∈ phs, ph.Fits res.2) ∧ Holds (placed ip phs mem) top e us pt h))

@[simp]
lemma overlay_zero {off va} : overlay ip off va 0 mem = mem := by
  funext a
  rw [overlay, if_neg (by omega)]

lemma overlay_overlay {off va n k} : overlay ip (off + n) (va + n) k (overlay ip off va n mem) =
    overlay ip off va (n + k) mem := by
  funext a
  simp only [overlay]
  by_cases next : va + n ≤ a ∧ a < va + n + k
  · rw [if_pos next, if_pos (by omega)]
    congr 1
    omega
  · rw [if_neg next]
    by_cases first : va ≤ a ∧ a < va + n
    · rw [if_pos first, if_pos (by omega)]
    · rw [if_neg first, if_neg (by omega)]

lemma Space.userLeaf (s : Space (Holding mem) top e us pt h) : Space UserLeaf top e us pt h := s.mono fun _ ok => ok.1

lemma Loaded.stop {phs sz sz'} (s : Space UserLeaf top e us pt h) (len : us.length = pages sz') :
    Loaded ip phs mem sz top e pt (false, sz') h := ⟨us, len, .inl ⟨rfl, s⟩⟩

lemma Loaded.cons {phs ph sz sz' res} (le : sz ≤ sz') (fits : ph.Fits sz')
    (rest : Loaded ip phs (place1 ip mem ph) sz' top e pt res h) : Loaded ip (ph :: phs) mem sz top e pt res h := by
  obtain ⟨us, len, failed | ⟨ok, le', fits', held⟩⟩ := rest
  · exact ⟨us, len, .inl failed⟩
  · refine ⟨us, len, .inr ⟨ok, Nat.le_trans le le', List.forall_mem_cons.2 ⟨fun load => ?_, fits'⟩, held⟩⟩
    obtain ⟨lf, lv⟩ := fits load
    exact ⟨lf, Nat.le_trans lv le'⟩

/-! ### Parts of the file -/

lemma Executable.readi_full {off n} (pos : 0 < n) (full : (ip.readi off n).length = n) :
    off + n ≤ ip.size ∧ ip.readi off n = (List.range n).map fun i => ip.data (off + i) := by
  rw [readi] at full ⊢
  split at full
  · exact absurd full (Nat.ne_of_lt pos)
  · rename_i inside
    rw [List.length_map, List.length_range] at full
    rw [if_neg inside, full]
    exact ⟨by omega, rfl⟩

lemma flags2perm_ok {flags i b} : flags2perm flags < 2 ^ 10 ∧
    UserLeaf i (PTE_R ||| PTE_U ||| flags2perm flags ||| PTE_V) b := by
  simp only [flags2perm, UserLeaf, Leaf]
  split_ifs <;> decide

lemma Proghdr.parse_lt (bs) : (parse bs).vaddr < 2 ^ 64 ∧ (parse bs).memsz < 2 ^ 64 :=
  ⟨ByteVec.getLE_lt, ByteVec.getLE_lt⟩

lemma get8_readInto {b : Page} {off n o} (le : n ≤ PGSIZE) :
    (b.putBytes 0 ((List.range n).map fun k => ip.data (off + k))).get8 o =
      if o < n then ip.data (off + o) else b.get8 o := by
  have len : ((List.range n).map fun k => ip.data (off + k)).length = n := by simp
  split
  · rename_i lt
    rw [ByteVec.get8_putBytes (by omega) (Nat.zero_le o) (by omega), Nat.sub_zero]
    simp [List.getD, lt]
  · rw [ByteVec.get8_putBytes_ne (by omega)]

lemma Space.readInto {va n x} {page : Page} (s : Space (Holding mem) top e us pt h) (ip : Executable) (off : Nat)
    (al : va % PGSIZE = 0) (le : n ≤ PGSIZE) (at_x : us[va / PGSIZE]? = some x) (bytes : ∀ o < PGSIZE, page.get8 o = mem (va + o)) :
    Space (Holding (overlay ip off va n mem)) top e us pt
      (Function.update h x (some (page.putBytes 0 ((List.range n).map fun k => ip.data (off + k))))) := by
  have base : va / PGSIZE * PGSIZE = va := by
    simp only [PGSIZE] at al ⊢
    omega
  refine s.write (List.mem_of_getElem? at_x) ?_ ?_
  · rintro i fl c at_i ⟨leaf, -⟩
    obtain ⟨m, r, t, u⟩ := s.table
    obtain ⟨lt, eq⟩ := List.getElem?_eq_some_iff.1 at_i
    obtain ⟨lt', eq'⟩ := List.getElem?_eq_some_iff.1 at_x
    obtain rfl : i = va / PGSIZE := (u.nodup.getElem_inj_iff).1 (eq.trans eq'.symm)
    refine ⟨leaf, fun o lo => ?_⟩
    rw [get8_readInto le, base, overlay]
    by_cases first : o < n
    · rw [if_pos first, if_pos (by omega), Nat.add_sub_cancel_left]
    · rw [if_neg first, if_neg (by omega), bytes o lo]
  · rintro i fl c other ⟨leaf, same⟩
    refine ⟨leaf, fun o lo => ?_⟩
    have ne : i ≠ va / PGSIZE := by
      rintro rfl
      exact other at_x
    rw [same o lo, overlay, if_neg]
    simp only [PGSIZE] at base le lo ne ⊢
    omega

section Rules

variable (hV : ∀ c, V c → Kinit c) (hu : ∀ {v pte}, top v = some pte → pte &&& PTE_U = 0)
include hV hu

/-- `loadseg` into user pages that are mapped: it does not panic, and if it returns 0 the bytes of the file are there. -/
lemma wp_loadsegFrom {va offset sz i} (s : Space (Holding mem) top e us pt h) (al : va % PGSIZE = 0)
    (fit : va + sz ≤ us.length * PGSIZE) (page : i % PGSIZE = 0) (small : i < sz → offset + i < 2 ^ 32) :
    wp V P (loadsegFrom pt va ip offset sz i) (fun res h' =>
      (res = 0 ∧ (i < sz → offset + sz ≤ ip.size) ∧
        Space (Holding (overlay ip (offset + i) (va + i) (sz - i) mem)) top e us pt h') ∨
      (res = -1 ∧ Space UserLeaf top e us pt h')) h := by
  induction n : sz - i using Nat.strong_induction_on generalizing i h mem with
  | _ n ih =>
    rw [loadsegFrom]
    split
    · rename_i lt
      have length := s.length_le
      have nowrap : (va + i) % 2 ^ 64 = va + i := by
        simp only [PGSIZE] at fit
        omega
      have start : (va + i) % PGSIZE = 0 := by rw [Nat.add_mod, al, page, Nat.add_zero, Nat.zero_mod]
      have t := s.userTable hu
      obtain ⟨x, fl, b, at_x, hb, ⟨leaf, bytes⟩, found⟩ := s.userFrame_eq (show va + i < us.length * PGSIZE by omega)
      have base : (va + i) / PGSIZE * PGSIZE = va + i := by
        simp only [PGSIZE] at start ⊢
        omega
      rw [base] at bytes
      rw [if_neg leaf.2] at found
      simp only [wp_bind]
      refine wp_mono (wp_walkaddr (fun c v => (hV c v).frame) t.tree) ?_
      rintro pa h' ⟨rfl, rfl⟩
      rw [nowrap, found, Option.getD_some, if_neg (t.user found).1, Nat.mod_eq_of_lt (small lt)]
      simp only [wp_bind, wp_load, wp_store]
      refine ⟨b, hb, ⟨b, hb⟩, ?_⟩
      generalize hk : (if sz - i < PGSIZE then sz - i else PGSIZE) = k
      have hk' : k = min (sz - i) PGSIZE := by
        rw [← hk]
        split <;> omega
      have pos : 0 < k := by
        simp only [PGSIZE] at hk'
        omega
      split
      · refine .inr ⟨rfl, s.userLeaf.write (List.mem_of_getElem? at_x) (fun _ ok => ok) fun _ ok => ok⟩
      · rename_i full
        obtain ⟨inside, eq⟩ := ip.readi_full pos (not_not.1 full)
        rw [eq]
        have s' := s.readInto ip (offset + i) start (show k ≤ PGSIZE by omega) at_x bytes
        refine wp_mono (ih _ ?_ s' ?_ ?_ rfl) ?_
        · simp only [PGSIZE] at hk' ⊢
          omega
        · rw [Nat.add_mod_right, page]
        · intro more
          rw [hk', Nat.min_eq_right (by omega)] at inside
          exact Nat.lt_of_le_of_lt (Nat.add_assoc .. ▸ inside) ip.size_lt
        · rintro res h' (⟨rfl, rest, s''⟩ | failed)
          · refine .inl ⟨rfl, fun _ => ?_, ?_⟩
            · by_cases more : i + PGSIZE < sz
              · exact rest more
              · omega
            · rw [← n]
              by_cases more : i + PGSIZE < sz
              · rw [show sz - i = PGSIZE + (sz - (i + PGSIZE)) by omega, ← overlay_overlay]
                rw [show k = PGSIZE by omega] at s''
                simpa only [Nat.add_assoc] using s''
              · rw [show sz - (i + PGSIZE) = 0 by omega, overlay_zero] at s''
                rwa [show sz - i = k by omega]
          · exact .inr failed
    · rename_i done
      rw [← n, show sz - i = 0 by omega, overlay_zero]
      exact .inl ⟨rfl, fun lt => absurd lt done, s⟩

variable (ht : ∀ v, v < TRAPFRAME → top v = none)
include ht

lemma wp_loadSegments {n off sz} (held : Holds mem top e us pt h) (len : us.length = pages sz) :
    wp V P (loadSegments pt ip n off sz) (Loaded ip (headers ip n off) mem sz top e pt) h := by
  induction n generalizing off sz us h mem with
  | zero => exact ⟨us, len, .inr ⟨rfl, Nat.le_refl sz, by simp [headers], held⟩⟩
  | succ n ih =>
    have stop : ∀ {phs}, Loaded ip phs mem sz top e pt (false, sz) h := .stop held.space.userLeaf len
    rw [loadSegments, headers]
    dsimp only
    split
    · exact stop
    have fold : Proghdr.parse (ip.readi off sizeofProghdr) = ip.proghdr off := rfl
    simp only [fold]
    obtain ⟨lv, lm⟩ : (ip.proghdr off).vaddr < 2 ^ 64 ∧ (ip.proghdr off).memsz < 2 ^ 64 := Proghdr.parse_lt _
    generalize ip.proghdr off = ph at lv lm ⊢
    split
    · rename_i skip
      refine wp_mono (ih held len) fun res h' rest => .cons (Nat.le_refl sz) (fun load => absurd load skip) ?_
      rwa [place1, if_neg skip]
    split
    · exact stop
    split
    · exact stop
    split
    · exact stop
    rename_i load lf nowrap al
    have end_eq : (ph.vaddr + ph.memsz) % 2 ^ 64 = ph.vaddr + ph.memsz := by omega
    rw [end_eq, wp_bind]
    refine wp_mono (wp_uvmalloc hV ht (fun fl => fl.1.1.ne_valid) held.space len (flags2perm_ok (i := 0) (b := fun _ => 0)).1
      fun {i} le => ⟨flags2perm_ok.2, fun o _ => ?_⟩) ?_
    · rw [ByteVec.get8_zero, held.zero]
      exact Nat.le_trans (Nat.mul_le_mul_right PGSIZE le) (Nat.le_add_right _ o)
    rintro sz1 h₁ (⟨eq, us₁, pre, len₁, s₁⟩ | ⟨rfl, s₁⟩)
    · split
      · rename_i z
        obtain rfl : sz = 0 := by omega
        exact .stop s₁.userLeaf (z ▸ len₁)
      · have fit := le_pages sz1
        rw [← len₁] at fit
        have lt := Nat.mod_le ph.filesz (2 ^ 32)
        rw [wp_bind]
        refine wp_mono (wp_loadsegFrom hV hu s₁ (not_not.1 al) (by omega) (Nat.zero_mod _) fun _ => ?_) ?_
        · exact Nat.mod_lt _ (by decide)
        rintro res h₂ (⟨rfl, -, s₂⟩ | ⟨rfl, s₂⟩)
        · rw [if_neg (by decide)]
          have held₂ : Holds (place1 ip mem ph) top e us₁ pt h₂ := by
            refine ⟨?_, fun a above => ?_⟩
            · rwa [place1, if_pos (not_not.1 load)]
            · have more := pre.length_le
              rw [place1, if_pos (not_not.1 load), overlay, if_neg (by omega), held.zero a]
              exact Nat.le_trans (Nat.mul_le_mul_right PGSIZE more) above
          exact wp_mono (ih held₂ len₁) fun res h' rest => .cons (by omega) (fun _ => ⟨by omega, by omega⟩) rest
        · rw [if_pos (by decide)]
          exact .stop s₂ len₁
    · rw [if_pos rfl]
      exact .stop s₁.userLeaf len

end Rules

attribute [local irreducible] procPagetable loadSegments procFreepagetable

/-- The part of `exec` that reads the file changes nothing, or leaves the program in memory. -/
lemma wp_execLoad {tf} (hV : ∀ c, V c → Kinit c) (kin : ∀ {x}, h x ≠ none → Kinit x) (ktf : Kinit tf) :
    wp V P (execLoad ip tf) (fun res h' => (res = none ∧ h' = h) ∨ ∃ elf pt sz us, ip.elfhdr = some elf ∧
      res = some (elf.getLE 24 8, pt, sz) ∧ us.length = pages sz ∧ (∀ ph ∈ ip.segments elf, ph.Fits sz) ∧
      Holds (placed ip (ip.segments elf) fun _ => 0) (kernelTop tf) h us pt h') h := by
  have ht : ∀ v, v < TRAPFRAME → kernelTop tf v = none := fun v lt => kernelTop_none lt
  rw [execLoad]
  cases hdr : ip.elfhdr with
  | none => exact .inl ⟨rfl, rfl⟩
  | some elf =>
    dsimp only
    split
    · exact .inl ⟨rfl, rfl⟩
    rw [wp_bind]
    refine wp_mono (wp_procPagetable (F := Holding fun _ => 0) hV (fun fl => fl.1.1.ne_valid) kin ktf) ?_
    rintro res h₁ (⟨rfl, rfl⟩ | ⟨pt, rfl, s⟩)
    · exact .inl ⟨rfl, rfl⟩
    simp only [wp_bind]
    refine wp_mono (wp_loadSegments hV kernelTop_user ht ⟨s, fun _ _ => rfl⟩ rfl) ?_
    rintro ⟨ok, sz⟩ h₂ ⟨us, len, ⟨rfl, s₂⟩ | ⟨rfl, -, fits, held⟩⟩
    · rw [if_pos rfl, wp_bind]
      exact wp_mono (wp_procFreepagetable hV (fun fl => fl.1.ne_valid) s₂ len) fun _ h' eq => .inl ⟨rfl, eq⟩
    · dsimp only
      rw [if_neg (by decide)]
      exact .inr ⟨elf, pt, sz, us, rfl, rfl, len, fits, held⟩

end Xv6
