import Xv6.Vm.Copy

/-!
# The memory a process sees

Every address that the user can access has a place in memory: a frame, and an offset there. A store through the page table
changes one place (`byteAt_poke`). If different addresses have different places, as in an address space, the kernel's `copyout`
is `copyout` on the memory that the process sees (`wp_copyout_view`).
-/

namespace Xv6

open Frames Prog

attribute [local irreducible] PTE2PA PA2PTE PTE_FLAGS PX ByteVec.getLE ByteVec.putLE

variable {h : Memory} {pt a : Nat} {V : Nat → Prop} {P : String → Prop}

/-- Where in memory the byte at an address is: the frame, and the offset there. -/
def place (h : Memory) (pt va : Nat) : Option (Nat × Nat) := (userFrame h pt va).map fun x => (x, va % PGSIZE)

def byteAt (h : Memory) (l : Nat × Nat) : Option UInt8 := (h l.1).map fun page => page.get8 l.2

lemma view_byte_eq {va} : (view h pt).byte va = (place h pt va).bind (byteAt h) := by
  rw [view_byte, place, Option.bind_map]
  rfl

/-! ### Storing one byte -/

lemma UserTable.poke_eq {b x} (t : UserTable h pt) (get : userFrame h pt a = some x) :
    ∃ page, h x = some page ∧ poke h pt a b = Function.update h x (some (page.put8 (a % PGSIZE) b)) := by
  obtain ⟨page, hx⟩ := Option.ne_none_iff_exists'.1 (t.user get).2.1
  refine ⟨page, hx, ?_⟩
  rw [poke, get]
  dsimp only
  rw [hx, Option.map_some]

lemma UserTable.userFrame_poke {b va} (t : UserTable h pt) : userFrame (poke h pt a b) pt va = userFrame h pt va := by
  cases get : userFrame h pt a with
  | none => rw [poke, get]
  | some x =>
    obtain ⟨page, -, eq⟩ := t.poke_eq (b := b) get
    rw [eq, userFrame_update (t.user get).2.2]

lemma UserTable.poke {b} (t : UserTable h pt) : UserTable (poke h pt a b) pt := by
  cases get : userFrame h pt a with
  | none => rwa [Xv6.poke, get]
  | some x =>
    obtain ⟨page, -, eq⟩ := t.poke_eq (b := b) get
    rw [eq]
    exact t.update (t.user get).2.2

lemma byteAt_poke {b l} (t : UserTable h pt) (at_a : place h pt a = some l) : byteAt (poke h pt a b) l = some b := by
  obtain ⟨x, get, rfl⟩ := Option.map_eq_some_iff.1 at_a
  obtain ⟨page, -, eq⟩ := t.poke_eq (b := b) get
  rw [byteAt, eq, Function.update_self, Option.map_some, ByteVec.get8_put8 (Nat.mod_lt _ (by decide))]

lemma byteAt_poke_ne {b l} (t : UserTable h pt) (ne : place h pt a ≠ some l) : byteAt (poke h pt a b) l = byteAt h l := by
  cases get : userFrame h pt a with
  | none => rw [poke, get]
  | some x =>
    obtain ⟨page, hx, eq⟩ := t.poke_eq (b := b) get
    rw [byteAt, eq, byteAt]
    by_cases at_x : l.1 = x
    · have off : l.2 ≠ a % PGSIZE := by
        intro off
        rw [place, get] at ne
        exact ne (congrArg some (Prod.ext at_x.symm off.symm))
      rw [at_x, Function.update_self, hx, Option.map_some, Option.map_some, ByteVec.get8_put8_ne off]
    · rw [Function.update_of_ne at_x]

lemma view_poke {b x} (t : UserTable h pt)
    (inj : ∀ {va va' l}, place h pt va = some l → place h pt va' = some l → va = va') (get : userFrame h pt a = some x) :
    view (poke h pt a b) pt = (view h pt).store a [b] := by
  have at_a : place h pt a = some (x, a % PGSIZE) := by rw [place, get, Option.map_some]
  refine UserMemory.ext (funext fun va => ?_)
  have same : place (poke h pt a b) pt va = place h pt va := by rw [place, place, t.userFrame_poke]
  rw [view_byte_eq, same]
  by_cases eq : va = a
  · have acc : (view h pt).Accessible a := t.accessible.2 (by simp [get])
    rw [eq, at_a, Option.bind_some, byteAt_poke t at_a, UserMemory.byte_store_self acc]
  · rw [UserMemory.byte_store_ne (by rw [List.length_singleton]; omega), view_byte_eq]
    cases at_va : place h pt va with
    | none => rfl
    | some l =>
      rw [Option.bind_some, Option.bind_some, byteAt_poke_ne t]
      intro at_l
      exact eq (inj at_va at_l)

section Space

variable {F : Nat → Nat → Page → Prop} {top : Nat → Option Nat} {e : Memory} {us : List Nat}

lemma Space.page_inj {va va' x} (s : Space F top e us pt h) (hu : ∀ {v pte}, top v = some pte → pte &&& PTE_U = 0)
    (get : userFrame h pt va = some x) (get' : userFrame h pt va' = some x) : va / PGSIZE = va' / PGSIZE := by
  obtain ⟨l, g⟩ := List.getElem?_eq_some_iff.1 (s.mem_of_userFrame hu get).1
  obtain ⟨l', g'⟩ := List.getElem?_eq_some_iff.1 (s.mem_of_userFrame hu get').1
  obtain ⟨m, r, t, u⟩ := s.table
  exact (u.nodup.getElem_inj_iff).1 (g.trans g'.symm)

lemma Space.place_inj {va va' l} (s : Space F top e us pt h) (hu : ∀ {v pte}, top v = some pte → pte &&& PTE_U = 0)
    (get : place h pt va = some l) (get' : place h pt va' = some l) : va = va' := by
  obtain ⟨x, fx, eq⟩ := Option.map_eq_some_iff.1 get
  obtain ⟨x', fx', eq'⟩ := Option.map_eq_some_iff.1 get'
  obtain ⟨rfl, off⟩ := Prod.mk.inj (eq.trans eq'.symm)
  have page := s.page_inj hu fx fx'
  simp only [PGSIZE] at page off
  omega

lemma Space.view_copyBytes {src} (s : Space F top e us pt h) (hu : ∀ {v pte}, top v = some pte → pte &&& PTE_U = 0)
    (free : ∀ {i fl b c}, F i fl b → F i fl c) :
    ((Xv6.copyBytes pt h a src).1, view (Xv6.copyBytes pt h a src).2 pt) = (view h pt).copyout a src := by
  rw [UserMemory.copyout_eq]
  induction src generalizing h a with
  | nil => rfl
  | cons b bs ih =>
    have t := s.userTable hu
    rw [Xv6.copyBytes, UserMemory.copyBytes]
    cases get : userFrame h pt a with
    | none => rw [if_pos rfl, if_neg (mt t.accessible.1 (by simp [get]))]
    | some x =>
      have s' : Space F top e us pt (poke h pt a b) := by
        have one : Space F top e us pt (Xv6.copyBytes pt h a [b]).2 := s.copyBytes hu free
        rwa [Xv6.copyBytes, Xv6.copyBytes, if_neg (by simp [get])] at one
      rw [if_neg (by simp), if_pos (t.accessible.2 (by simp [get])), ih s', view_poke t (s.place_inj hu) get]

/-- On an address space `copyout` does what it does on the memory that the process sees. -/
lemma wp_copyout_view {src} (hV : ∀ c, V c → Kinit c) (hu : ∀ {v pte}, top v = some pte → pte &&& PTE_U = 0)
    (free : ∀ {i fl b c}, F i fl b → F i fl c) (s : Space F top e us pt h) :
    wp V P (copyout pt a src) (fun res h' => (res, view h' pt) = (view h pt).copyout a src ∧ Space F top e us pt h') h := by
  refine wp_mono (wp_copyout (fun c v => (hV c v).frame) (s.userTable hu)) fun res h' eq => ?_
  obtain ⟨rfl, rfl⟩ := Prod.mk.inj eq
  exact ⟨s.view_copyBytes hu free, s.copyBytes hu free⟩

end Space

end Xv6
