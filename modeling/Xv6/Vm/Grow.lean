import Xv6.Vm.Space

/-!
# Growing, shrinking and copying an address space

What `uvmalloc`, `uvmdealloc`, `uvmcopy` and `uvmclear` do to an address space, and how
`proc_pagetable` and `proc_freepagetable` begin and end one. Every function has the frames it does not
use in the extra frames of its address space and leaves them as they are, on success and on failure.
-/

namespace Xv6

open Frames Prog

attribute [local irreducible] PTE2PA PA2PTE PTE_FLAGS PX ByteVec.getLE ByteVec.putLE

variable {F : Nat → Nat → Page → Prop} {top : Nat → Option Nat} {h e : Memory} {us : List Nat} {pt : Nat}
  {V : Nat → Prop} {P : String → Prop}

lemma Space.alloc {c b} (s : Space F top e us pt h) (kc : Kinit c) (new : h c = none) :
    Space F top (Function.update e c (some b)) us pt (Function.update h c (some b)) := by
  obtain ⟨ny, nu, -⟩ := s.of_fresh new
  exact s.update ny nu fun _ => kc

lemma Space.store {c b d} (s : Space F top e us pt h) (get : e c = some b) :
    Space F top (Function.update e c (some d)) us pt (Function.update h c (some d)) := by
  obtain ⟨ny, nu, hc⟩ := s.of_extra get
  exact s.update ny nu fun _ => s.kinit (by simp [hc])

lemma wp_kfree_extra {c b Q} (s : Space F top e us pt h) (get : e c = some b)
    (post : ∀ h', Space F top (Function.update e c none) us pt h' → Q () h') :
    wp V P (kfree c) Q h := by
  obtain ⟨ny, nu, hc⟩ := s.of_extra get
  exact wp_kfree (s.kinit (by simp [hc])) hc (post _ (s.update ny nu (by simp)))

lemma update_back {c b} (new : e c = none) :
    Function.update (Function.update e c (some b)) c none = e := by
  rw [Function.update_idem, ← new, Function.update_eq_self]

section Rules

variable (hV : ∀ c, V c → Kinit c) (ht : ∀ v, v < TRAPFRAME → top v = none)
  (hF : ∀ {i fl b}, F i fl b → fl ≠ PTE_V)

lemma asInt_of_le {n} (le : n ≤ 32768) : asInt n = n := by
  rw [asInt, Nat.mod_eq_of_lt (by omega), if_pos (by omega)]

include hV ht hF

lemma wp_uvmdealloc {oldsz newsz} (s : Space F top e us pt h) (len : us.length = pages oldsz) :
    wp V P (uvmdealloc pt oldsz newsz) (fun res h' =>
      res = min oldsz newsz ∧ Space F top e (us.take (pages res)) pt h') h := by
  have small := s.length_le
  have le := le_pages oldsz
  rw [← len] at le
  simp only [PGSIZE] at le
  rw [uvmdealloc]
  split
  · refine ⟨by omega, ?_⟩
    rw [← len, List.take_length]
    exact s
  · have mono : pages newsz ≤ pages oldsz := pages_mono (by omega)
    rw [PGROUNDUP_eq (n := newsz) (by omega), PGROUNDUP_eq (n := oldsz) (by omega), ← len]
    rw [← len] at mono
    split
    · have num : (us.length * PGSIZE - pages newsz * PGSIZE) / PGSIZE = us.length - pages newsz := by
        rw [← Nat.sub_mul, Nat.mul_div_cancel _ (by decide)]
      rw [num, asInt_of_le (by omega), wp_bind]
      refine wp_mono (wp_uvmunmap_user hV ht hF s mono rfl rfl) fun _ h' s' => ⟨by omega, s'⟩
    · have eq : us.length = pages newsz := by
        simp only [PGSIZE] at *
        omega
      refine ⟨by omega, ?_⟩
      rw [← eq, List.take_length]
      exact s

/-- The loop of `uvmalloc`: it appends pages up to the new size, or takes back all it has appended. -/
lemma wp_uvmallocFrom {us₀ oldsz newsz xperm a} (pre : us₀ <+: us) (s : Space F top e us pt h)
    (ho : oldsz = us₀.length * PGSIZE) (ha : a = us.length * PGSIZE) (hx : xperm < 2 ^ 10)
    (fl : ∀ {i}, us.length ≤ i → F i (PTE_R ||| PTE_U ||| xperm ||| PTE_V) fun _ => 0) :
    wp V P (uvmallocFrom pt oldsz newsz xperm a) (fun res h' =>
      (res = newsz ∧ ∃ us', us <+: us' ∧ us'.length = max us.length (pages newsz) ∧
        Space F top e us' pt h') ∨
      (res = 0 ∧ 0 < newsz ∧ Space F top e us₀ pt h')) h := by
  induction n : newsz - a using Nat.strong_induction_on generalizing us h a with
  | _ n ih =>
    have hp : PTE_R ||| PTE_U ||| xperm < 2 ^ 10 := Nat.or_lt_two_pow (by decide) hx
    -- taking back the pages appended so far
    have back : ∀ {h}, Space F top e us pt h → wp V P (uvmdealloc pt a oldsz)
        (fun _ h' => Space F top e us₀ pt h') h := by
      intro h s
      refine wp_mono (wp_uvmdealloc hV ht hF s (by rw [ha, pages_mul])) ?_
      rintro _ h' ⟨rfl, s'⟩
      have le := Nat.mul_le_mul_right PGSIZE pre.length_le
      rwa [ho, ha, Nat.min_eq_right le, pages_mul, ← List.prefix_iff_eq_take.1 pre] at s'
    rw [uvmallocFrom]
    split
    · rename_i lt
      simp only [wp_bind, wp_kalloc]
      refine ⟨?_, fun c vc new => ?_⟩
      · exact wp_mono (back s) fun _ h' s' => .inr ⟨rfl, by omega, s'⟩
      · have ec := (s.of_fresh new).2.2
        have s₁ := s.alloc (b := fun _ => 0) (hV c vc) new
        simp only [wp_store, Function.update_self, Option.some.injEq, exists_eq', true_and,
          Function.update_idem]
        rw [ha]
        refine wp_mono (wp_mappages_user hV ht s₁ (Function.update_self ..) hp (fl (Nat.le_refl _))) ?_
        rintro res h' (⟨rfl, s'⟩ | ⟨rfl, s'⟩)
        · rw [update_back ec] at s'
          have step : us.length * PGSIZE + PGSIZE = (us ++ [c]).length * PGSIZE := by
            rw [List.length_append, List.length_singleton, Nat.succ_mul]
          rw [if_neg (by decide)]
          have loop := ih _ ?_ (pre.trans (List.prefix_append us [c])) s' (a := a + PGSIZE)
            (by rw [ha, step]) (fun le => fl (Nat.le_trans (List.prefix_append us [c]).length_le le)) rfl
          · rw [← ha]
            refine wp_mono loop fun res h' post => post.imp_left ?_
            rintro ⟨rn, us', pre', len', s'⟩
            refine ⟨rn, us', (List.prefix_append us [c]).trans pre', ?_, s'⟩
            have more : us.length < pages newsz := by
              have le := le_pages newsz
              simp only [PGSIZE] at *
              omega
            rw [len', List.length_append, List.length_singleton]
            omega
          · simp only [PGSIZE] at *
            omega
        · rw [if_pos (by decide), wp_bind]
          refine wp_kfree_extra s' (Function.update_self ..) fun h₂ s₂ => ?_
          rw [update_back ec] at s₂
          rw [← ha, wp_bind]
          exact wp_mono (back s₂) fun _ h' s' => .inr ⟨rfl, by omega, s'⟩
    · refine .inl ⟨rfl, us, List.prefix_refl us, ?_, s⟩
      have le : pages newsz ≤ us.length := by
        rw [pages]
        simp only [PGSIZE] at *
        omega
      omega

/-- `uvmalloc` appends the pages up to the new size, or changes nothing and returns 0. -/
lemma wp_uvmalloc {oldsz newsz xperm} (s : Space F top e us pt h) (len : us.length = pages oldsz)
    (hx : xperm < 2 ^ 10)
    (fl : ∀ {i}, us.length ≤ i → F i (PTE_R ||| PTE_U ||| xperm ||| PTE_V) fun _ => 0) :
    wp V P (uvmalloc pt oldsz newsz xperm) (fun res h' =>
      (res = max oldsz newsz ∧ ∃ us', us <+: us' ∧ us'.length = pages res ∧ Space F top e us' pt h') ∨
      (res = 0 ∧ Space F top e us pt h')) h := by
  have small := s.length_le
  have le := le_pages oldsz
  rw [← len] at le
  simp only [PGSIZE] at le
  rw [uvmalloc]
  split
  · have eq : oldsz = max oldsz newsz := by omega
    exact .inl ⟨eq, us, List.prefix_refl us, len, s⟩
  · rw [PGROUNDUP_eq (by omega), ← len]
    have mono : pages oldsz ≤ pages newsz := pages_mono (by omega)
    refine wp_mono (wp_uvmallocFrom hV ht hF (List.prefix_refl us) s rfl rfl hx fl) ?_
    rintro res h' (⟨rfl, us', pre, len', s'⟩ | ⟨rz, -, s'⟩)
    · exact .inl ⟨by omega, us', pre, by omega, s'⟩
    · exact .inr ⟨rz, s'⟩

omit hV ht hF in
lemma PageTable.lift {h' r m} (t : PageTable h pt m r) (agree : ∀ {x b}, h x = some b → h' x = some b) :
    PageTable h' pt m (Frames.rest entry PTE2PA 2 h' pt) := by
  have eq : ∀ x, InTree entry PTE2PA 2 h pt x → h' x = h x := by
    intro x it
    obtain ⟨b, get⟩ := Option.ne_none_iff_exists'.1 (t.tree.inTree_own it)
    rw [get, agree get]
  refine ⟨t.tree.congr eq, ?_, rfl⟩
  rw [← t.map]
  funext va
  rw [abs, abs, lookup_congr eq (Nat.le_refl _)]

omit hV ht hF in
lemma Space.at_page {v} (s : Space F top e us pt h) (lt : v < us.length * PGSIZE) :
    ∃ pte b, PageTable h pt (abs h pt) (rest entry PTE2PA 2 h pt) ∧ abs h pt v = some pte ∧
      us[v / PGSIZE]? = some (PTE2PA pte) ∧ h (PTE2PA pte) = some b ∧ F (v / PGSIZE) (PTE_FLAGS pte) b := by
  obtain ⟨m, r, t, u⟩ := s.table
  obtain ⟨pte, mv, at_v, b, rb, fl⟩ := u.page lt
  exact ⟨pte, b, ⟨t.tree, rfl, rfl⟩, t.map ▸ mv, at_v, (t.beside rb).2, fl⟩

/-- The loop of `uvmcopy`: it appends copies of the pages of the old address space, which is among the
extra frames of the new one, or takes back all it has appended. -/
lemma wp_uvmcopyFrom {topo eo uo old sz i} (so : Space F topo eo uo old e)
    (s : Space F top e us pt h) (hi : i = us.length * PGSIZE) (hs : pages sz ≤ uo.length) :
    wp V P (uvmcopyFrom old pt sz i) (fun res h' =>
      (res = 0 ∧ ∃ us', us'.length = max us.length (pages sz) ∧ Space F top e us' pt h') ∨
      (res = -1 ∧ Space F top e [] pt h')) h := by
  induction n : sz - i using Nat.strong_induction_on generalizing us h i with
  | _ n ih =>
    have small := so.length_le
    -- taking back the pages appended so far
    have back : ∀ {h}, Space F top e us pt h → wp V P (uvmunmap pt 0 (i / PGSIZE) true)
        (fun _ h' => Space F top e [] pt h') h := by
      intro h s
      have num : i / PGSIZE = us.length - 0 := by
        rw [hi, Nat.mul_div_cancel _ (by decide), Nat.sub_zero]
      exact wp_uvmunmap_user hV ht hF s (Nat.zero_le _) (Nat.zero_mul _).symm num
    rw [uvmcopyFrom]
    split
    · rename_i lt
      have more : us.length < pages sz := by
        have le := le_pages sz
        simp only [PGSIZE] at *
        omega
      have lo : i < uo.length * PGSIZE := by
        rw [hi]
        exact Nat.mul_lt_mul_of_pos_right (by omega) (by decide)
      obtain ⟨pte, page, t, mv, at_v, ef, fl⟩ := so.at_page lo
      have lm : i < MAXVA := by
        simp only [PGSIZE, MAXVA] at *
        omega
      have idx : i / PGSIZE = us.length := by rw [hi, Nat.mul_div_cancel _ (by decide)]
      have t' : PageTable h old (abs e old) _ := t.lift fun get => (s.of_extra get).2.2
      rw [wp_bind]
      refine wp_walk_some (fun c v => (hV c v).frame) t' lm mv fun x tab nd hx word => ?_
      simp only [wp_bind, wp_loadPte]
      refine ⟨tab, hx, ?_⟩
      rw [word, if_neg (t'.valid mv)]
      simp only [wp_bind, wp_kalloc]
      refine ⟨wp_mono (back s) fun _ h' s' => .inr ⟨rfl, s'⟩, fun c vc new => ?_⟩
      have ec := (s.of_fresh new).2.2
      have s₁ := s.alloc (b := page) (hV c vc) new
      have fc : PTE2PA pte ≠ c := by
        rintro rfl
        rw [ec] at ef
        cases ef
      simp only [wp_load, wp_store, Function.update_of_ne fc, (s.of_extra ef).2.2,
        Function.update_self, Option.some.injEq, exists_eq', exists_eq_left', true_and,
        Function.update_idem]
      rw [hi]
      refine wp_mono (wp_mappages_user hV ht s₁ (Function.update_self ..) flags_lt
        (by rwa [flags_or_valid (t'.valid mv), ← idx])) ?_
      rintro res h' (⟨rfl, s'⟩ | ⟨rfl, s'⟩)
      · rw [update_back ec] at s'
        have step : us.length * PGSIZE + PGSIZE = (us ++ [c]).length * PGSIZE := by
          rw [List.length_append, List.length_singleton, Nat.succ_mul]
        rw [if_neg (by decide)]
        have loop := ih _ ?_ s' (i := i + PGSIZE) (by rw [hi, step]) rfl
        · rw [← hi]
          refine wp_mono loop fun res h' post => post.imp_left ?_
          rintro ⟨rz, us', len', s'⟩
          refine ⟨rz, us', ?_, s'⟩
          rw [len', List.length_append, List.length_singleton]
          omega
        · simp only [PGSIZE] at *
          omega
      · rw [if_pos (by decide), wp_bind]
        refine wp_kfree_extra s' (Function.update_self ..) fun h₂ s₂ => ?_
        rw [update_back ec] at s₂
        rw [← hi, wp_bind]
        exact wp_mono (back s₂) fun _ h' s' => .inr ⟨rfl, s'⟩
    · have le : pages sz ≤ us.length := by
        rw [pages]
        simp only [PGSIZE] at *
        omega
      exact .inl ⟨rfl, us, by omega, s⟩

/-- `uvmcopy` copies the old address space, which is among the extra frames of the new one, or leaves
the new one empty. -/
lemma wp_uvmcopy {topo eo uo old sz} (so : Space F topo eo uo old e) (s : Space F top e [] pt h)
    (hs : uo.length = pages sz) :
    wp V P (uvmcopy old pt sz) (fun res h' =>
      (res = 0 ∧ ∃ us', us'.length = pages sz ∧ Space F top e us' pt h') ∨
      (res = -1 ∧ Space F top e [] pt h')) h := by
  have loop := wp_uvmcopyFrom (P := P) (i := 0) hV ht hF so s (by simp) hs.ge
  simpa [uvmcopy] using loop

end Rules

/-! ### Flags -/

/-- The flags of a leaf entry for a user page: the page can be read. -/
def Leaf (_ fl : Nat) (_ : Page) : Prop := fl &&& PTE_R ≠ 0

/-- The flags of a leaf entry the user can access. -/
def UserLeaf (i fl : Nat) (b : Page) : Prop := Leaf i fl b ∧ fl &&& PTE_U ≠ 0

instance {i fl b} : Decidable (Leaf i fl b) := inferInstanceAs (Decidable (fl &&& PTE_R ≠ 0))

lemma Leaf.ne_valid {i fl b} (l : Leaf i fl b) : fl ≠ PTE_V := by
  rintro rfl
  exact l rfl

/-- What is mapped at the `i`th page: the frame, the flags and the contents. -/
def pageAt (h : Memory) (pt i : Nat) : Option (Nat × Nat × Page) :=
  (abs h pt (i * PGSIZE)).bind fun pte => (h (PTE2PA pte)).map fun b => (PTE2PA pte, PTE_FLAGS pte, b)

lemma Space.pageAt {i} (s : Space F top e us pt h) (lt : i < us.length) :
    ∃ x fl b, us[i]? = some x ∧ pageAt h pt i = some (x, fl, b) ∧ F i fl b := by
  obtain ⟨pte, b, -, get, at_i, hb, fl⟩ := s.at_page (Nat.mul_lt_mul_of_pos_right lt (by decide))
  rw [Nat.mul_div_cancel _ (by decide)] at at_i fl
  refine ⟨PTE2PA pte, PTE_FLAGS pte, b, at_i, ?_, fl⟩
  rw [Xv6.pageAt, get, Option.bind_some, hb, Option.map_some]

lemma Space.pageAt_none {i} (s : Space F top e us pt h) (le : us.length ≤ i) (out : top (i * PGSIZE) = none) :
    Xv6.pageAt h pt i = none := by
  obtain ⟨m, r, t, u⟩ := s.table
  rw [Xv6.pageAt, t.map, u.above (Nat.mul_le_mul_right _ le), out, Option.bind_none]

lemma Space.exact (s : Space F top e us pt h) :
    Space (fun i fl b => F i fl b ∧ ∃ x, us[i]? = some x ∧ Xv6.pageAt h pt i = some (x, fl, b)) top e us pt h := by
  obtain ⟨m, r, t, u⟩ := s.table
  refine ⟨⟨m, r, t, u.nodup, u.own, u.extra, fun {v} lt => ?_, u.above⟩, s.inner, s.kinit⟩
  obtain ⟨pte, mv, at_v, b, rb, fl⟩ := u.page lt
  refine ⟨pte, mv, at_v, b, rb, fl, _, at_v, ?_⟩
  have same : abs h pt (v / PGSIZE * PGSIZE) = some pte := by
    have round : v / PGSIZE * PGSIZE / PGSIZE = v / PGSIZE := Nat.mul_div_cancel _ (by decide)
    rw [t.map, t.page round, mv]
  rw [Xv6.pageAt, same, Option.bind_some, (t.beside rb).2, Option.map_some]

lemma Space.abs_congr {F' : Nat → Nat → Page → Prop} {e' h' : Memory} (s : Space F top e us pt h)
    (s' : Space F' top e' us pt h') (same : ∀ i < us.length, Xv6.pageAt h' pt i = Xv6.pageAt h pt i) (va : Nat) :
    (abs h' pt va).map (fun pte => (PTE2PA pte, PTE_FLAGS pte)) =
      (abs h pt va).map fun pte => (PTE2PA pte, PTE_FLAGS pte) := by
  obtain ⟨m, r, t, u⟩ := s.table
  obtain ⟨m', r', t', u'⟩ := s'.table
  by_cases lt : va < us.length * PGSIZE
  · have li : va / PGSIZE < us.length := Nat.div_lt_of_lt_mul (Nat.mul_comm _ PGSIZE ▸ lt)
    have round : va / PGSIZE * PGSIZE / PGSIZE = va / PGSIZE := Nat.mul_div_cancel _ (by decide)
    obtain ⟨x, fl, b, -, at_i, -⟩ := s.pageAt li
    have at_i' := same _ li
    rw [at_i] at at_i'
    obtain ⟨pte, get, eq⟩ := Option.bind_eq_some_iff.1 at_i
    obtain ⟨pte', get', eq'⟩ := Option.bind_eq_some_iff.1 at_i'
    obtain ⟨b₁, -, eq⟩ := Option.map_eq_some_iff.1 eq
    obtain ⟨b₂, -, eq'⟩ := Option.map_eq_some_iff.1 eq'
    simp only [Prod.mk.injEq] at eq eq'
    rw [t.map, t.page round] at get
    rw [t'.map, t'.page round] at get'
    rw [t.map, t'.map, get, get', Option.map_some, Option.map_some, eq.1, eq.2.1, eq'.1, eq'.2.1]
  · rw [t.map, t'.map, u.above (Nat.not_lt.1 lt), u'.above (Nat.not_lt.1 lt)]

lemma userLeaf_write {i b} : UserLeaf i (PTE_R ||| PTE_U ||| PTE_W ||| PTE_V) b := by
  rw [UserLeaf, Leaf]
  decide

lemma Space.mono {F' : Nat → Nat → Page → Prop} (s : Space F top e us pt h)
    (imp : ∀ {i fl b}, i < us.length → F i fl b → F' i fl b) : Space F' top e us pt h := by
  obtain ⟨m, r, t, u⟩ := s.table
  refine ⟨⟨m, r, t, u.nodup, u.own, u.extra, fun {v} lt => ?_, u.above⟩, s.inner, s.kinit⟩
  obtain ⟨pte, mv, at_v, b, rb, fl⟩ := u.page lt
  exact ⟨pte, mv, at_v, b, rb, imp (Nat.div_lt_of_lt_mul (Nat.mul_comm _ PGSIZE ▸ lt)) fl⟩

lemma wp_uvmclear {F' : Nat → Nat → Page → Prop} {va} (hV : ∀ c, V c → Kinit c) (s : Space F top e us pt h)
    (lt : va < us.length * PGSIZE)
    (clear : ∀ {fl b}, F (va / PGSIZE) fl b → F' (va / PGSIZE) (fl &&& (2 ^ 10 - 1 - PTE_U)) b)
    (keep : ∀ {i fl b}, i ≠ va / PGSIZE → F i fl b → F' i fl b) :
    wp V P (uvmclear pt va) (fun _ h' => Space F' top e us pt h') h := by
  have small := s.length_le
  have below := s.below
  obtain ⟨m, r, t, u⟩ := s.table
  obtain ⟨pte, mv, at_v, b, rb, fl⟩ := u.page lt
  have lm : va < MAXVA := by
    simp only [PGSIZE, MAXVA] at *
    omega
  rw [uvmclear, wp_bind]
  refine wp_walk_some (fun c v => (hV c v).frame) t lm mv fun x page nd hx word => ?_
  simp only [wp_bind, wp_loadPte, wp_storePte]
  refine ⟨page, hx, page, hx, ?_⟩
  have fit : pte < 2 ^ 64 := word ▸ ByteVec.getLE_lt
  have val := t.valid mv
  have val' : pte &&& (2 ^ 64 - 1 - PTE_U) &&& PTE_V ≠ 0 := by rwa [Nat.and_assoc]
  have fit' : pte &&& (2 ^ 64 - 1 - PTE_U) < 2 ^ 64 := Nat.lt_of_le_of_lt Nat.and_le_left fit
  have t' := t.set (Nat.lt_trans lm (by decide)) nd hx fit'
  rw [if_pos val'] at t'
  rw [word]
  refine ⟨⟨_, r, t', u.nodup, u.own, u.extra, ?_, ?_⟩, s.inner.set t nd hx, ?_⟩
  · intro v lv
    rw [setPage]
    split
    · rename_i same
      refine ⟨_, rfl, ?_, b, ?_, ?_⟩
      · rw [same, at_v, PTE2PA_clear fit]
      · rwa [PTE2PA_clear fit]
      · rw [same, PTE_FLAGS_clear]
        exact clear fl
    · rename_i other
      obtain ⟨pte, mv, at_v, b, rb, fl⟩ := u.page lv
      exact ⟨pte, mv, at_v, b, rb, keep other fl⟩
  · intro v ge
    rw [setPage, if_neg, u.above ge]
    simp only [PGSIZE] at *
    omega
  · intro y hy
    by_cases yx : y = x
    · exact yx ▸ s.kinit (by simp [hx])
    · rw [Function.update_of_ne yx] at hy
      exact s.kinit hy

/-! ### The page table of a process -/

/-- What a process's page table maps above the user pages: trapframe and trampoline, for the kernel. -/
def kernelTop (trapframe : Nat) : Nat → Option Nat :=
  setPage (setPage (fun _ => none) TRAMPOLINE
    (some (PA2PTE trampoline ||| (PTE_R ||| PTE_X) ||| PTE_V))) TRAPFRAME
    (some (PA2PTE trapframe ||| (PTE_R ||| PTE_W) ||| PTE_V))

lemma kernelTop_none {tf v} (lt : v < TRAPFRAME) : kernelTop tf v = none := by
  rw [kernelTop, setPage, if_neg, setPage, if_neg]
  all_goals
    simp only [TRAPFRAME, TRAMPOLINE, MAXVA, PGSIZE] at *
    omega

lemma kernelTop_user {tf v pte} (get : kernelTop tf v = some pte) : pte &&& PTE_U = 0 := by
  have flags : ∀ {pa f}, f < 2 ^ 10 → f &&& PTE_U = 0 → (PA2PTE pa ||| f) &&& PTE_U = 0 := by
    intro pa f lt nu
    rw [and_flags (by decide), PTE_FLAGS_or lt, nu]
  rw [kernelTop, setPage] at get
  split at get
  · rw [← Option.some.inj get, Nat.or_assoc]
    exact flags (by decide) rfl
  · rw [setPage] at get
    split at get
    · rw [← Option.some.inj get, Nat.or_assoc]
      exact flags (by decide) rfl
    · cases get

lemma Space.empty {c} (kin : ∀ {x}, h x ≠ none → Kinit x) (kc : Kinit c) (new : h c = none) :
    Space F (fun _ => none) h [] c (Function.update h c (some fun _ => 0)) := by
  have t : PageTable (Function.update h c (some fun _ => 0)) c (fun _ => none) _ :=
    PageTable.empty (Function.update_self ..)
  rw [update_back new] at t
  refine ⟨⟨_, h, t, List.nodup_nil, ?_, fun _ => rfl, ?_, fun _ => rfl⟩, ?_, ?_⟩
  · exact fun mem => absurd mem List.not_mem_nil
  · intro v lt
    simp at lt
  · intro p i pte _ get
    rw [lookup_single (Function.update_self ..) fun _ => entry_zero] at get
    cases get
  · intro x hx
    by_cases xc : x = c
    · exact xc ▸ kc
    · rw [Function.update_of_ne xc] at hx
      exact kin hx

section Proc

variable (hV : ∀ c, V c → Kinit c) (hF : ∀ {i fl b}, F i fl b → fl ≠ PTE_V)
include hV hF

/-- `proc_pagetable` builds the address space of a process without user memory, or changes nothing. -/
lemma wp_procPagetable {tf} (kin : ∀ {x}, h x ≠ none → Kinit x) (ktf : Kinit tf) :
    wp V P (procPagetable tf) (fun res h' =>
      (res = none ∧ h' = h) ∨ ∃ pt, res = some pt ∧ Space F (kernelTop tf) h [] pt h') h := by
  simp only [procPagetable, uvmcreate, wp_bind, wp_kalloc]
  refine ⟨.inl ⟨rfl, rfl⟩, fun c vc new => ?_⟩
  have s := Space.empty (F := F) kin (hV c vc) new
  simp only [wp_store, wp_pure, wp_bind, Function.update_self, Option.some.injEq, exists_eq', true_and,
    Function.update_idem]
  refine wp_mono (wp_mappages_top hV s (by decide) (by decide) (by decide) (fun _ _ => rfl) (by decide)
    (by decide) (by decide)) ?_
  rintro res h₁ (⟨rfl, s₁⟩ | ⟨rfl, s₁⟩)
  · rw [if_neg (by decide), wp_bind]
    refine wp_mono (wp_mappages_top hV s₁ (by decide) (by decide) (by decide) ?_ ktf.1 ktf.2.2
      (by decide)) ?_
    · intro v eq
      rw [setPage, if_neg]
      rw [eq]
      decide
    rintro res h₂ (⟨rfl, s₂⟩ | ⟨rfl, s₂⟩)
    · rw [if_neg (by decide)]
      exact .inr ⟨c, rfl, s₂⟩
    · rw [if_pos (by decide), wp_bind]
      refine wp_mono (wp_uvmunmap_top hV s₂ (by decide) (by decide) (by decide) (if_pos rfl)
        (by rw [Nat.or_assoc, PTE_FLAGS_or (by decide)]; decide)) fun _ h₃ s₃ => ?_
      have clear : setPage (setPage (fun _ => none) TRAMPOLINE
          (some (PA2PTE trampoline ||| (PTE_R ||| PTE_X) ||| PTE_V))) TRAMPOLINE none =
          fun _ => none := by
        funext v
        simp only [setPage]
        split <;> rfl
      rw [clear] at s₃
      rw [wp_bind]
      exact wp_mono (wp_uvmfree hV hF s₃ rfl) fun _ h' eq => .inl ⟨rfl, eq⟩
  · rw [if_pos (by decide), wp_bind]
    exact wp_mono (wp_uvmfree hV hF s₁ rfl) fun _ h' eq => .inl ⟨rfl, eq⟩

lemma wp_procFreepagetable {tf sz} (s : Space F (kernelTop tf) e us pt h)
    (len : us.length = pages sz) :
    wp V P (procFreepagetable pt sz) (fun _ h' => h' = e) h := by
  have tramp : kernelTop tf TRAMPOLINE = some (PA2PTE trampoline ||| (PTE_R ||| PTE_X) ||| PTE_V) := by
    rw [kernelTop, setPage, if_neg (by decide), setPage, if_pos rfl]
  have frame : setPage (kernelTop tf) TRAMPOLINE none TRAPFRAME =
      some (PA2PTE tf ||| (PTE_R ||| PTE_W) ||| PTE_V) := by
    rw [setPage, if_neg (by decide), kernelTop, setPage, if_pos rfl]
  have clear : setPage (setPage (kernelTop tf) TRAMPOLINE none) TRAPFRAME none = fun _ => none := by
    funext v
    simp only [setPage, kernelTop]
    split_ifs <;> rfl
  rw [procFreepagetable, wp_bind]
  refine wp_mono (wp_uvmunmap_top hV s (by decide) (by decide) (by decide) tramp
    (by rw [Nat.or_assoc, PTE_FLAGS_or (by decide)]; decide)) fun _ h₁ s₁ => ?_
  rw [wp_bind]
  refine wp_mono (wp_uvmunmap_top hV s₁ (by decide) (by decide) (by decide) frame
    (by rw [Nat.or_assoc, PTE_FLAGS_or (by decide)]; decide)) fun _ h₂ s₂ => ?_
  rw [clear] at s₂
  exact wp_uvmfree hV hF s₂ len

end Proc

end Xv6
