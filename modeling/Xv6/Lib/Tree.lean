import Xv6.Lib.Frames
import Mathlib.Data.List.Induction

/-!
# Trees of frames

A frame with contents `b` has an entry `ent b i` at every index `i` it uses, and an entry points to the
frame `ptr e`. The frames reached from a root by paths of at most `d` indices are the nodes of a tree of
depth `d` when they are owned and no frame is reached twice (`IsTree`). The entries of the nodes at
depth `d` are the leaves: what is stored in the tree is the map `lookup` from paths to leaf entries.

The rules say what the two updates of such a tree do to its nodes, to the map and to the frames beside
the tree (`rest`): a store into a leaf slot changes the map at one path, and a fresh empty node hung
into an unused slot changes nothing.
-/

variable {ι β κ ε : Type} (ent : β → κ → Option ε) (ptr : ε → ι)

namespace Frames

def slot (h : Heap ι β) (x : ι) (i : κ) : Option ε := (h x).bind fun b => ent b i

def node (h : Heap ι β) (r : ι) : List κ → Option ι
  | [] => some r
  | i :: is => (slot ent h r i).bind fun e => node h (ptr e) is

/-- The entry at an index of the node at a path. -/
def lookup (h : Heap ι β) (r : ι) (p : List κ) (i : κ) : Option ε :=
  (node ent ptr h r p).bind fun x => slot ent h x i

/-- The nodes at depth at most `d` are owned and pairwise distinct. -/
structure IsTree (d : Nat) (h : Heap ι β) (r : ι) : Prop where
  own : ∀ {p x}, p.length ≤ d → node ent ptr h r p = some x → h x ≠ none
  inj : ∀ {p q x}, p.length ≤ d → q.length ≤ d →
    node ent ptr h r p = some x → node ent ptr h r q = some x → p = q

/-- The frame is a node. -/
def InTree (d : Nat) (h : Heap ι β) (r x : ι) : Prop :=
  ∃ p, p.length ≤ d ∧ node ent ptr h r p = some x

open Classical in
/-- The frames beside the tree. -/
noncomputable def rest (d : Nat) (h : Heap ι β) (r : ι) : Heap ι β :=
  fun x => if InTree ent ptr d h r x then none else h x

variable {ent ptr}

lemma node_append {h : Heap ι β} {r p q} :
    node ent ptr h r (p ++ q) = (node ent ptr h r p).bind fun x => node ent ptr h x q := by
  induction p generalizing r with
  | nil => rfl
  | cons i is ih =>
    simp only [List.cons_append, node]
    cases slot ent h r i with
    | none => rfl
    | some e => exact ih

lemma node_concat {h : Heap ι β} {r p i} :
    node ent ptr h r (p ++ [i]) = (lookup ent ptr h r p i).map ptr := by
  rw [node_append, lookup, Option.map_bind]
  congr 1
  funext x
  simp only [node, Function.comp_apply]
  cases slot ent h x i <;> rfl

lemma node_congr {h h' : Heap ι β} {r q}
    (eq : ∀ p i x, p ++ [i] <+: q → node ent ptr h r p = some x →
      slot ent h' x i = slot ent h x i) :
    node ent ptr h' r q = node ent ptr h r q := by
  induction q using List.reverseRecOn with
  | nil => rfl
  | append_singleton q i ih =>
    have ih := ih fun p j x pre => eq p j x (pre.trans (List.prefix_append q [i]))
    rw [node_concat, node_concat, lookup, lookup, ih]
    cases nq : node ent ptr h r q with
    | none => rfl
    | some x => rw [Option.bind_some, Option.bind_some, eq q i x (List.prefix_refl _) nq]

lemma InTree.root {d} {h : Heap ι β} {r : ι} : InTree ent ptr d h r r := ⟨[], Nat.zero_le _, rfl⟩

lemma rest_ne_none {d} {h : Heap ι β} {r x : ι} :
    rest ent ptr d h r x ≠ none ↔ ¬InTree ent ptr d h r x ∧ h x ≠ none := by
  unfold rest
  split <;> simp_all

lemma rest_of_notMem {d} {h : Heap ι β} {r x : ι} (nt : ¬InTree ent ptr d h r x) :
    rest ent ptr d h r x = h x := if_neg nt

lemma rest_congr {d} {h h' : Heap ι β} {r : ι}
    (tree : ∀ x, InTree ent ptr d h' r x ↔ InTree ent ptr d h r x)
    (eq : ∀ x, ¬InTree ent ptr d h r x → h' x = h x) :
    rest ent ptr d h' r = rest ent ptr d h r := by
  funext x
  unfold rest
  by_cases it : InTree ent ptr d h r x
  · rw [if_pos it, if_pos ((tree x).2 it)]
  · rw [if_neg it, if_neg (mt (tree x).1 it), eq x it]

namespace IsTree

variable {d : Nat} {h : Heap ι β} {r : ι}

lemma inTree_own {x} (t : IsTree ent ptr d h r) (it : InTree ent ptr d h r x) : h x ≠ none := by
  obtain ⟨p, le, nd⟩ := it
  exact t.own le nd

lemma node_eq {h' : Heap ι β} (eq : ∀ x, InTree ent ptr d h r x → h' x = h x) {q : List κ}
    (le : q.length ≤ d + 1) : node ent ptr h' r q = node ent ptr h r q := by
  apply node_congr
  intro p i x pre nd
  have len := pre.length_le
  rw [List.length_append, List.length_singleton] at len
  rw [slot, slot, eq x ⟨p, by omega, nd⟩]

lemma congr {h' : Heap ι β} (t : IsTree ent ptr d h r)
    (eq : ∀ x, InTree ent ptr d h r x → h' x = h x) : IsTree ent ptr d h' r := by
  have nodes : ∀ {q : List κ}, q.length ≤ d → node ent ptr h' r q = node ent ptr h r q :=
    fun le => node_eq eq (Nat.le_succ_of_le le)
  constructor
  case own =>
    intro p x le nd
    rw [nodes le] at nd
    rw [eq x ⟨p, le, nd⟩]
    exact t.own le nd
  case inj =>
    intro p q x lp lq np nq
    rw [nodes lp] at np
    rw [nodes lq] at nq
    exact t.inj lp lq np nq

end IsTree

lemma inTree_congr {d} {h h' : Heap ι β} {r : ι}
    (eq : ∀ x, InTree ent ptr d h r x → h' x = h x) {x} :
    InTree ent ptr d h' r x ↔ InTree ent ptr d h r x := by
  unfold InTree
  refine exists_congr fun p => and_congr_right fun le => ?_
  rw [IsTree.node_eq eq (Nat.le_succ_of_le le)]

lemma lookup_congr {d} {h h' : Heap ι β} {r : ι}
    (eq : ∀ x, InTree ent ptr d h r x → h' x = h x) {p i} (le : p.length ≤ d) :
    lookup ent ptr h' r p i = lookup ent ptr h r p i := by
  unfold lookup
  rw [IsTree.node_eq eq (Nat.le_succ_of_le le)]
  cases nd : node ent ptr h r p with
  | none => rfl
  | some x => rw [Option.bind_some, Option.bind_some, slot, slot, eq x ⟨p, le, nd⟩]

lemma update_agrees [DecidableEq ι] {d} {h : Heap ι β} {r y : ι} {v : Option β}
    (ny : ¬InTree ent ptr d h r y) (x : ι) (it : InTree ent ptr d h r x) :
    Function.update h y v x = h x := by
  refine Function.update_of_ne ?_ _ _
  rintro rfl
  exact ny it

lemma rest_update [DecidableEq ι] {d} {h : Heap ι β} {r y : ι} {v : Option β}
    (ny : ¬InTree ent ptr d h r y) :
    rest ent ptr d (Function.update h y v) r = Function.update (rest ent ptr d h r) y v := by
  have eq := update_agrees (v := v) ny
  funext x
  by_cases xy : x = y
  · subst xy
    rw [Function.update_self, rest_of_notMem (mt (inTree_congr eq).1 ny), Function.update_self]
  · rw [Function.update_of_ne xy]
    unfold rest
    by_cases it : InTree ent ptr d h r x
    · rw [if_pos it, if_pos ((inTree_congr eq).2 it)]
    · rw [if_neg it, if_neg (mt (inTree_congr eq).1 it), Function.update_of_ne xy]

/-! ### Changing one slot

A slot is the index `i` of the node `x` at the path `p`. -/

section Slot

variable {d : Nat} {h h' : Heap ι β} {r x : ι} {p : List κ} {i : κ}

/-- Paths that do not go through the slot are not affected by a change to it and to what hangs from
it. -/
lemma IsTree.node_off (t : IsTree ent ptr d h r) (nd : node ent ptr h r p = some x)
    (lp : p.length ≤ d)
    (off : ∀ q y, q.length ≤ d → node ent ptr h r q = some y → ¬p ++ [i] <+: q → y ≠ x → h' y = h y)
    (others : ∀ j, j ≠ i → slot ent h' x j = slot ent h x j)
    {q} (lq : q.length ≤ d + 1) (np : ¬p ++ [i] <+: q) :
    node ent ptr h' r q = node ent ptr h r q := by
  apply node_congr
  intro p' j y pre nd'
  have len := pre.length_le
  rw [List.length_append, List.length_singleton] at len
  by_cases eq : y = x
  · subst eq
    obtain rfl : p' = p := t.inj (by omega) lp nd' nd
    exact others j fun ji => np (ji ▸ pre)
  · have np' : ¬p ++ [i] <+: p' := fun sub => np (sub.trans ((List.prefix_append p' [j]).trans pre))
    rw [slot, slot, off p' y (by omega) nd' np' eq]

variable [DecidableEq ι] {b b' : β}

lemma IsTree.node_setLeaf (t : IsTree ent ptr d h r) (nd : node ent ptr h r p = some x)
    (lp : p.length = d) {q} (lq : q.length ≤ d) :
    node ent ptr (Function.update h x (some b')) r q = node ent ptr h r q := by
  apply node_congr
  intro p' j y pre nd'
  have len := pre.length_le
  rw [List.length_append, List.length_singleton] at len
  have ne : y ≠ x := by
    rintro rfl
    have := t.inj (by omega) (by omega) nd' nd
    subst this
    omega
  rw [slot, slot, Function.update_of_ne ne]

lemma IsTree.inTree_setLeaf (t : IsTree ent ptr d h r) (nd : node ent ptr h r p = some x)
    (lp : p.length = d) {y} :
    InTree ent ptr d (Function.update h x (some b')) r y ↔ InTree ent ptr d h r y := by
  unfold InTree
  exact exists_congr fun q => and_congr_right fun le => by rw [t.node_setLeaf nd lp le]

lemma IsTree.setLeaf (t : IsTree ent ptr d h r) (nd : node ent ptr h r p = some x)
    (lp : p.length = d) : IsTree ent ptr d (Function.update h x (some b')) r := by
  constructor
  case own =>
    intro q y le ny
    rw [t.node_setLeaf nd lp le] at ny
    by_cases eq : y = x
    · simp [eq]
    · rw [Function.update_of_ne eq]
      exact t.own le ny
  case inj =>
    intro q q' y lq lq' nq nq'
    rw [t.node_setLeaf nd lp lq] at nq
    rw [t.node_setLeaf nd lp lq'] at nq'
    exact t.inj lq lq' nq nq'

lemma IsTree.rest_setLeaf (t : IsTree ent ptr d h r) (nd : node ent ptr h r p = some x)
    (lp : p.length = d) :
    rest ent ptr d (Function.update h x (some b')) r = rest ent ptr d h r := by
  apply rest_congr (fun _ => t.inTree_setLeaf nd lp)
  intro y ny
  refine Function.update_of_ne ?_ _ _
  rintro rfl
  exact ny ⟨p, by omega, nd⟩

lemma IsTree.lookup_setLeaf [DecidableEq κ] (t : IsTree ent ptr d h r)
    (nd : node ent ptr h r p = some x) (lp : p.length = d) (get : h x = some b)
    (eq : ∀ j, j ≠ i → ent b' j = ent b j) {q j} (lq : q.length ≤ d) :
    lookup ent ptr (Function.update h x (some b')) r q j =
      if q = p ∧ j = i then ent b' i else lookup ent ptr h r q j := by
  unfold lookup
  rw [t.node_setLeaf nd lp lq]
  by_cases qp : q = p
  · subst qp
    by_cases ji : j = i
    · simp [nd, ji, slot]
    · simp [nd, ji, slot, get, eq j ji]
  · rw [if_neg (fun c => qp c.1)]
    cases nq : node ent ptr h r q with
    | none => rfl
    | some y =>
      have ne : y ≠ x := by
        rintro rfl
        exact qp (t.inj lq (by omega) nq nd)
      simp [slot, Function.update_of_ne ne]

end Slot

/-! ### Growing the tree -/

/-- The heap `h'` is `h` with the fresh empty frame `ptr e` hung into the unused slot `i` of `x`. -/
structure Hangs (ent : β → κ → Option ε) (ptr : ε → ι) (h h' : Heap ι β) (x : ι) (i : κ) (e : ε) :
    Prop where
  unused : slot ent h x i = none
  fresh : h (ptr e) = none
  used : slot ent h' x i = some e
  others : ∀ j, j ≠ i → slot ent h' x j = slot ent h x j
  own : h' x ≠ none
  new : h' (ptr e) ≠ none
  empty : ∀ j, slot ent h' (ptr e) j = none
  off : ∀ y, y ≠ x → y ≠ ptr e → h' y = h y

namespace Hangs

variable {d : Nat} {h h' : Heap ι β} {r x : ι} {p : List κ} {i : κ} {e : ε}
  (g : Hangs ent ptr h h' x i e) (t : IsTree ent ptr d h r) (nd : node ent ptr h r p = some x)
  (lp : p.length < d)
include g t nd lp

omit t lp in
lemma node_old : node ent ptr h r (p ++ [i]) = none := by
  rw [node_concat, lookup, nd, Option.bind_some, g.unused, Option.map_none]

lemma node_eq [DecidableEq κ] {q} (lq : q.length ≤ d + 1) :
    node ent ptr h' r q = if q = p ++ [i] then some (ptr e) else node ent ptr h r q := by
  have off : ∀ {q}, q.length ≤ d + 1 → ¬p ++ [i] <+: q →
      node ent ptr h' r q = node ent ptr h r q := by
    intro q lq np
    refine t.node_off nd (by omega) ?_ g.others lq np
    intro q y lq nq _ ne
    exact g.off y ne fun yc => t.own lq nq (yc ▸ g.fresh)
  by_cases pre : p ++ [i] <+: q
  · obtain ⟨s, rfl⟩ := pre
    have np : node ent ptr h' r p = some x := by
      rw [off (by omega) fun sub => ?_, nd]
      have := sub.length_le
      simp only [List.length_append, List.length_singleton] at this
      omega
    have new : node ent ptr h' r (p ++ [i]) = some (ptr e) := by
      rw [node_concat, lookup, np, Option.bind_some, g.used, Option.map_some]
    cases s with
    | nil => simp [new]
    | cons j s =>
      rw [node_append, new, node_append, g.node_old nd, if_neg (by simp)]
      simp [node, g.empty]
  · rw [off lq pre, if_neg]
    rintro rfl
    exact pre (List.prefix_refl _)

lemma inTree_iff [DecidableEq κ] {y} :
    InTree ent ptr d h' r y ↔ InTree ent ptr d h r y ∨ y = ptr e := by
  constructor
  · rintro ⟨q, lq, nq⟩
    rw [g.node_eq t nd lp (by omega)] at nq
    split at nq
    · exact .inr (Option.some.inj nq).symm
    · exact .inl ⟨q, lq, nq⟩
  · rintro (⟨q, lq, nq⟩ | rfl)
    · refine ⟨q, lq, ?_⟩
      rw [g.node_eq t nd lp (by omega), if_neg, nq]
      rintro rfl
      rw [g.node_old nd] at nq
      cases nq
    · refine ⟨p ++ [i], by simp; omega, ?_⟩
      rw [g.node_eq t nd lp (by simp; omega), if_pos rfl]

lemma isTree [DecidableEq κ] : IsTree ent ptr d h' r := by
  constructor
  case own =>
    intro q y lq nq
    by_cases yx : y = x
    · exact yx ▸ g.own
    · by_cases yc : y = ptr e
      · exact yc ▸ g.new
      · rw [g.off y yx yc]
        exact t.inTree_own (((g.inTree_iff t nd lp).1 ⟨q, lq, nq⟩).resolve_right yc)
  case inj =>
    intro q q' y lq lq' nq nq'
    rw [g.node_eq t nd lp (by omega)] at nq nq'
    split at nq <;> split at nq'
    · simp_all
    · cases nq
      exact absurd g.fresh (t.own lq' nq')
    · cases nq'
      exact absurd g.fresh (t.own lq nq)
    · exact t.inj lq lq' nq nq'

lemma rest_eq [DecidableEq κ] : rest ent ptr d h' r = rest ent ptr d h r := by
  funext y
  unfold rest
  by_cases old : InTree ent ptr d h r y
  · rw [if_pos old, if_pos ((g.inTree_iff t nd lp).2 (.inl old))]
  · by_cases yc : y = ptr e
    · rw [if_pos ((g.inTree_iff t nd lp).2 (.inr yc)), if_neg old, yc, g.fresh]
    · have ny : ¬InTree ent ptr d h' r y := fun it =>
        ((g.inTree_iff t nd lp).1 it).elim old yc
      rw [if_neg ny, if_neg old, g.off y (fun yx => old ⟨p, by omega, yx ▸ nd⟩) yc]

lemma lookup_eq [DecidableEq κ] {q j} (lq : q.length ≤ d) :
    lookup ent ptr h' r q j = if q = p ∧ j = i then some e else lookup ent ptr h r q j := by
  unfold lookup
  rw [g.node_eq t nd lp (by omega)]
  by_cases qn : q = p ++ [i]
  · have qp : q ≠ p := by simp [qn]
    rw [if_pos qn, if_neg fun c => qp c.1, Option.bind_some, g.empty, qn, g.node_old nd]
    rfl
  · rw [if_neg qn]
    cases nq : node ent ptr h r q with
    | none =>
      have qp : q ≠ p := by
        rintro rfl
        simp [nd] at nq
      rw [if_neg fun c => qp c.1]
      rfl
    | some y =>
      simp only [Option.bind_some]
      by_cases qp : q = p
      · subst qp
        obtain rfl : y = x := by simpa [nd] using nq.symm
        by_cases ji : j = i
        · simp [ji, g.used]
        · simp [ji, g.others j ji]
      · have yx : y ≠ x := by
          rintro rfl
          exact qp (t.inj lq (by omega) nq nd)
        have yc : y ≠ ptr e := fun yc => t.own lq nq (yc ▸ g.fresh)
        rw [if_neg fun c => qp c.1, slot, slot, g.off y yx yc]

end Hangs

/-! ### The empty tree -/

section Single

variable {d : Nat} {h : Heap ι β} {r : ι} {b : β} (get : h r = some b) (emp : ∀ j, ent b j = none)
include get emp

lemma node_single [DecidableEq κ] {q} :
    node ent ptr h r q = if q = [] then some r else none := by
  cases q with
  | nil => rfl
  | cons i is => simp [node, slot, get, emp]

lemma inTree_single [DecidableEq κ] {x} : InTree ent ptr d h r x ↔ x = r := by
  constructor
  · rintro ⟨q, -, nq⟩
    rw [node_single get emp] at nq
    split at nq
    · exact (Option.some.inj nq).symm
    · cases nq
  · rintro rfl
    exact InTree.root

lemma isTree_single [DecidableEq κ] : IsTree ent ptr d h r := by
  constructor
  case own =>
    intro q x lq nq
    obtain rfl := (inTree_single get emp).1 ⟨q, lq, nq⟩
    simp [get]
  case inj =>
    intro q q' x _ _ nq nq'
    rw [node_single get emp] at nq nq'
    split at nq <;> split at nq' <;> simp_all

lemma lookup_single {p i} : lookup ent ptr h r p i = none := by
  classical
  rw [lookup, node_single get emp]
  split <;> simp [slot, get, emp]

lemma rest_single [DecidableEq ι] : rest ent ptr d h r = Function.update h r none := by
  classical
  funext x
  by_cases xr : x = r
  · rw [xr, rest, if_pos InTree.root, Function.update_self]
  · rw [rest, if_neg (mt (inTree_single get emp).1 xr), Function.update_of_ne xr]

end Single

/-! ### Cutting off a subtree -/

namespace IsTree

variable {d : Nat} {h : Heap ι β} {r : ι} {i : κ} {e : ε}

lemma node_child (s : slot ent h r i = some e) {q} :
    node ent ptr h r (i :: q) = node ent ptr h (ptr e) q := by
  rw [node, s, Option.bind_some]

lemma child (t : IsTree ent ptr (d + 1) h r) (s : slot ent h r i = some e) :
    IsTree ent ptr d h (ptr e) := by
  constructor
  case own =>
    intro q x lq nq
    rw [← node_child s] at nq
    exact t.own (by simpa using lq) nq
  case inj =>
    intro q q' x lq lq' nq nq'
    rw [← node_child s] at nq nq'
    exact (List.cons.inj (t.inj (by simpa using lq) (by simpa using lq') nq nq')).2

lemma inTree_child (t : IsTree ent ptr (d + 1) h r) (s : slot ent h r i = some e) {q x}
    (lq : q.length ≤ d + 1) (nq : node ent ptr h r q = some x) (it : InTree ent ptr d h (ptr e) x) :
    ∃ s, q = i :: s := by
  obtain ⟨q', lq', nq'⟩ := it
  rw [← node_child s] at nq'
  exact ⟨q', t.inj lq (by simpa using lq') nq nq'⟩

end IsTree

/-- The heap `h'` is `h` without the subtree `ptr e`, which hung from the slot `i` of the root. -/
structure Pruned (ent : β → κ → Option ε) (ptr : ε → ι) (d : Nat) (h h' : Heap ι β) (r : ι) (i : κ)
    (e : ε) : Prop where
  used : slot ent h r i = some e
  cut : slot ent h' r i = none
  others : ∀ j, j ≠ i → slot ent h' r j = slot ent h r j
  own : h' r ≠ none
  off : ∀ y, y ≠ r → h' y = rest ent ptr d h (ptr e) y

namespace Pruned

variable {d : Nat} {h h' : Heap ι β} {r : ι} {i : κ} {e : ε} (c : Pruned ent ptr d h h' r i e)

include c in
lemma node_cut {q} : node ent ptr h' r (i :: q) = none := by
  rw [node, c.cut, Option.bind_none]

variable (t : IsTree ent ptr (d + 1) h r)
include c t

lemma same {q y} (lq : q.length ≤ d + 1) (nq : node ent ptr h r q = some y) (np : ¬[i] <+: q)
    (yr : y ≠ r) : h' y = h y := by
  rw [c.off y yr, rest_of_notMem]
  intro it
  obtain ⟨s, rfl⟩ := t.inTree_child c.used lq nq it
  exact np (List.prefix_append [i] s)

lemma node_eq {q} (lq : q.length ≤ d + 2) (np : ¬[i] <+: q) :
    node ent ptr h' r q = node ent ptr h r q :=
  t.node_off (p := []) rfl (Nat.zero_le _) (fun _ _ lq nq np yr => c.same t lq nq np yr) c.others lq np

lemma node_old {q x} (lq : q.length ≤ d + 2) (nq : node ent ptr h' r q = some x) :
    ¬[i] <+: q ∧ node ent ptr h r q = some x := by
  have np : ¬[i] <+: q := by
    rintro ⟨s, rfl⟩
    rw [List.singleton_append, c.node_cut] at nq
    cases nq
  exact ⟨np, c.node_eq t lq np ▸ nq⟩

lemma isTree : IsTree ent ptr (d + 1) h' r := by
  constructor
  case own =>
    intro q x lq nq
    obtain ⟨np, nq⟩ := c.node_old t (by omega) nq
    by_cases xr : x = r
    · exact xr ▸ c.own
    · rw [c.same t lq nq np xr]
      exact t.own lq nq
  case inj =>
    intro q q' x lq lq' nq nq'
    exact t.inj lq lq' (c.node_old t (by omega) nq).2 (c.node_old t (by omega) nq').2

lemma rest_eq : rest ent ptr (d + 1) h' r = rest ent ptr (d + 1) h r := by
  funext x
  by_cases new : InTree ent ptr (d + 1) h' r x
  · obtain ⟨q, lq, nq⟩ := new
    rw [rest, if_pos ⟨q, lq, nq⟩, rest, if_pos ⟨q, lq, (c.node_old t (by omega) nq).2⟩]
  · have xr : x ≠ r := fun xr => new (xr ▸ InTree.root)
    rw [rest_of_notMem new, c.off x xr]
    by_cases sub : InTree ent ptr d h (ptr e) x
    · obtain ⟨q, lq, nq⟩ := sub
      rw [← IsTree.node_child c.used] at nq
      rw [rest, if_pos ⟨q, lq, IsTree.node_child c.used ▸ nq⟩, rest,
        if_pos ⟨i :: q, by simpa using lq, nq⟩]
    · rw [rest_of_notMem sub, rest_of_notMem]
      rintro ⟨q, lq, nq⟩
      -- a node outside the subtree would still be a node
      have np : ¬[i] <+: q := by
        rintro ⟨s, rfl⟩
        rw [List.singleton_append, IsTree.node_child c.used] at nq
        exact sub ⟨s, by simpa using lq, nq⟩
      exact new ⟨q, lq, (c.node_eq t (by omega) np).trans nq⟩

lemma lookup_old {p j v} (lp : p.length ≤ d + 1) (get : lookup ent ptr h' r p j = some v) :
    lookup ent ptr h r p j = some v := by
  obtain ⟨x, nx, sx⟩ := Option.bind_eq_some_iff.1 get
  obtain ⟨np, nx⟩ := c.node_old t (by omega) nx
  rw [lookup, nx, Option.bind_some]
  by_cases xr : x = r
  · subst xr
    have ji : j ≠ i := by
      rintro rfl
      rw [c.cut] at sx
      cases sx
    rw [← c.others j ji, sx]
  · rw [slot, ← c.same t lp nx np xr]
    exact sx

end Pruned

end Frames
