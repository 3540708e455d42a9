import Xv6.Lib.Places
import Xv6.Virtio.Driver
import Xv6.Virtio.Rings

/-!
# What the driver and the device keep

In every interleaving each process that is in a call has its own descriptors, the chain of a request is as it was formatted
until its caller has collected it, and the heads in the rings belong to requests that are waited for (`Inv`). The proofs
follow the places of the code: one lemma for each that changes the data, put together in `Inv.act` and `Inv.keeps`.
-/

namespace Xv6.Virtio

variable {ι β : Type*}

/-! ### What a process has at a place -/

def Idx.toList (x : Idx) : List ℕ := [x.i0, x.i1, x.i2]

def Idx.rest (x : Idx) (i : ℕ) : List ℕ := x.toList.dropWhile (· ≠ i)

def Place.call : Place β → Option (Call β)
  | .alloc c | .undo c _ | .undoWakeup c _ | .sleepFree c | .format c _ | .publish c _ | .wait c _ | .sleepBuf c _
  | .collect c _ | .chain c _ _ | .chainWakeup c _ _ => some c
  | _ => none

/-- The descriptors that belong to a call. -/
def Place.held : Place β → List ℕ
  | .undo _ l | .undoWakeup _ l => l
  | .format _ x | .publish _ x | .wait _ x | .sleepBuf _ x | .collect _ x => x.toList
  | .chain _ x i | .chainWakeup _ x (some i) => x.rest i
  | _ => []

/-- The buffer and the head of a request that is waited for. -/
def Place.waits : Place β → Option (β × ℕ)
  | .wait c x | .sleepBuf c x => some (c.b, x.i0)
  | _ => none

/-- The places at which the handler has cleared a buffer and not yet gone on. -/
def Place.Skips : Place β → Prop
  | .intrWakeup _ | .intrNext => True
  | _ => False

namespace Disk

/-- The chain of a request is as `virtio_disk_rw` has formatted it. -/
structure Formatted (d : Disk ι β) (c : Call β) (x : Idx) : Prop where
  b : (d.info x.i0).b = some c.b
  op : d.ops x.i0 = c.req
  desc0 : d.desc x.i0 = ⟨.op x.i0, 16, VRING_DESC_F_NEXT, x.i1⟩
  desc1 : d.desc x.i1 = ⟨.data c.b, BSIZE, (if c.write then 0 else VRING_DESC_F_WRITE) ||| VRING_DESC_F_NEXT, x.i2⟩
  desc2 : d.desc x.i2 = ⟨.status x.i0, 1, VRING_DESC_F_WRITE, 0⟩

/-- The descriptors are chained. -/
def Linked (d : Disk ι β) : List ℕ → Prop
  | [] => True
  | [i] => (d.desc i).flags &&& VRING_DESC_F_NEXT = 0
  | i :: j :: l => (d.desc i).flags &&& VRING_DESC_F_NEXT ≠ 0 ∧ (d.desc i).next = j ∧ d.Linked (j :: l)

/-- The heads that the device has not reported: those in `avail` that it has not looked at, and those it has. -/
def front (d : Disk ι β) : List ℕ :=
  Circular.window NUM d.avail.ring d.seen (d.avail.idx - d.seen).toNat ++ d.inflight

/-- The heads in `used` that the driver has not looked at. -/
def back (d : Disk ι β) : List ℕ := Circular.window NUM d.used.ring d.usedIdx (d.used.idx - d.usedIdx).toNat

end Disk

/-- What holds at a place. -/
def Place.Ok (d : Disk ι β) : Place β → Prop
  | .publish c x => d.Formatted c x ∧ d.avail.ring (d.avail.idx.toNat % NUM) = x.i0 ∧ d.disk c.b = true
  | .wait c x | .sleepBuf c x => d.Formatted c x
  | .collect c x => d.Formatted c x ∧ d.done x.i0 = true
  | .chain _ x i | .chainWakeup _ x (some i) => x.toList.Nodup ∧ ∃ l, x.rest i = i :: l ∧ d.Linked (i :: l)
  | .intrBody | .intrWakeup _ | .intrNext => d.usedIdx ≠ d.used.idx
  | .panic msg => msg = "virtio_disk_intr status"
  | .fault => False
  | _ => True

def claimed (pl : ι → Option (Place β)) (p : ι) : List ℕ := (pl p).elim [] Place.held

/-- The requests that the processes wait for. -/
def waiting (pl : ι → Option (Place β)) (p : ι) : Option (β × ℕ) := (pl p).bind Place.waits

/-- The processes are at the places `pl`, and the first `k` heads that the driver has not gone beyond have been cleared. -/
structure Inv (pl : ι → Option (Place β)) (k : ℕ) (d : Disk ι β) : Prop where
  own : ∀ {p l c}, pl p = some l → l.call = some c → d.owner c.b = some p
  ok : ∀ {p l}, pl p = some l → l.Ok d
  shares : Shares NUM d.free (claimed pl)
  skip : k = 0 ∧ (∀ p l, pl p = some l → ¬l.Skips) ∨ k = 1 ∧ ∃ p l, pl p = some l ∧ l.Skips
  rings : Rings (waiting pl) d.front d.back k d.disk d.done

section

variable [DecidableEq ι] {pl : ι → Option (Place β)} {p : ι} {o : Option (Place β)}

lemma claimed_update : claimed (Function.update pl p o) = Function.update (claimed pl) p (o.elim [] Place.held) := by
  funext q
  by_cases eq : q = p
  · subst eq
    simp [claimed]
  · simp [claimed, Function.update_of_ne eq]

lemma waiting_update : waiting (Function.update pl p o) = Function.update (waiting pl) p (o.bind Place.waits) := by
  funext q
  by_cases eq : q = p
  · subst eq
    simp [waiting]
  · simp [waiting, Function.update_of_ne eq]

end

variable {n k : ℕ} {pl : Fin (n + 1) → Option (Place β)} {d d' : Disk (Fin (n + 1)) β} {p : Fin (n + 1)} {c : Call β} {x : Idx}

/-! ### Chains -/

lemma flags_next (write : Bool) : ((if write then 0#16 else 2#16) ||| 1#16) &&& 1#16 ≠ 0#16 := by
  cases write <;> decide

namespace Disk.Formatted

lemma congr (f : d.Formatted c x) (same : ∀ i ∈ x.toList, (d'.info i).b = (d.info i).b ∧ d'.ops i = d.ops i ∧ d'.desc i = d.desc i) :
    d'.Formatted c x := by
  obtain ⟨s0, s1, s2⟩ : _ ∧ _ ∧ _ := by simpa [Idx.toList] using same
  exact ⟨s0.1.trans f.b, s0.2.1.trans f.op, s0.2.2.trans f.desc0, s1.2.2.trans f.desc1, s2.2.2.trans f.desc2⟩

lemma request (f : d.Formatted c x) : d.request x.i0 = some (c.req, c.b, x.i0) := by
  simp [Disk.request, f.desc0, f.desc1, f.desc2, f.op, flags_next]

lemma linked (f : d.Formatted c x) : d.Linked x.toList := by
  simp [Idx.toList, Linked, f.desc0, f.desc1, f.desc2, flags_next]

end Disk.Formatted

lemma Disk.Linked.congr {l : List ℕ} (linked : d.Linked l) (same : ∀ i ∈ l, d'.desc i = d.desc i) : d'.Linked l := by
  induction l with
  | nil => trivial
  | cons i l ih =>
    cases l with
    | nil => simpa [Linked, same i] using linked
    | cons j l =>
      obtain ⟨flag, next, rest⟩ := linked
      rw [← same i (by simp)] at flag next
      exact ⟨flag, next, ih rest fun m mem => same m (by simp [mem])⟩

lemma dropWhile_next {L l : List ℕ} {i j : ℕ} (nodup : L.Nodup) (eq : L.dropWhile (· ≠ i) = i :: j :: l) :
    L.dropWhile (· ≠ j) = j :: l := by
  induction L with
  | nil => simp at eq
  | cons a L ih =>
    obtain ⟨out, nodup⟩ := List.nodup_cons.1 nodup
    by_cases ai : a = i
    · subst ai
      simp only [ne_eq, not_true_eq_false, decide_false, Bool.false_eq_true, not_false_eq_true, List.dropWhile_cons_of_neg,
        List.cons.injEq, true_and] at eq
      subst eq
      have ne : a ≠ j := by
        rintro rfl
        exact out (by simp)
      simp [List.dropWhile, ne]
    · rw [List.dropWhile_cons_of_pos (by simpa using ai)] at eq
      have mem : j ∈ L := by
        have sub := (List.dropWhile_suffix (fun b => decide (b ≠ i)) (l := L)).subset
        rw [eq] at sub
        exact sub (by simp)
      have ne : a ≠ j := by
        rintro rfl
        exact out mem
      rw [List.dropWhile_cons_of_pos (by simpa using ne)]
      exact ih nodup eq

/-! ### `alloc3_desc` -/

/-- What `alloc3_desc` gets: free descriptors, and fewer than it wants only if no more are free. -/
lemma alloc_spec (m : ℕ) (free : ℕ → Bool) :
    (Disk.alloc m free).1.Nodup ∧ (∀ i ∈ (Disk.alloc m free).1, i < NUM ∧ free i = true) ∧
      (∀ i, (Disk.alloc m free).2 i = false ↔ i ∈ (Disk.alloc m free).1 ∨ free i = false) ∧
      (Disk.alloc m free).1.length ≤ m ∧ ((Disk.alloc m free).1.length < m → ∀ i < NUM, (Disk.alloc m free).2 i = false) := by
  induction m generalizing free with
  | zero => simp [Disk.alloc]
  | succ m ih =>
    rw [Disk.alloc, Disk.allocDesc]
    cases found : (List.range NUM).find? free with
    | none =>
      have all : ∀ i < NUM, free i = false := by simpa using found
      simpa using all
    | some i =>
      have lt : i < NUM := List.mem_range.1 (List.mem_of_find?_eq_some found)
      have was : free i = true := List.find?_some found
      obtain ⟨nodup, got, now, len, all⟩ := ih (Function.update free i false)
      simp only [Option.map_some]
      refine ⟨List.nodup_cons.2 ⟨fun mem => ?_, nodup⟩, ?_, fun j => ?_, by simpa using len,
        fun short => all (by simpa using short)⟩
      · have := (got i mem).2
        simp at this
      · rintro j mem
        rcases List.mem_cons.1 mem with rfl | mem
        · exact ⟨lt, was⟩
        · have ne : j ≠ i := by
            rintro rfl
            have := (got j mem).2
            simp at this
          simpa [Function.update_of_ne ne] using got j mem
      · rw [now j, List.mem_cons]
        by_cases eq : j = i
        · simp [eq]
        · simp [eq]

/-! ### Steps -/

section

variable [DecidableEq β]

lemma quiet_cases (quiet : driver.Quiet pl p) {q : Fin (n + 1)} (ne : q ≠ p) {m : Place β} (is : pl q = some m) :
    (∃ c, m = .alloc c) ∨ ∃ c x, m = .wait c x := by
  obtain ⟨l, ch, sl⟩ := quiet q ne m is
  cases sl with
  | free => exact .inl ⟨_, rfl⟩
  | buf => exact .inr ⟨_, _, rfl⟩

namespace Inv

lemma none_skipped (h : Inv pl k d) (quiet : driver.Quiet pl p) (here : ∀ l, pl p = some l → ¬l.Skips) : k = 0 := by
  rcases h.skip with ⟨eq, -⟩ | ⟨-, q, m, is, skips⟩
  · exact eq
  · by_cases eq : q = p
    · subst eq
      exact absurd skips (here m is)
    · rcases quiet_cases quiet eq is with ⟨c, rfl⟩ | ⟨c, x, rfl⟩ <;> exact skips.elim

lemma move (h : Inv pl k d) (quiet : driver.Quiet pl p) {o : Option (Place β)} {k' : ℕ} (owner : d'.owner = d.owner)
    (call : ∀ l ∈ o, ∀ c, l.call = some c → d.owner c.b = some p) (ok : ∀ l ∈ o, l.Ok d')
    (same : ∀ i, i ∉ claimed pl p → d.free i = false →
      (d'.info i).b = (d.info i).b ∧ d'.ops i = d.ops i ∧ d'.desc i = d.desc i)
    (shares : Shares NUM d'.free (Function.update (claimed pl) p (o.elim [] Place.held)))
    (skip : k' = 0 ∧ (∀ l ∈ o, ¬l.Skips) ∨ k' = 1 ∧ ∃ l ∈ o, l.Skips)
    (rings : Rings (Function.update (waiting pl) p (o.bind Place.waits)) d'.front d'.back k' d'.disk d'.done) :
    Inv (Function.update pl p o) k' d' := by
  constructor
  case own =>
    intro q l c is has
    rw [owner]
    by_cases eq : q = p
    · subst eq
      exact call l (by simpa using is) c has
    · exact h.own (by simpa [Function.update_of_ne eq] using is) has
  case ok =>
    intro q l is
    by_cases eq : q = p
    · subst eq
      exact ok l (by simpa using is)
    · rw [Function.update_of_ne eq] at is
      rcases quiet_cases quiet eq is with ⟨c, rfl⟩ | ⟨c, x, rfl⟩
      · trivial
      · refine Disk.Formatted.congr (h.ok is) fun i mem => ?_
        have mine : i ∈ claimed pl q := by simpa [claimed, is, Place.held] using mem
        exact same i (fun mem => eq (h.shares.apart mine mem)) ((h.shares.used (h.shares.bound mine)).2 ⟨q, mine⟩)
  case shares => rwa [claimed_update]
  case skip =>
    refine skip.imp (And.imp_right fun out q l is => ?_) (And.imp_right fun ⟨l, mem, skips⟩ => ⟨p, l, by simpa using mem, skips⟩)
    by_cases eq : q = p
    · subst eq
      exact out l (by simpa using is)
    · rcases quiet_cases quiet eq (by simpa [Function.update_of_ne eq] using is) with ⟨c, rfl⟩ | ⟨c, x, rfl⟩ <;> exact id
  case rings => rwa [waiting_update]

omit [DecidableEq β] in
lemma rings_same (h : Inv pl k d) {o : Option (Place β)} (w : o.bind Place.waits = waiting pl p) :
    Rings (Function.update (waiting pl) p (o.bind Place.waits)) d.front d.back k d.disk d.done := by
  rw [w, Function.update_eq_self]
  exact h.rings

omit [DecidableEq β] in
lemma shares_same (h : Inv pl k d) {o : Option (Place β)} (w : o.elim [] Place.held = claimed pl p) :
    Shares NUM d.free (Function.update (claimed pl) p (o.elim [] Place.held)) := by
  rw [w, Function.update_eq_self]
  exact h.shares

lemma alloc (h : Inv pl k d) (l' : Place β) (quiet : driver.Quiet pl p) (is : pl p = some (.alloc c))
    (held : l'.held = (Disk.alloc 3 d.free).1) (call : l'.call = some c) (ok : l'.Ok { d with free := (Disk.alloc 3 d.free).2 })
    (skips : ¬l'.Skips) (waits : l'.waits = none) :
    Inv (Function.update pl p (some l')) 0 { d with free := (Disk.alloc 3 d.free).2 } := by
  obtain rfl := h.none_skipped quiet (by simp [is, Place.Skips])
  obtain ⟨nodup, got, now, -⟩ := alloc_spec 3 d.free
  have empty : claimed pl p = [] := by simp [claimed, is, Place.held]
  refine h.move quiet rfl ?_ (by simpa using ok) (fun _ _ _ => ⟨rfl, rfl, rfl⟩) ?_ (.inl ⟨rfl, by simpa using skips⟩) ?_
  · simp only [Option.mem_some_iff, forall_eq', call, Option.some.injEq]
    exact h.own is rfl
  · refine h.shares.update (by simpa [held] using nodup) (fun i mem => .inr ?_) fun i _ => ?_
    · exact got i (by simpa [held] using mem)
    · simp [now, held, empty]
  · exact h.rings_same (by simp only [waiting, is]; exact waits)

lemma freeDesc (h : Inv pl k d) (l' : Place β) (quiet : driver.Quiet pl p) {l : Place β} {i : ℕ} {rest : List ℕ} (is : pl p = some l)
    (held : l.held = i :: rest) (held' : l'.held = rest) (call : ∀ c, l'.call = some c → l.call = some c)
    (skips : ¬l.Skips) (skips' : ¬l'.Skips) (waits : l.waits = none) (waits' : l'.waits = none) :
    ∃ d', d.freeDesc i = .ok d' ∧ d'.desc = Function.update d.desc i ⟨.null, 0, 0, 0⟩ ∧
      (l'.Ok d' → Inv (Function.update pl p (some l')) 0 d') := by
  obtain rfl := h.none_skipped quiet (by simpa [is] using skips)
  have has : claimed pl p = i :: rest := by simp [claimed, is, held]
  obtain ⟨lt, used, shares⟩ := h.shares.give has
  have eq : d.freeDesc i = .ok { d with
      desc := Function.update d.desc i ⟨.null, 0, 0, 0⟩
      free := Function.update d.free i true } := by
    simp [Disk.freeDesc, used, Nat.not_le.2 lt]
  refine ⟨_, eq, rfl, fun ok => h.move quiet rfl ?_ (by simpa using ok) (fun j out _ => ⟨rfl, rfl, ?_⟩) ?_
    (.inl ⟨rfl, by simpa using skips'⟩) ?_⟩
  · simp only [Option.mem_some_iff, forall_eq']
    exact fun c eq => h.own is (call c eq)
  · have ne : j ≠ i := by
      rintro rfl
      exact out (by simp [has])
    exact Function.update_of_ne ne _ _
  · simpa [held'] using shares
  · exact h.rings_same (by simp [waits', waiting, is, waits])

lemma shift (h : Inv pl k d) (quiet : driver.Quiet pl p) {l l' : Place β} (is : pl p = some l) (held : l'.held = l.held)
    (call : ∀ c, l'.call = some c → l.call = some c) (ok : l'.Ok d) (skips : l'.Skips ↔ l.Skips) (waits : l'.waits = l.waits) :
    Inv (Function.update pl p (some l')) k d := by
  refine h.move quiet rfl ?_ (by simpa using ok) (fun _ _ _ => ⟨rfl, rfl, rfl⟩) (h.shares_same (by simp [held, claimed, is])) ?_
    (h.rings_same (by simp [waits, waiting, is]))
  · simp only [Option.mem_some_iff, forall_eq']
    exact fun c eq => h.own is (call c eq)
  · by_cases yes : l.Skips
    · refine .inr ⟨?_, l', by simp, skips.2 yes⟩
      exact h.skip.elim (fun no => absurd yes (no.2 p l is)) And.left
    · exact .inl ⟨h.none_skipped quiet (by simpa [is] using yes), by simpa [skips] using yes⟩

lemma border (h : Inv pl k d) (quiet : driver.Quiet pl p) {o : Option (Place β)} (call : ∀ l ∈ o, ∀ c, l.call = some c → d.owner c.b = some p)
    (ok : ∀ l ∈ o, l.Ok d) (held : claimed pl p = []) (held' : o.elim [] Place.held = []) (waits : waiting pl p = none)
    (waits' : o.bind Place.waits = none) (skips : ∀ l, pl p = some l → ¬l.Skips) (skips' : ∀ l ∈ o, ¬l.Skips) :
    Inv (Function.update pl p o) 0 d := by
  obtain rfl := h.none_skipped quiet skips
  exact h.move quiet rfl call ok (fun _ _ _ => ⟨rfl, rfl, rfl⟩) (h.shares_same (held'.trans held.symm)) (.inl ⟨rfl, skips'⟩)
    (h.rings_same (waits'.trans waits.symm))

omit [DecidableEq β] in
lemma request (h : Inv pl k d) {q : Fin (n + 1)} {b : β} {j : ℕ} (w : waiting pl q = some (b, j)) :
    ∃ c x, d.Formatted c x ∧ c.b = b ∧ x.i0 = j ∧ claimed pl q = x.toList ∧ d.owner b = some q := by
  cases is : pl q with
  | none => simp [waiting, is] at w
  | some l =>
    cases l with
    | wait c x | sleepBuf c x =>
      obtain ⟨rfl, rfl⟩ : c.b = b ∧ x.i0 = j := by simpa [waiting, is, Place.waits] using w
      exact ⟨c, x, h.ok is, rfl, rfl, by simp [claimed, is, Place.held], h.own is rfl⟩
    | _ => simp [waiting, is, Place.waits] at w

omit [DecidableEq β] in
lemma mem_claimed (h : Inv pl k d) {q : Fin (n + 1)} {b : β} {j : ℕ} (w : waiting pl q = some (b, j)) : j ∈ claimed pl q := by
  obtain ⟨c, x, -, -, rfl, held, -⟩ := h.request w
  simp [held, Idx.toList]

omit [DecidableEq β] in
lemma fresh (h : Inv pl k d) (w : waiting pl p = none) {i : ℕ} (mem : i ∈ claimed pl p) (q : Fin (n + 1)) (b : β) :
    waiting pl q ≠ some (b, i) := by
  intro w'
  obtain rfl := h.shares.apart mem (h.mem_claimed w')
  simp [w] at w'

omit [DecidableEq β] in
lemma head_lt (h : Inv pl k d) {i : ℕ} (mem : i ∈ d.front ++ d.back) : i < NUM := by
  obtain ⟨q, b, w⟩ := h.rings.heads mem
  exact h.shares.bound (h.mem_claimed w)

omit [DecidableEq β] in
lemma room (h : Inv pl k d) (w : waiting pl p = none) {i : ℕ} (mem : i ∈ claimed pl p) :
    (d.front ++ d.back).length < NUM := by
  have out : i ∉ d.front ++ d.back := by
    intro mem'
    obtain ⟨q, b, w'⟩ := h.rings.heads mem'
    exact h.fresh w mem q b w'
  refine length_le_of_lt (List.nodup_cons.2 ⟨out, h.rings.nodup⟩) fun j mem' => ?_
  rcases List.mem_cons.1 mem' with rfl | mem'
  · exact h.shares.bound mem
  · exact h.head_lt mem'

lemma format (h : Inv pl k d) (quiet : driver.Quiet pl p) (is : pl p = some (.format c x)) :
    Inv (Function.update pl p (some (.publish c x))) 0 (d.format c x) := by
  obtain rfl := h.none_skipped quiet (by simp [is, Place.Skips])
  have held : claimed pl p = x.toList := by simp [claimed, is, Place.held]
  have nodup : x.toList.Nodup := held ▸ h.shares.nodup p
  have w : waiting pl p = none := by simp [waiting, is, Place.waits]
  have room := h.room w (i := x.i0) (by simp [held, Idx.toList])
  simp only [Idx.toList, List.nodup_cons, List.mem_cons, List.not_mem_nil, or_false, not_or] at nodup
  obtain ⟨⟨n01, n02⟩, n12, -⟩ := nodup
  refine h.move quiet rfl ?_ ?_ (fun i out _ => ?_) (h.shares_same (by simp [held, Place.held])) (.inl ⟨rfl, by simp [Place.Skips]⟩) ?_
  · simp only [Option.mem_some_iff, forall_eq', Place.call, Option.some.injEq]
    exact h.own is rfl
  · simp only [Option.mem_some_iff, forall_eq', Place.Ok, Disk.format]
    refine ⟨⟨?_, ?_, ?_, ?_, ?_⟩, ?_, ?_⟩ <;> simp [Function.update_of_ne, n01, n02, n12]
  · simp only [held, Idx.toList, List.mem_cons, List.not_mem_nil, or_false, not_or] at out
    simp [Disk.format, Function.update_of_ne, out]
  · have front : (d.format c x).front = d.front := by
      have slot : (d.seen + BitVec.ofNat 16 (d.avail.idx - d.seen).toNat).toNat % NUM = d.avail.idx.toNat % NUM := by
        rw [Circular.add_sub_index]
      simp only [Disk.front, Disk.format]
      rw [← slot, Circular.window_update (by decide)]
      simp only [Disk.front, List.length_append, Circular.length_window] at room
      omega
    rw [front]
    refine (h.rings_same (o := some (.publish c x)) (by simp [w, Place.waits])).congr_disk fun {q b j} w' => ?_
    have w' : waiting pl q = some (b, j) := by
      by_cases eq : q = p
      · subst eq
        simp [Place.waits] at w'
      · simpa [Function.update_of_ne eq] using w'
    have ne : b ≠ c.b := by
      rintro rfl
      obtain ⟨-, -, -, -, -, -, owner⟩ := h.request w'
      rw [Option.some.inj (owner.symm.trans (h.own is rfl)), w] at w'
      cases w'
    simp [Disk.format, Function.update_of_ne ne]

lemma publish (h : Inv pl k d) (quiet : driver.Quiet pl p) (is : pl p = some (.publish c x)) :
    Inv (Function.update pl p (some (.wait c x))) 0 { d with
      avail := { d.avail with idx := d.avail.idx + 1#16 }
      done := Function.update d.done x.i0 false } := by
  obtain rfl := h.none_skipped quiet (by simp [is, Place.Skips])
  obtain ⟨formatted, slot, busy⟩ := h.ok is
  have held : claimed pl p = x.toList := by simp [claimed, is, Place.held]
  have mem : x.i0 ∈ claimed pl p := by simp [held, Idx.toList]
  have w : waiting pl p = none := by simp [waiting, is, Place.waits]
  have room := h.room w mem
  have call : ∀ l ∈ some (Place.wait c x), ∀ c', l.call = some c' → d.owner c'.b = some p := by
    simp only [Option.mem_some_iff, forall_eq', Place.call, Option.some.injEq]
    exact h.own is rfl
  have buf : ∀ q j, waiting pl q ≠ some (c.b, j) := by
    intro q j w'
    obtain ⟨-, -, -, -, -, -, owner⟩ := h.request w'
    rw [Option.some.inj (owner.symm.trans (h.own is rfl)), w] at w'
    cases w'
  have ok : ∀ l ∈ some (Place.wait c x), l.Ok { d with
      avail := { d.avail with idx := d.avail.idx + 1#16 }
      done := Function.update d.done x.i0 false } := by
    simp only [Option.mem_some_iff, forall_eq']
    exact formatted.congr fun _ _ => ⟨rfl, rfl, rfl⟩
  refine h.move quiet rfl call ok (fun _ _ _ => ⟨rfl, rfl, rfl⟩) (h.shares_same (by simp [held, Place.held])) (.inl ⟨rfl, by simp [Place.Skips]⟩) ?_
  refine (h.rings.publish w (h.fresh w mem) buf busy).perm ?_
  simp only [Disk.front, List.length_append, Circular.length_window] at room ⊢
  rw [Circular.window_extend (by simp only [NUM] at room; omega), slot, List.append_assoc, List.append_assoc]
  exact List.Perm.append_left _ List.perm_append_comm

lemma wait (h : Inv pl k d) (quiet : driver.Quiet pl p) (is : pl p = some (.wait c x)) (clear : d.disk c.b = false) :
    Inv (Function.update pl p (some (.collect c x))) 0 d := by
  obtain rfl := h.none_skipped quiet (by simp [is, Place.Skips])
  obtain ⟨rings, done⟩ := h.rings.collect (p := p) (b := c.b) (h := x.i0) (by simp [waiting, is, Place.waits]) clear
  refine h.move quiet rfl ?_ ?_ (fun _ _ _ => ⟨rfl, rfl, rfl⟩) (h.shares_same (by simp [claimed, is, Place.held]))
    (.inl ⟨rfl, by simp [Place.Skips]⟩) rings
  · simp only [Option.mem_some_iff, forall_eq', Place.call, Option.some.injEq]
    exact h.own is rfl
  · simp only [Option.mem_some_iff, forall_eq']
    exact ⟨h.ok is, done⟩

lemma collect (h : Inv pl k d) (quiet : driver.Quiet pl p) (is : pl p = some (.collect c x)) :
    Inv (Function.update pl p (some (.chain c x x.i0))) 0 { d with
      info := Function.update d.info x.i0 { d.info x.i0 with b := none } } := by
  obtain rfl := h.none_skipped quiet (by simp [is, Place.Skips])
  have held : claimed pl p = x.toList := by simp [claimed, is, Place.held]
  have rest : x.rest x.i0 = x.toList := by simp [Idx.rest, Idx.toList]
  refine h.move quiet rfl ?_ ?_ (fun i out _ => ⟨?_, rfl, rfl⟩) (h.shares_same (by simp [held, Place.held, rest]))
    (.inl ⟨rfl, by simp [Place.Skips]⟩) (h.rings_same (by simp [waiting, is, Place.waits]))
  · simp only [Option.mem_some_iff, forall_eq', Place.call, Option.some.injEq]
    exact h.own is rfl
  · simp only [Option.mem_some_iff, forall_eq']
    refine ⟨held ▸ h.shares.nodup p, _, rest, ?_⟩
    exact (h.ok is).1.linked.congr fun _ _ => rfl
  · have ne : i ≠ x.i0 := by
      rintro rfl
      exact out (by simp [held, Idx.toList])
    simp [Function.update_of_ne ne]

lemma chain (h : Inv pl k d) (quiet : driver.Quiet pl p) {i : ℕ} (is : pl p = some (.chain c x i)) :
    ∃ d', d.freeDesc i = .ok d' ∧ Inv (Function.update pl p (some (.chainWakeup c x
      (if (d.desc i).flags &&& VRING_DESC_F_NEXT ≠ 0 then some (d.desc i).next else none)))) 0 d' := by
  obtain ⟨nodup, l, rest, linked⟩ := h.ok is
  have out : i ∉ l := by
    have := h.shares.nodup p
    simp only [claimed, is, Option.elim_some, Place.held, rest] at this
    exact (List.nodup_cons.1 this).1
  cases l with
  | nil =>
    have last : ¬(d.desc i).flags &&& VRING_DESC_F_NEXT ≠ 0 := not_not.2 linked
    obtain ⟨d', eq, -, inv⟩ := h.freeDesc (.chainWakeup c x none) quiet is rest rfl (by simp [Place.call])
      (by simp [Place.Skips]) (by simp [Place.Skips]) rfl rfl
    refine ⟨d', eq, ?_⟩
    rw [if_neg last]
    exact inv trivial
  | cons j l =>
    obtain ⟨more, next, linked⟩ := linked
    have rest' : x.rest j = j :: l := dropWhile_next nodup rest
    obtain ⟨d', eq, desc, inv⟩ := h.freeDesc (.chainWakeup c x (some j)) quiet is rest rest' (by simp [Place.call])
      (by simp [Place.Skips]) (by simp [Place.Skips]) rfl rfl
    refine ⟨d', eq, ?_⟩
    rw [if_pos more, next]
    refine inv ⟨nodup, l, rest', linked.congr fun m mem => ?_⟩
    have ne : m ≠ i := by
      rintro rfl
      exact out mem
    rw [desc, Function.update_of_ne ne]

omit [DecidableEq β] in
lemma back_eq (ne : d.usedIdx ≠ d.used.idx) :
    d.back = d.used.ring (d.usedIdx.toNat % NUM) :: { d with usedIdx := d.usedIdx + 1#16 }.back :=
  Circular.window_take ne

omit [DecidableEq β] in
/-- The chain that the handler looks at belongs to a request that is waited for and that the device has reported. -/
lemma reported (h : Inv pl 0 d) (ne : d.usedIdx ≠ d.used.idx) :
    ∃ q c x, waiting pl q = some (c.b, x.i0) ∧ d.Formatted c x ∧ x.i0 = d.used.ring (d.usedIdx.toNat % NUM) ∧
      d.disk c.b = true ∧ d.done x.i0 = true := by
  have rings := h.rings
  rw [back_eq ne] at rings
  obtain ⟨q, b, w, disk, done⟩ := rings.first
  obtain ⟨c, x, formatted, rfl, head, -⟩ := h.request w
  exact ⟨q, c, x, head ▸ w, formatted, head, disk, head ▸ done⟩

lemma intrBody (h : Inv pl k d) (quiet : driver.Quiet pl p) (is : pl p = some .intrBody) {l' : Place β}
    (a : act d .intrBody = some (l', d')) : ∃ k, Inv (Function.update pl p (some l')) k d' := by
  obtain rfl := h.none_skipped quiet (by simp [is, Place.Skips])
  have ne : d.usedIdx ≠ d.used.idx := h.ok is
  obtain ⟨q, c, x, w, formatted, head, -⟩ := h.reported ne
  simp only [act, ← head, formatted.b] at a
  split at a
  · obtain ⟨rfl, rfl⟩ : _ ∧ _ := by simpa using a
    exact ⟨0, h.shift quiet is rfl (by simp [Place.call]) rfl (by simp [Place.Skips]) rfl⟩
  · obtain ⟨rfl, rfl⟩ : _ ∧ _ := by simpa using a
    refine ⟨1, h.move quiet rfl (by simp [Place.call]) ?_ (fun _ _ _ => ⟨rfl, rfl, rfl⟩)
      (h.shares_same (by simp [claimed, is, Place.held])) (.inr ⟨rfl, by simp [Place.Skips]⟩) ?_⟩
    · simp only [Option.mem_some_iff, forall_eq']
      exact ne
    · have rings := h.rings_same (p := p) (o := some (.intrWakeup c.b)) (by simp [waiting, is, Place.waits])
      have w' : Function.update (waiting pl) p ((some (Place.intrWakeup c.b)).bind Place.waits) q = some (c.b, x.i0) := by
        have : q ≠ p := by
          rintro rfl
          simp [waiting, is, Place.waits] at w
        rwa [Function.update_of_ne this]
      rw [back_eq ne, ← head] at rings
      change Rings _ d.front d.back 1 _ d.done
      rw [back_eq ne, ← head]
      exact rings.clear w'

lemma intrNext (h : Inv pl k d) (quiet : driver.Quiet pl p) (is : pl p = some .intrNext) :
    Inv (Function.update pl p (some .intr)) 0 { d with usedIdx := d.usedIdx + 1#16 } := by
  have ne : d.usedIdx ≠ d.used.idx := h.ok is
  obtain rfl : k = 1 := h.skip.elim (fun no => absurd trivial (no.2 p _ is)) And.left
  refine h.move quiet rfl (by simp [Place.call]) (by simp [Place.Ok]) (fun _ _ _ => ⟨rfl, rfl, rfl⟩)
    (h.shares_same (by simp [claimed, is, Place.held])) (.inl ⟨rfl, by simp [Place.Skips]⟩) ?_
  have rings := h.rings_same (p := p) (o := some .intr) (by simp [waiting, is, Place.waits])
  rw [back_eq ne] at rings
  exact rings.pop

lemma act (h : Inv pl k d) (quiet : driver.Quiet pl p) {l l' : Place β} (is : pl p = some l)
    (a : act d l = some (l', d')) : ∃ k, Inv (Function.update pl p (some l')) k d' := by
  cases l with
  | alloc c =>
    simp only [Virtio.act] at a
    split at a
    case h_1 i0 i1 i2 free eq =>
      obtain ⟨rfl, rfl⟩ : _ ∧ _ := by simpa using a
      have inv := h.alloc (.format c ⟨i0, i1, i2⟩) quiet is (by rw [eq]; rfl) rfl trivial id rfl
      rw [eq] at inv
      exact ⟨0, inv⟩
    case h_2 l free no eq =>
      obtain ⟨rfl, rfl⟩ : _ ∧ _ := by simpa using a
      have inv := h.alloc (.undo c l) quiet is (by rw [eq]; rfl) rfl trivial id rfl
      rw [eq] at inv
      exact ⟨0, inv⟩
  | undo c l =>
    cases l with
    | nil =>
      obtain ⟨rfl, rfl⟩ : _ ∧ _ := by simpa [Virtio.act] using a
      exact ⟨k, h.shift quiet is rfl (by simp [Place.call]) trivial (by simp [Place.Skips]) rfl⟩
    | cons i l =>
      obtain ⟨d'', eq, -, inv⟩ := h.freeDesc (.undoWakeup c l) quiet is rfl rfl (by simp [Place.call]) id id rfl rfl
      simp only [Virtio.act, eq] at a
      obtain ⟨rfl, rfl⟩ : _ ∧ _ := by simpa using a
      exact ⟨0, inv trivial⟩
  | format c x =>
    obtain ⟨rfl, rfl⟩ : _ ∧ _ := by simpa [Virtio.act] using a
    exact ⟨0, h.format quiet is⟩
  | publish c x =>
    obtain ⟨rfl, rfl⟩ : _ ∧ _ := by simpa [Virtio.act] using a
    exact ⟨0, h.publish quiet is⟩
  | wait c x =>
    simp only [Virtio.act, Option.some.injEq, Prod.mk.injEq] at a
    obtain ⟨rfl, rfl⟩ := a
    split
    · exact ⟨k, h.shift quiet is rfl (by simp [Place.call]) (h.ok is :) (by simp [Place.Skips]) rfl⟩
    case isFalse clear => exact ⟨0, h.wait quiet is (by simpa using clear)⟩
  | collect c x =>
    obtain ⟨rfl, rfl⟩ : _ ∧ _ := by simpa [Virtio.act] using a
    exact ⟨0, h.collect quiet is⟩
  | chain c x i =>
    obtain ⟨d'', eq, inv⟩ := h.chain quiet is
    simp only [Virtio.act, eq] at a
    obtain ⟨rfl, rfl⟩ : _ ∧ _ := by simpa using a
    exact ⟨0, by simpa using inv⟩
  | intr =>
    simp only [Virtio.act, Option.some.injEq, Prod.mk.injEq] at a
    obtain ⟨rfl, rfl⟩ := a
    split
    case isTrue ne => exact ⟨k, h.shift quiet is rfl (by simp [Place.call]) ne (by simp [Place.Skips]) rfl⟩
    · exact ⟨k, h.shift quiet is rfl (by simp [Place.call]) trivial (by simp [Place.Skips]) rfl⟩
  | intrBody => exact h.intrBody quiet is a
  | intrNext =>
    obtain ⟨rfl, rfl⟩ : _ ∧ _ := by simpa [Virtio.act] using a
    exact ⟨0, h.intrNext quiet is⟩
  | _ => simp [Virtio.act] at a

omit [DecidableEq β] in
lemma ok_device {l : Place β} (ok : l.Ok d)
    (same : ∀ i, (d'.info i).b = (d.info i).b ∧ d'.ops i = d.ops i ∧ d'.desc i = d.desc i) (avail : d'.avail = d.avail)
    (disk : d'.disk = d.disk) (done : ∀ i, d.done i = true → d'.done i = true)
    (used : d.usedIdx ≠ d.used.idx → d'.usedIdx ≠ d'.used.idx) : l.Ok d' := by
  cases l with
  | publish c x =>
    obtain ⟨formatted, slot, busy⟩ := ok
    exact ⟨formatted.congr fun i _ => same i, by rwa [avail], by rwa [disk]⟩
  | wait c x | sleepBuf c x => exact Disk.Formatted.congr ok fun i _ => same i
  | collect c x => exact ⟨ok.1.congr fun i _ => same i, done _ ok.2⟩
  | chain c x i =>
    obtain ⟨nodup, l, rest, linked⟩ := ok
    exact ⟨nodup, l, rest, linked.congr fun i _ => (same i).2.2⟩
  | chainWakeup c x i =>
    cases i with
    | none => trivial
    | some i =>
      obtain ⟨nodup, l, rest, linked⟩ := ok
      exact ⟨nodup, l, rest, linked.congr fun i _ => (same i).2.2⟩
  | intrBody | intrWakeup | intrNext => exact used ok
  | panic => exact ok
  | fault => exact ok
  | _ => trivial

omit [DecidableEq β] in
lemma le_back (h : Inv pl k d) : k ≤ d.back.length := by
  rcases h.skip with ⟨rfl, -⟩ | ⟨rfl, p, l, is, skips⟩
  · exact Nat.zero_le _
  · have ne : d.usedIdx ≠ d.used.idx := by
      have ok := h.ok is
      cases l <;> first | exact ok | exact skips.elim
    simp [back_eq ne]

omit [DecidableEq β] in
lemma device (h : Inv pl k d) (st : Device d d') : Inv pl k d' := by
  cases st with
  | fetch ne =>
    refine ⟨h.own, fun is => ok_device (h.ok is) (fun _ => ⟨rfl, rfl, rfl⟩) rfl rfl (fun _ => id) id, h.shares, h.skip, ?_⟩
    refine h.rings.perm ?_
    simp only [Disk.front]
    rw [Circular.window_take ne, ← List.append_assoc]
    exact (List.perm_append_singleton _ _).symm
  | @complete head r b i status mem req =>
    have perm : d.front.Perm (head :: (Circular.window NUM d.avail.ring d.seen (d.avail.idx - d.seen).toNat ++
        d.inflight.erase head)) :=
      ((List.perm_cons_erase mem).append_left _).trans List.perm_middle
    have rings := (h.rings.perm perm).report h.le_back
    -- one head is not in the ring yet
    have lt : (d.used.idx - d.usedIdx).toNat < NUM := by
      have len := length_le_of_lt h.rings.nodup fun _ => h.head_lt
      simp only [List.length_append, perm.length_eq, List.length_cons, Disk.back, Circular.length_window] at len
      omega
    have lt' : (d.used.idx - d.usedIdx).toNat + 1 < 2 ^ 16 := by
      simp only [NUM] at lt
      omega
    have push : Circular.window NUM (Function.update d.used.ring (d.used.idx.toNat % NUM) head) d.usedIdx
        (d.used.idx + 1#16 - d.usedIdx).toNat = Circular.window NUM d.used.ring d.usedIdx (d.used.idx - d.usedIdx).toNat ++ [head] :=
      Circular.window_push (by decide) lt lt'
    refine ⟨h.own, fun is => ok_device (h.ok is) (fun j => ⟨?_, rfl, rfl⟩) rfl rfl (fun j done => ?_) fun _ => ?_, h.shares,
      h.skip, ?_⟩
    · by_cases eq : j = i
      · simp [eq]
      · simp [Function.update_of_ne eq]
    · by_cases eq : j = head
      · simp [eq]
      · simpa [Function.update_of_ne eq] using done
    · intro eq
      have := Circular.dist_eq_zero.2 eq
      simp only [Circular.dist_succ lt'] at this
      omega
    · simp only [Disk.back, push]
      exact rings

lemma lock (h : Inv pl k d) (out : pl p = none) (st : Lock p d d') : Inv pl k d' := by
  cases st with
  | @acquire b free =>
    refine ⟨fun {q l c} is call => ?_, fun is => ok_device (h.ok is) (fun _ => ⟨rfl, rfl, rfl⟩) rfl rfl (fun _ => id) id,
      h.shares, h.skip, h.rings⟩
    have own := h.own is call
    have ne : c.b ≠ b := by
      rintro rfl
      simp [free] at own
    simpa [Function.update_of_ne ne] using own
  | @release b mine =>
    refine ⟨fun {q l c} is call => ?_, fun is => ok_device (h.ok is) (fun _ => ⟨rfl, rfl, rfl⟩) rfl rfl (fun _ => id) id,
      h.shares, h.skip, h.rings⟩
    have own := h.own is call
    have ne : c.b ≠ b := by
      rintro rfl
      rw [mine, Option.some.injEq] at own
      subst own
      simp [out] at is
    simpa [Function.update_of_ne ne] using own

omit [DecidableEq β] in
lemma init {avail used : Ring} {info : ℕ → Info β} {ops : ℕ → Req} :
    Inv (fun _ => none) 0 (virtioDiskInit avail used info ops : Disk (Fin (n + 1)) β) where
  own := by simp
  ok := by simp
  shares := ⟨by simp [claimed], by simp [claimed], by simp [claimed], by simp [claimed, virtioDiskInit]⟩
  skip := .inl ⟨rfl, by simp⟩
  rings := by
    have front : (virtioDiskInit avail used info ops : Disk (Fin (n + 1)) β).front = [] := by
      simp [Disk.front, virtioDiskInit]
    have back : (virtioDiskInit avail used info ops : Disk (Fin (n + 1)) β).back = [] := by
      simp [Disk.back, virtioDiskInit]
    rw [front, back]
    exact .empty

lemma keeps : Monitor.Keeps driver fun (pl : Fin (n + 1) → Option (Place β)) d => ∃ k, Inv pl k d where
  start := by
    rintro pl p l d ⟨k, h⟩ quiet out ⟨-, start⟩
    refine ⟨0, h.border quiet ?_ ?_ ?_ ?_ ?_ ?_ ?_ ?_⟩ <;> cases start <;>
      simp_all [Place.call, Place.Ok, Place.Skips, Place.waits, Place.held, claimed, waiting]
  act := by
    rintro pl p l d _ l' d' ⟨k, h⟩ quiet is a
    exact h.act quiet is a
  wakes := by
    rintro pl p l ch l' d ⟨k, h⟩ quiet is wakes
    have ok := h.ok is
    cases wakes with
    | undo | chain | last | intr =>
      exact ⟨k, h.shift quiet is rfl (by simp [Place.call]) ok (by simp [Place.Skips]) rfl⟩
  sleeps := by
    rintro pl p l ch l' d ⟨k, h⟩ quiet is sleeps
    have ok := h.ok is
    cases sleeps with
    | free | buf => exact ⟨k, h.shift quiet is rfl (by simp [Place.call]) ok (by simp [Place.Skips]) rfl⟩
  ends := by
    rintro pl p l d ⟨k, h⟩ quiet is rfl
    refine ⟨0, h.border quiet ?_ ?_ ?_ ?_ ?_ ?_ ?_ ?_⟩ <;> simp [is, claimed, waiting, Place.held, Place.waits, Place.Skips]
  free := by
    rintro pl p d d' ⟨k, h⟩ out (⟨-, device⟩ | ⟨-, lock⟩)
    · exact ⟨k, h.device device⟩
    · exact ⟨k, h.lock out lock⟩

end Inv

end

end Xv6.Virtio
