import Mathlib.Data.List.Perm.Subperm
import Mathlib.Data.List.Nodup
import Mathlib.Logic.Function.Basic

/-!
# Shares of a table, and requests to a device

What the driver's invariant is made of, for processes `ι`. `Shares` divides the entries of a table that are in use among
processes. `Rings` follows the requests that processes wait for: from the list of heads that the device has not reported to the
list of heads that have been reported, and out of it.
-/

namespace Xv6.Virtio

variable {ι β : Type*}

/-! ### Shares -/

/-- The entries below `N` that are not free are divided among the processes. -/
structure Shares (N : ℕ) (free : ℕ → Bool) (held : ι → List ℕ) : Prop where
  nodup : ∀ p, (held p).Nodup
  bound : ∀ {p i}, i ∈ held p → i < N
  apart : ∀ {p q i}, i ∈ held p → i ∈ held q → p = q
  used : ∀ {i}, i < N → (free i = false ↔ ∃ p, i ∈ held p)

lemma Shares.update [DecidableEq ι] {N : ℕ} {free free' : ℕ → Bool} {held : ι → List ℕ} (h : Shares N free held) {p : ι} {l : List ℕ}
    (nodup : l.Nodup) (got : ∀ i ∈ l, i ∈ held p ∨ i < N ∧ free i = true)
    (now : ∀ i < N, free' i = false ↔ i ∈ l ∨ free i = false ∧ i ∉ held p) :
    Shares N free' (Function.update held p l) := by
  have apart : ∀ {q i}, q ≠ p → i ∈ l → i ∉ held q := by
    intro q i ne mem mem'
    rcases got i mem with mine | ⟨lt, eq⟩
    · exact ne (h.apart mem' mine)
    · have := (h.used lt).2 ⟨q, mem'⟩
      simp [eq] at this
  constructor
  case nodup =>
    intro q
    by_cases eq : q = p
    · subst eq
      simpa using nodup
    · simpa [Function.update_of_ne eq] using h.nodup q
  case bound =>
    intro q i mem
    by_cases eq : q = p
    · subst eq
      exact (got i (by simpa using mem)).elim h.bound And.left
    · exact h.bound (p := q) (by simpa [Function.update_of_ne eq] using mem)
  case apart =>
    intro q r i mq mr
    by_cases eq : q = p <;> by_cases er : r = p
    · rw [eq, er]
    · subst eq
      exact absurd (by simpa [Function.update_of_ne er] using mr) (apart er (by simpa using mq))
    · subst er
      exact absurd (by simpa [Function.update_of_ne eq] using mq) (apart eq (by simpa using mr))
    · exact h.apart (by simpa [Function.update_of_ne eq] using mq) (by simpa [Function.update_of_ne er] using mr)
  case used =>
    intro i lt
    rw [now i lt]
    constructor
    · rintro (mem | ⟨used, out⟩)
      · exact ⟨p, by simpa using mem⟩
      · obtain ⟨q, mem⟩ := (h.used lt).1 used
        have ne : q ≠ p := by
          rintro rfl
          exact out mem
        exact ⟨q, by simpa [Function.update_of_ne ne] using mem⟩
    · rintro ⟨q, mem⟩
      by_cases eq : q = p
      · subst eq
        exact .inl (by simpa using mem)
      · have mem : i ∈ held q := by simpa [Function.update_of_ne eq] using mem
        exact .inr ⟨(h.used lt).2 ⟨q, mem⟩, fun mine => eq (h.apart mem mine)⟩

lemma Shares.give [DecidableEq ι] {N : ℕ} {free : ℕ → Bool} {held : ι → List ℕ} (h : Shares N free held) {p : ι} {i : ℕ}
    {l : List ℕ} (has : held p = i :: l) :
    i < N ∧ free i = false ∧ Shares N (Function.update free i true) (Function.update held p l) := by
  have lt : i < N := h.bound (p := p) (by simp [has])
  have used : ∀ {j}, j ∈ held p → free j = false := fun mem => (h.used (h.bound mem)).2 ⟨p, mem⟩
  obtain ⟨out, nodup⟩ := List.nodup_cons.1 (has ▸ h.nodup p)
  refine ⟨lt, used (by simp [has]), h.update nodup (fun j mem => .inl (by simp [has, mem])) fun j _ => ?_⟩
  by_cases eq : j = i
  · subst eq
    simp [out, has]
  · have : j ∈ l → free j = false := fun mem => used (by simp [has, mem])
    simp only [Function.update_of_ne eq, has, List.mem_cons, eq, false_or]
    tauto

lemma length_le_of_lt {N : ℕ} {l : List ℕ} (nodup : l.Nodup) (bound : ∀ i ∈ l, i < N) : l.length ≤ N := by
  have sub : l ⊆ List.range N := fun i mem => List.mem_range.2 (bound i mem)
  simpa using (nodup.subperm sub).length_le

/-! ### Requests -/

/-- Where a request with the head `h` is, if the heads in `front` have not been reported and those in `back` have: with the
device, reported, or cleared. -/
inductive Stage (front back : List ℕ) (h : ℕ) (disk done : Bool) : Prop where
  | device : h ∈ front → disk = true → done = false → Stage front back h disk done
  | reported : h ∈ back → disk = true → done = true → Stage front back h disk done
  | cleared : h ∉ front → h ∉ back → disk = false → done = true → Stage front back h disk done

/-- The process `p` waits for a request for the buffer `b` with the head `h` if `waits p = some (b, h)`. Of the heads that have
been reported the first `k` have been cleared. -/
structure Rings (waits : ι → Option (β × ℕ)) (front back : List ℕ) (k : ℕ) (disk : β → Bool) (done : ℕ → Bool) : Prop where
  nodup : (front ++ back).Nodup
  heads : ∀ {h}, h ∈ front ++ back → ∃ p b, waits p = some (b, h)
  stage : ∀ {p b h}, waits p = some (b, h) → Stage front (back.drop k) h (disk b) (done h)
  head : ∀ {p q b b' h}, waits p = some (b, h) → waits q = some (b', h) → p = q
  buf : ∀ {p q b h h'}, waits p = some (b, h) → waits q = some (b, h') → p = q

namespace Rings

variable {waits : ι → Option (β × ℕ)} {front front' back back' : List ℕ} {k h : ℕ} {disk : β → Bool} {done : ℕ → Bool}
  {p : ι} {b : β}

lemma empty {disk : β → Bool} : Rings (fun _ : ι => none) [] [] 0 disk done where
  nodup := by simp
  heads := by simp
  stage := by simp
  head := by simp
  buf := by simp

lemma perm (r : Rings waits front back k disk done) (perm : front.Perm front') : Rings waits front' back k disk done where
  nodup := (perm.append_right back).nodup_iff.1 r.nodup
  heads mem := r.heads ((perm.append_right back).mem_iff.2 mem)
  stage w := by
    obtain mem | mem | mem := r.stage w
    · exact .device (perm.mem_iff.1 mem) ‹_› ‹_›
    · exact .reported mem ‹_› ‹_›
    · exact .cleared (mt perm.mem_iff.2 mem) ‹_› ‹_› ‹_›
  head := r.head
  buf := r.buf

lemma congr_disk {disk' : β → Bool} (r : Rings waits front back k disk done)
    (same : ∀ {p b h}, waits p = some (b, h) → disk' b = disk b) : Rings waits front back k disk' done :=
  ⟨r.nodup, r.heads, fun w => same w ▸ r.stage w, r.head, r.buf⟩

lemma publish [DecidableEq ι] (r : Rings waits front back k disk done) (out : waits p = none) (head : ∀ q b', waits q ≠ some (b', h))
    (buf : ∀ q h', waits q ≠ some (b, h')) (busy : disk b = true) :
    Rings (Function.update waits p (some (b, h))) (front ++ [h]) back k disk (Function.update done h false) := by
  have fresh : h ∉ front ++ back := by
    intro mem
    obtain ⟨q, b', w⟩ := r.heads mem
    exact head q b' w
  have cases : ∀ {q b' h'}, Function.update waits p (some (b, h)) q = some (b', h') →
      q = p ∧ b' = b ∧ h' = h ∨ q ≠ p ∧ waits q = some (b', h') ∧ b' ≠ b ∧ h' ≠ h := by
    intro q b' h' w
    by_cases eq : q = p
    · subst eq
      simp only [Function.update_self, Option.some.injEq, Prod.mk.injEq] at w
      exact .inl ⟨rfl, w.1.symm, w.2.symm⟩
    · rw [Function.update_of_ne eq] at w
      refine .inr ⟨eq, w, ?_, ?_⟩
      · rintro rfl
        exact buf q h' w
      · rintro rfl
        exact head q b' w
  simp only [List.mem_append, not_or] at fresh
  constructor
  case nodup =>
    have perm : (front ++ [h] ++ back).Perm (h :: (front ++ back)) := by
      rw [List.append_assoc]
      exact List.perm_middle
    rw [perm.nodup_iff, List.nodup_cons]
    exact ⟨by simpa using fresh, r.nodup⟩
  case heads =>
    intro h' mem
    by_cases eq : h' = h
    · exact ⟨p, b, by simp [eq]⟩
    · obtain ⟨q, b', w⟩ := r.heads (h := h') (by simpa [eq] using mem)
      have ne : q ≠ p := by
        rintro rfl
        simp [out] at w
      exact ⟨q, b', by rwa [Function.update_of_ne ne]⟩
  case stage =>
    intro q b' h' w
    rcases cases w with ⟨-, rfl, rfl⟩ | ⟨-, w, -, ne⟩
    · exact .device (by simp) busy (by simp)
    · rw [Function.update_of_ne ne]
      obtain mem | mem | mem := r.stage w
      · exact .device (by simp [mem]) ‹_› ‹_›
      · exact .reported mem ‹_› ‹_›
      · exact .cleared (by simp [mem, ne]) ‹_› ‹_› ‹_›
  case head =>
    intro q q' b' b'' h' w w'
    rcases cases w with ⟨rfl, -, rfl⟩ | ⟨-, w, -, ne⟩ <;> rcases cases w' with ⟨rfl, -, eq⟩ | ⟨-, w', -, ne'⟩
    · rfl
    · exact absurd rfl ne'
    · exact absurd eq ne
    · exact r.head w w'
  case buf =>
    intro q q' b' h' h'' w w'
    rcases cases w with ⟨rfl, rfl, -⟩ | ⟨-, w, ne, -⟩ <;> rcases cases w' with ⟨rfl, eq, -⟩ | ⟨-, w', ne', -⟩
    · rfl
    · exact absurd rfl ne'
    · exact absurd eq ne
    · exact r.buf w w'

lemma report (r : Rings waits (h :: front) back k disk done) (le : k ≤ back.length) :
    Rings waits front (back ++ [h]) k disk (Function.update done h true) := by
  have perm : (h :: front ++ back).Perm (front ++ (back ++ [h])) := by
    rw [← List.append_assoc]
    exact (List.perm_append_singleton h (front ++ back)).symm
  have nodup := r.nodup
  simp only [List.cons_append, List.nodup_cons, List.mem_append, not_or] at nodup
  constructor
  case nodup => exact perm.nodup_iff.1 r.nodup
  case heads => exact fun mem => r.heads (perm.mem_iff.2 mem)
  case stage =>
    intro q b' h' w
    rw [List.drop_append_of_le_length le]
    by_cases eq : h' = h
    · subst eq
      rw [Function.update_self]
      obtain mem | mem | mem := r.stage w
      · exact .reported (by simp) ‹_› rfl
      · exact absurd (List.mem_of_mem_drop mem) nodup.1.2
      · simp at mem
    · rw [Function.update_of_ne eq]
      obtain mem | mem | mem := r.stage w
      · exact .device (by simpa [eq] using mem) ‹_› ‹_›
      · exact .reported (by simp [mem]) ‹_› ‹_›
      · exact .cleared (by simp_all) (by simp_all) ‹_› ‹_›
  case head => exact r.head
  case buf => exact r.buf

lemma first (r : Rings waits front (h :: back) 0 disk done) : ∃ p b, waits p = some (b, h) ∧ disk b = true ∧ done h = true := by
  obtain ⟨p, b, w⟩ := r.heads (h := h) (by simp)
  have nodup := r.nodup
  refine ⟨p, b, w, ?_⟩
  obtain mem | mem | mem := r.stage w
  · simp only [List.nodup_append', List.disjoint_cons_right] at nodup
    exact absurd mem nodup.2.2.1
  · exact ⟨‹_›, ‹_›⟩
  · simp_all

lemma clear [DecidableEq β] (r : Rings waits front (h :: back) 0 disk done) (w : waits p = some (b, h)) :
    Rings waits front (h :: back) 1 (Function.update disk b false) done := by
  have nodup := r.nodup
  simp only [List.nodup_append', List.nodup_cons, List.disjoint_cons_right] at nodup
  refine ⟨r.nodup, r.heads, fun {q b' h'} w' => ?_, r.head, r.buf⟩
  by_cases eq : b' = b
  · subst eq
    obtain rfl := r.buf w w'
    obtain rfl : h = h' := by simpa [w] using w'
    obtain ⟨_, _, w'', -, done⟩ := r.first
    exact .cleared nodup.2.2.1 (by simpa using nodup.2.1.1) (by simp) done
  · have ne : h' ≠ h := by
      rintro rfl
      obtain rfl := r.head w w'
      simp_all
    rw [Function.update_of_ne eq]
    obtain mem | mem | mem := r.stage w'
    · exact .device mem ‹_› ‹_›
    · exact .reported (by simpa [ne] using mem) ‹_› ‹_›
    · exact .cleared mem (by simp_all) ‹_› ‹_›

lemma pop (r : Rings waits front (h :: back) 1 disk done) : Rings waits front back 0 disk done where
  nodup := by
    have nodup := r.nodup
    simp only [List.nodup_append', List.nodup_cons, List.disjoint_cons_right] at nodup ⊢
    exact ⟨nodup.1, nodup.2.1.2, nodup.2.2.2⟩
  heads mem := r.heads (by simp only [List.mem_append, List.mem_cons] at *; tauto)
  stage w := r.stage w
  head := r.head
  buf := r.buf

lemma collect [DecidableEq ι] (r : Rings waits front back 0 disk done) (w : waits p = some (b, h)) (clear : disk b = false) :
    Rings (Function.update waits p none) front back 0 disk done ∧ done h = true := by
  have cases : ∀ {q b' h'}, Function.update waits p none q = some (b', h') → waits q = some (b', h') := by
    intro q b' h' w'
    by_cases eq : q = p
    · subst eq
      simp at w'
    · rwa [Function.update_of_ne eq] at w'
  have out : h ∉ front ++ back ∧ done h = true := by
    obtain mem | mem | mem := r.stage w
    · simp_all
    · simp_all
    · exact ⟨by simp_all, ‹_›⟩
  refine ⟨⟨r.nodup, fun {h'} mem => ?_, fun w' => r.stage (cases w'), fun w w' => r.head (cases w) (cases w'),
    fun w w' => r.buf (cases w) (cases w')⟩, out.2⟩
  obtain ⟨q, b', w'⟩ := r.heads mem
  have ne : q ≠ p := by
    rintro rfl
    obtain ⟨rfl, rfl⟩ : b = b' ∧ h = h' := by simpa [w] using w'
    exact out.1 mem
  exact ⟨q, b', by rwa [Function.update_of_ne ne]⟩

lemma disk_eq_false_iff (r : Rings waits front back 0 disk done) (w : waits p = some (b, h)) :
    disk b = false ↔ done h = true ∧ h ∉ back := by
  obtain mem | mem | mem := r.stage w <;> simp_all

end Rings

end Xv6.Virtio
