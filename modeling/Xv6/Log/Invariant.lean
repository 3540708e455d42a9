import Xv6.Log.Machine

/-!
# The log state machine

`Consistent` is what every step of a running machine keeps about `struct log`: `outstanding` counts the
operations in progress, `commit()` runs only when there are none, and while it does not run the header
lists exactly the blocks logged since the last commit, each once. The inversion lemmas say once what a
successful `begin_op`, `end_op` or `log_write` does.
-/

namespace Xv6.Log

lemma beginOp_some {l l' : Log} (h : beginOp l = some l') :
    l.committing = false ∧
      l.lh.length + (l.outstanding + 1) * MAXOPBLOCKS ≤ LOGSIZE ∧
      l' = { l with outstanding := l.outstanding + 1 } := by
  unfold beginOp at h
  split at h
  · cases h
  · rename_i nc
    split at h
    · cases h
    · rename_i room
      cases h
      exact ⟨by simpa using nc, by omega, rfl⟩

lemma endOp_ok {l l' : Log} {c} (h : endOp l = .ok (l', c)) :
    l.committing = false ∧
      l' = { l with outstanding := l.outstanding - 1, committing := c } ∧
      (c = true ↔ l.outstanding - 1 = 0) := by
  unfold endOp at h
  simp only at h
  split at h
  · cases h
  · rename_i nc
    have nc : l.committing = false := by simpa using nc
    split at h
    · rename_i last
      cases h
      exact ⟨nc, rfl, by simpa using last⟩
    · rename_i more
      cases h
      exact ⟨nc, by rw [nc], by simpa using more⟩

lemma endOp_error {l : Log} {msg} (h : endOp l = .error msg) : l.committing = true := by
  unfold endOp at h
  simp only at h
  split at h
  · assumption
  · split at h <;> cases h

lemma logWrite_ok {l l' : Log} {b} (h : logWrite l b = .ok l') :
    l.lh.length < LOGSIZE ∧ l.lh.length < l.size - 1 ∧ 1 ≤ l.outstanding ∧
      l' = { l with lh := absorb l.lh b } := by
  unfold logWrite at h
  split at h
  · cases h
  · rename_i room
    split at h
    · cases h
    · rename_i out
      cases h
      exact ⟨by omega, by omega, by omega, rfl⟩

lemma logWrite_error {l : Log} {b msg} (h : logWrite l b = .error msg) :
    (msg = "too big a transaction" ∧ (LOGSIZE ≤ l.lh.length ∨ l.size - 1 ≤ l.lh.length)) ∨
      (msg = "log_write outside of trans" ∧ l.outstanding = 0) := by
  unfold logWrite at h
  split at h
  · rename_i full
    cases h
    exact .inl ⟨rfl, full⟩
  · split at h
    · rename_i out
      cases h
      exact .inr ⟨rfl, by omega⟩
    · cases h

@[simp]
lemma mem_absorb {lh : List Nat} {b c} : c ∈ absorb lh b ↔ c ∈ lh ∨ c = b := by
  induction lh with
  | nil => simp [absorb]
  | cons a lh ih =>
    unfold absorb
    split
    · rename_i e
      subst e
      simp only [List.mem_cons]
      tauto
    · simp only [List.mem_cons, ih]
      tauto

lemma nodup_absorb {lh : List Nat} {b} (nd : lh.Nodup) : (absorb lh b).Nodup := by
  induction lh with
  | nil => simp [absorb]
  | cons a lh ih =>
    rw [List.nodup_cons] at nd
    unfold absorb
    split
    · rename_i e
      subst e
      exact List.nodup_cons.mpr nd
    · rename_i ne
      rw [List.nodup_cons, mem_absorb]
      exact ⟨by tauto, ih nd.2⟩

lemma length_absorb {lh : List Nat} {b} : (absorb lh b).length ≤ lh.length + 1 := by
  induction lh with
  | nil => simp [absorb]
  | cons a lh ih =>
    unfold absorb
    split <;> simp only [List.length_cons] <;> omega

lemma absorb_of_notMem {lh : List Nat} {b} (nm : b ∉ lh) : absorb lh b = lh ++ [b] := by
  induction lh with
  | nil => rfl
  | cons a lh ih =>
    simp only [List.mem_cons, not_or] at nm
    rw [absorb, if_neg (Ne.symm nm.1), ih nm.2, List.cons_append]

/-- What the position of the committing process says about the log. -/
def Phase (s : State) : Prop :=
  match s.pc with
  | .run =>
    s.log.committing = false ∧ (s.log.outstanding = 0 → s.log.lh = []) ∧
      ∀ b, b ∈ s.log.lh ↔ b ∈ s.cur.map Update.block
  | .writeLog tail | .installTrans tail =>
    s.log.committing = true ∧ s.log.outstanding = 0 ∧ s.cur = [] ∧ tail ≤ s.log.lh.length
  | .committed =>
    s.log.committing = true ∧ s.log.outstanding = 0 ∧ s.cur = [] ∧ s.log.lh = []
  | .boot | .recover _ => False

/-- The invariant of the log state machine. -/
structure Consistent (s : State) : Prop where
  count : s.active.length = s.log.outstanding
  nodup : s.log.lh.Nodup
  home : ∀ b ∈ s.log.lh, s.log.Home b ∧ b < 2 ^ 32
  fit : s.log.lh.length ≤ LOGSIZE ∧ s.log.lh.length ≤ s.log.size - 1
  phase : Phase s

lemma Consistent.outstanding_pos {s p o} (inv : Consistent s) (mem : (p, o) ∈ s.active) :
    1 ≤ s.log.outstanding := by
  rw [← inv.count]
  exact List.length_pos_of_mem mem

lemma Consistent.pc_run {s p o} (inv : Consistent s) (mem : (p, o) ∈ s.active) : s.pc = .run := by
  have pos := inv.outstanding_pos mem
  have ph := inv.phase
  unfold Phase at ph
  split at ph
  · assumption
  · omega
  · omega
  · omega
  · exact ph.elim
  · exact ph.elim

lemma Consistent.at_run {s} (inv : Consistent s) (run : s.pc = .run) :
    s.log.committing = false ∧ (s.log.outstanding = 0 → s.log.lh = []) ∧
      ∀ b, b ∈ s.log.lh ↔ b ∈ s.cur.map Update.block := by
  have ph := inv.phase
  rwa [Phase, run] at ph

lemma Consistent.at_writeLog {s tail} (inv : Consistent s) (at_ : s.pc = .writeLog tail) :
    s.log.committing = true ∧ s.log.outstanding = 0 ∧ s.cur = [] ∧ tail ≤ s.log.lh.length := by
  have ph := inv.phase
  rwa [Phase, at_] at ph

lemma Consistent.at_installTrans {s tail} (inv : Consistent s) (at_ : s.pc = .installTrans tail) :
    s.log.committing = true ∧ s.log.outstanding = 0 ∧ s.cur = [] ∧ tail ≤ s.log.lh.length := by
  have ph := inv.phase
  rwa [Phase, at_] at ph

lemma Consistent.at_committed {s} (inv : Consistent s) (at_ : s.pc = .committed) :
    s.log.committing = true ∧ s.log.outstanding = 0 ∧ s.cur = [] ∧ s.log.lh = [] := by
  have ph := inv.phase
  rwa [Phase, at_] at ph

lemma Consistent.step {s a s'} (inv : Consistent s) (st : Step s a s') : Consistent s' := by
  cases st with
  | @beginOp p l _ nb nr _ adm =>
    obtain ⟨nc, _, rfl⟩ := beginOp_some adm
    refine ⟨by simp [inv.count], inv.nodup, inv.home, inv.fit, ?_⟩
    have ph := inv.phase
    unfold Phase at ph ⊢
    split at ph
    · rename_i run
      simp only [run]
      exact ⟨ph.1, by simp, ph.2.2⟩
    · simp [nc] at ph
    · simp [nc] at ph
    · simp [nc] at ph
    · exact ph.elim
    · exact ph.elim
  | @logWrite p o b v l _ mem hm lt ok =>
    obtain ⟨lt1, lt2, pos, rfl⟩ := logWrite_ok ok
    have len := @length_absorb s.log.lh b
    have run := inv.pc_run mem
    obtain ⟨nc, _, cur⟩ := inv.at_run run
    refine ⟨inv.count, nodup_absorb inv.nodup, ?_, ?_, ?_⟩
    · intro c hc
      rw [mem_absorb] at hc
      cases hc with
      | inl hc => exact inv.home c hc
      | inr e =>
        subst e
        exact ⟨hm, lt⟩
    · exact ⟨by simp only; omega, by simp only; omega⟩
    · simp only [Phase, run]
      refine ⟨nc, by omega, fun c => ?_⟩
      rw [mem_absorb, cur]
      simp [eq_comm]
  | logWritePanic => exact ⟨inv.count, inv.nodup, inv.home, inv.fit, inv.phase⟩
  | @endOp p o l _ mem ok =>
    obtain ⟨nc, rfl, more⟩ := endOp_ok ok
    have run := inv.pc_run mem
    obtain ⟨_, _, cur⟩ := inv.at_run run
    refine ⟨?_, inv.nodup, inv.home, inv.fit, ?_⟩
    · simp [List.length_erase_of_mem mem, inv.count]
    · simp only [Phase, run]
      exact ⟨trivial, fun z => absurd (more.mpr z) (by simp), cur⟩
  | @endOpCommit p o l _ mem ok =>
    obtain ⟨nc, rfl, last⟩ := endOp_ok ok
    refine ⟨?_, inv.nodup, inv.home, inv.fit, ?_⟩
    · simp [List.length_erase_of_mem mem, inv.count]
    · by_cases e : s.log.lh = []
      · simp only [Phase, e, if_true]
        exact ⟨trivial, by simpa using last, trivial, trivial⟩
      · simp only [Phase, if_neg e]
        exact ⟨trivial, by simpa using last, trivial, Nat.zero_le _⟩
  | endOpPanic => exact ⟨inv.count, inv.nodup, inv.home, inv.fit, inv.phase⟩
  | bread => exact ⟨inv.count, inv.nodup, inv.home, inv.fit, inv.phase⟩
  | recycle => exact ⟨inv.count, inv.nodup, inv.home, inv.fit, inv.phase⟩
  | @writeLog tail b _ at_ get =>
    obtain ⟨c, out, cur, le⟩ := inv.at_writeLog at_
    have lt := (List.getElem?_eq_some_iff.mp get).1
    exact ⟨inv.count, inv.nodup, inv.home, inv.fit, c, out, cur, lt⟩
  | writeHead _ at_ =>
    obtain ⟨c, out, cur, le⟩ := inv.at_writeLog at_
    exact ⟨inv.count, inv.nodup, inv.home, inv.fit, c, out, cur, Nat.zero_le _⟩
  | @install tail b _ at_ get =>
    obtain ⟨c, out, cur, le⟩ := inv.at_installTrans at_
    have lt := (List.getElem?_eq_some_iff.mp get).1
    exact ⟨inv.count, inv.nodup, inv.home, inv.fit, c, out, cur, lt⟩
  | clearHead _ at_ =>
    obtain ⟨c, out, cur, le⟩ := inv.at_installTrans at_
    exact ⟨inv.count, List.nodup_nil, by simp [State.clearHead, State.writeHead, State.bwrite],
      by simp [State.clearHead, State.writeHead, State.bwrite], c, out, cur, rfl⟩
  | finish _ at_ =>
    obtain ⟨_, out, cur, lh⟩ := inv.at_committed at_
    refine ⟨inv.count, inv.nodup, inv.home, inv.fit, rfl, fun _ => lh, fun b => ?_⟩
    simp [lh, cur]

/-- The log right after `initlog` on a log whose header is empty. -/
def initial (start size : Nat) (disk : Nat → Block) : State where
  disk := disk
  cache := fun _ => none
  log := ⟨start, size, 0, false, []⟩
  pc := .run
  panic := none
  base := disk
  active := []
  nextOp := 0
  txns := []
  cur := []
  returned := 0

lemma Consistent.initial {start size disk} : Consistent (initial start size disk) :=
  ⟨rfl, List.nodup_nil, by simp [Log.initial], by simp [Log.initial],
    by simp [Phase, Log.initial]⟩

end Xv6.Log
