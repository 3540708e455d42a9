import Xv6.Log.Invariant
import Xv6.Lib.Redo
import Mathlib.Logic.Relation

/-!
# Crashes and recovery

`Trans` adds to the steps of the running machine a crash at any point, which leaves only the disk, and
the steps of `recover_from_log` at the next boot, each block write a step of its own, so that the
machine may crash again during recovery. `recoverFromLog` is the function that an undisturbed recovery
computes on a disk.

The invariant `Running` relates disk, cache and header at every block write of `commit()`: what `bread`
returns is the contents after all logged updates, and the disk can be recovered to the contents after a
whole number of transactions. `Recovering` is the same for the boot that follows a crash. From them the
redo log is atomic: whatever block writes have been done, recovery yields the state after a prefix of
the sequence of transactions (`crash_atomicity`).
-/

namespace Xv6.Log

attribute [local irreducible] readHead writeHead

/-- `install_trans` on the disk, from iteration `tail` on. -/
def installTrans (start : Nat) (d : Nat → Block) : Nat → List Nat → Nat → Block
  | _, [] => d
  | tail, b :: bs => installTrans start (Function.update d b (d (start + tail + 1))) (tail + 1) bs

/-- `recover_from_log`: install the blocks that the header lists, then clear the header. -/
def recoverFromLog (start : Nat) (d : Nat → Block) : Nat → Block :=
  let d' := installTrans start d 0 (readHead (d start))
  Function.update d' start (writeHead (d' start) [])

/-- What is left after a crash: the disk. The transactions lost are still part of the history. -/
def State.crash (s : State) : State :=
  { s with
    cache := fun _ => none
    log := { s.log with outstanding := 0, committing := false, lh := [] }
    pc := .boot
    panic := none
    active := [] }

/-- The machine with crashes and recovery. When recovery is complete a new history begins. -/
inductive Trans : State → State → Prop where
  | step {s a s'} :
    Step s a s' →
    Trans s s'
  | crash {s} :
    Trans s s.crash
  | readHead {s} :
    s.pc = .boot →
    Trans s
      { s.fill s.log.start with
        log := { s.log with lh := readHead (s.bread s.log.start) }
        pc := .recover 0 }
  | install {s tail b} :
    s.pc = .recover tail →
    s.log.lh[tail]? = some b →
    Trans s { s.install tail b with pc := .recover (tail + 1) }
  | clearHead {s} :
    s.pc = .recover s.log.lh.length →
    Trans s
      { s.clearHead with
        pc := .run
        base := s.clearHead.disk
        txns := []
        cur := []
        returned := 0 }

/-- The contents of the blocks after the updates `us`. -/
def State.view (s : State) (us : List Update) : Nat → Block :=
  replay s.base (us.map fun u => (u.block, u.data))

/-- The writes that `install_trans` does, with the contents of the log blocks. -/
def entries (start : Nat) (d : Nat → Block) : Nat → List Nat → List (Nat × Block)
  | _, [] => []
  | tail, b :: bs => (b, d (start + tail + 1)) :: entries start d (tail + 1) bs

@[simp]
lemma map_fst_entries {start d tail lh} : (entries start d tail lh).map Prod.fst = lh := by
  induction lh generalizing tail with
  | nil => rfl
  | cons b bs ih => simp [entries, ih]

lemma mem_entries {start d tail lh w} (mem : w ∈ entries start d tail lh) :
    ∃ i, lh[i]? = some w.1 ∧ w.2 = d (start + (tail + i) + 1) := by
  induction lh generalizing tail with
  | nil => cases mem
  | cons b bs ih =>
    cases mem with
    | head => exact ⟨0, rfl, rfl⟩
    | tail _ mem =>
      obtain ⟨i, get, e⟩ := ih mem
      exact ⟨i + 1, by simpa using get, by rw [e]; congr 2; omega⟩

lemma entries_congr {start d d' tail lh}
    (eq : ∀ i, i < lh.length → d (start + (tail + i) + 1) = d' (start + (tail + i) + 1)) :
    entries start d tail lh = entries start d' tail lh := by
  induction lh generalizing tail with
  | nil => rfl
  | cons b bs ih =>
    have hd : d (start + tail + 1) = d' (start + tail + 1) := eq 0 (by simp)
    have tl : entries start d (tail + 1) bs = entries start d' (tail + 1) bs := by
      apply ih
      intro i lt
      have e := eq (i + 1) (by simpa using lt)
      rwa [show tail + (i + 1) = tail + 1 + i by omega] at e
    rw [entries, entries, hd, tl]

lemma installTrans_eq {l : Log} {d tail lh} (home : ∀ b ∈ lh, l.Home b)
    (fit : tail + lh.length ≤ l.size - 1) :
    installTrans l.start d tail lh = replay d (entries l.start d tail lh) := by
  induction lh generalizing d tail with
  | nil => rfl
  | cons b bs ih =>
    rw [List.length_cons] at fit
    have hb := home b (by simp)
    rw [installTrans, ih (fun c mem => home c (by simp [mem])) (by omega), entries, replay]
    congr 1
    apply entries_congr
    intro i lt
    apply Function.update_of_ne
    unfold Home at hb
    omega

lemma recoverFromLog_home {l : Log} {d b} (home : ∀ b ∈ readHead (d l.start), l.Home b)
    (fit : (readHead (d l.start)).length ≤ l.size - 1) (pos : 1 ≤ l.size) (hb : l.Home b) :
    recoverFromLog l.start d b =
      replay d (entries l.start d 0 (readHead (d l.start))) b := by
  have ne : b ≠ l.start := by
    unfold Home at hb
    omega
  simp only [recoverFromLog]
  rw [Function.update_of_ne ne, installTrans_eq home (by omega)]

lemma readHead_recoverFromLog {start d} : readHead (recoverFromLog start d start) = [] := by
  simp only [recoverFromLog, Function.update_self]
  exact readHead_writeHead_nil

/-- Recovery of the disk yields the contents after the first `k` transactions, which include those
    whose `commit()` has returned. -/
structure Recovers (s : State) (k : Nat) : Prop where
  returned : s.returned ≤ k
  le : k ≤ s.txns.length
  home : ∀ b ∈ readHead (s.disk s.log.start), s.log.Home b
  fit : (readHead (s.disk s.log.start)).length ≤ s.log.size - 1
  redo : ∀ b, s.log.Home b →
    replay s.disk (entries s.log.start s.disk 0 (readHead (s.disk s.log.start))) b =
      s.view (s.txns.take k).flatten b

/-- What the disk holds at every position of the committing process. -/
def Stable (s : State) : Prop :=
  match s.pc with
  | .run | .committed =>
    s.returned = s.txns.length ∧ readHead (s.disk s.log.start) = [] ∧
      ∀ b, s.log.Home b → s.disk b = s.view s.txns.flatten b
  | .writeLog tail =>
    ∃ ts t, s.txns = ts ++ [t] ∧ s.returned = ts.length ∧ readHead (s.disk s.log.start) = [] ∧
      (∀ b, s.log.Home b → s.disk b = s.view ts.flatten b) ∧
      ∀ i b, i < tail → s.log.lh[i]? = some b →
        s.disk (s.log.start + i + 1) = s.view s.txns.flatten b
  | .installTrans _ =>
    s.returned + 1 = s.txns.length ∧ readHead (s.disk s.log.start) = s.log.lh ∧
      ∀ i b, s.log.lh[i]? = some b → s.disk (s.log.start + i + 1) = s.view s.txns.flatten b
  | .boot | .recover _ => False

/-- The invariant of a running machine: buffers not pinned by the log agree with the disk, all buffers
    of home blocks hold the latest logged contents, and the disk is recoverable. -/
structure Running (s : State) : Prop where
  consistent : Consistent s
  pos : 1 ≤ s.log.size
  clean : ∀ b, b ∉ s.pinned → s.bread b = s.disk b
  latest : ∀ b, s.log.Home b → s.bread b = s.view (s.txns.flatten ++ s.cur) b
  stable : Stable s

/-- The invariant of a machine that recovers: no buffer is modified, the disk is recoverable, and the
    log blocks still to be installed complete the recovery. -/
structure Recovering (s : State) : Prop where
  idle : s.active = []
  pos : 1 ≤ s.log.size
  quiet : s.log.outstanding = 0 ∧ s.log.committing = false
  clean : ∀ b, s.bread b = s.disk b
  redo : ∃ k, Recovers s k ∧
    (s.pc = .boot ∨
      ∃ tail, s.pc = .recover tail ∧ tail ≤ s.log.lh.length ∧
        s.log.lh = readHead (s.disk s.log.start) ∧
        ∀ b, s.log.Home b →
          replay s.disk (entries s.log.start s.disk tail (s.log.lh.drop tail)) b =
            s.view (s.txns.take k).flatten b)

/-! ## Buffers -/

@[simp]
lemma bread_fill {s : State} {a} : (s.fill a).bread = s.bread := by
  funext b
  by_cases e : b = a
  · subst e
    simp [State.fill, State.bread]
  · simp [State.fill, State.bread, Function.update_of_ne e]

@[simp]
lemma bread_bwrite {s : State} {a v} : (s.bwrite a v).bread = Function.update s.bread a v := by
  funext b
  by_cases e : b = a
  · subst e
    simp [State.bwrite, State.bread]
  · simp [State.bwrite, State.bread, Function.update_of_ne e]

lemma bread_recycle {s : State} {a} (clean : s.bread a = s.disk a) :
    State.bread { s with cache := Function.update s.cache a none } = s.bread := by
  funext b
  by_cases e : b = a
  · subst e
    rw [clean]
    simp [State.bread]
  · simp [State.bread, Function.update_of_ne e]

lemma Home.ne {l : Log} {b a} (hb : l.Home b) (lo : l.start ≤ a) (hi : a < l.start + l.size) :
    b ≠ a := by
  unfold Home at hb
  omega

lemma view_concat {s : State} {us o b v} :
    s.view (us ++ [⟨o, b, v⟩]) = Function.update (s.view us) b v := by
  rw [State.view, List.map_append]
  exact replay_concat

/-! ## The running machine -/

lemma Running.recovers {s} (inv : Running s) : ∃ k, Recovers s k := by
  have stable := inv.stable
  have replay_nil : ∀ {b}, readHead (s.disk s.log.start) = [] →
      replay s.disk (entries s.log.start s.disk 0 (readHead (s.disk s.log.start))) b =
        s.disk b := by
    intro b e
    rw [e]
    rfl
  unfold Stable at stable
  split at stable
  · obtain ⟨ret, hdr, dsk⟩ := stable
    refine ⟨s.txns.length, by omega, le_rfl, by simp [hdr], by simp [hdr], fun b hb => ?_⟩
    rw [replay_nil hdr, List.take_length, dsk b hb]
  · obtain ⟨ret, hdr, dsk⟩ := stable
    refine ⟨s.txns.length, by omega, le_rfl, by simp [hdr], by simp [hdr], fun b hb => ?_⟩
    rw [replay_nil hdr, List.take_length, dsk b hb]
  · obtain ⟨ts, t, e, ret, hdr, dsk, _⟩ := stable
    refine ⟨ts.length, by omega, by simp [e], by simp [hdr], by simp [hdr], fun b hb => ?_⟩
    rw [replay_nil hdr, dsk b hb, e, List.take_left]
  · rename_i tail at_
    obtain ⟨ret, hdr, vals⟩ := stable
    obtain ⟨_, _, cur, _⟩ := inv.consistent.at_installTrans at_
    refine ⟨s.txns.length, by omega, le_rfl, ?_, ?_, fun b hb => ?_⟩
    · intro b mem
      exact (inv.consistent.home b (hdr ▸ mem)).1
    · rw [hdr]
      exact inv.consistent.fit.2
    · rw [hdr, List.take_length]
      apply replay_eq
      · intro w mem
        obtain ⟨i, get, e⟩ := mem_entries mem
        rw [e, Nat.zero_add, vals i w.1 get]
      · intro nm
        rw [map_fst_entries] at nm
        have out : b ∉ s.pinned := by
          simp only [State.pinned, at_]
          exact fun mem => nm (List.mem_of_mem_drop mem)
        rw [← inv.clean b out, inv.latest b hb, cur, List.append_nil]
  · exact stable.elim
  · exact stable.elim

/-- `log_write` of a modified buffer: the buffer holds the latest contents of its block, and the disk
    is not touched. -/
lemma Running.logWrite {s : State} {p o b v l} (inv : Running s) (mem : (p, o) ∈ s.active)
    (hb : s.log.Home b) (ok : logWrite s.log b = .ok l)
    (consistent : Consistent
      { s with
        cache := Function.update s.cache b (some v)
        log := l
        cur := s.cur ++ [⟨o, b, v⟩] }) :
    Running
      { s with
        cache := Function.update s.cache b (some v)
        log := l
        cur := s.cur ++ [⟨o, b, v⟩] } := by
  obtain ⟨_, _, _, rfl⟩ := logWrite_ok ok
  have run := inv.consistent.pc_run mem
  have stable := inv.stable
  have rd : ∀ {c}, c ≠ b →
      State.bread { s with cache := Function.update s.cache b (some v) } c = s.bread c := by
    intro c ne
    simp [State.bread, Function.update_of_ne ne]
  refine ⟨consistent, inv.pos, fun c nm => ?_, fun c hc => ?_, ?_⟩
  · simp only [State.pinned, run, mem_absorb, not_or] at nm
    have out : c ∉ s.pinned := by
      simp only [State.pinned, run]
      exact nm.1
    exact (rd nm.2).trans (inv.clean c out)
  · change _ = s.view (s.txns.flatten ++ (s.cur ++ [⟨o, b, v⟩])) c
    rw [← List.append_assoc, view_concat]
    by_cases e : c = b
    · subst e
      simp [State.bread]
    · rw [Function.update_of_ne e]
      exact (rd e).trans (inv.latest c hc)
  · simp only [Stable, run] at stable ⊢
    exact stable

lemma Running.endOpCommit {s : State} {p o l} (inv : Running s) (mem : (p, o) ∈ s.active)
    (ok : endOp s.log = .ok (l, true))
    (consistent : Consistent
      { s with
        log := l
        active := s.active.erase (p, o)
        txns := s.txns ++ [s.cur]
        cur := []
        returned := if l.lh = [] then s.returned + 1 else s.returned
        pc := if l.lh = [] then .committed else .writeLog 0 }) :
    Running
      { s with
        log := l
        active := s.active.erase (p, o)
        txns := s.txns ++ [s.cur]
        cur := []
        returned := if l.lh = [] then s.returned + 1 else s.returned
        pc := if l.lh = [] then .committed else .writeLog 0 } := by
  obtain ⟨_, rfl, _⟩ := endOp_ok ok
  have run := inv.consistent.pc_run mem
  obtain ⟨_, _, blocks⟩ := inv.consistent.at_run run
  have stable := inv.stable
  simp only [Stable, run] at stable
  obtain ⟨ret, hdr, dsk⟩ := stable
  refine ⟨consistent, inv.pos, fun c nm => ?_, fun c hc => ?_, ?_⟩
  · apply inv.clean c
    simp only [State.pinned, run]
    intro mem
    by_cases e : s.log.lh = []
    · simp [e] at mem
    · simp only [State.pinned, if_neg e] at nm
      exact nm mem
  · change s.bread c = s.view ((s.txns ++ [s.cur]).flatten ++ []) c
    rw [inv.latest c hc]
    simp
  · by_cases e : s.log.lh = []
    · have cur : s.cur = [] := by
        cases h : s.cur with
        | nil => rfl
        | cons u us =>
          have mem := (blocks u.block).mpr (by simp [h])
          simp [e] at mem
      simp only [Stable, e, if_true]
      refine ⟨by simp [ret], hdr, fun c hc => ?_⟩
      change s.disk c = s.view (s.txns ++ [s.cur]).flatten c
      rw [dsk c hc, cur]
      simp
    · simp only [Stable, if_neg e]
      exact ⟨s.txns, s.cur, rfl, ret, hdr, dsk, by simp⟩

/-- An iteration of `write_log`: the log block gets the latest contents of its home block. -/
lemma Running.writeLog {s : State} {tail b} (inv : Running s) (at_ : s.pc = .writeLog tail)
    (get : s.log.lh[tail]? = some b) (consistent : Consistent (s.writeLog tail b)) :
    Running (s.writeLog tail b) := by
  obtain ⟨_, _, cur, _⟩ := inv.consistent.at_writeLog at_
  have hb := (inv.consistent.home b (List.mem_of_getElem? get)).1
  have lt := (List.getElem?_eq_some_iff.mp get).1
  have fit := inv.consistent.fit.2
  have inLog : ∀ c, s.log.Home c → c ≠ s.log.start + tail + 1 := by
    intro c hc
    exact Home.ne hc (by omega) (by omega)
  have stable := inv.stable
  simp only [Stable, at_] at stable
  obtain ⟨ts, t, e, ret, hdr, dsk, vals⟩ := stable
  have new : s.bread b = s.view s.txns.flatten b := by
    rw [inv.latest b hb, cur, List.append_nil]
  have rd : (s.writeLog tail b).bread = Function.update s.bread (s.log.start + tail + 1) (s.bread b) := by
    change State.bread ((s.fill b).bwrite _ _) = _
    rw [bread_bwrite, bread_fill]
  have dk : (s.writeLog tail b).disk = Function.update s.disk (s.log.start + tail + 1) (s.bread b) :=
    rfl
  refine ⟨consistent, inv.pos, fun c nm => ?_, fun c hc => ?_, ?_⟩
  · rw [rd, dk]
    by_cases ec : c = s.log.start + tail + 1
    · rw [ec, Function.update_self, Function.update_self]
    · rw [Function.update_of_ne ec, Function.update_of_ne ec]
      apply inv.clean c
      simpa [State.pinned, at_, State.writeLog, State.fill, State.bwrite] using nm
  · rw [rd, Function.update_of_ne (inLog c hc)]
    exact inv.latest c hc
  · refine ⟨ts, t, e, ret, ?_, fun c hc => ?_, fun i c lt' get' => ?_⟩
    · change readHead ((s.writeLog tail b).disk s.log.start) = []
      rw [dk, Function.update_of_ne (by omega)]
      exact hdr
    · rw [dk, Function.update_of_ne (inLog c hc)]
      exact dsk c hc
    · change (s.writeLog tail b).disk (s.log.start + i + 1) = s.view s.txns.flatten c
      rw [dk]
      by_cases ei : i = tail
      · subst ei
        have ec : b = c := Option.some.inj (get.symm.trans get')
        rw [Function.update_self, new, ec]
      · rw [Function.update_of_ne (by omega)]
        exact vals i c (by omega) get'

lemma Running.writeHead {s : State} (inv : Running s)
    (at_ : s.pc = .writeLog s.log.lh.length)
    (consistent : Consistent { s.writeHead with pc := .installTrans 0 }) :
    Running { s.writeHead with pc := .installTrans 0 } := by
  have pos := inv.pos
  have stable := inv.stable
  simp only [Stable, at_] at stable
  obtain ⟨ts, t, e, ret, hdr, dsk, vals⟩ := stable
  have rd : State.bread { s.writeHead with pc := .installTrans 0 } =
      Function.update s.bread s.log.start
        (Log.writeHead (s.bread s.log.start) s.log.lh) := bread_bwrite
  have dk : s.writeHead.disk = Function.update s.disk s.log.start
      (Log.writeHead (s.bread s.log.start) s.log.lh) := rfl
  refine ⟨consistent, inv.pos, fun c nm => ?_, fun c hc => ?_, ?_, ?_, fun i c get => ?_⟩
  · rw [rd]
    change _ = s.writeHead.disk c
    rw [dk]
    by_cases ec : c = s.log.start
    · rw [ec, Function.update_self, Function.update_self]
    · rw [Function.update_of_ne ec, Function.update_of_ne ec]
      apply inv.clean c
      simpa [State.pinned, at_, State.writeHead, State.bwrite] using nm
  · have hc : s.log.Home c := hc
    have ne : c ≠ s.log.start := Home.ne hc le_rfl (by omega)
    rw [rd, Function.update_of_ne ne]
    exact inv.latest c hc
  · change s.returned + 1 = s.txns.length
    rw [e, ret]
    simp
  · change readHead (s.writeHead.disk s.log.start) = s.log.lh
    rw [dk, Function.update_self]
    exact readHead_writeHead inv.consistent.fit.1 fun b mem => (inv.consistent.home b mem).2
  · change s.writeHead.disk (s.log.start + i + 1) = s.view s.txns.flatten c
    have lt := (List.getElem?_eq_some_iff.mp get).1
    rw [dk, Function.update_of_ne (by omega)]
    exact vals i c lt get

/-- An iteration of `install_trans`: the home block gets the contents that its buffer already holds. -/
lemma Running.install {s : State} {tail b} (inv : Running s) (at_ : s.pc = .installTrans tail)
    (get : s.log.lh[tail]? = some b)
    (consistent : Consistent { s.install tail b with pc := .installTrans (tail + 1) }) :
    Running { s.install tail b with pc := .installTrans (tail + 1) } := by
  obtain ⟨_, _, cur, _⟩ := inv.consistent.at_installTrans at_
  have hb := (inv.consistent.home b (List.mem_of_getElem? get)).1
  have lt := (List.getElem?_eq_some_iff.mp get).1
  have fit := inv.consistent.fit.2
  have stable := inv.stable
  simp only [Stable, at_] at stable
  obtain ⟨ret, hdr, vals⟩ := stable
  have logBlock : ∀ i, i < s.log.lh.length → s.log.start + i + 1 ≠ b := by
    intro i lt e
    exact Home.ne hb (by omega) (by omega) e.symm
  have unpinned : s.log.start + tail + 1 ∉ s.pinned := by
    intro mem
    simp only [State.pinned, at_] at mem
    have hc := (inv.consistent.home _ (List.mem_of_mem_drop mem)).1
    exact Home.ne hc (by omega) (by omega) rfl
  have v : s.bread (s.log.start + tail + 1) = s.bread b := by
    rw [inv.clean _ unpinned, vals tail b get, inv.latest b hb, cur, List.append_nil]
  have rd : State.bread { s.install tail b with pc := .installTrans (tail + 1) } = s.bread := by
    change State.bread ((s.fill _).bwrite _ _) = _
    rw [bread_bwrite, bread_fill, v, Function.update_eq_self]
  have dk : (s.install tail b).disk = Function.update s.disk b (s.bread b) := by
    rw [← v]
    rfl
  refine ⟨consistent, inv.pos, fun c nm => ?_, fun c hc => ?_, ?_, ?_, fun i c get' => ?_⟩
  · rw [rd]
    change _ = (s.install tail b).disk c
    rw [dk]
    by_cases e : c = b
    · rw [e, Function.update_self]
    · rw [Function.update_of_ne e]
      apply inv.clean c
      intro mem
      apply nm
      simp only [State.pinned, at_, State.install, State.fill, State.bwrite] at mem ⊢
      rw [List.drop_eq_getElem_cons lt] at mem
      cases mem with
      | head => exact absurd (List.getElem?_eq_some_iff.mp get).2 e
      | tail _ mem => exact mem
  · rw [rd]
    exact inv.latest c hc
  · exact ret
  · change readHead ((s.install tail b).disk s.log.start) = s.log.lh
    have ne : s.log.start ≠ b := fun e => Home.ne hb le_rfl (by omega) e.symm
    rw [dk, Function.update_of_ne ne]
    exact hdr
  · change (s.install tail b).disk (s.log.start + i + 1) = s.view s.txns.flatten c
    rw [dk, Function.update_of_ne (logBlock i (List.getElem?_eq_some_iff.mp get').1)]
    exact vals i c get'

lemma Running.clearHead {s : State} (inv : Running s)
    (at_ : s.pc = .installTrans s.log.lh.length)
    (consistent : Consistent { s.clearHead with pc := .committed, returned := s.returned + 1 }) :
    Running { s.clearHead with pc := .committed, returned := s.returned + 1 } := by
  obtain ⟨_, _, cur, _⟩ := inv.consistent.at_installTrans at_
  have pos := inv.pos
  have stable := inv.stable
  simp only [Stable, at_] at stable
  obtain ⟨ret, hdr, vals⟩ := stable
  have clean : ∀ c, s.bread c = s.disk c := by
    intro c
    apply inv.clean c
    simp [State.pinned, at_]
  have rd : State.bread { s.clearHead with pc := .committed, returned := s.returned + 1 } =
      Function.update s.bread s.log.start (Log.writeHead (s.bread s.log.start) []) := by
    change State.bread (State.bwrite _ _ _) = _
    rw [bread_bwrite]
    rfl
  have dk : s.clearHead.disk = Function.update s.disk s.log.start
      (Log.writeHead (s.bread s.log.start) []) := rfl
  have home : ∀ c, s.log.Home c → s.bread c = s.view s.txns.flatten c := by
    intro c hc
    rw [inv.latest c hc, cur, List.append_nil]
  have ne : ∀ c, s.log.Home c → c ≠ s.log.start := by
    intro c hc
    exact Home.ne hc le_rfl (by omega)
  refine ⟨consistent, inv.pos, fun c _ => ?_, fun c hc => ?_, ret, ?_, fun c hc => ?_⟩
  · rw [rd]
    change _ = s.clearHead.disk c
    rw [dk]
    by_cases e : c = s.log.start
    · rw [e, Function.update_self, Function.update_self]
    · rw [Function.update_of_ne e, Function.update_of_ne e, clean c]
  · change _ = s.view (s.txns.flatten ++ s.cur) c
    rw [rd, Function.update_of_ne (ne c hc), cur, List.append_nil]
    exact home c hc
  · change readHead (s.clearHead.disk s.log.start) = []
    rw [dk, Function.update_self]
    exact readHead_writeHead_nil
  · change s.clearHead.disk c = s.view s.txns.flatten c
    rw [dk, Function.update_of_ne (ne c hc), ← clean c]
    exact home c hc

lemma Running.step {s a s'} (inv : Running s) (st : Step s a s') : Running s' := by
  have consistent := inv.consistent.step st
  have stable := inv.stable
  cases st with
  | beginOp _ _ _ _ adm =>
    obtain ⟨_, _, rfl⟩ := beginOp_some adm
    exact ⟨consistent, inv.pos, inv.clean, inv.latest, stable⟩
  | logWrite _ mem hb _ ok => exact inv.logWrite mem hb ok consistent
  | logWritePanic => exact ⟨consistent, inv.pos, inv.clean, inv.latest, stable⟩
  | endOp _ _ ok =>
    obtain ⟨_, rfl, _⟩ := endOp_ok ok
    exact ⟨consistent, inv.pos, inv.clean, inv.latest, stable⟩
  | endOpCommit _ mem ok => exact inv.endOpCommit mem ok consistent
  | endOpPanic => exact ⟨consistent, inv.pos, inv.clean, inv.latest, stable⟩
  | bread =>
    refine ⟨consistent, inv.pos, ?_, ?_, stable⟩
    · rw [bread_fill]
      exact inv.clean
    · rw [bread_fill]
      exact inv.latest
  | recycle _ out =>
    have rd := bread_recycle (inv.clean _ out)
    refine ⟨consistent, inv.pos, ?_, ?_, stable⟩
    · rw [rd]
      exact inv.clean
    · rw [rd]
      exact inv.latest
  | writeLog _ at_ get => exact inv.writeLog at_ get consistent
  | writeHead _ at_ => exact inv.writeHead at_ consistent
  | install _ at_ get => exact inv.install at_ get consistent
  | clearHead _ at_ => exact inv.clearHead at_ consistent
  | finish _ at_ =>
    obtain ⟨_, _, _, lh⟩ := inv.consistent.at_committed at_
    simp only [Stable, at_] at stable
    refine ⟨consistent, inv.pos, fun c _ => ?_, inv.latest, stable⟩
    apply inv.clean c
    simp [State.pinned, at_, lh]

/-! ## Crash and recovery -/

lemma Recovering.crash {s k} (r : Recovers s k) (pos : 1 ≤ s.log.size) : Recovering s.crash :=
  ⟨rfl, pos, ⟨rfl, rfl⟩, fun _ => rfl, k, ⟨r.returned, r.le, r.home, r.fit, r.redo⟩, .inl rfl⟩

lemma Recovering.step {s a s'} (inv : Recovering s) (st : Step s a s') : Recovering s' := by
  obtain ⟨k, r, at_⟩ := inv.redo
  have none_active : ∀ {p o}, (p, o) ∉ s.active := by simp [inv.idle]
  have not_committing : ∀ {q}, s.pc = q → q ≠ .boot → (∀ t, q ≠ .recover t) → False := by
    intro q e nb nr
    obtain e' | ⟨t, e', _⟩ := at_
    · exact nb (e.symm.trans e')
    · exact nr t (e.symm.trans e')
  cases st with
  | beginOp _ nb nr => exact (not_committing rfl nb nr).elim
  | logWrite _ mem => exact absurd mem none_active
  | logWritePanic _ mem => exact absurd mem none_active
  | endOp _ mem => exact absurd mem none_active
  | endOpCommit _ mem => exact absurd mem none_active
  | endOpPanic _ mem => exact absurd mem none_active
  | bread =>
    refine ⟨inv.idle, inv.pos, inv.quiet, ?_, k, ?_, at_⟩
    · rw [bread_fill]
      exact inv.clean
    · exact ⟨r.returned, r.le, r.home, r.fit, r.redo⟩
  | recycle =>
    refine ⟨inv.idle, inv.pos, inv.quiet, ?_, k, ?_, at_⟩
    · rw [bread_recycle (inv.clean _)]
      exact inv.clean
    · exact ⟨r.returned, r.le, r.home, r.fit, r.redo⟩
  | writeLog _ e => exact (not_committing e nofun nofun).elim
  | writeHead _ e => exact (not_committing e nofun nofun).elim
  | install _ e => exact (not_committing e nofun nofun).elim
  | clearHead _ e => exact (not_committing e nofun nofun).elim
  | finish _ e => exact (not_committing e nofun nofun).elim

lemma Recovering.readHead {s : State} (inv : Recovering s) :
    Recovering
      { s.fill s.log.start with
        log := { s.log with lh := readHead (s.bread s.log.start) }
        pc := .recover 0 } := by
  obtain ⟨k, r, _⟩ := inv.redo
  have hdr : s.bread s.log.start = s.disk s.log.start := inv.clean _
  refine ⟨inv.idle, inv.pos, inv.quiet, ?_, k, ?_, .inr ⟨0, rfl, Nat.zero_le _, ?_, ?_⟩⟩
  · change ∀ b, (s.fill s.log.start).bread b = s.disk b
    rw [bread_fill]
    exact inv.clean
  · exact ⟨r.returned, r.le, r.home, r.fit, r.redo⟩
  · change Log.readHead (s.bread s.log.start) = Log.readHead (s.disk s.log.start)
    rw [hdr]
  · change ∀ b, s.log.Home b → replay s.disk
      (entries s.log.start s.disk 0 (Log.readHead (s.bread s.log.start))) b = _
    rw [hdr]
    exact r.redo

/-- An iteration of `install_trans` during recovery. Recovery from the disk it leaves does the same
    writes again, over blocks that already hold what is written. -/
lemma Recovering.install {s : State} {tail b} (inv : Recovering s) (at_ : s.pc = .recover tail)
    (get : s.log.lh[tail]? = some b) :
    Recovering { s.install tail b with pc := .recover (tail + 1) } := by
  obtain ⟨k, r, e | ⟨t, e, le, hdr, rest⟩⟩ := inv.redo
  · simp [at_] at e
  obtain rfl : tail = t := by simpa [at_] using e
  have lt := (List.getElem?_eq_some_iff.mp get).1
  have bmem : b ∈ s.log.lh := List.mem_of_getElem? get
  have home := r.home
  have fit := r.fit
  rw [← hdr] at home fit
  have hb := home b bmem
  have pos := inv.pos
  have dk : (s.install tail b).disk =
      Function.update s.disk b (s.disk (s.log.start + tail + 1)) := by
    rw [← inv.clean]
    rfl
  have rd : State.bread { s.install tail b with pc := .recover (tail + 1) } =
      (s.install tail b).disk := by
    have clean : s.bread = s.disk := funext inv.clean
    change State.bread ((s.fill _).bwrite _ _) = _
    rw [bread_bwrite, bread_fill, dk, clean]
  have hdr' : (s.install tail b).disk s.log.start = s.disk s.log.start := by
    rw [dk, Function.update_of_ne]
    exact fun e => Home.ne hb le_rfl (by omega) e.symm
  have same : ∀ t lh, t + lh.length ≤ s.log.lh.length →
      entries s.log.start (s.install tail b).disk t lh = entries s.log.start s.disk t lh := by
    intro t lh le
    apply entries_congr
    intro i lt
    rw [dk, Function.update_of_ne]
    exact fun e => Home.ne hb (by omega) (by omega) e.symm
  refine ⟨inv.idle, inv.pos, inv.quiet, fun c => congrFun rd c, k, ?_, .inr ?_⟩
  · refine ⟨r.returned, r.le, ?_, ?_, fun c hc => ?_⟩
    · change ∀ c ∈ Log.readHead ((s.install tail b).disk s.log.start), s.log.Home c
      rw [hdr']
      exact r.home
    · change (Log.readHead ((s.install tail b).disk s.log.start)).length ≤ s.log.size - 1
      rw [hdr']
      exact r.fit
    · change replay (s.install tail b).disk (entries s.log.start (s.install tail b).disk 0
        (Log.readHead ((s.install tail b).disk s.log.start))) c = s.view (s.txns.take k).flatten c
      rw [hdr', same 0 _ (by rw [← hdr]; omega), ← r.redo c hc]
      apply replay_congr
      intro nm
      rw [map_fst_entries, ← hdr] at nm
      rw [dk, Function.update_of_ne]
      exact fun e => nm (e ▸ bmem)
  · refine ⟨tail + 1, rfl, lt, ?_, fun c hc => ?_⟩
    · change s.log.lh = Log.readHead ((s.install tail b).disk s.log.start)
      rw [hdr']
      exact hdr
    · have rest := rest c hc
      have hd : s.log.lh.drop tail = b :: s.log.lh.drop (tail + 1) := by
        rw [List.drop_eq_getElem_cons lt, (List.getElem?_eq_some_iff.mp get).2]
      change replay (s.install tail b).disk (entries s.log.start (s.install tail b).disk (tail + 1)
        (s.log.lh.drop (tail + 1))) c = s.view (s.txns.take k).flatten c
      rw [same _ _ (by rw [List.length_drop]; omega), dk, ← rest, hd]
      rfl

lemma Recovering.clearHead {s : State} (inv : Recovering s) :
    Running
      { s.clearHead with
        pc := .run
        base := s.clearHead.disk
        txns := []
        cur := []
        returned := 0 } := by
  have dk : s.clearHead.disk = Function.update s.disk s.log.start
      (Log.writeHead (s.bread s.log.start) []) := rfl
  have rd : s.clearHead.bread = s.clearHead.disk := by
    have clean : s.bread = s.disk := funext inv.clean
    rw [dk, ← clean]
    change State.bread (State.bwrite _ _ _) = _
    rw [bread_bwrite]
    rfl
  refine ⟨⟨?_, List.nodup_nil, by simp [State.clearHead, State.writeHead, State.bwrite],
    by simp [State.clearHead, State.writeHead, State.bwrite], ?_⟩, inv.pos,
    fun c _ => congrFun rd c, fun c _ => congrFun rd c, rfl, ?_, fun c _ => rfl⟩
  · change s.active.length = s.log.outstanding
    rw [inv.idle, inv.quiet.1]
    rfl
  · exact ⟨inv.quiet.2, fun _ => rfl, fun b => by simp [State.clearHead, State.writeHead, State.bwrite]⟩
  · change Log.readHead (s.clearHead.disk s.log.start) = []
    rw [dk, Function.update_self]
    exact readHead_writeHead_nil

/-- The invariant of the machine with crashes: it runs or it recovers. -/
def Safe (s : State) : Prop := Running s ∨ Recovering s

lemma Safe.recovers {s} (inv : Safe s) : ∃ k, Recovers s k := by
  cases inv with
  | inl run => exact run.recovers
  | inr rec =>
    obtain ⟨k, r, _⟩ := rec.redo
    exact ⟨k, r⟩

lemma Safe.pos {s} (inv : Safe s) : 1 ≤ s.log.size := by
  cases inv with
  | inl run => exact run.pos
  | inr rec => exact rec.pos

lemma Safe.trans {s s'} (inv : Safe s) (tr : Trans s s') : Safe s' := by
  have recovering : ∀ {q}, s.pc = q → Running s → (q = .boot ∨ ∃ t, q = .recover t) → False := by
    intro q e run at_
    have stable := run.stable
    obtain rfl | ⟨t, rfl⟩ := at_
    · simp [Stable, e] at stable
    · simp [Stable, e] at stable
  cases tr with
  | step st =>
    cases inv with
    | inl run => exact .inl (run.step st)
    | inr rec => exact .inr (rec.step st)
  | crash =>
    obtain ⟨k, r⟩ := Safe.recovers inv
    cases inv with
    | inl run => exact .inr (.crash r run.pos)
    | inr rec => exact .inr (.crash r rec.pos)
  | readHead e =>
    cases inv with
    | inl run => exact (recovering e run (.inl rfl)).elim
    | inr rec => exact .inr rec.readHead
  | install e get =>
    cases inv with
    | inl run => exact (recovering e run (.inr ⟨_, rfl⟩)).elim
    | inr rec => exact .inr (rec.install e get)
  | clearHead e =>
    cases inv with
    | inl run => exact (recovering e run (.inr ⟨_, rfl⟩)).elim
    | inr rec => exact .inl rec.clearHead

end Xv6.Log
