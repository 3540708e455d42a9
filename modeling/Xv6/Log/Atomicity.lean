import Xv6.Log.Crash

/-!
# Crash atomicity

The redo log is atomic. `Grouped` says that the updates of one `begin_op`/`end_op` operation belong to
one transaction, and `recover_run` that the steps of `recover_from_log` compute `recoverFromLog`.
Together with the invariant of `Xv6/Log/Crash.lean` they give `crash_atomicity`.
-/

namespace Xv6.Log

attribute [local irreducible] readHead writeHead

/-- The updates of an operation are in one transaction: an operation in progress has none in an earlier
    transaction, and the updates of different transactions are of different operations. -/
structure Grouped (s : State) : Prop where
  fresh : ∀ u ∈ s.txns.flatten ++ s.cur, u.op < s.nextOp
  inProgress : ∀ p o, (p, o) ∈ s.active → o < s.nextOp ∧ ∀ u ∈ s.txns.flatten, u.op ≠ o
  apart : (s.txns ++ [s.cur]).Pairwise fun t t' => ∀ u ∈ t, ∀ u' ∈ t', u.op ≠ u'.op

lemma Grouped.step {s a s'} (inv : Grouped s) (consistent : ∀ {p o}, (p, o) ∈ s.active → Consistent s)
    (st : Step s a s') : Grouped s' := by
  cases st with
  | beginOp _ _ _ _ adm =>
    refine ⟨fun u mem => Nat.lt_succ_of_lt (inv.fresh u mem), ?_, inv.apart⟩
    intro p o mem
    cases mem with
    | head =>
      refine ⟨Nat.lt_succ_self _, fun u mem => ?_⟩
      exact Nat.ne_of_lt (inv.fresh u (List.mem_append_left _ mem))
    | tail _ mem =>
      obtain ⟨lt, ne⟩ := inv.inProgress p o mem
      exact ⟨Nat.lt_succ_of_lt lt, ne⟩
  | @logWrite p o b v l _ mem =>
    obtain ⟨lt, ne⟩ := inv.inProgress p o mem
    refine ⟨?_, inv.inProgress, ?_⟩
    · intro u hu
      rw [← List.append_assoc, List.mem_append, List.mem_singleton] at hu
      obtain hu | rfl := hu
      · exact inv.fresh u hu
      · exact lt
    · have apart := inv.apart
      rw [List.pairwise_append] at apart ⊢
      refine ⟨apart.1, List.pairwise_singleton _ _, ?_⟩
      intro t ht t' ht' u hu u' hu'
      rw [List.mem_singleton] at ht'
      subst ht'
      rw [List.mem_append, List.mem_singleton] at hu'
      obtain hu' | rfl := hu'
      · exact apart.2.2 t ht s.cur (by simp) u hu u' hu'
      · exact ne u (List.mem_flatten.mpr ⟨t, ht, hu⟩)
  | endOp =>
    exact ⟨inv.fresh, fun p o mem => inv.inProgress p o (List.mem_of_mem_erase mem), inv.apart⟩
  | @endOpCommit p o l _ mem ok =>
    obtain ⟨_, rfl, last⟩ := endOp_ok ok
    have alone : s.active.erase (p, o) = [] := by
      apply List.length_eq_zero_iff.mp
      rw [List.length_erase_of_mem mem, (consistent mem).count]
      exact last.mp rfl
    refine ⟨?_, ?_, ?_⟩
    · intro u hu
      simp only [List.flatten_append, List.flatten_singleton, List.append_nil] at hu
      exact inv.fresh u hu
    · intro q o' mem
      simp [alone] at mem
    · rw [List.pairwise_append]
      exact ⟨inv.apart, List.pairwise_singleton _ _, by simp⟩
  | _ => exact ⟨inv.fresh, inv.inProgress, inv.apart⟩

lemma Grouped.trans {s s'} (inv : Grouped s) (safe : Safe s) (tr : Trans s s') : Grouped s' := by
  cases tr with
  | step st =>
    refine inv.step ?_ st
    intro p o mem
    cases safe with
    | inl run => exact run.consistent
    | inr rec => simp [rec.idle] at mem
  | crash => exact ⟨inv.fresh, by simp [State.crash], inv.apart⟩
  | readHead => exact ⟨inv.fresh, inv.inProgress, inv.apart⟩
  | install => exact ⟨inv.fresh, inv.inProgress, inv.apart⟩
  | clearHead e =>
    refine ⟨by simp, ?_, by simp⟩
    intro p o mem
    exact ⟨(inv.inProgress p o mem).1, by simp⟩

lemma Grouped.all_or_none {s} (inv : Grouped s) (k o : Nat) :
    (∀ u ∈ s.txns.flatten ++ s.cur, u.op = o → u ∈ (s.txns.take k).flatten) ∨
      ∀ u ∈ (s.txns.take k).flatten, u.op ≠ o := by
  by_cases ex : ∃ u ∈ (s.txns.take k).flatten, u.op = o
  · left
    obtain ⟨u, hu, eu⟩ := ex
    intro u' hu' eu'
    have apart := inv.apart
    rw [← List.take_append_drop k s.txns, List.append_assoc, List.pairwise_append] at apart
    have split : s.txns.flatten ++ s.cur =
        (s.txns.take k).flatten ++ (s.txns.drop k ++ [s.cur]).flatten := by
      rw [List.flatten_append, ← List.append_assoc, ← List.flatten_append, List.take_append_drop,
        List.flatten_singleton]
    rw [split, List.mem_append] at hu'
    obtain hu' | hu' := hu'
    · exact hu'
    · obtain ⟨t, ht, hut⟩ := List.mem_flatten.mp hu
      obtain ⟨t', ht', hut'⟩ := List.mem_flatten.mp hu'
      exact absurd (eu.trans eu'.symm) (apart.2.2 t ht t' ht' u hut u' hut')
  · right
    intro u hu eu
    exact ex ⟨u, hu, eu⟩

lemma install_run {s : State} {tail lh} (at_ : s.pc = .recover tail)
    (drop : s.log.lh.drop tail = lh) (le : tail ≤ s.log.lh.length)
    (clean : ∀ b, s.bread b = s.disk b) :
    ∃ s', Relation.ReflTransGen Trans s s' ∧ s'.log = s.log ∧
      s'.pc = .recover s.log.lh.length ∧ (∀ b, s'.bread b = s'.disk b) ∧
      s'.disk = installTrans s.log.start s.disk tail lh := by
  induction lh generalizing s tail with
  | nil =>
    have e : tail = s.log.lh.length := by
      have := congrArg List.length drop
      simp only [List.length_drop, List.length_nil] at this
      omega
    exact ⟨s, .refl, rfl, e ▸ at_, clean, rfl⟩
  | cons b bs ih =>
    have lt : tail < s.log.lh.length := by
      have := congrArg List.length drop
      simp only [List.length_drop, List.length_cons] at this
      omega
    rw [List.drop_eq_getElem_cons lt, List.cons.injEq] at drop
    have get : s.log.lh[tail]? = some b := by rw [List.getElem?_eq_getElem lt, drop.1]
    have dk : (s.install tail b).disk =
        Function.update s.disk b (s.disk (s.log.start + tail + 1)) := by
      rw [← clean]
      rfl
    have rd : State.bread { s.install tail b with pc := .recover (tail + 1) } =
        (s.install tail b).disk := by
      have clean : s.bread = s.disk := funext clean
      change State.bread ((s.fill _).bwrite _ _) = _
      rw [bread_bwrite, bread_fill, dk, clean]
    obtain ⟨s', run, lg, pc, cl, dk'⟩ :=
      ih (s := { s.install tail b with pc := .recover (tail + 1) }) rfl drop.2 lt
        (fun c => congrFun rd c)
    refine ⟨s', .head (.install at_ get) run, lg, pc, cl, ?_⟩
    rw [dk', installTrans, ← dk]
    rfl

lemma recover_run {s : State} (at_ : s.pc = .boot) (clean : ∀ b, s.bread b = s.disk b) :
    ∃ s', Relation.ReflTransGen Trans s s' ∧ s'.pc = .run ∧
      s'.disk = recoverFromLog s.log.start s.disk := by
  have rd : ∀ b, (s.fill s.log.start).bread b = s.disk b := by
    rw [bread_fill]
    exact clean
  obtain ⟨s', run, lg, pc, cl, dk⟩ :=
    install_run (s := { s.fill s.log.start with
      log := { s.log with lh := readHead (s.bread s.log.start) }, pc := .recover 0 })
      rfl rfl (Nat.zero_le _) rd
  refine ⟨_, .tail (.head (.readHead at_) run) (.clearHead (by rw [pc, lg])), rfl, ?_⟩
  change Function.update s'.disk s'.log.start (Log.writeHead (s'.bread s'.log.start) []) = _
  rw [cl, lg, dk, clean]
  rfl

lemma safe_run {start size disk s} (pos : 1 ≤ size) (empty : readHead (disk start) = [])
    (run : Relation.ReflTransGen Trans (initial start size disk) s) : Safe s ∧ Grouped s := by
  induction run with
  | refl =>
    refine ⟨.inl ⟨.initial, pos, fun _ _ => rfl, fun _ _ => rfl, rfl, empty, fun _ _ => rfl⟩, ?_⟩
    exact ⟨by simp [initial], by simp [initial], by simp [initial]⟩
  | tail _ tr ih => exact ⟨Safe.trans ih.1 tr, ih.2.trans ih.1 tr⟩

/-- Crash atomicity. Take any run of the machine from an empty log, with crashes at any point, crashes
    during recovery and further runs included, and let it crash where it ends. Recovery then reaches a
    running machine whose home blocks hold the contents after the first `k` transactions since the last
    boot, for some `k` that covers those whose `commit()` has returned; its header is empty; and of every
    operation the first `k` transactions have all the updates or none. -/
theorem crash_atomicity {start size disk s} (pos : 1 ≤ size) (empty : readHead (disk start) = [])
    (run : Relation.ReflTransGen Trans (initial start size disk) s) :
    (∃ s', Relation.ReflTransGen Trans s.crash s' ∧ s'.pc = .run ∧
      s'.disk = recoverFromLog s.log.start s.disk) ∧
    readHead (recoverFromLog s.log.start s.disk s.log.start) = [] ∧
    ∃ k, s.returned ≤ k ∧ k ≤ s.txns.length ∧
      (∀ b, s.log.Home b →
        recoverFromLog s.log.start s.disk b = s.view (s.txns.take k).flatten b) ∧
      ∀ o, (∀ u ∈ s.txns.flatten ++ s.cur, u.op = o → u ∈ (s.txns.take k).flatten) ∨
        ∀ u ∈ (s.txns.take k).flatten, u.op ≠ o := by
  obtain ⟨safe, grouped⟩ := safe_run pos empty run
  obtain ⟨k, r⟩ := Safe.recovers safe
  have pos := Safe.pos safe
  refine ⟨recover_run rfl fun _ => rfl, readHead_recoverFromLog, k, r.returned, r.le, ?_, ?_⟩
  · intro b hb
    rw [recoverFromLog_home r.home r.fit pos hb]
    exact r.redo b hb
  · exact grouped.all_or_none k

/-- One operation logs block `100` on an empty log of thirty blocks and its `end_op` starts the commit;
    the machine crashes after the log block has been written. The operation is lost as a whole or kept
    as a whole. -/
theorem crash_atomicity_writeLog :
    ∃ s, Relation.ReflTransGen Trans (initial 2 30 fun _ _ => 0) s ∧ s.pc = .writeLog 1 ∧
      ∃ k ≤ 1, ∀ b, s.log.Home b →
        recoverFromLog 2 s.disk b = s.view (s.txns.take k).flatten b := by
  have s1 : Relation.ReflTransGen Trans (initial 2 30 fun _ _ => 0) _ :=
    .single (.step (.beginOp (p := 7) rfl nofun nofun nofun rfl))
  have s2 := s1.tail (.step (.logWrite (p := 7) (b := 100) (v := fun _ => 1) rfl (.head _)
    (.inr (by simp [initial])) (by omega) rfl))
  have s3 := s2.tail (.step (.endOpCommit (p := 7) rfl (.head _) rfl))
  have s4 := s3.tail (.step (.writeLog rfl rfl rfl))
  refine ⟨_, s4, rfl, ?_⟩
  obtain ⟨_, _, k, _, le, eq, _⟩ :=
    crash_atomicity (by omega) (by simp [readHead, get32, ByteVec.getLE, ByteVec.get8]) s4
  exact ⟨k, le, eq⟩

end Xv6.Log
