import Bsd386.Ufs.Advlock.Moves

/-!
# No deadlock among POSIX locks

When all locks are POSIX locks, the wait-for relation is acyclic in every state reached
(`deadlockFree_of_reach`): a process joins a waiting list only after the detector has found that
this closes no cycle, and nothing else adds an edge (`Move.acyclic`). A request that would close a
cycle is refused with `EDEADLK`.

The detector follows `lf_next`, and the grant that takes over the waiters of a lock leaves it
pointing to a freed structure. If that memory is used again for a lock of somebody else, a cycle
goes unnoticed (`not_deadlockFree_takesList`).
-/

namespace Bsd386.Ufs.Advlock

open Function Function Lib.Transition List

/-- The action asks for the lock `r` for the process `p`. -/
def Asks (k : Kernel) : Act → Pid → Lockf → Prop
  | .setlock p _ r _, p', r' => p' = p ∧ r' = r
  | .resume p intr _, p', r' => p' = p ∧ intr = false ∧ ∃ a, k.proc p = .woken a ∧ r' = k.lock a
  | _, _, _ => False

/-- The process would wait for a lock whose owner waits for it, directly or not. -/
def ClosesCycle (k : Kernel) (p : Pid) (r : Lockf) : Prop :=
  ∃ x q, lfGetblock k r = some x ∧ (k.lock x).id = .proc q ∧
    Relation.ReflTransGen (WaitsFor k) q p

/-- The condition on the actions: POSIX locks only, no chain longer than `maxlockdepth`. -/
def DeadlockSafe (n : ℕ) (k : Kernel) (act : Act) : Prop :=
  Safe k act ∧ PosixAct act ∧ ChainsOk n k

/-- Freedom from deadlock: no cycle of waiting processes, and a request that would close one
returns `EDEADLK`.
Source: lf_setlock -/
def DeadlockFree (n : ℕ) (k : Kernel) : Prop :=
  Acyclic (WaitsFor k) ∧
    ∀ act p r k' res, ActOk act → PosixAct act → ChainsOk n k → Asks k act p r → r.wait = true →
      ClosesCycle k p r → step n k act = some (k', res) → res = .ret .edeadlk ∧ k'.proc p = .running

section

variable {n : ℕ} {u s t : Prop} {p : Pid} {a b x : Addr} {k k' k1 : Kernel} {U L W : List Addr}

/-! ## All locks stay POSIX locks -/

theorem Lockf.Sub.posix {m l : Lockf} (h : m.Sub l) (hl : l.Ok) : m.posix = l.posix := by
  rw [h.ok.2, hl.2, h.id]

theorem ListEdit.allPosix (h : ListEdit s k p a b U k1 L W)
    (ha : a ∈ U → (k.lock a).posix = true) (hk : AllPosix k) :
    AllPosix (k1.setList (k.lock a).inode L) := by
  refine ⟨?_, ?_⟩
  · intro jp x hx
    show (k1.lock x).posix = true
    by_cases hj : jp = (k.lock a).inode
    · subst hj
      rw [setList_self] at hx
      obtain ⟨z, hz, hxz⟩ := h.edit.sub x hx
      rcases h.only z hz with rfl | hzl
      · rw [hxz.posix h.entry.req.ok.ok]
        exact ha hz
      · rw [hxz.posix (h.entry.inv.ok _ z hzl)]
        exact hk.listed _ z hzl
    · rw [setList_of_ne _ hj, h.edit.list] at hx
      rw [h.lock_other hx hj]
      exact hk.listed jp x hx
  · intro q c hq
    change (k1.proc q).request = some c at hq
    rw [h.edit.proc, request_wakeup] at hq
    obtain ⟨hcU, hcb⟩ := h.request_outside hq
    show (k1.lock c).posix = true
    rw [h.edit.lock_of_not_mem hcb hcU]
    exact hk.request q c hq

theorem AllPosix.of_setProc (h : AllPosix k) {c : PState} (hlist : k'.iLockf = k.iLockf)
    (hlock : k'.lock = k.lock) (hproc : k'.proc = update k.proc p c)
    (hc : ∀ a, c.request = some a → (k.lock a).posix = true) : AllPosix k' := by
  refine ⟨by rw [hlist, hlock]; exact h.listed, ?_⟩
  intro q a hq
  rw [hproc] at hq
  rw [hlock]
  by_cases hqp : q = p
  · subst hqp
    rw [update_self] at hq
    exact hc a hq
  · rw [update_of_ne hqp] at hq
    exact h.request q a hq

theorem Move.allPosix (h : Move u s True k k') (hk : AllPosix k) : AllPosix k' := by
  cases h with
  | alloc h hp ha hr ht => exact hk.alloc h ha
  | leave h hp hB ha => exact hk.of_setProc rfl rfl rfl fun c hc => absurd hc (by simp [PState.request])
  | @retype _ a _ h hl hpos =>
    refine ⟨fun ip x hx => ?_, fun q c hq => ?_⟩
    · have hxa : x ≠ a := fun heq => h.req.off ip (heq ▸ hx)
      show (update k.lock a _ x).posix = true
      rw [update_of_ne hxa]
      exact hk.listed ip x hx
    · have hca : c ≠ a := fun heq => h.own q (heq ▸ hq)
      show (update k.lock a _ c).posix = true
      rw [update_of_ne hca]
      exact hk.request q c hq
  | edit h _ hpos _ _ => exact h.allPosix (fun ha => hpos ha trivial) hk
  | late h hb hx hsp _ =>
    obtain ⟨W, hE, -, -⟩ := h.late hb hx hsp
    exact hE.allPosix (fun ha => absurd ha (h.req.off _)) hk
  | free _ => exact ⟨hk.listed, hk.request⟩
  | park h hpos hc _ _ =>
    refine hk.of_setProc rfl rfl rfl fun c' hc' => ?_
    rcases hc with rfl | rfl <;> cases hc' <;> exact hpos trivial
  | queue h _ _ _ hpos _ =>
    refine hk.of_setProc rfl rfl rfl fun c' hc' => ?_
    cases hc'
    exact hpos trivial
  | signal h hp =>
    refine hk.of_setProc rfl rfl rfl fun c' hc' => ?_
    cases hc'
    exact hk.request _ _ (by rw [hp]; rfl)

/-! ## The wait-for relation -/

theorem ListEdit.waitsFor (h : ListEdit s k p a b U k1 L W) {p' q' : Pid}
    (hw : WaitsFor (k1.setList (k.lock a).inode L) p' q') : WaitsFor k p' q' := by
  obtain ⟨w, x, jp, hp, hx, hwx, hid⟩ := hw
  change k1.proc p' = .asleep w at hp
  change w ∈ k1.lfBlock x at hwx
  rw [h.edit.proc, wakeup_eq_asleep] at hp
  -- the lock was on the list, with the request among its waiters
  have hold : x ≠ b ∧ ∃ ip, x ∈ k.iLockf ip := by
    by_cases hj : jp = (k.lock a).inode
    · subst hj
      rw [setList_self] at hx
      have hxb : x ≠ b := by
        rintro rfl
        rw [h.edit.block_new hx] at hwx
        exact not_mem_nil hwx
      refine ⟨hxb, ?_⟩
      rcases h.only x ((h.edit.mem x hx).resolve_right hxb) with rfl | hxl
      · rcases h.edit.block x hxb with hB | hB
        · rw [hB, h.entry.req.block] at hwx
          exact absurd hwx not_mem_nil
        · rw [hB] at hwx
          exact absurd hwx not_mem_nil
      · exact ⟨_, hxl⟩
    · rw [setList_of_ne _ hj, h.edit.list] at hx
      exact ⟨(h.other_outside hx hj).2.1, jp, hx⟩
  obtain ⟨hxb, ip, hxl⟩ := hold
  refine ⟨w, x, ip, hp.1, hxl, ?_, (h.edit.ident x hxb).symm.trans hid⟩
  rcases h.edit.block x hxb with hB | hB
  · rwa [hB] at hwx
  · rw [hB] at hwx
    exact absurd hwx not_mem_nil

theorem Entry.waitsFor_queue (h : Entry k p a) {q : Pid} (hid : (k.lock x).id = .proc q)
    {p' q' : Pid} (hw : WaitsFor ((lfAddblock
      { k with lfNext := update k.lfNext a (some x) } x (a :: k.lfBlock a)).setProc p
        (.asleep a)) p' q') : WaitsFor k p' q' ∨ p' = p ∧ q' = q := by
  obtain ⟨w, y, ip, hp, hy, hwy, hyid⟩ := hw
  change update k.proc p (.asleep a) p' = .asleep w at hp
  change w ∈ update k.lfBlock x (k.lfBlock x ++ a :: k.lfBlock a) y at hwy
  rw [h.req.block] at hwy
  have hnot : ∀ {z}, z ∈ k.iLockf ip → a ∉ k.lfBlock z := by
    intro z hz ha
    obtain ⟨r, hr, -⟩ := h.inv.waiter hz ha
    exact h.own r hr
  by_cases hpp : p' = p
  · subst hpp
    rw [update_self] at hp
    cases hp
    by_cases hyx : y = x
    · subst hyx
      exact .inr ⟨rfl, Id.proc.inj (hyid.symm.trans hid)⟩
    · rw [update_of_ne hyx] at hwy
      exact absurd hwy (hnot hy)
  · rw [update_of_ne hpp] at hp
    have hwa : w ≠ a := fun heq => h.own p' (by rw [hp, heq]; rfl)
    refine .inl ⟨w, y, ip, hp, hy, ?_, hyid⟩
    by_cases hyx : y = x
    · subst hyx
      rw [update_self] at hwy
      rcases mem_append.mp hwy with hwy | hwy
      · exact hwy
      · exact absurd (mem_singleton.mp hwy) hwa
    · rwa [update_of_ne hyx] at hwy

theorem Move.acyclic (h : Move u s True k k') (hpos : AllPosix k) (hk : Acyclic (WaitsFor k)) :
    Acyclic (WaitsFor k') := by
  cases h with
  | alloc h hp ha hr ht => exact hk.mono fun _ _ hw => hw.of_alloc h ha
  | @leave _ _ B h hp hB ha =>
    refine hk.mono fun _ _ hw => ?_
    obtain ⟨w, x, ip, hpw, hx, hwx, hid⟩ := WaitsFor.of_setProc (fun _ => PState.noConfusion) hw
    refine ⟨w, x, ip, hpw, hx, ?_, hid⟩
    change w ∈ B x at hwx
    rcases hB x with hB | hB
    · rwa [hB] at hwx
    · rw [hB] at hwx
      exact mem_of_mem_erase hwx
  | @retype _ a _ h hl _ =>
    refine hk.mono fun _ _ hw => ?_
    obtain ⟨w, x, ip, hpw, hx, hwx, hid⟩ := hw
    have hxa : x ≠ a := fun heq => h.req.off ip (heq ▸ hx)
    rw [show (k.setLock a _).lock x = k.lock x from update_of_ne hxa _ _] at hid
    exact ⟨w, x, ip, hpw, hx, hwx, hid⟩
  | edit h _ _ _ _ => exact hk.mono fun _ _ hw => h.waitsFor hw
  | late h hb hx hsp _ =>
    obtain ⟨W, hE, -, -⟩ := h.late hb hx hsp
    exact hk.mono fun _ _ hw => hE.waitsFor hw
  | free _ => exact hk
  | park h _ hc _ _ =>
    refine hk.mono fun _ _ hw => hw.of_setProc fun w hw' => ?_
    rcases hc with rfl | rfl <;> exact PState.noConfusion hw'
  | @queue p a x h hx hb _ _ hd =>
    have hproc : (k.lock x).id.isProc = true := by
      rw [← (h.inv.ok _ x hx).2]
      exact hpos.listed _ x hx
    obtain ⟨q, hq⟩ : ∃ q, (k.lock x).id = .proc q := by
      cases hid : (k.lock x).id with
      | proc q => exact ⟨q, rfl⟩
      | file f =>
        rw [hid] at hproc
        exact absurd hproc (by simp [Id.isProc])
    exact (hk.insert (hd trivial q hq)).mono fun _ _ hw => h.waitsFor_queue hq hw
  | signal _ _ => exact hk.mono fun _ _ hw => hw.of_setProc fun _ => PState.noConfusion

theorem lfSetlock_edeadlk (hinv : Inv k) (hpos : AllPosix k) (hch : ChainsOk n k) {m : Malloc}
    (hid : (k.lock a).id = .proc p) (hposix : (k.lock a).posix = true)
    (hwait : (k.lock a).wait = true) (hc : ClosesCycle k p (k.lock a)) :
    lfSetlock n k p a m = ((k.free a).setProc p .running, .ret .edeadlk) := by
  obtain ⟨x, q, hx, hq, hr⟩ := hc
  obtain ⟨hxl, hb⟩ := lfGetblock_eq_some hx
  obtain ⟨j, hj⟩ := exists_chain hr
  have hqp : q ≠ p := by
    rintro rfl
    exact hb.1 (hq.trans hid.symm)
  have hd := lfDeadlock_of_chain (n := n) hinv hpos hid hj hqp (hch j q p hj)
  have hpx := hpos.listed _ x hxl
  simp [lfSetlock, hx, hwait, hposix, hpx, hq, hd]

theorem Inv.lfGetblock_alloc (h : Inv k) (ha : a ∉ k.live) {r : Lockf} :
    lfGetblock (k.alloc a r) r = lfGetblock k r :=
  lfGetblockFrom_congr fun _ hx => (h.lock_alloc ha hx).1

theorem deadlockFree_of_inv (hinv : Inv k) (hpos : AllPosix k) (hk : Acyclic (WaitsFor k)) :
    DeadlockFree n k := by
  refine ⟨hk, ?_⟩
  intro act p r k' res hok hposix hch hask hwait hc hstep
  cases act with
  | setlock p' a r' m =>
    obtain ⟨rfl, rfl⟩ := hask
    simp only [step] at hstep
    split_ifs at hstep with hen
    obtain ⟨hp, ha, hm⟩ := hen
    have hla : (k.alloc a r).lock a = r := update_self _ _ _
    have hc' : ClosesCycle (k.alloc a r) p ((k.alloc a r).lock a) := by
      obtain ⟨x, q, hx, hq, hr⟩ := hc
      have hxl := (lfGetblock_eq_some hx).1
      refine ⟨x, q, by rwa [hla, hinv.lfGetblock_alloc ha], by rwa [(hinv.lock_alloc ha hxl).1], ?_⟩
      refine Relation.ReflTransGen.mono (fun u v hw => ?_) _ _ hr
      obtain ⟨w, y, ip, hpw, hy, hwy, hid⟩ := hw
      obtain ⟨hly, hby⟩ := hinv.lock_alloc (r := r) ha hy
      exact ⟨w, y, ip, hpw, hy, by rwa [hby], by rwa [hly]⟩
    have hrun := lfSetlock_edeadlk (n := n) (m := m) (hinv.alloc hp ha hok.1).inv
      (hpos.alloc hinv ha) (hch.mono fun _ _ hw => hw.of_alloc hinv ha)
      (by rw [hla]; exact hok.1.id_of_posix hposix) (by rw [hla]; exact hposix)
      (by rw [hla]; exact hwait) hc'
    rw [hrun] at hstep
    obtain ⟨rfl, rfl⟩ := Prod.mk.inj (Option.some.inj hstep)
    exact ⟨rfl, update_self _ _ _⟩
  | resume p' intr m =>
    obtain ⟨rfl, rfl, a, hp, rfl⟩ := hask
    have hreq : (k.proc p).request = some a := by rw [hp]; rfl
    simp only [step, hp, Bool.false_eq_true, if_false] at hstep
    split_ifs at hstep with hm
    obtain ⟨-, hentry⟩ := hinv.resume (u := False) (s := False) (t := False) hreq (by rw [hp]; simp)
    have hc' : ClosesCycle (k.setProc p .running) p ((k.setProc p .running).lock a) := by
      obtain ⟨x, q, hx, hq, hr⟩ := hc
      have hsame : lfGetblock (k.setProc p .running) (k.lock a) = lfGetblock k (k.lock a) :=
        lfGetblockFrom_congr fun _ _ => rfl
      refine ⟨x, q, hsame.trans hx, hq, ?_⟩
      refine Relation.ReflTransGen.mono (fun u v hw => ?_) _ _ hr
      obtain ⟨w, y, ip, hpw, hy, hwy, hid⟩ := hw
      refine ⟨w, y, ip, ?_, hy, hwy, hid⟩
      have hup : u ≠ p := by
        rintro rfl
        rw [hp] at hpw
        exact PState.noConfusion hpw
      exact (update_of_ne hup _ _).trans hpw
    have hposa := hpos.request p a hreq
    have hrun := lfSetlock_edeadlk (n := n) (m := m) hentry.inv (hpos.running p)
      (hch.mono fun _ _ hw => hw.of_setProc fun _ => PState.noConfusion)
      (hentry.req.ok.id_of_posix hposa) hposa hwait hc'
    rw [hrun] at hstep
    obtain ⟨rfl, rfl⟩ := Prod.mk.inj (Option.some.inj hstep)
    exact ⟨rfl, update_self _ _ _⟩
  | clearlock => exact hask.elim
  | signal => exact hask.elim
  | mallocDone => exact hask.elim

/-- **Deadlock freedom.** In every run with POSIX locks only whose actions neither overflow nor move
waiters, and in which no chain of waiting processes is longer than `maxlockdepth`, no cycle of
waiting processes arises, and a request that would close one is refused. Kind: P. -/
theorem deadlockFree_of_reach (h : Reach Kernel.Initial (Next n (DeadlockSafe n)) k) :
    DeadlockFree n k := by
  have hall : AllPosix k ∧ Acyclic (WaitsFor k) := by
    refine h.invariant (I := fun k => AllPosix k ∧ Acyclic (WaitsFor k)) ?_ ?_
    · rintro k ⟨hlist, hproc⟩
      refine ⟨⟨fun ip x hx => ?_, fun p a hp => ?_⟩, fun p hp => ?_⟩
      · rw [hlist] at hx
        exact absurd hx not_mem_nil
      · rw [hproc] at hp
        exact absurd hp (by simp [PState.request])
      · obtain ⟨q, ⟨w, x, ip, -, hx, -⟩, -⟩ := (Relation.TransGen.head'_iff).mp hp
        rw [hlist] at hx
        exact absurd hx not_mem_nil
    · rintro k k' hr ⟨hpos, hac⟩ ⟨act, r, hok, ⟨hsafe, hposix, hch⟩, hstep⟩
      have hinv := inv_of_reach (fun _ _ hc => hc.1) hr
      have hmoves := step_moves (u := False) (s := False) (t := True) hinv hok hsafe False.elim
        False.elim (fun _ => ⟨hposix, hpos, hch⟩) hstep
      exact Move.invariant (P := fun k => AllPosix k ∧ Acyclic (WaitsFor k))
        (fun _ _ hm hk => ⟨hm.allPosix hk.1, hm.acyclic hk.1 hk.2⟩) hmoves ⟨hpos, hac⟩
  exact deadlockFree_of_inv (inv_of_reach (fun _ _ hc => hc.1) h) hall.1 hall.2

theorem chainsOk_of_one (hn : 1 ≤ n) (hone : ∀ q w, k.proc q = .asleep w → q = p)
    (hself : ∀ q, WaitsFor k p q → q ≠ p) : ChainsOk n k := by
  intro j q r hc
  cases hc with
  | refl => omega
  | head hqr hc =>
    cases hc with
    | refl => omega
    | head hrs _ =>
      obtain ⟨w, _, _, hq, _⟩ := id hqr
      obtain ⟨v, _, _, hr, _⟩ := hrs
      obtain rfl := hone _ w hq
      exact absurd (hone _ v hr) (hself _ hqr)

theorem chainsOk_of_none (hnone : ∀ q w, k.proc q ≠ .asleep w) : ChainsOk n k := by
  intro j q r hc
  cases hc with
  | refl => omega
  | head hqr _ =>
    obtain ⟨w, _, _, hq, _⟩ := hqr
    exact absurd hq (hnone _ w)

end

/-- A shared lock of one process, an exclusive one of another on a second file, and a request of the
second for the first file. -/
def waitsOnce : List Act :=
  [.setlock 1 10 (posixLock 1 1 .rdlck 0 0) ⟨100, false⟩,
    .setlock 2 20 (posixLock 2 2 .wrlck 0 0) ⟨100, false⟩,
    .setlock 2 21 (posixLock 2 1 .wrlck 0 0) ⟨100, false⟩]

theorem waitsOnce_chains : ChainsOk 50 noLocks ∧ ChainsOk 50 (noLocks.run 50 (waitsOnce.take 1)) ∧
    ChainsOk 50 (noLocks.run 50 (waitsOnce.take 2)) := by
  refine ⟨chainsOk_of_none fun q w => PState.noConfusion, chainsOk_of_none fun q w => ?_,
    chainsOk_of_none fun q w => ?_⟩
  · show update (fun _ => PState.running) 1 .running q ≠ .asleep w
    rw [update_apply]
    split_ifs <;> exact PState.noConfusion
  · show update (update (fun _ => PState.running) 1 .running) 2 .running q ≠
      .asleep w
    rw [update_apply, update_apply]
    split_ifs <;> exact PState.noConfusion

theorem deadlockFree_waitsOnce :
    WaitsFor (noLocks.run 50 waitsOnce) 2 1 ∧ DeadlockFree 50 (noLocks.run 50 waitsOnce) := by
  obtain ⟨h0, h1, h2⟩ := waitsOnce_chains
  refine ⟨⟨21, 10, 1, by decide, by decide, by decide, by decide⟩,
    deadlockFree_of_reach (reach_run (.start noLocks_initial) ?_)⟩
  refine ⟨⟨posixLock_ok (by decide), by decide⟩, ⟨?_, rfl, h0⟩,
    ⟨posixLock_ok (by decide), by decide⟩, ⟨?_, rfl, h1⟩,
    ⟨posixLock_ok (by decide), by decide⟩, ⟨?_, rfl, h2⟩, trivial⟩
  · show SafeGrant noLocks (posixLock 1 1 .rdlck 0 0)
    decide
  · show SafeGrant (noLocks.run 50 (waitsOnce.take 1)) (posixLock 2 2 .wrlck 0 0)
    decide
  · show SafeGrant (noLocks.run 50 (waitsOnce.take 2)) (posixLock 2 1 .wrlck 0 0)
    decide

/-- The first process replaces its lock by a longer one, a third gets the freed memory, and the
first asks for the second file. -/
def staleDetector : List Act :=
  waitsOnce ++ [.setlock 1 11 (posixLock 1 1 .rdlck 0 1) ⟨100, false⟩,
    .setlock 3 10 (posixLock 3 3 .rdlck 0 0) ⟨100, false⟩,
    .setlock 1 12 (posixLock 1 2 .wrlck 0 0) ⟨100, false⟩]

theorem staleDetector_chains :
    ChainsOk 50 (noLocks.run 50 (staleDetector.take 3)) ∧
      ChainsOk 50 (noLocks.run 50 (staleDetector.take 4)) ∧
      ChainsOk 50 (noLocks.run 50 (staleDetector.take 5)) := by
  -- the request is on the waiting lists of locks 10 and 11 only, neither of them its own
  have hone : ∀ k : Kernel, (∀ q, q ≠ 2 → k.proc q = .running) → k.proc 2 = .asleep 21 →
      (∀ x, 21 ∈ k.lfBlock x → x = 10 ∨ x = 11) → (k.lock 10).id ≠ .proc 2 →
      (k.lock 11).id ≠ .proc 2 → ChainsOk 50 k := by
    intro k hrun hproc hblock h10 h11
    refine chainsOk_of_one (p := 2) (by omega) (fun q w hq => ?_) ?_
    · by_contra hne
      rw [hrun q hne] at hq
      exact PState.noConfusion hq
    · rintro q ⟨w, x, ip, hp, -, hw, hid⟩ rfl
      rw [hproc] at hp
      cases hp
      rcases hblock x hw with rfl | rfl
      · exact h10 hid
      · exact h11 hid
  refine ⟨hone _ ?_ (by decide) ?_ (by decide) (by decide), hone _ ?_ (by decide) ?_ (by decide)
    (by decide), hone _ ?_ (by decide) ?_ (by decide) (by decide)⟩
  · intro q hq
    show update (update (update (fun _ => PState.running) 1 .running) 2 .running) 2 (.asleep 21) q =
      _
    simp only [update_apply, if_neg hq]
    split_ifs <;> rfl
  · intro x
    show 21 ∈ update (update (update (update (fun _ => []) 10 []) 20 []) 21 []) 10 [21] x → _
    simp only [update_apply]
    split_ifs <;> simp_all
  · intro q hq
    show update (update (update (update (fun _ => PState.running) 1 .running) 2 .running) 2
      (.asleep 21)) 1 .running q = _
    simp only [update_apply, if_neg hq]
    split_ifs <;> rfl
  · intro x
    show 21 ∈ update (update (update (update (update (update (fun _ => []) 10 []) 20 []) 21 []) 10
      [21]) 11 []) 11 [21] x → _
    simp only [update_apply]
    split_ifs <;> simp_all
  · intro q hq
    show update (update (update (update (update (fun _ => PState.running) 1 .running) 2 .running) 2
      (.asleep 21)) 1 .running) 3 .running q = _
    simp only [update_apply, if_neg hq]
    split_ifs <;> rfl
  · intro x
    show 21 ∈ update (update (update (update (update (update (update (fun _ => []) 10 []) 20 []) 21
      []) 10 [21]) 11 []) 11 [21]) 10 [] x → _
    simp only [update_apply]
    split_ifs <;> simp_all

theorem not_deadlockFree_takesList :
    ¬ ∀ n k, Reach Kernel.Initial (Next n fun k act => PosixAct act ∧ ChainsOk n k) k →
      DeadlockFree n k := by
  intro h
  have hok : RunOk 50 (fun k act => PosixAct act ∧ ChainsOk 50 k) noLocks staleDetector := by
    obtain ⟨h0, h1, h2⟩ := waitsOnce_chains
    have hst := staleDetector_chains
    refine ⟨⟨posixLock_ok (by decide), by decide⟩, ⟨rfl, h0⟩,
      ⟨posixLock_ok (by decide), by decide⟩, ⟨rfl, h1⟩,
      ⟨posixLock_ok (by decide), by decide⟩, ⟨rfl, h2⟩,
      ⟨posixLock_ok (by decide), by decide⟩, ⟨rfl, hst.1⟩,
      ⟨posixLock_ok (by decide), by decide⟩, ⟨rfl, hst.2.1⟩,
      ⟨posixLock_ok (by decide), by decide⟩, ⟨rfl, hst.2.2⟩, trivial⟩
  have hcycle := (h 50 _ (reach_run (.start noLocks_initial) hok)).1 1
  have h12 : WaitsFor (noLocks.run 50 staleDetector) 1 2 :=
    ⟨12, 20, 2, by decide, by decide, by decide, by decide⟩
  have h21 : WaitsFor (noLocks.run 50 staleDetector) 2 1 :=
    ⟨21, 11, 1, by decide, by decide, by decide, by decide⟩
  exact hcycle (.head h12 (.single h21))

end Bsd386.Ufs.Advlock
