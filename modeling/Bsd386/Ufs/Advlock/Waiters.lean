import Bsd386.Ufs.Advlock.Moves

/-!
# The bookkeeping of waiting requests

A process asleep in `lf_setlock` is on the waiting list of exactly one lock, its `lf_next` names
that lock, and the lock is held and conflicts with the request (`WaitersOk`). The links are part of
`Inv`; that a lock keeps conflicting with its waiters is `Conflicts`, which moves keep because a
lock whose waiters are not woken does not get weaker (`Move.conflicts`).

The code breaks this in two ways: a grant that contains a lock of the same owner moves the waiters
of that lock without setting their `lf_next`, and `lf_clearlock` wakes the waiters of a lock before
it splits it, so that a request queued while `MALLOC` sleeps is left behind.
-/

namespace Bsd386.Ufs.Advlock

open Function Lib.Transition List

/-- A sleeping process is on the waiting list of exactly one lock of the inode; its `lf_next` is
that lock, which is allocated and conflicts with the request.
Source: lf_setlock, lf_addblock, lf_wakelock -/
def WaitersOk (k : Kernel) : Prop :=
  ∀ p w, k.proc p = .asleep w → ∃ x ∈ k.iLockf (k.lock w).inode,
    w ∈ k.lfBlock x ∧ k.lfNext w = some x ∧ x ∈ k.live ∧
    ((k.lock x).id ≠ (k.lock w).id ∧ Overlap (k.lock x) (k.lock w) ∧
      ((k.lock x).type = .wrlck ∨ (k.lock w).type = .wrlck)) ∧
    ∀ ip, ∀ y ∈ k.iLockf ip, w ∈ k.lfBlock y → y = x

/-- A lock blocks the requests that wait for it. -/
def Conflicts (k : Kernel) : Prop :=
  ∀ ip, ∀ x ∈ k.iLockf ip, ∀ w ∈ k.lfBlock x, Blocks (k.lock x) (k.lock w)

def WaitersSafe (k : Kernel) (act : Act) : Prop := Safe k act ∧ KeepsWaiters k act

section

variable {n : ℕ} {u s t : Prop} {p : Pid} {a b x : Addr} {k k' k1 : Kernel} {U L W : List Addr}

theorem Conflicts.waitersOk (h : Conflicts k) (hinv : Inv k) : WaitersOk k := by
  intro p w hp
  obtain ⟨x, hx, hwx⟩ := hinv.asleep p w hp
  obtain ⟨hid, hov, hty⟩ := h _ x hx w hwx
  have hnext := ((hinv.wait _ x hx).2 w hwx).1
  have hxok := (hinv.ok _ x hx).1.2.2
  have hwok := (hinv.req p w (by rw [hp]; rfl)).ok.1.2.2
  refine ⟨x, hx, hwx, hnext, hinv.live _ x hx, ⟨hid, ?_, hty.symm⟩, ?_⟩
  · refine (noOverlap_eq_false_iff ?_ ?_).mp hov
    · exact hxok.imp_right And.left
    · exact hwok.imp_right And.left
  · intro ip y hy hwy
    have hnext' := ((hinv.wait ip y hy).2 w hwy).1
    exact Option.some.inj (hnext'.symm.trans hnext)

theorem Conflicts.congr (h : Conflicts k) (hlist : k'.iLockf = k.iLockf)
    (hblock : ∀ ip, ∀ x ∈ k.iLockf ip, ∀ w ∈ k'.lfBlock x,
      w ∈ k.lfBlock x ∧ k'.lock x = k.lock x ∧ k'.lock w = k.lock w) : Conflicts k' := by
  intro ip x hx w hw
  rw [hlist] at hx
  obtain ⟨hw', hlx, hlw⟩ := hblock ip x hx w hw
  rw [hlx, hlw]
  exact h ip x hx w hw'

theorem ListEdit.conflicts (h : ListEdit True k p a b U k1 L W) (hk : Conflicts k) :
    Conflicts (k1.setList (k.lock a).inode L) := by
  have hinv := h.entry.inv
  have hlock : ∀ {ip x w}, x ∈ k.iLockf ip → w ∈ k.lfBlock x → k1.lock w = k.lock w := by
    intro ip x w hx hw
    obtain ⟨q, hq, -⟩ := hinv.waiter hx hw
    obtain ⟨hwU, hwb⟩ := h.request_outside hq
    exact h.edit.lock_of_not_mem hwb hwU
  intro jp x hx w hw
  show Blocks (k1.lock x) (k1.lock w)
  change w ∈ k1.lfBlock x at hw
  by_cases hj : jp = (k.lock a).inode
  · subst hj
    rw [setList_self] at hx
    rcases h.edit.mem x hx with hxU | rfl
    · have hxb : x ≠ b := by
        rintro rfl
        rw [h.edit.block_new hx] at hw
        exact not_mem_nil hw
      have hsame : k1.lfBlock x = k.lfBlock x := by
        rcases h.edit.block x hxb with hB | hB
        · exact hB
        · rw [hB] at hw
          exact absurd hw not_mem_nil
      rw [hsame] at hw
      rcases h.only x hxU with rfl | hxl
      · rw [h.entry.req.block] at hw
        exact absurd hw not_mem_nil
      rw [hlock hxl hw]
      rcases h.edit.strong trivial x hxU hx with hnil | hstr
      · rw [← hsame, hnil] at hw
        exact absurd hw not_mem_nil
      · exact hstr.blocks (hk _ x hxl w hw)
    · rw [h.edit.block_new hx] at hw
      exact absurd hw not_mem_nil
  · rw [setList_of_ne _ hj, h.edit.list] at hx
    obtain ⟨hxU, hxb, hxW⟩ := h.other_outside hx hj
    rw [h.edit.block_frame x hxb hxU hxW] at hw
    rw [hlock hx hw, h.lock_other hx hj]
    exact hk jp x hx w hw

theorem Blocks.trimStop {l r w : Lockf} (h : Blocks l w) (hpred : offPred r.start = r.start - 1)
    (hw : w.start < r.start) : Blocks { l with stop := offPred r.start } w := by
  obtain ⟨hid, hov, hty⟩ := h
  refine ⟨hid, ?_, hty⟩
  simp only [noOverlap, Bool.or_eq_false_iff, Bool.and_eq_false_iff, decide_eq_false_iff_not,
    not_not, not_lt] at hov ⊢
  omega

theorem Entry.conflicts_late (h : Entry k p a) (hb : b ∉ k.live) {S R : List Addr}
    (hx : k.iLockf (k.lock a).inode = S ++ x :: R) (hsp : Splits (k.lock x) (k.lock a))
    (hw : ∀ w ∈ k.lfBlock x, (k.lock w).start < (k.lock a).start) (hk : Conflicts k) :
    Conflicts ((splitThree k x a b).setList (k.lock a).inode (S ++ x :: b :: R)) := by
  have hinv := h.inv
  have hxl : x ∈ k.iLockf (k.lock a).inode := by rw [hx]; simp
  have hne : ∀ y ∈ k.live, y ≠ b := fun y hy heq => hb (heq ▸ hy)
  have hxb := hne x (hinv.live _ x hxl)
  have hlx : (splitThree k x a b).lock x = { k.lock x with stop := offPred (k.lock a).start } := by
    rw [splitThree_eq hxb]
    exact update_self _ _ _
  have hlne : ∀ y ∈ k.live, y ≠ x → (splitThree k x a b).lock y = k.lock y := by
    intro y hy hyx
    rw [splitThree_eq hxb]
    exact (update_of_ne hyx _ _).trans (update_of_ne (hne y hy) _ _)
  have hblock : ∀ y ∈ k.live, (splitThree k x a b).lfBlock y = k.lfBlock y := fun y hy =>
    update_of_ne (hne y hy) _ _
  have hblockb : (splitThree k x a b).lfBlock b = [] := update_self _ _ _
  intro jp y hy w hwy
  show Blocks ((splitThree k x a b).lock y) ((splitThree k x a b).lock w)
  change w ∈ (splitThree k x a b).lfBlock y at hwy
  by_cases hyb : y = b
  · subst hyb
    rw [hblockb] at hwy
    exact absurd hwy not_mem_nil
  have hyl : y ∈ k.iLockf jp := by
    by_cases hj : jp = (k.lock a).inode
    · subst hj
      rw [setList_self] at hy
      rw [hx]
      simpa [hyb] using hy
    · rwa [setList_of_ne _ hj] at hy
  rw [hblock y (hinv.live jp y hyl)] at hwy
  obtain ⟨q, -, hr⟩ := hinv.waiter hyl hwy
  have hwx : w ≠ x := fun heq => hr.off _ (heq ▸ hxl)
  rw [hlne w hr.live hwx]
  have hbl := hk jp y hyl w hwy
  by_cases hyx : y = x
  · subst hyx
    rw [hlx]
    have ha := h.req.ok.1
    exact hbl.trimStop (offPred_eq ha.1 ha.2.1) (hw w hwy)
  · rw [hlne y (hinv.live jp y hyl) hyx]
    exact hbl

theorem Move.conflicts (h : Move u True t k k') (hk : Conflicts k) : Conflicts k' := by
  cases h with
  | @alloc _ a _ h hp ha hr _ =>
    refine hk.congr rfl fun ip x hx w hw => ?_
    obtain ⟨hlx, hbx⟩ := h.lock_alloc ha hx
    rw [hbx] at hw
    obtain ⟨q, -, hreq⟩ := h.waiter hx hw
    have hwa : w ≠ a := fun heq => ha (heq ▸ hreq.live)
    exact ⟨hw, hlx, update_of_ne hwa _ _⟩
  | @leave _ _ B h hp hB ha =>
    refine hk.congr rfl fun ip x hx w hw => ⟨?_, rfl, rfl⟩
    change w ∈ B x at hw
    rcases hB x with hB | hB
    · rwa [hB] at hw
    · rw [hB] at hw
      exact mem_of_mem_erase hw
  | @retype _ a _ h hl _ =>
    refine hk.congr rfl fun ip x hx w hw => ⟨hw, ?_, ?_⟩
    · have hxa : x ≠ a := fun heq => h.req.off ip (heq ▸ hx)
      exact update_of_ne hxa _ _
    · obtain ⟨q, hq, -⟩ := h.inv.waiter hx hw
      have hwa : w ≠ a := fun heq => h.own q (heq ▸ hq)
      exact update_of_ne hwa _ _
  | edit h _ _ _ _ => exact h.conflicts hk
  | late h hb hx hsp hw => exact h.conflicts_late hb hx hsp (hw trivial) hk
  | free _ => exact hk
  | park _ _ _ _ _ => exact hk
  | @queue p a x h hx hb _ _ _ =>
    intro ip y hy w hw
    change w ∈ update k.lfBlock x (k.lfBlock x ++ a :: k.lfBlock a) y at hw
    by_cases hyx : y = x
    · subst hyx
      rw [update_self, h.req.block] at hw
      rcases mem_append.mp hw with hw | hw
      · exact hk ip y hy w hw
      · rw [mem_singleton] at hw
        rwa [hw]
    · rw [update_of_ne hyx] at hw
      exact hk ip y hy w hw
  | signal _ _ => exact hk

/-- **Waiters.** In every run whose actions neither overflow, nor move waiters, nor, after a sleep
in `MALLOC`, clear the part of a lock that a waiter waits for, every sleeping process is on the
waiting list of exactly one lock, which it points to, and which conflicts with its request. Kind: P. -/
theorem waitersOk_of_reach (h : Reach Kernel.Initial (Next n WaitersSafe) k) : WaitersOk k := by
  have hk : Conflicts k := by
    refine invariant_of_reach (u := False) (s := True) (C := WaitersSafe) ?_ ?_ ?_ h
    · exact fun k act hc => ⟨hc.1, False.elim, fun _ => hc.2⟩
    · rintro k ⟨hlist, -⟩ ip x hx
      rw [hlist] at hx
      exact absurd hx not_mem_nil
    · exact fun k k' hm _ hk => hm.conflicts hk
  exact hk.waitersOk (inv_of_reach (fun _ _ hc => hc.1) h)

end

/-- A shared lock, and an exclusive request of another process that waits for it. -/
def oneWaiter : List Act :=
  [.setlock 1 10 (posixLock 1 0 .rdlck 0 0) ⟨100, false⟩,
    .setlock 2 20 (posixLock 2 0 .wrlck 0 0) ⟨100, false⟩]

theorem waitersOk_oneWaiter :
    (noLocks.run 50 oneWaiter).proc 2 = .asleep 20 ∧ WaitersOk (noLocks.run 50 oneWaiter) := by
  refine ⟨by decide, waitersOk_of_reach (n := 50) (reach_run (.start noLocks_initial) ?_)⟩
  refine ⟨⟨posixLock_ok (by decide), by decide⟩, ⟨?_, trivial⟩, ⟨posixLock_ok (by decide), by decide⟩,
    ⟨?_, trivial⟩, trivial⟩
  · show SafeGrant noLocks (posixLock 1 0 .rdlck 0 0)
    decide
  · show SafeGrant (noLocks.run 50 [.setlock 1 10 (posixLock 1 0 .rdlck 0 0) ⟨100, false⟩])
      (posixLock 2 0 .wrlck 0 0)
    decide

/-- The owner replaces its lock by a longer one: the waiter is moved to the new lock, and its
`lf_next` still names the old one, which has been freed. Kind: C. -/
theorem not_waitersOk_takesList :
    ¬ ∀ n k, Reach Kernel.Initial (Next n fun _ _ => True) k → WaitersOk k := by
  intro h
  let acts := oneWaiter ++ [.setlock 1 11 (posixLock 1 0 .rdlck 0 1) ⟨100, false⟩]
  have hok : RunOk 50 (fun _ _ => True) noLocks acts :=
    ⟨⟨posixLock_ok (by decide), by decide⟩, trivial, ⟨posixLock_ok (by decide), by decide⟩, trivial,
      ⟨posixLock_ok (by decide), by decide⟩, trivial, trivial⟩
  obtain ⟨x, hx, hwx, hnext, hlive, -⟩ :=
    h 50 _ (reach_run (.start noLocks_initial) hok) 2 20 (by decide)
  have hten : (noLocks.run 50 acts).lfNext 20 = some 10 := by decide
  obtain rfl : x = 10 := Option.some.inj (hnext.symm.trans hten)
  exact absurd hlive (by decide)

end Bsd386.Ufs.Advlock
