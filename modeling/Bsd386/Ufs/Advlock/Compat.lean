import Bsd386.Ufs.Advlock.Moves

/-!
# Compatibility of the held locks

No two locks of different owners on an inode's list overlap when one of them is for writing
(`Compatible`). A grant adds a lock that nothing blocks, and everything else the code does to the
list leaves parts of the locks that are there; so moves keep compatibility
(`Move.compatible`), and `compatible_of_reach` is the result for runs.

The code breaks compatibility in two ways. `lf_end + 1` overflows for a lock up to infinity of
which the bytes up to the largest offset are changed (`not_compatible_overflow`), and
`lf_setlock` does not look for blocking locks again after the `MALLOC` in `lf_split` has slept.
-/

namespace Bsd386.Ufs.Advlock

open Lib.Transition

/-- No two locks of different owners overlap when one of them is for writing.
Source: lf_getblock -/
def Compatible (k : Kernel) : Prop :=
  ∀ ip, ∀ x ∈ k.iLockf ip, ∀ y ∈ k.iLockf ip, (k.lock x).id ≠ (k.lock y).id →
    Overlap (k.lock x) (k.lock y) → (k.lock x).type ≠ .wrlck ∧ (k.lock y).type ≠ .wrlck

/-- The same by the tests of the code. -/
def NoneBlocks (k : Kernel) : Prop :=
  ∀ ip, ∀ x ∈ k.iLockf ip, ∀ y ∈ k.iLockf ip, ¬ Blocks (k.lock x) (k.lock y)

def CompatSafe (k : Kernel) (act : Act) : Prop := Safe k act ∧ Rechecked k act

section

variable {n : ℕ} {u s t : Prop} {p : Pid} {a b : Addr} {k k' k1 : Kernel} {U L W : List Addr}

theorem NoneBlocks.compatible (h : NoneBlocks k) (hinv : Inv k) : Compatible k := by
  intro ip x hx y hy hid hov
  have hx' := (hinv.ok ip x hx).1.2.2
  have hy' := (hinv.ok ip y hy).1.2.2
  have hno : noOverlap (k.lock x) (k.lock y) = false := by
    refine (noOverlap_eq_false_iff ?_ ?_).mpr hov
    · exact hx'.imp_right And.left
    · exact hy'.imp_right And.left
  refine ⟨fun ht => h ip x hx y hy ⟨hid, hno, .inr ht⟩, fun ht => h ip x hx y hy ⟨hid, hno, .inl ht⟩⟩

theorem NoneBlocks.congr (h : NoneBlocks k) (hlist : k'.iLockf = k.iLockf)
    (hlock : ∀ ip, ∀ x ∈ k.iLockf ip, k'.lock x = k.lock x) : NoneBlocks k' := by
  intro ip x hx y hy
  rw [hlist] at hx hy
  rw [hlock ip x hx, hlock ip y hy]
  exact h ip x hx y hy

theorem ListEdit.noneBlocks (h : ListEdit s k p a b U k1 L W)
    (hu : a ∈ U → Unblocked k (k.lock a)) (hk : NoneBlocks k) :
    NoneBlocks (k1.setList (k.lock a).inode L) := by
  -- no two of the locks the edit starts from block each other
  have hU : ∀ z ∈ U, ∀ z' ∈ U, ¬ Blocks (k.lock z) (k.lock z') := by
    intro z hz z' hz' hb
    rcases h.only z hz with rfl | hzl <;> rcases h.only z' hz' with rfl | hzl'
    · exact hb.1 rfl
    · exact hu hz z' hzl' hb.symm
    · exact hu hz' z hzl hb
    · exact hk _ z hzl z' hzl' hb
  intro jp x hx y hy
  by_cases hj : jp = (k.lock a).inode
  · subst hj
    rw [setList_self] at hx hy
    obtain ⟨z, hz, hxz⟩ := h.edit.sub x hx
    obtain ⟨z', hz', hyz⟩ := h.edit.sub y hy
    intro hb
    exact hU z hz z' hz' (hyz.blocks (hxz.blocks hb).symm).symm
  · rw [setList_of_ne _ hj, h.edit.list] at hx hy
    show ¬ Blocks (k1.lock x) (k1.lock y)
    rw [h.lock_other hx hj, h.lock_other hy hj]
    exact hk jp x hx y hy

theorem Move.noneBlocks (h : Move True s t k k') (hk : NoneBlocks k) : NoneBlocks k' := by
  cases h with
  | alloc h hp ha hr _ => exact hk.congr rfl fun ip x hx => (h.lock_alloc ha hx).1
  | @retype _ a _ h hl _ =>
    refine hk.congr rfl fun ip x hx => ?_
    have hxa : x ≠ a := fun heq => h.req.off ip (heq ▸ hx)
    exact Function.update_of_ne hxa _ _
  | edit h hu _ _ _ => exact h.noneBlocks (fun ha => hu ha trivial) hk
  | late h hb hx hsp _ =>
    obtain ⟨W, hE, -, -⟩ := h.late hb hx hsp
    exact hE.noneBlocks (fun ha => absurd ha (h.req.off _)) hk
  | leave _ _ _ _ => exact hk
  | free _ => exact hk
  | park _ _ _ _ _ => exact hk
  | queue _ _ _ _ _ _ => exact hk
  | signal _ _ => exact hk

/-- **Compatibility.** In every run whose actions neither overflow, nor move waiters, nor grant
after a sleep in `MALLOC` a request that has become blocked, the held locks are compatible. Kind: P. -/
theorem compatible_of_reach (h : Reach Kernel.Initial (Next n CompatSafe) k) : Compatible k := by
  have hk : NoneBlocks k := by
    refine invariant_of_reach (u := True) (s := False) (C := CompatSafe) ?_ ?_ ?_ h
    · exact fun k act hc => ⟨hc.1, fun _ => hc.2, False.elim⟩
    · rintro k ⟨hlist, -⟩ ip x hx
      rw [hlist] at hx
      exact absurd hx List.not_mem_nil
    · exact fun k k' hm _ hk => hm.noneBlocks hk
  exact hk.compatible (inv_of_reach (fun _ _ hc => hc.1) h)

end

/-- Two exclusive locks of different processes. -/
def twoLocks : List Act :=
  [.setlock 1 10 (posixLock 1 0 .wrlck 10 (-1)) ⟨100, false⟩,
    .setlock 2 20 (posixLock 2 0 .wrlck 0 5) ⟨100, false⟩]

theorem compatible_twoLocks :
    (noLocks.run 50 twoLocks).iLockf 0 = [10, 20] ∧ Compatible (noLocks.run 50 twoLocks) := by
  refine ⟨by decide, compatible_of_reach (n := 50) (reach_run (.start noLocks_initial) ?_)⟩
  refine ⟨⟨posixLock_ok (by decide), by decide⟩, ⟨?_, trivial⟩, ⟨posixLock_ok (by decide), by decide⟩,
    ⟨?_, trivial⟩, trivial⟩
  · show SafeGrant noLocks (posixLock 1 0 .wrlck 10 (-1))
    decide
  · show SafeGrant (noLocks.run 50 [.setlock 1 10 (posixLock 1 0 .wrlck 10 (-1)) ⟨100, false⟩])
      (posixLock 2 0 .wrlck 0 5)
    decide

/-- A process makes its lock shared up to the largest offset: what is left of the exclusive lock
starts at offset `-2 ^ 31`. Kind: C. -/
theorem not_compatible_overflow :
    ¬ ∀ n k, Reach Kernel.Initial (Next n fun _ _ => True) k → Compatible k := by
  intro h
  let acts := twoLocks ++ [.setlock 1 11 (posixLock 1 0 .rdlck 10 maxOff) ⟨100, false⟩]
  have hok : RunOk 50 (fun _ _ => True) noLocks acts :=
    ⟨⟨posixLock_ok (by decide), by decide⟩, trivial, ⟨posixLock_ok (by decide), by decide⟩, trivial,
      ⟨posixLock_ok (by decide), by decide⟩, trivial, trivial⟩
  have hk := h 50 _ (reach_run (.start noLocks_initial) hok) 0 10 (by decide) 20 (by decide)
    (by decide) ⟨0, ⟨by decide, by decide⟩, ⟨by decide, by decide⟩⟩
  exact hk.1 (by decide)

end Bsd386.Ufs.Advlock
