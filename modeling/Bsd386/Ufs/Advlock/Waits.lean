import Bsd386.Lib.Transition
import Bsd386.Ufs.Advlock.Invariant

/-!
# The wait-for relation and the deadlock detector

`WaitsFor k p q`: the process `p` sleeps in `lf_setlock`, its request queued on a lock of `q`. The
detector of `lf_setlock` follows `p_wchan` and `lf_next` instead, at most `maxlockdepth` times.
With the invariant the two agree, so the detector finds the requesting process if it is on the
chain (`lfDeadlock_of_chain`), provided that the locks are POSIX locks (`AllPosix`) and that no
chain is longer than `maxlockdepth` (`ChainsOk`).
-/

namespace Bsd386.Ufs.Advlock

open Function Lib.Transition

/-- A process sleeping in `lf_setlock` waits for the owner of the lock its request is queued on.
Source: lf_setlock -/
def WaitsFor (k : Kernel) (p q : Pid) : Prop :=
  ∃ w x ip, k.proc p = .asleep w ∧ x ∈ k.iLockf ip ∧ w ∈ k.lfBlock x ∧ (k.lock x).id = .proc q

/-- Every lock and every request is a POSIX lock. -/
structure AllPosix (k : Kernel) : Prop where
  listed : ∀ ip, ∀ x ∈ k.iLockf ip, (k.lock x).posix = true
  request : ∀ p a, (k.proc p).request = some a → (k.lock a).posix = true

/-- No chain of waiting processes is longer than `maxlockdepth`.
Source: maxlockdepth -/
def ChainsOk (maxlockdepth : ℕ) (k : Kernel) : Prop :=
  ∀ n p q, Chain (WaitsFor k) n p q → n ≤ maxlockdepth

section

variable {n : ℕ} {p q : Pid} {k k' : Kernel}

theorem ChainsOk.mono (h : ChainsOk n k) (hsub : ∀ p q, WaitsFor k' p q → WaitsFor k p q) :
    ChainsOk n k' := fun j p q hc => h j p q (hc.mono hsub)

theorem lfDeadlock_succ (h : Inv k) (hpos : AllPosix k) (hw : WaitsFor k p q) (l : Lockf) (n : ℕ) :
    lfDeadlock k l (n + 1) (.proc p) =
      if Id.proc q = l.id then true else lfDeadlock k l n (.proc q) := by
  obtain ⟨w, x, ip, hp, hx, hwx, hid⟩ := hw
  have hnext := ((h.wait ip x hx).2 w hwx).1
  have hposix := hpos.listed ip x hx
  simp [lfDeadlock, hp, hnext, hposix, hid]

theorem lfDeadlock_of_chain (h : Inv k) (hpos : AllPosix k) {l : Lockf} (hl : l.id = .proc q)
    {j : ℕ} (hc : Chain (WaitsFor k) j p q) (hne : p ≠ q) (hj : j ≤ n) :
    lfDeadlock k l n (.proc p) = true := by
  induction hc generalizing n with
  | refl p => exact absurd rfl hne
  | @head j p r q hpr hc ih =>
    obtain ⟨n, rfl⟩ : ∃ n', n = n' + 1 := ⟨n - 1, by omega⟩
    rw [lfDeadlock_succ h hpos hpr, hl]
    by_cases hrq : r = q
    · rw [if_pos (by rw [hrq])]
    · rw [if_neg fun heq => hrq (Id.proc.inj heq)]
      exact ih hl hrq (by omega)

theorem not_reaches_of_lfDeadlock (h : Inv k) (hpos : AllPosix k) (hch : ChainsOk n k) {l : Lockf}
    (hl : l.id = .proc q) (hne : p ≠ q) (hd : lfDeadlock k l n (.proc p) = false) :
    ¬ Relation.ReflTransGen (WaitsFor k) p q := by
  intro hr
  obtain ⟨j, hj⟩ := exists_chain hr
  rw [lfDeadlock_of_chain h hpos hl hj hne (hch j p q hj)] at hd
  exact Bool.noConfusion hd

theorem WaitsFor.of_alloc (h : Inv k) {a : Addr} (ha : a ∉ k.live) {r : Lockf}
    (hw : WaitsFor (k.alloc a r) p q) : WaitsFor k p q := by
  obtain ⟨w, x, ip, hp, hx, hwx, hid⟩ := hw
  have hxa : x ≠ a := fun heq => ha (heq ▸ h.live ip x hx)
  refine ⟨w, x, ip, hp, hx, ?_, ?_⟩
  · have hB : (k.alloc a r).lfBlock x = k.lfBlock x := update_of_ne hxa _ _
    rwa [hB] at hwx
  · have hL : (k.alloc a r).lock x = k.lock x := update_of_ne hxa _ _
    rwa [hL] at hid

theorem AllPosix.alloc (hpos : AllPosix k) (h : Inv k) {a : Addr} (ha : a ∉ k.live) {r : Lockf} :
    AllPosix (k.alloc a r) := by
  have hlock : ∀ y ∈ k.live, (k.alloc a r).lock y = k.lock y := by
    intro y hy
    have hya : y ≠ a := fun heq => ha (heq ▸ hy)
    exact update_of_ne hya _ _
  refine ⟨?_, ?_⟩
  · intro ip x hx
    rw [hlock x (h.live ip x hx)]
    exact hpos.listed ip x hx
  · intro q c hq
    rw [hlock c (h.req q c hq).live]
    exact hpos.request q c hq

theorem AllPosix.running (hpos : AllPosix k) (p : Pid) : AllPosix (k.setProc p .running) := by
  refine ⟨hpos.listed, fun q c hq => ?_⟩
  by_cases hqp : q = p
  · subst hqp
    rw [show (k.setProc q .running).proc q = .running from update_self _ _ _] at hq
    exact absurd hq (by simp [PState.request])
  · rw [show (k.setProc p .running).proc q = k.proc q from update_of_ne hqp _ _] at hq
    exact hpos.request q c hq

theorem WaitsFor.of_setProc {r : Pid} {t : PState} (ht : ∀ w, t ≠ .asleep w)
    (hw : WaitsFor (k.setProc r t) p q) : WaitsFor k p q := by
  obtain ⟨w, x, ip, hp, hx, hwx, hid⟩ := hw
  have hpr : p ≠ r := by
    rintro rfl
    rw [show (k.setProc p t).proc p = t from update_self _ _ _] at hp
    exact ht w hp
  rw [show (k.setProc r t).proc p = k.proc p from update_of_ne hpr _ _] at hp
  exact ⟨w, x, ip, hp, hx, hwx, hid⟩

end

end Bsd386.Ufs.Advlock
