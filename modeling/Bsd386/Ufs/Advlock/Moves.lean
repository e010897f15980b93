import Bsd386.Ufs.Advlock.Waits
import Mathlib.Data.Fintype.EquivFin

/-!
# Every action is a sequence of moves

`Move u s t` are the elementary changes of state: a process takes a request in hand, changes it,
edits the inode's list, frees the request, leaves it on a waiting list or in `MALLOC`. Each move
keeps `Inv` (`Move.inv`), and `step_moves` says that every action of `step` is a sequence of moves.
What is to be shown of every run is then shown of the moves.

`Safe` excludes the two actions that break the invariant: the overflow of `lf_end + 1`, and the
granting of a lock that takes over waiters.
-/

namespace Bsd386.Ufs.Advlock

open Function List Lib.Transition Option

variable {R S new : List Addr} {ip : Ino} {C : Kernel → Act → Prop}

/-! ## The domain of the actions -/

/-- The requests of an action are as the callers make them.
Source: fcntl, flock; ufs_advlock -/
def ActOk : Act → Prop
  | .setlock p _ r _ => ReqOk p r ∧ r.type ≠ .unlck
  | .clearlock p _ r _ => ReqOk p r
  | _ => True

/-- The requests of an action are POSIX locks. -/
def PosixAct : Act → Prop
  | .setlock _ _ r _ => r.posix = true
  | .clearlock _ _ r _ => r.posix = true
  | _ => True

/-- Nothing on the list of the inode blocks the request. -/
def Unblocked (k : Kernel) (r : Lockf) : Prop := ∀ x ∈ k.iLockf r.inode, ¬ Blocks (k.lock x) r

/-- If the request can be granted, this neither overflows nor moves waiters. -/
def SafeGrant (k : Kernel) (r : Lockf) : Prop :=
  Unblocked k r → ¬ WrapsSet k r (k.iLockf r.inode) ∧ ¬ TakesWaiters k r (k.iLockf r.inode)

instance (k : Kernel) (r : Lockf) : Decidable (Unblocked k r) :=
  inferInstanceAs (Decidable (∀ x ∈ k.iLockf r.inode, ¬ Blocks (k.lock x) r))

instance (k : Kernel) (r : Lockf) : Decidable (SafeGrant k r) :=
  inferInstanceAs (Decidable (_ → _ ∧ _))

/-- The action neither overflows nor moves waiters. -/
def Safe (k : Kernel) : Act → Prop
  | .setlock _ _ r _ => SafeGrant k r
  | .clearlock _ _ r _ => ¬ WrapsClear k r (k.iLockf r.inode)
  | .resume p intr _ => ∀ a, k.proc p = .woken a → intr = false → SafeGrant k (k.lock a)
  | _ => True

/-- A grant that `MALLOC` has delayed is still not blocked. -/
def Rechecked (k : Kernel) : Act → Prop
  | .mallocDone p _ => ∀ a x, k.proc p = .mallocSet a x → Unblocked k (k.lock a)
  | _ => True

/-- The waiters of a lock that is split by `lf_clearlock` after `MALLOC` has slept wait for its left
part. -/
def KeepsWaiters (k : Kernel) : Act → Prop
  | .mallocDone p _ => ∀ a x, k.proc p = .mallocClear a x →
      ∀ w ∈ k.lfBlock x, (k.lock w).start < (k.lock a).start
  | _ => True

/-- An action with well-formed requests that meets a condition. -/
def Next (n : ℕ) (C : Kernel → Act → Prop) (k k' : Kernel) : Prop :=
  ∃ act r, ActOk act ∧ C k act ∧ step n k act = some (k', r)

/-! ## Moves -/

/-- The elementary changes of state. -/
inductive Move (u s t : Prop) : Kernel → Kernel → Prop where
  /-- A caller allocates a request. -/
  | alloc {k : Kernel} {p : Pid} {a : Addr} {r : Lockf} (h : Inv k) (hp : k.proc p = .running)
      (ha : a ∉ k.live) (hr : ReqOk p r) (ht : t → r.posix = true) : Move u s t k (k.alloc a r)
  /-- A process comes back from a sleep. -/
  | leave {k : Kernel} {p : Pid} {a : Addr} {B : Addr → List Addr} (h : Inv k)
      (hp : (k.proc p).request = some a)
      (hB : ∀ y, B y = k.lfBlock y ∨ B y = (k.lfBlock y).erase a)
      (ha : ∀ ip, ∀ x ∈ k.iLockf ip, a ∉ B x) :
      Move u s t k ({ k with lfBlock := B }.setProc p .running)
  /-- The process changes its request. -/
  | retype {k : Kernel} {p : Pid} {a : Addr} {l : Lockf} (h : Entry k p a) (hl : ReqOk p l)
      (ht : l.posix = (k.lock a).posix) : Move u s t k (k.setLock a l)
  /-- The list of the inode is edited. -/
  | edit {k : Kernel} {p : Pid} {a b : Addr} {U : List Addr} {k₁ : Kernel} {L W : List Addr}
      (h : ListEdit s k p a b U k₁ L W) (hu : a ∈ U → u → Unblocked k (k.lock a))
      (hpos : a ∈ U → t → (k.lock a).posix = true)
      (hsort : Sorted k₁ L) (hnd : L.Nodup) : Move u s t k (k₁.setList (k.lock a).inode L)
  /-- `lf_clearlock` splits a lock after `MALLOC` has slept. -/
  | late {k : Kernel} {p : Pid} {a b x : Addr} {S R : List Addr} (h : Entry k p a)
      (hb : b ∉ k.live) (hx : k.iLockf (k.lock a).inode = S ++ x :: R)
      (hsp : Splits (k.lock x) (k.lock a))
      (hk : s → ∀ w ∈ k.lfBlock x, (k.lock w).start < (k.lock a).start) :
      Move u s t k ((splitThree k x a b).setList (k.lock a).inode (S ++ x :: b :: R))
  /-- The process frees its request. -/
  | free {k : Kernel} {p : Pid} {a : Addr} (h : Entry k p a) : Move u s t k (k.free a)
  /-- The process sleeps in `MALLOC`. -/
  | park {k : Kernel} {p : Pid} {a x : Addr} {c : PState} (h : Entry k p a)
      (hpos : t → (k.lock a).posix = true)
      (hc : c = .mallocSet a x ∨ c = .mallocClear a x) (hx : x ∈ k.iLockf (k.lock a).inode)
      (hsp : Splits (k.lock x) (k.lock a)) : Move u s t k (k.setProc p c)
  /-- The process sleeps until a lock that blocks it changes. -/
  | queue {k : Kernel} {p : Pid} {a x : Addr} (h : Entry k p a)
      (hx : x ∈ k.iLockf (k.lock a).inode) (hb : Blocks (k.lock x) (k.lock a))
      (htype : (k.lock a).type ≠ .unlck) (hpos : t → (k.lock a).posix = true)
      (hd : t → ∀ q, (k.lock x).id = .proc q → ¬ Relation.ReflTransGen (WaitsFor k) q p) :
      Move u s t k ((lfAddblock { k with lfNext := update k.lfNext a (some x) } x
        (a :: k.lfBlock a)).setProc p (.asleep a))
  /-- A signal makes a sleeping process runnable. -/
  | signal {k : Kernel} {p : Pid} {a : Addr} (h : Inv k) (hp : k.proc p = .asleep a) :
      Move u s t k (k.setProc p (.signalled a))

section

variable {n : ℕ} {u s t : Prop} {p : Pid} {a b x : Addr} {k k' : Kernel} {m : Malloc}

theorem Entry.late (h : Entry k p a) (hb : b ∉ k.live)
    (hx : k.iLockf (k.lock a).inode = S ++ x :: R) (hsp : Splits (k.lock x) (k.lock a)) :
    ∃ W, ListEdit False k p a b (k.iLockf (k.lock a).inode) (splitThree k x a b)
      (S ++ x :: b :: R) W ∧ Sorted (splitThree k x a b) (S ++ x :: b :: R) ∧
      (S ++ x :: b :: R).Nodup := by
  have hl := h.listed (k.lock a).inode hb
  have hsort := h.inv.sorted (k.lock a).inode
  rw [hx] at hl hsort
  have hlm : Listed k b (S ++ a :: x :: R) := hl.congr perm_middle
  obtain ⟨hS, hR, hSR⟩ := pairwise_append.mp hsort
  have hE := (Edited.splitClear (s := False) hlm.of_append_right hR hsp False.elim).append_left
    hl.tail hS hSR
  obtain ⟨W, hW⟩ := hE.edit
  exact ⟨W, ⟨h, hb, by rwa [hx], fun y hy => .inr hy, fun y hy => hy⟩, hE.sorted, hE.nodup⟩

theorem setList_eq_self (k : Kernel) (ip : Ino) : k.setList ip (k.iLockf ip) = k := by
  show { k with iLockf := update k.iLockf ip (k.iLockf ip) } = k
  rw [update_eq_self]

theorem Entry.free (h : Entry k p a) : Inv (k.free a) := by
  obtain ⟨b, hb⟩ := Infinite.exists_notMem_finset k.live
  have hl := h.listed (k.lock a).inode hb
  have hE : ListEdit True k p a b (a :: k.iLockf (k.lock a).inode) (k.free a)
      (k.iLockf (k.lock a).inode) [] :=
    ⟨h, hb, .drop hl rfl h.req.block, fun y hy => mem_cons.mp hy,
      fun y hy => mem_cons_of_mem _ hy⟩
  have hinv := hE.inv (Sorted.congr (h.inv.sorted _) fun _ _ => rfl) (h.inv.nodup _)
  have hsame : (k.free a).setList (k.lock a).inode (k.iLockf (k.lock a).inode) = k.free a :=
    setList_eq_self (k.free a) _
  rwa [hsame] at hinv

theorem Move.inv (h : Move u s t k k') : Inv k' := by
  cases h with
  | alloc h hp ha hr _ => exact (h.alloc hp ha hr).inv
  | leave h hp hB ha => exact (h.leave hp hB ha).inv
  | retype h hl _ => exact (h.setLock hl).inv
  | edit h _ _ hsort hnd => exact h.inv hsort hnd
  | late h hb hx hsp _ =>
    obtain ⟨W, hE, hsort, hnd⟩ := h.late hb hx hsp
    exact hE.inv hsort hnd
  | free h => exact h.free
  | park h _ hc hx hsp => exact h.park hc hx hsp
  | queue h hx _ htype _ _ => exact h.queue hx htype
  | signal h hp => exact h.signal hp

theorem Move.invariant {P : Kernel → Prop} (hP : ∀ k k', Move u s t k k' → P k → P k')
    (h : Relation.ReflTransGen (Move u s t) k k') (hk : P k) : P k' := by
  induction h with
  | refl => exact hk
  | tail _ hm ih => exact hP _ _ hm ih

/-! ## The actions -/

theorem setProc_running (h : k.proc p = .running) : k.setProc p .running = k := by
  show { k with proc := update k.proc p .running } = k
  rw [← h, update_eq_self]

section

variable (h : Entry k p a) (hm : m.addr ∉ k.live)
include h hm

theorem Entry.clearAll (hw : ¬ WrapsClear k (k.lock a) (k.iLockf (k.lock a).inode)) {k1 : Kernel}
    {sp : Option Addr} (hrun : clearAll k a m = (k1, sp)) :
    Move u s t k k1 ∧ Entry k1 p a ∧ k1.lock a = k.lock a ∧
      (∀ y ∈ k.iLockf (k.lock a).inode, (k.lock y).id ≠ (k.lock a).id →
        y ∈ k1.iLockf (k.lock a).inode ∧ k1.lock y = k.lock y) ∧
      ∀ x, sp = some x → x ∈ k1.iLockf (k.lock a).inode ∧ Splits (k1.lock x) (k.lock a) := by
  have hl := h.listed (k.lock a).inode hm
  have hc := clearLoop_cleared (s := s) (Nat.lt_succ_self _) hl (h.inv.sorted _) hw
  rw [Advlock.clearAll] at hrun
  obtain ⟨rfl, rfl⟩ := Prod.mk.inj hrun
  obtain ⟨W, hW⟩ := hc.edited.edit
  have haU : a ∉ k.iLockf (k.lock a).inode := h.req.off _
  have hE : ListEdit s k p a m.addr (k.iLockf (k.lock a).inode) _ _ W :=
    ⟨h, hm, hW, fun y hy => .inr hy, fun y hy => hy⟩
  obtain ⟨hentry, hlock⟩ := hE.entry_of_not_mem haU hc.edited.sorted hc.edited.nodup
  refine ⟨.edit hE (fun ha => absurd ha haU) (fun ha => absurd ha haU)
    hc.edited.sorted hc.edited.nodup, hentry, hlock, ?_, ?_⟩
  · intro y hy hid
    rw [setList_self]
    exact ⟨hW.others y hy hid, hW.lock y (fun heq => hm (heq ▸ h.inv.live _ y hy)) fun _ => hid⟩
  · intro x hx
    obtain ⟨hxL, -, hsp, -⟩ := hc.split x hx
    rw [setList_self]
    exact ⟨hxL, hsp⟩

theorem Entry.lfClearlock (hpos : t → (k.lock a).posix = true)
    (hw : ¬ WrapsClear k (k.lock a) (k.iLockf (k.lock a).inode)) :
    Relation.ReflTransGen (Move u s t) k (lfClearlock k p a m).1 := by
  rcases hrun : Advlock.clearAll k a m with ⟨k1, sp⟩
  obtain ⟨hmove, hentry, hlock, -, hsp⟩ := h.clearAll (u := u) (s := s) (t := t) hm hw hrun
  unfold Advlock.lfClearlock
  rw [hrun]
  cases sp with
  | none =>
    have hp : (k1.free a).proc p = .running := hentry.proc
    simp only
    rw [setProc_running hp]
    exact (Relation.ReflTransGen.single hmove).tail (.free hentry)
  | some x =>
    obtain ⟨hx, hs⟩ := hsp x rfl
    rw [← hlock] at hx hs hpos
    exact (Relation.ReflTransGen.single hmove).tail (.park hentry hpos (.inr rfl) hx hs)

theorem Entry.flockRelease (hx : x ∈ k.iLockf (k.lock a).inode) (hid : (k.lock x).id ≠ (k.lock a).id) :
    ∃ k1, flockRelease k a m = k1 ∧ Relation.ReflTransGen (Move u s t) k k1 ∧ Entry k1 p a ∧
      k1.lock a = k.lock a ∧ x ∈ k1.iLockf (k.lock a).inode ∧ k1.lock x = k.lock x ∧
      ((k.lock a).posix = true → k1 = k) := by
  refine ⟨_, rfl, ?_⟩
  unfold Advlock.flockRelease
  by_cases hf : (k.lock a).flock = true ∧ (k.lock a).type = .wrlck
  · simp only [hf, and_self, if_true]
    obtain ⟨hr, ⟨-, hnf, -⟩ | ⟨hnp, f, hfid, hstart, hstop⟩⟩ := h.req.ok
    · exact absurd (hnf.symm.trans hf.1) (by simp)
    have hok : ∀ t, ReqOk p { k.lock a with type := t } := fun t =>
      ⟨hr, .inr ⟨hnp, f, hfid, hstart, hstop⟩⟩
    have h0 : Entry (k.setType a .unlck) p a := h.setLock (hok .unlck)
    have hla : (k.setType a .unlck).lock a = { k.lock a with type := .unlck } :=
      update_self _ _ _
    rcases hrun : Advlock.clearAll (k.setType a .unlck) a { m with sleeps := false } with ⟨k2, sp⟩
    obtain ⟨hmove, h2, hlock, hothers, -⟩ := 
      h0.clearAll (u := u) (s := s) (t := t) (m := { m with sleeps := false }) hm (by
      rintro ⟨hmax, -⟩
      rw [hla] at hmax
      exact absurd (hstop.symm.trans hmax) (by decide)) hrun
    have hxa : x ≠ a := fun heq => hid (heq ▸ rfl)
    have hlx : (k.setType a .unlck).lock x = k.lock x := update_of_ne hxa _ _
    rw [hla] at hlock hothers
    obtain ⟨hx2, hlx2⟩ := hothers x hx (by rwa [hlx])
    have hend : k2.setType a .wrlck = k2.setLock a (k.lock a) := by
      have hback : { k2.lock a with type := .wrlck } = k.lock a := by
        rw [hlock, ← hf.2]
      unfold Kernel.setType
      rw [hback]
    rw [hend]
    refine ⟨((Relation.ReflTransGen.single (.retype h (hok .unlck) rfl)).tail hmove).tail
      (.retype h2 h.req.ok (by rw [hlock])), h2.setLock h.req.ok, update_self _ _ _, hx2, ?_, ?_⟩
    · exact (update_of_ne hxa _ _).trans (hlx2.trans hlx)
    · intro hp
      exact absurd (hnp.symm.trans hp) (by simp)
  · rw [if_neg hf]
    exact ⟨.refl, h, rfl, hx, rfl, fun _ => rfl⟩

theorem Entry.lfSetlock (htype : (k.lock a).type ≠ .unlck) (hsafe : SafeGrant k (k.lock a))
    (hpos : t → (k.lock a).posix = true) (hchain : t → AllPosix k ∧ ChainsOk n k) :
    Relation.ReflTransGen (Move u s t) k (lfSetlock n k p a m).1 := by
  have hfree : Relation.ReflTransGen (Move u s t) k ((k.free a).setProc p .running) := by
    have hp : (k.free a).proc p = .running := h.proc
    rw [setProc_running hp]
    exact .single (.free h)
  cases hblock : lfGetblock k (k.lock a) with
  | some x =>
    obtain ⟨hx, hb⟩ := lfGetblock_eq_some hblock
    simp only [Advlock.lfSetlock, hblock]
    split_ifs with hwait hdead
    · exact hfree
    · exact hfree
    · obtain ⟨k1, hk1, hmoves, h1, hla, hx1, hlx, hposix⟩ :=
        h.flockRelease (u := u) (s := s) (t := t) hm hx hb.1
      simp only [hk1]
      rw [← hla] at hx1 htype hb
      rw [← hlx] at hb
      rw [← hla] at hpos
      refine hmoves.tail (.queue h1 hx1 hb htype hpos ?_)
      intro ht q hq
      have hp : (k.lock a).posix = true := hla ▸ hpos ht
      obtain rfl := hposix hp
      obtain ⟨hall, hch⟩ := hchain ht
      have hpx := hall.listed _ x hx
      have hid := h.req.ok.id_of_posix hp
      refine not_reaches_of_lfDeadlock h.inv hall hch hid ?_ ?_
      · rintro rfl
        exact hb.1 (hq.trans hid.symm)
      · rw [hp, hpx, hq] at hdead
        simpa using hdead
  | none =>
    have hun : Unblocked k (k.lock a) := lfGetblock_eq_none hblock
    obtain ⟨hwrap, htake⟩ := hsafe hun
    have hready : Ready k m.addr a (k.iLockf (k.lock a).inode) :=
      ⟨h.listed _ hm, h.inv.sorted _, hwrap, htake⟩
    have hloop := setLoop_edited (s := s) (Nat.lt_succ_self _) hready h.req.block
      (fun y hy => h.inv.inode _ y hy) htype
    rcases hloop with ⟨k1, L, hrun, hE⟩ | ⟨x, hx, hrun, hs⟩
    · obtain ⟨W, hW⟩ := hE.edit
      simp only [Advlock.lfSetlock, hblock, hrun]
      have hedit : ListEdit s k p a m.addr (a :: k.iLockf (k.lock a).inode) k1 L W :=
        ⟨h, hm, hW, fun y hy => mem_cons.mp hy, fun y hy => mem_cons_of_mem _ hy⟩
      have hp : (k1.setList (k.lock a).inode L).proc p = .running := by
        show k1.proc p = _
        rw [hW.proc, h.proc]
        rfl
      rw [setProc_running hp]
      exact .single (.edit hedit (fun _ _ => hun) (fun _ => hpos) hE.sorted hE.nodup)
    · simp only [Nat.succ_eq_add_one] at hrun
      simp only [Advlock.lfSetlock, hblock, hrun]
      rw [setList_eq_self]
      exact .single (.park h hpos (.inl rfl) hx hs)

end

section

variable (h : Inv k) (hp : (k.proc p).request = some a)
  (hne : k.proc p ≠ .asleep a ∧ k.proc p ≠ .signalled a)
include h hp hne

theorem Inv.not_mem_lfBlock (hx : x ∈ k.iLockf ip) :
    a ∉ k.lfBlock x := by
  intro ha
  obtain ⟨-, q, hq⟩ := (h.wait ip x hx).2 a ha
  have hreq : (k.proc q).request = some a := by
    rcases hq with hq | hq <;> rw [hq] <;> rfl
  obtain rfl := h.inj q p a hreq hp
  rcases hq with hq | hq
  · exact hne.1 hq
  · exact hne.2 hq

theorem Inv.resume :
    Move u s t k (k.setProc p .running) ∧ Entry (k.setProc p .running) p a :=
  have hx : ∀ ip, ∀ x ∈ k.iLockf ip, a ∉ k.lfBlock x := fun _ _ hx => h.not_mem_lfBlock hp hne hx
  ⟨.leave h hp (fun _ => .inl rfl) hx, h.leave hp (fun _ => .inl rfl) hx⟩

end

theorem Inv.lfInterrupted (h : Inv k) (hp : k.proc p = .woken a ∨ k.proc p = .signalled a) :
    Relation.ReflTransGen (Move u s t) k (Advlock.lfInterrupted k p a).1 := by
  have hreq : (k.proc p).request = some a := by rcases hp with hp | hp <;> rw [hp] <;> rfl
  -- it is enough to take the request off the waiting list it may be on
  suffices hB : ∃ B : Addr → List Addr, (Advlock.lfInterrupted k p a).1 =
      (({ k with lfBlock := B }.setProc p .running).free a) ∧
      (∀ y, B y = k.lfBlock y ∨ B y = (k.lfBlock y).erase a) ∧
      ∀ ip, ∀ x ∈ k.iLockf ip, a ∉ B x by
    obtain ⟨B, heq, hB, ha⟩ := hB
    rw [heq]
    exact (Relation.ReflTransGen.single (.leave h hreq hB ha)).tail (.free (h.leave hreq hB ha))
  cases hn : k.lfNext a with
  | none =>
    refine ⟨k.lfBlock, by simp only [Advlock.lfInterrupted, hn]; rfl, fun _ => .inl rfl, ?_⟩
    intro ip x hx ha
    have := ((h.wait ip x hx).2 a ha).1
    rw [hn] at this
    exact absurd this (by simp)
  | some block =>
    refine ⟨update k.lfBlock block ((k.lfBlock block).erase a),
      by simp only [Advlock.lfInterrupted, hn]; rfl, ?_, ?_⟩
    · intro y
      by_cases hy : y = block
      · subst hy
        exact .inr (update_self _ _ _)
      · exact .inl (update_of_ne hy _ _)
    · intro ip x hx ha
      obtain ⟨hnd, hwait⟩ := h.wait ip x hx
      by_cases hxb : x = block
      · subst hxb
        rw [update_self] at ha
        exact hnd.not_mem_erase ha
      rw [update_of_ne hxb] at ha
      have := (hwait a ha).1
      rw [hn] at this
      exact hxb (some.inj this).symm

theorem insertAfter_of_not_mem {l : List Addr} (h : x ∉ l) : insertAfter x new l = l := by
  induction l with
  | nil => rfl
  | cons y ys ih =>
    have hyx : y ≠ x := fun heq => h (heq ▸ mem_cons_self)
    rw [insertAfter, if_neg hyx, ih fun hx => h (mem_cons_of_mem _ hx)]

theorem insertAfter_append (h : x ∉ S) :
    insertAfter x new (S ++ x :: R) = S ++ x :: (new ++ R) := by
  induction S with
  | nil => rw [nil_append, insertAfter, if_pos rfl, nil_append]
  | cons y S ih =>
    have hyx : y ≠ x := fun heq => h (heq ▸ mem_cons_self)
    rw [cons_append, insertAfter, if_neg hyx, ih fun hx => h (mem_cons_of_mem _ hx),
      cons_append]

theorem Inv.insertAfter (h : Inv k)
    (hx : k.iLockf ip = S ++ x :: R) :
    (fun jp => Advlock.insertAfter x new (k.iLockf jp)) =
      update k.iLockf ip (S ++ x :: (new ++ R)) := by
  have hxip : x ∈ k.iLockf ip := by rw [hx]; simp
  have hxS : x ∉ S := by
    have hnd := h.nodup ip
    rw [hx] at hnd
    exact fun hxS => (nodup_append.mp hnd).2.2 x hxS x mem_cons_self rfl
  funext jp
  by_cases hj : jp = ip
  · subst hj
    rw [update_self, hx, insertAfter_append hxS]
  · rw [update_of_ne hj]
    exact insertAfter_of_not_mem (h.not_mem_of_ne hxip fun heq => hj heq.symm)

theorem Entry.mallocSet (h : Entry k p a) (hb : b ∉ k.live)
    (hx : k.iLockf (k.lock a).inode = S ++ x :: R) (hsp : Splits (k.lock x) (k.lock a)) :
    ∃ W, ListEdit s k p a b (a :: k.iLockf (k.lock a).inode) (lfWakelock (splitThree k x a b) x)
      (S ++ x :: a :: b :: R) W ∧ Sorted (lfWakelock (splitThree k x a b) x) (S ++ x :: a :: b :: R) ∧
      (S ++ x :: a :: b :: R).Nodup := by
  have hl := h.listed (k.lock a).inode hb
  have hsort := h.inv.sorted (k.lock a).inode
  rw [hx] at hl hsort
  have hlm : Listed _ b (S ++ a :: x :: R) := hl.congr perm_middle
  obtain ⟨-, hR, hSR⟩ := pairwise_append.mp hsort
  have hE := (Edited.splitWake (s := s) hlm.of_append_right hR hsp).append_left_request hl hsort (by
    intro y hy hya
    have := hSR y hy x mem_cons_self (hya.trans hsp.id.symm)
    exact ⟨this.1, this.2.trans hsp.start⟩)
  obtain ⟨W, hW⟩ := hE.edit
  exact ⟨W, ⟨h, hb, by rwa [hx], fun y hy => mem_cons.mp hy,
    fun y hy => mem_cons_of_mem _ hy⟩, hE.sorted, hE.nodup⟩

theorem Inv.mallocSet_eq (h : Inv k) (hx : k.iLockf ip = S ++ x :: R) :
    { lfWakelock (splitThree k x a b) x with
        iLockf := fun jp => Advlock.insertAfter x [a, b] (k.iLockf jp) }.setProc p .running =
      (lfWakelock (splitThree (k.setProc p .running) x a b) x).setList ip (S ++ x :: a :: b :: R) := by
  refine Kernel.ext rfl rfl (h.insertAfter hx) rfl rfl (funext fun q => ?_)
  show update (fun q => wakeup _ (k.proc q)) p .running q =
    wakeup _ (update k.proc p .running q)
  by_cases hq : q = p
  · subst hq
    rw [update_self, update_self]
    rfl
  · rw [update_of_ne hq, update_of_ne hq]
    rfl

theorem Inv.mallocSet (h : Inv k) (hp : k.proc p = .mallocSet a x) (hb : b ∉ k.live)
    (hu : u → Unblocked k (k.lock a)) (hpos : t → (k.lock a).posix = true) :
    Relation.ReflTransGen (Move u s t) k
      ({ lfWakelock (splitThree k x a b) x with
        iLockf := fun ip => Advlock.insertAfter x [a, b] (k.iLockf ip) }.setProc p .running) := by
  obtain ⟨hmove, hentry⟩ := h.resume (u := u) (s := s) (t := t) (p := p) (a := a)
    (by rw [hp]; rfl) (by rw [hp]; simp)
  obtain ⟨hx, hsp⟩ := h.split p a x (.inl hp)
  obtain ⟨S, R, hlist⟩ := append_of_mem hx
  obtain ⟨W, hE, hsort, hnd⟩ := hentry.mallocSet (s := s) (x := x) hb hlist hsp
  rw [h.mallocSet_eq hlist]
  exact (Relation.ReflTransGen.single hmove).tail
    (.edit hE (fun _ hu' => hu hu') (fun _ => hpos) hsort hnd)

theorem Inv.mallocClear_eq (h : Inv k) (hx : k.iLockf ip = S ++ x :: R) :
    ({ splitThree k x a b with
        iLockf := fun jp => Advlock.insertAfter x [b] (k.iLockf jp) }.free a).setProc p .running =
      ((splitThree (k.setProc p .running) x a b).setList ip (S ++ x :: b :: R)).free a :=
  Kernel.ext rfl rfl (h.insertAfter hx) rfl rfl rfl

theorem Inv.mallocClear (h : Inv k) (hp : k.proc p = .mallocClear a x) (hb : b ∉ k.live)
    (hk : s → ∀ w ∈ k.lfBlock x, (k.lock w).start < (k.lock a).start) :
    Relation.ReflTransGen (Move u s t) k
      (({ splitThree k x a b with
        iLockf := fun ip => Advlock.insertAfter x [b] (k.iLockf ip) }.free a).setProc p
          .running) := by
  obtain ⟨hmove, hentry⟩ := h.resume (u := u) (s := s) (t := t) (p := p) (a := a)
    (by rw [hp]; rfl) (by rw [hp]; simp)
  obtain ⟨hx, hsp⟩ := h.split p a x (.inr hp)
  obtain ⟨S, R, hlist⟩ := append_of_mem hx
  obtain ⟨W, hE, hsort, hnd⟩ := hentry.late (x := x) hb hlist hsp
  obtain ⟨hentry', hlock⟩ := hE.entry_of_not_mem (hentry.req.off _) hsort hnd
  rw [h.mallocClear_eq hlist]
  exact ((Relation.ReflTransGen.single hmove).tail (.late hentry hb hlist hsp hk)).tail
    (.free hentry')

theorem Inv.lock_alloc (h : Inv k) (ha : a ∉ k.live) {r : Lockf}
    (hx : x ∈ k.iLockf ip) : (k.alloc a r).lock x = k.lock x ∧
      (k.alloc a r).lfBlock x = k.lfBlock x := by
  have hxa : x ≠ a := fun heq => ha (heq ▸ h.live ip x hx)
  exact ⟨update_of_ne hxa _ _, update_of_ne hxa _ _⟩

theorem Inv.safeGrant_alloc (h : Inv k) (ha : a ∉ k.live) {r : Lockf} (hs : SafeGrant k r) :
    SafeGrant (k.alloc a r) r := by
  intro hun
  obtain ⟨hwrap, htake⟩ := hs fun x hx hb => hun x hx (by rwa [(h.lock_alloc ha hx).1])
  refine ⟨?_, ?_⟩
  · rintro ⟨hmax, x, hx, hrest⟩
    rw [(h.lock_alloc ha hx).1] at hrest
    exact hwrap ⟨hmax, x, hx, hrest⟩
  · rintro ⟨x, hx, hrest⟩
    rw [(h.lock_alloc ha hx).1, (h.lock_alloc ha hx).2] at hrest
    exact htake ⟨x, hx, hrest⟩

/-- **Refinement.** From a state of the invariant, an action that is `Safe` is a sequence of moves. -/
theorem step_moves (h : Inv k) {act : Act} {r : Result} (hok : ActOk act) (hsafe : Safe k act)
    (hu : u → Rechecked k act) (hs : s → KeepsWaiters k act)
    (ht : t → PosixAct act ∧ AllPosix k ∧ ChainsOk n k) (hstep : step n k act = some (k', r)) :
    Relation.ReflTransGen (Move u s t) k k' := by
  cases act with
  | setlock p a r m =>
    simp only [step] at hstep
    split_ifs at hstep with hen
    obtain ⟨hp, ha, hm⟩ := hen
    have hentry := h.alloc hp ha hok.1
    have hla : (k.alloc a r).lock a = r := update_self _ _ _
    have hmoves := hentry.lfSetlock (u := u) (s := s) (t := t) (n := n) hm
      (by rw [hla]; exact hok.2) (by rw [hla]; exact h.safeGrant_alloc ha hsafe)
      (fun ht' => by rw [hla]; exact (ht ht').1)
      fun ht' => ⟨(ht ht').2.1.alloc h ha, (ht ht').2.2.mono fun _ _ hw => hw.of_alloc h ha⟩
    rw [some.inj hstep] at hmoves
    exact Relation.ReflTransGen.head (.alloc h hp ha hok.1 fun ht' => (ht ht').1) hmoves
  | clearlock p a r m =>
    simp only [step] at hstep
    split_ifs at hstep with hen
    obtain ⟨hp, ha, hm⟩ := hen
    have hentry := h.alloc hp ha hok
    have hla : (k.alloc a r).lock a = r := update_self _ _ _
    have hmoves := hentry.lfClearlock (u := u) (s := s) (t := t) hm
      (fun ht' => by rw [hla]; exact (ht ht').1) (by
        rw [hla]
        rintro ⟨hmax, x, hx, hrest⟩
        rw [(h.lock_alloc ha hx).1] at hrest
        exact hsafe ⟨hmax, x, hx, hrest⟩)
    rw [some.inj hstep] at hmoves
    exact Relation.ReflTransGen.head (.alloc h hp ha hok fun ht' => (ht ht').1) hmoves
  | signal p =>
    cases hp : k.proc p with
    | asleep a =>
      simp only [step, hp] at hstep
      obtain ⟨rfl, -⟩ := Prod.mk.inj (some.inj hstep)
      exact .single (.signal h hp)
    | _ => simp [step, hp] at hstep
  | resume p intr m =>
    cases hp : k.proc p with
    | woken a =>
      simp only [step, hp] at hstep
      split_ifs at hstep with hm hintr
      · have hmoves := h.lfInterrupted (u := u) (s := s) (t := t) (.inl hp)
        rwa [some.inj hstep] at hmoves
      have hreq : (k.proc p).request = some a := by rw [hp]; rfl
      obtain ⟨hmove, hentry⟩ := h.resume (u := u) (s := s) (t := t) hreq (by rw [hp]; simp)
      have hmoves := hentry.lfSetlock (u := u) (s := s) (t := t) (n := n) hm
        (h.type p a (by rw [hp]; rfl)) (hsafe a hp (by simpa using hintr))
        (fun ht' => (ht ht').2.1.request p a hreq)
        fun ht' => ⟨(ht ht').2.1.running p,
          (ht ht').2.2.mono fun _ _ hw => hw.of_setProc fun _ => PState.noConfusion⟩
      rw [some.inj hstep] at hmoves
      exact Relation.ReflTransGen.head hmove hmoves
    | signalled a =>
      simp only [step, hp] at hstep
      have hmoves := h.lfInterrupted (u := u) (s := s) (t := t) (.inr hp)
      rwa [some.inj hstep] at hmoves
    | _ => simp [step, hp] at hstep
  | mallocDone p b =>
    simp only [step] at hstep
    split_ifs at hstep with hb
    cases hp : k.proc p with
    | mallocSet a x =>
      simp only [hp] at hstep
      obtain ⟨rfl, -⟩ := Prod.mk.inj (some.inj hstep)
      exact h.mallocSet hp hb (fun hu' => hu hu' a x hp)
        fun ht' => (ht ht').2.1.request p a (by rw [hp]; rfl)
    | mallocClear a x =>
      simp only [hp] at hstep
      obtain ⟨rfl, -⟩ := Prod.mk.inj (some.inj hstep)
      exact h.mallocClear hp hb fun hs' => hs hs' a x hp
    | _ => simp [hp] at hstep

theorem Kernel.Initial.inv (h : k.Initial) : Inv k := by
  obtain ⟨hlist, hproc⟩ := h
  have hnil : ∀ ip x, x ∉ k.iLockf ip := fun ip x => by simp [hlist]
  have hreq : ∀ p a, (k.proc p).request ≠ some a := fun p a => by simp [hproc, PState.request]
  refine ⟨fun ip => by simp [hlist], fun ip x hx => absurd hx (hnil ip x),
    fun ip x hx => absurd hx (hnil ip x), fun ip x hx => absurd hx (hnil ip x),
    fun ip => by simp [hlist, Sorted], fun p a hp => absurd hp (hreq p a),
    fun p q a hp => absurd hp (hreq p a), fun p a hp => absurd (request_of_waiting hp) (hreq p a),
    fun ip x hx => absurd hx (hnil ip x), fun p w hp => ?_, fun p a x hp => ?_⟩
  · rw [hproc] at hp
    exact PState.noConfusion hp
  · rw [hproc] at hp
    rcases hp with hp | hp <;> exact PState.noConfusion hp

/-! ## Runs -/

theorem inv_of_reach (hC : ∀ k act, C k act → Safe k act)
    (h : Reach Kernel.Initial (Next n C) k) : Inv k := by
  refine h.invariant (fun k hk => hk.inv) ?_
  rintro k k' - hinv ⟨act, r, hok, hc, hstep⟩
  have hmoves : Relation.ReflTransGen (Move False False False) k k' :=
    step_moves hinv hok (hC k act hc) False.elim False.elim False.elim hstep
  exact Move.invariant (fun _ _ hm _ => hm.inv) hmoves hinv

theorem invariant_of_reach {P : Kernel → Prop}
    (hC : ∀ k act, C k act → Safe k act ∧ (u → Rechecked k act) ∧ (s → KeepsWaiters k act))
    (hinit : ∀ k : Kernel, k.Initial → P k)
    (hmove : ∀ k k', Move u s False k k' → Inv k → P k → P k')
    (h : Reach Kernel.Initial (Next n C) k) : P k := by
  have hsafe : ∀ k act, C k act → Safe k act := fun k act hc => (hC k act hc).1
  refine h.invariant hinit ?_
  rintro k k' hr hk ⟨act, r, hok, hc, hstep⟩
  obtain ⟨hs, hu, hw⟩ := hC k act hc
  have hmoves := step_moves (inv_of_reach hsafe hr) hok hs hu hw False.elim hstep
  have hboth : Inv k' ∧ P k' := Move.invariant (P := fun k => Inv k ∧ P k)
    (fun k1 k2 hm hk1 => ⟨hm.inv, hmove k1 k2 hm hk1.1 hk1.2⟩) hmoves
    ⟨inv_of_reach hsafe hr, hk⟩
  exact hboth.2

/-- The state after a list of actions; one that cannot happen is passed over. -/
def Kernel.run (n : ℕ) : Kernel → List Act → Kernel
  | k, [] => k
  | k, act :: acts =>
    match step n k act with
    | some (k', _) => Kernel.run n k' acts
    | none => Kernel.run n k acts

/-- The actions of a list are well formed and meet a condition, each in the state it is taken in. -/
def RunOk (n : ℕ) (C : Kernel → Act → Prop) : Kernel → List Act → Prop
  | _, [] => True
  | k, act :: acts => ActOk act ∧ C k act ∧ RunOk n C (k.run n [act]) acts

theorem run_cons (act : Act) (acts : List Act) : k.run n (act :: acts) = (k.run n [act]).run n acts := by
  simp only [Kernel.run]
  cases step n k act <;> rfl

theorem reach_run {acts : List Act}
    (h : Reach Kernel.Initial (Next n C) k) (hok : RunOk n C k acts) :
    Reach Kernel.Initial (Next n C) (k.run n acts) := by
  induction acts generalizing k with
  | nil => exact h
  | cons act acts ih =>
    obtain ⟨hact, hc, hrest⟩ := hok
    rw [run_cons]
    refine ih ?_ hrest
    cases hstep : step n k act with
    | none => simpa [Kernel.run, hstep] using h
    | some out =>
      have hrun : k.run n [act] = out.1 := by simp [Kernel.run, hstep]
      rw [hrun]
      exact h.step ⟨act, out.2, hact, hc, hstep⟩

def noLocks : Kernel where
  lock := fun _ => ⟨true, false, true, .rdlck, 0, 0, .proc 0, 0⟩
  live := ∅
  iLockf := fun _ => []
  lfBlock := fun _ => []
  lfNext := fun _ => none
  proc := fun _ => .running

theorem noLocks_initial : noLocks.Initial := ⟨fun _ => rfl, fun _ => rfl⟩

/-- A POSIX request that may sleep. -/
def posixLock (p : Pid) (ip : Ino) (type : LfType) (start stop : ℤ) : Lockf :=
  ⟨true, false, true, type, start, stop, .proc p, ip⟩

theorem posixLock_ok {type : LfType} {start stop : ℤ}
    (h : (posixLock p ip type start stop).RangeOk) : ReqOk p (posixLock p ip type start stop) :=
  ⟨h, .inl ⟨rfl, rfl, rfl⟩⟩

end

end Bsd386.Ufs.Advlock
