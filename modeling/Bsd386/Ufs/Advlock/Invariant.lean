import Bsd386.Ufs.Advlock.Loops

/-!
# The invariant of the lock lists

`Inv` holds between two stretches of code: the lists hold allocated locks of their inode, each
once, each owner's in order; every process inside the lock code has a request of its own, off the
lists; the waiting lists and the sleeping processes agree (`wait`, `asleep`).

`Entry k p a` is `Inv` for a state in which the process `p` runs with the request `a` in hand. The
lemmas of this file are the ways from one to the other.
-/

namespace Bsd386.Ufs.Advlock

open Function List

variable {r : Lockf} {q : Pid} {c w : Addr} {jp : Ino}

/-! ## Requests -/

/-- The request a process inside the lock code has allocated. -/
def PState.request : PState → Option Addr
  | .running => none
  | .asleep a | .woken a | .signalled a | .mallocSet a _ | .mallocClear a _ => some a

/-- The request of a process in the `while` loop of `lf_setlock`. -/
def PState.waiting : PState → Option Addr
  | .asleep a | .woken a | .signalled a => some a
  | _ => none

/-- A request as the callers make it for the process `p`: a byte range with the process as its
owner, or the whole file with an open file as its owner.
Source: fcntl, flock; ufs_advlock -/
def ReqOk (p : Pid) (r : Lockf) : Prop :=
  r.RangeOk ∧
    (r.posix = true ∧ r.flock = false ∧ r.id = .proc p ∨
      r.posix = false ∧ ∃ f, r.id = .file f ∧ r.start = 0 ∧ r.stop = -1)

theorem ReqOk.ok {p : Pid} (h : ReqOk p r) : r.Ok := by
  obtain ⟨hr, ⟨hp, -, hid⟩ | ⟨hp, f, hid, -, -⟩⟩ := h
  · exact ⟨hr, by rw [hp, hid]; rfl⟩
  · exact ⟨hr, by rw [hp, hid]; rfl⟩

theorem ReqOk.id_of_stop {p : Pid} (h : ReqOk p r) (hs : r.stop ≠ -1) :
    r.id = .proc p := by
  obtain ⟨-, ⟨-, -, hid⟩ | ⟨-, f, -, -, hstop⟩⟩ := h
  · exact hid
  · exact absurd hstop hs

theorem ReqOk.id_of_posix {p : Pid} (h : ReqOk p r) (hp : r.posix = true) :
    r.id = .proc p := by
  obtain ⟨-, ⟨-, -, hid⟩ | ⟨hnp, -⟩⟩ := h
  · exact hid
  · exact absurd (hnp.symm.trans hp) (by simp)

theorem ReqOk.id_ne {p : Pid} (h : ReqOk p r) (hpq : q ≠ p) : r.id ≠ .proc q := by
  obtain ⟨-, ⟨-, -, hid⟩ | ⟨-, f, hid, -, -⟩⟩ := h
  · rw [hid]
    intro heq
    exact hpq (Id.proc.inj heq).symm
  · rw [hid]
    exact Id.noConfusion

@[simp]
theorem request_wakeup (W : List Addr) (s : PState) : (wakeup W s).request = s.request := by
  cases s with
  | asleep w =>
    by_cases h : w ∈ W
    · simp [wakeup, h, PState.request]
    · simp [wakeup, h]
  | _ => rfl

@[simp]
theorem waiting_wakeup (W : List Addr) (s : PState) : (wakeup W s).waiting = s.waiting := by
  cases s with
  | asleep w =>
    by_cases h : w ∈ W
    · simp [wakeup, h, PState.waiting]
    · simp [wakeup, h]
  | _ => rfl

theorem wakeup_eq_asleep {W : List Addr} {s : PState} :
    wakeup W s = .asleep w ↔ s = .asleep w ∧ w ∉ W := by
  cases s with
  | asleep v =>
    by_cases h : v ∈ W
    · simp only [wakeup, if_pos h]
      constructor
      · exact fun h' => PState.noConfusion h'
      · rintro ⟨⟨⟩, hv⟩
        exact absurd h hv
    simp only [wakeup, if_neg h]
    constructor
    · rintro ⟨⟩
      exact ⟨rfl, h⟩
    · exact fun h' => h'.1
  | _ => simp [wakeup]

theorem wakeup_eq_of_not_mem {W : List Addr} {s : PState}
    (h : s = .asleep w ∨ s = .signalled w) (hw : w ∉ W) : wakeup W s = s := by
  rcases h with rfl | rfl
  · exact if_neg hw
  · rfl

/-- A request is allocated, off the lists, and nobody waits for it. -/
structure Request (k : Kernel) (p : Pid) (a : Addr) : Prop where
  live : a ∈ k.live
  off : ∀ ip, a ∉ k.iLockf ip
  block : k.lfBlock a = []
  ok : ReqOk p (k.lock a)

/-- The invariant between two stretches of code. -/
structure Inv (k : Kernel) : Prop where
  nodup : ∀ ip, (k.iLockf ip).Nodup
  inode : ∀ ip, ∀ x ∈ k.iLockf ip, (k.lock x).inode = ip
  live : ∀ ip, ∀ x ∈ k.iLockf ip, x ∈ k.live
  ok : ∀ ip, ∀ x ∈ k.iLockf ip, (k.lock x).Ok
  sorted : ∀ ip, Sorted k (k.iLockf ip)
  req : ∀ p a, (k.proc p).request = some a → Request k p a
  inj : ∀ p q a, (k.proc p).request = some a → (k.proc q).request = some a → p = q
  type : ∀ p a, (k.proc p).waiting = some a → (k.lock a).type ≠ .unlck
  /-- A request on a waiting list is that of a process that sleeps or has got a signal, and points
  to the lock. -/
  wait : ∀ ip, ∀ x ∈ k.iLockf ip, (k.lfBlock x).Nodup ∧
    ∀ w ∈ k.lfBlock x, k.lfNext w = some x ∧ ∃ q, k.proc q = .asleep w ∨ k.proc q = .signalled w
  /-- A sleeping process is on a waiting list of its inode. -/
  asleep : ∀ p w, k.proc p = .asleep w → ∃ x ∈ k.iLockf (k.lock w).inode, w ∈ k.lfBlock x
  /-- A lock that waits for memory to be split is still there. -/
  split : ∀ p a x, k.proc p = .mallocSet a x ∨ k.proc p = .mallocClear a x →
    x ∈ k.iLockf (k.lock a).inode ∧ Splits (k.lock x) (k.lock a)

/-- The invariant while `p` runs with the request `a`. -/
structure Entry (k : Kernel) (p : Pid) (a : Addr) : Prop where
  inv : Inv k
  proc : k.proc p = .running
  req : Request k p a
  own : ∀ q, (k.proc q).request ≠ some a

section

variable {s : Prop} {o : Id} {a b x : Addr} {p : Pid} {ip : Ino} {k k₁ : Kernel} {L U W : List Addr}

theorem Inv.waiter (h : Inv k) (hx : x ∈ k.iLockf ip) (hw : w ∈ k.lfBlock x) :
    ∃ q, (k.proc q).request = some w ∧ Request k q w := by
  obtain ⟨-, q, hq⟩ := (h.wait ip x hx).2 w hw
  have hreq : (k.proc q).request = some w := by
    rcases hq with hq | hq <;> rw [hq] <;> rfl
  exact ⟨q, hreq, h.req q w hreq⟩

theorem Inv.not_mem_of_ne (h : Inv k) (hx : x ∈ k.iLockf jp) (hne : jp ≠ ip) :
    x ∉ k.iLockf ip := fun hx' => hne ((h.inode jp x hx).symm.trans (h.inode ip x hx'))

theorem Entry.listed (h : Entry k p a) (ip : Ino) (hb : b ∉ k.live) :
    Listed k b (a :: k.iLockf ip) := by
  have hoff : ∀ z ∈ k.iLockf ip, ∀ y ∈ a :: k.iLockf ip, y ∉ k.lfBlock z := by
    intro z hz y hy hyz
    obtain ⟨q, hq, hr⟩ := h.inv.waiter hz hyz
    rcases mem_cons.mp hy with rfl | hy
    · exact h.own q hq
    · exact hr.off ip hy
  refine ⟨nodup_cons.mpr ⟨h.req.off ip, h.inv.nodup ip⟩, ?_, ?_, ?_⟩
  · intro hmem
    rcases mem_cons.mp hmem with rfl | hmem
    · exact hb h.req.live
    · exact hb (h.inv.live ip b hmem)
  · intro y hy
    rcases mem_cons.mp hy with rfl | hy
    · exact h.req.ok.ok
    · exact h.inv.ok ip y hy
  · intro y hy z hz
    rcases mem_cons.mp hz with rfl | hz
    · rw [h.req.block]
      exact not_mem_nil
    · exact hoff z hz y hy

/-! ## Changing the list -/

theorem setList_self (k : Kernel) (ip : Ino) (L : List Addr) :
    (k.setList ip L).iLockf ip = L := update_self _ _ _

theorem setList_of_ne (k : Kernel) {ip : Ino} (h : jp ≠ ip) (L : List Addr) :
    (k.setList ip L).iLockf jp = k.iLockf jp := update_of_ne h _ _

/-- An edit of the list of the inode, with or without the request in hand. -/
structure ListEdit (s : Prop) (k : Kernel) (p : Pid) (a b : Addr) (U : List Addr) (k₁ : Kernel)
    (L W : List Addr) : Prop where
  entry : Entry k p a
  fresh : b ∉ k.live
  edit : Edit s (k.lock a).id b k U k₁ L W
  only : ∀ y ∈ U, y = a ∨ y ∈ k.iLockf (k.lock a).inode
  all : ∀ y ∈ k.iLockf (k.lock a).inode, y ∈ U

section listEdit

variable (h : ListEdit s k p a b U k₁ L W)
include h

theorem ListEdit.request_outside (hq : (k.proc q).request = some c) :
    c ∉ U ∧ c ≠ b := by
  have hr := h.entry.inv.req q c hq
  refine ⟨fun hc => ?_, fun heq => h.fresh (heq ▸ hr.live)⟩
  rcases h.only c hc with rfl | hc
  · exact h.entry.own q hq
  · exact hr.off _ hc

theorem ListEdit.woken (hw : w ∈ W) :
    ∃ y ∈ k.iLockf (k.lock a).inode, w ∈ k.lfBlock y ∧ k₁.lfBlock y = [] := by
  obtain ⟨y, hy, -, hwy, hnil⟩ := h.edit.woken w hw
  rcases h.only y hy with rfl | hy
  · rw [h.entry.req.block] at hwy
    exact absurd hwy not_mem_nil
  · exact ⟨y, hy, hwy, hnil⟩

theorem ListEdit.other_outside (hx : x ∈ k.iLockf jp) (hne : jp ≠ (k.lock a).inode) :
    x ∉ U ∧ x ≠ b ∧ x ∉ W := by
  have hinv := h.entry.inv
  refine ⟨fun hxU => ?_, fun heq => h.fresh (heq ▸ hinv.live jp x hx), fun hxW => ?_⟩
  · rcases h.only x hxU with rfl | hxU
    · exact h.entry.req.off jp hx
    · exact hinv.not_mem_of_ne hx hne hxU
  · obtain ⟨y, hy, hxy, -⟩ := h.woken hxW
    obtain ⟨q, -, hr⟩ := hinv.waiter hy hxy
    exact hr.off jp hx

theorem ListEdit.not_woken (hx : x ∈ k.iLockf jp) (hw : w ∈ k.lfBlock x)
    (hw1 : w ∈ k₁.lfBlock x) : w ∉ W := by
  intro hwW
  obtain ⟨y, hy, hwy, hnil⟩ := h.woken hwW
  have h1 := ((h.entry.inv.wait _ y hy).2 w hwy).1
  have h2 := ((h.entry.inv.wait _ x hx).2 w hw).1
  obtain rfl : y = x := Option.some.inj (h1.symm.trans h2)
  rw [hnil] at hw1
  exact not_mem_nil hw1

theorem ListEdit.request (hq : (k.proc q).request = some c) :
    Request (k₁.setList (k.lock a).inode L) q c := by
  have hr := h.entry.inv.req q c hq
  obtain ⟨hcU, hcb⟩ := h.request_outside hq
  have hlock : k₁.lock c = k.lock c := h.edit.lock_of_not_mem hcb hcU
  refine ⟨h.edit.live c hr.live hcb hcU, ?_, ?_, ?_⟩
  · intro jp hc
    by_cases hj : jp = (k.lock a).inode
    · subst hj
      rw [setList_self] at hc
      rcases h.edit.mem c hc with hc | hc
      · exact hcU hc
      · exact hcb hc
    · rw [setList_of_ne _ hj, h.edit.list] at hc
      exact hr.off jp hc
  · rcases h.edit.block c hcb with hB | hB
    · exact hB.trans hr.block
    · exact hB
  · show ReqOk q (k₁.lock c)
    rw [hlock]
    exact hr.ok

theorem ListEdit.wait (hx : x ∈ (k₁.setList (k.lock a).inode L).iLockf jp) :
    (k₁.lfBlock x).Nodup ∧ ∀ w ∈ k₁.lfBlock x,
      k₁.lfNext w = some x ∧ ∃ q, k₁.proc q = .asleep w ∨ k₁.proc q = .signalled w := by
  have hinv := h.entry.inv
  -- it is enough that `x` was on a list and has kept its waiters
  suffices hkeep : k₁.lfBlock x = [] ∨ k₁.lfBlock x = k.lfBlock x ∧ ∃ ip, x ∈ k.iLockf ip by
    rcases hkeep with hnil | ⟨hsame, ip, hxip⟩
    · rw [hnil]
      exact ⟨nodup_nil, fun w hw => absurd hw not_mem_nil⟩
    obtain ⟨hnd, hwait⟩ := hinv.wait ip x hxip
    rw [hsame]
    refine ⟨hnd, fun w hw => ?_⟩
    obtain ⟨hnext, q, hq⟩ := hwait w hw
    have hwW : w ∉ W := h.not_woken hxip hw (hsame ▸ hw)
    obtain ⟨q', hq', -⟩ := hinv.waiter hxip hw
    obtain ⟨-, hwb⟩ := h.request_outside hq'
    refine ⟨(h.edit.next w hwb hwW).trans hnext, q, ?_⟩
    rw [h.edit.proc, wakeup_eq_of_not_mem hq hwW]
    exact hq
  by_cases hj : jp = (k.lock a).inode
  · subst hj
    rw [setList_self] at hx
    rcases h.edit.mem x hx with hxU | rfl
    · have hxb : x ≠ b := by
        rintro rfl
        rcases h.only x hxU with rfl | hxl
        · exact h.fresh h.entry.req.live
        · exact h.fresh (hinv.live _ x hxl)
      rcases h.edit.block x hxb with hB | hB
      · rcases h.only x hxU with rfl | hxl
        · exact .inl (hB.trans h.entry.req.block)
        · exact .inr ⟨hB, _, hxl⟩
      · exact .inl hB
    · exact .inl (h.edit.block_new hx)
  · rw [setList_of_ne _ hj, h.edit.list] at hx
    obtain ⟨hxU, hxb, hxW⟩ := h.other_outside hx hj
    exact .inr ⟨h.edit.block_frame x hxb hxU hxW, jp, hx⟩

theorem ListEdit.asleep (hq : k₁.proc q = .asleep w) :
    ∃ x ∈ (k₁.setList (k.lock a).inode L).iLockf (k₁.lock w).inode, w ∈ k₁.lfBlock x := by
  rw [h.edit.proc, wakeup_eq_asleep] at hq
  obtain ⟨hq, hwW⟩ := hq
  obtain ⟨x, hx, hwx⟩ := h.entry.inv.asleep q w hq
  obtain ⟨hwU, hwb⟩ := h.request_outside (q := q) (c := w) (by rw [hq]; rfl)
  rw [h.edit.lock_of_not_mem hwb hwU]
  by_cases hj : (k.lock w).inode = (k.lock a).inode
  · rw [hj] at hx ⊢
    obtain ⟨hxL, hwx'⟩ := h.edit.stay x (h.all x hx) w hwx hwW
    exact ⟨x, by rwa [setList_self], hwx'⟩
  obtain ⟨hxU, hxb, hxW⟩ := h.other_outside hx hj
  refine ⟨x, ?_, ?_⟩
  · rwa [setList_of_ne _ hj, h.edit.list]
  · rwa [h.edit.block_frame x hxb hxU hxW]

theorem ListEdit.split (hq : (k.proc q).request = some c)
    (hx : x ∈ k.iLockf (k.lock c).inode) (hs : Splits (k.lock x) (k.lock c)) :
    x ∈ (k₁.setList (k.lock a).inode L).iLockf (k₁.lock c).inode ∧
      Splits (k₁.lock x) (k₁.lock c) := by
  obtain ⟨hcU, hcb⟩ := h.request_outside hq
  have hqp : q ≠ p := by
    rintro rfl
    rw [h.entry.proc] at hq
    exact absurd hq (by simp [PState.request])
  have hxo : (k.lock x).id ≠ (k.lock a).id := by
    rw [hs.id, (h.entry.inv.req q c hq).ok.id_of_stop hs.stop]
    exact (h.entry.req.ok.id_ne hqp).symm
  have hxb : x ≠ b := fun heq => h.fresh (heq ▸ h.entry.inv.live _ x hx)
  rw [h.edit.lock_of_not_mem hcb hcU, h.edit.lock x hxb fun _ => hxo]
  refine ⟨?_, hs⟩
  by_cases hj : (k.lock c).inode = (k.lock a).inode
  · rw [hj] at hx ⊢
    rw [setList_self]
    exact h.edit.others x (h.all x hx) hxo
  · rwa [setList_of_ne _ hj, h.edit.list]

theorem ListEdit.lock_other (hx : x ∈ k.iLockf jp) (hne : jp ≠ (k.lock a).inode) :
    k₁.lock x = k.lock x := by
  obtain ⟨hxU, hxb, -⟩ := h.other_outside hx hne
  exact h.edit.lock_of_not_mem hxb hxU

theorem ListEdit.inv (hsort : Sorted k₁ L) (hnd : L.Nodup) :
    Inv (k₁.setList (k.lock a).inode L) := by
  have hinv := h.entry.inv
  -- a statement about the lists holds for the new list and for the others
  have hlists : ∀ {P : Ino → List Addr → Prop}, P (k.lock a).inode L →
      (∀ jp, jp ≠ (k.lock a).inode → P jp (k.iLockf jp)) →
      ∀ jp, P jp ((k₁.setList (k.lock a).inode L).iLockf jp) := by
    intro P hL hother jp
    by_cases hj : jp = (k.lock a).inode
    · subst hj
      rw [setList_self]
      exact hL
    · rw [setList_of_ne _ hj, h.edit.list]
      exact hother jp hj
  have hproc : ∀ q, ((k₁.setList (k.lock a).inode L).proc q).request = (k.proc q).request := by
    intro q
    show (k₁.proc q).request = _
    rw [h.edit.proc, request_wakeup]
  refine ⟨?_, ?_, ?_, ?_, ?_, ?_, ?_, ?_, fun jp x hx => h.wait hx, fun q w hq => h.asleep hq, ?_⟩
  · exact hlists (P := fun _ l => l.Nodup) hnd fun jp _ => hinv.nodup jp
  · refine hlists (P := fun jp l => ∀ x ∈ l, (k₁.lock x).inode = jp) ?_ ?_
    · intro x hx
      obtain ⟨z, hz, hxz⟩ := h.edit.sub x hx
      rw [hxz.inode]
      rcases h.only z hz with rfl | hz
      · rfl
      · exact hinv.inode _ z hz
    · intro jp hj x hx
      rw [h.lock_other hx hj]
      exact hinv.inode jp x hx
  · refine hlists (P := fun _ l => ∀ x ∈ l, x ∈ k₁.live) ?_ ?_
    · refine h.edit.mem_live fun y hy => ?_
      rcases h.only y hy with rfl | hy
      · exact h.entry.req.live
      · exact hinv.live _ y hy
    · intro jp hj x hx
      obtain ⟨hxU, hxb, -⟩ := h.other_outside hx hj
      exact h.edit.live x (hinv.live jp x hx) hxb hxU
  · refine hlists (P := fun _ l => ∀ x ∈ l, (k₁.lock x).Ok) ?_ ?_
    · intro x hx
      obtain ⟨z, -, hxz⟩ := h.edit.sub x hx
      exact hxz.ok
    · intro jp hj x hx
      rw [h.lock_other hx hj]
      exact hinv.ok jp x hx
  · refine hlists (P := fun _ l => Sorted k₁ l) hsort ?_
    exact fun jp hj => (hinv.sorted jp).congr fun y hy => h.lock_other hy hj
  · intro q c hq
    rw [hproc] at hq
    exact h.request hq
  · intro q q' c hq hq'
    rw [hproc] at hq hq'
    exact hinv.inj q q' c hq hq'
  · intro q c hq
    have hw : (k.proc q).waiting = some c := by
      rw [← waiting_wakeup W, ← h.edit.proc]
      exact hq
    have hr : (k.proc q).request = some c := by
      revert hw
      cases k.proc q <;> simp [PState.waiting, PState.request]
    obtain ⟨hcU, hcb⟩ := h.request_outside hr
    show (k₁.lock c).type ≠ _
    rw [h.edit.lock_of_not_mem hcb hcU]
    exact hinv.type q c hw
  · intro q c x hq
    have hq' : k.proc q = .mallocSet c x ∨ k.proc q = .mallocClear c x := by
      have hqk : wakeup W (k.proc q) = .mallocSet c x ∨ wakeup W (k.proc q) = .mallocClear c x := by
        rw [← h.edit.proc]
        exact hq
      revert hqk
      cases k.proc q with
      | asleep w =>
        simp only [wakeup]
        split_ifs <;> simp
      | _ => simp [wakeup]
    obtain ⟨hx, hs⟩ := hinv.split q c x hq'
    exact h.split (by rcases hq' with hq' | hq' <;> rw [hq'] <;> rfl) hx hs

theorem ListEdit.entry_of_not_mem (haU : a ∉ U) (hsort : Sorted k₁ L) (hnd : L.Nodup) :
    Entry (k₁.setList (k.lock a).inode L) p a ∧ k₁.lock a = k.lock a := by
  have hab : a ≠ b := fun heq => h.fresh (heq ▸ h.entry.req.live)
  have hlock := h.edit.lock_of_not_mem hab haU
  refine ⟨⟨h.inv hsort hnd, ?_, ⟨h.edit.live a h.entry.req.live hab haU, ?_, ?_, ?_⟩, ?_⟩, hlock⟩
  · show k₁.proc p = .running
    rw [h.edit.proc, h.entry.proc]
    rfl
  · intro jp ha
    by_cases hj : jp = (k.lock a).inode
    · subst hj
      rw [setList_self] at ha
      rcases h.edit.mem a ha with ha | ha
      · exact haU ha
      · exact hab ha
    · rw [setList_of_ne _ hj, h.edit.list] at ha
      exact h.entry.req.off jp ha
  · rcases h.edit.block a hab with hB | hB
    · exact hB.trans h.entry.req.block
    · exact hB
  · show ReqOk p (k₁.lock a)
    rw [hlock]
    exact h.entry.req.ok
  · intro q
    show (k₁.proc q).request ≠ _
    rw [h.edit.proc, request_wakeup]
    exact h.entry.own q

end listEdit

/-! ## Taking a request in hand and leaving it -/

theorem request_of_waiting {s : PState} (h : s.waiting = some a) : s.request = some a := by
  cases s <;> simp_all [PState.waiting, PState.request]

theorem Inv.alloc (h : Inv k) (hp : k.proc p = .running) (ha : a ∉ k.live)
    (hr : ReqOk p r) : Entry (k.alloc a r) p a := by
  have hya : ∀ y ∈ k.live, y ≠ a := fun y hy heq => ha (heq ▸ hy)
  have hlock : ∀ y ∈ k.live, (k.alloc a r).lock y = k.lock y := fun y hy =>
    update_of_ne (hya y hy) _ _
  have hblock : ∀ y ∈ k.live, (k.alloc a r).lfBlock y = k.lfBlock y := fun y hy =>
    update_of_ne (hya y hy) _ _
  have hnext : ∀ y ∈ k.live, (k.alloc a r).lfNext y = k.lfNext y := fun y hy =>
    update_of_ne (hya y hy) _ _
  have hinv : Inv (k.alloc a r) := by
    refine ⟨h.nodup, ?_, ?_, ?_, ?_, ?_, h.inj, ?_, ?_, ?_, ?_⟩
    · intro ip x hx
      rw [hlock x (h.live ip x hx)]
      exact h.inode ip x hx
    · exact fun ip x hx => Finset.mem_insert_of_mem (h.live ip x hx)
    · intro ip x hx
      rw [hlock x (h.live ip x hx)]
      exact h.ok ip x hx
    · exact fun ip => (h.sorted ip).congr fun y hy => hlock y (h.live ip y hy)
    · intro q c hq
      obtain ⟨hlive, hoff, hB, hok⟩ := h.req q c hq
      exact ⟨Finset.mem_insert_of_mem hlive, hoff, (hblock c hlive).trans hB,
        by rwa [hlock c hlive]⟩
    · intro q c hq
      rw [hlock c (h.req q c (request_of_waiting hq)).live]
      exact h.type q c hq
    · intro ip x hx
      rw [hblock x (h.live ip x hx)]
      obtain ⟨hnd, hwait⟩ := h.wait ip x hx
      refine ⟨hnd, fun w hw => ?_⟩
      obtain ⟨q, -, hreq⟩ := h.waiter hx hw
      rw [hnext w hreq.live]
      exact hwait w hw
    · intro q w hq
      obtain ⟨x, hx, hwx⟩ := h.asleep q w hq
      have hw : w ∈ k.live := (h.req q w (by rw [show k.proc q = .asleep w from hq]; rfl)).live
      rw [hlock w hw]
      exact ⟨x, hx, by rwa [hblock x (h.live _ x hx)]⟩
    · intro q c x hq
      obtain ⟨hx, hs⟩ := h.split q c x hq
      have hc : c ∈ k.live := (h.req q c (by
        rcases hq with hq | hq <;> rw [show k.proc q = _ from hq] <;> rfl)).live
      rw [hlock c hc, hlock x (h.live _ x hx)]
      exact ⟨hx, hs⟩
  refine ⟨hinv, hp, ⟨Finset.mem_insert_self _ _, ?_, update_self _ _ _, ?_⟩, ?_⟩
  · exact fun ip hx => ha (h.live ip a hx)
  · show ReqOk p (update k.lock a r a)
    rwa [update_self]
  · exact fun q hq => ha (h.req q a hq).live

theorem Inv.leave (h : Inv k) (hp : (k.proc p).request = some a) {B : Addr → List Addr}
    (hB : ∀ y, B y = k.lfBlock y ∨ B y = (k.lfBlock y).erase a)
    (ha : ∀ ip, ∀ x ∈ k.iLockf ip, a ∉ B x) :
    Entry ({ k with lfBlock := B }.setProc p .running) p a := by
  have hne : ∀ q, q ≠ p → ({ k with lfBlock := B }.setProc p .running).proc q = k.proc q :=
    fun q hq => update_of_ne hq _ _
  have hself : ({ k with lfBlock := B }.setProc p .running).proc p = .running :=
    update_self _ _ _
  have hreq : ∀ q c, (({ k with lfBlock := B }.setProc p .running).proc q).request = some c →
      q ≠ p ∧ (k.proc q).request = some c := by
    intro q c hq
    by_cases hqp : q = p
    · subst hqp
      rw [hself] at hq
      exact absurd hq (by simp [PState.request])
    · rw [hne q hqp] at hq
      exact ⟨hqp, hq⟩
  have hnil : ∀ y, k.lfBlock y = [] → B y = [] := by
    intro y hy
    rcases hB y with h' | h'
    · rw [h', hy]
    · rw [h', hy]
      rfl
  have hmem : ∀ y, ∀ w, w ≠ a → (w ∈ B y ↔ w ∈ k.lfBlock y) := by
    intro y w hw
    rcases hB y with h' | h'
    · rw [h']
    · rw [h', List.mem_erase_of_ne hw]
  have hnd : ∀ y, (k.lfBlock y).Nodup → (B y).Nodup := by
    intro y hy
    rcases hB y with h' | h'
    · rwa [h']
    · rw [h']
      exact hy.erase a
  have hra := h.req p a hp
  refine ⟨⟨h.nodup, h.inode, h.live, h.ok, h.sorted, ?_, ?_, ?_, ?_, ?_, ?_⟩, hself,
    ⟨hra.live, hra.off, hnil a hra.block, hra.ok⟩, ?_⟩
  · intro q c hq
    obtain ⟨hlive, hoff, hblock, hok⟩ := h.req q c (hreq q c hq).2
    exact ⟨hlive, hoff, hnil c hblock, hok⟩
  · exact fun q q' c hq hq' => h.inj q q' c (hreq q c hq).2 (hreq q' c hq').2
  · intro q c hq
    have hqp := (hreq q c (request_of_waiting hq)).1
    rw [hne q hqp] at hq
    exact h.type q c hq
  · intro ip x hx
    obtain ⟨hxnd, hwait⟩ := h.wait ip x hx
    refine ⟨hnd x hxnd, fun w hw => ?_⟩
    have hwa : w ≠ a := fun heq => ha ip x hx (heq ▸ hw)
    obtain ⟨hnext, q, hq⟩ := hwait w ((hmem x w hwa).mp hw)
    have hqp : q ≠ p := by
      rintro rfl
      have hw : (k.proc q).request = some w := by
        rcases hq with hq | hq <;> rw [hq] <;> rfl
      exact hwa (Option.some.inj (hw.symm.trans hp))
    refine ⟨hnext, q, ?_⟩
    rwa [hne q hqp]
  · intro q w hq
    obtain ⟨hqp, hqr⟩ := hreq q w (by rw [hq]; rfl)
    rw [hne q hqp] at hq
    obtain ⟨x, hx, hwx⟩ := h.asleep q w hq
    have hwa : w ≠ a := fun heq => hqp (h.inj q p a (heq ▸ hqr) hp)
    exact ⟨x, hx, (hmem x w hwa).mpr hwx⟩
  · intro q c x hq
    obtain ⟨hqp, -⟩ := hreq q c (by rcases hq with hq | hq <;> rw [hq] <;> rfl)
    rw [hne q hqp] at hq
    exact h.split q c x hq
  · exact fun q hq => (hreq q a hq).1 (h.inj q p a (hreq q a hq).2 hp)

theorem Entry.setLock (h : Entry k p a) {l : Lockf} (hl : ReqOk p l) :
    Entry (k.setLock a l) p a := by
  have hlock : ∀ y, y ≠ a → (k.setLock a l).lock y = k.lock y := fun y hy =>
    update_of_ne hy _ _
  have hlist : ∀ ip, ∀ x ∈ k.iLockf ip, (k.setLock a l).lock x = k.lock x := fun ip x hx =>
    hlock x fun heq => h.req.off ip (heq ▸ hx)
  have hreq : ∀ q c, (k.proc q).request = some c → (k.setLock a l).lock c = k.lock c :=
    fun q c hq => hlock c fun heq => h.own q (heq ▸ hq)
  refine ⟨⟨h.inv.nodup, ?_, h.inv.live, ?_, ?_, ?_, h.inv.inj, ?_, h.inv.wait, ?_, ?_⟩, h.proc,
    ⟨h.req.live, h.req.off, h.req.block, ?_⟩, h.own⟩
  · intro ip x hx
    rw [hlist ip x hx]
    exact h.inv.inode ip x hx
  · intro ip x hx
    rw [hlist ip x hx]
    exact h.inv.ok ip x hx
  · exact fun ip => (h.inv.sorted ip).congr (hlist ip)
  · intro q c hq
    obtain ⟨hlive, hoff, hB, hok⟩ := h.inv.req q c hq
    exact ⟨hlive, hoff, hB, by rwa [hreq q c hq]⟩
  · intro q c hq
    rw [hreq q c (request_of_waiting hq)]
    exact h.inv.type q c hq
  · intro q w hq
    rw [hreq q w (by rw [show k.proc q = .asleep w from hq]; rfl)]
    exact h.inv.asleep q w hq
  · intro q c x hq
    obtain ⟨hx, hs⟩ := h.inv.split q c x hq
    rw [hreq q c (by rcases hq with hq | hq <;> rw [show k.proc q = _ from hq] <;> rfl),
      hlist _ x hx]
    exact ⟨hx, hs⟩
  · show ReqOk p (update k.lock a l a)
    rwa [update_self]

theorem Inv.setProc (h : Inv k) {t : PState}
    (hreq : ∀ c, t.request = some c → Request k p c ∧ ∀ q, q ≠ p → (k.proc q).request ≠ some c)
    (htype : ∀ c, t.waiting = some c → (k.lock c).type ≠ .unlck)
    (hwait : ∀ w, k.proc p = .asleep w ∨ k.proc p = .signalled w → t = .signalled w)
    (hasleep : ∀ w, t ≠ .asleep w)
    (hsplit : ∀ c x, t = .mallocSet c x ∨ t = .mallocClear c x →
      x ∈ k.iLockf (k.lock c).inode ∧ Splits (k.lock x) (k.lock c)) :
    Inv (k.setProc p t) := by
  have hne : ∀ q, q ≠ p → (k.setProc p t).proc q = k.proc q :=
    fun q hq => update_of_ne hq _ _
  have hself : (k.setProc p t).proc p = t := update_self _ _ _
  refine ⟨h.nodup, h.inode, h.live, h.ok, h.sorted, ?_, ?_, ?_, ?_, ?_, ?_⟩
  · intro q c hq
    by_cases hqp : q = p
    · subst hqp
      rw [hself] at hq
      obtain ⟨hr, -⟩ := hreq c hq
      exact ⟨hr.live, hr.off, hr.block, hr.ok⟩
    · rw [hne q hqp] at hq
      obtain ⟨hlive, hoff, hB, hok⟩ := h.req q c hq
      exact ⟨hlive, hoff, hB, hok⟩
  · intro q q' c hq hq'
    by_cases hqp : q = p <;> by_cases hqp' : q' = p
    · rw [hqp, hqp']
    · subst hqp
      rw [hself] at hq
      rw [hne q' hqp'] at hq'
      exact absurd hq' ((hreq c hq).2 q' hqp')
    · subst hqp'
      rw [hself] at hq'
      rw [hne q hqp] at hq
      exact absurd hq ((hreq c hq').2 q hqp)
    · rw [hne q hqp] at hq
      rw [hne q' hqp'] at hq'
      exact h.inj q q' c hq hq'
  · intro q c hq
    by_cases hqp : q = p
    · subst hqp
      rw [hself] at hq
      exact htype c hq
    · rw [hne q hqp] at hq
      exact h.type q c hq
  · intro ip x hx
    obtain ⟨hnd, hw⟩ := h.wait ip x hx
    refine ⟨hnd, fun w hwx => ?_⟩
    obtain ⟨hnext, q, hq⟩ := hw w hwx
    refine ⟨hnext, q, ?_⟩
    by_cases hqp : q = p
    · subst hqp
      rw [hself]
      exact .inr (hwait w hq)
    · rwa [hne q hqp]
  · intro q w hq
    by_cases hqp : q = p
    · subst hqp
      rw [hself] at hq
      exact absurd hq (hasleep w)
    · rw [hne q hqp] at hq
      exact h.asleep q w hq
  · intro q c x hq
    by_cases hqp : q = p
    · subst hqp
      rw [hself] at hq
      exact hsplit c x hq
    · rw [hne q hqp] at hq
      exact h.split q c x hq

theorem Entry.park (h : Entry k p a) {t : PState}
    (ht : t = .mallocSet a x ∨ t = .mallocClear a x) (hx : x ∈ k.iLockf (k.lock a).inode)
    (hs : Splits (k.lock x) (k.lock a)) : Inv (k.setProc p t) := by
  refine h.inv.setProc ?_ ?_ ?_ ?_ ?_
  · intro c hc
    have hca : c = a := by rcases ht with rfl | rfl <;> exact (Option.some.inj hc).symm
    subst hca
    exact ⟨h.req, fun q _ => h.own q⟩
  · intro c hc
    rcases ht with rfl | rfl <;> exact absurd hc (by simp [PState.waiting])
  · intro w hw
    rw [h.proc] at hw
    rcases hw with hw | hw <;> exact PState.noConfusion hw
  · rintro w rfl
    rcases ht with ht | ht <;> exact PState.noConfusion ht
  · rintro c y hc
    rcases ht with rfl | rfl <;> rcases hc with hc | hc <;> cases hc <;> exact ⟨hx, hs⟩

theorem Inv.signal (h : Inv k) (hp : k.proc p = .asleep a) : Inv (k.setProc p (.signalled a)) := by
  have hreq : (k.proc p).request = some a := by rw [hp]; rfl
  refine h.setProc ?_ ?_ ?_ ?_ ?_
  · rintro c ⟨⟩
    exact ⟨h.req p a hreq, fun q hqp hq => hqp (h.inj q p a hq hreq)⟩
  · rintro c ⟨⟩
    exact h.type p a (by rw [hp]; rfl)
  · rintro w (hw | hw)
    · rw [hp] at hw
      cases hw
      rfl
    · rw [hp] at hw
      cases hw
  · exact fun w => PState.noConfusion
  · rintro c y (hc | hc) <;> cases hc

theorem Entry.queue (h : Entry k p a) (hx : x ∈ k.iLockf (k.lock a).inode)
    (htype : (k.lock a).type ≠ .unlck) :
    Inv ((lfAddblock { k with lfNext := update k.lfNext a (some x) } x
      (a :: k.lfBlock a)).setProc p (.asleep a)) := by
  have hxa : x ≠ a := fun heq => h.req.off _ (heq ▸ hx)
  generalize hk' : (lfAddblock { k with lfNext := update k.lfNext a (some x) } x
      (a :: k.lfBlock a)).setProc p (.asleep a) = k'
  have hlist : k'.iLockf = k.iLockf := by subst hk'; rfl
  have hlock : k'.lock = k.lock := by subst hk'; rfl
  have hlive : k'.live = k.live := by subst hk'; rfl
  have hne : ∀ q, q ≠ p → k'.proc q = k.proc q := by
    subst hk'
    exact fun q hq => update_of_ne hq _ _
  have hself : k'.proc p = .asleep a := by
    subst hk'
    exact update_self _ _ _
  have hblock : ∀ y, y ≠ x → k'.lfBlock y = k.lfBlock y := by
    subst hk'
    exact fun y hy => update_of_ne hy _ _
  have hblockx : k'.lfBlock x = k.lfBlock x ++ [a] := by
    subst hk'
    show update k.lfBlock x (k.lfBlock x ++ a :: k.lfBlock a) x = _
    rw [update_self, h.req.block]
  have hnexta : k'.lfNext a = some x := by
    subst hk'
    exact update_self _ _ _
  have hnext : ∀ w, w ≠ a → k'.lfNext w = k.lfNext w := by
    subst hk'
    exact fun w hw => update_of_ne hw _ _
  -- nobody else has the request, so it is on no waiting list yet
  have hnot : ∀ ip, ∀ y ∈ k.iLockf ip, a ∉ k.lfBlock y := by
    intro ip y hy hay
    obtain ⟨q, hq, -⟩ := h.inv.waiter hy hay
    exact h.own q hq
  have hold : ∀ {ip y w}, y ∈ k.iLockf ip → w ∈ k.lfBlock y → k'.lfNext w = some y ∧
      ∃ q, k'.proc q = .asleep w ∨ k'.proc q = .signalled w := by
    intro ip y w hy hw
    obtain ⟨hnx, q, hq⟩ := (h.inv.wait ip y hy).2 w hw
    have hwa : w ≠ a := fun heq => hnot ip y hy (heq ▸ hw)
    have hqp : q ≠ p := by
      rintro rfl
      rw [h.proc] at hq
      rcases hq with hq | hq <;> exact PState.noConfusion hq
    exact ⟨(hnext w hwa).trans hnx, q, by rwa [hne q hqp]⟩
  have hreq : ∀ {q c}, (k.proc q).request = some c → Request k' q c := by
    intro q c hq
    obtain ⟨h1, h2, h3, h4⟩ := h.inv.req q c hq
    refine ⟨by rwa [hlive], by rwa [hlist], ?_, by rwa [hlock]⟩
    rw [hblock c fun heq => h2 _ (heq ▸ hx)]
    exact h3
  refine ⟨by rw [hlist]; exact h.inv.nodup, by rw [hlist, hlock]; exact h.inv.inode,
    by rw [hlist, hlive]; exact h.inv.live, by rw [hlist, hlock]; exact h.inv.ok, ?_, ?_, ?_, ?_, ?_,
    ?_, ?_⟩
  · rw [hlist]
    exact fun ip => (h.inv.sorted ip).congr fun y _ => by rw [hlock]
  · intro q c hq
    by_cases hqp : q = p
    · subst hqp
      rw [hself] at hq
      cases hq
      exact ⟨hlive ▸ h.req.live, hlist ▸ h.req.off, (hblock a hxa.symm).trans h.req.block,
        hlock ▸ h.req.ok⟩
    · rw [hne q hqp] at hq
      exact hreq hq
  · intro q q' c hq hq'
    by_cases hqp : q = p <;> by_cases hqp' : q' = p
    · rw [hqp, hqp']
    · subst hqp
      rw [hself] at hq
      rw [hne q' hqp'] at hq'
      cases hq
      exact absurd hq' (h.own q')
    · subst hqp'
      rw [hself] at hq'
      rw [hne q hqp] at hq
      cases hq'
      exact absurd hq (h.own q)
    · rw [hne q hqp] at hq
      rw [hne q' hqp'] at hq'
      exact h.inv.inj q q' c hq hq'
  · intro q c hq
    rw [hlock]
    by_cases hqp : q = p
    · subst hqp
      rw [hself] at hq
      cases hq
      exact htype
    · rw [hne q hqp] at hq
      exact h.inv.type q c hq
  · intro ip y hy
    rw [hlist] at hy
    by_cases hyx : y = x
    · subst hyx
      rw [hblockx]
      refine ⟨nodup_append.mpr ⟨(h.inv.wait ip y hy).1, List.nodup_singleton a, ?_⟩, ?_⟩
      · rintro w hw v hv rfl
        rw [mem_singleton] at hv
        exact hnot ip y hy (hv ▸ hw)
      · intro w hw
        rcases mem_append.mp hw with hw | hw
        · exact hold hy hw
        · rw [mem_singleton] at hw
          subst hw
          exact ⟨hnexta, p, .inl hself⟩
    · rw [hblock y hyx]
      exact ⟨(h.inv.wait ip y hy).1, fun w hw => hold hy hw⟩
  · intro q w hq
    rw [hlist, hlock]
    by_cases hqp : q = p
    · subst hqp
      rw [hself] at hq
      cases hq
      exact ⟨x, hx, by rw [hblockx]; simp⟩
    rw [hne q hqp] at hq
    obtain ⟨y, hy, hwy⟩ := h.inv.asleep q w hq
    refine ⟨y, hy, ?_⟩
    by_cases hyx : y = x
    · subst hyx
      rw [hblockx]
      exact mem_append_left _ hwy
    · rwa [hblock y hyx]
  · intro q c y hq
    rw [hlist, hlock]
    have hqp : q ≠ p := by
      rintro rfl
      rw [hself] at hq
      rcases hq with hq | hq <;> exact PState.noConfusion hq
    rw [hne q hqp] at hq
    exact h.inv.split q c y hq

end

end Bsd386.Ufs.Advlock
