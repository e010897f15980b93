import Bsd386.Ufs.Advlock.Owned
import Mathlib.Data.List.Pairwise

/-!
# Locks as a map from bytes to types

`k.lockMap ip id b` is the type of lock that owner `id` holds on byte `b` of the inode `ip`, which is
all a caller can tell of the lists. `LockMap.set` and `LockMap.clear` are what setting and clearing a
range mean for such a map, and the code refines them (`lockMap_of_reach`).

An edit of a list sets the map when it keeps what is outside the range and grants what is inside
(`ListEdit.lockMap_set`); both come from the loops (`setLoop_keeps`, `setLoop_grants`).
-/

namespace Bsd386.Ufs.Advlock

open Function List Lib.Transition Option

instance (l : Lockf) (b : ℤ) : Decidable (l.Covers b) := inferInstanceAs (Decidable (_ ∧ _))

/-- What every owner holds on every byte of every inode. -/
abbrev LockMap := Ino → Id → ℤ → Option LfType

namespace LockMap

/-- The owner of `r` gets its type on its range. -/
def set (f : LockMap) (r : Lockf) : LockMap := fun ip id b =>
  if ip = r.inode ∧ id = r.id ∧ r.Covers b then some r.type else f ip id b

/-- The owner of `r` gives up its range. -/
def clear (f : LockMap) (r : Lockf) : LockMap := fun ip id b =>
  if ip = r.inode ∧ id = r.id ∧ r.Covers b then none else f ip id b

end LockMap

/-- The type of lock that `id` holds on byte `b`. -/
def Kernel.lockMap (k : Kernel) : LockMap := fun ip id b =>
  ((k.iLockf ip).find? fun x => decide ((k.lock x).id = id ∧ (k.lock x).Covers b)).map
    fun x => (k.lock x).type

/-- The lock whose granting ends when the action returns without error.
Source: lf_setlock -/
def Act.granted (k : Kernel) : Act → Option Lockf
  | .setlock _ _ r _ => some r
  | .resume p _ _ => (k.proc p).request.map k.lock
  | .mallocDone p _ =>
    match k.proc p with
    | .mallocSet a _ => some (k.lock a)
    | _ => none
  | _ => none

/-- The range whose clearing ends when the action returns.
Source: lf_clearlock -/
def Act.cleared (k : Kernel) : Act → Option Lockf
  | .clearlock _ _ r _ => some r
  | .mallocDone p _ =>
    match k.proc p with
    | .mallocClear a _ => some (k.lock a)
    | _ => none
  | _ => none

/-- What an action with a given result does to the map. -/
structure Refines (k : Kernel) (act : Act) (r : Result) (k' : Kernel) : Prop where
  granted : ∀ l, act.granted k = some l → r = .ret .ok → k'.lockMap = k.lockMap.set l
  cleared : ∀ l, act.cleared k = some l → r = .ret .ok → k'.lockMap = k.lockMap.clear l
  /-- Only an `flock` request for writing changes the map before it sleeps. -/
  other : r ≠ .ret .ok → k'.lockMap = k.lockMap ∨
    ∃ l, act.granted k = some l ∧ l.flock = true ∧ l.type = .wrlck ∧ k'.lockMap = k.lockMap.clear l
  /-- Each owner's locks are disjoint and in increasing order. -/
  sorted : ∀ ip, (k'.iLockf ip).Pairwise fun x y => (k'.lock x).id = (k'.lock y).id →
    (k'.lock x).stop ≠ -1 ∧ (k'.lock x).stop < (k'.lock y).start

section

variable {s : Prop} {n : ℕ} {p : Pid} {a b x : Addr} {k k1 k' : Kernel} {m : Malloc} {U L W : List Addr}
  {ip : Ino} {id : Id} {c : ℤ} {t t' : LfType}

/-! ## The map and the lists -/

theorem Holds.unique (hs : Sorted k L) (h : Holds k L id c t) (h' : Holds k L id c t') : t = t' := by
  obtain ⟨x, hx, hxid, ⟨hx1, hx2⟩, rfl⟩ := h
  obtain ⟨y, hy, hyid, ⟨hy1, hy2⟩, rfl⟩ := h'
  have : Std.Symm fun u v => Before k u v ∨ Before k v u := ⟨fun _ _ h => h.symm⟩
  by_contra hne
  have hxy : Before k x y ∨ Before k y x :=
    List.Pairwise.forall (R := fun u v => Before k u v ∨ Before k v u) (hs.imp .inl) hx hy
      fun heq => hne (heq ▸ rfl)
  rcases hxy with hxy | hxy
  · have := hxy (hxid.trans hyid.symm)
    omega
  · have := hxy (hyid.trans hxid.symm)
    omega

theorem lockMap_eq_some_iff (hs : Sorted k (k.iLockf ip)) :
    k.lockMap ip id c = some t ↔ Holds k (k.iLockf ip) id c t := by
  have hfound : ∀ t, k.lockMap ip id c = some t → Holds k (k.iLockf ip) id c t := by
    intro t h
    obtain ⟨x, hx, rfl⟩ := map_eq_some_iff.mp h
    have hcond := find?_some hx
    obtain ⟨hxid, hcov⟩ := decide_eq_true_iff.mp hcond
    exact ⟨x, mem_of_find?_eq_some hx, hxid, hcov, rfl⟩
  refine ⟨hfound t, fun h => ?_⟩
  cases hm : k.lockMap ip id c with
  | none =>
    obtain ⟨x, hx, hxid, hcov, -⟩ := h
    have hnone := find?_eq_none.mp (map_eq_none_iff.mp hm) x hx
    exact absurd (decide_eq_true (And.intro hxid hcov)) hnone
  | some t' => rw [(hfound t' hm).unique hs h]

theorem lockMap_eq {jp : Ino} (hs : Sorted k (k.iLockf ip)) (hs' : Sorted k' (k'.iLockf jp))
    (h : ∀ t, Holds k' (k'.iLockf jp) id c t ↔ Holds k (k.iLockf ip) id c t) :
    k'.lockMap jp id c = k.lockMap ip id c :=
  ext fun t => (lockMap_eq_some_iff hs').trans ((h t).trans (lockMap_eq_some_iff hs).symm)

theorem Inv.lockMap_congr (h : Inv k) (hlist : k'.iLockf = k.iLockf)
    (hlock : ∀ ip, ∀ x ∈ k.iLockf ip, k'.lock x = k.lock x) : k'.lockMap = k.lockMap := by
  funext ip id c
  refine lockMap_eq (h.sorted ip) ?_ fun t => ?_
  · rw [hlist]
    exact (h.sorted ip).congr (hlock ip)
  · rw [hlist]
    exact ⟨fun ht => ht.congr fun x hx => (hlock ip x hx).symm, fun ht => ht.congr (hlock ip)⟩

/-! ## Edits -/

theorem ListEdit.holds_others (h : ListEdit s k p a b U k1 L W) (hid : id ≠ (k.lock a).id) :
    Holds k1 L id c t ↔ Holds k (k.iLockf (k.lock a).inode) id c t := by
  constructor
  · rintro ⟨y, hy, rfl, hcov, rfl⟩
    obtain ⟨z, hz, hyz⟩ := h.edit.sub y hy
    rcases h.only z hz with rfl | hzl
    · exact absurd hyz.id hid
    · exact ⟨z, hzl, hyz.id.symm, hyz.covers hcov, hyz.type.symm⟩
  · rintro ⟨y, hy, rfl, hcov, rfl⟩
    have hyb : y ≠ b := fun heq => h.fresh (heq ▸ h.entry.inv.live _ y hy)
    have hlock : k1.lock y = k.lock y := h.edit.lock y hyb fun _ => hid
    exact ⟨y, h.edit.others y (h.all y hy) hid, by rw [hlock], by rwa [hlock], by rw [hlock]⟩

theorem ListEdit.holds_own (h : ListEdit s k p a b U k1 L W) (hc : a ∈ U → ¬ (k.lock a).Covers c)
    (hold : Holds k1 L (k.lock a).id c t) :
    Holds k (k.iLockf (k.lock a).inode) (k.lock a).id c t := by
  obtain ⟨y, hy, hid, hcov, rfl⟩ := hold
  obtain ⟨z, hz, hyz⟩ := h.edit.sub y hy
  rcases h.only z hz with rfl | hzl
  · exact absurd (hyz.covers hcov) (hc hz)
  · exact ⟨z, hzl, hyz.id.symm.trans hid, hyz.covers hcov, hyz.type.symm⟩

section

variable (h : ListEdit s k p a b U k1 L W) (hsort : Sorted k1 L)
  (hkeep : Keeps (k.lock a) k (k.iLockf (k.lock a).inode) k1 L)
include h hsort hkeep

theorem ListEdit.lockMap_of_not
    (hout : ¬ (ip = (k.lock a).inode ∧ id = (k.lock a).id ∧ (k.lock a).Covers c)) :
    (k1.setList (k.lock a).inode L).lockMap ip id c = k.lockMap ip id c := by
  have hs := h.entry.inv.sorted ip
  by_cases hj : ip = (k.lock a).inode
  · subst hj
    have hlist := setList_self k1 (k.lock a).inode L
    refine lockMap_eq hs (by rw [hlist]; exact hsort) fun t => ?_
    rw [hlist]
    by_cases hid : id = (k.lock a).id
    · subst hid
      have hc : ¬ (k.lock a).Covers c := fun hc => hout ⟨rfl, rfl, hc⟩
      exact ⟨h.holds_own fun _ => hc, hkeep c t hc⟩
    · exact h.holds_others hid
  · have hlist : (k1.setList (k.lock a).inode L).iLockf ip = k.iLockf ip := by
      rw [setList_of_ne _ hj, h.edit.list]
    have hlock : ∀ x ∈ k.iLockf ip, k1.lock x = k.lock x := fun x hx => h.lock_other hx hj
    refine lockMap_eq hs (by rw [hlist]; exact hs.congr hlock) fun t => ?_
    rw [hlist]
    exact ⟨fun ht => ht.congr fun x hx => (hlock x hx).symm, fun ht => ht.congr hlock⟩

theorem ListEdit.lockMap_set
    (hgrant : ∀ c, (k.lock a).Covers c → Holds k1 L (k.lock a).id c (k.lock a).type) :
    (k1.setList (k.lock a).inode L).lockMap = k.lockMap.set (k.lock a) := by
  funext ip id c
  by_cases hin : ip = (k.lock a).inode ∧ id = (k.lock a).id ∧ (k.lock a).Covers c
  · rw [LockMap.set, if_pos hin]
    obtain ⟨rfl, rfl, hc⟩ := hin
    have hlist := setList_self k1 (k.lock a).inode L
    refine (lockMap_eq_some_iff (by rw [hlist]; exact hsort)).mpr ?_
    rw [hlist]
    exact hgrant c hc
  · rw [LockMap.set, if_neg hin]
    exact h.lockMap_of_not hsort hkeep hin

theorem ListEdit.lockMap_clear (hclear : Clears (k.lock a) k1 L) :
    (k1.setList (k.lock a).inode L).lockMap = k.lockMap.clear (k.lock a) := by
  funext ip id c
  by_cases hin : ip = (k.lock a).inode ∧ id = (k.lock a).id ∧ (k.lock a).Covers c
  · rw [LockMap.clear, if_pos hin]
    obtain ⟨rfl, rfl, hc⟩ := hin
    have hlist := setList_self k1 (k.lock a).inode L
    refine eq_none_iff_forall_ne_some.mpr fun t ht => ?_
    obtain ⟨x, hx, hid, hcov, -⟩ := (lockMap_eq_some_iff (by rw [hlist]; exact hsort)).mp ht
    rw [hlist] at hx
    exact hclear x hx hid c hc hcov
  · rw [LockMap.clear, if_neg hin]
    exact h.lockMap_of_not hsort hkeep hin

end

/-! ## The actions -/

theorem Entry.apart (h : Entry k p a) (hb : b ∉ k.live) : Apart k b a (k.iLockf (k.lock a).inode) := by
  have hl := h.listed (k.lock a).inode hb
  exact ⟨hl.nodup, hl.fresh, (hl.ok a mem_cons_self).1, fun y hy => hl.ok y (mem_cons_of_mem _ hy)⟩

theorem lockMap_setLock (h : Entry k p a) (l : Lockf) : (k.setLock a l).lockMap = k.lockMap := by
  refine h.inv.lockMap_congr rfl fun ip x hx => ?_
  have hxa : x ≠ a := fun heq => h.req.off ip (heq ▸ hx)
  exact update_of_ne hxa _ _

section

variable (h : Entry k p a) (hm : m.addr ∉ k.live)
include h hm

theorem lockMap_clearAll (hw : ¬ WrapsClear k (k.lock a) (k.iLockf (k.lock a).inode))
    {sp : Option Addr} (hrun : clearAll k a m = (k1, sp)) :
    (sp = none → k1.lockMap = k.lockMap.clear (k.lock a)) ∧ (sp ≠ none → k1.lockMap = k.lockMap) := by
  have hap := h.apart hm
  have hsort := h.inv.sorted (k.lock a).inode
  have hc := clearLoop_cleared (s := True) (Nat.lt_succ_self _) (h.listed _ hm) hsort hw
  rw [clearAll] at hrun
  rcases hloop : clearLoop a m ((k.iLockf (k.lock a).inode).length + 1) k (k.iLockf (k.lock a).inode)
    with ⟨k2, L, sp'⟩
  rw [Nat.succ_eq_add_one] at hc
  rw [hloop] at hrun hc
  obtain ⟨rfl, rfl⟩ := Prod.mk.inj hrun
  obtain ⟨W, hW⟩ := hc.edited.edit
  have hE : ListEdit True k p a m.addr (k.iLockf (k.lock a).inode) k2 L W :=
    ⟨h, hm, hW, fun y hy => .inr hy, fun y hy => hy⟩
  constructor
  · rintro rfl
    exact hE.lockMap_clear hc.edited.sorted (clearLoop_keeps hap hw hloop).2
      (clearLoop_clears (Nat.lt_succ_self _) hap hsort hw hloop)
  · intro hsome
    obtain ⟨x, rfl⟩ := ne_none_iff_exists'.mp hsome
    obtain ⟨hlock, rfl⟩ := clearLoop_sleeps hap hsort hloop
    refine h.inv.lockMap_congr ?_ fun _ y _ => congrFun hlock y
    show update k2.iLockf _ _ = _
    rw [hW.list]
    exact update_eq_self _ _

theorem lockMap_lfClearlock (hw : ¬ WrapsClear k (k.lock a) (k.iLockf (k.lock a).inode)) {r : Result}
    (hrun : lfClearlock k p a m = (k', r)) :
    (r = .ret .ok → k'.lockMap = k.lockMap.clear (k.lock a)) ∧
      (r ≠ .ret .ok → k'.lockMap = k.lockMap) := by
  rcases hall : clearAll k a m with ⟨k1, sp⟩
  obtain ⟨hnone, hsome⟩ := lockMap_clearAll h hm hw hall
  rw [lfClearlock, hall] at hrun
  cases sp with
  | none =>
    obtain ⟨rfl, rfl⟩ := Prod.mk.inj hrun
    exact ⟨fun _ => hnone rfl, fun hne => absurd rfl hne⟩
  | some x =>
    obtain ⟨rfl, rfl⟩ := Prod.mk.inj hrun
    exact ⟨fun heq => absurd heq nofun, fun _ => hsome nofun⟩

theorem lockMap_flockRelease :
    (flockRelease k a m).lockMap = k.lockMap ∨ (k.lock a).flock = true ∧ (k.lock a).type = .wrlck ∧
      (flockRelease k a m).lockMap = k.lockMap.clear (k.lock a) := by
  by_cases hf : (k.lock a).flock = true ∧ (k.lock a).type = .wrlck
  · refine .inr ⟨hf.1, hf.2, ?_⟩
    obtain ⟨hr, ⟨-, hnf, -⟩ | ⟨hnp, f, hfid, hstart, hstop⟩⟩ := h.req.ok
    · exact absurd (hnf.symm.trans hf.1) (by simp)
    have h0 : Entry (k.setType a .unlck) p a :=
      h.setLock ⟨hr, .inr ⟨hnp, f, hfid, hstart, hstop⟩⟩
    have hla : (k.setType a .unlck).lock a = { k.lock a with type := .unlck } :=
      update_self _ _ _
    have hw : ¬ WrapsClear (k.setType a .unlck) ((k.setType a .unlck).lock a)
        ((k.setType a .unlck).iLockf ((k.setType a .unlck).lock a).inode) := by
      rintro ⟨hmax, -⟩
      rw [hla] at hmax
      exact absurd (hstop.symm.trans hmax) (by decide)
    rcases hrun : clearAll (k.setType a .unlck) a { m with sleeps := false } with ⟨k2, sp⟩
    obtain ⟨-, h2, -, -, hsplit⟩ := h0.clearAll (u := True) (s := True) (t := True)
      (m := { m with sleeps := false }) hm hw hrun
    obtain ⟨hnone, -⟩ := lockMap_clearAll h0 (m := { m with sleeps := false }) hm hw hrun
    -- the whole file is cleared, so no lock is split
    have hsp : sp = none := by
      refine eq_none_iff_forall_ne_some.mpr fun x hx => ?_
      have := (hsplit x hx).2.stop
      rw [hla] at this
      exact this hstop
    have hend : flockRelease k a m = k2.setType a .wrlck := by
      simp only [flockRelease, if_pos hf, hrun]
    rw [hend, Kernel.setType, lockMap_setLock h2, hnone hsp, hla, Kernel.setType, lockMap_setLock h]
    rfl
  · left
    simp only [flockRelease, if_neg hf]

theorem lockMap_lfSetlock (htype : (k.lock a).type ≠ .unlck) (hsafe : SafeGrant k (k.lock a))
    {r : Result} (hrun : lfSetlock n k p a m = (k', r)) :
    (r = .ret .ok → k'.lockMap = k.lockMap.set (k.lock a)) ∧
      (r ≠ .ret .ok → k'.lockMap = k.lockMap ∨ (k.lock a).flock = true ∧ (k.lock a).type = .wrlck ∧
        k'.lockMap = k.lockMap.clear (k.lock a)) := by
  cases hblock : lfGetblock k (k.lock a) with
  | some x =>
    simp only [lfSetlock, hblock] at hrun
    split_ifs at hrun with hwait hdead
    · obtain ⟨rfl, rfl⟩ := Prod.mk.inj hrun
      exact ⟨(by rintro ⟨⟩), fun _ => .inl rfl⟩
    · obtain ⟨rfl, rfl⟩ := Prod.mk.inj hrun
      exact ⟨(by rintro ⟨⟩), fun _ => .inl rfl⟩
    · obtain ⟨rfl, rfl⟩ := Prod.mk.inj hrun
      exact ⟨(by rintro ⟨⟩), fun _ => lockMap_flockRelease h hm⟩
  | none =>
    have hun : Unblocked k (k.lock a) := lfGetblock_eq_none hblock
    obtain ⟨hwrap, htake⟩ := hsafe hun
    have hap := h.apart hm
    have hready : Ready k m.addr a (k.iLockf (k.lock a).inode) :=
      ⟨h.listed _ hm, h.inv.sorted _, hwrap, htake⟩
    have hloop := setLoop_edited (s := True) (Nat.lt_succ_self _) hready h.req.block
      (fun y hy => h.inv.inode _ y hy) htype
    rcases hloop with ⟨k1, L, hloop, hE⟩ | ⟨x, hx, hloop, hs⟩
    · obtain ⟨W, hW⟩ := hE.edit
      simp only [lfSetlock, hblock, hloop] at hrun
      obtain ⟨rfl, rfl⟩ := Prod.mk.inj hrun
      have hedit : ListEdit True k p a m.addr (a :: k.iLockf (k.lock a).inode) k1 L W :=
        ⟨h, hm, hW, fun y hy => mem_cons.mp hy, fun y hy => mem_cons_of_mem _ hy⟩
      exact ⟨fun _ => hedit.lockMap_set hE.sorted (setLoop_keeps hap hwrap hloop).2
        fun c hc => setLoop_grants hap hwrap hloop hc, fun hne => absurd rfl hne⟩
    · simp only [Nat.succ_eq_add_one] at hloop
      simp only [lfSetlock, hblock, hloop] at hrun
      obtain ⟨rfl, rfl⟩ := Prod.mk.inj hrun
      refine ⟨(by rintro ⟨⟩), fun _ => .inl ?_⟩
      rw [setList_eq_self]
      rfl

end

theorem Apart.keeps_splitThree {S R : List Addr} (h : Apart k b a (S ++ x :: R))
    (hsp : Splits (k.lock x) (k.lock a)) (hL : ∀ y ∈ x :: b :: R, y ∈ L) :
    Keeps (k.lock a) k (S ++ x :: R) (splitThree k x a b) (S ++ L) := by
  have hxm : x ∈ S ++ x :: R := by simp
  have hxb := (h.ne hxm).2
  obtain ⟨-, -, hpred, hsucc⟩ := hsp.parts (h.ok x hxm) h.range
  refine (h.keeps_rest (fun y => (splitThree_lock hxb).2.2 y) (fun y hy => hL y (by simp [hy]))
    fun c hc hid hcov => ?_).2
  exact hid ▸ splitThree_holds hxb hsucc hpred hc hcov (hL x (by simp)) (hL b (by simp))

theorem lockMap_mallocSet (h : Entry k p a) (hb : b ∉ k.live) {S R : List Addr}
    (hx : k.iLockf (k.lock a).inode = S ++ x :: R) (hsp : Splits (k.lock x) (k.lock a)) :
    ((lfWakelock (splitThree k x a b) x).setList (k.lock a).inode (S ++ x :: a :: b :: R)).lockMap =
      k.lockMap.set (k.lock a) := by
  obtain ⟨W, hE, hsort, -⟩ := h.mallocSet (s := True) hb hx hsp
  have hap := h.apart hb
  have hkeep : Keeps (k.lock a) k (k.iLockf (k.lock a).inode) (lfWakelock (splitThree k x a b) x)
      (S ++ x :: a :: b :: R) := by
    rw [hx] at hap ⊢
    exact hap.keeps_splitThree hsp fun y hy => by
      rcases mem_cons.mp hy with rfl | hy
      · exact mem_cons_self
      · exact mem_cons_of_mem _ (mem_cons_of_mem _ hy)
  have hxm : x ∈ k.iLockf (k.lock a).inode := by simp [hx]
  have hla : (splitThree k x a b).lock a = k.lock a :=
    (splitThree_lock (hap.ne hxm).2).2.2 a (hap.ne hxm).1.symm fun heq =>
      hap.fresh (heq ▸ mem_cons_self)
  refine hE.lockMap_set hsort hkeep fun c hc => ⟨a, by simp, ?_⟩
  change ((splitThree k x a b).lock a).id = _ ∧ ((splitThree k x a b).lock a).Covers c ∧
    ((splitThree k x a b).lock a).type = _
  rw [hla]
  exact ⟨rfl, hc, rfl⟩

theorem lockMap_mallocClear (h : Entry k p a) (hb : b ∉ k.live) {S R : List Addr}
    (hx : k.iLockf (k.lock a).inode = S ++ x :: R) (hsp : Splits (k.lock x) (k.lock a)) :
    ((splitThree k x a b).setList (k.lock a).inode (S ++ x :: b :: R)).lockMap =
      k.lockMap.clear (k.lock a) := by
  obtain ⟨W, hE, hsort, -⟩ := h.late hb hx hsp
  have hap := h.apart hb
  have hs := h.inv.sorted (k.lock a).inode
  have hkeep : Keeps (k.lock a) k (k.iLockf (k.lock a).inode) (splitThree k x a b)
      (S ++ x :: b :: R) := by
    rw [hx] at hap ⊢
    exact hap.keeps_splitThree hsp fun _ hy => hy
  refine hE.lockMap_clear hsort hkeep ?_
  rw [hx] at hap hs
  obtain ⟨-, hsR, hSR⟩ := pairwise_append.mp hs
  have hxm : x ∈ S ++ x :: R := by simp
  obtain ⟨hxa, hxb⟩ := hap.ne hxm
  obtain ⟨hlx, hlb, hlne⟩ := splitThree_lock (k := k) (a := a) hxb
  obtain ⟨-, -, hpred, hsucc⟩ := hsp.parts (hap.ok x hxm) hap.range
  obtain ⟨-, -, -, hS, hxR⟩ := hap.rest k fun _ _ => rfl
  have hstart := hsp.start
  have hstop := hsp.stop
  have hx0 := (hap.ok x hxm).1.1
  have hleft : Clears (k.lock a) k S := by
    intro y hy hid c ⟨h1, h2⟩ ⟨g1, g2⟩
    have := hSR y hy x mem_cons_self (hid.trans hsp.id.symm)
    omega
  have hright : Clears (k.lock a) k R := by
    refine .of_sorted hsR hsp.id ?_
    have := hsp.stop'
    omega
  refine (hleft.congr fun y hy => hlne y (hS y hy).2 (hap.ne (by simp [hy])).2).append
    (.cons (.inl ?_) (.cons (.inr ⟨hstop, ?_⟩) (hright.congr fun y hy => ?_)))
  · rw [hlx]
    show offPred _ ≠ -1 ∧ offPred _ < _
    omega
  · rw [hlb]
    show _ < offSucc _
    omega
  · exact hlne y (fun heq => hxR (heq ▸ hy)) (hap.ne (y := y) (by simp [hy])).2

theorem lockMap_lfInterrupted (k : Kernel) (p : Pid) (a : Addr) :
    (lfInterrupted k p a).1.lockMap = k.lockMap ∧ (lfInterrupted k p a).2 = .ret .eintr := by
  cases hn : k.lfNext a with
  | none =>
    simp only [lfInterrupted, hn]
    exact ⟨rfl, trivial⟩
  | some block =>
    simp only [lfInterrupted, hn]
    exact ⟨rfl, trivial⟩

/-! ## Runs -/

/-- **Refinement.** From a state of the invariant, an action that is `Safe` does to the map what its
result says. -/
theorem step_refines (h : Inv k) {act : Act} {r : Result} (hok : ActOk act) (hsafe : Safe k act)
    (hstep : step n k act = some (k', r)) : Refines k act r k' := by
  have hinv : Inv k' := by
    have hmoves : Relation.ReflTransGen (Move False False False) k k' :=
      step_moves h hok hsafe False.elim False.elim False.elim hstep
    exact Move.invariant (fun _ _ hm _ => hm.inv) hmoves h
  have hsorted : ∀ ip, (k'.iLockf ip).Pairwise fun x y => (k'.lock x).id = (k'.lock y).id →
      (k'.lock x).stop ≠ -1 ∧ (k'.lock x).stop < (k'.lock y).start := hinv.sorted
  cases act with
  | setlock p a l m =>
    simp only [step] at hstep
    split_ifs at hstep with hen
    obtain ⟨hp, ha, hm⟩ := hen
    have hentry := h.alloc hp ha hok.1
    have hla : (k.alloc a l).lock a = l := update_self _ _ _
    have hmap : (k.alloc a l).lockMap = k.lockMap :=
      h.lockMap_congr rfl fun ip x hx => (h.lock_alloc ha hx).1
    obtain ⟨hset, hother⟩ := lockMap_lfSetlock hentry hm (by rw [hla]; exact hok.2)
      (by rw [hla]; exact h.safeGrant_alloc ha hsafe) (some.inj hstep)
    rw [hla, hmap] at hset hother
    refine ⟨?_, (by rintro _ ⟨⟩), fun hne => (hother hne).imp_right fun hf => ⟨l, rfl, hf⟩, hsorted⟩
    rintro _ ⟨⟩ hr
    exact hset hr
  | clearlock p a l m =>
    simp only [step] at hstep
    split_ifs at hstep with hen
    obtain ⟨hp, ha, hm⟩ := hen
    have hentry := h.alloc hp ha hok
    have hla : (k.alloc a l).lock a = l := update_self _ _ _
    have hmap : (k.alloc a l).lockMap = k.lockMap :=
      h.lockMap_congr rfl fun ip x hx => (h.lock_alloc ha hx).1
    obtain ⟨hclear, hother⟩ := lockMap_lfClearlock hentry hm (by
      rw [hla]
      rintro ⟨hmax, x, hx, hrest⟩
      rw [(h.lock_alloc ha hx).1] at hrest
      exact hsafe ⟨hmax, x, hx, hrest⟩) (some.inj hstep)
    rw [hla, hmap] at hclear
    rw [hmap] at hother
    refine ⟨(by rintro _ ⟨⟩), ?_, fun hne => .inl (hother hne), hsorted⟩
    rintro _ ⟨⟩ hr
    exact hclear hr
  | signal p =>
    cases hp : k.proc p with
    | asleep a =>
      simp only [step, hp] at hstep
      obtain ⟨rfl, rfl⟩ := Prod.mk.inj (some.inj hstep)
      exact ⟨(by rintro _ ⟨⟩), (by rintro _ ⟨⟩), fun _ => .inl rfl, hsorted⟩
    | _ => simp [step, hp] at hstep
  | resume p intr m =>
    have hintr : ∀ a, some (lfInterrupted k p a) = some (k', r) →
        Refines k (.resume p intr m) r k' := by
      intro a heq
      obtain ⟨hmap, hres⟩ := lockMap_lfInterrupted k p a
      rw [some.inj heq] at hmap hres
      refine ⟨fun _ _ hr => ?_, (by rintro _ ⟨⟩), fun _ => .inl hmap, hsorted⟩
      cases hres.symm.trans hr
    cases hp : k.proc p with
    | woken a =>
      simp only [step, hp] at hstep
      split_ifs at hstep with hm hi
      · exact hintr a hstep
      have hreq : (k.proc p).request = some a := by rw [hp]; rfl
      obtain ⟨-, hentry⟩ := h.resume (u := True) (s := True) (t := True) hreq (by rw [hp]; simp)
      obtain ⟨hset, hother⟩ := lockMap_lfSetlock hentry hm (h.type p a (by rw [hp]; rfl))
        (hsafe a hp (by simpa using hi)) (some.inj hstep)
      have hgranted : (Act.resume p intr m).granted k = some (k.lock a) := by
        rw [Act.granted, hreq]
        rfl
      refine ⟨?_, (by rintro _ ⟨⟩), fun hne => (hother hne).imp_right fun hf => ⟨_, hgranted, hf⟩, hsorted⟩
      intro l hl hr
      rw [← some.inj (hgranted.symm.trans hl)]
      exact hset hr
    | signalled a =>
      simp only [step, hp] at hstep
      exact hintr a hstep
    | _ => simp [step, hp] at hstep
  | mallocDone p b =>
    simp only [step] at hstep
    split_ifs at hstep with hb
    cases hp : k.proc p with
    | mallocSet a x =>
      simp only [hp] at hstep
      obtain ⟨rfl, rfl⟩ := Prod.mk.inj (some.inj hstep)
      obtain ⟨-, hentry⟩ := h.resume (u := True) (s := True) (t := True) (p := p) (a := a)
        (by rw [hp]; rfl) (by rw [hp]; simp)
      obtain ⟨hx, hsp⟩ := h.split p a x (.inl hp)
      obtain ⟨S, R, hlist⟩ := append_of_mem hx
      have hmap := lockMap_mallocSet (x := x) hentry hb hlist hsp
      refine ⟨?_, ?_, fun hne => absurd rfl hne, hsorted⟩
      · rintro l hl -
        rw [Act.granted, hp] at hl
        obtain rfl := some.inj hl
        exact (congrArg Kernel.lockMap (h.mallocSet_eq hlist)).trans hmap
      · intro l hl
        rw [Act.cleared, hp] at hl
        cases hl
    | mallocClear a x =>
      simp only [hp] at hstep
      obtain ⟨rfl, rfl⟩ := Prod.mk.inj (some.inj hstep)
      obtain ⟨-, hentry⟩ := h.resume (u := True) (s := True) (t := True) (p := p) (a := a)
        (by rw [hp]; rfl) (by rw [hp]; simp)
      obtain ⟨hx, hsp⟩ := h.split p a x (.inr hp)
      obtain ⟨S, R, hlist⟩ := append_of_mem hx
      have hmap := lockMap_mallocClear (x := x) hentry hb hlist hsp
      refine ⟨?_, ?_, fun hne => absurd rfl hne, hsorted⟩
      · intro l hl
        rw [Act.granted, hp] at hl
        cases hl
      · rintro l hl -
        rw [Act.cleared, hp] at hl
        obtain rfl := some.inj hl
        exact (congrArg Kernel.lockMap (h.mallocClear_eq (p := p) (a := a) (b := b) hlist)).trans hmap
    | _ => simp [hp] at hstep

/-- **The lock map.** In every run whose actions neither overflow nor move waiters, each action does to
the map what its result says, and leaves each owner's locks disjoint and in order. Kind: P. -/
theorem lockMap_of_reach (h : Reach Kernel.Initial (Next n Safe) k) {act : Act} {r : Result}
    (hok : ActOk act) (hsafe : Safe k act) (hstep : step n k act = some (k', r)) :
    Refines k act r k' :=
  step_refines (inv_of_reach (fun _ _ hc => hc) h) hok hsafe hstep

end

/-- An exclusive lock up to infinity. -/
def oneLock : Kernel := noLocks.run 50 [.setlock 1 10 (posixLock 1 0 .wrlck 10 (-1)) ⟨100, false⟩]

/-- Its bytes 20 to 30 made shared: three locks. Kind: C. -/
theorem lockMap_oneLock :
    ∃ k', step 50 oneLock (.setlock 1 11 (posixLock 1 0 .rdlck 20 30) ⟨100, false⟩) =
        some (k', .ret .ok) ∧ k'.iLockf 0 = [10, 11, 100] ∧
      Refines oneLock (.setlock 1 11 (posixLock 1 0 .rdlck 20 30) ⟨100, false⟩) (.ret .ok) k' := by
  refine ⟨_, rfl, by decide, lockMap_of_reach (n := 50) (reach_run (.start noLocks_initial) ?_) ?_ ?_ rfl⟩
  · refine ⟨⟨posixLock_ok (by decide), by decide⟩, ?_, trivial⟩
    show SafeGrant noLocks (posixLock 1 0 .wrlck 10 (-1))
    decide
  · exact ⟨posixLock_ok (by decide), by decide⟩
  · show SafeGrant oneLock (posixLock 1 0 .rdlck 20 30)
    decide

/-- Its bytes from 10 to the largest offset made shared: the process now holds an exclusive lock on
byte 0. Kind: C. -/
theorem not_lockMap :
    ¬ ∀ n k act k' r, Reach Kernel.Initial (Next n fun _ _ => True) k → ActOk act →
      step n k act = some (k', r) → Refines k act r k' := by
  intro h
  have hreach : Reach Kernel.Initial (Next 50 fun _ _ => True) oneLock :=
    reach_run (.start noLocks_initial) ⟨⟨posixLock_ok (by decide), by decide⟩, trivial, trivial⟩
  have hmap := (h 50 oneLock (.setlock 1 11 (posixLock 1 0 .rdlck 10 maxOff) ⟨100, false⟩) _ (.ret .ok)
    hreach ⟨posixLock_ok (by decide), by decide⟩ rfl).granted _ rfl rfl
  exact absurd (congrFun (congrFun (congrFun hmap 0) (.proc 1)) 0) (by decide)

/-! ## Giving up a file -/

/-- **A process that closes a file** gives up the whole of it: in every run whose actions are `Safe` this
succeeds at once, no lock of the owner is left on the inode, nobody sleeps on one, and what other owners hold,
or this one elsewhere, is not touched. Source: lf_clearlock, ufs_advlock. Kind: P -/
theorem clearlock_releases {n : ℕ} {k : Kernel} {p : Pid} {a : Addr} {r : Lockf} {m : Malloc}
    (h : Reach Kernel.Initial (Next n Safe) k) (hr : ReqOk p r) (hstart : r.start = 0) (hstop : r.stop = -1)
    (hp : k.proc p = .running) (ha : a ∉ k.live) (hm : m.addr ∉ insert a k.live) :
    ∃ k', step n k (.clearlock p a r m) = some (k', .ret .ok) ∧
      (∀ x ∈ k'.iLockf r.inode, (k'.lock x).id ≠ r.id) ∧
      (∀ q w, k'.proc q = .asleep w → ∃ x ∈ k'.iLockf (k'.lock w).inode, w ∈ k'.lfBlock x ∧
        ((k'.lock w).inode = r.inode → (k'.lock x).id ≠ r.id)) ∧
      ∀ ip id b, ip ≠ r.inode ∨ id ≠ r.id → k'.lockMap ip id b = k.lockMap ip id b := by
  have hinv : Inv k := inv_of_reach (fun _ _ hc => hc) h
  have hentry := hinv.alloc hp ha hr
  have hla : (k.alloc a r).lock a = r := update_self _ _ _
  have hw : ∀ k L, ¬ WrapsClear k r L := by
    rintro k L ⟨hmax, -⟩
    exact absurd (hstop.symm.trans hmax) (by decide)
  -- the range is the whole file, so no lock is split
  obtain ⟨k', hrun⟩ : ∃ k', lfClearlock (k.alloc a r) p a m = (k', .ret .ok) := by
    rcases hall : clearAll (k.alloc a r) a m with ⟨k1, sp⟩
    have hsplit := (hentry.clearAll (u := True) (s := True) (t := True) hm (by
      rw [hla]
      exact hw _ _) hall).2.2.2.2
    cases sp with
    | none => exact ⟨_, by rw [lfClearlock, hall]⟩
    | some x =>
      have hne := (hsplit x rfl).2.stop
      rw [hla] at hne
      exact absurd hstop hne
  have hstep : step n k (.clearlock p a r m) = some (k', .ret .ok) := by
    simp only [step, if_pos (And.intro hp (And.intro ha hm)), hrun]
  have hok : ActOk (.clearlock p a r m) := hr
  have hsafe : Safe k (.clearlock p a r m) := hw _ _
  have hmap := (step_refines hinv hok hsafe hstep).cleared r rfl rfl
  have hinv' : Inv k' := inv_of_reach (fun _ _ hc => hc) (h.step ⟨_, _, hok, hsafe, hstep⟩)
  have hnone : ∀ x ∈ k'.iLockf r.inode, (k'.lock x).id ≠ r.id := by
    intro x hx hid
    obtain ⟨⟨hpos, -, hend⟩, -⟩ := hinv'.ok _ x hx
    have hcovers : (k'.lock x).Covers (k'.lock x).start := ⟨le_refl _, hend.imp_right And.left⟩
    have hheld := (lockMap_eq_some_iff (hinv'.sorted _)).mpr ⟨x, hx, hid, hcovers, rfl⟩
    rw [hmap, LockMap.clear, if_pos ⟨rfl, rfl, hstart ▸ hpos, .inl hstop⟩] at hheld
    cases hheld
  refine ⟨k', hstep, hnone, ?_, ?_⟩
  · intro q w hq
    obtain ⟨x, hx, hwait⟩ := hinv'.asleep q w hq
    exact ⟨x, hx, hwait, fun heq => hnone x (heq ▸ hx)⟩
  · intro ip id b hother
    rw [hmap, LockMap.clear, if_neg]
    rintro ⟨rfl, rfl, -⟩
    exact hother.elim (fun hne => hne rfl) fun hne => hne rfl

/-- The process with the exclusive lock closes the file. Kind: C -/
theorem clearlock_releases_oneLock : ∃ k',
    step 50 oneLock (.clearlock 1 11 (posixLock 1 0 .unlck 0 (-1)) ⟨100, false⟩) = some (k', .ret .ok) ∧
      ∀ x ∈ k'.iLockf 0, (k'.lock x).id ≠ .proc 1 := by
  have hreach : Reach Kernel.Initial (Next 50 Safe) oneLock :=
    reach_run (.start noLocks_initial) ⟨⟨posixLock_ok (by decide), by decide⟩,
      show SafeGrant noLocks (posixLock 1 0 .wrlck 10 (-1)) by decide, trivial⟩
  obtain ⟨k', hstep, hnone, -⟩ := clearlock_releases hreach (a := 11) (m := ⟨100, false⟩)
    (show ReqOk 1 (posixLock 1 0 .unlck 0 (-1)) from posixLock_ok (by decide)) rfl rfl rfl (by decide)
    (by decide)
  exact ⟨k', hstep, hnone⟩

end Bsd386.Ufs.Advlock
