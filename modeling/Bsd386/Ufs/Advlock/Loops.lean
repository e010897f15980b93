import Bsd386.Ufs.Advlock.Edit

/-!
# The loops of `lf_setlock` and `lf_clearlock`

Both loops are edits (`Edit`) of the inode's list that keep each owner's locks in order and put no
structure on the list twice (`Edited`).

Two things the loops do are left out by their hypotheses: an end of range that overflows
(`WrapsSet`, `WrapsClear`), and case 3 moving waiters to the request (`TakesWaiters`).
-/

namespace Bsd386.Ufs.Advlock

open Function List

/-! ## The hypotheses -/

/-- Granting `l` computes `lf_end + 1` for the largest offset.
Source: lf_setlock -/
def WrapsSet (k : Kernel) (l : Lockf) (L : List Addr) : Prop :=
  l.stop = maxOff ∧ ∃ x ∈ L, (k.lock x).id = l.id ∧ (k.lock x).stop = -1 ∧
    ¬ ((k.lock x).start ≤ l.start ∧ (k.lock x).type = l.type)

/-- Clearing `l` computes `lf_end + 1` for the largest offset.
Source: lf_clearlock -/
def WrapsClear (k : Kernel) (l : Lockf) (L : List Addr) : Prop :=
  l.stop = maxOff ∧ ∃ x ∈ L, (k.lock x).id = l.id ∧ (k.lock x).stop = -1

/-- Granting `l` moves waiters of a lock it contains to the request ("take the list").
Source: lf_setlock -/
def TakesWaiters (k : Kernel) (l : Lockf) (L : List Addr) : Prop :=
  ∃ x ∈ L, (k.lock x).id = l.id ∧ ovcase (k.lock x) l = .within ∧
    ¬ (l.type = .rdlck ∧ (k.lock x).type = .wrlck) ∧ k.lfBlock x ≠ []

instance (k : Kernel) (l : Lockf) (L : List Addr) : Decidable (WrapsSet k l L) :=
  inferInstanceAs (Decidable (_ ∧ ∃ x ∈ L, _))

instance (k : Kernel) (l : Lockf) (L : List Addr) : Decidable (WrapsClear k l L) :=
  inferInstanceAs (Decidable (_ ∧ ∃ x ∈ L, _))

instance (k : Kernel) (l : Lockf) (L : List Addr) : Decidable (TakesWaiters k l L) :=
  inferInstanceAs (Decidable (∃ x ∈ L, _))

/-- An edit that leaves each owner's locks in order. -/
structure Edited (s : Prop) (o : Id) (b : Addr) (k : Kernel) (U : List Addr) (k' : Kernel)
    (L : List Addr) : Prop where
  edit : ∃ W, Edit s o b k U k' L W
  sorted : Sorted k' L
  nodup : L.Nodup

/-- The list `block` and the request `a`, as the loop of `lf_setlock` finds them. -/
structure Ready (k : Kernel) (b a : Addr) (block : List Addr) : Prop where
  listed : Listed k b (a :: block)
  sorted : Sorted k block
  nowrap : ¬ WrapsSet k (k.lock a) block
  notake : ¬ TakesWaiters k (k.lock a) block

section

variable {s : Prop} {o : Id} {a b x : Addr} {m : Malloc} {k k1 k2 : Kernel} {U L M S V W : List Addr}

theorem Edited.append_left (hl : Listed k b (S ++ U)) (hS : Sorted k S)
    (hSU : ∀ y ∈ S, ∀ z ∈ U, Before k y z) (h : Edited s o b k U k1 M) :
    Edited s o b k (S ++ U) k1 (S ++ M) := by
  obtain ⟨W, hW⟩ := h.edit
  exact ⟨⟨W, hW.append_left hl⟩, hW.sorted_append hl hS hSU h.sorted, hW.nodup_append hl h.nodup⟩

theorem Listed.of_edit (hl : Listed k b (x :: U)) (hE : Edit s o b k [x] k1 M V) :
    Listed k1 b U ∧ ∀ y ∈ U, k1.lock y = k.lock y := by
  have hlock : ∀ y ∈ U, k1.lock y = k.lock y := by
    intro y hy
    refine hE.lock_of_not_mem (fun heq => hl.tail.fresh (heq ▸ hy)) fun hyx => ?_
    rw [mem_singleton] at hyx
    exact (nodup_cons.mp hl.nodup).1 (hyx ▸ hy)
  refine ⟨⟨hl.tail.nodup, hl.tail.fresh, ?_, ?_⟩, hlock⟩
  · intro y hy
    rw [hlock y hy]
    exact hl.tail.ok y hy
  · intro y hy z hz hyz
    rcases hE.block z (fun heq => hl.tail.fresh (heq ▸ hz)) with hB | hB
    · exact hl.tail.off y hy z hz (hB ▸ hyz)
    · rw [hB] at hyz
      exact not_mem_nil hyz

theorem Ready.of_edit (h : Ready k b a (S ++ x :: L)) (hE : Edit s o b k [x] k1 M V) :
    Ready k1 b a L ∧ ∀ y ∈ a :: L, k1.lock y = k.lock y := by
  have hp : ((S ++ [x]) ++ a :: L).Perm (a :: ((S ++ [x]) ++ L)) := perm_middle
  have hl : Listed k b (S ++ x :: a :: L) := h.listed.congr (by simpa using hp)
  obtain ⟨hl1, hlock⟩ := hl.of_append_right.of_edit hE
  have hlockL : ∀ y ∈ L, k1.lock y = k.lock y := fun y hy => hlock y (mem_cons_of_mem _ hy)
  have hmem : ∀ y ∈ L, y ∈ S ++ x :: L := fun y hy => by simp [hy]
  obtain ⟨-, hsort, -⟩ := pairwise_append.mp h.sorted
  refine ⟨⟨hl1, Sorted.congr hsort.of_cons hlockL, ?_, ?_⟩, hlock⟩
  · rw [hlock a mem_cons_self]
    rintro ⟨hmax, y, hy, hrest⟩
    rw [hlockL y hy] at hrest
    exact h.nowrap ⟨hmax, y, hmem y hy, hrest⟩
  · rw [hlock a mem_cons_self]
    rintro ⟨y, hy, hid, hov, hty, hnil⟩
    rw [hlockL y hy] at hid hov hty
    refine h.notake ⟨y, hmem y hy, hid, hov, hty, ?_⟩
    rcases hE.block y (fun heq => hl1.tail.fresh (heq ▸ hy)) with hB | hB
    · rwa [← hB]
    · exact absurd hB hnil

theorem Sorted.cons_sub (h : Sorted k (x :: L)) (hid : (k1.lock x).id = (k.lock x).id)
    (hx : (k.lock x).stop = -1 ∨
      (k1.lock x).stop ≠ -1 ∧ (k1.lock x).stop ≤ (k.lock x).stop)
    (hL : ∀ y ∈ L, k1.lock y = k.lock y) : Sorted k1 (x :: L) := by
  obtain ⟨hxL, hLL⟩ := pairwise_cons.mp h
  refine pairwise_cons.mpr ⟨?_, Sorted.congr hLL hL⟩
  intro y hy hxy
  rw [hL y hy] at hxy ⊢
  obtain ⟨hstop, hlt⟩ := hxL y hy (hid ▸ hxy)
  omega

/-! ## Granting -/

theorem Edit.swallow {l : Lockf} (hl : Listed k b [x]) (hid : (k.lock x).id = o)
    (ht : ¬ (l.type = .rdlck ∧ (k.lock x).type = .wrlck) → k.lfBlock x = []) :
    ∃ W, Edit s o b k [x]
      ((if l.type = .rdlck ∧ (k.lock x).type = .wrlck then lfWakelock k x
        else { k with lfBlock := update k.lfBlock a (k.lfBlock x ++ k.lfBlock a) }).free x)
      [] W := by
  by_cases hdown : l.type = .rdlck ∧ (k.lock x).type = .wrlck
  · rw [if_pos hdown]
    exact ⟨_, .delete hl hid⟩
  have hsame : { k with
      lfBlock := update k.lfBlock a (k.lfBlock x ++ k.lfBlock a) } = k := by
    rw [ht hdown, nil_append, update_eq_self]
  rw [if_neg hdown, hsame]
  exact ⟨_, .drop hl hid (ht hdown)⟩

theorem Ready.found {c : OvCase} {skip rest block : List Addr} (h : Ready k b a block)
    (hr : lfFindoverlap k .self (k.lock a) block = (c, skip, rest)) (hc : c ≠ .none) :
    ∃ x rest', rest = x :: rest' ∧ block = skip ++ x :: rest' ∧ (k.lock x).id = (k.lock a).id ∧
      c.Means (k.lock x) (k.lock a) ∧ (k.lock x).Ok ∧ (k.lock a).Ok ∧
      (c = .within → ¬ ((k.lock a).type = .rdlck ∧ (k.lock x).type = .wrlck) →
        k.lfBlock x = []) := by
  obtain ⟨x, rest', rfl, hw, hov⟩ := lfFindoverlap_found hr hc
  have hblock := lfFindoverlap_append hr
  have hx : x ∈ block := by simp [hblock]
  have hid : (k.lock x).id = (k.lock a).id := by simpa [Whose.wants] using hw
  have hxok := h.listed.ok x (mem_cons_of_mem _ hx)
  have haok := h.listed.ok a mem_cons_self
  refine ⟨x, rest', rfl, hblock, hid, hov ▸ ovcase_means, hxok, haok, ?_⟩
  rintro rfl hdown
  by_contra hne
  exact h.notake ⟨x, hx, hid, hov, hdown, hne⟩

theorem setLoop_tail {n : ℕ} {block : List Addr} (hn : block.length < n)
    (h : Ready k m.addr a block)
    (hafter : ∀ z ∈ block, (k.lock z).id = (k.lock a).id → (k.lock a).start < (k.lock z).start) :
    ∃ k' L, setLoop a m n k false block = (k', L, none) ∧
      Edited s (k.lock a).id m.addr k block k' L ∧ ∀ y ∈ L, Before k' a y := by
  induction n generalizing k block with
  | zero => omega
  | succ n ih =>
    rcases hr : lfFindoverlap k .self (k.lock a) block with ⟨c, skip, rest⟩
    obtain rfl := lfFindoverlap_append hr
    obtain ⟨hskip, hrest⟩ := lfFindoverlap_self_skip hr
    have hlt := h.listed.tail
    have hlr := hlt.of_append_right
    have hamem : a ∉ skip ++ rest := (nodup_cons.mp h.listed.nodup).1
    have hab : a ≠ m.addr := fun heq => h.listed.fresh (heq ▸ mem_cons_self)
    obtain ⟨hsortS, hsortR, hsortSR⟩ := pairwise_append.mp h.sorted
    -- the owner has no lock among those passed over
    have hskip' : ∀ y ∈ skip, (k.lock y).id ≠ (k.lock a).id := by
      intro y hy hyo
      have h1 := hskip y hy hyo
      have h2 := hafter y (mem_append_left _ hy) hyo
      obtain ⟨⟨_, _, h3⟩, _⟩ := hlt.ok y (mem_append_left _ hy)
      omega
    -- what is proved for the rest holds for the list
    have hlift : ∀ {k' : Kernel} {M : List Addr},
        Edited s (k.lock a).id m.addr k rest k' M → (∀ y ∈ M, Before k' a y) →
        Edited s (k.lock a).id m.addr k (skip ++ rest) k' (skip ++ M) ∧
          ∀ y ∈ skip ++ M, Before k' a y := by
      intro k' M hE hM
      refine ⟨hE.append_left hlt hsortS hsortSR, ?_⟩
      intro y hy
      rcases mem_append.mp hy with hy | hy
      · obtain ⟨W, hW⟩ := hE.edit
        have hyb : y ≠ m.addr := fun heq => hlt.fresh (heq ▸ mem_append_left _ hy)
        have hyr : y ∉ rest := fun hy' =>
          (nodup_append.mp hlt.nodup).2.2 y hy y hy' rfl
        have har : a ∉ rest := fun h' => hamem (mem_append_right _ h')
        intro hay
        rw [hW.lock_of_not_mem hab har, hW.lock_of_not_mem hyb hyr] at hay
        exact absurd hay.symm (hskip' y hy)
      · exact hM y hy
    by_cases hc : c = .none
    · subst hc
      refine ⟨k, skip ++ rest, by simp [setLoop, hr], hlift ⟨⟨[], .refl hlr.ok hlr.fresh⟩,
        hsortR, hlr.nodup⟩ ?_⟩
      intro y hy hay
      rcases rest with _ | ⟨x, xs⟩
      · exact absurd hy not_mem_nil
      obtain ⟨hxid, hstop, hlt'⟩ := hrest rfl x xs rfl
      rcases mem_cons.mp hy with rfl | hy
      · exact ⟨hstop, hlt'⟩
      · obtain ⟨hx1, hx2⟩ := rel_of_pairwise_cons hsortR hy (hxid.trans hay)
        obtain ⟨⟨_, _, h3⟩, _⟩ := hlr.ok x mem_cons_self
        exact ⟨hstop, by omega⟩
    · obtain ⟨x, rest', rfl, -, hxo, hmeans, hxok, haok, htx⟩ := h.found hr hc
      have hstart := hafter x (by simp) hxo
      have hlx : Listed k m.addr [x] := hlr.of_append_left (L := rest')
      cases c with
      | none => exact absurd rfl hc
      | equal =>
        simp only [OvCase.Means] at hmeans
        omega
      | contains =>
        simp only [OvCase.Means] at hmeans
        omega
      | startsBefore =>
        simp only [OvCase.Means] at hmeans
        omega
      | panic => exact hmeans.elim
      | within =>
        obtain ⟨V, hV⟩ := Edit.swallow (s := s) (a := a) hlx hxo (htx rfl)
        obtain ⟨h', hlock⟩ := h.of_edit hV
        have hla := hlock a mem_cons_self
        have hlen : rest'.length < n := by
          simp only [length_append, length_cons] at hn
          omega
        obtain ⟨k', L, hrun, hEd, hbef⟩ := ih hlen h' (by
          intro z hz
          rw [hla, hlock z (mem_cons_of_mem _ hz)]
          exact hafter z (by simp [hz]))
        rw [hla] at hEd
        refine ⟨k', skip ++ L, by simp [setLoop, hr, hrun], hlift ⟨?_, hEd.sorted, hEd.nodup⟩ hbef⟩
        obtain ⟨W, hW⟩ := hEd.edit
        exact ⟨_, (hV.append_right hlr).trans hlr.fresh hW⟩
      | endsAfter =>
        obtain ⟨hm1, hm2, hm3, hm4⟩ := hmeans
        obtain ⟨hsub, hsucc⟩ := Lockf.Sub.trimStart hxok haok.1 (by
          by_contra hcon
          push Not at hcon
          exact h.nowrap ⟨hcon.1, x, by simp, hxo, hcon.2, by omega⟩) hm3 hm4
        have hV := Edit.trim (s := s) hlx mem_cons_self hxo hsub
        obtain ⟨h', hlock⟩ := h.of_edit hV
        have hlx' : ((lfWakelock k x).setLock x
            { k.lock x with start := offSucc (k.lock a).stop }).lock x =
            { k.lock x with start := offSucc (k.lock a).stop } := update_self _ _ _
        refine ⟨_, skip ++ x :: rest', by simp [setLoop, hr]; rfl,
          hlift ⟨⟨_, hV.append_right hlr⟩, ?_, hlr.nodup⟩ ?_⟩
        · refine Sorted.cons_sub hsortR (by rw [hlx']) (by rw [hlx']; exact hsub.stop) ?_
          exact fun y hy => hlock y (mem_cons_of_mem _ hy)
        · intro y hy hay
          rw [hlock a mem_cons_self] at hay ⊢
          rcases mem_cons.mp hy with rfl | hy
          · rw [hlx']
            exact ⟨hm2, by show _ < offSucc _; omega⟩
          · rw [hlock y (mem_cons_of_mem _ hy)] at hay ⊢
            obtain ⟨hx1, hx2⟩ := rel_of_pairwise_cons hsortR hy (hxo.trans hay)
            exact ⟨hm2, by omega⟩

theorem Edit.retype (hl : Listed k b (a :: x :: L)) (hid : (k.lock x).id = (k.lock a).id)
    (hino : (k.lock x).inode = (k.lock a).inode) (hB : k.lfBlock a = [])
    (htype : (k.lock a).type ≠ .unlck) (hm : OvCase.equal.Means (k.lock x) (k.lock a)) :
    ∃ W, Edit s (k.lock a).id b k (a :: x :: L)
      (((if (k.lock a).type = .rdlck ∧ (k.lock x).type = .wrlck then lfWakelock k x
        else k).setType x (k.lock a).type).free a) (x :: L) W := by
  have hxa : a ≠ x := fun heq => (nodup_cons.mp hl.nodup).1 (heq ▸ mem_cons_self)
  have hxU : x ∈ a :: x :: L := by simp
  have hxok := hl.ok x hxU
  have hsub : { k.lock x with type := (k.lock a).type }.Sub (k.lock a) := by
    refine ⟨⟨hxok.1, hxok.2⟩, hid, hino, rfl, hm.1.ge, ?_⟩
    show (k.lock a).stop = -1 ∨ (k.lock x).stop ≠ -1 ∧ (k.lock x).stop ≤ (k.lock a).stop
    have := hm.2
    omega
  -- waking, if this is a downgrade, and setting the type
  have hset : ∃ W, Edit s (k.lock a).id b k (a :: x :: L)
      ((if (k.lock a).type = .rdlck ∧ (k.lock x).type = .wrlck then lfWakelock k x
        else k).setType x (k.lock a).type) (a :: x :: L) W := by
    by_cases hdown : (k.lock a).type = .rdlck ∧ (k.lock x).type = .wrlck
    · rw [if_pos hdown]
      refine ⟨_, (Edit.wake hl hxU hid).trans hl.fresh (.setLock hl.ok
        (fun hb => absurd hb hl.fresh) hxU hid mem_cons_self hsub hid ?_)⟩
      exact fun _ => .inl (lfWakelock_lfBlock k x)
    rw [if_neg hdown]
    refine ⟨_, .setLock hl.ok (fun hb => absurd hb hl.fresh) hxU hid mem_cons_self hsub hid ?_⟩
    refine fun _ => .inr ⟨rfl, rfl, rfl, fun hw => ?_⟩
    cases ht : (k.lock a).type with
    | rdlck => exact absurd ⟨ht, hw⟩ hdown
    | wrlck => rfl
    | unlck => exact absurd ht htype
  obtain ⟨W, hW⟩ := hset
  refine ⟨_, hW.trans hl.fresh (.drop (hW.listed hl hl.nodup hl.fresh) ?_ ?_)⟩
  · have hlock : ∀ k' : Kernel, k'.lock = k.lock →
        ((k'.setType x (k.lock a).type).lock a).id = (k.lock a).id := by
      intro k' hk'
      show (update k'.lock x _ a).id = _
      rw [update_of_ne hxa, hk']
    split_ifs
    · exact hlock _ rfl
    · exact hlock _ rfl
  · rcases hW.block a (fun heq => hl.fresh (heq ▸ mem_cons_self)) with h | h
    · exact h.trans hB
    · exact h

theorem Edited.retype (hl : Listed k b (a :: x :: L)) (hs : Sorted k (x :: L))
    (hid : (k.lock x).id = (k.lock a).id) (hino : (k.lock x).inode = (k.lock a).inode)
    (hB : k.lfBlock a = []) (htype : (k.lock a).type ≠ .unlck)
    (hm : OvCase.equal.Means (k.lock x) (k.lock a)) :
    Edited s (k.lock a).id b k (a :: x :: L)
      (((if (k.lock a).type = .rdlck ∧ (k.lock x).type = .wrlck then lfWakelock k x
        else k).setType x (k.lock a).type).free a) (x :: L) := by
  refine ⟨Edit.retype hl hid hino hB htype hm, ?_, hl.tail.nodup⟩
  have hxL : x ∉ L := (nodup_cons.mp hl.tail.nodup).1
  have hlock : ∀ k' : Kernel, k'.lock = k.lock →
      Sorted ((k'.setType x (k.lock a).type).free a) (x :: L) := by
    intro k' hk'
    have hsame : Sorted k' (x :: L) := Sorted.congr hs fun _ _ => by rw [hk']
    have hlx : ((k'.setType x (k.lock a).type).free a).lock x =
        { k'.lock x with type := (k.lock a).type } := update_self _ _ _
    refine hsame.cons_sub (by rw [hlx]) ?_ fun y hy => ?_
    · rw [hlx]
      show (k'.lock x).stop = -1 ∨ (k'.lock x).stop ≠ -1 ∧ (k'.lock x).stop ≤ (k'.lock x).stop
      omega
    · have hyx : y ≠ x := fun heq => hxL (heq ▸ hy)
      exact update_of_ne hyx _ _
  split_ifs
  · exact hlock _ rfl
  · exact hlock _ rfl

theorem setLoop_within {n : ℕ} (hn : L.length < n) (h : Ready k m.addr a (S ++ x :: L))
    (hid : (k.lock x).id = (k.lock a).id) (hm : OvCase.within.Means (k.lock x) (k.lock a))
    (ht : ¬ ((k.lock a).type = .rdlck ∧ (k.lock x).type = .wrlck) → k.lfBlock x = []) :
    ∃ k' M, setLoop a m n
      ((if (k.lock a).type = .rdlck ∧ (k.lock x).type = .wrlck then lfWakelock k x
        else { k with lfBlock := update k.lfBlock a (k.lfBlock x ++ k.lfBlock a) }).free x)
      false L = (k', M, none) ∧ Edited s (k.lock a).id m.addr k (a :: x :: L) k' (a :: M) := by
  have hlm : Listed k m.addr (S ++ a :: x :: L) := h.listed.congr perm_middle
  have hla := hlm.of_append_right
  have hlx : Listed k m.addr [x] := hla.tail.of_append_left (L := L)
  obtain ⟨-, hsort, -⟩ := pairwise_append.mp h.sorted
  obtain ⟨⟨-, -, hx⟩, -⟩ := hla.tail.ok x mem_cons_self
  obtain ⟨hm1, hm2⟩ := hm
  obtain ⟨V, hV⟩ := Edit.swallow (s := s) (a := a) hlx hid ht
  obtain ⟨h', hlock⟩ := h.of_edit hV
  have hlka := hlock a mem_cons_self
  obtain ⟨k', M, hrun, hEd, hbef⟩ := setLoop_tail (s := s) hn h' (by
    intro z hz hza
    rw [hlka, hlock z (mem_cons_of_mem _ hz)] at hza ⊢
    have := rel_of_pairwise_cons hsort hz (hid.trans hza.symm)
    omega)
  rw [hlka] at hEd
  obtain ⟨W, hW⟩ := hEd.edit
  have hE : Edit s (k.lock a).id m.addr k (x :: L) _ L V := hV.append_right hla.tail
  refine ⟨k', M, hrun, ⟨_, (hE.cons hla).trans hla.fresh (hW.cons h'.listed)⟩,
    pairwise_cons.mpr ⟨hbef, hEd.sorted⟩, ?_⟩
  exact hW.nodup_append (S := [a]) h'.listed hEd.nodup

theorem setLoop_startsBefore {n : ℕ} (hn : L.length < n) (h : Ready k m.addr a (S ++ x :: L))
    (hid : (k.lock x).id = (k.lock a).id)
    (hm : OvCase.startsBefore.Means (k.lock x) (k.lock a)) :
    ∃ k' M, setLoop a m n (lfWakelock (k.setStop x (offPred (k.lock a).start)) x) false L =
      (k', M, none) ∧ Edited s (k.lock a).id m.addr k (a :: x :: L) k' (x :: a :: M) := by
  have hlm : Listed k m.addr (S ++ a :: x :: L) := h.listed.congr perm_middle
  have hla := hlm.of_append_right
  have hlx : Listed k m.addr [x] := hla.tail.of_append_left (L := L)
  obtain ⟨-, hsort, -⟩ := pairwise_append.mp h.sorted
  obtain ⟨⟨ha1, ha2, ha3⟩, -⟩ := hla.ok a mem_cons_self
  obtain ⟨⟨hx1, -, hx3⟩, -⟩ := hla.tail.ok x mem_cons_self
  obtain ⟨hm1, hm2, hm3⟩ := hm
  have hsub := Lockf.Sub.trimStop (hla.tail.ok x mem_cons_self) ⟨ha1, ha2, ha3⟩ hm1 hm2
  have hV := Edit.trim (s := s) hlx mem_cons_self hid hsub
  obtain ⟨h', hlock⟩ := h.of_edit hV
  have hlka := hlock a mem_cons_self
  have hrest : ∀ z ∈ L, (k.lock z).id = (k.lock a).id →
      (k.lock x).stop ≠ -1 ∧ (k.lock x).stop < (k.lock z).start := fun z hz hza =>
    rel_of_pairwise_cons hsort hz (hid.trans hza.symm)
  obtain ⟨k', M, hrun, hEd, hbef⟩ := setLoop_tail (s := s) hn h' (by
    intro z hz hza
    rw [hlka, hlock z (mem_cons_of_mem _ hz)] at hza ⊢
    have := hrest z hz hza
    omega)
  rw [hlka] at hEd
  obtain ⟨W, hW⟩ := hEd.edit
  have hE : Edit s (k.lock a).id m.addr k (a :: x :: L) _ (a :: x :: L) (k.lfBlock x) :=
    (hV.append_right hla.tail).cons hla
  have hl1 := hE.listed hla hla.nodup hla.fresh
  have hE' := (hW.cons hl1.tail).cons hl1
  have hp : (x :: a :: M).Perm (a :: x :: M) := List.Perm.swap _ _ _
  refine ⟨k', M, hrun,
    ⟨_, (hE.trans hla.fresh hE').congr (fun _ => Iff.rfl) fun _ => hp.mem_iff⟩,
    pairwise_cons.mpr ⟨?_, pairwise_cons.mpr ⟨hbef, hEd.sorted⟩⟩,
    hp.nodup_iff.mpr (hW.nodup_append (S := [a, x]) hl1 hEd.nodup)⟩
  -- the trimmed lock ends right before the request
  have hxL : x ∉ L := (nodup_cons.mp hla.tail.nodup).1
  have haL : a ∉ L := fun ha => (nodup_cons.mp hla.nodup).1 (mem_cons_of_mem _ ha)
  have hxb : x ≠ m.addr := fun heq => hlx.fresh (heq ▸ mem_cons_self)
  have hab : a ≠ m.addr := fun heq => hla.fresh (heq ▸ mem_cons_self)
  have hlx' : k'.lock x = { k.lock x with stop := offPred (k.lock a).start } :=
    (hW.lock_of_not_mem hxb hxL).trans (update_self _ _ _)
  have hla' : k'.lock a = k.lock a := (hW.lock_of_not_mem hab haL).trans hlka
  have hpred := offPred_eq ha1 ha2
  intro y hy hxy
  rw [hlx'] at hxy ⊢
  show offPred _ ≠ -1 ∧ offPred _ < _
  rcases mem_cons.mp hy with rfl | hy
  · rw [hla']
    omega
  obtain ⟨z, hz, hyz⟩ := hW.sub y hy
  rw [hlock z (mem_cons_of_mem _ hz)] at hyz
  have := hrest z hz ((hxy.trans hyz.id).symm.trans hid)
  have := hyz.start
  omega

section

variable (hl : Listed k b (a :: x :: L)) (hs : Sorted k (x :: L))
include hl hs

theorem Edited.trimStart (hid : (k.lock x).id = (k.lock a).id) (hn : (k.lock a).stop ≠ -1)
    (hw : (k.lock a).stop ≠ maxOff ∨ (k.lock x).stop ≠ -1) (h : (k.lock x).start ≤ (k.lock a).stop)
    (h' : (k.lock x).stop = -1 ∨ (k.lock a).stop < (k.lock x).stop) :
    Edited s (k.lock a).id b k (a :: x :: L)
      ((lfWakelock k x).setLock x { k.lock x with start := offSucc (k.lock a).stop })
      (a :: x :: L) := by
  have hxU : x ∈ a :: x :: L := by simp
  have hax : a ≠ x := fun heq => (nodup_cons.mp hl.nodup).1 (heq ▸ mem_cons_self)
  have hxL : x ∉ L := (nodup_cons.mp hl.tail.nodup).1
  obtain ⟨hsub, hsucc⟩ := Lockf.Sub.trimStart (hl.ok x hxU) (hl.ok a mem_cons_self).1 hw h h'
  have hlx : ((lfWakelock k x).setLock x
      { k.lock x with start := offSucc (k.lock a).stop }).lock x =
      { k.lock x with start := offSucc (k.lock a).stop } := update_self _ _ _
  have hlne : ∀ y, y ≠ x → ((lfWakelock k x).setLock x
      { k.lock x with start := offSucc (k.lock a).stop }).lock y = k.lock y :=
    fun y hy => update_of_ne hy _ _
  have hL : ∀ y ∈ L, y ≠ x := fun y hy heq => hxL (heq ▸ hy)
  refine ⟨⟨_, .trim hl hxU hid hsub⟩, pairwise_cons.mpr ⟨?_, ?_⟩, hl.nodup⟩
  · intro y hy hay
    rw [hlne a hax] at hay ⊢
    rcases mem_cons.mp hy with rfl | hy
    · rw [hlx]
      exact ⟨hn, by show _ < offSucc _; omega⟩
    · rw [hlne y (hL y hy)] at hay ⊢
      obtain ⟨hx1, hx2⟩ := rel_of_pairwise_cons hs hy (hid.trans hay)
      exact ⟨hn, by omega⟩
  · exact hs.cons_sub (by rw [hlx]) (by rw [hlx]; exact hsub.stop) fun y hy => hlne y (hL y hy)

theorem Edited.trimStop (hid : (k.lock x).id = (k.lock a).id) (h : (k.lock x).start < (k.lock a).start)
    (hn : (k.lock a).stop ≠ -1) (h' : (k.lock x).stop = (k.lock a).stop) :
    Edited s (k.lock a).id b k (a :: x :: L)
      ((lfWakelock k x).setLock x { k.lock x with stop := offPred (k.lock a).start })
      (x :: a :: L) := by
  have hxU : x ∈ a :: x :: L := by simp
  have hax : a ≠ x := fun heq => (nodup_cons.mp hl.nodup).1 (heq ▸ mem_cons_self)
  have hxL : x ∉ L := (nodup_cons.mp hl.tail.nodup).1
  have haok := hl.ok a mem_cons_self
  obtain ⟨⟨hx1, -, -⟩, -⟩ := hl.ok x hxU
  obtain ⟨⟨ha1, ha2, ha3⟩, -⟩ := id haok
  have hsub := Lockf.Sub.trimStop (hl.ok x hxU) haok.1 h (by omega)
  have hpred := offPred_eq ha1 ha2
  have hlx : ((lfWakelock k x).setLock x
      { k.lock x with stop := offPred (k.lock a).start }).lock x =
      { k.lock x with stop := offPred (k.lock a).start } := update_self _ _ _
  have hlne : ∀ y, y ≠ x → ((lfWakelock k x).setLock x
      { k.lock x with stop := offPred (k.lock a).start }).lock y = k.lock y :=
    fun y hy => update_of_ne hy _ _
  have hL : ∀ y ∈ L, y ≠ x := fun y hy heq => hxL (heq ▸ hy)
  have hp : (x :: a :: L).Perm (a :: x :: L) := List.Perm.swap _ _ _
  refine ⟨⟨_, (Edit.trim hl hxU hid hsub).congr (fun _ => Iff.rfl) fun _ => hp.mem_iff⟩,
    pairwise_cons.mpr ⟨?_, pairwise_cons.mpr ⟨?_, ?_⟩⟩, hp.nodup_iff.mpr hl.nodup⟩
  · intro y hy hxy
    rw [hlx] at hxy ⊢
    show offPred _ ≠ -1 ∧ offPred _ < _
    rcases mem_cons.mp hy with rfl | hy
    · rw [hlne y hax]
      omega
    · rw [hlne y (hL y hy)] at hxy ⊢
      have := rel_of_pairwise_cons hs hy hxy
      omega
  · intro y hy hay
    rw [hlne a hax, hlne y (hL y hy)] at hay ⊢
    have := rel_of_pairwise_cons hs hy (hid.trans hay)
    omega
  · exact Sorted.congr (List.Pairwise.of_cons hs) fun y hy => hlne y (hL y hy)

theorem Edited.splitThree (hsp : Splits (k.lock x) (k.lock a)) (hB : s → k.lfBlock x = []) :
    Edited s (k.lock a).id b k (a :: x :: L) (splitThree k x a b) (x :: a :: b :: L) := by
  have hxU : x ∈ a :: x :: L := by simp
  have hax : a ≠ x := fun heq => (nodup_cons.mp hl.nodup).1 (heq ▸ mem_cons_self)
  have hxL : x ∉ L := (nodup_cons.mp hl.tail.nodup).1
  have hab : a ≠ b := fun heq => hl.fresh (heq ▸ mem_cons_self)
  have hxb : x ≠ b := fun heq => hl.fresh (heq ▸ hxU)
  have haok := hl.ok a mem_cons_self
  obtain ⟨hsub1, hsub2, hpred, hsucc⟩ := hsp.parts (hl.ok x hxU) haok.1
  obtain ⟨⟨hx1, -, -⟩, -⟩ := hl.ok x hxU
  obtain ⟨hlx, hlb, hlne⟩ := splitThree_lock (k := k) (a := a) hxb
  have hL : ∀ y ∈ L, (Advlock.splitThree k x a b).lock y = k.lock y := fun y hy =>
    hlne y (fun heq => hxL (heq ▸ hy)) fun heq => hl.fresh (heq ▸ by simp [hy])
  have hrest : ∀ y ∈ L, (k.lock a).id = (k.lock y).id →
      (k.lock x).stop ≠ -1 ∧ (k.lock x).stop < (k.lock y).start := fun y hy hay =>
    rel_of_pairwise_cons hs hy (hsp.id.trans hay)
  have hstart := hsp.start
  have hstop := hsp.stop
  have hstop' := hsp.stop'
  have hp : (x :: a :: b :: L).Perm (b :: a :: x :: L) :=
    ((List.Perm.swap _ _ _).trans ((List.Perm.swap _ _ _).cons _)).trans (List.Perm.swap _ _ _)
  refine ⟨⟨_, (Edit.splitThree hl hxU hsp.id haok.1 hsp hB).congr (fun _ => Iff.rfl)
    fun _ => hp.mem_iff⟩, ?_, hp.nodup_iff.mpr (nodup_cons.mpr ⟨hl.fresh, hl.nodup⟩)⟩
  refine pairwise_cons.mpr ⟨?_, pairwise_cons.mpr ⟨?_, pairwise_cons.mpr ⟨?_, ?_⟩⟩⟩
  · intro y hy hxy
    rw [hlx] at hxy ⊢
    show offPred _ ≠ -1 ∧ offPred _ < _
    rcases mem_cons.mp hy with rfl | hy
    · rw [hlne y hax hab]
      omega
    rcases mem_cons.mp hy with rfl | hy
    · rw [hlb]
      show _ ∧ _ < offSucc _
      obtain ⟨⟨ha1, ha2, ha3⟩, -⟩ := haok
      omega
    rw [hL y hy] at hxy ⊢
    have := hrest y hy (hsp.id.symm.trans hxy)
    obtain ⟨⟨ha1, ha2, ha3⟩, -⟩ := haok
    omega
  · intro y hy hay
    rw [hlne a hax hab] at hay ⊢
    rcases mem_cons.mp hy with rfl | hy
    · rw [hlb]
      exact ⟨hstop, by show _ < offSucc _; omega⟩
    · rw [hL y hy] at hay ⊢
      have := hrest y hy hay
      omega
  · intro y hy hby
    rw [hlb] at hby ⊢
    rw [hL y hy] at hby ⊢
    exact hrest y hy (hsp.id.symm.trans hby)
  · exact Sorted.congr (List.Pairwise.of_cons hs) hL

theorem Edited.splitWake (hsp : Splits (k.lock x) (k.lock a)) :
    Edited s (k.lock a).id b k (a :: x :: L) (lfWakelock (Advlock.splitThree k x a b) x)
      (x :: a :: b :: L) := by
  have hxU : x ∈ a :: x :: L := by simp
  have hxb : x ≠ b := fun heq => hl.fresh (heq ▸ hxU)
  have hw : Edit s (k.lock a).id b k (a :: x :: L) (lfWakelock k x) (a :: x :: L)
      (k.lfBlock x) := .wake hl hxU hsp.id
  have hE := Edited.splitThree (s := s) (k := lfWakelock k x) (hw.listed hl hl.nodup hl.fresh)
    (Sorted.congr hs fun _ _ => rfl) hsp fun _ => lfWakelock_lfBlock k x
  obtain ⟨W, hW⟩ := hE.edit
  rw [lfWakelock_splitThree hxb]
  exact ⟨⟨_, hw.trans hl.fresh hW⟩, hE.sorted, hE.nodup⟩

end

theorem Edited.append_left_request (hl : Listed k b (a :: (S ++ U))) (hs : Sorted k (S ++ U))
    (hSa : ∀ y ∈ S, Before k y a) (h : Edited s o b k (a :: U) k1 M) :
    Edited s o b k (a :: (S ++ U)) k1 (S ++ M) := by
  have hlm : Listed k b (S ++ a :: U) := hl.congr perm_middle
  obtain ⟨hS, -, hSU⟩ := pairwise_append.mp hs
  have hE := h.append_left hlm hS (by
    intro y hy z hz
    rcases mem_cons.mp hz with rfl | hz
    · exact hSa y hy
    · exact hSU y hy z hz)
  obtain ⟨W, hW⟩ := hE.edit
  exact ⟨⟨W, hW.congr (fun _ => perm_middle.symm.mem_iff) fun _ => Iff.rfl⟩, hE.sorted,
    hE.nodup⟩

theorem setLoop_edited {n : ℕ} {block : List Addr} (hn : block.length < n)
    (h : Ready k m.addr a block) (hB : k.lfBlock a = [])
    (hino : ∀ y ∈ block, (k.lock y).inode = (k.lock a).inode)
    (htype : (k.lock a).type ≠ .unlck) :
    (∃ k' L, setLoop a m n k true block = (k', L, none) ∧
      Edited s (k.lock a).id m.addr k (a :: block) k' L) ∨
    ∃ x ∈ block, setLoop a m n k true block = (k, block, some x) ∧
      Splits (k.lock x) (k.lock a) := by
  obtain _ | n := n
  · omega
  rcases hr : lfFindoverlap k .self (k.lock a) block with ⟨c, skip, rest⟩
  obtain rfl := lfFindoverlap_append hr
  obtain ⟨hskip, hrest⟩ := lfFindoverlap_self_skip hr
  obtain ⟨hsortS, hsortR, hsortSR⟩ := pairwise_append.mp h.sorted
  have hlm : Listed k m.addr (skip ++ a :: rest) := h.listed.congr perm_middle
  have hla := hlm.of_append_right
  have hlr := hla.tail
  -- what is proved for the rest holds for the list
  have hlift : ∀ {k' : Kernel} {M : List Addr},
      Edited s (k.lock a).id m.addr k (a :: rest) k' M →
      Edited s (k.lock a).id m.addr k (a :: (skip ++ rest)) k' (skip ++ M) :=
    fun hE => hE.append_left_request h.listed h.sorted hskip
  by_cases hc : c = .none
  · subst hc
    refine .inl ⟨k, skip ++ a :: rest, by simp [setLoop, hr], hlift ⟨⟨[], .refl hla.ok hla.fresh⟩,
      pairwise_cons.mpr ⟨?_, hsortR⟩, hla.nodup⟩⟩
    intro y hy hay
    rcases rest with _ | ⟨x, xs⟩
    · exact absurd hy not_mem_nil
    obtain ⟨hxid, hstop, hlt'⟩ := hrest rfl x xs rfl
    rcases mem_cons.mp hy with rfl | hy
    · exact ⟨hstop, hlt'⟩
    · obtain ⟨hx1, hx2⟩ := rel_of_pairwise_cons hsortR hy (hxid.trans hay)
      obtain ⟨⟨_, _, h3⟩, _⟩ := hlr.ok x mem_cons_self
      exact ⟨hstop, by omega⟩
  · obtain ⟨x, rest', rfl, -, hxo, hmeans, hxok, haok, htx⟩ := h.found hr hc
    obtain ⟨⟨_, _, ha3⟩, _⟩ := id haok
    have hlen : rest'.length < n := by
      simp only [length_append, length_cons] at hn
      omega
    cases c with
    | none => exact absurd rfl hc
    | panic => exact hmeans.elim
    | equal =>
      refine .inl ⟨_, skip ++ x :: rest', by simp [setLoop, hr]; rfl, hlift ?_⟩
      exact .retype hla hsortR hxo (hino x (by simp)) hB htype hmeans
    | contains =>
      obtain ⟨hm1, hm2, hm3, hm4⟩ := hmeans
      by_cases hty : (k.lock x).type = (k.lock a).type
      · refine .inl ⟨k.free a, skip ++ x :: rest', by simp [setLoop, hr, hty], hlift ⟨
          ⟨_, .drop hla rfl hB⟩, ?_, hlr.nodup⟩⟩
        exact Sorted.congr hsortR fun _ _ => rfl
      have hw : (k.lock a).stop ≠ maxOff ∨ (k.lock x).stop ≠ -1 := by
        by_contra hcon
        push Not at hcon
        exact h.nowrap ⟨hcon.1, x, by simp, hxo, hcon.2, fun hand => hty hand.2⟩
      by_cases hst : (k.lock x).start = (k.lock a).start
      · refine .inl ⟨_, skip ++ a :: x :: rest', by simp [setLoop, hr, hty, hst]; rfl, hlift ?_⟩
        exact .trimStart hla hsortR hxo hm2 hw (by omega) (by omega)
      by_cases hsp : (k.lock x).stop = (k.lock a).stop
      · refine .inl ⟨_, skip ++ x :: a :: rest', by simp [setLoop, hr, hty, hst, hsp]; rfl,
          hlift ?_⟩
        exact .trimStop hla hsortR hxo (by omega) hm2 hsp
      have hsplits : Splits (k.lock x) (k.lock a) :=
        ⟨hxo, by omega, hm2, by omega, hw⟩
      cases hsl : m.sleeps with
      | true =>
        exact .inr ⟨x, by simp, by simp [setLoop, hr, hty, hst, hsp, hsl], hsplits⟩
      | false =>
        refine .inl ⟨_, skip ++ x :: a :: m.addr :: rest',
          by simp [setLoop, hr, hty, hst, hsp, hsl]; rfl, hlift ?_⟩
        exact .splitWake hla hsortR hsplits
    | within =>
      obtain ⟨k', L, hrun, hE⟩ := setLoop_within (s := s) hlen h hxo hmeans (htx rfl)
      exact .inl ⟨k', skip ++ a :: L, by simp [setLoop, hr, hrun], hlift hE⟩
    | startsBefore =>
      obtain ⟨k', L, hrun, hE⟩ := setLoop_startsBefore (s := s) hlen h hxo hmeans
      exact .inl ⟨k', skip ++ x :: a :: L, by simp [setLoop, hr, hrun], hlift hE⟩
    | endsAfter =>
      obtain ⟨hm1, hm2, hm3, hm4⟩ := hmeans
      refine .inl ⟨_, skip ++ a :: x :: rest', by simp [setLoop, hr]; rfl, hlift ?_⟩
      refine .trimStart hla hsortR hxo hm2 ?_ hm3 hm4
      by_contra hcon
      push Not at hcon
      exact h.nowrap ⟨hcon.1, x, by simp, hxo, hcon.2, by omega⟩

/-! ## Clearing -/

/-- What the loop of `lf_clearlock` for the range `l` does to the list `lf`. -/
structure Cleared (s : Prop) (l : Lockf) (b : Addr) (k : Kernel) (lf : List Addr)
    (out : Kernel × List Addr × Option Addr) : Prop where
  edited : Edited s l.id b k lf out.1 out.2.1
  /-- A lock about to be split is still on the list, and its waiters have been woken. -/
  split : ∀ x, out.2.2 = some x →
    x ∈ out.2.1 ∧ b ∉ out.2.1 ∧ Splits (out.1.lock x) l ∧ out.1.lfBlock x = []

theorem Cleared.append_left {l : Lockf} {sp : Option Addr} (hl : Listed k b (S ++ U))
    (hs : Sorted k (S ++ U)) (h : Cleared s l b k U (k1, M, sp)) :
    Cleared s l b k (S ++ U) (k1, S ++ M, sp) := by
  obtain ⟨hS, -, hSU⟩ := pairwise_append.mp hs
  refine ⟨h.edited.append_left hl hS hSU, ?_⟩
  intro x hx
  obtain ⟨hxM, hb, hsp⟩ := h.split x hx
  refine ⟨mem_append_right _ hxM, ?_, hsp⟩
  intro hmem
  rcases mem_append.mp hmem with hmem | hmem
  · exact hl.fresh (mem_append_left _ hmem)
  · exact hb hmem

theorem Edited.trim {l' : Lockf} (hl : Listed k b (x :: L)) (hs : Sorted k (x :: L))
    (hid : (k.lock x).id = o) (hsub : l'.Sub (k.lock x)) :
    Edited s o b k (x :: L) ((lfWakelock k x).setLock x l') (x :: L) := by
  have hxL : x ∉ L := (nodup_cons.mp hl.nodup).1
  have hlx : ((lfWakelock k x).setLock x l').lock x = l' := update_self _ _ _
  refine ⟨⟨_, .trim hl mem_cons_self hid hsub⟩, ?_, hl.nodup⟩
  refine hs.cons_sub (by rw [hlx, hsub.id]) (by rw [hlx]; exact hsub.stop) fun y hy => ?_
  have hyx : y ≠ x := fun heq => hxL (heq ▸ hy)
  exact update_of_ne hyx _ _

theorem Cleared.of_edit {l : Lockf} {out : Kernel × List Addr × Option Addr}
    (hl : Listed k b (x :: L)) (hE : Edit s l.id b k [x] k1 M V) (hM : M = [] ∨ M = [x])
    (hs : Sorted k1 (M ++ L)) (h : Cleared s l b k1 L out) :
    Cleared s l b k (x :: L) (out.1, M ++ out.2.1, out.2.2) := by
  have hE' : Edit s l.id b k (x :: L) k1 (M ++ L) V := hE.append_right hl
  have hl1 : Listed k1 b (M ++ L) := by
    rcases hM with rfl | rfl
    · exact hE'.listed hl hl.tail.nodup hl.tail.fresh
    · exact hE'.listed hl hl.nodup hl.fresh
  have h' : Cleared s l b k1 (M ++ L) (out.1, M ++ out.2.1, out.2.2) := h.append_left hl1 hs
  obtain ⟨W, hW⟩ := h'.edited.edit
  exact ⟨⟨⟨_, hE'.trans hl.fresh hW⟩, h'.edited.sorted, h'.edited.nodup⟩, h'.split⟩

theorem WrapsClear.of_tail {l : Lockf} (h : WrapsClear k1 l L) (S : List Addr) (x : Addr)
    (hL : ∀ y ∈ L, k1.lock y = k.lock y) : WrapsClear k l (S ++ x :: L) := by
  obtain ⟨hmax, y, hy, hrest⟩ := h
  rw [hL y hy] at hrest
  exact ⟨hmax, y, by simp [hy], hrest⟩

theorem Edited.splitClear (hl : Listed k b (a :: x :: L)) (hs : Sorted k (x :: L))
    (h : Splits (k.lock x) (k.lock a)) (hB : s → k.lfBlock x = []) :
    Edited s (k.lock a).id b k (x :: L) (Advlock.splitThree k x a b) (x :: b :: L) := by
  have hsplit := Edited.splitThree hl hs h hB
  have hsub : (x :: b :: L).Sublist (x :: a :: b :: L) :=
    ((List.Sublist.refl _).cons a).cons_cons x
  have hE := Edit.splitThree (a := a) hl.tail mem_cons_self h.id
    (hl.ok a mem_cons_self).1 h hB
  have hp : (x :: b :: L).Perm (b :: x :: L) := List.Perm.swap _ _ _
  exact ⟨⟨_, hE.congr (fun _ => Iff.rfl) fun _ => hp.mem_iff⟩, hsplit.sorted.sublist hsub,
    hsplit.nodup.sublist hsub⟩

theorem clearLoop_split {n : ℕ} (hl : Listed k m.addr (a :: (S ++ x :: L)))
    (hs : Sorted k (S ++ x :: L))
    (hr : lfFindoverlap k .self (k.lock a) (S ++ x :: L) = (.contains, S, x :: L))
    (hst : (k.lock x).start ≠ (k.lock a).start) (hsp : (k.lock x).stop ≠ (k.lock a).stop)
    (h : Splits (k.lock x) (k.lock a)) :
    Cleared s (k.lock a) m.addr k (S ++ x :: L) (clearLoop a m (n + 1) k (S ++ x :: L)) := by
  have hlm : Listed k m.addr (S ++ a :: x :: L) := hl.congr perm_middle
  have hla := hlm.of_append_right
  have hlr := hla.tail
  obtain ⟨-, hsr, -⟩ := pairwise_append.mp hs
  have hw : ∀ {U : List Addr}, Listed k m.addr U → x ∈ U →
      Edit s (k.lock a).id m.addr k U (lfWakelock k x) U (k.lfBlock x) :=
    fun hU hx => .wake hU hx h.id
  have hs1 : Sorted (lfWakelock k x) (x :: L) := Sorted.congr hsr fun _ _ => rfl
  cases hsl : m.sleeps with
  | true =>
    simp only [clearLoop, hr, if_neg hst, if_neg hsp, hsl, if_true]
    refine Cleared.append_left hl.tail hs
      ⟨⟨⟨_, hw hlr mem_cons_self⟩, hs1, hlr.nodup⟩, ?_⟩
    rintro y ⟨⟩
    exact ⟨mem_cons_self, hlr.fresh, h, lfWakelock_lfBlock k x⟩
  | false =>
    simp only [clearLoop, hr, if_neg hst, if_neg hsp, hsl]
    have hE := Edited.splitClear (s := s) ((hw hla (by simp)).listed hla hla.nodup hla.fresh) hs1 h
      fun _ => lfWakelock_lfBlock k x
    obtain ⟨W, hW⟩ := hE.edit
    exact Cleared.append_left hl.tail hs
      ⟨⟨⟨_, (hw hlr mem_cons_self).trans hlr.fresh hW⟩, hE.sorted, hE.nodup⟩, by simp⟩

theorem clearLoop_cleared {n : ℕ} {lf : List Addr} (hn : lf.length < n)
    (hl : Listed k m.addr (a :: lf)) (hs : Sorted k lf) (hw : ¬ WrapsClear k (k.lock a) lf) :
    Cleared s (k.lock a) m.addr k lf (clearLoop a m n k lf) := by
  induction n generalizing k lf with
  | zero => omega
  | succ n ih =>
    rcases hr : lfFindoverlap k .self (k.lock a) lf with ⟨c, skip, rest⟩
    obtain rfl := lfFindoverlap_append hr
    have hlm : Listed k m.addr (skip ++ a :: rest) := hl.congr perm_middle
    have hla := hlm.of_append_right
    have hlr := hla.tail
    obtain ⟨-, hsr, -⟩ := pairwise_append.mp hs
    have haok := hla.ok a mem_cons_self
    by_cases hc : c = .none
    · subst hc
      simp only [clearLoop, hr]
      exact ⟨⟨⟨_, .refl hl.tail.ok hl.tail.fresh⟩, hs, hl.tail.nodup⟩, by simp⟩
    obtain ⟨x, rest', rfl, hwants, hov⟩ := lfFindoverlap_found hr hc
    have hid : (k.lock x).id = (k.lock a).id := by simpa [Whose.wants] using hwants
    have hxok := hlr.ok x mem_cons_self
    have hmeans := hov ▸ ovcase_means
    have hlx : Listed k m.addr [x] := hlr.of_append_left (L := rest')
    have hlxa : Listed k m.addr (x :: a :: rest') := hla.congr (List.Perm.swap _ _ _)
    have hwx : (k.lock a).stop ≠ maxOff ∨ (k.lock x).stop ≠ -1 := by
      by_contra hcon
      push Not at hcon
      exact hw ⟨hcon.1, x, by simp, hid, hcon.2⟩
    obtain ⟨⟨ha1, ha2, ha3⟩, -⟩ := id haok
    have hlen : rest'.length < n := by
      simp only [length_append, length_cons] at hn
      omega
    cases c with
    | none => exact absurd rfl hc
    | panic => exact hmeans.elim
    | equal =>
      simp only [clearLoop, hr]
      refine Cleared.append_left hl.tail hs ⟨⟨⟨_, .delete hlr hid⟩, ?_, hlr.tail.nodup⟩, by simp⟩
      exact Sorted.congr (List.Pairwise.of_cons hsr) fun _ _ => rfl
    | contains =>
      obtain ⟨hm1, hm2, hm3, hm4⟩ := hmeans
      by_cases hst : (k.lock x).start = (k.lock a).start
      · have := hm4 hst
        obtain ⟨hsub, -⟩ := Lockf.Sub.trimStart hxok haok.1 hwx (by omega) (by omega)
        simp only [clearLoop, hr, if_pos hst]
        exact Cleared.append_left hl.tail hs ⟨.trim hlr hsr hid hsub, by simp⟩
      by_cases hsp : (k.lock x).stop = (k.lock a).stop
      · have hsub := Lockf.Sub.trimStop hxok haok.1 (by omega) (by omega)
        simp only [clearLoop, hr, if_neg hst, if_pos hsp]
        exact Cleared.append_left hl.tail hs ⟨.trim hlr hsr hid hsub, by simp⟩
      · have hsplits : Splits (k.lock x) (k.lock a) := ⟨hid, by omega, hm2, by omega, hwx⟩
        exact clearLoop_split hl hs hr hst hsp hsplits
    | within =>
      have hE : Edit s (k.lock a).id m.addr k [x] _ [] _ := .delete hlx hid
      obtain ⟨hl1, hlock⟩ := hlxa.of_edit hE
      have hs1 : Sorted ((lfWakelock k x).free x) rest' :=
        Sorted.congr (List.Pairwise.of_cons hsr) fun _ _ => rfl
      have h' := ih hlen hl1 hs1 (fun hw' => hw (hw'.of_tail skip x fun _ _ => rfl))
      simp only [clearLoop, hr]
      exact Cleared.append_left hl.tail hs (h'.of_edit hlr hE (.inl rfl) hs1)
    | startsBefore =>
      obtain ⟨hm1, hm2, hm3⟩ := hmeans
      have hsub := Lockf.Sub.trimStop hxok haok.1 hm1 hm2
      have hE : Edit s (k.lock a).id m.addr k [x] _ [x] _ :=
        .trim hlx mem_cons_self hid hsub
      obtain ⟨hl1, hlock⟩ := hlxa.of_edit hE
      have hlka := hlock a mem_cons_self
      have hlockL : ∀ y ∈ rest', _ = k.lock y := fun y hy =>
        hlock y (mem_cons_of_mem _ hy)
      have hs1 := Edited.trim (s := s) hlr hsr hid hsub
      have h' := ih hlen hl1 (List.Pairwise.of_cons hs1.sorted) (fun hw' => by
        rw [hlka] at hw'
        exact hw (hw'.of_tail skip x hlockL))
      rw [hlka] at h'
      simp only [clearLoop, hr]
      exact Cleared.append_left hl.tail hs (h'.of_edit hlr hE (.inr rfl) hs1.sorted)
    | endsAfter =>
      obtain ⟨hm1, hm2, hm3, hm4⟩ := hmeans
      obtain ⟨hsub, -⟩ := Lockf.Sub.trimStart hxok haok.1 hwx hm3 hm4
      simp only [clearLoop, hr]
      exact Cleared.append_left hl.tail hs ⟨.trim hlr hsr hid hsub, by simp⟩

end

end Bsd386.Ufs.Advlock
