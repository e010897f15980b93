import Bsd386.Vm.Map.View

/-!
# Clipping and the loops over a range

What each step of the loops does to the list of entries, in terms of `Lib.Ranges`: the clipping cuts one
entry in two, `changeLoop` is `Ranges.editTo` from the current entry on, `deleteLoop` is `Ranges.dropTo`.
Each keeps `WellFormed`, and `Counted`, which says that the map counts its entries and their lengths
right.
-/

namespace Bsd386.Vm

open Function List Lib

namespace VmMap

/-! ## Counting -/

/-- The length of all entries together. Source: none: what is claimed -/
def lengths (es : List MapEntry) : ℕ := (es.map fun e => e.end_ - e.start).sum

/-- `nentries` and `size` are right. Source: vm_map.h, struct vm_map -/
structure Counted (m : VmMap) : Prop where
  nentries : m.nentries = m.order.length
  size : m.size = BitVec.ofNat 32 (lengths m.es)

theorem lengths_append (es fs : List MapEntry) : lengths (es ++ fs) = lengths es + lengths fs := by
  unfold lengths
  rw [map_append, sum_append]

theorem lengths_cons (e : MapEntry) (es : List MapEntry) :
    lengths (e :: es) = (e.end_ - e.start) + lengths es := by
  unfold lengths
  rw [map_cons, sum_cons]

theorem map_update_of_not_mem {f : ℕ → MapEntry} {p : ℕ} {e : MapEntry} {l : List ℕ} (hp : p ∉ l) :
    l.map (update f p e) = l.map f := by
  refine map_congr_left fun q hq => update_of_ne ?_ _ _
  rintro rfl
  exact hp hq

/-! ## Clipping -/

section clip

variable {m m' : VmMap} {pre suf : List ℕ} {p b : ℕ}

theorem not_mem_of_nodup (hring : (0 :: m.order).Nodup) (hm : m.order = pre ++ p :: suf) :
    p ∉ pre ∧ p ∉ suf := by
  rw [hm] at hring
  have hnd := nodup_append.mp (nodup_cons.mp hring).2
  exact ⟨fun hp => hnd.2.2 _ hp _ mem_cons_self rfl, (nodup_cons.mp hnd.2.1).1⟩

theorem WellFormed.of_split (h : m.WellFormed) (hm : m.order = pre ++ p :: suf)
    (hb : (m.entry p).start < b ∧ b < (m.entry p).end_) (hring : (0 :: m'.order).Nodup)
    (hsub : m.order ⊆ m'.order) (h0 : m'.entry 0 = m.entry 0) (hhint : m'.hint = m.hint)
    (hff : m'.firstFree = m.firstFree)
    (hes : m'.es = pre.map m.entry ++ entryRanges.front (m.entry p) b ::
      entryRanges.back (m.entry p) b :: suf.map m.entry) : m'.WellFormed := by
  have hord := h.ordered
  rw [es_split hm] at hord
  have hbounds := h.bounds
  rw [es_split hm] at hbounds
  have hp := hbounds _ mem_append_cons_self
  refine ⟨hring, ?_, ?_, ?_, ?_⟩
  · rw [hes]
    exact hord.split hb
  · intro e he
    unfold minOffset maxOffset at *
    rw [h0]
    rw [hes] at he
    rcases mem_append.mp he with he | he
    · exact hbounds e (mem_append_left _ he)
    rcases mem_cons.mp he with rfl | he
    · exact ⟨hp.1, hb.2.le.trans hp.2⟩
    · rcases mem_cons.mp he with rfl | he
      · exact ⟨hp.1.trans hb.1.le, hp.2⟩
      · exact hbounds e (mem_append_right _ (mem_cons_of_mem _ he))
  · rw [hhint]
    exact cons_subset_cons 0 hsub h.hint
  · rw [hff]
    exact cons_subset_cons 0 hsub h.firstFree

theorem Counted.of_split (h : m.Counted) (hm : m.order = pre ++ p :: suf)
    (hb : (m.entry p).start < b ∧ b < (m.entry p).end_) (hn : m'.nentries = m.nentries + 1)
    (hlen : m'.order.length = m.order.length + 1) (hsize : m'.size = m.size)
    (hes : m'.es = pre.map m.entry ++ entryRanges.front (m.entry p) b ::
      entryRanges.back (m.entry p) b :: suf.map m.entry) : m'.Counted := by
  refine ⟨?_, ?_⟩
  · rw [hn, h.nentries, hlen]
    rfl
  · have hsum : lengths m'.es = lengths m.es := by
      rw [hes, es_split hm, lengths_append, lengths_append, lengths_cons, lengths_cons, lengths_cons]
      have hfront : (entryRanges.front (m.entry p) b).end_ - (entryRanges.front (m.entry p) b).start =
        b - (m.entry p).start := rfl
      have hback : (entryRanges.back (m.entry p) b).end_ - (entryRanges.back (m.entry p) b).start =
        (m.entry p).end_ - b := rfl
      omega
    rw [hsize, hsum, h.size]

theorem clipStartSplit_order (hring : (0 :: m.order).Nodup) (hm : m.order = pre ++ p :: suf) :
    (m.clipStartSplit p b).order = pre ++ m.create :: p :: suf := by
  unfold clipStartSplit
  have hprev : m.prev p = pre.getLastD 0 := prev_of_mem hring hm
  rw [hprev]
  exact link_order (m := (m.setEntry m.create _).setEntry p _) hring hm

theorem clipStartSplit_entry : (m.clipStartSplit p b).entry =
    update (update m.entry m.create (entryRanges.front (m.entry p) b)) p
      (entryRanges.back (m.entry p) b) := rfl

theorem clipEndSplit_order (hring : (0 :: m.order).Nodup) (hm : m.order = pre ++ p :: suf) :
    (m.clipEndSplit p b).order = pre ++ p :: m.create :: suf := by
  have hm' : m.order = (pre ++ [p]) ++ suf := hm.trans (append_cons pre p suf)
  have hlink := link_order (x := m.create) (m := (m.setEntry m.create
    (entryRanges.back (m.entry p) b)).setEntry p (entryRanges.front (m.entry p) b)) hring hm'
  rw [getLastD_concat] at hlink
  calc (m.clipEndSplit p b).order = (pre ++ [p]) ++ m.create :: suf := hlink
    _ = pre ++ p :: m.create :: suf := by rw [append_assoc]; rfl

theorem clipEndSplit_entry : (m.clipEndSplit p b).entry =
    update (update m.entry m.create (entryRanges.back (m.entry p) b)) p
      (entryRanges.front (m.entry p) b) := rfl

theorem map_update_update (hring : (0 :: m.order).Nodup) (hm : m.order = pre ++ p :: suf)
    (e e' : MapEntry) :
    pre.map (update (update m.entry m.create e) p e') = pre.map m.entry ∧
      suf.map (update (update m.entry m.create e) p e') = suf.map m.entry := by
  have hnew := create_not_mem m
  rw [hm] at hnew
  have hp := not_mem_of_nodup hring hm
  constructor
  · rw [map_update_of_not_mem hp.1, map_update_of_not_mem]
    exact fun hc => hnew (mem_cons_of_mem 0 (mem_append_left _ hc))
  · rw [map_update_of_not_mem hp.2, map_update_of_not_mem]
    exact fun hc => hnew (mem_cons_of_mem 0 (mem_append_right _ (mem_cons_of_mem p hc)))

theorem create_ne (hm : m.order = pre ++ p :: suf) : m.create ≠ p := by
  intro hc
  have hnew := create_not_mem m
  rw [hm, hc] at hnew
  exact hnew (mem_cons_of_mem 0 mem_append_cons_self)

theorem create_ne_zero (m : VmMap) : m.create ≠ 0 := Nat.succ_ne_zero _

theorem clipStartSplit_es (hring : (0 :: m.order).Nodup) (hm : m.order = pre ++ p :: suf) :
    (m.clipStartSplit p b).es = pre.map m.entry ++ entryRanges.front (m.entry p) b ::
      entryRanges.back (m.entry p) b :: suf.map m.entry := by
  obtain ⟨hpre, hsuf⟩ := map_update_update hring hm (entryRanges.front (m.entry p) b)
    (entryRanges.back (m.entry p) b)
  unfold es
  rw [clipStartSplit_order hring hm, clipStartSplit_entry, map_append, map_cons, map_cons,
    hpre, hsuf, update_self, update_of_ne (create_ne hm), update_self]

theorem clipEndSplit_es (hring : (0 :: m.order).Nodup) (hm : m.order = pre ++ p :: suf) :
    (m.clipEndSplit p b).es = pre.map m.entry ++ entryRanges.front (m.entry p) b ::
      entryRanges.back (m.entry p) b :: suf.map m.entry := by
  obtain ⟨hpre, hsuf⟩ := map_update_update hring hm (entryRanges.back (m.entry p) b)
    (entryRanges.front (m.entry p) b)
  unfold es
  rw [clipEndSplit_order hring hm, clipEndSplit_entry, map_append, map_cons, map_cons,
    hpre, hsuf, update_self, update_of_ne (create_ne hm), update_self]

theorem nodup_insert (hring : (0 :: m.order).Nodup) (hm : m.order = pre ++ suf) :
    (0 :: (pre ++ m.create :: suf)).Nodup := by
  have hnew := create_not_mem m
  rw [hm] at hring hnew
  have hperm : (0 :: (pre ++ m.create :: suf)).Perm (m.create :: 0 :: (pre ++ suf)) :=
    (perm_middle.cons 0).trans (List.Perm.swap _ _ _)
  exact hperm.nodup_iff.mpr (nodup_cons.mpr ⟨hnew, hring⟩)

theorem clipEndSplit_spec (hring : (0 :: m.order).Nodup) (hm : m.order = pre ++ p :: suf) {m1 : VmMap}
    (hm1 : m.clipEndSplit p b = m1) : m1.order = pre ++ p :: m.create :: suf ∧ (0 :: m1.order).Nodup ∧
      m1.entry p = entryRanges.front (m.entry p) b ∧
      m1.entry m.create = entryRanges.back (m.entry p) b := by
  rw [← hm1, clipEndSplit_order hring hm, clipEndSplit_entry, update_self, update_of_ne (create_ne hm),
    update_self]
  have hins := nodup_insert hring (hm.trans (append_cons pre p suf))
  rw [append_assoc] at hins
  exact ⟨rfl, hins, rfl, rfl⟩

theorem WellFormed.clipStartSplit (h : m.WellFormed) (hm : m.order = pre ++ p :: suf)
    (hb : (m.entry p).start < b ∧ b < (m.entry p).end_) : (m.clipStartSplit p b).WellFormed := by
  have horder := clipStartSplit_order (b := b) h.ring hm
  have hne := ne_zero_of_mem h.ring (hm ▸ mem_append_cons_self : p ∈ m.order)
  refine h.of_split hm hb ?_ ?_ ?_ rfl rfl (clipStartSplit_es h.ring hm)
  · rw [horder]
    exact nodup_insert h.ring hm
  · rw [horder, hm]
    exact ((sublist_cons_self m.create (p :: suf)).append_left pre).subset
  · rw [clipStartSplit_entry, update_of_ne hne.symm, update_of_ne
      (create_ne_zero m).symm]

theorem WellFormed.clipEndSplit (h : m.WellFormed) (hm : m.order = pre ++ p :: suf)
    (hb : (m.entry p).start < b ∧ b < (m.entry p).end_) : (m.clipEndSplit p b).WellFormed := by
  have horder := clipEndSplit_order (b := b) h.ring hm
  have hne := ne_zero_of_mem h.ring (hm ▸ mem_append_cons_self : p ∈ m.order)
  refine h.of_split hm hb (clipEndSplit_spec h.ring hm rfl).2.1 ?_ ?_ rfl rfl
    (clipEndSplit_es h.ring hm)
  · rw [horder, hm]
    exact (((sublist_cons_self m.create suf).cons_cons p).append_left pre).subset
  · rw [clipEndSplit_entry, update_of_ne hne.symm, update_of_ne
      (create_ne_zero m).symm]

theorem Counted.clipStartSplit (h : m.Counted) (hring : (0 :: m.order).Nodup)
    (hm : m.order = pre ++ p :: suf) (hb : (m.entry p).start < b ∧ b < (m.entry p).end_) :
    (m.clipStartSplit p b).Counted := by
  refine h.of_split hm hb rfl ?_ rfl (clipStartSplit_es hring hm)
  rw [clipStartSplit_order hring hm, hm, length_append, length_append]
  rfl

theorem Counted.clipEndSplit (h : m.Counted) (hring : (0 :: m.order).Nodup)
    (hm : m.order = pre ++ p :: suf) (hb : (m.entry p).start < b ∧ b < (m.entry p).end_) :
    (m.clipEndSplit p b).Counted := by
  refine h.of_split hm hb rfl ?_ rfl (clipEndSplit_es hring hm)
  rw [clipEndSplit_order hring hm, hm, length_append, length_append]
  rfl

end clip

/-! ## Changing an entry in place -/

section setEntry

variable {m : VmMap} {pre suf : List ℕ} {p : ℕ} {e : MapEntry}

theorem setEntry_entry : (m.setEntry p e).entry = update m.entry p e := rfl

theorem setEntry_es (hring : (0 :: m.order).Nodup) (hm : m.order = pre ++ p :: suf) :
    (m.setEntry p e).es = pre.map m.entry ++ e :: suf.map m.entry := by
  obtain ⟨hpre, hsuf⟩ := not_mem_of_nodup hring hm
  have hes := es_split (m := m.setEntry p e) hm
  unfold setEntry at hes ⊢
  dsimp only at hes
  rwa [map_update_of_not_mem hpre, map_update_of_not_mem hsuf, update_self] at hes

theorem setEntry_zero (hring : (0 :: m.order).Nodup) (hm : m.order = pre ++ p :: suf) :
    (m.setEntry p e).entry 0 = m.entry 0 := by
  have hne := ne_zero_of_mem hring (hm ▸ mem_append_cons_self : p ∈ m.order)
  exact update_of_ne hne.symm _ _

theorem WellFormed.setEntry (h : m.WellFormed) (hm : m.order = pre ++ p :: suf)
    (hlo : e.start = (m.entry p).start) (hhi : e.end_ = (m.entry p).end_) :
    (m.setEntry p e).WellFormed := by
  have hord := h.ordered
  rw [es_split hm] at hord
  have hbounds := h.bounds
  rw [es_split hm] at hbounds
  refine ⟨h.ring, ?_, ?_, h.hint, h.firstFree⟩
  · rw [setEntry_es h.ring hm]
    exact hord.replace hlo hhi
  · intro x hx
    unfold minOffset maxOffset at *
    rw [setEntry_zero h.ring hm]
    rw [setEntry_es h.ring hm] at hx
    rcases mem_append.mp hx with hx | hx
    · exact hbounds x (mem_append_left _ hx)
    rcases mem_cons.mp hx with rfl | hx
    · rw [hlo, hhi]
      exact hbounds _ mem_append_cons_self
    · exact hbounds x (mem_append_right _ (mem_cons_of_mem _ hx))

theorem Counted.setEntry (h : m.Counted) (hring : (0 :: m.order).Nodup)
    (hm : m.order = pre ++ p :: suf) (hlo : e.start = (m.entry p).start)
    (hhi : e.end_ = (m.entry p).end_) : (m.setEntry p e).Counted := by
  refine ⟨h.nentries, ?_⟩
  have hsum : lengths (m.setEntry p e).es = lengths m.es := by
    rw [setEntry_es hring hm, es_split hm, lengths_append, lengths_append, lengths_cons, lengths_cons,
      hlo, hhi]
  rw [hsum]
  exact h.size

end setEntry

/-! ## The loops -/

section loops

variable {m : VmMap} {pre suf : List ℕ}

/-- What a function on the map does: the entries become `es`, the map stays well formed and counted. -/
structure Becomes (m m' : VmMap) (es : List MapEntry) : Prop where
  wellFormed : m'.WellFormed
  es : m'.es = es
  header : m'.entry 0 = m.entry 0
  isMainMap : m'.isMainMap = m.isMainMap
  counted : m.Counted → m'.Counted

theorem Becomes.trans {m1 m2 m3 : VmMap} {es es' : List MapEntry} (h : Becomes m1 m2 es)
    (h' : Becomes m2 m3 es') : Becomes m1 m3 es' :=
  ⟨h'.wellFormed, h'.es, h'.header.trans h.header, h'.isMainMap.trans h.isMainMap,
    fun hc => h'.counted (h.counted hc)⟩

theorem Becomes.refl (h : m.WellFormed) : Becomes m m m.es := ⟨h, rfl, rfl, rfl, id⟩

theorem changeLoop_eq_self {f : MapEntry → MapEntry} {b q : ℕ}
    (hq : ¬(q ≠ 0 ∧ (m.entry q).start < b)) (k : ℕ) : changeLoop f b k m q = m := by
  cases k with
  | zero => rfl
  | succ k => exact if_neg hq

theorem deleteLoop_eq_self {b q : ℕ} (hq : ¬(q ≠ 0 ∧ (m.entry q).start < b)) (k : ℕ) :
    deleteLoop b k m q = m := by
  cases k with
  | zero => rfl
  | succ k => exact if_neg hq

theorem changeLoop_becomes {f : MapEntry → MapEntry} {b n : ℕ} (hlo : ∀ e, (f e).start = e.start)
    (hhi : ∀ e, (f e).end_ = e.end_) (h : m.WellFormed) (hm : m.order = pre ++ suf)
    (hn : suf.length < n) :
    Becomes m (changeLoop f b n m (suf.headD 0))
      (pre.map m.entry ++ entryRanges.editTo f b (suf.map m.entry)) := by
  induction suf generalizing m pre n with
  | nil =>
    rw [headD_nil, changeLoop_eq_self fun hc => hc.1 rfl]
    have hrefl := Becomes.refl h
    rwa [es_append hm] at hrefl
  | cons p suf ih =>
    obtain ⟨k, rfl⟩ : ∃ k, n = k + 1 := ⟨n - 1, by omega⟩
    have hne := ne_zero_of_mem h.ring (hm ▸ mem_append_cons_self : p ∈ m.order)
    unfold changeLoop
    rw [headD_cons, map_cons]
    unfold Ranges.editTo
    by_cases hlt : (m.entry p).start < b
    · rw [if_pos ⟨hne, hlt⟩, if_pos (show entryRanges.lo (m.entry p) < b from hlt)]
      dsimp only
      unfold clipEnd
      by_cases hcut : b < (m.entry p).end_
      · -- the entry is cut, and the loop ends at its second half
        rw [if_pos hcut, if_pos (show b < entryRanges.hi (m.entry p) from hcut)]
        obtain ⟨m1, hm1⟩ : ∃ m1, m.clipEndSplit p b = m1 := ⟨_, rfl⟩
        obtain ⟨horder, -, hentry, hnew⟩ := clipEndSplit_spec h.ring hm hm1
        have hwf : m1.WellFormed := hm1 ▸ h.clipEndSplit hm ⟨hlt, hcut⟩
        rw [hm1]
        have hset := hwf.setEntry (e := f (m1.entry p)) horder (hlo _) (hhi _)
        have hnext : (m1.setEntry p (f (m1.entry p))).next p = m.create :=
          next_of_mem hset.ring horder
        have hstop : ∀ k, changeLoop f b k (m1.setEntry p (f (m1.entry p))) m.create =
            m1.setEntry p (f (m1.entry p)) := by
          refine changeLoop_eq_self fun hc => ?_
          rw [setEntry_entry, update_of_ne (create_ne hm), hnew] at hc
          exact lt_irrefl b hc.2
        rw [hnext, hstop]
        have hes := clipEndSplit_es (b := b) h.ring hm
        rw [hm1, es_split horder, map_cons] at hes
        obtain ⟨hpre, -⟩ := append_inj hes (by rw [length_map, length_map])
        refine ⟨hset, ?_, ?_, ?_, ?_⟩
        · rw [setEntry_es hwf.ring horder, hentry, hpre, map_cons, hnew]
          have hsuf : suf.map m1.entry = suf.map m.entry := by
            rw [← hm1, clipEndSplit_entry]
            exact (map_update_update h.ring hm _ _).2
          rw [hsuf]
        · rw [setEntry_zero hwf.ring horder, ← hm1, clipEndSplit_entry, update_of_ne hne.symm,
            update_of_ne (create_ne_zero m).symm]
        · rw [← hm1]
          rfl
        · intro hc
          have hc1 : m1.Counted := hm1 ▸ hc.clipEndSplit h.ring hm ⟨hlt, hcut⟩
          exact hc1.setEntry hwf.ring horder (hlo _) (hhi _)
      · rw [if_neg hcut, if_neg (show ¬ b < entryRanges.hi (m.entry p) from hcut)]
        have hset := h.setEntry (e := f (m.entry p)) hm (hlo _) (hhi _)
        have hm' : (m.setEntry p (f (m.entry p))).order = (pre ++ [p]) ++ suf := by
          rw [append_assoc]
          exact hm
        have hnext : (m.setEntry p (f (m.entry p))).next p = suf.headD 0 := next_of_mem hset.ring hm
        rw [hnext]
        obtain ⟨hw, hes, hh, hmain, hcount⟩ := ih hset hm' (Nat.succ_lt_succ_iff.mp hn)
        obtain ⟨hpre, hsuf⟩ := not_mem_of_nodup h.ring hm
        refine ⟨hw, ?_, hh.trans (setEntry_zero h.ring hm), hmain, ?_⟩
        · rw [hes]
          rw [setEntry_entry, map_append, map_update_of_not_mem hpre, map_update_of_not_mem hsuf, append_assoc,
            map_singleton, update_self]
          rfl
        · exact fun hc => hcount (hc.setEntry h.ring hm (hlo _) (hhi _))
    · rw [if_neg fun hc => hlt hc.2, if_neg (show ¬ entryRanges.lo (m.entry p) < b from hlt)]
      have hrefl := Becomes.refl h
      rwa [es_split hm] at hrefl

theorem entryDelete_becomes {p : ℕ} (h : m.WellFormed) (hm : m.order = pre ++ p :: suf)
    (hhint : m.hint ∈ 0 :: pre) (hff : m.firstFree ∈ 0 :: pre) :
    Becomes m (m.entryDelete p) (pre.map m.entry ++ suf.map m.entry) := by
  have horder : (m.entryDelete p).order = pre ++ suf := unlink_order h.ring hm
  have hes : (m.entryDelete p).es = pre.map m.entry ++ suf.map m.entry := es_append horder
  have hsub : 0 :: pre ⊆ 0 :: (pre ++ suf) := cons_subset_cons 0 (subset_append_left _ _)
  refine ⟨⟨?_, ?_, ?_, ?_, ?_⟩, hes, rfl, rfl, ?_⟩
  · have hring := h.ring
    rw [hm] at hring
    rw [horder]
    exact hring.sublist (((sublist_cons_self p suf).append_left pre).cons_cons 0)
  · have hord := h.ordered
    rw [es_split hm] at hord
    rw [hes]
    exact hord.remove
  · intro e he
    refine h.bounds e ?_
    rw [hes] at he
    rw [es_split hm]
    exact ((sublist_cons_self _ _).append_left _).subset he
  · rw [horder]
    exact hsub hhint
  · rw [horder]
    exact hsub hff
  · intro hc
    refine ⟨?_, ?_⟩
    · have hn : m.nentries = ((pre ++ p :: suf).length : ℤ) := by rw [hc.nentries, hm]
      have hlen : (pre ++ p :: suf).length = (pre ++ suf).length + 1 := by
        rw [length_append, length_append]
        rfl
      have hd : (m.entryDelete p).nentries = m.nentries - 1 := rfl
      rw [hd, hn, horder, hlen]
      omega
    · have hd : (m.entryDelete p).size =
          m.size - BitVec.ofNat 32 ((m.entry p).end_ - (m.entry p).start) := rfl
      have hsum : lengths m.es =
          lengths (m.entryDelete p).es + ((m.entry p).end_ - (m.entry p).start) := by
        rw [hes, es_split hm, lengths_append, lengths_append, lengths_cons]
        omega
      rw [hd, hc.size, hsum, BitVec.ofNat_add, BitVec.add_sub_cancel]

theorem deleteLoop_becomes {b n : ℕ} (h : m.WellFormed) (hm : m.order = pre ++ suf)
    (hhint : m.hint ∈ 0 :: pre) (hff : m.firstFree ∈ 0 :: pre) (hn : suf.length < n) :
    Becomes m (deleteLoop b n m (suf.headD 0))
      (pre.map m.entry ++ entryRanges.dropTo b (suf.map m.entry)) := by
  induction suf generalizing m n with
  | nil =>
    rw [headD_nil, deleteLoop_eq_self fun hc => hc.1 rfl]
    have hrefl := Becomes.refl h
    rwa [es_append hm] at hrefl
  | cons p suf ih =>
    obtain ⟨k, rfl⟩ : ∃ k, n = k + 1 := ⟨n - 1, by omega⟩
    have hne := ne_zero_of_mem h.ring (hm ▸ mem_append_cons_self : p ∈ m.order)
    unfold deleteLoop
    rw [headD_cons, map_cons]
    unfold Ranges.dropTo
    by_cases hlt : (m.entry p).start < b
    · rw [if_pos ⟨hne, hlt⟩, if_pos (show entryRanges.lo (m.entry p) < b from hlt)]
      dsimp only
      unfold clipEnd
      by_cases hcut : b < (m.entry p).end_
      · -- the entry is cut, its first half removed, and the loop ends at the second
        rw [if_pos hcut, if_pos (show b < entryRanges.hi (m.entry p) from hcut)]
        obtain ⟨m1, hm1⟩ : ∃ m1, m.clipEndSplit p b = m1 := ⟨_, rfl⟩
        obtain ⟨horder, -, -, hnew⟩ := clipEndSplit_spec h.ring hm hm1
        have hwf : m1.WellFormed := hm1 ▸ h.clipEndSplit hm ⟨hlt, hcut⟩
        have hmap : pre.map m1.entry = pre.map m.entry ∧ suf.map m1.entry = suf.map m.entry := by
          rw [← hm1, clipEndSplit_entry]
          exact map_update_update h.ring hm _ _
        have hhint1 : m1.hint ∈ 0 :: pre := hm1 ▸ hhint
        have hff1 : m1.firstFree ∈ 0 :: pre := hm1 ▸ hff
        rw [hm1]
        obtain ⟨hw, hes, hh, hmain, hcount⟩ := entryDelete_becomes hwf horder hhint1 hff1
        have hnext : m1.next p = m.create := next_of_mem hwf.ring horder
        have hstop : deleteLoop b k (m1.entryDelete p) m.create = m1.entryDelete p := by
          refine deleteLoop_eq_self (fun hc => ?_) k
          have hentry : (m1.entryDelete p).entry = m1.entry := rfl
          rw [hentry, hnew] at hc
          exact lt_irrefl b hc.2
        rw [hnext, hstop]
        refine ⟨hw, ?_, ?_, ?_, ?_⟩
        · rw [hes, hmap.1, map_cons, hmap.2, hnew]
        · rw [hh, ← hm1, clipEndSplit_entry, update_of_ne hne.symm,
            update_of_ne (create_ne_zero m).symm]
        · rw [hmain, ← hm1]
          rfl
        · exact fun hc => hcount (hm1 ▸ hc.clipEndSplit h.ring hm ⟨hlt, hcut⟩)
      · rw [if_neg hcut, if_neg (show ¬ b < entryRanges.hi (m.entry p) from hcut)]
        have hdel := entryDelete_becomes h hm hhint hff
        have horder : (m.entryDelete p).order = pre ++ suf := unlink_order h.ring hm
        have hnext : m.next p = suf.headD 0 := next_of_mem h.ring hm
        rw [hnext]
        exact hdel.trans (ih hdel.wellFormed horder hhint hff (Nat.succ_lt_succ_iff.mp hn))
    · rw [if_neg fun hc => hlt hc.2, if_neg (show ¬ entryRanges.lo (m.entry p) < b from hlt)]
      have hrefl := Becomes.refl h
      rwa [es_split hm] at hrefl

end loops

/-! ## The first entry of a range -/

section first

variable {m : VmMap} {pre suf : List ℕ} {p b : ℕ}

theorem saveHint_becomes (h : m.WellFormed) (hp : p ∈ 0 :: m.order) :
    Becomes m (m.saveHint p) m.es :=
  ⟨⟨h.ring, h.ordered, h.bounds, hp, h.firstFree⟩, rfl, rfl, rfl, fun hc => ⟨hc.nentries, hc.size⟩⟩

/-- A map `m'` that reads as `m` does, with its list divided at the address `b`. -/
structure Divided (m m' : VmMap) (b : ℕ) (pre suf : List ℕ) : Prop where
  becomes : Becomes m m' m'.es
  order : m'.order = pre ++ suf
  read : ∀ a, m'.read a = m.read a
  before : ∀ p ∈ pre, (m'.entry p).end_ ≤ b
  behind : ∀ p ∈ suf, b ≤ (m'.entry p).start
  firstFree : m'.firstFree = m.firstFree

section

variable (h : m.WellFormed)
include h

theorem clipStart_divided (hm : m.order = pre ++ p :: suf) (hpre : ∀ q ∈ pre, (m.entry q).end_ ≤ b)
    (hb : (m.entry p).start ≤ b ∧ b < (m.entry p).end_) :
    ∃ pre', Divided m (m.clipStart p b) b pre' (p :: suf) ∧ (m.clipStart p b).hint = m.hint := by
  have hsuf : ∀ q ∈ suf, b ≤ (m.entry q).start := fun q hq =>
    hb.2.le.trans (h.end_le_start_of_cons hm hq)
  unfold clipStart
  by_cases hlt : (m.entry p).start < b
  · rw [if_pos hlt]
    have hne := ne_zero_of_mem h.ring (hm ▸ mem_append_cons_self : p ∈ m.order)
    have horder : (m.clipStartSplit p b).order = (pre ++ [m.create]) ++ p :: suf := by
      rw [clipStartSplit_order h.ring hm, append_assoc]
      rfl
    obtain ⟨hmpre, hmsuf⟩ := map_update_update h.ring hm (entryRanges.front (m.entry p) b)
      (entryRanges.back (m.entry p) b)
    rw [← clipStartSplit_entry] at hmpre hmsuf
    refine ⟨pre ++ [m.create], ⟨⟨h.clipStartSplit hm ⟨hlt, hb.2⟩, rfl, ?_, rfl, ?_⟩, horder, ?_, ?_, ?_, rfl⟩,
      rfl⟩
    · rw [clipStartSplit_entry, update_of_ne hne.symm,
        update_of_ne (create_ne_zero m).symm]
    · exact fun hc => hc.clipStartSplit h.ring hm ⟨hlt, hb.2⟩
    · intro a
      unfold read
      rw [clipStartSplit_es h.ring hm, es_split hm]
      exact Ranges.read_split ⟨hlt.le, hb.2.le⟩
    · intro q hq
      rcases mem_append.mp hq with hq | hq
      · rw [map_inj_left.mp hmpre q hq]
        exact hpre q hq
      · rw [mem_singleton.mp hq, clipStartSplit_entry, update_of_ne (create_ne hm),
          update_self]
        exact le_rfl
    · intro q hq
      rcases mem_cons.mp hq with rfl | hq
      · rw [clipStartSplit_entry, update_self]
        exact le_rfl
      · rw [map_inj_left.mp hmsuf q hq]
        exact hsuf q hq
  · rw [if_neg hlt]
    refine ⟨pre, ⟨Becomes.refl h, hm, fun _ => rfl, hpre, ?_, rfl⟩, rfl⟩
    exact forall_mem_cons.mpr ⟨not_lt.mp hlt, hsuf⟩

theorem Divided.of_saveHint (hp : p ∈ 0 :: m.order) {m' : VmMap}
    (hd : Divided (m.saveHint p) m' b pre suf) : Divided m m' b pre suf :=
  ⟨(saveHint_becomes h hp).trans hd.becomes, hd.order, hd.read, hd.before, hd.behind, hd.firstFree⟩

theorem clipStart_tail (hm : m.order = pre ++ p :: suf) :
    (p :: suf).map (m.clipStart p b).entry =
      (if (m.entry p).start < b then entryRanges.back (m.entry p) b else m.entry p) ::
        suf.map m.entry := by
  unfold clipStart
  by_cases hlt : (m.entry p).start < b
  · rw [if_pos hlt, if_pos hlt, map_cons, clipStartSplit_entry, (map_update_update h.ring hm _ _).2,
      update_self]
  · rw [if_neg hlt, if_neg hlt, map_cons]

theorem clipFirst_tail (b : ℕ) :
    ∃ pre suf, (m.clipFirst b).1 = suf.headD 0 ∧ Divided m (m.clipFirst b).2 b pre suf ∧
      suf.map (m.clipFirst b).2.entry = entryRanges.cutFrom b m.es := by
  obtain ⟨pre, suf, hm, hpre, hint, hmem, hres⟩ := lookupEntry_cases h b
  have hw := (saveHint_becomes h hmem).wellFormed
  have hcut : entryRanges.cutFrom b m.es = entryRanges.cutFrom b (suf.map m.entry) := by
    rw [es_append hm]
    exact Ranges.cutFrom_append (forall_mem_map.mpr hpre)
  unfold clipFirst
  rcases hres with ⟨p, suf', rfl, hr, hb⟩ | ⟨hr, -, hsuf⟩
  · obtain ⟨pre', hdiv, -⟩ := clipStart_divided hw hm hpre hb
    rw [hr]
    refine ⟨pre', p :: suf', rfl, hdiv.of_saveHint h hmem, ?_⟩
    rw [hcut]
    exact (clipStart_tail hw hm).trans (Ranges.cutFrom_cons_of_lt (R := entryRanges) hb.2).symm
  rw [hr]
  refine ⟨pre, suf, next_eq hw.ring hm, Divided.of_saveHint h hmem
    ⟨Becomes.refl hw, hm, fun _ => rfl, hpre, fun q hq => (hsuf q hq).le, rfl⟩, ?_⟩
  rw [hcut]
  cases suf with
  | nil => rfl
  | cons q suf =>
    have hq := hsuf q mem_cons_self
    have hlt := h.start_lt_end
      (hm ▸ mem_append_cons_self : q ∈ m.order)
    have hcons : entryRanges.cutFrom b (m.entry q :: suf.map m.entry) = _ :=
      Ranges.cutFrom_cons_of_lt (R := entryRanges) (hq.trans hlt)
    rw [if_neg (show ¬ entryRanges.lo (m.entry q) < b from not_lt.mpr hq.le)] at hcons
    exact hcons.symm

theorem clipFirst_spec (b : ℕ) :
    ∃ pre suf, (m.clipFirst b).1 = suf.headD 0 ∧ Divided m (m.clipFirst b).2 b pre suf := by
  obtain ⟨pre, suf, hfirst, hdiv, -⟩ := clipFirst_tail h b
  exact ⟨pre, suf, hfirst, hdiv⟩

theorem deleteFirst_spec (b : ℕ) :
    ∃ pre suf, (m.deleteFirst b).1 = suf.headD 0 ∧ (m.deleteFirst b).2.hint ∈ 0 :: pre ∧
      Divided m (m.deleteFirst b).2 b pre suf := by
  obtain ⟨pre, suf, hm, hpre, hint, hmem, hres⟩ := lookupEntry_cases h b
  have hw := (saveHint_becomes h hmem).wellFormed
  unfold deleteFirst
  rcases hres with ⟨p, suf', rfl, hr, hb⟩ | ⟨hr, hprev, hsuf⟩
  · obtain ⟨pre', hdiv, -⟩ := clipStart_divided hw hm hpre hb
    rw [hr]
    have hlast : ((m.saveHint hint).clipStart p b).prev p = pre'.getLastD 0 :=
      prev_of_mem hdiv.becomes.wellFormed.ring hdiv.order
    have hsub : 0 :: pre' ⊆ 0 :: ((m.saveHint hint).clipStart p b).order := by
      rw [hdiv.order]
      exact cons_subset_cons 0 (subset_append_left _ _)
    have hsaved := saveHint_becomes hdiv.becomes.wellFormed (hsub (getLastD_mem pre'))
    refine ⟨pre', p :: suf', rfl, ?_, Divided.of_saveHint h hmem ?_⟩
    · dsimp only
      rw [hlast]
      exact getLastD_mem pre'
    · dsimp only
      rw [hlast]
      exact ⟨hdiv.becomes.trans hsaved, hdiv.order, hdiv.read, hdiv.before, hdiv.behind, hdiv.firstFree⟩
  · rw [hr]
    refine ⟨pre, suf, next_eq hw.ring hm, ?_, Divided.of_saveHint h hmem
      ⟨Becomes.refl hw, hm, fun _ => rfl, hpre, fun q hq => (hsuf q hq).le, rfl⟩⟩
    rw [hprev]
    exact getLastD_mem pre

end

end first

end VmMap

end Bsd386.Vm
