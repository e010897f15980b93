import Bsd386.Vm.Map.Invariant

/-!
# The hint for free space

`first_free` is where `vm_map_find` begins when it may search from the bottom of the map, so nothing below
the end of that entry may be free (`Packed`). The operations that do not add anything keep it: they put the
hint at most back, and where they leave it, the entry at most shrinks.

An insertion keeps it unless it puts the first entry of the map behind a gap: the end of the header is the
end of the map, so the test `prev_entry->end >= new_entry->start` is then met whatever the gap
(`Hides`).
-/

namespace Bsd386.Vm

open Function List Lib

namespace VmMap

variable {m : VmMap} {pre suf : List ℕ}

/-! ## What is mapped -/

theorem read_ne_none_iff {a : ℕ} : m.read a ≠ none ↔ ∃ e ∈ m.es, e.start ≤ a ∧ a < e.end_ := by
  unfold read Ranges.read
  rw [Ne, findSome?_eq_none_iff]
  push Not
  refine exists_congr fun e => and_congr_right fun _ => ?_
  by_cases hc : entryRanges.lo e ≤ a ∧ a < entryRanges.hi e
  · rw [if_pos hc]
    exact iff_of_true (Option.some_ne_none _) hc
  · rw [if_neg hc]
    exact iff_of_false (fun h => h rfl) hc

/-- The invariant: the map is well formed, it ends below the end of the address space, and nothing below
the end of `first_free` is free. Source: vm_map_find -/
structure Packed (m : VmMap) : Prop where
  wellFormed : m.WellFormed
  packed : m.firstFree ≠ 0 → ∀ a, m.minOffset ≤ a → a < (m.entry m.firstFree).end_ → m.read a ≠ none
  space : m.maxOffset < 2 ^ 32

/-- **What keeps the invariant**: the map stays well formed, and below the end of `first_free` everything
is mapped, or it was below the end of the old `first_free` and stays mapped. -/
theorem Packed.becomes (h : m.Packed) {m' : VmMap} (hw : m'.WellFormed) (hmin : m'.minOffset = m.minOffset)
    (hmax : m'.maxOffset = m.maxOffset)
    (hkeep : m'.firstFree ≠ 0 → ∀ a, m.minOffset ≤ a → a < (m'.entry m'.firstFree).end_ → m'.read a ≠ none ∨
      m.firstFree ≠ 0 ∧ a < (m.entry m.firstFree).end_ ∧ (m.read a ≠ none → m'.read a ≠ none)) :
    m'.Packed := by
  refine ⟨hw, fun hne a ha hlt => ?_, hmax ▸ h.space⟩
  rw [hmin] at ha
  rcases hkeep hne a ha hlt with hread | ⟨hne', hlt', hread⟩
  · exact hread
  · exact hread (h.packed hne' a ha hlt')

theorem Packed.same (h : m.Packed) {m' : VmMap} (hw : m'.WellFormed) (h0 : m'.entry 0 = m.entry 0)
    (hread : ∀ a, m.read a ≠ none → m'.read a ≠ none) (hff : m'.firstFree = m.firstFree)
    (hend : (m'.entry m.firstFree).end_ ≤ (m.entry m.firstFree).end_) : m'.Packed := by
  refine h.becomes hw (congrArg MapEntry.start h0) (congrArg MapEntry.end_ h0) fun hne a _ hlt => .inr ?_
  rw [hff] at hne hlt
  exact ⟨hne, hlt.trans_le hend, hread a⟩

/-! ## Clipping -/

theorem clipStart_end (m : VmMap) (p b : ℕ) {q : ℕ} (hq : q ∈ 0 :: m.order) :
    ((m.clipStart p b).entry q).end_ = (m.entry q).end_ := by
  have hne : q ≠ m.create := by
    rintro rfl
    exact create_not_mem m hq
  unfold clipStart
  split_ifs
  · rw [clipStartSplit_entry]
    by_cases hqp : q = p
    · subst hqp
      rw [update_self]
      rfl
    · rw [update_of_ne hqp, update_of_ne hne]
  · rfl

theorem clipEnd_end (m : VmMap) (p b : ℕ) {q : ℕ} (hq : q ∈ 0 :: m.order) :
    ((m.clipEnd p b).entry q).end_ ≤ (m.entry q).end_ := by
  have hne : q ≠ m.create := by
    rintro rfl
    exact create_not_mem m hq
  unfold clipEnd
  split_ifs with hlt
  · rw [clipEndSplit_entry]
    by_cases hqp : q = p
    · subst hqp
      rw [update_self]
      exact hlt.le
    · rw [update_of_ne hqp, update_of_ne hne]
  · exact le_rfl

theorem clipFirst_end (m : VmMap) (start : ℕ) (h : m.WellFormed) {q : ℕ} (hq : q ∈ 0 :: m.order) :
    ((m.clipFirst start).2.entry q).end_ = (m.entry q).end_ := by
  obtain ⟨pre, -, -, -, hint, -, ⟨p, -, -, hr, -⟩ | ⟨hr, -⟩⟩ := lookupEntry_cases h start
  all_goals
    unfold clipFirst
    rw [hr]
  · exact clipStart_end (m.saveHint hint) p start hq
  · rfl

/-! ## Operations in place -/

theorem Packed.clipFirst (h : m.Packed) (start : ℕ) : (m.clipFirst start).2.Packed := by
  obtain ⟨pre, suf, -, hdiv⟩ := clipFirst_spec h.wellFormed start
  refine h.same hdiv.becomes.wellFormed hdiv.becomes.header (fun a ha => ?_) hdiv.firstFree ?_
  · rwa [hdiv.read a]
  · exact (clipFirst_end m start h.wellFormed h.wellFormed.firstFree).le

theorem Packed.saveHint (h : m.Packed) {p : ℕ} (hp : p ∈ 0 :: m.order) : (m.saveHint p).Packed :=
  h.same (saveHint_becomes h.wellFormed hp).wellFormed rfl (fun _ => id) rfl le_rfl

theorem Packed.setEntry (h : m.Packed) {p : ℕ} {e : MapEntry} (hp : p ∈ m.order)
    (hlo : e.start = (m.entry p).start) (hhi : e.end_ = (m.entry p).end_) : (m.setEntry p e).Packed := by
  obtain ⟨pre, suf, hm⟩ := append_of_mem hp
  refine h.same (h.wellFormed.setEntry hm hlo hhi) (setEntry_zero h.wellFormed.ring hm) (fun a ha => ?_) rfl ?_
  · rw [read_ne_none_iff] at ha ⊢
    rw [es_split hm] at ha
    rw [setEntry_es h.wellFormed.ring hm]
    obtain ⟨x, hx, hin⟩ := ha
    rcases mem_append.mp hx with hx | hx
    · exact ⟨x, mem_append_left _ hx, hin⟩
    rcases mem_cons.mp hx with rfl | hx
    · refine ⟨e, mem_append_cons_self, ?_⟩
      rwa [hlo, hhi]
    · exact ⟨x, mem_append_right _ (mem_cons_of_mem _ hx), hin⟩
  · rw [setEntry_entry]
    by_cases hne : m.firstFree = p
    · rw [hne, update_self, hhi]
    · rw [update_of_ne hne]

theorem Packed.setHeader (h : m.Packed) {e : MapEntry} (hlo : e.start = (m.entry 0).start)
    (hhi : e.end_ = (m.entry 0).end_) : (m.setEntry 0 e).Packed := by
  have hes : (m.setEntry 0 e).es = m.es := map_update_of_not_mem (nodup_cons.mp h.wellFormed.ring).1
  have h0 : (m.setEntry 0 e).entry 0 = e := by
    rw [setEntry_entry, update_self]
  have hmin : (m.setEntry 0 e).minOffset = m.minOffset := (congrArg MapEntry.start h0).trans hlo
  have hmax : (m.setEntry 0 e).maxOffset = m.maxOffset := (congrArg MapEntry.end_ h0).trans hhi
  refine h.becomes ⟨h.wellFormed.ring, ?_, ?_, h.wellFormed.hint, h.wellFormed.firstFree⟩ hmin hmax
    fun hne a _ hlt => .inr ⟨hne, ?_, ?_⟩
  · rw [hes]
    exact h.wellFormed.ordered
  · rw [hes, hmin, hmax]
    exact h.wellFormed.bounds
  · have hff : (m.setEntry 0 e).firstFree = m.firstFree := rfl
    rw [hff] at hne hlt
    rwa [setEntry_entry, update_of_ne hne] at hlt
  · unfold read
    rw [hes]
    exact id

theorem Packed.clipEnd (h : m.Packed) {p b : ℕ} (hp : p ∈ m.order) (hb : (m.entry p).start < b) :
    (m.clipEnd p b).Packed := by
  obtain ⟨pre, suf, hm⟩ := append_of_mem hp
  refine h.same ?_ ?_ (fun a ha => ?_) ?_ (clipEnd_end m p b h.wellFormed.firstFree)
  · unfold VmMap.clipEnd
    split_ifs with hlt
    · exact h.wellFormed.clipEndSplit hm ⟨hb, hlt⟩
    · exact h.wellFormed
  · unfold VmMap.clipEnd
    split_ifs
    · rw [clipEndSplit_entry, update_of_ne (ne_zero_of_mem h.wellFormed.ring hp).symm,
        update_of_ne (create_ne_zero m).symm]
    · rfl
  · rwa [clipEnd_read h.wellFormed hp hb.le]
  · unfold VmMap.clipEnd
    split_ifs
    · rfl
    · rfl

theorem stable_packed : Stable Packed where
  wellFormed := Packed.wellFormed
  clipFirst start h := h.clipFirst start
  clipEnd h hp hb := h.clipEnd hp hb
  setEntry h hp hlo hhi _ := by
    rcases mem_cons.mp hp with rfl | hp
    · exact h.setHeader hlo hhi
    · exact h.setEntry hp hlo hhi

/-! ## Removal -/

theorem deleteLoop_before {b n q : ℕ} (hring : (0 :: m.order).Nodup) (hm : m.order = pre ++ suf)
    (hn : suf.length < n) (hq : q ∈ 0 :: pre) :
    (deleteLoop b n m (suf.headD 0)).entry q = m.entry q ∧
      (deleteLoop b n m (suf.headD 0)).firstFree = m.firstFree := by
  induction suf generalizing m n with
  | nil =>
    rw [headD_nil, deleteLoop_eq_self fun hc => hc.1 rfl]
    exact ⟨rfl, rfl⟩
  | cons p suf ih =>
    obtain ⟨k, rfl⟩ : ∃ k, n = k + 1 := ⟨n - 1, by omega⟩
    unfold deleteLoop
    rw [headD_cons]
    by_cases hlt : p ≠ 0 ∧ (m.entry p).start < b
    · rw [if_pos hlt]
      dsimp only
      have hqp : q ≠ p := by
        rintro rfl
        rcases mem_cons.mp hq with h0 | hq
        · exact hlt.1 h0
        · exact (not_mem_of_nodup hring hm).1 hq
      unfold clipEnd
      by_cases hcut : b < (m.entry p).end_
      · rw [if_pos hcut]
        have hqc : q ≠ m.create := by
          rintro rfl
          refine create_not_mem m ?_
          rw [hm]
          exact cons_subset_cons 0 (subset_append_left _ _) hq
        obtain ⟨m1, hm1⟩ : ∃ m1, m.clipEndSplit p b = m1 := ⟨_, rfl⟩
        obtain ⟨horder, hring1, -, hnew⟩ := clipEndSplit_spec hring hm hm1
        have hnext : m1.next p = m.create := next_of_mem hring1 horder
        have hstop : deleteLoop b k (m1.entryDelete p) m.create = m1.entryDelete p := by
          refine deleteLoop_eq_self (fun hc => ?_) k
          have hentry : (m1.entryDelete p).entry = m1.entry := rfl
          rw [hentry, hnew] at hc
          exact lt_irrefl b hc.2
        rw [hm1, hnext, hstop]
        refine ⟨?_, ?_⟩
        · change m1.entry q = _
          rw [← hm1, clipEndSplit_entry, update_of_ne hqp, update_of_ne hqc]
        · change m1.firstFree = _
          rw [← hm1]
          rfl
      · rw [if_neg hcut]
        have horder : (m.entryDelete p).order = pre ++ suf := unlink_order hring hm
        have hring' : (0 :: (m.entryDelete p).order).Nodup := by
          rw [hm] at hring
          rw [horder]
          exact hring.sublist (((sublist_cons_self p suf).append_left pre).cons_cons 0)
        have hnext : m.next p = suf.headD 0 := next_of_mem hring hm
        rw [hnext]
        exact ih hring' horder (Nat.succ_lt_succ_iff.mp hn)
    · rw [if_neg hlt]
      exact ⟨rfl, rfl⟩

theorem deleteFirst_end (m : VmMap) (start : ℕ) (h : m.WellFormed) {q : ℕ} (hq : q ∈ 0 :: m.order) :
    ((m.deleteFirst start).2.entry q).end_ = (m.entry q).end_ := by
  obtain ⟨pre, -, -, -, hint, -, ⟨p, -, -, hr, -⟩ | ⟨hr, -⟩⟩ := lookupEntry_cases h start
  all_goals
    unfold deleteFirst
    rw [hr]
  · exact clipStart_end (m.saveHint hint) p start hq
  · rfl

/-- **Removal** puts `first_free` back to the entry before the range, if it does not end before it. -/
theorem Packed.delete (h : m.Packed) (start end_ : ℕ) : (m.delete start end_).Packed := by
  obtain ⟨hbec, hread⟩ := delete_becomes h.wellFormed start end_
  obtain ⟨pre, suf, hfirst, hhint, hdiv⟩ := deleteFirst_spec h.wellFormed start
  have hw1 := hdiv.becomes.wellFormed
  -- where `first_free` ends up
  have hff : ∃ ff ∈ 0 :: pre, (m.delete start end_).firstFree = ff ∧
      (m.delete start end_).entry ff = (m.deleteFirst start).2.entry ff ∧
      (start ≤ ((m.deleteFirst start).2.entry m.firstFree).start ∧ ff = pre.getLastD 0 ∨
        ((m.deleteFirst start).2.entry m.firstFree).start < start ∧ ff = m.firstFree) := by
    unfold VmMap.delete
    dsimp only
    rw [hfirst, hdiv.firstFree]
    have hlen : suf.length < (m.deleteFirst start).2.order.length + 1 := by
      rw [hdiv.order, length_append]
      omega
    by_cases hle : start ≤ ((m.deleteFirst start).2.entry m.firstFree).start
    · rw [if_pos hle, prev_eq hw1.ring hdiv.order]
      obtain ⟨hentry, hfree⟩ := @deleteLoop_before { (m.deleteFirst start).2 with
        firstFree := pre.getLastD 0 } pre suf end_ _ _ hw1.ring hdiv.order hlen (getLastD_mem pre)
      exact ⟨_, getLastD_mem pre, hfree, hentry, .inl ⟨hle, rfl⟩⟩
    rw [if_neg hle]
    have hmem : m.firstFree ∈ 0 :: pre := by
      have hin := hw1.firstFree
      rw [hdiv.firstFree, hdiv.order, ← cons_append] at hin
      rcases mem_append.mp hin with hin | hin
      · exact hin
      · exact absurd (hdiv.behind _ hin) hle
    obtain ⟨hentry, hfree⟩ := @deleteLoop_before (m.deleteFirst start).2 pre suf end_ _ _ hw1.ring hdiv.order
      hlen hmem
    exact ⟨_, hmem, hfree.trans hdiv.firstFree, hentry, .inr ⟨not_le.mp hle, rfl⟩⟩
  obtain ⟨ff, hmem, hfree, hentry, hcase⟩ := hff
  have hend : ff ≠ 0 → ((m.delete start end_).entry ff).end_ ≤ start := by
    intro hne
    rw [hentry]
    exact hdiv.before ff ((mem_cons.mp hmem).resolve_left hne)
  refine h.becomes hbec.wellFormed (congrArg MapEntry.start hbec.header)
    (congrArg MapEntry.end_ hbec.header) fun hne a hmin hlt => .inr ?_
  rw [hfree] at hne hlt
  have hstart := hlt.trans_le (hend hne)
  have hkeep : m.read a ≠ none → (m.delete start end_).read a ≠ none := by
    rw [hread a, if_neg fun hc => absurd hstart (not_lt.mpr hc.1)]
    exact id
  have hends := deleteFirst_end m start h.wellFormed h.wellFormed.firstFree
  rcases hcase with ⟨hle, -⟩ | ⟨-, rfl⟩
  · have hff0 : m.firstFree ≠ 0 := by
      intro h0
      rw [h0, hdiv.becomes.header] at hle
      exact absurd (hle.trans hmin) (not_le.mpr hstart)
    have hin : m.firstFree ∈ (m.deleteFirst start).2.order := by
      have hin := hw1.firstFree
      rw [hdiv.firstFree] at hin
      exact (mem_cons.mp hin).resolve_left hff0
    have hlt' := hw1.start_lt_end hin
    rw [hends] at hlt'
    exact ⟨hff0, (hstart.trans_le hle).trans hlt', hkeep⟩
  · rw [hentry, hends] at hlt
    exact ⟨hne, hlt, hkeep⟩

theorem Packed.remove (h : m.Packed) (start end_ : ℕ) : (m.remove start end_).Packed := h.delete _ _

/-! ## Merging -/

theorem Packed.absorb {M : MapEntry} {b x y k gone : ℕ} (h : m.Packed) (hm : m.order = pre ++ x :: y :: suf)
    (hx : m.entry x = entryRanges.front M b) (hy : m.entry y = entryRanges.back M b)
    (hk : k = x ∧ gone = y ∨ k = y ∧ gone = x) : (m.absorb gone k M).Packed := by
  obtain ⟨hbec, hread, -, hentry⟩ := absorb_becomes h.wellFormed hm hx hy hk
  have hff : (m.absorb gone k M).firstFree = if m.firstFree = gone then k else m.firstFree := by
    unfold VmMap.absorb
    split_ifs
    · rfl
    · rfl
  have hother : ∀ q, q ≠ k → (m.absorb gone k M).entry q = m.entry q := by
    intro q hq
    change ((_ : VmMap).setEntry k M).entry q = _
    rw [setEntry_entry, update_of_ne hq]
    split_ifs
    · rfl
    · rfl
  have hends : (m.entry x).end_ = b ∧ (m.entry y).start = b ∧ (m.entry y).end_ = M.end_ := by
    rw [hx, hy]
    exact ⟨rfl, rfl, rfl⟩
  refine h.becomes hbec.wellFormed (congrArg MapEntry.start hbec.header)
    (congrArg MapEntry.end_ hbec.header) fun hne a _ hlt => ?_
  have hkeep : m.read a ≠ none → (m.absorb gone k M).read a ≠ none := by
    rw [hread a]
    exact id
  by_cases hin : b ≤ a ∧ a < M.end_
  · refine .inl (hkeep (read_ne_none_iff.mpr ⟨m.entry y, ?_, ?_⟩))
    · rw [es_split hm]
      exact mem_append_right _ (mem_cons_of_mem _ mem_cons_self)
    · rw [hends.2.1, hends.2.2]
      exact hin
  refine .inr ⟨?_, ?_, hkeep⟩
  · -- the header does not go
    rintro h0
    have hg : gone ∈ m.order := by
      rw [hm]
      rcases hk with ⟨-, rfl⟩ | ⟨-, rfl⟩
      · exact mem_append_right _ (mem_cons_of_mem _ mem_cons_self)
      · exact mem_append_cons_self
    rw [hff, if_neg] at hne
    · exact hne h0
    · exact fun hg0 => ne_zero_of_mem h.wellFormed.ring hg (hg0.symm.trans h0)
  · by_cases hffk : (m.absorb gone k M).firstFree = k
    · rw [hffk, hentry] at hlt
      have hab : a < b := not_le.mp fun hb => hin ⟨hb, hlt⟩
      have hby : b ≤ (m.entry y).end_ := by
        have hyin : y ∈ m.order := by
          rw [hm]
          exact mem_append_right _ (mem_cons_of_mem _ mem_cons_self)
        have hlt' := h.wellFormed.start_lt_end hyin
        omega
      have hmem : m.firstFree = x ∨ m.firstFree = y := by
        rw [hff] at hffk
        split_ifs at hffk with hg
        · rcases hk with ⟨-, rfl⟩ | ⟨-, rfl⟩
          · exact .inr hg
          · exact .inl hg
        · rcases hk with ⟨rfl, -⟩ | ⟨rfl, -⟩
          · exact .inl hffk
          · exact .inr hffk
      rcases hmem with hmem | hmem
      · rw [hmem, hends.1]
        exact hab
      · rw [hmem]
        exact hab.trans_le hby
    · have hsame : (m.absorb gone k M).firstFree = m.firstFree := by
        rw [hff] at hffk ⊢
        split_ifs at hffk ⊢ with hg
        · exact absurd rfl hffk
        · rfl
      rwa [hother _ hffk, hsame] at hlt

theorem Packed.simplify (h : m.Packed) (start : ℕ) : (m.simplify start).Packed := by
  unfold VmMap.simplify
  by_cases hmain : m.isMainMap = false
  · rw [if_pos hmain]
    exact h
  rw [if_neg hmain]
  obtain ⟨pre, suf, hm, -, hint, hmem, hres⟩ := lookupEntry_cases h.wellFormed start
  have h1 := h.saveHint hmem
  rcases hres with ⟨e, suf', rfl, hr, hb⟩ | ⟨hr, -⟩
  · rw [hr]
    dsimp only
    by_cases hsh : (((m.saveHint hint).entry e).isAMap || ((m.saveHint hint).entry e).isSubMap) = true
    · rw [if_pos hsh]
      exact h1
    rw [if_neg hsh]
    obtain ⟨hmap, hsub⟩ := Bool.or_eq_false_iff.mp (Bool.not_eq_true _ |>.mp hsh)
    have hin : e ∈ (m.saveHint hint).order := by
      change e ∈ m.order
      rw [hm]
      exact mem_append_cons_self
    have h2 : ((m.saveHint hint).mergePrev start e).Packed := by
      rcases mergePrev_cases h1.wellFormed hin hb.1 hmap hsub with
        heq | ⟨pre, p, suf, M, b, hm', hfront, hback, heq⟩
      · rw [heq]
        exact h1
      · rw [heq]
        exact h1.absorb hm' hfront hback (.inr ⟨rfl, rfl⟩)
    obtain ⟨-, -, hin2⟩ := mergePrev_becomes h1.wellFormed hin hb.1 hmap hsub
    rcases mergeNext_cases h2.wellFormed hin2 with heq | ⟨pre, n, suf, M, b, hm', hfront, hback, heq⟩
    · rw [heq]
      exact h2
    · rw [heq]
      exact h2.absorb hm' hfront hback (.inl ⟨rfl, rfl⟩)
  · rw [hr]
    exact h1

/-! ## Insertion -/

/-- A range that is free, with a gap below it that nobody has noticed: `first_free` is the header and
nothing is mapped below the range. Source: vm_map_insert -/
structure Hides (m : VmMap) (start end_ : ℕ) : Prop where
  firstFree : m.firstFree = 0
  free : m.Free start end_
  gap : m.minOffset < start
  first : ∀ a, a < start → m.read a = none

theorem Packed.addEntry (h : m.Packed) {e : MapEntry} (hgap : Gap m pre suf e.start e.end_)
    (hok : ¬ m.Hides e.start e.end_) : (m.addEntry (pre.getLastD 0) e).Packed := by
  obtain ⟨hw, hes, horder, hentry, -, -⟩ := addEntry_spec h.wellFormed hgap
  have hne : ∀ q ∈ 0 :: m.order, q ≠ m.create := by
    rintro q hq rfl
    exact create_not_mem m hq
  have hff : (m.addEntry (pre.getLastD 0) e).firstFree = m.firstFree ∨
      (m.addEntry (pre.getLastD 0) e).firstFree = m.create ∧ m.firstFree = pre.getLastD 0 ∧
        e.start ≤ (m.entry (pre.getLastD 0)).end_ := by
    have hlast : pre.getLastD 0 ∈ 0 :: m.order := by
      rw [hgap.order]
      exact cons_subset_cons 0 (subset_append_left _ _) (getLastD_mem pre)
    unfold VmMap.addEntry
    dsimp only
    split_ifs with hc
    · refine .inr ⟨rfl, hc.1, ?_⟩
      have hle := hc.2
      change e.start ≤ (update m.entry m.create e (pre.getLastD 0)).end_ at hle
      rwa [update_of_ne (hne _ hlast)] at hle
    · exact .inl rfl
  have hold : ∀ a, m.read a ≠ none → (m.addEntry (pre.getLastD 0) e).read a ≠ none := by
    intro a ha
    rw [read_ne_none_iff] at ha ⊢
    rw [es_append hgap.order] at ha
    rw [hes]
    obtain ⟨x, hx, hin⟩ := ha
    rcases mem_append.mp hx with hx | hx
    · exact ⟨x, mem_append_left _ hx, hin⟩
    · exact ⟨x, mem_append_right _ (mem_cons_of_mem _ hx), hin⟩
  have hnew : ∀ a, e.start ≤ a → a < e.end_ → (m.addEntry (pre.getLastD 0) e).read a ≠ none := by
    intro a hlo hhi
    rw [read_ne_none_iff, hes]
    exact ⟨e, mem_append_cons_self, hlo, hhi⟩
  have h0 : (m.addEntry (pre.getLastD 0) e).entry 0 = m.entry 0 := by
    rw [hentry, update_of_ne (create_ne_zero m).symm]
  rcases hff with hff | ⟨hff, hlast, hle⟩
  · refine h.same hw h0 hold hff ?_
    rw [hentry, update_of_ne (hne _ h.wellFormed.firstFree)]
  refine h.becomes hw (congrArg MapEntry.start h0) (congrArg MapEntry.end_ h0) fun _ a hmin hlt => ?_
  rw [hff, hentry, update_self] at hlt
  by_cases hae : e.start ≤ a
  · exact .inl (hnew a hae hlt)
  have hlt' : a < e.start := not_le.mp hae
  by_cases hff0 : m.firstFree = 0
  · -- the new entry is the first one, and there is a gap below
    rcases eq_nil_or_concat pre with rfl | ⟨init, p, rfl⟩
    · refine absurd ⟨hff0, hgap.free, hmin.trans_lt hlt', fun a ha => ?_⟩ hok
      unfold read
      rw [es_append hgap.order, map_nil, nil_append]
      exact Ranges.read_of_lt_lo (forall_mem_map.mpr fun q hq =>
        (ha.trans hgap.lt).trans_le (hgap.behind q hq))
    rw [concat_eq_append, getLastD_concat] at hlast
    refine absurd (hlast.symm.trans hff0) (ne_zero_of_mem h.wellFormed.ring ?_)
    rw [hgap.order, concat_eq_append, append_assoc]
    exact mem_append_cons_self
  · refine .inr ⟨hff0, ?_, hold a⟩
    rw [hlast]
    exact hlt'.trans_le hle

theorem Packed.grown (h : m.Packed) {p end_ : ℕ} (hgap : Gap m (pre ++ [p]) suf (m.entry p).end_ end_) :
    (m.grown p end_).Packed := by
  have hm : m.order = pre ++ p :: suf := by
    rw [hgap.order, append_assoc]
    rfl
  obtain ⟨hw, hes⟩ := grown_spec h.wellFormed hgap
  have h0 : (m.grown p end_).entry 0 = m.entry 0 := setEntry_zero h.wellFormed.ring hm
  have hold : ∀ a, m.read a ≠ none → (m.grown p end_).read a ≠ none := by
    intro a ha
    rw [read_ne_none_iff] at ha ⊢
    rw [es_split hm] at ha
    rw [hes]
    obtain ⟨x, hx, hin⟩ := ha
    rcases mem_append.mp hx with hx | hx
    · exact ⟨x, mem_append_left _ hx, hin⟩
    · rcases mem_cons.mp hx with rfl | hx
      · exact ⟨_, mem_append_cons_self, hin.1, hin.2.trans hgap.lt⟩
      · exact ⟨x, mem_append_right _ (mem_cons_of_mem _ hx), hin⟩
  have hff : (m.grown p end_).firstFree = m.firstFree := rfl
  refine h.becomes hw (congrArg MapEntry.start h0) (congrArg MapEntry.end_ h0) fun hne a _ hlt => ?_
  rw [hff] at hne hlt
  by_cases hlt' : a < (m.entry m.firstFree).end_
  · exact .inr ⟨hne, hlt', hold a⟩
  refine .inl (read_ne_none_iff.mpr ⟨{ m.entry p with end_ := end_ }, ?_, ?_⟩)
  · rw [hes]
    exact mem_append_cons_self
  · have hentry : (m.grown p end_).entry = update m.entry p { m.entry p with end_ := end_ } := rfl
    have hpff : m.firstFree = p := by
      by_contra hnp
      rw [hentry, update_of_ne hnp] at hlt
      exact hlt' hlt
    rw [hentry, hpff, update_self] at hlt
    rw [hpff] at hlt'
    have hstart := h.wellFormed.start_lt_end (hm ▸ mem_append_cons_self : p ∈ m.order)
    exact ⟨hstart.le.trans (not_lt.mp hlt'), hlt⟩

theorem Packed.insert (h : m.Packed) (object : ℕ) (offset : BitVec 32) {start end_ : ℕ} (coalesced : Bool)
    (hok : ¬ m.Hides start end_) : (m.insert object offset start end_ coalesced).2.Packed := by
  rcases insert_cases h.wellFormed object offset start end_ coalesced with
    ⟨r, hint, -, hmem, -, hres⟩ | ⟨pre, suf, hint, hmem, hgap, ⟨pre', p, rfl, rfl, hres⟩ | hres⟩
  · rw [hres]
    exact h.saveHint hmem
  · rw [hres]
    exact (h.saveHint hmem).grown hgap
  · rw [hres]
    obtain ⟨e, he⟩ : ∃ e, (m.saveHint hint).newEntry object offset start end_ = e := ⟨_, rfl⟩
    obtain ⟨rfl, rfl, -⟩ : e.start = start ∧ e.end_ = end_ ∧ e.isAMap = false := by
      rw [← he]
      exact newEntry_spec ..
    rw [he]
    refine (h.saveHint hmem).addEntry hgap fun hides => hok ?_
    exact ⟨hides.firstFree, ⟨hides.free.lt, hides.free.bounds, hides.free.none⟩, hides.gap, hides.first⟩

end VmMap

end Bsd386.Vm
