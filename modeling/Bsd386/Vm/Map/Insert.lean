import Bsd386.Vm.Map.Pointwise
import Bsd386.Vm.Map.Space

/-!
# Insertion keeps the invariant

`MapInv` is the invariant of a map in a system of maps: it is well formed and counts its entries right,
and no entry refers to a sharing map. It is kept by the operations that act address by address, since it
can be read off what the map says (`MapInv.of_becomes`), and by insertion (`MapInv.insert`,
`MapInv.find`): a new entry lies in a gap (`Gap`), and so does the growth of the entry before it.
-/

namespace Bsd386.Vm

open List Lib Function

namespace VmMap

variable {m : VmMap} {pre suf : List ℕ}

/-- The invariant of each map. -/
structure MapInv (m : VmMap) : Prop where
  wellFormed : m.WellFormed
  counted : m.Counted
  noShared : ∀ e ∈ m.es, e.isAMap = false

theorem read_start (h : m.WellFormed) {e : MapEntry} (he : e ∈ m.es) :
    m.read e.start = some (e.attr e.start) := by
  obtain ⟨l1, l2, hl⟩ := append_of_mem he
  have hord := h.ordered
  rw [hl] at hord
  obtain ⟨-, hord2, hle⟩ := Ranges.ordered_append.mp hord
  have hnone : entryRanges.read l1 e.start = none :=
    Ranges.read_of_hi_le fun x hx => hle x hx e mem_cons_self
  unfold read
  rw [hl, Ranges.read_append, hnone, Option.none_or]
  exact Ranges.read_cons_of_mem ⟨le_rfl, hord2.head_lt⟩

theorem exists_of_read {a : ℕ} {v : Attr} (h : m.read a = some v) : ∃ e ∈ m.es, v = e.attr a := by
  obtain ⟨e, he, hv⟩ := exists_of_findSome?_eq_some h
  by_cases hc : entryRanges.lo e ≤ a ∧ a < entryRanges.hi e
  · rw [if_pos hc] at hv
    exact ⟨e, he, (Option.some.inj hv).symm⟩
  · rw [if_neg hc] at hv
    cases hv

theorem MapInv.of_becomes (h : m.MapInv) {m' : VmMap} {es : List MapEntry} (hb : Becomes m m' es)
    (hread : ∀ a v, m'.read a = some v → ∃ w, m.read a = some w ∧ v.isAMap = w.isAMap) : m'.MapInv := by
  refine ⟨hb.wellFormed, hb.counted h.counted, ?_⟩
  intro e he
  obtain ⟨w, hw, hew⟩ := hread _ _ (read_start hb.wellFormed he)
  obtain ⟨e', he', rfl⟩ := exists_of_read hw
  exact hew.trans (h.noShared e' he')

/-! ## The operations that act address by address -/

theorem MapInv.remove (h : m.MapInv) (start end_ : ℕ) : (m.remove start end_).MapInv := by
  refine h.of_becomes (delete_becomes h.wellFormed _ _).1 ?_
  intro a v hv
  have hread := (delete_becomes h.wellFormed (m.rangeCheck start end_).1 (m.rangeCheck start end_).2).2 a
  unfold VmMap.remove at hv
  rw [hread] at hv
  split_ifs at hv
  exact ⟨v, hv, rfl⟩

theorem MapInv.simplify (h : m.MapInv) (start : ℕ) : (m.simplify start).MapInv := by
  obtain ⟨hbec, hread⟩ := simplify_becomes h.wellFormed start
  refine h.of_becomes hbec fun a v hv => ?_
  rw [hread a] at hv
  exact ⟨v, hv, rfl⟩

theorem MapInv.clipFirst (h : m.MapInv) (start : ℕ) : (m.clipFirst start).2.MapInv := by
  obtain ⟨pre, suf, -, hdiv⟩ := clipFirst_spec h.wellFormed start
  refine h.of_becomes hdiv.becomes fun a v hv => ?_
  rw [hdiv.read a] at hv
  exact ⟨v, hv, rfl⟩

theorem MapInv.saveHint (h : m.MapInv) {p : ℕ} (hp : p ∈ 0 :: m.order) : (m.saveHint p).MapInv :=
  h.of_becomes (saveHint_becomes h.wellFormed hp) fun _ v hv => ⟨v, hv, rfl⟩

/-! ## New entries -/

theorem ordered_insert {es fs : List MapEntry} {e : MapEntry} (h : entryRanges.Ordered (es ++ fs))
    (hlt : e.start < e.end_) (hes : ∀ x ∈ es, x.end_ ≤ e.start) (hfs : ∀ x ∈ fs, e.end_ ≤ x.start) :
    entryRanges.Ordered (es ++ e :: fs) := by
  obtain ⟨hord1, hord2, hle⟩ := Ranges.ordered_append.mp h
  refine Ranges.ordered_append.mpr ⟨hord1, hord2.cons hlt hfs, ?_⟩
  intro x hx y hy
  rcases mem_cons.mp hy with rfl | hy
  · exact hes x hx
  · exact hle x hx y hy

theorem link_spec {e : MapEntry} (h : m.WellFormed) (hm : m.order = pre ++ suf) (hlt : e.start < e.end_)
    (hpre : ∀ p ∈ pre, (m.entry p).end_ ≤ e.start) (hsuf : ∀ p ∈ suf, e.end_ ≤ (m.entry p).start)
    (hbounds : m.minOffset ≤ e.start ∧ e.end_ ≤ m.maxOffset) :
    ((m.setEntry m.create e).link (pre.getLastD 0) m.create).WellFormed ∧
      ((m.setEntry m.create e).link (pre.getLastD 0) m.create).es =
        pre.map m.entry ++ e :: suf.map m.entry ∧
      ((m.setEntry m.create e).link (pre.getLastD 0) m.create).order = pre ++ m.create :: suf ∧
      ((m.setEntry m.create e).link (pre.getLastD 0) m.create).entry 0 = m.entry 0 := by
  obtain ⟨m', hm'⟩ : ∃ m', (m.setEntry m.create e).link (pre.getLastD 0) m.create = m' := ⟨_, rfl⟩
  rw [hm']
  have horder : m'.order = pre ++ m.create :: suf := by
    rw [← hm']
    exact link_order (m := m.setEntry m.create e) h.ring hm
  have hentry : m'.entry = update m.entry m.create e := by
    rw [← hm']
    rfl
  have hring : (0 :: m'.order).Nodup := by
    rw [horder]
    exact nodup_insert h.ring hm
  obtain ⟨hnpre, hnsuf⟩ := not_mem_of_nodup hring horder
  have hes : m'.es = pre.map m.entry ++ e :: suf.map m.entry := by
    rw [es_split horder, hentry, map_update_of_not_mem hnpre, map_update_of_not_mem hnsuf,
      update_self]
  have h0 : m'.entry 0 = m.entry 0 := by
    rw [hentry, update_of_ne (create_ne_zero m).symm]
  have hsub : 0 :: m.order ⊆ 0 :: m'.order := by
    rw [horder, hm]
    exact cons_subset_cons 0 ((sublist_cons_self m.create suf).append_left pre).subset
  have hord := h.ordered
  rw [es_append hm] at hord
  refine ⟨⟨hring, ?_, ?_, ?_, ?_⟩, hes, horder, h0⟩
  · rw [hes]
    exact ordered_insert hord hlt (forall_mem_map.mpr hpre) (forall_mem_map.mpr hsuf)
  · intro x hx
    unfold minOffset maxOffset at *
    rw [h0]
    rw [hes] at hx
    have hold := h.bounds
    rw [es_append hm] at hold
    rcases mem_append.mp hx with hx | hx
    · exact hold x (mem_append_left _ hx)
    · rcases mem_cons.mp hx with rfl | hx
      · exact hbounds
      · exact hold x (mem_append_right _ hx)
  · have hhint : m'.hint = m.hint := by
      rw [← hm']
      rfl
    rw [hhint]
    exact hsub h.hint
  · have hff : m'.firstFree = m.firstFree := by
      rw [← hm']
      rfl
    rw [hff]
    exact hsub h.firstFree

/-- `prev` ends before a new entry, and what is behind `prev` begins after it. -/
structure Gap (m : VmMap) (pre suf : List ℕ) (start end_ : ℕ) : Prop where
  order : m.order = pre ++ suf
  before : ∀ p ∈ pre, (m.entry p).end_ ≤ start
  behind : ∀ p ∈ suf, end_ ≤ (m.entry p).start
  lt : start < end_
  bounds : m.minOffset ≤ start ∧ end_ ≤ m.maxOffset

theorem addEntry_spec {e : MapEntry} (h : m.WellFormed) (hgap : Gap m pre suf e.start e.end_) :
    (m.addEntry (pre.getLastD 0) e).WellFormed ∧
      (m.addEntry (pre.getLastD 0) e).es = pre.map m.entry ++ e :: suf.map m.entry ∧
      (m.addEntry (pre.getLastD 0) e).order = pre ++ m.create :: suf ∧
      (m.addEntry (pre.getLastD 0) e).entry = Function.update m.entry m.create e ∧
      (m.addEntry (pre.getLastD 0) e).nentries = m.nentries + 1 ∧
      (m.addEntry (pre.getLastD 0) e).size = m.size + BitVec.ofNat 32 (e.end_ - e.start) := by
  obtain ⟨hw, hes, horder, -⟩ := link_spec h hgap.order hgap.lt hgap.before hgap.behind hgap.bounds
  unfold VmMap.addEntry
  dsimp only
  split_ifs
  · refine ⟨⟨hw.ring, hw.ordered, hw.bounds, hw.hint, ?_⟩, hes, horder, rfl, rfl, rfl⟩
    rw [horder]
    exact mem_cons_of_mem 0 mem_append_cons_self
  · exact ⟨⟨hw.ring, hw.ordered, hw.bounds, hw.hint, hw.firstFree⟩, hes, horder, rfl, rfl, rfl⟩

theorem MapInv.addEntry (h : m.MapInv) {e : MapEntry} (hgap : Gap m pre suf e.start e.end_)
    (hmap : e.isAMap = false) : (m.addEntry (pre.getLastD 0) e).MapInv := by
  obtain ⟨hw, hes, horder, -, hn, hsize⟩ := addEntry_spec h.wellFormed hgap
  refine ⟨hw, ⟨?_, ?_⟩, ?_⟩
  · rw [hn, h.counted.nentries, horder, hgap.order, length_append, length_append,
      length_cons]
    omega
  · have hsum : lengths (m.addEntry (pre.getLastD 0) e).es = lengths m.es + (e.end_ - e.start) := by
      rw [hes, es_append hgap.order, lengths_append, lengths_append, lengths_cons]
      omega
    rw [hsize, h.counted.size, hsum, BitVec.ofNat_add]
  · rw [hes]
    intro x hx
    have hold := h.noShared
    rw [es_append hgap.order] at hold
    rcases mem_append.mp hx with hx | hx
    · exact hold x (mem_append_left _ hx)
    · rcases mem_cons.mp hx with rfl | hx
      · exact hmap
      · exact hold x (mem_append_right _ hx)

/-- The map in which entry `p` goes on up to `end_`. Source: vm_map_insert -/
def grown (m : VmMap) (p end_ : ℕ) : VmMap :=
  { m.setEntry p { m.entry p with end_ := end_ } with
    size := m.size + BitVec.ofNat 32 (end_ - (m.entry p).end_) }

theorem grown_spec (h : m.WellFormed) {p end_ : ℕ} (hgap : Gap m (pre ++ [p]) suf (m.entry p).end_ end_) :
    (m.grown p end_).WellFormed ∧ (m.grown p end_).es =
      pre.map m.entry ++ { m.entry p with end_ := end_ } :: suf.map m.entry := by
  have hm : m.order = pre ++ p :: suf := by
    rw [hgap.order, append_assoc]
    rfl
  have hlt := h.start_lt_end (hm ▸ mem_append_cons_self : p ∈ m.order)
  have hes : (m.grown p end_).es =
      pre.map m.entry ++ { m.entry p with end_ := end_ } :: suf.map m.entry := setEntry_es h.ring hm
  have h0 : (m.grown p end_).entry 0 = m.entry 0 := setEntry_zero h.ring hm
  have hord := h.ordered
  rw [es_split hm] at hord
  have hbounds := h.bounds
  rw [es_split hm] at hbounds
  have hp := hbounds _ mem_append_cons_self
  refine ⟨⟨h.ring, ?_, ?_, h.hint, h.firstFree⟩, hes⟩
  · rw [hes]
    refine ordered_insert hord.remove (hlt.trans hgap.lt) ?_ ?_
    · exact forall_mem_map.mpr fun q hq => h.end_le_start hm hq mem_cons_self
    · exact forall_mem_map.mpr hgap.behind
  · intro x hx
    unfold minOffset maxOffset at *
    rw [h0]
    rw [hes] at hx
    rcases mem_append.mp hx with hx | hx
    · exact hbounds x (mem_append_left _ hx)
    · rcases mem_cons.mp hx with rfl | hx
      · exact ⟨hp.1, hgap.bounds.2⟩
      · exact hbounds x (mem_append_right _ (mem_cons_of_mem _ hx))

theorem MapInv.grown (h : m.MapInv) {p end_ : ℕ}
    (hgap : Gap m (pre ++ [p]) suf (m.entry p).end_ end_) : (m.grown p end_).MapInv := by
  have hm : m.order = pre ++ p :: suf := by
    rw [hgap.order, append_assoc]
    rfl
  obtain ⟨hw, hes⟩ := grown_spec h.wellFormed hgap
  have hlt := h.wellFormed.start_lt_end (hm ▸ mem_append_cons_self : p ∈ m.order)
  have hgrow := hgap.lt
  have hold := h.noShared
  rw [es_split hm] at hold
  refine ⟨hw, ⟨h.counted.nentries, ?_⟩, ?_⟩
  · have hsum : lengths (m.grown p end_).es = lengths m.es + (end_ - (m.entry p).end_) := by
      rw [hes, es_split hm, lengths_append, lengths_append, lengths_cons, lengths_cons]
      dsimp only
      omega
    have hsize : (m.grown p end_).size = m.size + BitVec.ofNat 32 (end_ - (m.entry p).end_) := rfl
    rw [hsize, h.counted.size, hsum, BitVec.ofNat_add]
  · rw [hes]
    intro x hx
    rcases mem_append.mp hx with hx | hx
    · exact hold x (mem_append_left _ hx)
    · rcases mem_cons.mp hx with rfl | hx
      · exact hold (m.entry p) mem_append_cons_self
      · exact hold x (mem_append_right _ (mem_cons_of_mem _ hx))

/-- Can something be mapped from `start` to `end_`? Source: vm_map_insert -/
structure Free (m : VmMap) (start end_ : ℕ) : Prop where
  lt : start < end_
  bounds : m.minOffset ≤ start ∧ end_ ≤ m.maxOffset
  none : ∀ a, start ≤ a → a < end_ → m.read a = Option.none

theorem Gap.free {start end_ : ℕ} (h : Gap m pre suf start end_) : m.Free start end_ := by
  refine ⟨h.lt, h.bounds, fun a hsa hae => ?_⟩
  unfold read
  rw [es_append h.order, Ranges.read_append, Ranges.read_of_hi_le, Option.none_or, Ranges.read_of_lt_lo]
  · exact forall_mem_map.mpr fun p hp => hae.trans_le (h.behind p hp)
  · exact forall_mem_map.mpr fun p hp => (h.before p hp).trans hsa

/-- **Insertion** fails and changes at most the hint, when the range is not free; or the entry before the
range grows, or a new entry is added behind it. -/
theorem insert_cases (h : m.WellFormed) (object : ℕ) (offset : BitVec 32) (start end_ : ℕ)
    (coalesced : Bool) :
    (∃ r hint, r ≠ .success ∧ hint ∈ 0 :: m.order ∧ ¬ m.Free start end_ ∧
      m.insert object offset start end_ coalesced = (r, m.saveHint hint)) ∨
    ∃ pre suf hint, hint ∈ 0 :: m.order ∧ Gap (m.saveHint hint) pre suf start end_ ∧
      ((∃ pre' p, pre = pre' ++ [p] ∧ (m.entry p).end_ = start ∧
        m.insert object offset start end_ coalesced = (.success, (m.saveHint hint).grown p end_)) ∨
      m.insert object offset start end_ coalesced = (.success, (m.saveHint hint).addEntry
        (pre.getLastD 0) ((m.saveHint hint).newEntry object offset start end_))) := by
  unfold VmMap.insert
  by_cases hrange : start < m.minOffset ∨ m.maxOffset < end_ ∨ end_ ≤ start
  · rw [if_pos hrange]
    refine .inl ⟨.invalidAddress, m.hint, by decide, h.hint, fun hfree => ?_, rfl⟩
    have hlt := hfree.lt
    have hbounds := hfree.bounds
    omega
  rw [if_neg hrange]
  obtain ⟨hmin, hmax, hlt⟩ : m.minOffset ≤ start ∧ end_ ≤ m.maxOffset ∧ start < end_ := by omega
  obtain ⟨pre, suf, hm, hpre, hint, hmem, hres⟩ := lookupEntry_cases h start
  have hw := (saveHint_becomes h hmem).wellFormed
  rcases hres with ⟨p, suf', rfl, hr, hin⟩ | ⟨hr, -, hsuf⟩
  · rw [hr]
    refine .inl ⟨.noSpace, hint, by decide, hmem, fun hfree => ?_, rfl⟩
    -- the start is mapped
    have hnone := hfree.none start le_rfl hlt
    unfold read at hnone
    rw [es_append hm, Ranges.read_append, Ranges.read_of_hi_le (forall_mem_map.mpr hpre),
      Option.none_or, map_cons, Ranges.read_cons_of_mem hin] at hnone
    cases hnone
  · rw [hr]
    dsimp only
    obtain ⟨m1, hm1⟩ : ∃ m1, m.saveHint hint = m1 := ⟨_, rfl⟩
    have horder1 : m1.order = pre ++ suf := hm1 ▸ hm
    have hentry1 : m1.entry = m.entry := by
      rw [← hm1]
      rfl
    rw [hm1] at hw ⊢
    have hnext : m1.next (pre.getLastD 0) = suf.headD 0 := next_eq hw.ring horder1
    rw [hnext]
    by_cases hspace : suf.headD 0 ≠ 0 ∧ (m1.entry (suf.headD 0)).start < end_
    · rw [if_pos hspace]
      refine .inl ⟨.noSpace, hint, by decide, hmem, fun hfree => ?_, by rw [hm1]⟩
      -- the start of the next entry is mapped
      cases suf with
      | nil => exact hspace.1 rfl
      | cons q suf =>
        rw [headD_cons, hentry1] at hspace
        have hq : m.entry q ∈ m.es := by
          rw [es_append hm]
          exact mem_append_cons_self
        have hread := read_start h hq
        rw [hfree.none _ (hsuf q mem_cons_self).le hspace.2] at hread
        cases hread
    · rw [if_neg hspace]
      have hbehind : ∀ p ∈ suf, end_ ≤ (m1.entry p).start := by
        cases suf with
        | nil => exact fun p hp => absurd hp not_mem_nil
        | cons q suf =>
          have hq0 : q ≠ 0 := ne_zero_of_mem hw.ring
            (horder1 ▸ mem_append_cons_self : q ∈ m1.order)
          rw [headD_cons] at hspace
          have hq : end_ ≤ (m1.entry q).start := not_lt.mp fun hc => hspace ⟨hq0, hc⟩
          intro p hp
          rcases mem_cons.mp hp with rfl | hp
          · exact hq
          · have hqe := hw.start_lt_end
              (horder1 ▸ mem_append_cons_self : q ∈ m1.order)
            exact (hq.trans hqe.le).trans (hw.end_le_start_of_cons horder1 hp)
      have hgap : Gap m1 pre suf start end_ := by
        refine ⟨horder1, ?_, hbehind, hlt, ?_⟩
        · rw [hentry1]
          exact hpre
        · unfold minOffset maxOffset
          rw [hentry1]
          exact ⟨hmin, hmax⟩
      refine .inr ⟨pre, suf, hint, hmem, hm1 ▸ hgap, ?_⟩
      rw [hm1]
      by_cases hext : object = 0 ∧ m1.extensible (pre.getLastD 0) start = true ∧ coalesced = true
      · rw [if_pos hext]
        have hx := hext.2.1
        unfold extensible at hx
        simp only [Bool.and_eq_true, decide_eq_true_eq] at hx
        obtain ⟨⟨⟨⟨⟨⟨⟨⟨hne, hend⟩, -⟩, -⟩, -⟩, -⟩, -⟩, -⟩, -⟩ := hx
        obtain ⟨pre', p, rfl⟩ : ∃ pre' p, pre = pre' ++ [p] := by
          rcases eq_nil_or_concat pre with rfl | ⟨init, q, rfl⟩
          · exact absurd rfl hne
          · exact ⟨init, q, concat_eq_append⟩
        rw [getLastD_concat, hentry1] at hend
        refine .inl ⟨pre', p, rfl, hend, ?_⟩
        rw [getLastD_concat]
        rfl
      · rw [if_neg hext]
        exact .inr rfl

theorem newEntry_spec (m : VmMap) (object : ℕ) (offset : BitVec 32) (start end_ : ℕ) :
    (m.newEntry object offset start end_).start = start ∧ (m.newEntry object offset start end_).end_ = end_ ∧
      (m.newEntry object offset start end_).isAMap = false := by
  unfold newEntry
  split_ifs
  · exact ⟨rfl, rfl, rfl⟩
  · exact ⟨rfl, rfl, rfl⟩

theorem MapInv.insert (h : m.MapInv) (object : ℕ) (offset : BitVec 32) (start end_ : ℕ)
    (coalesced : Bool) : (m.insert object offset start end_ coalesced).2.MapInv := by
  rcases insert_cases h.wellFormed object offset start end_ coalesced with
    ⟨r, hint, -, hmem, -, hres⟩ | ⟨pre, suf, hint, hmem, hgap, ⟨pre', p, rfl, rfl, hres⟩ | hres⟩
  · rw [hres]
    exact h.saveHint hmem
  · rw [hres]
    exact (h.saveHint hmem).grown hgap
  · rw [hres]
    obtain ⟨e, he⟩ : ∃ e, (m.saveHint hint).newEntry object offset start end_ = e := ⟨_, rfl⟩
    obtain ⟨rfl, rfl, hmap⟩ : e.start = start ∧ e.end_ = end_ ∧ e.isAMap = false := by
      rw [← he]
      exact newEntry_spec ..
    rw [he]
    exact (h.saveHint hmem).addEntry hgap hmap

theorem next_mem (m : VmMap) (p : ℕ) : m.next p ∈ 0 :: m.order := by
  unfold next
  cases htail : ((0 :: m.order).dropWhile (· ≠ p)).tail with
  | nil => exact mem_cons_self
  | cons q l =>
    have hq : q ∈ ((0 :: m.order).dropWhile (· ≠ p)).tail := by
      rw [htail]
      exact mem_cons_self
    exact (dropWhile_sublist _).subset (mem_of_mem_tail hq)

theorem findLoop_mem {length n start entry : ℕ} {r : ℕ × ℕ} (hmem : entry ∈ 0 :: m.order)
    (h : m.findLoop length n start entry = some r) : r.2 ∈ 0 :: m.order := by
  induction n generalizing start entry with
  | zero => cases h
  | succ n ih =>
    unfold findLoop at h
    dsimp only at h
    split_ifs at h with h1 h2
    · rw [← Option.some.inj h]
      exact hmem
    · exact ih (next_mem m entry) h

theorem MapInv.findFirst (h : m.MapInv) (start : ℕ) :
    (m.findFirst start).2.2.MapInv ∧ (m.findFirst start).2.1 ∈ 0 :: (m.findFirst start).2.2.order := by
  unfold VmMap.findFirst
  by_cases hmin : start = m.minOffset
  · rw [if_pos hmin]
    split_ifs
    · exact ⟨h, h.wellFormed.firstFree⟩
    · exact ⟨h, h.wellFormed.firstFree⟩
  rw [if_neg hmin]
  obtain ⟨pre, suf, hm, -, hint, hmem, hres⟩ := lookupEntry_cases h.wellFormed start
  have h1 := h.saveHint hmem
  rcases hres with ⟨p, suf', rfl, hr, -⟩ | ⟨hr, -⟩
  · have hin : p ∈ m.order := by
      rw [hm]
      exact mem_append_cons_self
    rw [hr]
    exact ⟨h1, mem_cons_of_mem 0 hin⟩
  have hin : pre.getLastD 0 ∈ 0 :: m.order := by
    rw [hm]
    exact cons_subset_cons 0 (subset_append_left _ _) (getLastD_mem pre)
  rw [hr]
  exact ⟨h1, hin⟩

theorem MapInv.find (h : m.MapInv) (object : ℕ) (offset : BitVec 32) (addr length : ℕ)
    (findSpace coalesced : Bool) :
    (m.find object offset addr length findSpace coalesced).2.2.MapInv := by
  unfold VmMap.find
  cases findSpace with
  | false => exact h.insert _ _ _ _ _
  | true =>
    rw [if_pos rfl]
    dsimp only
    obtain ⟨start, hstart⟩ : ∃ start, (if addr < m.minOffset then m.minOffset else addr) = start :=
      ⟨_, rfl⟩
    rw [hstart]
    by_cases hmax : m.maxOffset < start
    · rw [if_pos hmax]
      exact h
    rw [if_neg hmax]
    obtain ⟨h1, hmem⟩ := h.findFirst start
    cases hloop : (m.findFirst start).2.2.findLoop length ((m.findFirst start).2.2.order.length + 1)
        (m.findFirst start).1 (m.findFirst start).2.1 with
    | none => exact h1
    | some r => exact (h1.saveHint (findLoop_mem hmem hloop)).insert _ _ _ _ _

end VmMap

end Bsd386.Vm
