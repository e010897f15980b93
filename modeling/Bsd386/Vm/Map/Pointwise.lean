import Bsd386.Vm.Map.Loops

/-!
# The operations on a map act address by address

Reading a map as a partial function from addresses, removal, protection and inheritance change it in
their range and nowhere else, and clipping, merging and lookups do not change it. The proofs combine
what the loops do with the laws of `Lib.Ranges`.
-/

namespace Bsd386.Vm

open List Lib Function

namespace VmMap

variable {m : VmMap}

/-! ## Removal -/

theorem delete_becomes (h : m.WellFormed) (start end_ : ℕ) :
    Becomes m (m.delete start end_) (m.delete start end_).es ∧
      ∀ a, (m.delete start end_).read a = if start ≤ a ∧ a < end_ then none else m.read a := by
  obtain ⟨pre, suf, hfirst, hhint, hdiv⟩ := deleteFirst_spec h start
  unfold delete
  dsimp only
  rw [hfirst]
  obtain ⟨m1, hm1⟩ : ∃ m1, (m.deleteFirst start).2 = m1 := ⟨_, rfl⟩
  rw [hm1] at hhint hdiv ⊢
  have hw := hdiv.becomes.wellFormed
  have hprev : m1.prev (suf.headD 0) = pre.getLastD 0 := prev_eq hw.ring hdiv.order
  have hsub : 0 :: pre ⊆ 0 :: m1.order := by
    rw [hdiv.order]
    exact cons_subset_cons 0 (subset_append_left _ _)
  -- `first_free` does not lead into the range any more
  obtain ⟨m2, hm2⟩ : ∃ m2, (if start ≤ (m1.entry m1.firstFree).start then
      { m1 with firstFree := m1.prev (suf.headD 0) } else m1) = m2 := ⟨_, rfl⟩
  have hm2' : Becomes m1 m2 m1.es ∧ m2.order = pre ++ suf ∧ m2.entry = m1.entry ∧
      m2.hint ∈ 0 :: pre ∧ m2.firstFree ∈ 0 :: pre := by
    by_cases hff : start ≤ (m1.entry m1.firstFree).start
    · rw [if_pos hff, hprev] at hm2
      rw [← hm2]
      exact ⟨⟨⟨hw.ring, hw.ordered, hw.bounds, hw.hint, hsub (getLastD_mem pre)⟩, rfl, rfl, rfl,
        fun hc => ⟨hc.nentries, hc.size⟩⟩, hdiv.order, rfl, hhint, getLastD_mem pre⟩
    rw [if_neg hff] at hm2
    rw [← hm2]
    refine ⟨Becomes.refl hw, hdiv.order, rfl, hhint, ?_⟩
    have hmem := hw.firstFree
    rw [hdiv.order, ← cons_append] at hmem
    rcases mem_append.mp hmem with hmem | hmem
    · exact hmem
    · exact absurd (hdiv.behind _ hmem) hff
  rw [hm2]
  obtain ⟨hbec, horder, hentry, hhint2, hff2⟩ := hm2'
  have hlen : suf.length < m2.order.length + 1 := by
    rw [horder, length_append]
    omega
  have hloop := deleteLoop_becomes (b := end_) hbec.wellFormed horder hhint2 hff2 hlen
  refine ⟨?_, ?_⟩
  · have htrans := (hdiv.becomes.trans hbec).trans hloop
    exact ⟨htrans.wellFormed, rfl, htrans.header, htrans.isMainMap, htrans.counted⟩
  · intro a
    have hsufOrd : entryRanges.Ordered (suf.map m1.entry) := by
      have hord := hw.ordered
      rw [es_append hdiv.order] at hord
      exact (Ranges.ordered_append.mp hord).2.1
    rw [← hdiv.read a]
    unfold read
    rw [hloop.es, hentry, es_append hdiv.order]
    refine Ranges.read_append_change (g := fun _ => none) rfl ?_ ?_ (Ranges.read_dropTo hsufOrd)
    · exact forall_mem_map.mpr hdiv.before
    · exact forall_mem_map.mpr hdiv.behind

theorem remove_read (h : m.WellFormed) (start end_ a : ℕ) :
    (m.remove start end_).read a =
      if (m.rangeCheck start end_).1 ≤ a ∧ a < (m.rangeCheck start end_).2 then none else m.read a :=
  (delete_becomes h _ _).2 a

/-! ## Changes in place -/

section change

variable {f : MapEntry → MapEntry} {γ : Type} {π : Attr → γ} {g : γ → γ}

section

variable {start end_ n : ℕ} (hlo : ∀ e, (f e).start = e.start) (hhi : ∀ e, (f e).end_ = e.end_)
include hlo hhi

theorem changeLoop_read {pre suf : List ℕ} (hval : ∀ e a, π ((f e).attr a) = g (π (e.attr a)))
    (h : m.WellFormed) (hm : m.order = pre ++ suf) (hpre : ∀ p ∈ pre, (m.entry p).end_ ≤ start)
    (hsuf : ∀ p ∈ suf, start ≤ (m.entry p).start) (hn : suf.length < n) (a : ℕ) :
    ((changeLoop f end_ n m (suf.headD 0)).read a).map π =
      if start ≤ a ∧ a < end_ then ((m.read a).map π).map g else (m.read a).map π := by
  have hloop := changeLoop_becomes (b := end_) hlo hhi h hm hn
  have hsufOrd : (entryRanges.map π).Ordered (suf.map m.entry) := by
    have hord := h.ordered
    rw [es_append hm] at hord
    have hsub := (Ranges.ordered_append.mp hord).2.1
    exact ⟨hsub.nonempty, hsub.sorted⟩
  unfold read
  rw [hloop.es, es_append hm, ← Ranges.read_map, ← Ranges.read_map, ← Ranges.editTo_map π]
  refine Ranges.read_append_change (g := Option.map g) rfl ?_ ?_
    (Ranges.read_editTo hlo hhi hval hsufOrd)
  · exact forall_mem_map.mpr hpre
  · exact forall_mem_map.mpr hsuf

theorem changeFrom_read (hval : ∀ e a, π ((f e).attr a) = g (π (e.attr a))) (h : m.WellFormed)
    (start end_ a : ℕ) :
    ((changeFrom f end_ (m.clipFirst start)).read a).map π =
      if start ≤ a ∧ a < end_ then ((m.read a).map π).map g else (m.read a).map π := by
  obtain ⟨pre, suf, hfirst, hdiv⟩ := clipFirst_spec h start
  have hlen : suf.length < (m.clipFirst start).2.order.length + 1 := by
    rw [hdiv.order, length_append]
    omega
  unfold changeFrom
  rw [hfirst, changeLoop_read hlo hhi hval hdiv.becomes.wellFormed hdiv.order hdiv.before hdiv.behind hlen,
    hdiv.read a]

theorem change_spec {g : Attr → Attr} (hval : ∀ e a, (f e).attr a = g (e.attr a)) (h : m.WellFormed)
    (start end_ : ℕ) :
    Becomes m (changeFrom f end_ (m.clipFirst start)) (changeFrom f end_ (m.clipFirst start)).es ∧
    ∀ a, (changeFrom f end_ (m.clipFirst start)).read a =
      if start ≤ a ∧ a < end_ then (m.read a).map g else m.read a := by
  refine ⟨?_, ?_⟩
  · obtain ⟨pre, suf, hfirst, hdiv⟩ := clipFirst_spec h start
    have hlen : suf.length < (m.clipFirst start).2.order.length + 1 := by
      rw [hdiv.order, length_append]
      omega
    have hloop := changeLoop_becomes (b := end_) hlo hhi hdiv.becomes.wellFormed hdiv.order hlen
    rw [← hfirst] at hloop
    have htrans := hdiv.becomes.trans hloop
    exact ⟨htrans.wellFormed, rfl, htrans.header, htrans.isMainMap, htrans.counted⟩
  · intro a
    simpa using changeFrom_read (π := id) hlo hhi hval h start end_ a

end

end change

/-- The new protection at an address. Source: vm_map_protect -/
def protectAttr (newProt : BitVec 32) (setMax : Bool) (v : Attr) : Attr :=
  if setMax then { v with maxProtection := newProt, protection := newProt &&& v.protection }
  else { v with protection := newProt }

theorem protectEntry_spec (newProt : BitVec 32) (setMax : Bool) (e : MapEntry) :
    (protectEntry newProt setMax e).start = e.start ∧ (protectEntry newProt setMax e).end_ = e.end_ ∧
      ∀ a, (protectEntry newProt setMax e).attr a = protectAttr newProt setMax (e.attr a) := by
  cases setMax with
  | false => exact ⟨rfl, rfl, fun _ => rfl⟩
  | true => exact ⟨rfl, rfl, fun _ => rfl⟩

theorem protectCheck_ne_success {newProt : BitVec 32} {end_ n cur : ℕ} {r : KernReturn}
    (h : m.protectCheck newProt end_ n cur = some r) : r ≠ .success := by
  induction n generalizing cur with
  | zero => cases h
  | succ n ih =>
    unfold protectCheck at h
    split_ifs at h
    · rw [← Option.some.inj h]
      exact fun hc => by cases hc
    · rw [← Option.some.inj h]
      exact fun hc => by cases hc
    · exact ih h

theorem protect_spec (h : m.WellFormed) (start end_ : ℕ) (newProt : BitVec 32) (setMax : Bool) :
    Becomes m (m.protect start end_ newProt setMax).2 (m.protect start end_ newProt setMax).2.es ∧
      ∀ a, (m.protect start end_ newProt setMax).2.read a =
        if (m.protect start end_ newProt setMax).1 = .success ∧
            (m.rangeCheck start end_).1 ≤ a ∧ a < (m.rangeCheck start end_).2 then
          (m.read a).map (protectAttr newProt setMax)
        else m.read a := by
  obtain ⟨pre, suf, hfirst, hdiv⟩ := clipFirst_spec h (m.rangeCheck start end_).1
  obtain ⟨res, hres⟩ : ∃ res, m.protect start end_ newProt setMax = res := ⟨_, rfl⟩
  rw [hres]
  unfold protect at hres
  dsimp only at hres
  cases hcheck : (m.clipFirst (m.rangeCheck start end_).1).2.protectCheck newProt (m.rangeCheck start end_).2
      ((m.clipFirst (m.rangeCheck start end_).1).2.order.length + 1)
      (m.clipFirst (m.rangeCheck start end_).1).1 with
  | some r =>
    rw [hcheck] at hres
    rw [← hres]
    refine ⟨hdiv.becomes, ?_⟩
    intro a
    rw [if_neg fun hc => protectCheck_ne_success hcheck hc.1]
    exact hdiv.read a
  | none =>
    rw [hcheck] at hres
    rw [← hres]
    obtain ⟨hbec, hread⟩ := change_spec (f := protectEntry newProt setMax)
      (fun e => (protectEntry_spec newProt setMax e).1)
      (fun e => (protectEntry_spec newProt setMax e).2.1)
      (fun e => (protectEntry_spec newProt setMax e).2.2) h (m.rangeCheck start end_).1
      (m.rangeCheck start end_).2
    refine ⟨hbec, ?_⟩
    intro a
    rw [hread a]
    by_cases hc : (m.rangeCheck start end_).1 ≤ a ∧ a < (m.rangeCheck start end_).2
    · rw [if_pos hc, if_pos ⟨rfl, hc⟩]
    · rw [if_neg hc, if_neg fun hc' => hc hc'.2]

theorem inherit_spec (h : m.WellFormed) (start end_ : ℕ) (newInheritance : ℤ) :
    Becomes m (m.inherit start end_ newInheritance).2 (m.inherit start end_ newInheritance).2.es ∧
      ∀ a, (m.inherit start end_ newInheritance).2.read a =
        if (m.inherit start end_ newInheritance).1 = .success ∧
            (m.rangeCheck start end_).1 ≤ a ∧ a < (m.rangeCheck start end_).2 then
          (m.read a).map fun v => { v with inheritance := newInheritance }
        else m.read a := by
  unfold inherit
  by_cases hok : newInheritance = vmInheritNone ∨ newInheritance = vmInheritCopy ∨
      newInheritance = vmInheritShare
  · rw [if_pos hok]
    obtain ⟨hbec, hread⟩ := change_spec (f := fun e => { e with inheritance := newInheritance })
      (g := fun v => { v with inheritance := newInheritance }) (fun _ => rfl) (fun _ => rfl)
      (fun _ _ => rfl) h (m.rangeCheck start end_).1 (m.rangeCheck start end_).2
    refine ⟨hbec, ?_⟩
    intro a
    refine (hread a).trans ?_
    by_cases hc : (m.rangeCheck start end_).1 ≤ a ∧ a < (m.rangeCheck start end_).2
    · rw [if_pos hc, if_pos ⟨rfl, hc⟩]
    · rw [if_neg hc, if_neg fun hc' => hc hc'.2]
  · rw [if_neg hok]
    refine ⟨Becomes.refl h, fun a => (if_neg fun hc => ?_).symm⟩
    cases hc.1

/-! ## Checking -/

theorem checkLoop_eq {pre suf : List ℕ} (hring : (0 :: m.order).Nodup) (hm : m.order = pre ++ suf)
    {n start end_ : ℕ} {protection : BitVec 32} (hn : suf.length < n) :
    m.checkLoop end_ protection n start (suf.headD 0) =
      entryRanges.covered (fun e => decide (e.protection &&& protection = protection)) end_ start
        (suf.map m.entry) := by
  induction suf generalizing pre n start with
  | nil =>
    obtain ⟨k, rfl⟩ : ∃ k, n = k + 1 := ⟨n - 1, by omega⟩
    unfold checkLoop
    rw [headD_nil, map_nil]
    unfold Ranges.covered
    by_cases hlt : start < end_
    · rw [if_pos hlt, if_pos rfl, decide_eq_false (not_le.mpr hlt)]
    · rw [if_neg hlt, decide_eq_true (not_lt.mp hlt)]
  | cons p suf ih =>
    obtain ⟨k, rfl⟩ : ∃ k, n = k + 1 := ⟨n - 1, by omega⟩
    have hne := ne_zero_of_mem hring (hm ▸ mem_append_cons_self : p ∈ m.order)
    have hm' : m.order = (pre ++ [p]) ++ suf := hm.trans (append_cons pre p suf)
    unfold checkLoop
    rw [headD_cons, map_cons]
    unfold Ranges.covered
    by_cases hlt : start < end_
    · rw [if_pos hlt, if_neg hne, if_neg (not_le.mpr hlt)]
      by_cases hgap : start < (m.entry p).start
      · rw [if_pos hgap, if_pos (show start < entryRanges.lo (m.entry p) from hgap)]
      rw [if_neg hgap, if_neg (show ¬ start < entryRanges.lo (m.entry p) from hgap)]
      by_cases hprot : (m.entry p).protection &&& protection = protection
      · rw [if_neg (not_not.mpr hprot), if_pos (decide_eq_true hprot), next_of_mem hring hm,
          ih hm' (Nat.succ_lt_succ_iff.mp hn)]
        rfl
      · rw [if_pos hprot, if_neg fun hc => hprot (of_decide_eq_true hc)]
    · rw [if_neg hlt, if_pos (not_lt.mp hlt)]

theorem checkProtection_iff (h : m.WellFormed) {start end_ : ℕ} (hlt : start < end_)
    (protection : BitVec 32) :
    (m.checkProtection start end_ protection).1 = true ↔
      ∀ a, start ≤ a → a < end_ → ∃ v ∈ m.read a, v.protection &&& protection = protection := by
  obtain ⟨pre, suf, hm, hpre, hint, -, hres⟩ := lookupEntry_cases h start
  have hpreRead : ∀ a, start ≤ a → m.read a = entryRanges.read (suf.map m.entry) a := by
    intro a ha
    unfold read
    rw [es_append hm, Ranges.read_append, Ranges.read_of_hi_le, Option.none_or]
    exact forall_mem_map.mpr fun p hp => (hpre p hp).trans ha
  unfold checkProtection
  rcases hres with ⟨p, suf', rfl, hr, hb⟩ | ⟨hr, -, hsuf⟩
  · rw [hr]
    dsimp only
    have hlen : (p :: suf').length < (m.saveHint hint).order.length + 1 := by
      have hl : (m.saveHint hint).order = pre ++ p :: suf' := hm
      rw [hl, length_append]
      omega
    have hring1 : (0 :: (m.saveHint hint).order).Nodup := h.ring
    have hm1 : (m.saveHint hint).order = pre ++ p :: suf' := hm
    have hloop : (m.saveHint hint).checkLoop end_ protection ((m.saveHint hint).order.length + 1) start p =
        entryRanges.covered (fun e => decide (e.protection &&& protection = protection)) end_ start
          ((p :: suf').map m.entry) := checkLoop_eq hring1 hm1 hlen
    have hsufOrd : entryRanges.Ordered ((p :: suf').map m.entry) := by
      have hord := h.ordered
      rw [es_append hm] at hord
      exact (Ranges.ordered_append.mp hord).2.1
    have hbelow : ∀ e ∈ (p :: suf').map m.entry, start < entryRanges.hi e := by
      refine forall_mem_map.mpr fun q hq => ?_
      rcases mem_cons.mp hq with rfl | hq
      · exact hb.2
      have hle := h.end_le_start_of_cons hm hq
      have hne := h.start_lt_end (p := q)
        (hm ▸ mem_append_right _ (mem_cons_of_mem p hq) : q ∈ m.order)
      have hhi : entryRanges.hi (m.entry q) = (m.entry q).end_ := rfl
      rw [hhi]
      omega
    have hcov := Ranges.covered_iff (a := start) (b := end_)
      (P := fun e : MapEntry => decide (e.protection &&& protection = protection))
      (Q := fun v : Attr => v.protection &&& protection = protection)
      (fun e x => decide_eq_true_iff) hsufOrd hbelow
    rw [hloop]
    refine hcov.trans (forall_congr' fun a => forall_congr' fun ha => ?_)
    rw [hpreRead a ha]
  · rw [hr]
    constructor
    · intro hf
      cases hf
    · intro hall
      obtain ⟨v, hv, -⟩ := hall start le_rfl hlt
      rw [hpreRead start le_rfl, Ranges.read_of_lt_lo (forall_mem_map.mpr hsuf)] at hv
      cases hv

/-! ## Merging -/

section merge

variable {pre suf : List ℕ} {x y gone k : ℕ}

theorem absorb_becomes {M : MapEntry} {b : ℕ} (h : m.WellFormed)
    (hm : m.order = pre ++ x :: y :: suf) (hx : m.entry x = entryRanges.front M b)
    (hy : m.entry y = entryRanges.back M b) (hk : k = x ∧ gone = y ∨ k = y ∧ gone = x) :
    Becomes m (m.absorb gone k M) (m.absorb gone k M).es ∧
      (∀ a, (m.absorb gone k M).read a = m.read a) ∧
      (m.absorb gone k M).order = pre ++ k :: suf ∧ (m.absorb gone k M).entry k = M := by
  have hunlink : (m.unlink gone).order = pre ++ k :: suf := by
    rcases hk with ⟨rfl, rfl⟩ | ⟨rfl, rfl⟩
    · have hm' : m.order = (pre ++ [k]) ++ gone :: suf := by
        rw [hm, append_assoc]
        rfl
      rw [unlink_order h.ring hm', append_assoc]
      rfl
    · exact unlink_order h.ring hm
  -- the hint for free space is one of the entries that stay
  have hffmem : ∀ q, q ∈ 0 :: m.order → q ≠ gone → q ∈ 0 :: (m.unlink gone).order := by
    intro q hq hne
    rcases mem_cons.mp hq with rfl | hq
    · exact mem_cons_self
    · exact mem_cons_of_mem 0 ((mem_erase_of_ne hne).mpr hq)
  obtain ⟨m', hm'⟩ : ∃ m', m.absorb gone k M = m' := ⟨_, rfl⟩
  rw [hm']
  have hspec : m'.order = pre ++ k :: suf ∧ m'.entry = update m.entry k M ∧ m'.hint = k ∧
      m'.firstFree ∈ 0 :: m'.order ∧ m'.isMainMap = m.isMainMap ∧ m'.nentries = m.nentries - 1 ∧
      m'.size = m.size := by
    rw [← hm']
    unfold absorb
    by_cases hff : m.firstFree = gone
    · rw [if_pos hff]
      refine ⟨hunlink, rfl, rfl, ?_, rfl, rfl, rfl⟩
      refine mem_cons_of_mem 0 ?_
      exact hunlink ▸ mem_append_cons_self
    · rw [if_neg hff]
      exact ⟨hunlink, rfl, rfl, hffmem _ h.firstFree hff, rfl, rfl, rfl⟩
  obtain ⟨horder, hentry, hhint, hff, hmain, hn, hsize⟩ := hspec
  have hesm : m.es = pre.map m.entry ++ entryRanges.front M b :: entryRanges.back M b ::
      suf.map m.entry := by
    rw [es_split hm, map_cons, hx, hy]
  have hring := h.ring
  rw [hm] at hring
  have hsub : (k :: suf).Sublist (x :: y :: suf) := by
    rcases hk with ⟨rfl, -⟩ | ⟨rfl, -⟩
    · exact (sublist_cons_self y suf).cons_cons k
    · exact sublist_cons_self x _
  have hring' : (0 :: m'.order).Nodup := by
    rw [horder]
    exact hring.sublist ((hsub.append_left pre).cons_cons 0)
  have hkmem : k ∉ pre ∧ k ∉ suf := not_mem_of_nodup hring' horder
  have hne := ne_zero_of_mem hring' (horder ▸ mem_append_cons_self : k ∈ m'.order)
  have hes : m'.es = pre.map m.entry ++ M :: suf.map m.entry := by
    rw [es_split horder, hentry, map_update_of_not_mem hkmem.1, map_update_of_not_mem hkmem.2,
      update_self]
  have hord := h.ordered
  rw [hesm] at hord
  have hbounds := h.bounds
  rw [hesm] at hbounds
  have hfront := hbounds _ mem_append_cons_self
  have hback := hbounds _ (mem_append_right _ (mem_cons_of_mem _ mem_cons_self))
  have hb : M.start ≤ b ∧ b ≤ M.end_ :=
    ⟨(hord.nonempty _ mem_append_cons_self).le,
      (hord.nonempty _ (mem_append_right _ (mem_cons_of_mem _ mem_cons_self))).le⟩
  have h0 : m'.entry 0 = m.entry 0 := by
    rw [hentry, update_of_ne hne.symm]
  refine ⟨⟨⟨hring', ?_, ?_, ?_, hff⟩, rfl, h0, hmain, ?_⟩, ?_, horder, ?_⟩
  · rw [hes]
    exact hord.join
  · intro e he
    unfold minOffset maxOffset at *
    rw [h0]
    rw [hes] at he
    rcases mem_append.mp he with he | he
    · exact hbounds e (mem_append_left _ he)
    · rcases mem_cons.mp he with rfl | he
      · exact ⟨hfront.1, hback.2⟩
      · exact hbounds e (mem_append_right _ (mem_cons_of_mem _ (mem_cons_of_mem _ he)))
  · rw [hhint, horder]
    exact mem_cons_of_mem 0 mem_append_cons_self
  · intro hc
    refine ⟨?_, ?_⟩
    · rw [hn, hc.nentries, horder, hm, length_append, length_append, length_cons,
        length_cons, length_cons]
      omega
    · have hsum : lengths m'.es = lengths m.es := by
        rw [hes, hesm, lengths_append, lengths_append, lengths_cons, lengths_cons, lengths_cons]
        have h1 : (entryRanges.front M b).end_ - (entryRanges.front M b).start = b - M.start := rfl
        have h2 : (entryRanges.back M b).end_ - (entryRanges.back M b).start = M.end_ - b := rfl
        omega
      rw [hsize, hsum, hc.size]
  · intro a
    unfold read
    rw [hes, hesm]
    exact (Ranges.read_split hb).symm
  · rw [hentry, update_self]

theorem parts_of_mergeable {p e : MapEntry} (h : mergeable p e = true) (hmap : e.isAMap = false)
    (hsub : e.isSubMap = false) (hadj : p.end_ = e.start) :
    p = entryRanges.front { p with end_ := e.end_ } e.start ∧
      e = entryRanges.back { p with end_ := e.end_ } e.start ∧
      { e with start := p.start, offset := p.offset } = ({ p with end_ := e.end_ } : MapEntry) := by
  unfold mergeable at h
  simp only [Bool.and_eq_true, decide_eq_true_eq, Bool.not_eq_true'] at h
  obtain ⟨⟨⟨⟨⟨⟨⟨⟨⟨hpm, hps⟩, hobj⟩, hoff⟩, hprot⟩, hmax⟩, hinh⟩, hwire⟩, hcow⟩, hneeds⟩ := h
  refine ⟨?_, ?_, ?_⟩
  · rw [← hadj]
    rfl
  · rw [hadj] at hoff
    cases e
    cases p
    simp only at *
    subst_vars
    rfl
  · cases e
    cases p
    subst_vars
    rfl

theorem mergePrev_cases {e start : ℕ} (h : m.WellFormed) (he : e ∈ m.order)
    (hstart : (m.entry e).start ≤ start) (hmap : (m.entry e).isAMap = false)
    (hsub : (m.entry e).isSubMap = false) : m.mergePrev start e = m ∨
      ∃ pre p suf M b, m.order = pre ++ p :: e :: suf ∧ m.entry p = entryRanges.front M b ∧
        m.entry e = entryRanges.back M b ∧ m.mergePrev start e = m.absorb p e M := by
  obtain ⟨pre, suf, hm⟩ := append_of_mem he
  have hprev : m.prev e = pre.getLastD 0 := prev_of_mem h.ring hm
  obtain ⟨p, hp⟩ : ∃ p, m.prev e = p := ⟨_, rfl⟩
  unfold mergePrev
  rw [hp]
  by_cases hc : p ≠ 0 ∧ (m.entry p).end_ = start ∧ mergeable (m.entry p) (m.entry e) = true
  · rw [if_pos hc]
    obtain ⟨hp0, hend, hmerge⟩ := hc
    -- the previous entry is the last one before `e`
    obtain ⟨pre', rfl⟩ : ∃ pre', pre = pre' ++ [p] := by
      rcases eq_nil_or_concat pre with rfl | ⟨init, q, rfl⟩
      · exact absurd (hp.symm.trans hprev) hp0
      · rw [concat_eq_append] at hprev ⊢
        rw [getLastD_concat] at hprev
        exact ⟨init, by rw [← hp, hprev]⟩
    have hm' : m.order = pre' ++ p :: e :: suf := by
      rw [hm, append_assoc]
      rfl
    have hadj : (m.entry p).end_ = (m.entry e).start := by
      have hle := h.end_le_start_of_cons hm' mem_cons_self
      omega
    obtain ⟨hfront, hback, hM⟩ := parts_of_mergeable hmerge hmap hsub hadj
    rw [hM]
    exact .inr ⟨pre', p, suf, _, _, hm', hfront, hback, rfl⟩
  · rw [if_neg hc]
    exact .inl rfl

theorem mergeNext_cases {e : ℕ} (h : m.WellFormed) (he : e ∈ m.order) : m.mergeNext e = m ∨
    ∃ pre n suf M b, m.order = pre ++ e :: n :: suf ∧ m.entry e = entryRanges.front M b ∧
      m.entry n = entryRanges.back M b ∧ m.mergeNext e = m.absorb n e M := by
  obtain ⟨pre, suf, hm⟩ := append_of_mem he
  unfold mergeNext
  rw [next_of_mem h.ring hm]
  by_cases hc : suf.headD 0 ≠ 0 ∧ (m.entry (suf.headD 0)).start = (m.entry e).end_ ∧
      (m.entry (suf.headD 0)).isAMap = false ∧ (m.entry (suf.headD 0)).isSubMap = false ∧
      mergeable (m.entry e) (m.entry (suf.headD 0)) = true
  · rw [if_pos hc]
    obtain ⟨h0, hadj, hmap, hsub, hmerge⟩ := hc
    cases suf with
    | nil => exact absurd rfl h0
    | cons n suf =>
      rw [headD_cons] at hadj hmap hsub hmerge ⊢
      obtain ⟨hfront, hback, -⟩ := parts_of_mergeable hmerge hmap hsub hadj.symm
      exact .inr ⟨pre, n, suf, _, _, hm, hfront, hback, rfl⟩
  · rw [if_neg hc]
    exact .inl rfl

theorem mergePrev_becomes {e start : ℕ} (h : m.WellFormed) (he : e ∈ m.order)
    (hstart : (m.entry e).start ≤ start) (hmap : (m.entry e).isAMap = false)
    (hsub : (m.entry e).isSubMap = false) :
    Becomes m (m.mergePrev start e) (m.mergePrev start e).es ∧
      (∀ a, (m.mergePrev start e).read a = m.read a) ∧ e ∈ (m.mergePrev start e).order := by
  rcases mergePrev_cases h he hstart hmap hsub with hsame | ⟨pre, p, suf, M, b, hm, hfront, hback, heq⟩
  · rw [hsame]
    exact ⟨Becomes.refl h, fun _ => rfl, he⟩
  rw [heq]
  obtain ⟨hbec, hread, horder, -⟩ := absorb_becomes h hm hfront hback (.inr ⟨rfl, rfl⟩)
  refine ⟨hbec, hread, ?_⟩
  rw [horder]
  exact mem_append_cons_self

theorem mergeNext_becomes {e : ℕ} (h : m.WellFormed) (he : e ∈ m.order) :
    Becomes m (m.mergeNext e) (m.mergeNext e).es ∧ ∀ a, (m.mergeNext e).read a = m.read a := by
  rcases mergeNext_cases h he with hsame | ⟨pre, n, suf, M, b, hm, hfront, hback, heq⟩
  · rw [hsame]
    exact ⟨Becomes.refl h, fun _ => rfl⟩
  · rw [heq]
    obtain ⟨hbec, hread, -, -⟩ := absorb_becomes h hm hfront hback (.inl ⟨rfl, rfl⟩)
    exact ⟨hbec, hread⟩

theorem simplify_becomes (h : m.WellFormed) (start : ℕ) :
    Becomes m (m.simplify start) (m.simplify start).es ∧ ∀ a, (m.simplify start).read a = m.read a := by
  unfold simplify
  by_cases hmain : m.isMainMap = false
  · rw [if_pos hmain]
    exact ⟨Becomes.refl h, fun _ => rfl⟩
  rw [if_neg hmain]
  obtain ⟨pre, suf, hm, -, hint, hmem, hres⟩ := lookupEntry_cases h start
  have hbec := saveHint_becomes h hmem
  rcases hres with ⟨e, suf', rfl, hr, hb⟩ | ⟨hr, -⟩
  · rw [hr]
    dsimp only
    by_cases hsh : (((m.saveHint hint).entry e).isAMap || ((m.saveHint hint).entry e).isSubMap) = true
    · rw [if_pos hsh]
      exact ⟨hbec, fun _ => rfl⟩
    rw [if_neg hsh]
    obtain ⟨hmap, hsub⟩ := Bool.or_eq_false_iff.mp (Bool.not_eq_true _ |>.mp hsh)
    have hin : e ∈ m.order := by
      rw [hm]
      exact mem_append_cons_self
    obtain ⟨hbec1, hread1, hin1⟩ := mergePrev_becomes hbec.wellFormed hin hb.1 hmap hsub
    obtain ⟨hbec2, hread2⟩ := mergeNext_becomes hbec1.wellFormed hin1
    exact ⟨(hbec.trans hbec1).trans hbec2, fun a => (hread2 a).trans (hread1 a)⟩
  · rw [hr]
    exact ⟨hbec, fun _ => rfl⟩

end merge

/-! ## Clipping and lookups -/

theorem clipStart_read {p b : ℕ} (h : m.WellFormed) (hp : p ∈ m.order) (hb : b ≤ (m.entry p).end_)
    (a : ℕ) : (m.clipStart p b).read a = m.read a := by
  obtain ⟨pre, suf, hm⟩ := append_of_mem hp
  unfold clipStart
  by_cases hlt : (m.entry p).start < b
  · rw [if_pos hlt]
    unfold read
    rw [clipStartSplit_es h.ring hm, es_split hm]
    exact Ranges.read_split ⟨hlt.le, hb⟩
  · rw [if_neg hlt]

theorem clipEnd_read {p b : ℕ} (h : m.WellFormed) (hp : p ∈ m.order) (hb : (m.entry p).start ≤ b)
    (a : ℕ) : (m.clipEnd p b).read a = m.read a := by
  obtain ⟨pre, suf, hm⟩ := append_of_mem hp
  unfold clipEnd
  by_cases hlt : b < (m.entry p).end_
  · rw [if_pos hlt]
    unfold read
    rw [clipEndSplit_es h.ring hm, es_split hm]
    exact Ranges.read_split ⟨hb, hlt.le⟩
  · rw [if_neg hlt]

theorem lookupEntry_read (h : m.WellFormed) (address a : ℕ) :
    (m.lookupEntry address).2.2.read a = m.read a := by
  obtain ⟨-, -, -, -, ⟨hint, -, hsave, -⟩, -⟩ := lookupEntry_spec h address
  rw [hsave]
  rfl

/-- **The operations act address by address.** For every well formed map: removal removes the addresses
of its range, a successful change of the protection or the inheritance changes them in its range, the
rest changes nothing; and the check of a protection says whether every address of the range is mapped
with it. Kind: C -/
theorem operations_pointwise (h : m.WellFormed) (start end_ : ℕ) :
    (∀ a, (m.remove start end_).read a =
      if (m.rangeCheck start end_).1 ≤ a ∧ a < (m.rangeCheck start end_).2 then none else m.read a) ∧
    (∀ newProt setMax, (m.protect start end_ newProt setMax).1 = .success →
      ∀ a, (m.protect start end_ newProt setMax).2.read a =
        if (m.rangeCheck start end_).1 ≤ a ∧ a < (m.rangeCheck start end_).2 then
          (m.read a).map fun v =>
            if setMax then { v with maxProtection := newProt, protection := newProt &&& v.protection }
            else { v with protection := newProt }
        else m.read a) ∧
    (∀ newInheritance, (m.inherit start end_ newInheritance).1 = .success →
      ∀ a, (m.inherit start end_ newInheritance).2.read a =
        if (m.rangeCheck start end_).1 ≤ a ∧ a < (m.rangeCheck start end_).2 then
          (m.read a).map fun v => { v with inheritance := newInheritance }
        else m.read a) ∧
    (∀ address a, (m.simplify address).read a = m.read a) ∧
    (∀ p ∈ m.order, ∀ b ≤ (m.entry p).end_, ∀ a, (m.clipStart p b).read a = m.read a) ∧
    (∀ p ∈ m.order, ∀ b, (m.entry p).start ≤ b → ∀ a, (m.clipEnd p b).read a = m.read a) ∧
    (∀ address a, (m.lookupEntry address).2.2.read a = m.read a) ∧
    (∀ protection, start < end_ → ((m.checkProtection start end_ protection).1 = true ↔
      ∀ a, start ≤ a → a < end_ → ∃ v ∈ m.read a, v.protection &&& protection = protection)) := by
  refine ⟨remove_read h start end_, ?_, ?_, ?_, ?_, ?_, lookupEntry_read h, ?_⟩
  · intro newProt setMax hok a
    rw [(protect_spec h start end_ newProt setMax).2 a, hok]
    by_cases hc : (m.rangeCheck start end_).1 ≤ a ∧ a < (m.rangeCheck start end_).2
    · rw [if_pos ⟨rfl, hc⟩, if_pos hc]
      rfl
    · rw [if_neg fun hc' => hc hc'.2, if_neg hc]
  · intro newInheritance hok a
    rw [(inherit_spec h start end_ newInheritance).2 a, hok]
    by_cases hc : (m.rangeCheck start end_).1 ≤ a ∧ a < (m.rangeCheck start end_).2
    · rw [if_pos ⟨rfl, hc⟩, if_pos hc]
    · rw [if_neg fun hc' => hc hc'.2, if_neg hc]
  · exact fun address => (simplify_becomes h address).2
  · exact fun p hp b hb => clipStart_read h hp hb
  · exact fun p hp b hb => clipEnd_read h hp hb
  · exact fun protection hlt => checkProtection_iff h hlt protection

/-- A map from 0 to 100 with an entry from 10 to 20 and one from 20 to 40. -/
def twoEntries : VmMap where
  entry p :=
    if p = 1 then { start := 10, end_ := 20, object := 5, protection := 3, maxProtection := 7 }
    else if p = 2 then { start := 20, end_ := 40, object := 6, protection := 1, maxProtection := 7 }
    else { start := 0, end_ := 100 }
  order := [1, 2]
  nentries := 2
  size := 30
  isMainMap := true
  hint := 2
  firstFree := 1

theorem twoEntries_scan : ((twoEntries.saveHint 2).lookupEntry 15).2.1 = (twoEntries.scan 15 0 [1, 2]).2 := by
  obtain ⟨found, p, hint, -, hlookup, hscan, -⟩ := lookupEntry_eq_scan (m := twoEntries)
    ⟨by decide, ⟨by decide, by decide⟩, by decide, by decide, by decide⟩
    (show 2 ∈ 0 :: twoEntries.order by decide) 15
  rw [hlookup]
  exact congrArg Prod.snd hscan.symm

/-- Removing 15 to 30 leaves a hole; 12 is mapped as before, and the check of 10 to 35 fails. Kind: C -/
theorem twoEntries_pointwise :
    (twoEntries.remove 15 30).read 25 = none ∧
      (twoEntries.remove 15 30).read 12 = twoEntries.read 12 ∧
      (twoEntries.checkProtection 15 30 3).1 = false := by
  have h : twoEntries.WellFormed :=
    ⟨by decide, ⟨by decide, by decide⟩, by decide, by decide, by decide⟩
  obtain ⟨hremove, -, -, -, -, -, -, hcheck⟩ := operations_pointwise h 15 30
  refine ⟨?_, ?_, ?_⟩
  · rw [hremove 25]
    rfl
  · rw [hremove 12]
    rfl
  · refine Bool.eq_false_iff.mpr fun hc => ?_
    obtain ⟨v, hv, hprot⟩ := (hcheck 3 (by decide)).mp hc 25 (by decide) (by decide)
    have h25 : twoEntries.read 25 = some ⟨6, false, false, 5, 1, 7, 0, 0⟩ := rfl
    rw [h25] at hv
    rw [← Option.some.inj hv] at hprot
    exact absurd hprot (by decide)

end VmMap

end Bsd386.Vm
