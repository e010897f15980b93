import Bsd386.Lib.Transition
import Bsd386.Vm.Map.Insert

/-!
# The invariant of a system of maps

Maps are made by `vm_map_init` and `vmspace_fork` and changed by the other operations, in any order. Each
map stays well formed and counted in every run whose steps meet `MapOk`: a fork finds only entries that
are inherited by copy, and a submap is asked for in a range that the clipping does not destroy.

The two fail otherwise: a sharing map is made with size 0, the map of a child takes the size of its
parent whatever it inherits, and `vm_map_submap` clips the end of an entry without having asked where
the entry begins, even of the header.
-/

namespace Bsd386.Vm

open Function List Lib Option

namespace VmMap

variable {m : VmMap} {pre suf : List ℕ}

theorem subset_insertAfter (l : List ℕ) (p x : ℕ) : l ⊆ insertAfter p x l := by
  induction l with
  | nil => exact nil_subset _
  | cons q l ih =>
    unfold insertAfter
    split_ifs
    · exact cons_subset_cons q (subset_cons_self x l)
    · exact cons_subset_cons q ih

theorem subset_link (m : VmMap) (p x : ℕ) : m.order ⊆ (m.link p x).order := by
  unfold link
  unfold insertAfter
  split_ifs
  · exact subset_cons_self _ _
  · exact subset_insertAfter _ _ _

theorem subset_clipEnd (m : VmMap) (p b : ℕ) : m.order ⊆ (m.clipEnd p b).order := by
  unfold clipEnd
  split_ifs
  · exact subset_link _ _ _
  · exact List.Subset.refl _

theorem subset_changeLoop {f : MapEntry → MapEntry} {b n cur : ℕ} :
    m.order ⊆ (changeLoop f b n m cur).order := by
  induction n generalizing m cur with
  | zero => exact List.Subset.refl _
  | succ n ih =>
    unfold changeLoop
    split_ifs
    · have hstep : m.order ⊆
          ((m.clipEnd cur b).setEntry cur (f ((m.clipEnd cur b).entry cur))).order :=
        subset_clipEnd m cur b
      exact List.Subset.trans hstep ih
    · exact List.Subset.refl _

/-! ## Submaps -/

/-- The ranges that `vm_map_submap` can take: something in the range is mapped, or the range goes up to
the end of the map and nothing from its start on is mapped.
Source: vm_map_submap -/
def SubmapOk (m : VmMap) (start end_ : ℕ) : Prop :=
  (∃ a, start ≤ a ∧ a < end_ ∧ m.read a ≠ none) ∨
    end_ = m.maxOffset ∧ ∀ a, start ≤ a → m.read a = none

theorem SubmapOk.first {m1 : VmMap} {s b : ℕ} (hok : SubmapOk m s b) (hdiv : Divided m m1 s pre suf) :
    suf = [] ∧ b = m1.maxOffset ∨ ∃ q suf', suf = q :: suf' ∧ (m1.entry q).start < b := by
  have hw := hdiv.becomes.wellFormed
  cases suf with
  | nil =>
    -- nothing is mapped from the start on, so the header is taken for an entry
    have hnone : ∀ a, s ≤ a → m.read a = none := by
      intro a ha
      rw [← hdiv.read a]
      unfold read
      rw [es_append hdiv.order, map_nil, append_nil]
      exact Ranges.read_of_hi_le (forall_mem_map.mpr fun p hp => (hdiv.before p hp).trans ha)
    refine .inl ⟨rfl, ?_⟩
    rcases hok with ⟨a, ha, -, hsome⟩ | ⟨hmax, -⟩
    · exact absurd (hnone a ha) hsome
    · unfold maxOffset at hmax ⊢
      rw [hdiv.becomes.header]
      exact hmax
  | cons q suf =>
    have hq : q ∈ m1.order := by
      rw [hdiv.order]
      exact mem_append_cons_self
    refine .inr ⟨q, suf, rfl, ?_⟩
    rcases hok with ⟨a, ha, hab, hsome⟩ | ⟨-, hnone⟩
    · obtain ⟨v, hv⟩ := ne_none_iff_exists'.mp hsome
      rw [← hdiv.read a] at hv
      by_contra hle
      have hempty : m1.read a = none := by
        unfold read
        rw [es_append hdiv.order, Ranges.read_append, Ranges.read_of_hi_le, none_or,
          Ranges.read_of_lt_lo]
        · refine forall_mem_map.mpr fun p hp => ?_
          rcases mem_cons.mp hp with rfl | hp
          · exact hab.trans_le (not_lt.mp hle)
          have hqe := hw.start_lt_end hq
          have hle' := hw.end_le_start_of_cons hdiv.order hp
          have hlo : entryRanges.lo (m1.entry p) = (m1.entry p).start := rfl
          rw [hlo]
          omega
        · exact forall_mem_map.mpr fun p hp => (hdiv.before p hp).trans ha
      rw [hempty] at hv
      cases hv
    · have hstart := hdiv.behind q mem_cons_self
      have hread := read_start hw (mem_map_of_mem hq : m1.entry q ∈ m1.es)
      rw [hdiv.read, hnone _ hstart] at hread
      cases hread

/-! ## Invariants -/

/-- An invariant that clipping keeps, and every change of an entry or of the header that leaves the bounds
and `is_a_map`. -/
structure Stable (P : VmMap → Prop) : Prop where
  wellFormed {m : VmMap} : P m → m.WellFormed
  clipFirst {m : VmMap} (start : ℕ) : P m → P (m.clipFirst start).2
  clipEnd {m : VmMap} {p b : ℕ} : P m → p ∈ m.order → (m.entry p).start < b → P (m.clipEnd p b)
  setEntry {m : VmMap} {p : ℕ} {e : MapEntry} : P m → p ∈ 0 :: m.order → e.start = (m.entry p).start →
    e.end_ = (m.entry p).end_ → e.isAMap = (m.entry p).isAMap → P (m.setEntry p e)

section stable

variable {P : VmMap → Prop} (hP : Stable P)
include hP

theorem Stable.changeLoop (h : P m) {f : MapEntry → MapEntry} (hf : ∀ e, (f e).start = e.start ∧
    (f e).end_ = e.end_ ∧ (f e).isAMap = e.isAMap) {b n cur : ℕ} (hcur : cur ∈ 0 :: m.order) :
    P (changeLoop f b n m cur) := by
  induction n generalizing m cur with
  | zero => exact h
  | succ n ih =>
    unfold VmMap.changeLoop
    by_cases hc : cur ≠ 0 ∧ (m.entry cur).start < b
    · rw [if_pos hc]
      have hmem : cur ∈ m.order := (mem_cons.mp hcur).resolve_left hc.1
      have h1 := hP.clipEnd h hmem hc.2
      obtain ⟨hlo, hhi, hmap⟩ := hf ((m.clipEnd cur b).entry cur)
      exact ih (hP.setEntry h1 (mem_cons_of_mem 0 (subset_clipEnd m cur b hmem)) hlo hhi hmap)
        (next_mem _ cur)
    · rw [if_neg hc]
      exact h

theorem Stable.changeFrom (h : P m) {f : MapEntry → MapEntry} (hf : ∀ e, (f e).start = e.start ∧
    (f e).end_ = e.end_ ∧ (f e).isAMap = e.isAMap) (start end_ : ℕ) :
    P (changeFrom f end_ (m.clipFirst start)) ∧
      (m.clipFirst start).1 ∈ 0 :: (changeFrom f end_ (m.clipFirst start)).order := by
  have hfirst : (m.clipFirst start).1 ∈ 0 :: (m.clipFirst start).2.order := by
    obtain ⟨pre, suf, hfirst, hdiv⟩ := clipFirst_spec (hP.wellFormed h) start
    rw [hfirst, hdiv.order]
    cases suf with
    | nil => exact mem_cons_self
    | cons q suf => exact mem_cons_of_mem 0 mem_append_cons_self
  exact ⟨hP.changeLoop (hP.clipFirst start h) hf hfirst, cons_subset_cons 0 subset_changeLoop hfirst⟩

theorem Stable.protect (h : P m) (start end_ : ℕ) (newProt : BitVec 32) (setMax : Bool) :
    P (m.protect start end_ newProt setMax).2 := by
  unfold VmMap.protect
  dsimp only
  split
  · exact hP.clipFirst _ h
  refine (hP.changeFrom h (fun e => ?_) _ _).1
  obtain ⟨hlo, hhi, -⟩ := protectEntry_spec newProt setMax e
  refine ⟨hlo, hhi, ?_⟩
  cases setMax with
  | false => rfl
  | true => rfl

theorem Stable.inherit (h : P m) (start end_ : ℕ) (newInheritance : ℤ) :
    P (m.inherit start end_ newInheritance).2 := by
  unfold VmMap.inherit
  split_ifs
  · exact (hP.changeFrom (f := fun e => { e with inheritance := newInheritance }) h
      (fun _ => ⟨rfl, rfl, rfl⟩) _ _).1
  · exact h

theorem Stable.unwire (h : P m) (start end_ : ℕ) : P (m.unwire start end_).2 := by
  unfold VmMap.unwire
  dsimp only
  split_ifs
  · exact (hP.changeFrom (f := fun e => { e with wiredCount := e.wiredCount - 1 }) h
      (fun _ => ⟨rfl, rfl, rfl⟩) _ _).1
  · exact hP.clipFirst _ h

theorem Stable.faultLoop (h : P m) {wire : MapEntry → Bool} {end_ n cur : ℕ} {failed : Option ℕ}
    (hcur : cur ∈ 0 :: m.order) : P (faultLoop wire end_ n m cur failed).1 := by
  induction n generalizing m cur failed with
  | zero => exact h
  | succ n ih =>
    unfold VmMap.faultLoop
    by_cases hc : cur ≠ 0 ∧ (m.entry cur).start < end_
    · rw [if_pos hc]
      have hback : P (m.setEntry cur { m.entry cur with
          wiredCount := (m.entry cur).wiredCount - 1 }) := hP.setEntry h hcur rfl rfl rfl
      dsimp only
      split_ifs
      · exact ih hback (next_mem m cur)
      · exact ih hback (next_mem m cur)
      · exact ih h (next_mem m cur)
    · rw [if_neg hc]
      exact h

theorem Stable.pageable (h : P m) (start end_ : ℕ) (newPageable : Bool) (alloc : MapEntry → ℕ)
    (wire : MapEntry → Bool) : P (m.pageable start end_ newPageable alloc wire).2 := by
  have hwire : ∀ e, (wireEntry alloc e).start = e.start ∧ (wireEntry alloc e).end_ = e.end_ ∧
      (wireEntry alloc e).isAMap = e.isAMap := by
    intro e
    unfold wireEntry
    dsimp only
    split_ifs
    · exact ⟨rfl, rfl, rfl⟩
    · exact ⟨rfl, rfl, rfl⟩
    · exact ⟨rfl, rfl, rfl⟩
    · exact ⟨rfl, rfl, rfl⟩
  unfold VmMap.pageable
  cases newPageable with
  | true => exact hP.unwire h start end_
  | false =>
    rw [if_neg Bool.false_ne_true]
    dsimp only
    obtain ⟨s, b, hrange⟩ : ∃ s b, m.rangeCheck start end_ = (s, b) := ⟨_, _, rfl⟩
    rw [hrange]
    obtain ⟨h1, hmem⟩ := hP.changeFrom h hwire s b
    have h2 : P (VmMap.faultLoop wire b
        ((VmMap.changeFrom (wireEntry alloc) b (m.clipFirst s)).order.length + 1)
        (VmMap.changeFrom (wireEntry alloc) b (m.clipFirst s)) (m.clipFirst s).1 none).1 :=
      hP.faultLoop h1 hmem
    split
    · rename_i m2 heq
      rw [heq] at h2
      exact h2
    rename_i m2 failed heq
    rw [heq] at h2
    split_ifs
    · exact hP.unwire h2 _ _
    · exact h2

theorem Stable.submap (h : P m) {start end_ : ℕ} (sub : ℕ)
    (hok : SubmapOk m (m.rangeCheck start end_).1 (m.rangeCheck start end_).2) :
    P (m.submap start end_ sub).2 := by
  obtain ⟨pre, suf, hfirst, hdiv⟩ := clipFirst_spec (hP.wellFormed h) (m.rangeCheck start end_).1
  have h1 := hP.clipFirst (m.rangeCheck start end_).1 h
  have hcases := hok.first hdiv
  unfold VmMap.submap
  dsimp only
  rw [hfirst]
  obtain ⟨m1, hm1⟩ : ∃ m1, (m.clipFirst (m.rangeCheck start end_).1).2 = m1 := ⟨_, rfl⟩
  rw [hm1] at h1 hdiv hcases ⊢
  rcases hcases with ⟨rfl, hmax⟩ | ⟨q, suf, rfl, hlt⟩
  · rw [headD_nil]
    have hclip : m1.clipEnd 0 (m.rangeCheck start end_).2 = m1 := if_neg (not_lt.mpr hmax.ge)
    rw [hclip]
    split_ifs with hc
    · exact hP.setEntry h1 mem_cons_self rfl rfl hc.2.2.1.symm
    · exact h1
  · have hq : q ∈ m1.order := by
      rw [hdiv.order]
      exact mem_append_cons_self
    rw [headD_cons]
    have h2 := hP.clipEnd h1 hq hlt
    split_ifs with hc
    · exact hP.setEntry h2 (mem_cons_of_mem 0 (subset_clipEnd m1 q (m.rangeCheck start end_).2 hq)) rfl
        rfl hc.2.2.1.symm
    · exact h2

end stable

theorem MapInv.setEntry (h : m.MapInv) {p : ℕ} {e : MapEntry} (hp : p ∈ m.order)
    (hlo : e.start = (m.entry p).start) (hhi : e.end_ = (m.entry p).end_)
    (hmap : e.isAMap = (m.entry p).isAMap) : (m.setEntry p e).MapInv := by
  obtain ⟨pre, suf, hm⟩ := append_of_mem hp
  refine ⟨h.wellFormed.setEntry hm hlo hhi, h.counted.setEntry h.wellFormed.ring hm hlo hhi, ?_⟩
  rw [setEntry_es h.wellFormed.ring hm]
  have hold := h.noShared
  rw [es_split hm] at hold
  intro x hx
  rcases mem_append.mp hx with hx | hx
  · exact hold x (mem_append_left _ hx)
  · rcases mem_cons.mp hx with rfl | hx
    · exact hmap.trans (hold _ mem_append_cons_self)
    · exact hold x (mem_append_right _ (mem_cons_of_mem _ hx))

theorem MapInv.setHeader (h : m.MapInv) {e : MapEntry} (hlo : e.start = (m.entry 0).start)
    (hhi : e.end_ = (m.entry 0).end_) : (m.setEntry 0 e).MapInv := by
  have hes : (m.setEntry 0 e).es = m.es := map_update_of_not_mem (nodup_cons.mp h.wellFormed.ring).1
  have h0 : (m.setEntry 0 e).entry 0 = e := by
    rw [setEntry_entry, update_self]
  refine ⟨⟨h.wellFormed.ring, ?_, ?_, h.wellFormed.hint, h.wellFormed.firstFree⟩,
    ⟨h.counted.nentries, ?_⟩, ?_⟩
  · rw [hes]
    exact h.wellFormed.ordered
  · unfold minOffset maxOffset
    rw [hes, h0, hlo, hhi]
    exact h.wellFormed.bounds
  · rw [hes]
    exact h.counted.size
  · rw [hes]
    exact h.noShared

theorem MapInv.clipEnd (h : m.MapInv) {p b : ℕ} (hp : p ∈ m.order) (hb : (m.entry p).start < b) :
    (m.clipEnd p b).MapInv := by
  obtain ⟨pre, suf, hm⟩ := append_of_mem hp
  unfold VmMap.clipEnd
  by_cases hlt : b < (m.entry p).end_
  · rw [if_pos hlt]
    refine ⟨h.wellFormed.clipEndSplit hm ⟨hb, hlt⟩,
      h.counted.clipEndSplit h.wellFormed.ring hm ⟨hb, hlt⟩, ?_⟩
    rw [clipEndSplit_es h.wellFormed.ring hm]
    have hold := h.noShared
    rw [es_split hm] at hold
    obtain ⟨hpre, hsuf⟩ := forall_mem_append.mp hold
    obtain ⟨hep, hsuf⟩ := forall_mem_cons.mp hsuf
    exact forall_mem_append.mpr ⟨hpre, forall_mem_cons.mpr ⟨hep,
      forall_mem_cons.mpr ⟨hep, hsuf⟩⟩⟩
  · rw [if_neg hlt]
    exact h

theorem stable_mapInv : Stable MapInv where
  wellFormed := MapInv.wellFormed
  clipFirst start h := h.clipFirst start
  clipEnd h hp hb := h.clipEnd hp hb
  setEntry h hp hlo hhi hmap := by
    rcases mem_cons.mp hp with rfl | hp
    · exact h.setHeader hlo hhi
    · exact h.setEntry hp hlo hhi hmap

/-! ## Forking -/

theorem linkLast_spec {e : MapEntry} (h : m.WellFormed) (hlt : e.start < e.end_)
    (hbefore : ∀ x ∈ m.es, x.end_ ≤ e.start) (hbounds : m.minOffset ≤ e.start ∧ e.end_ ≤ m.maxOffset) :
    (m.linkLast e).WellFormed ∧ (m.linkLast e).es = m.es ++ [e] ∧
      (m.linkLast e).order.length = m.order.length + 1 ∧ (m.linkLast e).entry 0 = m.entry 0 := by
  have hm : m.order = m.order ++ [] := (append_nil _).symm
  have hprev : m.prev 0 = m.order.getLastD 0 := prev_eq h.ring hm
  obtain ⟨hw, hes, horder, h0⟩ := link_spec h hm hlt (forall_mem_map.mp hbefore)
    (fun p hp => absurd hp not_mem_nil) hbounds
  unfold linkLast
  rw [hprev]
  refine ⟨hw, hes, ?_, h0⟩
  rw [horder, length_append]
  rfl

/-- What holds of a fork after the entries `pre` of the old map: the entries of the new map are as long
as these, and end before the rest begins.
Source: vmspace_fork -/
structure ForkInv (f : Fork) (pre suf : List ℕ) : Prop where
  old : f.old.MapInv
  order : f.old.order = pre ++ suf
  copied : ∀ e ∈ f.old.es, e.inheritance = vmInheritCopy
  new : f.new.WellFormed
  nentries : f.new.nentries = f.new.order.length
  noShared : ∀ e ∈ f.new.es, e.isAMap = false
  lengths : lengths f.new.es = VmMap.lengths (pre.map f.old.entry)
  before : ∀ x ∈ f.new.es, ∀ p ∈ suf, x.end_ ≤ (f.old.entry p).start
  header : (f.new.entry 0).start = f.old.minOffset ∧ (f.new.entry 0).end_ = f.old.maxOffset
  shares : f.shares = []

theorem ForkInv.step {f : Fork} {p : ℕ} (h : ForkInv f pre (p :: suf)) {old' : MapEntry}
    {new' : MapEntry} (hlo : old'.start = (f.old.entry p).start) (hhi : old'.end_ = (f.old.entry p).end_)
    (hinh : old'.inheritance = (f.old.entry p).inheritance)
    (hmap : old'.isAMap = (f.old.entry p).isAMap) (hlo' : new'.start = (f.old.entry p).start)
    (hhi' : new'.end_ = (f.old.entry p).end_) (hmap' : new'.isAMap = false) :
    ForkInv { f with old := f.old.setEntry p old', new := f.new.linkLast new' } (pre ++ [p]) suf := by
  have hp : p ∈ f.old.order := by
    rw [h.order]
    exact mem_append_cons_self
  have hring := h.old.wellFormed.ring
  obtain ⟨hnpre, hnsuf⟩ := not_mem_of_nodup hring h.order
  have hlt := h.old.wellFormed.start_lt_end hp
  have hbounds := h.old.wellFormed.bounds _ (mem_map_of_mem hp : f.old.entry p ∈ f.old.es)
  obtain ⟨hw, hes, hlen, h0⟩ := linkLast_spec (e := new') h.new (by rw [hlo', hhi']; exact hlt)
    (fun x hx => by rw [hlo']; exact h.before x hx p mem_cons_self)
    (by
      unfold minOffset maxOffset at *
      rw [hlo', hhi', h.header.1, h.header.2]
      exact hbounds)
  have hcop := h.copied
  rw [es_split h.order] at hcop
  obtain ⟨hcpre, hcsuf⟩ := forall_mem_append.mp hcop
  obtain ⟨hcp, hcsuf⟩ := forall_mem_cons.mp hcsuf
  refine ⟨h.old.setEntry hp hlo hhi hmap, ?_, ?_, hw, ?_, ?_, ?_, ?_, ?_, h.shares⟩
  · rw [append_assoc]
    exact h.order
  · rw [setEntry_es hring h.order]
    exact forall_mem_append.mpr ⟨hcpre, forall_mem_cons.mpr ⟨hinh.trans hcp, hcsuf⟩⟩
  · have hn : (f.new.linkLast new').nentries = f.new.nentries + 1 := rfl
    rw [hn, h.nentries, hlen]
    rfl
  · rw [hes]
    exact forall_mem_append.mpr ⟨h.noShared, forall_mem_singleton.mpr hmap'⟩
  · rw [hes, setEntry_entry, map_append, map_update_of_not_mem hnpre, map_singleton,
      update_self, lengths_append, lengths_append, h.lengths, lengths_cons, lengths_cons, hlo,
      hhi, hlo', hhi']
  · rw [hes]
    intro x hx q hq
    have hqp : q ≠ p := by
      rintro rfl
      exact hnsuf hq
    rw [setEntry_entry, update_of_ne hqp]
    rcases mem_append.mp hx with hx | hx
    · exact h.before x hx q (mem_cons_of_mem p hq)
    · rw [mem_singleton.mp hx, hhi']
      exact h.old.wellFormed.end_le_start_of_cons h.order hq
  · unfold minOffset maxOffset
    rw [h0, setEntry_zero hring h.order]
    exact h.header

theorem ForkInv.forkCopy {f : Fork} {p : ℕ} (env : ForkEnv) (h : ForkInv f pre (p :: suf)) :
    ForkInv (forkCopy env f p) (pre ++ [p]) suf := by
  have hp : f.old.entry p ∈ f.old.es := by
    rw [es_split h.order]
    exact mem_append_cons_self
  have hmap := h.old.noShared _ hp
  unfold VmMap.forkCopy
  dsimp only
  rw [hmap, if_neg Bool.false_ne_true]
  split_ifs
  · refine h.step rfl rfl rfl ?_ rfl rfl rfl
    exact hmap.symm
  have hclone : ∀ e : MapEntry, e.start = (f.old.entry p).start → e.end_ = (f.old.entry p).end_ →
      e.isAMap = false →
      ForkInv { f with old := f.old.setEntry p (f.old.entry p), new := f.new.linkLast e } (pre ++ [p])
        suf := fun e hlo hhi hm => h.step rfl rfl rfl rfl hlo hhi hm
  unfold VmMap.setEntry at hclone
  rw [update_eq_self] at hclone
  exact hclone _ rfl rfl rfl

theorem ForkInv.loop {f f' : Fork} {n : ℕ} (env : ForkEnv) (h : ForkInv f pre suf)
    (hloop : forkLoop env n f (suf.headD 0) = some f') : ∃ pre', ForkInv f' pre' [] := by
  induction n generalizing f pre suf with
  | zero => cases hloop
  | succ n ih =>
    unfold forkLoop at hloop
    cases suf with
    | nil =>
      rw [headD_nil, if_pos rfl] at hloop
      rw [← some.inj hloop]
      exact ⟨pre, h⟩
    | cons p suf =>
      have hp : p ∈ f.old.order := by
        rw [h.order]
        exact mem_append_cons_self
      have hne := ne_zero_of_mem h.old.wellFormed.ring hp
      have hcopy := h.copied _ (mem_map_of_mem hp : f.old.entry p ∈ f.old.es)
      rw [headD_cons, if_neg hne] at hloop
      by_cases hsub : (f.old.entry p).isSubMap = true
      · rw [if_pos hsub] at hloop
        cases hloop
      rw [if_neg hsub, hcopy] at hloop
      dsimp only at hloop
      rw [if_neg (by decide : ¬ vmInheritCopy = vmInheritShare), if_pos rfl] at hloop
      have hstep := h.forkCopy env
      have horder : (VmMap.forkCopy env f p).old.order = pre ++ p :: suf := by
        rw [hstep.order, append_assoc]
        rfl
      rw [next_of_mem hstep.old.wellFormed.ring horder] at hloop
      exact ih hstep hloop

theorem mapInv_init (min max : ℕ) : (init min max).MapInv :=
  ⟨⟨nodup_singleton 0, ⟨fun _ he => absurd he not_mem_nil, List.Pairwise.nil⟩,
    fun _ he => absurd he not_mem_nil, mem_cons_self, mem_cons_self⟩, ⟨rfl, rfl⟩,
    fun _ he => absurd he not_mem_nil⟩

/-- **Fork.** When everything is inherited by copy, the maps of the parent and of the child keep the
invariant and no sharing map is made. -/
theorem fork_spec (h : m.MapInv) (hcopy : ∀ e ∈ m.es, e.inheritance = vmInheritCopy) {env : ForkEnv}
    {f : Fork} (hf : m.fork env = some f) : f.old.MapInv ∧ f.shares = [] ∧ f.new.MapInv := by
  obtain ⟨f1, hloop, rfl⟩ := map_eq_some_iff.mp hf
  have hm : m.order = [] ++ m.order := rfl
  have hnew := (mapInv_init m.minOffset m.maxOffset).wellFormed
  have hstart : ForkInv ⟨m, init m.minOffset m.maxOffset, []⟩ [] m.order := by
    refine ⟨h, hm, hcopy, hnew, rfl, ?_, rfl, ?_, ?_, rfl⟩
    · exact fun _ he => absurd he not_mem_nil
    · exact fun _ he => absurd he not_mem_nil
    · unfold init
      dsimp only
      rw [update_self]
      exact ⟨rfl, rfl⟩
  rw [next_zero h.wellFormed.ring] at hloop
  obtain ⟨pre, hend⟩ := hstart.loop env hloop
  refine ⟨hend.old, hend.shares, ⟨?_, ⟨hend.nentries, ?_⟩, hend.noShared⟩⟩
  · exact ⟨hend.new.ring, hend.new.ordered, hend.new.bounds, hend.new.hint, hend.new.firstFree⟩
  · have hes : f1.old.es = pre.map f1.old.entry := by
      rw [es_append hend.order, map_nil, append_nil]
    have hsize := hend.old.counted.size
    rw [hes, ← hend.lengths] at hsize
    exact hsize

end VmMap

/-! ## Runs -/

open VmMap in
/-- The steps that keep the invariant: submaps in ranges that can be taken, and forks of maps in which
everything is inherited by copy. -/
def MapOk (maps : List VmMap) : MapOp → Prop
  | .submap i start end_ _ => ∀ m ∈ maps[i]?, SubmapOk m (m.rangeCheck start end_).1 (m.rangeCheck start end_).2
  | .fork i _ => ∀ m ∈ maps[i]?, ∀ e ∈ m.es, e.inheritance = vmInheritCopy
  | _ => True

theorem forall_mem_of_set {maps maps' : List VmMap} {i : ℕ} {f : VmMap → VmMap}
    {P : VmMap → Prop} (h : ∀ m ∈ maps, P m) (hf : ∀ m ∈ maps[i]?, P m → P (f m))
    (hstep : maps[i]?.map (fun m => maps.set i (f m)) = some maps') : ∀ m ∈ maps', P m := by
  obtain ⟨m, hm, rfl⟩ := map_eq_some_iff.mp hstep
  intro x hx
  rcases mem_or_eq_of_mem_set hx with hx | rfl
  · exact h x hx
  · exact hf m hm (h m (mem_of_getElem? hm))

theorem mapInv_step {maps maps' : List VmMap} {op : MapOp} (h : ∀ m ∈ maps, m.MapInv)
    (hok : MapOk maps op) (hstep : mapStep maps op = some maps') : ∀ m ∈ maps', m.MapInv := by
  cases op with
  | init min max =>
    rw [← some.inj hstep]
    exact forall_mem_append.mpr ⟨h, forall_mem_singleton.mpr (VmMap.mapInv_init min max)⟩
  | insert i object offset start end_ coalesced =>
    exact forall_mem_of_set h (fun m _ hm => hm.insert object offset start end_ coalesced) hstep
  | find i object offset addr length findSpace coalesced =>
    exact forall_mem_of_set h (fun m _ hm => hm.find object offset addr length findSpace coalesced) hstep
  | remove i start end_ => exact forall_mem_of_set h (fun m _ hm => hm.remove start end_) hstep
  | protect i start end_ newProt setMax =>
    exact forall_mem_of_set h (fun m _ hm => VmMap.stable_mapInv.protect hm start end_ newProt setMax) hstep
  | inherit i start end_ newInheritance =>
    exact forall_mem_of_set h (fun m _ hm => VmMap.stable_mapInv.inherit hm start end_ newInheritance) hstep
  | pageable i start end_ newPageable alloc wire =>
    exact forall_mem_of_set h (fun m _ hm => VmMap.stable_mapInv.pageable hm start end_ newPageable alloc wire) hstep
  | submap i start end_ sub =>
    exact forall_mem_of_set h (fun m hi hm => VmMap.stable_mapInv.submap hm sub (hok m hi)) hstep
  | simplify i start => exact forall_mem_of_set h (fun m _ hm => hm.simplify start) hstep
  | fork i env =>
    obtain ⟨m, hm, hstep⟩ := bind_eq_some_iff.mp hstep
    obtain ⟨f, hf, rfl⟩ := map_eq_some_iff.mp hstep
    obtain ⟨hold, hshares, hnew⟩ := VmMap.fork_spec (h m (mem_of_getElem? hm)) (hok m hm) hf
    rw [hshares, append_nil]
    refine forall_mem_append.mpr ⟨?_, forall_mem_singleton.mpr hnew⟩
    intro x hx
    rcases mem_or_eq_of_mem_set hx with hx | rfl
    · exact h x hx
    · exact hold

/-- **The invariant of the maps.** After every sequence of operations whose steps meet `MapOk`, in every
map the entries are in order, not empty, disjoint and within the bounds, `nentries` and `size` are their
number and length, and `hint` and `first_free` are the header or entries of the list. Kind: C -/
theorem sound_of_reach {maps : List VmMap}
    (h : Transition.Reach (· = []) (fun s s' => ∃ op, MapOk s op ∧ mapStep s op = some s') maps) :
    ∀ m ∈ maps, m.WellFormed ∧ m.Counted := by
  have hinv : ∀ m ∈ maps, m.MapInv := by
    refine h.invariant (I := fun maps => ∀ m ∈ maps, m.MapInv) ?_ ?_
    · rintro s rfl m hm
      exact absurd hm not_mem_nil
    · rintro s s' - hs ⟨op, hok, hstep⟩
      exact mapInv_step hs hok hstep
  exact fun m hm => ⟨(hinv m hm).wellFormed, (hinv m hm).counted⟩

/-- An object layer for the runs below: the copy of an object is the object. -/
def plainEnv : VmMap.ForkEnv where
  base := 1000
  copy e := (e.object, e.offset, true)
  fault _ := 7
  mapCopy f _ := f

/-- A map with one entry, and the map of a child that inherits it by copy. Kind: C -/
theorem sound_forked : ∃ maps : List VmMap, maps.map VmMap.order = [[1], [1]] ∧
    ∀ m ∈ maps, m.WellFormed ∧ m.Counted := by
  refine ⟨_, ?_, sound_of_reach (.step (.step (.step (.start rfl) ⟨.init 0 100, ?_, rfl⟩)
    ⟨.insert 0 5 0 10 20 false, ?_, rfl⟩) ⟨.fork 0 plainEnv, ?_, rfl⟩)⟩
  · rfl
  · trivial
  · trivial
  · intro m hm
    rw [← some.inj hm]
    decide

def runMapOps : List MapOp → List VmMap → Option (List VmMap)
  | [], maps => some maps
  | op :: ops, maps => (mapStep maps op).bind (runMapOps ops)

theorem reach_runMapOps {ops : List MapOp} {maps maps' : List VmMap}
    (hs : Transition.Reach (· = []) (fun s s' => ∃ op, mapStep s op = some s') maps)
    (h : runMapOps ops maps = some maps') :
    Transition.Reach (· = []) (fun s s' => ∃ op, mapStep s op = some s') maps' := by
  induction ops generalizing maps with
  | nil =>
    rw [← some.inj h]
    exact hs
  | cons op ops ih =>
    obtain ⟨s, hop, hrest⟩ := bind_eq_some_iff.mp h
    exact ih (.step hs ⟨op, hop⟩) hrest

/-- The map of a child that inherits nothing has the size of its parent's map.
Source: vmspace_fork. Kind: C -/
theorem not_counted_fork :
    ∃ maps, Transition.Reach (· = []) (fun s s' => ∃ op, mapStep s op = some s') maps ∧
      ∃ m ∈ maps, ¬ (m.WellFormed ∧ m.Counted) := by
  have hrun : (runMapOps [.init 0 100, .insert 0 5 0 10 20 false, .inherit 0 10 20 vmInheritNone,
      .fork 0 plainEnv] []).map (fun maps => maps.map fun m => (m.order, m.size)) =
      some [([1], 10), ([], 10)] := by
    decide +kernel
  obtain ⟨maps, hmaps, heq⟩ := map_eq_some_iff.mp hrun
  refine ⟨maps, reach_runMapOps (.start rfl) hmaps, ?_⟩
  have hmem : (([], 10) : List ℕ × BitVec 32) ∈ maps.map fun m => (m.order, m.size) := by
    rw [heq]
    exact mem_cons_of_mem _ mem_cons_self
  obtain ⟨m, hm, hchild⟩ := mem_map.mp hmem
  obtain ⟨horder, hsize⟩ := Prod.mk.inj hchild
  refine ⟨m, hm, ?_⟩
  rintro ⟨-, hc⟩
  have hlen := hc.size
  unfold VmMap.es at hlen
  rw [hsize, horder, map_nil] at hlen
  exact absurd hlen (by decide)

end Bsd386.Vm
