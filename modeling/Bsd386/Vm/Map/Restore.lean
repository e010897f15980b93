import Bsd386.Vm.Map.Insert
import Bsd386.Vm.Map.Protect

/-!
# What a failed call leaves behind

`vm_map_pageable` with the map lock; `VmMap.pageable` is what it does to the map (`vmMapPageable_eq`). When
the pages of an entry cannot be wired, the loop takes back the count of this entry and of those behind it,
and the recursive call the counts of those before it.
-/

namespace Bsd386.Vm

open Function List Lib Option

/-- The result, the map and its lock. Source: vm_map_pageable -/
structure PageableResult where
  code : KernReturn
  map : VmMap
  lock : Lock

namespace VmMap

/-! ## The function -/

/-- The call with `new_pageable` true. Source: vm_map_pageable -/
def vmMapUnwire (m : VmMap) (lock : Lock) (start end_ : ℕ) : Option PageableResult :=
  lock.write.bind fun lock =>
    let range := m.rangeCheck start end_
    let first := m.clipFirst range.1
    if first.2.wiredCheck range.2 (first.2.order.length + 1) first.1 then
      lock.setRecursive.bind fun lock => lock.clearRecursive.map fun lock =>
        ⟨.success, changeFrom (fun e => { e with wiredCount := e.wiredCount - 1 }) range.2 first, lock.done⟩
    else some ⟨.invalidArgument, first.2, lock.done⟩

/-- `kernel`: the physical map is that of the kernel. Source: vm_map_pageable. -/
def vmMapPageable (m : VmMap) (lock : Lock) (kernel : Bool) (start end_ : ℕ) (newPageable : Bool)
    (alloc : MapEntry → ℕ) (wire : MapEntry → Bool) : Option PageableResult :=
  if newPageable then m.vmMapUnwire lock start end_
  else
    lock.write.bind fun lock =>
      let range := m.rangeCheck start end_
      let first := m.clipFirst range.1
      let m₁ := changeFrom (wireEntry alloc) range.2 first
      (if kernel then some lock.done else lock.setRecursive.map Lock.writeToRead).bind fun lock =>
        let r := faultLoop wire range.2 (m₁.order.length + 1) m₁ first.1 none
        (if kernel then lock.write else lock.clearRecursive).bind fun lock =>
          match r.2 with
          | none => some ⟨.success, r.1, lock.done⟩
          | some failed =>
            if range.1 ≠ failed then
              (r.1.vmMapUnwire lock.done range.1 failed).map fun u => { u with code := .failure }
            else some ⟨.failure, r.1, lock.done⟩

section lock

variable (m : VmMap)

theorem vmMapUnwire_eq (start end_ : ℕ) : m.vmMapUnwire .free start end_ =
    some ⟨(m.unwire start end_).1, (m.unwire start end_).2, .free⟩ := by
  unfold vmMapUnwire unwire
  dsimp only
  rw [Lock.write_free, bind_some]
  split_ifs
  · rfl
  · rfl

theorem vmMapPageable_eq (kernel : Bool) (start end_ : ℕ) (newPageable : Bool) (alloc : MapEntry → ℕ)
    (wire : MapEntry → Bool) : m.vmMapPageable .free kernel start end_ newPageable alloc wire =
      some ⟨(m.pageable start end_ newPageable alloc wire).1,
        (m.pageable start end_ newPageable alloc wire).2, .free⟩ := by
  unfold vmMapPageable pageable
  cases newPageable with
  | true => exact m.vmMapUnwire_eq start end_
  | false =>
    -- either way the lock is held in between and taken back
    have hlock : ∃ l1 l2 : Lock,
        (if kernel then some Lock.taken.done else Lock.taken.setRecursive.map Lock.writeToRead) = some l1 ∧
          (if kernel then l1.write else l1.clearRecursive) = some l2 ∧ l2.done = .free := by
      cases kernel with
      | false => exact ⟨_, _, rfl, rfl, rfl⟩
      | true => exact ⟨_, _, rfl, rfl, rfl⟩
    obtain ⟨l1, l2, h1, h2, hdone⟩ := hlock
    rw [if_neg Bool.false_ne_true, if_neg Bool.false_ne_true, Lock.write_free, bind_some]
    dsimp only
    rw [h1, bind_some, h2, bind_some, hdone]
    obtain ⟨r, hr⟩ : ∃ r, faultLoop wire (m.rangeCheck start end_).2
        ((changeFrom (wireEntry alloc) (m.rangeCheck start end_).2
          (m.clipFirst (m.rangeCheck start end_).1)).order.length + 1)
        (changeFrom (wireEntry alloc) (m.rangeCheck start end_).2
          (m.clipFirst (m.rangeCheck start end_).1))
        (m.clipFirst (m.rangeCheck start end_).1).1 none = r := ⟨_, rfl⟩
    rw [hr]
    obtain ⟨m2, failed⟩ := r
    cases failed with
    | none => rfl
    | some failed =>
      dsimp only
      by_cases hne : (m.rangeCheck start end_).1 ≠ failed
      · rw [if_pos hne, if_pos hne, vmMapUnwire_eq, map_some]
      · rw [if_neg hne, if_neg hne]

end lock

/-! ## The counts of wirings -/

section wired

variable {m : VmMap} {pre suf : List ℕ}

/-- How often an address is wired. Source: vm_map.h, wired_count -/
def wiredAt (m : VmMap) (a : ℕ) : Option ℤ := (m.read a).map Attr.wiredCount

theorem wireEntry_spec (alloc : MapEntry → ℕ) (e : MapEntry) : (wireEntry alloc e).start = e.start ∧
    (wireEntry alloc e).end_ = e.end_ ∧
      ∀ a, ((wireEntry alloc e).attr a).wiredCount = (e.attr a).wiredCount + 1 := by
  unfold wireEntry
  dsimp only
  split_ifs
  · exact ⟨rfl, rfl, fun _ => rfl⟩
  · exact ⟨rfl, rfl, fun _ => rfl⟩
  · exact ⟨rfl, rfl, fun _ => rfl⟩
  · exact ⟨rfl, rfl, fun _ => rfl⟩

/-- An entry with one wiring less. Source: vm_map_pageable -/
def backOut (e : MapEntry) : MapEntry := { e with wiredCount := e.wiredCount - 1 }

theorem changeLoop_order {f : MapEntry → MapEntry} {b n : ℕ} (hlo : ∀ e, (f e).start = e.start)
    (hhi : ∀ e, (f e).end_ = e.end_) (h : m.WellFormed) (hm : m.order = pre ++ suf)
    (hn : suf.length < n) : ∃ suf', (changeLoop f b n m (suf.headD 0)).order = pre ++ suf' ∧
      suf'.headD 0 = suf.headD 0 := by
  induction suf generalizing m pre n with
  | nil =>
    rw [headD_nil, changeLoop_eq_self fun hc => hc.1 rfl]
    exact ⟨[], hm, rfl⟩
  | cons p suf ih =>
    obtain ⟨k, rfl⟩ : ∃ k, n = k + 1 := ⟨n - 1, by omega⟩
    unfold changeLoop
    rw [headD_cons]
    by_cases hlt : p ≠ 0 ∧ (m.entry p).start < b
    · rw [if_pos hlt]
      dsimp only
      -- the clipping puts its second half behind the entry
      have hclip : ∃ suf1, (m.clipEnd p b).order = (pre ++ [p]) ++ suf1 ∧ (m.clipEnd p b).WellFormed ∧
          (suf1 = suf ∨ ∀ (k : ℕ) (e : MapEntry),
            changeLoop f b k ((m.clipEnd p b).setEntry p e) (suf1.headD 0) =
              (m.clipEnd p b).setEntry p e) := by
        unfold clipEnd
        by_cases hcut : b < (m.entry p).end_
        · rw [if_pos hcut]
          refine ⟨m.create :: suf, ?_, h.clipEndSplit hm ⟨hlt.2, hcut⟩, .inr fun k e => ?_⟩
          · exact (clipEndSplit_order h.ring hm).trans (append_cons ..)
          · refine changeLoop_eq_self (fun hc => ?_) k
            rw [setEntry_entry, headD_cons, update_of_ne (create_ne hm),
              (clipEndSplit_spec h.ring hm rfl).2.2.2] at hc
            exact lt_irrefl b hc.2
        · rw [if_neg hcut]
          refine ⟨suf, ?_, h, .inl rfl⟩
          exact hm.trans (append_cons ..)
      obtain ⟨suf1, horder, hw, hrest⟩ := hclip
      have horder' : (m.clipEnd p b).order = pre ++ p :: suf1 := by
        exact horder.trans (append_cons ..).symm
      have hset := hw.setEntry (e := f ((m.clipEnd p b).entry p)) horder' (hlo _) (hhi _)
      have hnext : ((m.clipEnd p b).setEntry p (f ((m.clipEnd p b).entry p))).next p = suf1.headD 0 :=
        next_of_mem hset.ring horder'
      rw [hnext]
      rcases hrest with rfl | hstop
      · obtain ⟨suf', hsuf', -⟩ := ih hset horder (Nat.succ_lt_succ_iff.mp hn)
        refine ⟨p :: suf', ?_, rfl⟩
        rw [hsuf', append_assoc]
        rfl
      · rw [hstop]
        exact ⟨p :: suf1, horder', rfl⟩
    · rw [if_neg hlt]
      exact ⟨p :: suf, hm, rfl⟩

theorem faultLoop_failed {wire : MapEntry → Bool} {b n failed : ℕ} (h : m.WellFormed)
    (hm : m.order = pre ++ suf) (hclip : ∀ p ∈ suf, (m.entry p).start < b → (m.entry p).end_ ≤ b)
    (hn : suf.length < n) :
    faultLoop wire b n m (suf.headD 0) (some failed) =
      (changeLoop backOut b n m (suf.headD 0), some failed) := by
  induction suf generalizing m pre n with
  | nil =>
    obtain ⟨k, rfl⟩ : ∃ k, n = k + 1 := ⟨n - 1, by omega⟩
    unfold faultLoop changeLoop
    rw [headD_nil, if_neg fun hc => hc.1 rfl, if_neg fun hc => hc.1 rfl]
  | cons p suf ih =>
    obtain ⟨k, rfl⟩ : ∃ k, n = k + 1 := ⟨n - 1, by omega⟩
    unfold faultLoop changeLoop
    rw [headD_cons]
    by_cases hlt : p ≠ 0 ∧ (m.entry p).start < b
    · rw [if_pos hlt, if_pos hlt]
      dsimp only
      rw [if_pos isSome_some]
      have hno : m.clipEnd p b = m := if_neg (not_lt.mpr (hclip p mem_cons_self hlt.2))
      have hset := h.setEntry (e := backOut (m.entry p)) hm rfl rfl
      have hm' : (m.setEntry p (backOut (m.entry p))).order = (pre ++ [p]) ++ suf := by
        rw [append_assoc]
        exact hm
      have hnext : m.next p = suf.headD 0 := next_of_mem h.ring hm
      have hnext' : (m.setEntry p (backOut (m.entry p))).next p = suf.headD 0 :=
        next_of_mem hset.ring hm
      rw [hno, hnext, hnext']
      refine ih hset hm' (fun q hq => ?_) (Nat.succ_lt_succ_iff.mp hn)
      have hqp : q ≠ p := by
        rintro rfl
        exact (not_mem_of_nodup h.ring hm).2 hq
      rw [setEntry_entry, update_of_ne hqp]
      exact hclip q (mem_cons_of_mem p hq)
    · rw [if_neg hlt, if_neg hlt]

/-- **Pass 2** changes nothing, or takes back the counts from the entry on that could not be wired. -/
theorem faultLoop_spec {wire : MapEntry → Bool} {b n : ℕ} (h : m.WellFormed) (hm : m.order = pre ++ suf)
    (hclip : ∀ p ∈ suf, (m.entry p).start < b → (m.entry p).end_ ≤ b) (hn : suf.length < n) :
    faultLoop wire b n m (suf.headD 0) none = (m, none) ∨
      ∃ s1 p s2 k, suf = s1 ++ p :: s2 ∧ (p :: s2).length < k ∧ (m.entry p).start < b ∧
        faultLoop wire b n m (suf.headD 0) none =
          (changeLoop backOut b k m ((p :: s2).headD 0), some (m.entry p).start) := by
  induction suf generalizing pre n with
  | nil =>
    obtain ⟨k, rfl⟩ : ∃ k, n = k + 1 := ⟨n - 1, by omega⟩
    left
    unfold faultLoop
    rw [headD_nil, if_neg fun hc => hc.1 rfl]
  | cons p suf ih =>
    obtain ⟨k, rfl⟩ : ∃ k, n = k + 1 := ⟨n - 1, by omega⟩
    have hm' : m.order = (pre ++ [p]) ++ suf := hm.trans (append_cons pre p suf)
    have hnext : m.next p = suf.headD 0 := next_of_mem h.ring hm
    by_cases hlt : p ≠ 0 ∧ (m.entry p).start < b
    · by_cases hfail : (m.entry p).wiredCount = 1 ∧ wire (m.entry p) = false
      · right
        refine ⟨[], p, suf, k + 1, rfl, hn, hlt.2, ?_⟩
        unfold faultLoop changeLoop
        rw [headD_cons, if_pos hlt, if_pos hlt]
        dsimp only
        rw [if_neg (by decide : ¬ (none : Option ℕ).isSome = true), if_pos hfail]
        have hno : m.clipEnd p b = m := if_neg (not_lt.mpr (hclip p mem_cons_self hlt.2))
        have hset := h.setEntry (e := backOut (m.entry p)) hm rfl rfl
        have hms : (m.setEntry p (backOut (m.entry p))).order = (pre ++ [p]) ++ suf := hm'
        have hnext' : (m.setEntry p (backOut (m.entry p))).next p = suf.headD 0 :=
          next_of_mem hset.ring hm
        rw [hno, hnext, hnext']
        refine faultLoop_failed hset hms (fun q hq => ?_) (Nat.succ_lt_succ_iff.mp hn)
        have hqp : q ≠ p := by
          rintro rfl
          exact (not_mem_of_nodup h.ring hm).2 hq
        rw [setEntry_entry, update_of_ne hqp]
        exact hclip q (mem_cons_of_mem p hq)
      · have hstep : faultLoop wire b (k + 1) m ((p :: suf).headD 0) none =
            faultLoop wire b k m (suf.headD 0) none := by
          refine (if_pos hlt).trans ((if_neg Bool.false_ne_true).trans ((if_neg hfail).trans ?_))
          rw [headD_cons, hnext]
        rw [hstep]
        rcases ih hm' (fun q hq => hclip q (mem_cons_of_mem p hq)) (Nat.succ_lt_succ_iff.mp hn) with
          hnone | ⟨s1, q, s2, j, hsuf, hj, hq, hsome⟩
        · exact .inl hnone
        · exact .inr ⟨p :: s1, q, s2, j, by rw [hsuf]; rfl, hj, hq, hsome⟩
    · left
      unfold faultLoop
      rw [headD_cons, if_neg hlt]

theorem wiredCheck_of {b n : ℕ} (hring : (0 :: m.order).Nodup) (hm : m.order = pre ++ suf)
    (hwired : ∀ p ∈ suf, (m.entry p).start < b → (m.entry p).wiredCount ≠ 0) (hn : suf.length < n) :
    m.wiredCheck b n (suf.headD 0) = true := by
  induction suf generalizing pre n with
  | nil =>
    obtain ⟨k, rfl⟩ : ∃ k, n = k + 1 := ⟨n - 1, by omega⟩
    exact if_neg fun hc => hc.1 rfl
  | cons p suf ih =>
    obtain ⟨k, rfl⟩ : ∃ k, n = k + 1 := ⟨n - 1, by omega⟩
    have hm' : m.order = (pre ++ [p]) ++ suf := hm.trans (append_cons pre p suf)
    unfold wiredCheck
    rw [headD_cons]
    by_cases hlt : p ≠ 0 ∧ (m.entry p).start < b
    · rw [if_pos hlt, if_neg (hwired p mem_cons_self hlt.2), next_of_mem hring hm]
      exact ih hm' (fun q hq => hwired q (mem_cons_of_mem p hq)) (Nat.succ_lt_succ_iff.mp hn)
    · rw [if_neg hlt]

theorem unwire_wiredAt (h : m.WellFormed) {start end_ : ℕ} (hrange : m.rangeCheck start end_ = (start, end_))
    (hwired : ∀ a v, start ≤ a → a < end_ → m.wiredAt a = some v → v ≠ 0) (a : ℕ) :
    (m.unwire start end_).2.wiredAt a =
      if start ≤ a ∧ a < end_ then (m.wiredAt a).map (· - 1) else m.wiredAt a := by
  obtain ⟨pre, suf, hfirst, hdiv⟩ := clipFirst_spec h start
  have hlen : suf.length < (m.clipFirst start).2.order.length + 1 := by
    rw [hdiv.order, length_append]
    omega
  have hcheck : (m.clipFirst start).2.wiredCheck end_ ((m.clipFirst start).2.order.length + 1)
      (m.clipFirst start).1 = true := by
    rw [hfirst]
    refine wiredCheck_of hdiv.becomes.wellFormed.ring hdiv.order (fun p hp hlt => ?_) hlen
    have hmem : (m.clipFirst start).2.entry p ∈ (m.clipFirst start).2.es := by
      rw [es_append hdiv.order]
      exact mem_append_right _ (mem_map_of_mem hp)
    have hread := read_start hdiv.becomes.wellFormed hmem
    rw [hdiv.read] at hread
    have hsome : m.wiredAt ((m.clipFirst start).2.entry p).start =
        some ((m.clipFirst start).2.entry p).wiredCount := congrArg (Option.map Attr.wiredCount) hread
    exact hwired _ _ (hdiv.behind p hp) hlt hsome
  unfold unwire wiredAt
  rw [hrange]
  dsimp only
  rw [hcheck, if_pos rfl]
  exact changeFrom_read (f := backOut) (π := Attr.wiredCount) (g := (· - 1)) (fun _ => rfl)
    (fun _ => rfl) (fun _ _ => rfl) h start end_ a

/-- **Pass 1** over a range from `s` to `b`: a map that is divided at `s` as before, in which nothing has to
be clipped at `b` any more, with one count more in the range. -/
theorem wirePass_spec (h : m.WellFormed) (alloc : MapEntry → ℕ) (s b : ℕ) {m1 : VmMap}
    (hm1 : changeFrom (wireEntry alloc) b (m.clipFirst s) = m1) :
    ∃ pre suf, m1.order = pre ++ suf ∧ (m.clipFirst s).1 = suf.headD 0 ∧ m1.WellFormed ∧
      m1.entry 0 = m.entry 0 ∧ (∀ p ∈ suf, (m1.entry p).start < b → (m1.entry p).end_ ≤ b) ∧
      (∀ p ∈ suf, s ≤ (m1.entry p).start) ∧
      ∀ a, m1.wiredAt a = if s ≤ a ∧ a < b then (m.wiredAt a).map (· + 1) else m.wiredAt a := by
  obtain ⟨pre, suf, hfirst, hdiv⟩ := clipFirst_spec h s
  have hw0 := hdiv.becomes.wellFormed
  have hlen : suf.length < (m.clipFirst s).2.order.length + 1 := by
    rw [hdiv.order, length_append]
    omega
  have hup := changeFrom_read (π := Attr.wiredCount) (g := (· + 1)) (fun e => (wireEntry_spec alloc e).1)
    (fun e => (wireEntry_spec alloc e).2.1) (fun e => (wireEntry_spec alloc e).2.2) h s b
  have hbec := changeLoop_becomes (b := b) (fun e => (wireEntry_spec alloc e).1)
    (fun e => (wireEntry_spec alloc e).2.1) hw0 hdiv.order hlen
  obtain ⟨suf', horder, hhead⟩ := changeLoop_order (b := b) (fun e => (wireEntry_spec alloc e).1)
    (fun e => (wireEntry_spec alloc e).2.1) hw0 hdiv.order hlen
  rw [← hfirst] at hbec horder
  change Becomes (m.clipFirst s).2 (changeFrom (wireEntry alloc) b (m.clipFirst s)) _ at hbec
  change (changeFrom (wireEntry alloc) b (m.clipFirst s)).order = _ at horder
  rw [hm1] at hup hbec horder
  have hw1 := hbec.wellFormed
  have hsplit := hbec.es
  rw [es_append horder] at hsplit
  obtain ⟨-, hsuf⟩ := append_inj hsplit (by rw [length_map, length_map])
  refine ⟨pre, suf', horder, hfirst.trans hhead.symm, hw1, hbec.header.trans hdiv.becomes.header, ?_, ?_,
    hup⟩
  · have hord : entryRanges.Ordered (suf.map (m.clipFirst s).2.entry) := by
      have hord := hw0.ordered
      rw [es_append hdiv.order] at hord
      exact (Ranges.ordered_append.mp hord).2.1
    intro p hp
    have hmem : m1.entry p ∈ suf'.map m1.entry := mem_map_of_mem hp
    rw [hsuf] at hmem
    exact Ranges.hi_le_of_mem_editTo (fun e => (wireEntry_spec alloc e).2.1) hord _ hmem
  · cases suf' with
    | nil => exact fun p hp => absurd hp not_mem_nil
    | cons q rest =>
      have hq : q ∈ m1.order := by
        rw [horder]
        exact mem_append_cons_self
      -- the first entry begins where it began
      have hstart : s ≤ (m1.entry q).start := by
        cases suf with
        | nil => exact absurd hhead (ne_zero_of_mem hw1.ring hq)
        | cons q' rest' =>
          rw [map_cons, map_cons] at hsuf
          have hsame : (m1.entry q).start = ((m.clipFirst s).2.entry q').start := by
            unfold Ranges.editTo at hsuf
            split_ifs at hsuf
            · rw [(cons.inj hsuf).1, (wireEntry_spec alloc _).1]
              rfl
            · rw [(cons.inj hsuf).1, (wireEntry_spec alloc _).1]
            · rw [(cons.inj hsuf).1]
          rw [hsame]
          exact hdiv.behind q' mem_cons_self
      intro p hp
      rcases mem_cons.mp hp with rfl | hp
      · exact hstart
      · have hlt := hw1.start_lt_end hq
        have hle := hw1.end_le_start_of_cons horder hp
        omega

/-- **Pass 2** when it fails at an entry from `f` on: the counts from there on are taken back. -/
theorem faultLoop_wiredAt {wire : MapEntry → Bool} {s b n f : ℕ} {m2 : VmMap} (h : m.WellFormed)
    (hm : m.order = pre ++ suf) (hclip : ∀ p ∈ suf, (m.entry p).start < b → (m.entry p).end_ ≤ b)
    (hbehind : ∀ p ∈ suf, s ≤ (m.entry p).start) (hn : suf.length < n)
    (hloop : faultLoop wire b n m (suf.headD 0) none = (m2, some f)) :
    s ≤ f ∧ f < b ∧ m2.WellFormed ∧ m2.entry 0 = m.entry 0 ∧
      ∀ a, m2.wiredAt a = if f ≤ a ∧ a < b then (m.wiredAt a).map (· - 1) else m.wiredAt a := by
  rcases @faultLoop_spec _ _ _ wire _ _ h hm hclip hn with hnone | ⟨s1, p, s2, k, hsuf, hk, hp, hsome⟩
  · rw [hnone] at hloop
    cases hloop
  obtain ⟨rfl, hf⟩ := Prod.mk.inj (hsome.symm.trans hloop)
  obtain rfl := some.inj hf
  have horder : m.order = (pre ++ s1) ++ p :: s2 := by
    rw [hm, hsuf, append_assoc]
  have hbec := changeLoop_becomes (f := backOut) (b := b) (fun _ => rfl) (fun _ => rfl) h horder hk
  refine ⟨hbehind p (hsuf ▸ mem_append_cons_self), hp, hbec.wellFormed, hbec.header,
    changeLoop_read (f := backOut) (π := Attr.wiredCount) (g := (· - 1)) (fun _ => rfl)
      (fun _ => rfl) (fun _ _ => rfl) h horder ?_ ?_ hk⟩
  · exact fun q hq => h.end_le_start horder hq mem_cons_self
  · have hlt := h.start_lt_end (horder ▸ mem_append_cons_self : p ∈ m.order)
    intro q hq
    rcases mem_cons.mp hq with rfl | hq
    · exact le_rfl
    · have hle := h.end_le_start_of_cons horder hq
      omega

theorem map_add_sub (w : Option ℤ) : (w.map (· + 1)).map (· - 1) = w := by
  cases w with
  | none => rfl
  | some w => exact congrArg some (Int.add_sub_cancel w 1)

theorem rangeCheck_part {m' : VmMap} {start end_ s b f : ℕ} (hhead : m'.entry 0 = m.entry 0)
    (hrange : m.rangeCheck start end_ = (s, b)) (hsf : s ≤ f) (hfb : f < b) :
    m'.rangeCheck s f = (s, f) := by
  obtain ⟨hs, hb⟩ := Prod.mk.inj hrange
  have hbounds : m.minOffset ≤ s ∧ b ≤ m.maxOffset := by
    split_ifs at hs hb
    all_goals omega
  unfold rangeCheck minOffset maxOffset
  rw [hhead]
  unfold minOffset maxOffset at hbounds
  dsimp only
  rw [if_neg (not_lt.mpr hbounds.1), if_neg (by omega : ¬ (m.entry 0).end_ < f), if_neg (by omega : ¬ f < s)]

theorem pageable_wiredAt (h : m.WellFormed) (hcount : ∀ e ∈ m.es, 0 ≤ e.wiredCount) {start end_ : ℕ}
    {alloc : MapEntry → ℕ} {wire : MapEntry → Bool}
    (hfail : (m.pageable start end_ false alloc wire).1 = .failure) (a : ℕ) :
    (m.pageable start end_ false alloc wire).2.wiredAt a = m.wiredAt a := by
  have hpos : ∀ a v, m.wiredAt a = some v → 0 ≤ v := by
    intro a v hv
    obtain ⟨w, hw, rfl⟩ := map_eq_some_iff.mp hv
    obtain ⟨e, he, rfl⟩ := exists_of_read hw
    exact hcount e he
  obtain ⟨s, b, hrange⟩ : ∃ s b, m.rangeCheck start end_ = (s, b) := ⟨_, _, rfl⟩
  unfold pageable at hfail ⊢
  rw [if_neg Bool.false_ne_true] at hfail ⊢
  dsimp only at hfail ⊢
  rw [hrange] at hfail ⊢
  obtain ⟨m1, hm1⟩ : ∃ m1, changeFrom (wireEntry alloc) b (m.clipFirst s) = m1 := ⟨_, rfl⟩
  obtain ⟨pre, suf, horder, hfirst, hw1, hhead1, hclip, hbehind, hup⟩ := wirePass_spec h alloc s b hm1
  have hlen : suf.length < m1.order.length + 1 := by
    rw [horder, length_append]
    omega
  rw [hm1, hfirst] at hfail ⊢
  obtain ⟨m2, failed, hloop⟩ : ∃ m2 failed,
    faultLoop wire b (m1.order.length + 1) m1 (suf.headD 0) none = (m2, failed) := ⟨_, _, rfl⟩
  rw [hloop] at hfail ⊢
  cases failed with
  | none => cases hfail
  | some f =>
    dsimp only
    obtain ⟨hsf, hfb, hw2, hhead2, hdown⟩ := faultLoop_wiredAt hw1 horder hclip hbehind hlen hloop
    -- what is left of the counts is before `f`
    have hleft : ∀ a, m2.wiredAt a =
        if s ≤ a ∧ a < f then (m.wiredAt a).map (· + 1) else m.wiredAt a := by
      intro a
      rw [hdown a, hup a]
      by_cases hsb : s ≤ a ∧ a < b
      · rw [if_pos hsb]
        by_cases hfa : f ≤ a
        · rw [if_pos ⟨hfa, hsb.2⟩, if_neg fun hc => absurd hc.2 (not_lt.mpr hfa), map_add_sub]
        · rw [if_neg fun hc => hfa hc.1, if_pos ⟨hsb.1, not_le.mp hfa⟩]
      · rw [if_neg hsb, if_neg fun hc => hsb ⟨hsf.trans hc.1, hc.2⟩,
          if_neg fun hc => hsb ⟨hc.1, hc.2.trans hfb⟩]
    by_cases hne : s ≠ f
    · rw [if_pos hne]
      have hpart := rangeCheck_part (hhead2.trans hhead1) hrange hsf hfb
      rw [unwire_wiredAt hw2 hpart, hleft a]
      · by_cases hin : s ≤ a ∧ a < f
        · rw [if_pos hin, if_pos hin, map_add_sub]
        · rw [if_neg hin, if_neg hin]
      · intro a v hsa haf hv
        rw [hleft a, if_pos ⟨hsa, haf⟩] at hv
        obtain ⟨w, hw, rfl⟩ := map_eq_some_iff.mp hv
        have hw0 := hpos a w hw
        omega
    · rw [if_neg hne, hleft a, if_neg fun hc => hne (by omega)]

end wired

/-! ## Failed calls -/

section failed

variable {m : VmMap}

/-- The protections of an address. Source: vm_map.h, struct vm_map_entry -/
def protectionsAt (m : VmMap) (a : ℕ) : Option (BitVec 32 × BitVec 32) :=
  (m.read a).map fun v => (v.protection, v.maxProtection)

/-- The first entry of the range that stands in the way of a change of the protection is a submap.
Source: vm_map_protect -/
def StopsAtSubmap (m : VmMap) (range : ℕ × ℕ) (newProt : BitVec 32) : Prop :=
  ∃ before e behind, m.entriesIn range = before ++ e :: behind ∧ e.isSubMap = true ∧
    ∀ x ∈ before, x.isSubMap = false ∧ newProt &&& x.maxProtection = newProt

theorem stopsAtSubmap_iff {range : ℕ × ℕ} {newProt : BitVec 32} : StopsAtSubmap m range newProt ↔
    (m.entriesIn range).findSome? (refuse newProt) = some .invalidArgument := by
  have hsub : ∀ e : MapEntry, refuse newProt e = some .invalidArgument ↔ e.isSubMap = true := by
    intro e
    unfold refuse
    split_ifs with h1 h2
    · exact iff_of_true rfl h1
    · exact iff_of_false (by decide) h1
    · exact iff_of_false (by decide) h1
  have hnone : ∀ e : MapEntry, refuse newProt e = none ↔
      e.isSubMap = false ∧ newProt &&& e.maxProtection = newProt := by
    intro e
    unfold refuse
    split_ifs with h1 h2
    · exact iff_of_false id fun hc => absurd h1 (Bool.eq_false_iff.mp hc.1)
    · exact iff_of_false id fun hc => h2 hc.2
    · exact iff_of_true rfl ⟨Bool.eq_false_iff.mpr h1, not_not.mp h2⟩
  rw [findSome?_eq_some_iff]
  unfold StopsAtSubmap
  simp only [hsub, hnone]

/-- **Failed calls.** A `vm_map_protect` that fails has changed no protection, and has given back the
map lock exactly when `StopsAtSubmap` does not hold; a `vm_map_pageable` that fails to wire leaves every
count of wirings as it was, and the lock free. Source: vm_map_protect,
`vm_map_pageable`. Kind: C -/
theorem restore_iff (h : m.WellFormed) (hcount : ∀ e ∈ m.es, 0 ≤ e.wiredCount) (shares : ℕ → VmMap)
    (start end_ : ℕ) (newProt : BitVec 32) (setMax : Bool) :
    ((∃ r, m.vmMapProtect .free shares start end_ newProt setMax = some r ∧
        (r.code ≠ .success → r.lock = .free ∧ ∀ a, r.map.protectionsAt a = m.protectionsAt a)) ∧
      ∀ (kernel : Bool) (start end_ : ℕ) (alloc : MapEntry → ℕ) (wire : MapEntry → Bool),
        ∃ r, m.vmMapPageable .free kernel start end_ false alloc wire = some r ∧ r.lock = .free ∧
          (r.code = .failure → ∀ a, r.map.wiredAt a = m.wiredAt a)) ↔
      ¬ StopsAtSubmap m (m.rangeCheck start end_) newProt := by
  have hwire : ∀ (kernel : Bool) (start end_ : ℕ) (alloc : MapEntry → ℕ) (wire : MapEntry → Bool),
      ∃ r, m.vmMapPageable .free kernel start end_ false alloc wire = some r ∧ r.lock = .free ∧
        (r.code = .failure → ∀ a, r.map.wiredAt a = m.wiredAt a) := by
    intro kernel start end_ alloc wire
    exact ⟨_, vmMapPageable_eq m kernel start end_ false alloc wire, rfl, pageable_wiredAt h hcount⟩
  rw [and_iff_left hwire, stopsAtSubmap_iff]
  have hsame : (m.protect start end_ newProt setMax).1 ≠ .success →
      ∀ a, (m.protect start end_ newProt setMax).2.protectionsAt a = m.protectionsAt a := by
    intro hfail a
    unfold protectionsAt
    rw [(protect_spec h start end_ newProt setMax).2 a, if_neg fun hc => hfail hc.1]
  obtain ⟨r, hr, hcode, hmap⟩ := vmMapProtect_eq m shares start end_ newProt setMax
  rw [← hcode, ← hmap] at hsame
  have hlock : r.lock = .free ↔
      ¬ (m.entriesIn (m.rangeCheck start end_)).findSome? (refuse newProt) = some .invalidArgument := by
    have hrun := hr
    unfold vmMapProtect at hrun
    dsimp only at hrun
    rw [Lock.write_free, map_some, protectCheck_clipFirst h newProt (m.rangeCheck start end_)] at hrun
    rw [← some.inj hrun]
    split
    · rename_i hcheck
      rw [hcheck]
      exact iff_of_false (by decide : Lock.taken ≠ Lock.free) fun hc => hc rfl
    · rename_i r' hne hcheck
      rw [hcheck]
      exact iff_of_true rfl fun hc => hne (some.inj hc)
    · rename_i hcheck
      rw [hcheck]
      exact iff_of_true rfl fun hc => by cases hc
  rw [← hlock]
  constructor
  · rintro ⟨r', hr', hfail⟩
    obtain rfl := some.inj (hr.symm.trans hr')
    by_contra hheld
    have hcheck : (m.entriesIn (m.rangeCheck start end_)).findSome? (refuse newProt) =
        some .invalidArgument := not_not.mp (mt hlock.mpr hheld)
    refine hheld (hfail ?_).1
    rw [hcode]
    unfold protect
    dsimp only
    rw [protectCheck_clipFirst h newProt (m.rangeCheck start end_), hcheck]
    exact fun hc => by cases hc
  · exact fun hfree => ⟨r, hr, fun hfail => ⟨hfree, hsame hfail⟩⟩

/-- A map with a submap behind data. -/
def dataThenSubmap : VmMap where
  entry p :=
    if p = 1 then { start := 10, end_ := 20, object := 5, protection := 7, maxProtection := 5 }
    else if p = 2 then
      { start := 20, end_ := 40, object := 9, isSubMap := true, protection := 7, maxProtection := 7 }
    else { start := 0, end_ := 100 }
  order := [1, 2]
  nentries := 2
  size := 30
  isMainMap := true
  hint := 2
  firstFree := 0

theorem wellFormed_dataThenSubmap : dataThenSubmap.WellFormed :=
  ⟨by decide, ⟨by decide, by decide⟩, by decide, by decide, by decide⟩

/-- The map stays locked when the protection of the submap is to be changed.
Source: vm_map_protect. Kind: C -/
theorem not_restore : dataThenSubmap.WellFormed ∧ (∀ e ∈ dataThenSubmap.es, 0 ≤ e.wiredCount) ∧
    ∃ r, dataThenSubmap.vmMapProtect .free (fun _ => dataThenSubmap) 20 40 1 false = some r ∧
      r.code ≠ .success ∧ r.lock ≠ .free :=
  ⟨wellFormed_dataThenSubmap, by decide, _, rfl, by decide, by decide⟩

/-- With data that refuse before it the lock is given back. Source: vm_map_protect.
Kind: C -/
theorem restore_refused : ∃ r, dataThenSubmap.vmMapProtect .free (fun _ => dataThenSubmap) 10 40 7 false =
    some r ∧ (r.code ≠ .success → r.lock = .free ∧
      ∀ a, r.map.protectionsAt a = dataThenSubmap.protectionsAt a) := by
  refine ((restore_iff wellFormed_dataThenSubmap (by decide) (fun _ => dataThenSubmap) 10 40 7 false).mpr
    ?_).1
  rintro ⟨before, e, behind, hes, hsub, hbefore⟩
  have hall : dataThenSubmap.entriesIn (dataThenSubmap.rangeCheck 10 40) =
      [dataThenSubmap.entry 1, dataThenSubmap.entry 2] := rfl
  rw [hall] at hes
  cases before with
  | nil =>
    rw [← (cons.inj hes).1] at hsub
    exact absurd hsub (by decide)
  | cons x before =>
    have hx := (hbefore x mem_cons_self).2
    rw [← (cons.inj hes).1] at hx
    exact absurd hx (by decide)

end failed

end VmMap

end Bsd386.Vm
