import Bsd386.Lib.Ranges
import Bsd386.Vm.Map.Basic
import Mathlib.Data.List.Nodup
import Mathlib.Data.List.TakeWhile

/-!
# What a map says about addresses

The entries of a map are ranges in the sense of `Lib.Ranges` (`entryRanges`), so a map is read as a
partial function from addresses (`VmMap.read`). `WellFormed` is the invariant of the list and of the two
pointers into it that the map keeps.
-/

namespace Bsd386.Vm

open List Lib

/-! ## Reading -/

/-- What an address is mapped to. Source: none: what is claimed -/
structure Attr where
  object : ℕ
  isAMap : Bool
  isSubMap : Bool
  offset : BitVec 32
  protection : BitVec 32
  maxProtection : BitVec 32
  inheritance : ℤ
  wiredCount : ℤ
deriving DecidableEq

/-- What an entry maps an address to. Source: vm_map.h, struct vm_map_entry -/
def MapEntry.attr (e : MapEntry) (a : ℕ) : Attr where
  object := e.object
  isAMap := e.isAMap
  isSubMap := e.isSubMap
  offset := e.offset + BitVec.ofNat 32 (a - e.start)
  protection := e.protection
  maxProtection := e.maxProtection
  inheritance := e.inheritance
  wiredCount := e.wiredCount

/-- Entries as ranges: the parts are what the clipping makes of an entry.
Source: _vm_map_clip_start, _vm_map_clip_end -/
def entryRanges : Ranges ℕ MapEntry Attr where
  lo := MapEntry.start
  hi := MapEntry.end_
  val := MapEntry.attr
  front e a := { e with end_ := a }
  back e a := { e with start := a, offset := e.offset + BitVec.ofNat 32 (a - e.start) }
  lo_front _ _ := rfl
  hi_front _ _ := rfl
  lo_back _ _ := rfl
  hi_back _ _ := rfl
  val_front _ _ _ := rfl
  val_back e a x hea hax := by
    have hsum : a - e.start + (x - a) = x - e.start := by omega
    unfold MapEntry.attr
    rw [BitVec.add_assoc, ← BitVec.ofNat_add, hsum]

namespace VmMap

def es (m : VmMap) : List MapEntry := m.order.map m.entry

/-- The map as a partial function from addresses. Source: none: what is claimed -/
def read (m : VmMap) (a : ℕ) : Option Attr := entryRanges.read m.es a

/-- Entries in order, not empty, disjoint and within the bounds of the map; `hint` and `first_free` are
the header or an entry of the list. -/
structure WellFormed (m : VmMap) : Prop where
  ring : (0 :: m.order).Nodup
  ordered : entryRanges.Ordered m.es
  bounds : ∀ e ∈ m.es, m.minOffset ≤ e.start ∧ e.end_ ≤ m.maxOffset
  hint : m.hint ∈ 0 :: m.order
  firstFree : m.firstFree ∈ 0 :: m.order

/-! ## The ring -/

section ring

variable {m : VmMap} {pre suf : List ℕ} {p x : ℕ}

theorem exists_init (pre : List ℕ) : ∃ init, 0 :: pre = init ++ [pre.getLastD 0] := by
  rcases eq_nil_or_concat pre with rfl | ⟨init, p, rfl⟩
  · exact ⟨[], rfl⟩
  · refine ⟨0 :: init, ?_⟩
    rw [concat_eq_append, getLastD_concat]
    rfl

theorem getLastD_mem (pre : List ℕ) : pre.getLastD 0 ∈ 0 :: pre := by
  obtain ⟨init, hinit⟩ := exists_init pre
  rw [hinit]
  exact mem_append_right init mem_cons_self

section

variable (hring : (0 :: m.order).Nodup)
include hring

theorem next_eq (hm : m.order = pre ++ suf) :
    m.next (pre.getLastD 0) = suf.headD 0 := by
  obtain ⟨init, hinit⟩ := exists_init pre
  have hsplit : 0 :: m.order = init ++ pre.getLastD 0 :: suf := by
    rw [hm, ← cons_append, hinit, append_assoc]
    rfl
  have hnot : pre.getLastD 0 ∉ init := by
    rw [hsplit] at hring
    intro hmem
    exact (nodup_append.mp hring).2.2 _ hmem _ mem_cons_self rfl
  unfold next
  rw [hsplit, dropWhile_append_of_pos, dropWhile_cons_of_neg]
  · rfl
  · simp
  · intro q hq
    exact decide_eq_true fun heq => hnot (heq ▸ hq)

theorem next_of_mem (hm : m.order = pre ++ p :: suf) :
    m.next p = suf.headD 0 := by
  have hm' : m.order = (pre ++ [p]) ++ suf := hm.trans (append_cons pre p suf)
  have hnext := next_eq hring hm'
  rwa [getLastD_concat] at hnext

theorem prev_eq (hm : m.order = pre ++ suf) :
    m.prev (suf.headD 0) = pre.getLastD 0 := by
  have hnot : suf.headD 0 ∉ pre := by
    rw [hm] at hring
    cases suf with
    | nil => exact fun hmem => (nodup_cons.mp hring).1 (mem_append_left _ hmem)
    | cons q suf =>
      exact fun hmem => (nodup_append.mp (nodup_cons.mp hring).2).2.2 _ hmem _
        mem_cons_self rfl
  have htake : m.order.takeWhile (· ≠ suf.headD 0) = pre := by
    rw [hm, takeWhile_append_of_pos]
    · cases suf with
      | nil => rw [takeWhile_nil, append_nil]
      | cons q suf =>
        rw [takeWhile_cons_of_neg, append_nil]
        simp
    · intro q hq
      exact decide_eq_true fun heq => hnot (heq ▸ hq)
  unfold prev
  rw [htake]

theorem prev_of_mem (hm : m.order = pre ++ p :: suf) :
    m.prev p = pre.getLastD 0 := by
  have hprev := prev_eq hring hm
  rwa [headD_cons] at hprev

theorem next_zero : m.next 0 = m.order.headD 0 := by
  have hm : m.order = [] ++ m.order := rfl
  exact next_eq hring hm

end

theorem insertAfter_append {init l : List ℕ} (hp : p ∉ init) :
    insertAfter p x (init ++ p :: l) = init ++ p :: x :: l := by
  induction init with
  | nil => exact if_pos rfl
  | cons q init ih =>
    obtain ⟨hqp, hp⟩ := not_or.mp (mt mem_cons.mpr hp)
    exact (if_neg (Ne.symm hqp)).trans (congrArg _ (ih hp))

theorem link_order (hring : (0 :: m.order).Nodup) (hm : m.order = pre ++ suf) :
    (m.link (pre.getLastD 0) x).order = pre ++ x :: suf := by
  obtain ⟨init, hinit⟩ := exists_init pre
  have hsplit : 0 :: m.order = init ++ pre.getLastD 0 :: suf := by
    rw [hm, ← cons_append, hinit, append_assoc]
    rfl
  have hnot : pre.getLastD 0 ∉ init := by
    rw [hsplit] at hring
    intro hmem
    exact (nodup_append.mp hring).2.2 _ hmem _ mem_cons_self rfl
  have hins : insertAfter (pre.getLastD 0) x (0 :: m.order) = 0 :: (pre ++ x :: suf) := by
    rw [hsplit, insertAfter_append hnot]
    calc init ++ pre.getLastD 0 :: x :: suf
        = (init ++ [pre.getLastD 0]) ++ x :: suf := by rw [append_assoc]; rfl
      _ = 0 :: (pre ++ x :: suf) := by rw [← hinit]; rfl
  unfold link
  rw [hins]
  rfl

theorem unlink_order (hring : (0 :: m.order).Nodup) (hm : m.order = pre ++ p :: suf) :
    (m.unlink p).order = pre ++ suf := by
  have hnot : p ∉ pre := by
    rw [hm] at hring
    exact fun hmem => (nodup_append.mp (nodup_cons.mp hring).2).2.2 _ hmem _
      mem_cons_self rfl
  unfold unlink
  rw [hm, erase_append_right _ hnot, erase_cons_head]

theorem create_not_mem (m : VmMap) : m.create ∉ 0 :: m.order := by
  have hlt : ∀ l : List ℕ, ∀ q ∈ l, q ≤ l.foldr max 0 := by
    intro l
    induction l with
    | nil => exact fun q hq => absurd hq (not_mem_nil)
    | cons r l ih =>
      intro q hq
      rcases mem_cons.mp hq with rfl | hq
      · exact le_max_left _ _
      · exact (ih q hq).trans (le_max_right _ _)
  unfold create
  intro hmem
  rcases mem_cons.mp hmem with h0 | hmem
  · exact absurd h0 (Nat.succ_ne_zero _)
  · exact absurd (hlt m.order _ hmem) (by omega)

end ring

/-! ## Neighbours -/

section neighbours

variable {m : VmMap} {pre suf : List ℕ} {p q : ℕ}

theorem es_append (hm : m.order = pre ++ suf) : m.es = pre.map m.entry ++ suf.map m.entry := by
  unfold es
  rw [hm, map_append]

theorem es_split (hm : m.order = pre ++ p :: suf) :
    m.es = pre.map m.entry ++ m.entry p :: suf.map m.entry :=
  es_append hm

theorem WellFormed.start_lt_end (h : m.WellFormed) (hp : p ∈ m.order) :
    (m.entry p).start < (m.entry p).end_ :=
  h.ordered.nonempty _ (mem_map_of_mem hp)

theorem WellFormed.end_le_start (h : m.WellFormed) (hm : m.order = pre ++ suf) (hp : p ∈ pre)
    (hq : q ∈ suf) : (m.entry p).end_ ≤ (m.entry q).start := by
  have hord := h.ordered
  rw [es_append hm] at hord
  exact (Ranges.ordered_append.mp hord).2.2 _ (mem_map_of_mem hp) _ (mem_map_of_mem hq)

theorem WellFormed.end_le_start_of_cons (h : m.WellFormed) (hm : m.order = pre ++ p :: suf)
    (hq : q ∈ suf) : (m.entry p).end_ ≤ (m.entry q).start := by
  have hm' : m.order = (pre ++ [p]) ++ suf := hm.trans (append_cons pre p suf)
  exact h.end_le_start hm' (mem_append_right pre mem_cons_self) hq

theorem ne_zero_of_mem (hring : (0 :: m.order).Nodup) (hp : p ∈ m.order) : p ≠ 0 := by
  rintro rfl
  exact (nodup_cons.mp hring).1 hp

end neighbours

/-! ## Lookup -/

section lookup

variable {m : VmMap} {pre seg rest : List ℕ} {a : ℕ}

theorem search_spec (hring : (0 :: m.order).Nodup) (hm : m.order = pre ++ (seg ++ rest)) {n : ℕ}
    (hn : seg.length < n) :
    ∃ s1 s2, seg = s1 ++ s2 ∧ m.search a (rest.headD 0) n ((seg ++ rest).headD 0) = (s2 ++ rest).headD 0 ∧
      (∀ p ∈ s1, (m.entry p).end_ ≤ a) ∧ ∀ p ∈ s2.head?, p ≠ rest.headD 0 ∧ a < (m.entry p).end_ := by
  induction seg generalizing pre n with
  | nil =>
    obtain ⟨k, rfl⟩ := Nat.exists_eq_add_of_lt hn
    exact ⟨[], [], rfl, if_pos rfl, fun p hp => absurd hp not_mem_nil, fun p hp => by cases hp⟩
  | cons q seg ih =>
    obtain ⟨k, rfl⟩ : ∃ k, n = k + 1 := ⟨n - 1, by omega⟩
    have hk : seg.length < k := Nat.succ_lt_succ_iff.mp hn
    have hne : q ≠ rest.headD 0 := by
      rw [hm] at hring
      have hq := (nodup_cons.mp (nodup_append.mp (nodup_cons.mp hring).2).2.1).1
      cases rest with
      | nil =>
        rintro rfl
        exact (nodup_cons.mp hring).1 (mem_append_right pre mem_cons_self)
      | cons r rest =>
        rintro rfl
        exact hq (mem_append_right seg mem_cons_self)
    unfold search
    rw [cons_append, headD_cons, if_neg hne]
    by_cases hend : a < (m.entry q).end_
    · rw [if_pos hend]
      refine ⟨[], q :: seg, rfl, rfl, fun p hp => absurd hp not_mem_nil, ?_⟩
      intro p hp
      obtain rfl := Option.some.inj hp
      exact ⟨hne, hend⟩
    rw [if_neg hend, next_of_mem hring hm]
    have hm' : m.order = (pre ++ [q]) ++ (seg ++ rest) := by
      rw [hm, append_assoc]
      rfl
    obtain ⟨s1, s2, hs, hsearch, hle, hhead⟩ := ih hm' hk
    refine ⟨q :: s1, s2, by rw [hs]; rfl, hsearch, ?_, hhead⟩
    exact forall_mem_cons.mpr ⟨not_lt.mp hend, hle⟩

/-- What a lookup of `a` returns: the list is divided into what ends before the address and the rest;
the address is in the first entry of the rest, or before all of it. Only the hint may change.
Source: vm_map_lookup_entry -/
def LookupSpec (m : VmMap) (a : ℕ) (r : Bool × ℕ × VmMap) : Prop :=
  ∃ pre suf, m.order = pre ++ suf ∧ (∀ p ∈ pre, (m.entry p).end_ ≤ a) ∧
    (∃ hint ∈ 0 :: m.order, r.2.2 = m.saveHint hint ∧ (r.1 = false → hint = pre.getLastD 0)) ∧
    ((r.1 = true ∧ ∃ suf', suf = r.2.1 :: suf' ∧ (m.entry r.2.1).start ≤ a ∧ a < (m.entry r.2.1).end_) ∨
     (r.1 = false ∧ r.2.1 = pre.getLastD 0 ∧ ∀ p ∈ suf, a < (m.entry p).start))

theorem lookupFrom_spec (h : m.WellFormed) (hm : m.order = pre ++ (seg ++ rest))
    (hpre : ∀ p ∈ pre, (m.entry p).end_ ≤ a) (hrest : ∀ p ∈ rest, a < (m.entry p).start) :
    LookupSpec m a (m.lookupFrom a ((seg ++ rest).headD 0) (rest.headD 0)) := by
  have hlen : seg.length < m.order.length + 1 := by
    rw [hm, length_append, length_append]
    omega
  obtain ⟨s1, s2, hs, hsearch, hle, hhead⟩ := search_spec (a := a) h.ring hm hlen
  have hm' : m.order = (pre ++ s1) ++ (s2 ++ rest) := by
    rw [hm, hs, append_assoc, append_assoc]
  have hpre' : ∀ p ∈ pre ++ s1, (m.entry p).end_ ≤ a := by
    intro p hp
    rcases mem_append.mp hp with hp | hp
    · exact hpre p hp
    · exact hle p hp
  have hmem : (pre ++ s1).getLastD 0 ∈ 0 :: m.order := by
    have hlast := getLastD_mem (pre ++ s1)
    rw [hm']
    exact cons_subset_cons 0 (subset_append_left _ _) hlast
  refine ⟨pre ++ s1, s2 ++ rest, hm', hpre', ?_⟩
  unfold lookupFrom
  rw [hsearch]
  cases s2 with
  | nil =>
    rw [nil_append, if_neg fun hc => hc.1 rfl]
    have hprev : m.prev (rest.headD 0) = (pre ++ s1).getLastD 0 := prev_eq h.ring hm'
    rw [hprev]
    exact ⟨⟨_, hmem, rfl, fun _ => rfl⟩, .inr ⟨rfl, rfl, hrest⟩⟩
  | cons q s2 =>
    obtain ⟨hne, hend⟩ := hhead q rfl
    rw [cons_append, headD_cons]
    by_cases hstart : (m.entry q).start ≤ a
    · rw [if_pos ⟨hne, hstart⟩]
      refine ⟨⟨q, ?_, rfl, fun hf => by cases hf⟩, .inl ⟨rfl, _, rfl, hstart, hend⟩⟩
      rw [hm']
      exact mem_cons_of_mem 0 mem_append_cons_self
    rw [if_neg fun hc => hstart hc.2]
    have hprev : m.prev q = (pre ++ s1).getLastD 0 := prev_of_mem h.ring hm'
    rw [hprev]
    refine ⟨⟨_, hmem, rfl, fun _ => rfl⟩, .inr ⟨rfl, rfl, ?_⟩⟩
    intro p hp
    rcases mem_cons.mp hp with rfl | hp
    · exact not_le.mp hstart
    · exact hend.trans_le (h.end_le_start_of_cons hm' hp)

theorem lookupEntry_spec (h : m.WellFormed) (a : ℕ) : LookupSpec m a (m.lookupEntry a) := by
  -- where the search starts: no entry at all, or one of the list
  have hcur : (m.order = [] ∧ (if m.hint = 0 then m.next m.hint else m.hint) = 0) ∨
      (if m.hint = 0 then m.next m.hint else m.hint) ∈ m.order := by
    by_cases h0 : m.hint = 0
    · rw [if_pos h0, h0, next_zero h.ring]
      cases hm : m.order with
      | nil => exact .inl ⟨rfl, rfl⟩
      | cons q l => exact .inr mem_cons_self
    rw [if_neg h0]
    rcases mem_cons.mp h.hint with h0' | hmem
    · exact absurd h0' h0
    · exact .inr hmem
  unfold lookupEntry
  obtain ⟨cur, hc⟩ : ∃ cur, (if m.hint = 0 then m.next m.hint else m.hint) = cur := ⟨_, rfl⟩
  dsimp only
  rw [hc] at hcur ⊢
  have hnext0 : m.next 0 = m.order.headD 0 := next_zero h.ring
  rcases hcur with ⟨hnil, rfl⟩ | hmem
  · rw [hnext0, hnil]
    have hm : m.order = [] ++ ([] ++ []) := hnil
    have hfrom := lookupFrom_spec (a := a) h hm
      (fun p hp => absurd hp not_mem_nil) (fun p hp => absurd hp not_mem_nil)
    rw [if_neg fun hq : 0 ≠ 0 ∧ a < (m.entry 0).end_ => hq.1 rfl, headD_nil]
    split_ifs
    · exact hfrom
    · exact hfrom
  · obtain ⟨pre, suf, hm⟩ := append_of_mem hmem
    have hne := ne_zero_of_mem h.ring hmem
    by_cases hstart : (m.entry cur).start ≤ a
    · have hpre : ∀ p ∈ pre, (m.entry p).end_ ≤ a := fun p hp =>
        (h.end_le_start hm hp mem_cons_self).trans hstart
      rw [if_pos hstart]
      by_cases hend : a < (m.entry cur).end_
      · rw [if_pos ⟨hne, hend⟩]
        exact ⟨pre, cur :: suf, hm, hpre, ⟨m.hint, h.hint, rfl, fun hf => by cases hf⟩,
          .inl ⟨rfl, suf, rfl, hstart, hend⟩⟩
      rw [if_neg fun hq => hend hq.2]
      have hm' : m.order = pre ++ ((cur :: suf) ++ []) := by rw [hm, append_nil]
      have hfrom := lookupFrom_spec (a := a) h hm' hpre (fun p hp => absurd hp not_mem_nil)
      rw [append_nil] at hfrom
      exact hfrom
    · rw [if_neg hstart, hnext0, next_of_mem h.ring hm]
      have hm' : m.order = [] ++ ((pre ++ [cur]) ++ suf) := by
        rw [hm, append_assoc]
        rfl
      have hfrom := lookupFrom_spec (a := a) h hm' (fun p hp => absurd hp not_mem_nil) ?_
      · rw [← nil_append (pre ++ [cur] ++ suf), ← hm'] at hfrom
        exact hfrom
      · intro p hp
        have hlt := h.start_lt_end hmem
        have hle := h.end_le_start_of_cons hm hp
        omega

theorem lookupEntry_cases (h : m.WellFormed) (a : ℕ) :
    ∃ pre suf, m.order = pre ++ suf ∧ (∀ p ∈ pre, (m.entry p).end_ ≤ a) ∧ ∃ hint ∈ 0 :: m.order,
      (∃ p suf', suf = p :: suf' ∧ m.lookupEntry a = (true, p, m.saveHint hint) ∧
        (m.entry p).start ≤ a ∧ a < (m.entry p).end_) ∨
      (m.lookupEntry a = (false, pre.getLastD 0, m.saveHint hint) ∧ hint = pre.getLastD 0 ∧
        ∀ p ∈ suf, a < (m.entry p).start) := by
  obtain ⟨pre, suf, hm, hpre, ⟨hint, hmem, hsave, hprev⟩, hres⟩ := lookupEntry_spec h a
  refine ⟨pre, suf, hm, hpre, hint, hmem, ?_⟩
  rcases hres with ⟨hfound, suf', hsuf, hin⟩ | ⟨hnot, hlast, hsuf⟩
  · exact .inl ⟨_, suf', hsuf, Prod.ext hfound (Prod.ext rfl hsave), hin⟩
  · exact .inr ⟨Prod.ext hnot (Prod.ext hlast hsave), hprev hnot, hsuf⟩

/-- A scan from the list head: is the address mapped, and the entry that contains it or the last one, or
the header, behind which it is. Source: none: what is claimed. -/
def scan (m : VmMap) (a : ℕ) : ℕ → List ℕ → Bool × ℕ
  | before, [] => (false, before)
  | before, p :: l =>
    if a < (m.entry p).end_ then
      if (m.entry p).start ≤ a then (true, p) else (false, before)
    else scan m a p l

theorem scan_append (hpre : ∀ p ∈ pre, (m.entry p).end_ ≤ a) (before : ℕ) (suf : List ℕ) :
    m.scan a before (pre ++ suf) = m.scan a (pre.getLastD before) suf := by
  induction pre generalizing before with
  | nil => rfl
  | cons p pre ih =>
    rw [cons_append, scan, if_neg (not_lt.mpr (hpre p mem_cons_self)),
      ih (fun q hq => hpre q (mem_cons_of_mem p hq)), getLastD_cons]

/-- **A lookup from any hint** is a scan from the list head, and leaves such a hint. Kind: P. -/
theorem lookupEntry_eq_scan (h : m.WellFormed) {hint : ℕ} (hhint : hint ∈ 0 :: m.order) (a : ℕ) :
    ∃ found p, ∃ hint' ∈ 0 :: m.order,
      (m.saveHint hint).lookupEntry a = (found, p, m.saveHint hint') ∧ m.scan a 0 m.order = (found, p) ∧
      (found = true → p ∈ m.order ∧ (m.entry p).start ≤ a ∧ a < (m.entry p).end_) ∧
      (found = false → (∀ q ∈ m.order, ¬((m.entry q).start ≤ a ∧ a < (m.entry q).end_)) ∧
        ∃ pre suf, m.order = pre ++ suf ∧ p = pre.getLastD 0 ∧ (∀ q ∈ pre, (m.entry q).end_ ≤ a) ∧
          ∀ q ∈ suf, a < (m.entry q).end_) := by
  have hw : (m.saveHint hint).WellFormed := ⟨h.ring, h.ordered, h.bounds, hhint, h.firstFree⟩
  obtain ⟨pre, suf, hm, hpre, hint', hmem, ⟨p, suf', rfl, hr, hin⟩ | ⟨hr, -, hsuf⟩⟩ :=
    lookupEntry_cases hw a
  · refine ⟨true, p, hint', hmem, hr, ?_, fun _ => ⟨?_, hin⟩, nofun⟩
    · rw [show m.order = pre ++ p :: suf' from hm, scan_append (m := m) hpre, scan]
      exact (if_pos hin.2).trans (if_pos hin.1)
    · rw [show m.order = pre ++ p :: suf' from hm]
      exact mem_append_cons_self
  have hend : ∀ q ∈ suf, a < (m.entry q).end_ := fun q hq =>
    (hsuf q hq).trans (hw.start_lt_end (hm ▸ mem_append_right pre hq))
  refine ⟨false, pre.getLastD 0, hint', hmem, hr, ?_, nofun, fun _ => ⟨fun q hq hin => ?_,
    pre, suf, hm, rfl, hpre, hend⟩⟩
  · rw [show m.order = pre ++ suf from hm, scan_append (m := m) hpre]
    cases suf with
    | nil => rfl
    | cons q suf =>
      rw [scan, if_pos (hend q mem_cons_self)]
      exact if_neg (not_le.mpr (hsuf q mem_cons_self))
  · rcases mem_append.mp (show q ∈ pre ++ suf from hm ▸ hq) with hq | hq
    · exact absurd hin.2 (not_lt.mpr (hpre q hq))
    · exact absurd hin.1 (not_le.mpr (hsuf q hq))

end lookup

end VmMap

end Bsd386.Vm
