import Bsd386.Kern.Malloc.Areas
import Bsd386.Kern.Malloc.Gc

/-!
# The calls

What `malloc` does between two sleep points, and what `free` does: `Inv.again`, `Inv.kmem`, `Inv.free`.
-/

namespace Bsd386.Kern.Malloc

open Function Lib.Linked Finset Kern
open Kern (elmOf highwatOf)

variable {k k' : Kern} {p q i j n a b : ℕ} {live : Finset ℕ} {req : ℕ → Block} {fl : ℕ → List ℕ} {c : Caller}

/-! ## The size of a new area -/

theorem Caller.size_cases (hsize : c.size < 2 ^ 32) (hpos : 0 < c.npg) (hlt : c.npg * clbytes < 2 ^ 31) :
    (c.indx < 14 ∧ c.allocsize = 2 ^ c.indx ∧ c.npg * clbytes = elmOf c.indx * 2 ^ c.indx) ∨
      14 ≤ c.indx ∧ maxallocsave < c.allocsize ∧ c.allocsize < 2 ^ 31 ∧ c.npg * clbytes = c.allocsize ∧
        c.size ≤ c.allocsize := by
  have hcl : clbytes = 4096 := rfl
  by_cases hsmall : c.size ≤ maxallocsave
  · refine .inl ?_
    have halloc : c.allocsize = 2 ^ c.indx := if_neg (not_lt.mpr hsmall)
    obtain ⟨hidx, -⟩ := bucketindx_small hsmall
    refine ⟨hidx, halloc, ?_⟩
    have hfits : ∀ i < 14, (2 ^ i + 4095) % 2 ^ 32 / 4096 * 4096 = elmOf i * 2 ^ i := by decide
    have hnpg : c.npg = (c.allocsize + 4095) % 2 ^ 32 / 4096 := rfl
    rw [hnpg, halloc, hcl]
    exact hfits _ hidx
  · refine .inr ⟨bucketindx_large (not_le.mp hsmall), ?_⟩
    have halloc : c.allocsize = (c.size + 4095) % 2 ^ 32 / 4096 * 4096 := if_pos (not_le.mp hsmall)
    have hnpg : c.npg = (c.allocsize + 4095) % 2 ^ 32 / 4096 := rfl
    rw [hcl] at hlt ⊢
    omega

theorem Layout.npg_lt (h : Layout k) (hfresh : k.Fresh p n) : n * clbytes < 2 ^ 31 := by
  have hle : n ≤ k.kmemsize / clbytes := (Nat.le_add_left n p).trans hfresh.2.1
  have hmul := (Nat.mul_le_mul_right clbytes hle).trans (Nat.div_mul_le_self _ _)
  exact hmul.trans_lt h.size

/-! ## The chunks of a new area -/

/-- The chunks from the last one down. Source: malloc -/
def cells (va size : ℕ) : ℕ → List ℕ
  | 0 => [va]
  | m + 1 => (va + (m + 1) * size) :: cells va size m

theorem mem_cells {va size m : ℕ} : a ∈ cells va size m ↔ ∃ j < m + 1, va + j * size = a := by
  induction m with
  | zero =>
    rw [cells, List.mem_singleton]
    constructor
    · rintro rfl
      exact ⟨0, Nat.one_pos, by rw [Nat.zero_mul, Nat.add_zero]⟩
    · rintro ⟨j, hj, rfl⟩
      rw [Nat.lt_one_iff.mp hj, Nat.zero_mul, Nat.add_zero]
  | succ m ih =>
    rw [cells, List.mem_cons, ih]
    constructor
    · rintro (rfl | ⟨j, hj, rfl⟩)
      · exact ⟨m + 1, Nat.lt_succ_self _, rfl⟩
      · exact ⟨j, by omega, rfl⟩
    · rintro ⟨j, hj, rfl⟩
      by_cases hjm : j = m + 1
      · exact .inl (by rw [hjm])
      · exact .inr ⟨j, by omega, rfl⟩

theorem carve_spec {va size saved m : ℕ} {word : ℕ → ℕ} {l : List ℕ} (hva : 0 < va) (hsize : 0 < size)
    (hn : m < n) (hl : Linked (fun a => ptr (word a)) (ptr saved) l) (hdisj : ∀ a ∈ l, a ∉ cells va size m) :
    ∃ w, Kern.carve va size saved n (va + m * size) word = some w ∧ (∀ a, a ∉ cells va size m → w a = word a) ∧
      Linked (fun a => ptr (w a)) (ptr (va + m * size)) (cells va size m ++ l) := by
  induction m generalizing n word with
  | zero =>
    obtain ⟨n, rfl⟩ : ∃ r, n = r + 1 := ⟨n - 1, by omega⟩
    simp only [Nat.zero_mul, Nat.add_zero]
    refine ⟨update word va saved, by rw [carve, if_neg (lt_irrefl va)], fun a ha => ?_, ?_⟩
    · exact update_of_ne (fun heq => ha (List.mem_singleton.mpr heq)) _ _
    · refine ⟨ptr_of_pos hva, ?_⟩
      change Linked _ (ptr (update word va saved va)) l
      rw [update_self]
      refine hl.congr fun a ha => ?_
      rw [update_of_ne fun heq => hdisj a ha (List.mem_singleton.mpr heq)]
  | succ m ih =>
    obtain ⟨n, rfl⟩ : ∃ r, n = r + 1 := ⟨n - 1, by omega⟩
    have hsub : va + (m + 1) * size - size = va + m * size := by
      rw [Nat.succ_mul]
      omega
    have hlt : va < va + (m + 1) * size := Nat.lt_add_of_pos_right (Nat.mul_pos (Nat.succ_pos m) hsize)
    have htop : va + (m + 1) * size ∉ cells va size m := by
      intro htop
      obtain ⟨j, hj, heq⟩ := mem_cells.mp htop
      have := Nat.eq_of_mul_eq_mul_right hsize (Nat.add_left_cancel heq)
      omega
    have hmem : ∀ {a}, a ∉ cells va size (m + 1) → a ≠ va + (m + 1) * size ∧ a ∉ cells va size m :=
      fun ha => not_or.mp fun hor => ha (List.mem_cons.mpr hor)
    have hl' : Linked (fun a => ptr (update word (va + (m + 1) * size) (va + m * size) a)) (ptr saved) l :=
      hl.congr fun a ha => by rw [update_of_ne (hmem (hdisj a ha)).1]
    obtain ⟨w, hw, hsame, hlinked⟩ := ih (Nat.lt_of_succ_lt_succ hn) hl' fun a ha => (hmem (hdisj a ha)).2
    refine ⟨w, ?_, fun a ha => ?_, ptr_of_pos (by omega), ?_⟩
    · rw [carve, if_pos hlt, hsub]
      exact hw
    · rw [hsame a (hmem ha).2, update_of_ne (hmem ha).1]
    · change Linked _ (ptr (w (va + (m + 1) * size))) (cells va size m ++ l)
      rw [hsame _ htop, update_self]
      exact hlinked

/-! ## What a step leaves behind -/

/-- The allocator after a part of the call `c`. -/
def After (live : Finset ℕ) (req : ℕ → Block) (c : Caller) : Result × Kern → Prop
  | (.again, k) | (.kmem, k) => ∃ fl, Inv k live req fl
  | (.ret va, k) =>
    va = 0 ∧ (∃ fl, Inv k live req fl) ∨
      va ≠ 0 ∧ va ∉ live ∧ ∃ fl, Inv k (insert va live) (update req va ⟨c.size, c.type⟩) fl
  | (.panic, _) => True
  | (.fault, _) => False

namespace Inv

section

variable (h : Inv k live req fl)
include h

theorem after_take (hnext : (k.bucket c.indx).kbNext ≠ 0) : After live req c (k.take c) := by
  have hlinked := h.linked c.indx
  cases hfl : fl c.indx with
  | nil =>
    rw [hfl] at hlinked
    exact absurd (ptr_eq_none.mp hlinked) hnext
  | cons a l =>
    have hmem : a ∈ fl c.indx := hfl ▸ List.mem_cons_self
    have hpos := (h.layout.chunk_mem (h.mem.mp hmem).1).1
    obtain ⟨hfree, hinv⟩ := h.take hfl
    have hret := h.take_ret hfl
    obtain ⟨k', hk'⟩ : ∃ k', k.take c = (.ret a, k') := ⟨_, Prod.ext hret rfl⟩
    rw [hk'] at hinv ⊢
    exact .inr ⟨hpos.ne', hfree, _, hinv⟩

theorem after_again (htype : c.type < mLast) : After live req c (k.again c) := by
  rw [again, if_neg (not_le.mpr htype)]
  by_cases hlimit : (k.stats c.type).ksLimit ≤ (k.stats c.type).ksMemuse
  · rw [if_pos hlimit]
    by_cases hwait : c.wait = .nowait
    · rw [if_pos hwait]
      exact .inl ⟨rfl, fl, h⟩
    · rw [if_neg hwait]
      exact ⟨fl, h⟩
  · rw [if_neg hlimit]
    by_cases hnext : (k.bucket c.indx).kbNext = 0
    · rw [if_pos hnext]
      by_cases hgc : k.needgc = true ∧ c.wait = .waitok
      · obtain ⟨freed, k', fl', hk', h'⟩ := h.mallocGc false
        rw [if_pos hgc, hk']
        exact ⟨fl', h'⟩
      · rw [if_neg hgc]
        exact ⟨fl, h⟩
    · rw [if_neg hnext]
      exact h.after_take hnext

theorem after_kmem_none : After live req c (k.kmem c none) := by
  rw [kmem]
  by_cases hwait : c.wait = .waitok
  · obtain ⟨freed, k', fl', hk', h'⟩ := h.mallocGc true
    rw [if_pos hwait, hk']
    change After live req c (if freed ≠ 0 then (.again, k') else (.panic, k'))
    by_cases hfreed : freed ≠ 0
    · rw [if_pos hfreed]
      exact ⟨fl', h'⟩
    · rw [if_neg hfreed]
      trivial
  · rw [if_neg hwait]
    exact .inl ⟨rfl, fl, h⟩

omit h in
theorem span_of_small (hn : n * clbytes = elmOf i * 2 ^ i) : (2 ^ i + (clbytes - 1)) / clbytes = n := by
  have hcl : clbytes = 4096 := rfl
  have hpos : 0 < 2 ^ i := Nat.two_pow_pos i
  rw [hcl] at hn ⊢
  by_cases h12 : i < 12
  · have hle : 2 ^ i ≤ 2 ^ 12 := Nat.pow_le_pow_right Nat.two_pos h12.le
    have hmul : elmOf i * 2 ^ i = 4096 := elmOf_mul_pow h12
    omega
  · rw [elmOf_of_le (not_lt.mp h12), Nat.one_mul] at hn
    omega

theorem after_kmem_small (hfresh : k.Fresh p c.npg) (hi : c.indx < 14)
    (halloc : c.allocsize = 2 ^ c.indx) (hnpg : c.npg * clbytes = elmOf c.indx * 2 ^ c.indx) :
    After live req c (k.kmem c (some p)) := by
  obtain ⟨i, hidx⟩ : ∃ i, i = c.indx := ⟨_, rfl⟩
  rw [← hidx] at hi halloc hnpg
  have hmem : 4 ≤ i ∧ i < 20 := hidx ▸ bucketindx_mem c.size
  have helm : (k.bucket i).kbElmpercl = elmOf i := (h.layout.tuned i hmem.2).1
  have hpow : 2 ^ i ≤ maxallocsave := Nat.pow_le_pow_right Nat.two_pos (show i ≤ 13 by omega)
  have hpos : 0 < 2 ^ i := Nat.two_pow_pos i
  obtain ⟨m, hm⟩ : ∃ m, elmOf i = m + 1 := ⟨elmOf i - 1, by have := elmOf_pos i; omega⟩
  have hva : 0 < k.addrOf p := Nat.lt_of_lt_of_le h.layout.base (Nat.le_add_right _ _)
  -- the last chunk
  have hlast : k.addrOf p + c.npg * clbytes - 2 ^ i = k.addrOf p + m * 2 ^ i := by
    rw [hnpg, hm, Nat.succ_mul]
    omega
  have hp := notMem_areas h.layout hfresh
  have hcells : ∀ {a}, a ∈ cells (k.addrOf p) (2 ^ i) m → k.btokup a = p := by
    intro a ha
    obtain ⟨j, hj, rfl⟩ := mem_cells.mp ha
    have hlt := slot_lt (hm ▸ hj)
    simp only [btokup, addrOf, clbytes]
    omega
  have hdisj : ∀ a ∈ fl i, a ∉ cells (k.addrOf p) (2 ^ i) m := by
    intro a ha hac
    have hin := (mem_chunks.mp (h.mem.mp ha).1).1
    rw [hcells hac] at hin
    exact hp hin
  obtain ⟨w, hw, hsame, hlinked⟩ := carve_spec (n := clbytes + 1) hva hpos
    (by have := elmOf_le hmem.1; simp only [clbytes]; omega) (h.linked i) hdisj
  obtain ⟨k1, hk1⟩ : ∃ k1, k1 = { k with
      word := w
      map := fun q => if p ≤ q ∧ q < p + c.npg then true else k.map q
      areas := insert p k.areas
      bucket := update k.bucket i { k.bucket i with
        kbNext := k.addrOf p + m * 2 ^ i
        kbTotal := (k.bucket i).kbTotal + elmOf i
        kbTotalfree := (k.bucket i).kbTotalfree + elmOf i }
      usage := update k.usage p { k.usage p with kuIndx := i, kuCnt := elmOf i } } := ⟨_, rfl⟩
  have husage1 : k1.usage p = { k.usage p with kuIndx := i, kuCnt := elmOf i } := by
    rw [hk1]
    exact update_self _ _ _
  have hidx1 : k1.idx p = i := by rw [idx, husage1]
  have hext1 : k1.extent p = 2 ^ i := by rw [extent, hidx1, if_pos hi]
  have hslots1 : ∀ a, a ∈ k1.slots p ↔ a ∈ cells (k.addrOf p) (2 ^ i) m := by
    intro a
    have haddr : k1.addrOf p = k.addrOf p := by rw [hk1, addrOf, addrOf]
    rw [mem_slots, mem_cells, hidx1, hm, haddr]
  have hnone : k1.slots p \ live = k1.slots p := by
    refine sdiff_eq_self_of_disjoint (disjoint_left.mpr fun a ha hal => ?_)
    obtain ⟨j, hj⟩ := h.held a hal
    have hin := (mem_chunks.mp hj).1
    rw [hcells ((hslots1 a).mp ha)] at hin
    exact hp hin
  have hcard : (k1.slots p \ live).card = elmOf i := by rw [hnone, card_slots, hidx1]
  have h1 : Inv k1 live req (update fl i (cells (k.addrOf p) (2 ^ i) m ++ fl i)) := by
    refine h.grow hfresh hmem hk1 ?_ (by rw [hcard]) (fun _ => hcard.symm) (fun _ _ => ⟨Iff.rfl, rfl⟩)
      (fun a ha => hsame a fun hac => ha ((hslots1 a).mpr hac)) hlinked (fun a => ?_) (fun hle => ?_)
      (fun a hal ha => ?_) fun hsize _ => h.charged.congr hsize
    · rw [span, hext1]
      exact span_of_small hnpg
    · rw [List.mem_append, ← hslots1, ← mem_sdiff, hnone, or_comm]
    · exact absurd hi (not_lt.mpr hle)
    · rw [← hnone] at ha
      exact absurd hal (mem_sdiff.mp ha).2
  have hnext : (k1.bucket c.indx).kbNext ≠ 0 := by
    rw [← hidx, hk1]
    simp only [update_self]
    omega
  have hkmem : k.kmem c (some p) = k1.take c := by
    rw [kmem, ← hidx, halloc, if_neg fun hlt => absurd hlt.1 (not_lt.mpr hpow), hlast]
    simp only [hw]
    rw [hk1, ← helm]
  rw [hkmem]
  exact h1.after_take hnext

theorem after_kmem_large (hfresh : k.Fresh p c.npg) (hi : 14 ≤ c.indx)
    (hmax : maxallocsave < c.allocsize) (hlt : c.allocsize < 2 ^ 31)
    (hnpg : c.npg * clbytes = c.allocsize) (hsize : c.size ≤ c.allocsize) :
    After live req c (k.kmem c (some p)) := by
  have hmem : 4 ≤ c.indx ∧ c.indx < 20 := bucketindx_mem c.size
  have helm : (k.bucket c.indx).kbElmpercl = elmOf c.indx := (h.layout.tuned _ hmem.2).1
  have hva : k.addrOf p ≠ 0 := by
    have hbase := h.layout.base
    rw [addrOf]
    omega
  rw [kmem, if_pos ⟨hmax, hlt⟩]
  by_cases hbig : 65535 < c.npg
  · rw [if_pos hbig]
    trivial
  rw [if_neg hbig]
  obtain ⟨k1, hk1⟩ : ∃ k1, k1 = { k with
      stats := update k.stats c.type { k.stats c.type with
        ksMemuse := (k.stats c.type).ksMemuse + c.allocsize
        ksInuse := (k.stats c.type).ksInuse + 1 }
      map := fun q => if p ≤ q ∧ q < p + c.npg then true else k.map q
      areas := insert p k.areas
      bucket := update k.bucket c.indx { k.bucket c.indx with
        kbTotal := (k.bucket c.indx).kbTotal + elmOf c.indx
        kbTotalfree := (k.bucket c.indx).kbTotalfree + 0 }
      usage := update k.usage p { k.usage p with kuIndx := c.indx, kuCnt := c.npg } } := ⟨_, rfl⟩
  have husage1 : k1.usage p = { k.usage p with kuIndx := c.indx, kuCnt := c.npg } := by
    rw [hk1]
    exact update_self _ _ _
  have hidx1 : k1.idx p = c.indx := by rw [idx, husage1]
  have hext1 : k1.extent p = c.allocsize := by
    rw [extent, hidx1, if_neg (not_lt.mpr hi), husage1]
    exact hnpg
  have hslots1 : k1.slots p = {k.addrOf p} := by
    rw [slots_of_le (by rw [hidx1]; omega), hk1, addrOf, addrOf]
  have hself : k.addrOf p ∈ k1.slots p := by rw [hslots1, mem_singleton]
  have hnone : k1.slots p \ insert (k.addrOf p) live = ∅ := by
    rw [hslots1, sdiff_eq_empty_iff_subset, singleton_subset_iff]
    exact mem_insert_self _ _
  have hne : ∀ b, b ∉ k1.slots p → b ≠ k.addrOf p := fun b hb heq => hb (heq ▸ hself)
  have hfree : k.addrOf p ∉ live := by
    intro hal
    obtain ⟨j, hj⟩ := h.held _ hal
    have hin := (mem_chunks.mp hj).1
    have hup : k.btokup (k.addrOf p) = p := by
      simp only [btokup, addrOf, clbytes]
      omega
    rw [hup] at hin
    exact notMem_areas h.layout hfresh hin
  have h1 : Inv k1 (insert (k.addrOf p) live) (update req (k.addrOf p) ⟨c.size, c.type⟩)
      (update fl c.indx (fl c.indx)) := by
    refine h.grow (x := (k.bucket c.indx).kbNext) hfresh hmem hk1 ?_ (by rw [hnone]; rfl)
      (fun hlt => absurd hi (not_le.mpr hlt)) (fun b hb => ⟨?_, update_of_ne (hne b hb) _ _⟩) (fun _ _ => rfl)
      (h.linked c.indx) (fun b => ?_) (fun _ => h.large _ hi) (fun b _ hb => ?_) fun hsize' _ => ?_
    · rw [span, hext1, ← hnpg]
      have hcl : clbytes = 4096 := rfl
      rw [hcl]
      omega
    · rw [mem_insert, or_iff_right (hne b hb)]
    · rw [← mem_sdiff, hnone]
      exact (or_iff_left (notMem_empty b)).symm
    · rw [hslots1, mem_singleton] at hb
      rw [hb, update_self, hext1]
      exact hsize
    · refine h.charged.insert hfree hsize' ?_
      have hbytes : k1.sizeOf (k.addrOf p) = c.allocsize := by
        rw [Kern.sizeOf, Kern.btokup_of_mem hself, hext1]
      rw [hbytes]
  refine .inr ⟨hva, hfree, fl, ?_⟩
  rw [update_eq_self, hk1, Int.add_zero, ← helm] at h1
  exact h1

theorem after_kmem (hsize : c.size < 2 ^ 32) (hfresh : k.Fresh p c.npg) :
    After live req c (k.kmem c (some p)) := by
  rcases Caller.size_cases hsize hfresh.1 (h.layout.npg_lt hfresh) with
    ⟨hi, halloc, hnpg⟩ | ⟨hi, hmax, hlt, hnpg, hle⟩
  · exact h.after_kmem_small hfresh hi halloc hnpg
  · exact h.after_kmem_large hfresh hi hmax hlt hnpg hle

theorem free (ha : a ∈ live) :
    ∃ fl', Inv (k.free a (req a).type) (live.erase a) req fl' := by
  obtain ⟨i, hchunk⟩ := h.held a ha
  by_cases hyes : clbytes ≤ 2 ^ i ∧ ((k.bucket i).kbHighwat : ℤ) ≤ (k.bucket i).kbTotalfree
  · exact ⟨fl, h.release ha hchunk hyes⟩
  refine ⟨_, h.push ha hchunk ?_ hyes⟩
  by_contra hle
  -- a bucket of large blocks keeps none
  refine hyes ⟨Nat.pow_le_pow_right Nat.two_pos (show 12 ≤ i by omega), ?_⟩
  have hlt : maxallocsave < 2 ^ i := Nat.pow_lt_pow_right Nat.one_lt_two (not_lt.mp hle)
  rw [(h.layout.tuned i (h.layout.chunk_idx hchunk).2).2, highwatOf, if_neg (not_le.mpr hlt), h.totalfree]
  exact Int.natCast_nonneg _

end

end Inv

end Bsd386.Kern.Malloc
