import Bsd386.Kern.Malloc.Blocks

/-!
# Areas that come and go

`Inv.release`: `free` gives an area back; `Inv.grow`: `malloc` has one more, whose chunks are free or of which
one is live. `carve_spec`: the loop that links the chunks of a new area.
-/

namespace Bsd386.Kern.Malloc

open Function Lib.Linked Finset Kern
open Kern (elmOf highwatOf)

variable {k k' : Kern} {p q i j n a b : ℕ} {live : Finset ℕ} {req : ℕ → Block} {fl : ℕ → List ℕ} {l : List ℕ}

theorem Kern.extent_eq_span (hi : 12 ≤ k.idx p) : k.extent p = k.span p * clbytes := by
  have hdvd : clbytes ∣ k.extent p := by
    rw [extent]
    by_cases hlt : k.idx p < 14
    · rw [if_pos hlt]
      exact Nat.pow_dvd_pow 2 hi
    · rw [if_neg hlt]
      exact Nat.dvd_mul_left _ _
  obtain ⟨m, hm⟩ := hdvd
  have hspan : k.span p = (k.extent p + 4095) / 4096 := rfl
  have hm : k.extent p = 4096 * m := hm
  have hb : clbytes = 4096 := rfl
  rw [hb]
  omega

namespace Inv

/-! ## Giving an area back -/

theorem of_large (hchunk : a ∈ k.chunks i) (hi : clbytes ≤ 2 ^ i) :
    12 ≤ i ∧ k.slots (k.btokup a) = {a} ∧
      (if maxallocsave < 2 ^ i then (k.usage (k.btokup a)).kuCnt * clbytes else 2 ^ i) = k.sizeOf a ∧
      k.sizeOf a / clbytes = k.span (k.btokup a) := by
  obtain ⟨-, hidx, hslot⟩ := mem_chunks.mp hchunk
  have hle : 12 ≤ i := (Nat.pow_le_pow_iff_right Nat.one_lt_two).mp hi
  have hidx' : 12 ≤ k.idx (k.btokup a) := hidx.symm ▸ hle
  have hslots := slots_of_le hidx'
  have hspan := extent_eq_span hidx'
  rw [hslots, mem_singleton] at hslot
  refine ⟨hle, by rw [hslots, ← hslot], ?_, ?_⟩
  · have hpow : maxallocsave = 2 ^ 13 := rfl
    have hiff : maxallocsave < 2 ^ i ↔ 13 < i := by
      rw [hpow]
      exact Nat.pow_lt_pow_iff_right Nat.one_lt_two
    rw [Kern.sizeOf, Kern.extent, hidx]
    by_cases hlt : i < 14
    · rw [if_pos hlt, if_neg (by rw [hiff]; omega)]
    · rw [if_neg hlt, if_pos (by rw [hiff]; omega)]
  · rw [Kern.sizeOf, hspan]
    exact Nat.mul_div_cancel _ (by decide)

theorem release (h : Inv k live req fl) (ha : a ∈ live) (hchunk : a ∈ k.chunks i)
    (hyes : clbytes ≤ 2 ^ i ∧ ((k.bucket i).kbHighwat : ℤ) ≤ (k.bucket i).kbTotalfree) :
    Inv (k.free a (req a).type) (live.erase a) req fl := by
  obtain ⟨hle, hslots, hsize, hspan⟩ := of_large hchunk hyes.1
  obtain ⟨hp, hidx, -⟩ := mem_chunks.mp hchunk
  have hidx' : (k.usage (k.btokup a)).kuIndx = i := hidx
  obtain ⟨p, hp'⟩ : ∃ p, p = k.btokup a := ⟨_, rfl⟩
  rw [← hp'] at hp hidx' hslots hsize hspan
  obtain ⟨k', hk⟩ : ∃ k', k' = k.free a (req a).type := ⟨_, rfl⟩
  rw [← hk]
  rw [free, ← hp', hidx', if_pos hyes, hsize] at hk
  have hareas : k'.areas = k.areas \ {p} := by
    rw [sdiff_singleton_eq_erase, hk]
  have hbucket : k'.bucket = update k.bucket i { k.bucket i with
      kbTotal := (k.bucket i).kbTotal - 1 } := by rw [hk]
  have husage : k'.usage = update k.usage p { k.usage p with kuIndx := 0, kuCnt := 0 } := by rw [hk]
  have hmap : k'.map = fun q => if p ≤ q ∧ q < p + k.span p then false else k.map q := by
    rw [hk, ← hspan]
    rfl
  have hword : k'.word = k.word := by
    rw [hk]
    rfl
  have hself : k'.bucket i = { k.bucket i with kbTotal := (k.bucket i).kbTotal - 1 } := by
    rw [hbucket, update_self]
  have hne : ∀ j, j ≠ i → k'.bucket j = k.bucket j := fun j hj => by rw [hbucket, update_of_ne hj]
  have hrest : ∀ q, q ≠ p → k'.usage q = k.usage q := fun q hq => by rw [husage, update_of_ne hq]
  have hstay : ∀ q ∈ k'.areas, q ∈ k.areas ∧ q ≠ p := fun q hq => by
    rw [hareas, mem_sdiff, mem_singleton] at hq
    exact hq
  have hsub : Sub k' k := by
    refine ⟨by rw [hk]; rfl, by rw [hk]; rfl, fun j => ?_, fun q hq => (hstay q hq).1, fun q hq => ?_,
      fun q hq => ?_, fun q hq r hqr hr => ?_⟩
    · by_cases hj : j = i
      · rw [hj, hself]
        exact ⟨rfl, rfl⟩
      · rw [hne j hj]
        exact ⟨rfl, rfl⟩
    · rw [idx, idx, hrest q (hstay q hq).2]
    · rw [extent, extent, idx, idx, hrest q (hstay q hq).2]
    · rw [hmap]
      refine if_neg ?_
      rintro ⟨hpr, hrp⟩
      obtain ⟨hq, hqp⟩ := hstay q hq
      rcases lt_or_gt_of_ne hqp with hlt | hlt
      · have := h.layout.apart q hq p hp hlt
        omega
      · have := h.layout.apart p hp q hq hlt
        omega
  have hchunks : ∀ j, k'.chunks j = k.chunks j \ {a} := by
    intro j
    rw [hsub.chunks_sdiff hareas, singleton_biUnion, hslots]
  have hother : ∀ {j}, j ≠ i → a ∉ k.chunks j := fun hj ha' => hj (chunks_inj ha' hchunk)
  have hin : ∀ b ∈ live.erase a, ∃ j, b ∈ k'.chunks j := by
    intro b hb
    obtain ⟨hba, hb⟩ := mem_erase.mp hb
    obtain ⟨j, hj⟩ := h.held b hb
    refine ⟨j, ?_⟩
    rw [hchunks, mem_sdiff, mem_singleton]
    exact ⟨hj, hba⟩
  have hsizeOf : ∀ b ∈ live.erase a, k'.sizeOf b = k.sizeOf b := by
    intro b hb
    obtain ⟨j, hj⟩ := hin b hb
    obtain ⟨hq, -, -⟩ := mem_chunks.mp hj
    rw [Kern.sizeOf, hsub.extent _ hq, hsub.btokup, Kern.sizeOf]
  have hfree : ∀ s : Finset ℕ, (s \ {a}) \ live.erase a = s \ live := by
    intro s
    ext b
    simp only [mem_sdiff, mem_singleton, mem_erase]
    constructor
    · rintro ⟨⟨hb, hba⟩, hbl⟩
      exact ⟨hb, fun hb' => hbl ⟨hba, hb'⟩⟩
    · rintro ⟨hb, hbl⟩
      exact ⟨⟨hb, fun heq => hbl (heq ▸ ha)⟩, fun hb' => hbl hb'.2⟩
  refine ⟨h.layout.mono hsub, fun j => ?_, fun {j b} => ?_, h.large, hin, fun b hb => ?_, fun q hq hlt => ?_,
    fun j => ?_, fun j => ?_, ?_, fun q => ?_⟩
  · have hnext : k'.next = k.next := by
      funext b
      rw [next, next, hword]
    have hhead : k'.head j = k.head j := by
      rw [head, head]
      by_cases hj : j = i
      · rw [hj, hself]
      · rw [hne j hj]
    rw [hnext, hhead]
    exact h.linked j
  · rw [h.mem, hchunks, ← mem_sdiff, ← mem_sdiff, hfree]
  · rw [hsizeOf b hb]
    exact h.fits b (mem_of_mem_erase hb)
  · obtain ⟨hqa, hqp⟩ := hstay q hq
    have hnot : a ∉ k.slots q := fun ha' => hqp (by rw [hp', btokup_of_mem ha'])
    rw [hsub.idx q hq] at hlt
    rw [hrest q hqp, hsub.slots hq, sdiff_erase_of_notMem hnot]
    exact h.cnt q hqa hlt
  · rw [hchunks]
    by_cases hj : j = i
    · have htotal := h.total i
      have hcard := card_erase_add_one hchunk
      rw [hj, hself, sdiff_singleton_eq_erase]
      change (k.bucket i).kbTotal - 1 = _
      omega
    · rw [hne j hj, sdiff_singleton_eq_erase, erase_eq_of_notMem (hother hj)]
      exact h.total j
  · rw [hchunks, hfree]
    by_cases hj : j = i
    · rw [hj, hself]
      exact h.totalfree i
    · rw [hne j hj]
      exact h.totalfree j
  · exact h.charged.erase ha hsizeOf (by rw [hk])
  · rw [husage]
    by_cases hq : q = p
    · rw [hq, update_self]
      exact h.gccnt p
    · rw [update_of_ne hq]
      exact h.gccnt q

/-! ## One more area -/

theorem notMem_areas (h : Layout k) (hfresh : k.Fresh p n) : p ∉ k.areas := by
  intro hp
  have hused := h.used p hp p le_rfl (Nat.lt_add_of_pos_right (h.span_pos hp))
  rw [hfresh.2.2 p le_rfl (Nat.lt_add_of_pos_right hfresh.1)] at hused
  exact Bool.false_ne_true hused

/-- **One more area** of `n` clusters for the bucket `i`, whose free chunks go to the front of the list. -/
theorem grow {live' : Finset ℕ} {req' : ℕ → Block} {x m : ℕ} {w : ℕ → ℕ} {s : ℕ → Kmemstats}
    {f : ℤ} (h : Inv k live req fl) (hfresh : k.Fresh p n) (hi : 4 ≤ i ∧ i < 20)
    (hk : k' = { k with
      word := w
      stats := s
      map := fun q => if p ≤ q ∧ q < p + n then true else k.map q
      areas := insert p k.areas
      bucket := update k.bucket i { k.bucket i with
        kbNext := x
        kbTotal := (k.bucket i).kbTotal + elmOf i
        kbTotalfree := (k.bucket i).kbTotalfree + f }
      usage := update k.usage p { k.usage p with kuIndx := i, kuCnt := m } })
    (hspan : k'.span p = n) (hf : f = (k'.slots p \ live').card) (hcnt : i < 14 → m = (k'.slots p \ live').card)
    (hlive : ∀ b, b ∉ k'.slots p → (b ∈ live' ↔ b ∈ live) ∧ req' b = req b)
    (hword : ∀ b, b ∉ k'.slots p → w b = k.word b) (hlinked : Linked (fun b => ptr (w b)) (ptr x) l)
    (hmem : ∀ b, b ∈ l ↔ b ∈ fl i ∨ b ∈ k'.slots p ∧ b ∉ live') (hlarge : 14 ≤ i → l = [])
    (hfits : ∀ b ∈ live', b ∈ k'.slots p → (req' b).size ≤ k'.extent p)
    (hcharged : (∀ b ∈ live, k'.sizeOf b = k.sizeOf b) → (∀ b ∈ k'.slots p, b ∉ live) →
      Charged s k'.sizeOf live' req') :
    Inv k' live' req' (update fl i l) := by
  have hp := notMem_areas h.layout hfresh
  have hareas : k'.areas = insert p k.areas := by rw [hk]
  have hbase : k'.kmembase = k.kmembase := by rw [hk]
  have hstats : k'.stats = s := by rw [hk]
  have hbucket : k'.bucket = update k.bucket i { k.bucket i with
      kbNext := x
      kbTotal := (k.bucket i).kbTotal + elmOf i
      kbTotalfree := (k.bucket i).kbTotalfree + f } := by rw [hk]
  have husage : k'.usage = update k.usage p { k.usage p with kuIndx := i, kuCnt := m } := by rw [hk]
  have hmap : k'.map = fun q => if p ≤ q ∧ q < p + n then true else k.map q := by rw [hk]
  have hself : k'.bucket i = { k.bucket i with
      kbNext := x
      kbTotal := (k.bucket i).kbTotal + elmOf i
      kbTotalfree := (k.bucket i).kbTotalfree + f } := by
    rw [hbucket, update_self]
  have hne : ∀ j, j ≠ i → k'.bucket j = k.bucket j := fun j hj => by rw [hbucket, update_of_ne hj]
  have hown : k'.usage p = { k.usage p with kuIndx := i, kuCnt := m } := by rw [husage, update_self]
  have hrest : ∀ q, q ≠ p → k'.usage q = k.usage q := fun q hq => by rw [husage, update_of_ne hq]
  have hidx : k'.idx p = i := by rw [idx, hown]
  have hstay : ∀ q ∈ k.areas, q ≠ p := fun q hq => ne_of_mem_of_not_mem hq hp
  have htuned : ∀ j, (k.bucket j).kbElmpercl = (k'.bucket j).kbElmpercl ∧
      (k.bucket j).kbHighwat = (k'.bucket j).kbHighwat := by
    intro j
    by_cases hj : j = i
    · rw [hj, hself]
      exact ⟨rfl, rfl⟩
    · rw [hne j hj]
      exact ⟨rfl, rfl⟩
  have hidx' : ∀ q ∈ k.areas, k.idx q = k'.idx q := fun q hq => by
    rw [idx, idx, hrest q (hstay q hq)]
  have hext' : ∀ q ∈ k.areas, k.extent q = k'.extent q := fun q hq => by
    rw [extent, extent, idx, idx, hrest q (hstay q hq)]
  have hspan' : ∀ q ∈ k.areas, k'.span q = k.span q := fun q hq => by
    rw [span, span, hext' q hq]
  have hmap_eq : ∀ q, k.map q = true → k'.map q = true := by
    intro q hq
    rw [hmap]
    by_cases hin : p ≤ q ∧ q < p + n
    · exact if_pos hin
    · exact (if_neg hin).trans hq
  -- the areas of `k` are areas of `k'`
  have hsub : Sub k k' := by
    refine ⟨hbase.symm, by rw [hk], htuned, ?_, hidx', hext', fun q hq r hqr hr => ?_⟩
    · rw [hareas]
      exact subset_insert p k.areas
    · rw [hspan' q hq] at hr
      have hused := h.layout.used q hq r hqr hr
      rw [hused, hmap_eq r hused]
  have hnot : ∀ {b j}, b ∈ k.chunks j → b ∉ k'.slots p := by
    intro b j hb hbp
    refine hp ?_
    have hin := (mem_chunks.mp hb).1
    rwa [hsub.btokup, btokup_of_mem hbp] at hin
  have hchunks : ∀ {b j}, b ∈ k'.chunks j ↔ b ∈ k.chunks j ∨ j = i ∧ b ∈ k'.slots p := by
    intro b j
    rw [hsub.mem_chunks]
    constructor
    · intro hb
      by_cases hbp : k'.btokup b = p
      · obtain ⟨-, hj, hslot⟩ := mem_chunks.mp hb
        rw [hbp] at hj hslot
        exact .inr ⟨hj.symm.trans hidx, hslot⟩
      · have hin := (mem_chunks.mp hb).1
        rw [hareas] at hin
        exact .inl ⟨hb, mem_of_mem_insert_of_ne hin hbp⟩
    · rintro (hb | ⟨rfl, hb⟩)
      · exact hb.1
      · rw [← hidx]
        refine mem_chunks_of_mem ?_ hb
        rw [hareas]
        exact mem_insert_self p k.areas
  have hout : ∀ b ∈ k'.slots p, b ∉ live := by
    intro b hb hbl
    obtain ⟨j, hj⟩ := h.held b hbl
    exact hnot hj hb
  have hsizeOf : ∀ b ∈ live, k'.sizeOf b = k.sizeOf b := by
    intro b hb
    obtain ⟨j, hj⟩ := h.held b hb
    rw [Kern.sizeOf, Kern.sizeOf, hext' _ (Kern.mem_chunks.mp hj).1, hsub.btokup]
  have hchunks_ne : ∀ j, j ≠ i → k'.chunks j = k.chunks j := by
    intro j hj
    ext b
    rw [hchunks]
    exact or_iff_left fun hb => hj hb.1
  have hchunks_self : k'.chunks i = k.chunks i ∪ k'.slots p := by
    ext b
    rw [hchunks, mem_union]
    exact or_congr_right (and_iff_right rfl)
  have hsdiff : ∀ {s : Finset ℕ}, (∀ b ∈ s, b ∉ k'.slots p) → s \ live' = s \ live := by
    intro s hs
    ext b
    rw [mem_sdiff, mem_sdiff]
    exact and_congr_right fun hb => not_congr (hlive b (hs b hb)).1
  refine ⟨?_, fun j => ?_, fun {j b} => ?_, fun j hj => ?_, fun b hb => ?_, fun b hb => ?_, fun q hq hlt => ?_,
    fun j => ?_, fun j => ?_, hstats ▸ hcharged hsizeOf hout, fun q => ?_⟩
  · have hcases : ∀ {q}, q ∈ k'.areas → q = p ∨ q ∈ k.areas := by
      intro q hq
      rw [hareas] at hq
      exact mem_insert.mp hq
    have hnone : ∀ q, p ≤ q → q < p + n → k.map q = false := hfresh.2.2
    refine ⟨hbase ▸ h.layout.base, by rw [hk]; exact h.layout.size, fun j hj => ?_, fun q hq => ?_, fun q hq => ?_,
      fun q hq => ?_, fun q hq r hqr hr => ?_, fun q hq r hr hqr => ?_⟩
    · rw [← (htuned j).1, ← (htuned j).2]
      exact h.layout.tuned j hj
    · rcases hcases hq with rfl | hq
      · rw [hidx]
        exact hi
      · rw [← hidx' q hq]
        exact h.layout.idx q hq
    · rcases hcases hq with rfl | hq
      · refine Nat.pos_of_ne_zero fun hzero => ?_
        rw [span, hzero] at hspan
        exact absurd hfresh.1 (hspan ▸ by decide)
      · rw [← hext' q hq]
        exact h.layout.pos q hq
    · rw [show k'.kmemsize = k.kmemsize by rw [hk]]
      rcases hcases hq with rfl | hq
      · rw [hspan]
        exact hfresh.2.1
      · rw [hspan' q hq]
        exact h.layout.inside q hq
    · rcases hcases hq with rfl | hq
      · rw [hspan] at hr
        rw [hmap]
        exact if_pos ⟨hqr, hr⟩
      · rw [hspan' q hq] at hr
        exact hmap_eq r (h.layout.used q hq r hqr hr)
    · -- a cluster of an area is allocated, one of the new area was not
      rcases hcases hq with rfl | hq
      · rcases hcases hr with rfl | hr
        · exact absurd hqr (lt_irrefl _)
        · rw [hspan]
          by_contra hlt
          have hused := h.layout.used r hr r le_rfl (Nat.lt_add_of_pos_right (h.layout.span_pos hr))
          rw [hnone r hqr.le (not_le.mp hlt)] at hused
          exact Bool.false_ne_true hused
      · rw [hspan' q hq]
        rcases hcases hr with rfl | hr
        · by_contra hlt
          have hused := h.layout.used q hq r hqr.le (not_le.mp hlt)
          rw [hnone r le_rfl (Nat.lt_add_of_pos_right hfresh.1)] at hused
          exact Bool.false_ne_true hused
        · exact h.layout.apart q hq r hr hqr
  · have hnext : k'.next = fun b => ptr (w b) := by
      funext b
      rw [next, hk]
    rw [hnext]
    by_cases hj : j = i
    · rw [hj, update_self, head, hself]
      exact hlinked
    · rw [update_of_ne hj, head, hne j hj]
      refine (h.linked j).congr fun b hb => ?_
      rw [next, hword b (hnot (h.mem.mp hb).1)]
  · by_cases hj : j = i
    · rw [hj, update_self, hmem, hchunks, h.mem]
      constructor
      · rintro (⟨hb, hbl⟩ | ⟨hb, hbl⟩)
        · exact ⟨.inl hb, fun hb' => hbl ((hlive b (hnot hb)).1.mp hb')⟩
        · exact ⟨.inr ⟨rfl, hb⟩, hbl⟩
      · rintro ⟨hb | ⟨-, hb⟩, hbl⟩
        · exact .inl ⟨hb, fun hb' => hbl ((hlive b (hnot hb)).1.mpr hb')⟩
        · exact .inr ⟨hb, hbl⟩
    · rw [update_of_ne hj, h.mem, hchunks_ne j hj]
      exact and_congr_right fun hb => not_congr (hlive b (hnot hb)).1.symm
  · by_cases hji : j = i
    · rw [hji, update_self]
      exact hlarge (hji ▸ hj)
    · rw [update_of_ne hji]
      exact h.large j hj
  · by_cases hbp : b ∈ k'.slots p
    · exact ⟨i, hchunks.mpr (.inr ⟨rfl, hbp⟩)⟩
    · obtain ⟨j, hj⟩ := h.held b ((hlive b hbp).1.mp hb)
      exact ⟨j, hchunks.mpr (.inl hj)⟩
  · by_cases hbp : b ∈ k'.slots p
    · rw [Kern.sizeOf, Kern.btokup_of_mem hbp]
      exact hfits b hb hbp
    · have hbl := (hlive b hbp).1.mp hb
      rw [hsizeOf b hbl, (hlive b hbp).2]
      exact h.fits b hbl
  · by_cases hqp : q = p
    · rw [hqp, hown]
      rw [hqp, hidx] at hlt
      exact hcnt hlt
    · have hqa : q ∈ k.areas := by
        rw [hareas] at hq
        exact mem_of_mem_insert_of_ne hq hqp
      rw [← hidx' q hqa] at hlt
      have hs : ∀ b ∈ k.slots q, b ∉ k'.slots p := fun b hb => hnot (mem_chunks_of_mem hqa hb)
      rw [hrest q hqp, ← hsub.slots hqa, hsdiff hs]
      exact h.cnt q hqa hlt
  · by_cases hj : j = i
    · have htotal := h.total i
      have hcard : (k'.chunks i).card = (k.chunks i).card + (k'.slots p).card := by
        rw [hchunks_self]
        exact card_union_of_disjoint (disjoint_left.mpr fun b hb => hnot hb)
      rw [card_slots, hidx] at hcard
      rw [hj, hself, hcard]
      change (k.bucket i).kbTotal + _ = _
      omega
    · rw [hne j hj, hchunks_ne j hj]
      exact h.total j
  · by_cases hj : j = i
    · have htotal := h.totalfree i
      have hcard : (k'.chunks i \ live').card = (k.chunks i \ live).card + (k'.slots p \ live').card := by
        rw [hchunks_self, union_sdiff_distrib, hsdiff fun b hb => hnot hb]
        refine card_union_of_disjoint (disjoint_left.mpr fun b hb hb' => ?_)
        exact hnot (mem_sdiff.mp hb).1 (mem_sdiff.mp hb').1
      rw [hj, hself, hcard, hf]
      change (k.bucket i).kbTotalfree + _ = _
      omega
    · rw [hne j hj, hchunks_ne j hj, hsdiff fun b hb => hnot hb]
      exact h.totalfree j
  · by_cases hqp : q = p
    · rw [hqp, hown]
      exact h.gccnt p
    · rw [hrest q hqp]
      exact h.gccnt q

end Inv

end Bsd386.Kern.Malloc
