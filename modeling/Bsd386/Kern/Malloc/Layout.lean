import Bsd386.Kern.Malloc.Basic
import Mathlib.Algebra.BigOperators.Group.Finset.Basic

/-!
# Where the chunks of the kernel allocator are

An area is the memory of one `kmem_malloc`. Its chunks (`Kern.slots`) are those of its bucket, `Kern.extent`
bytes each, and lie inside its clusters (`Kern.span`); `Layout` says that the areas are apart.
-/

namespace Bsd386.Kern.Malloc

open Finset

open Kern (elmOf highwatOf)

variable {k k' : Kern} {p q i j n a b : ℕ} {size : ℕ} {F : Finset ℕ}

/-! ## Sizes -/

theorem bucketindx_mem (size : ℕ) : 4 ≤ bucketindx size ∧ bucketindx size < 20 := by
  unfold bucketindx
  dsimp only [minbucket]
  split_ifs <;> decide

theorem bucketindx_small (h : size ≤ maxallocsave) : bucketindx size < 14 ∧ size ≤ 2 ^ bucketindx size := by
  have h : size ≤ 8192 := h
  unfold bucketindx
  dsimp only [minbucket]
  split_ifs <;> constructor <;> omega

theorem bucketindx_large (h : maxallocsave < size) : 14 ≤ bucketindx size := by
  have h : 8192 < size := h
  unfold bucketindx
  dsimp only [minbucket]
  split_ifs <;> omega

theorem elmOf_mul_pow (hi : i < 12) : elmOf i * 2 ^ i = clbytes := by
  revert i
  decide

theorem elmOf_of_le (hi : 12 ≤ i) : elmOf i = 1 := by
  have hle : clbytes ≤ 2 ^ i := Nat.pow_le_pow_right Nat.two_pos hi
  rw [elmOf, if_pos hle]

theorem elmOf_pos (i : ℕ) : 0 < elmOf i := by
  by_cases hi : i < 12
  · have h : elmOf i * 2 ^ i = 4096 := elmOf_mul_pow hi
    refine Nat.pos_of_ne_zero fun h0 => ?_
    rw [h0, Nat.zero_mul] at h
    omega
  · rw [elmOf_of_le (not_lt.mp hi)]
    exact Nat.one_pos

theorem elmOf_le (hi : 4 ≤ i) : elmOf i ≤ 256 := by
  by_cases h : i < 12
  · have hmul : elmOf i * 2 ^ i = 4096 := elmOf_mul_pow h
    have hpow : 2 ^ 4 ≤ 2 ^ i := Nat.pow_le_pow_right Nat.two_pos hi
    by_contra hlt
    have hle : 257 * 2 ^ 4 ≤ elmOf i * 2 ^ i := Nat.mul_le_mul (by omega) hpow
    omega
  · rw [elmOf_of_le (not_lt.mp h)]
    decide

theorem slot_le (hi : i < 12) (hj : j < elmOf i) : j * 2 ^ i + 2 ^ i ≤ 4096 := by
  have hmul : elmOf i * 2 ^ i = 4096 := elmOf_mul_pow hi
  have hle : (j + 1) * 2 ^ i ≤ elmOf i * 2 ^ i := Nat.mul_le_mul_right _ hj
  rwa [hmul, Nat.succ_mul] at hle

theorem slot_lt (hj : j < elmOf i) : j * 2 ^ i < 4096 := by
  by_cases hi : i < 12
  · have hle := slot_le hi hj
    have hpos : 0 < 2 ^ i := Nat.two_pow_pos i
    omega
  · rw [elmOf_of_le (not_lt.mp hi), Nat.lt_one_iff] at hj
    rw [hj, Nat.zero_mul]
    decide

namespace Kern

/-! ## Areas and chunks -/

/-- The bucket of a cluster. Source: malloc.h (struct kmemusage) -/
def idx (k : Kern) (p : ℕ) : ℕ := (k.usage p).kuIndx

/-- The bytes of a chunk of an area. -/
def extent (k : Kern) (p : ℕ) : ℕ := if k.idx p < 14 then 2 ^ k.idx p else (k.usage p).kuCnt * clbytes

def span (k : Kern) (p : ℕ) : ℕ := (k.extent p + (clbytes - 1)) / clbytes

def slots (k : Kern) (p : ℕ) : Finset ℕ :=
  (Finset.range (elmOf (k.idx p))).image fun j => k.addrOf p + j * 2 ^ k.idx p

def chunks (k : Kern) (i : ℕ) : Finset ℕ := (k.areas.filter fun p => k.idx p = i).biUnion k.slots

theorem mem_slots : a ∈ k.slots p ↔ ∃ j < elmOf (k.idx p), k.addrOf p + j * 2 ^ k.idx p = a := by
  rw [slots, mem_image]
  refine exists_congr fun j => ?_
  rw [mem_range]

theorem card_slots (k : Kern) (p : ℕ) : (k.slots p).card = elmOf (k.idx p) := by
  rw [slots, card_image_of_injective, card_range]
  intro j1 j2 h
  have h : j1 * 2 ^ k.idx p = j2 * 2 ^ k.idx p := Nat.add_left_cancel h
  exact Nat.eq_of_mul_eq_mul_right (Nat.two_pow_pos _) h

theorem slots_of_le (hi : 12 ≤ k.idx p) : k.slots p = {k.addrOf p} := by
  rw [slots, elmOf_of_le hi, range_one, image_singleton, Nat.zero_mul, Nat.add_zero]

theorem btokup_of_mem (h : a ∈ k.slots p) : k.btokup a = p := by
  obtain ⟨j, hj, rfl⟩ := mem_slots.mp h
  have hlt := slot_lt hj
  simp only [btokup, addrOf, clbytes]
  omega

theorem addrOf_le (h : a ∈ k.slots p) : k.addrOf p ≤ a := by
  obtain ⟨j, -, rfl⟩ := mem_slots.mp h
  exact Nat.le_add_right _ _

theorem add_extent_le (h : a ∈ k.slots p) : a + k.extent p ≤ k.addrOf p + clbytes * k.span p := by
  obtain ⟨j, hj, rfl⟩ := mem_slots.mp h
  have hspan : k.span p = (k.extent p + 4095) / 4096 := rfl
  simp only [clbytes]
  by_cases hi : k.idx p < 12
  · have hle := slot_le hi hj
    have hpos : 0 < 2 ^ k.idx p := Nat.two_pow_pos _
    have hext : k.extent p = 2 ^ k.idx p := if_pos (by omega)
    rw [hext] at hspan ⊢
    omega
  · rw [elmOf_of_le (not_lt.mp hi), Nat.lt_one_iff] at hj
    rw [hj, Nat.zero_mul]
    omega

theorem add_extent_le_of_lt (ha : a ∈ k.slots p) (hb : b ∈ k.slots p) (hab : a < b) : a + k.extent p ≤ b := by
  obtain ⟨j1, hj1, rfl⟩ := mem_slots.mp ha
  obtain ⟨j2, hj2, rfl⟩ := mem_slots.mp hb
  by_cases hi : k.idx p < 12
  · have hext : k.extent p = 2 ^ k.idx p := if_pos (by omega)
    have hlt : j1 < j2 := by
      by_contra hle
      have hmul := Nat.mul_le_mul_right (2 ^ k.idx p) (not_lt.mp hle)
      omega
    have hmul := Nat.mul_le_mul_right (2 ^ k.idx p) hlt
    rw [Nat.succ_mul] at hmul
    rw [hext]
    omega
  · rw [elmOf_of_le (not_lt.mp hi), Nat.lt_one_iff] at hj1 hj2
    rw [hj1, hj2] at hab
    exact absurd hab (lt_irrefl _)

theorem mem_chunks : a ∈ k.chunks i ↔
    k.btokup a ∈ k.areas ∧ k.idx (k.btokup a) = i ∧ a ∈ k.slots (k.btokup a) := by
  rw [chunks, mem_biUnion]
  constructor
  · rintro ⟨p, hp, ha⟩
    obtain ⟨hp, hi⟩ := mem_filter.mp hp
    rw [btokup_of_mem ha]
    exact ⟨hp, hi, ha⟩
  · rintro ⟨hp, hi, ha⟩
    exact ⟨k.btokup a, mem_filter.mpr ⟨hp, hi⟩, ha⟩

theorem chunks_inj (hi : a ∈ k.chunks i) (hj : a ∈ k.chunks j) : i = j := by
  rw [← (mem_chunks.mp hi).2.1, (mem_chunks.mp hj).2.1]

theorem mem_chunks_of_mem (hp : p ∈ k.areas) (ha : a ∈ k.slots p) : a ∈ k.chunks (k.idx p) := by
  rw [mem_chunks, btokup_of_mem ha]
  exact ⟨hp, rfl, ha⟩

theorem card_biUnion_slots (hF : ∀ p ∈ F, k.idx p = i) : (F.biUnion k.slots).card = F.card * elmOf i := by
  rw [card_biUnion, sum_const_nat fun p hp => by rw [card_slots, hF p hp]]
  intro p _ q _ hpq
  refine disjoint_left.mpr fun a ha hb => hpq ?_
  rw [← btokup_of_mem ha, btokup_of_mem hb]

end Kern

/-! ## Areas apart -/

/-- The areas are clusters of `kmem_map` that are allocated, and are apart; the buckets are tuned as
`kmeminit` does. -/
structure Layout (k : Kern) : Prop where
  base : 0 < k.kmembase
  size : k.kmemsize < 2 ^ 31
  tuned : ∀ i < 20, (k.bucket i).kbElmpercl = elmOf i ∧ (k.bucket i).kbHighwat = highwatOf i
  idx : ∀ p ∈ k.areas, 4 ≤ k.idx p ∧ k.idx p < 20
  pos : ∀ p ∈ k.areas, 0 < k.extent p
  inside : ∀ p ∈ k.areas, p + k.span p ≤ k.kmemsize / clbytes
  used : ∀ p ∈ k.areas, ∀ q, p ≤ q → q < p + k.span p → k.map q = true
  apart : ∀ p ∈ k.areas, ∀ q ∈ k.areas, p < q → p + k.span p ≤ q

/-- `k'` has some of the areas of `k`, unchanged. -/
structure Sub (k' k : Kern) : Prop where
  base : k'.kmembase = k.kmembase
  size : k'.kmemsize = k.kmemsize
  tuned : ∀ i, (k'.bucket i).kbElmpercl = (k.bucket i).kbElmpercl ∧
    (k'.bucket i).kbHighwat = (k.bucket i).kbHighwat
  areas : k'.areas ⊆ k.areas
  idx : ∀ p ∈ k'.areas, k'.idx p = k.idx p
  extent : ∀ p ∈ k'.areas, k'.extent p = k.extent p
  map : ∀ p ∈ k'.areas, ∀ q, p ≤ q → q < p + k.span p → k'.map q = k.map q

namespace Sub

theorem btokup (h : Sub k' k) (a : ℕ) : k'.btokup a = k.btokup a := by
  rw [Kern.btokup, Kern.btokup, h.base]

theorem slots (h : Sub k' k) (hp : p ∈ k'.areas) : k'.slots p = k.slots p := by
  rw [Kern.slots, Kern.slots, h.idx p hp, Kern.addrOf, Kern.addrOf, h.base]

theorem mem_chunks (h : Sub k' k) : a ∈ k'.chunks i ↔ a ∈ k.chunks i ∧ k.btokup a ∈ k'.areas := by
  rw [Kern.mem_chunks, Kern.mem_chunks, h.btokup]
  constructor
  · rintro ⟨hp, hi, ha⟩
    rw [h.idx _ hp] at hi
    rw [h.slots hp] at ha
    exact ⟨⟨h.areas hp, hi, ha⟩, hp⟩
  · rintro ⟨⟨-, hi, ha⟩, hp⟩
    rw [← h.idx _ hp] at hi
    rw [← h.slots hp] at ha
    exact ⟨hp, hi, ha⟩

theorem chunks (h : Sub k' k) (harea : k'.areas = k.areas) (i : ℕ) : k'.chunks i = k.chunks i := by
  ext a
  rw [h.mem_chunks, harea]
  exact ⟨fun ha => ha.1, fun ha => ⟨ha, (Kern.mem_chunks.mp ha).1⟩⟩

theorem chunks_sdiff (h : Sub k' k) (harea : k'.areas = k.areas \ F) (i : ℕ) :
    k'.chunks i = k.chunks i \ F.biUnion k.slots := by
  ext a
  rw [h.mem_chunks, harea, mem_sdiff, mem_sdiff, mem_biUnion]
  refine and_congr_right fun ha => ?_
  obtain ⟨hp, -, hslot⟩ := Kern.mem_chunks.mp ha
  constructor
  · rintro ⟨-, hF⟩ ⟨q, hq, hqa⟩
    rw [Kern.btokup_of_mem hqa] at hF
    exact hF hq
  · exact fun hF => ⟨hp, fun hq => hF ⟨_, hq, hslot⟩⟩

end Sub

namespace Layout

theorem mono (h : Layout k) (hsub : Sub k' k) : Layout k' := by
  have hspan : ∀ p ∈ k'.areas, k'.span p = k.span p := fun p hp => by
    rw [Kern.span, Kern.span, hsub.extent p hp]
  constructor
  · rw [hsub.base]
    exact h.base
  · rw [hsub.size]
    exact h.size
  · intro i hi
    rw [(hsub.tuned i).1, (hsub.tuned i).2]
    exact h.tuned i hi
  · intro p hp
    rw [hsub.idx p hp]
    exact h.idx p (hsub.areas hp)
  · intro p hp
    rw [hsub.extent p hp]
    exact h.pos p (hsub.areas hp)
  · intro p hp
    rw [hspan p hp, hsub.size]
    exact h.inside p (hsub.areas hp)
  · intro p hp q hpq hq
    rw [hspan p hp] at hq
    rw [hsub.map p hp q hpq hq]
    exact h.used p (hsub.areas hp) q hpq hq
  · intro p hp q hq hpq
    rw [hspan p hp]
    exact h.apart p (hsub.areas hp) q (hsub.areas hq) hpq

theorem span_pos (h : Layout k) (hp : p ∈ k.areas) : 0 < k.span p := by
  have hpos := h.pos p hp
  simp only [Kern.span, clbytes]
  omega

section

variable (h : Layout k) (ha : a ∈ k.chunks i)
include h ha

theorem apart_of_lt (hb : b ∈ k.chunks j) (hab : a < b) :
    a + k.extent (k.btokup a) ≤ b := by
  obtain ⟨hpa, -, hsa⟩ := Kern.mem_chunks.mp ha
  obtain ⟨hpb, -, hsb⟩ := Kern.mem_chunks.mp hb
  have hle : k.btokup a ≤ k.btokup b := Nat.div_le_div_right (Nat.sub_le_sub_right hab.le _)
  rcases hle.eq_or_lt with heq | hlt
  · rw [← heq] at hsb
    exact Kern.add_extent_le_of_lt hsa hsb hab
  have hin := Kern.add_extent_le hsa
  have hfrom := Kern.addrOf_le hsb
  have hmul := Nat.mul_le_mul_left clbytes (h.apart _ hpa _ hpb hlt)
  rw [Nat.mul_add] at hmul
  simp only [Kern.addrOf] at hin hfrom
  omega

theorem chunk_within :
    k.kmembase ≤ a ∧ a + k.extent (k.btokup a) ≤ k.kmembase + k.kmemsize := by
  obtain ⟨hp, -, hslot⟩ := Kern.mem_chunks.mp ha
  have hfrom := Kern.addrOf_le hslot
  have hin := Kern.add_extent_le hslot
  have hmul := Nat.mul_le_mul_left clbytes (h.inside _ hp)
  have hdiv : clbytes * (k.kmemsize / clbytes) ≤ k.kmemsize := Nat.mul_div_le _ _
  rw [Nat.mul_add] at hmul
  simp only [Kern.addrOf] at hin hfrom
  omega

theorem chunk_mem : 0 < a ∧ a < k.kmembase + k.kmemsize := by
  obtain ⟨hfrom, hin⟩ := h.chunk_within ha
  have hbase := h.base
  have hpos := h.pos _ (Kern.mem_chunks.mp ha).1
  omega

theorem chunk_idx : 4 ≤ i ∧ i < 20 := by
  obtain ⟨hp, rfl, -⟩ := Kern.mem_chunks.mp ha
  exact h.idx _ hp

end

end Layout

end Bsd386.Kern.Malloc
