import Mathlib.Order.Interval.Finset.Nat
import Bsd386.Lib.Bitmap
import Bsd386.Msdosfs.Cluster

/-!
# Free-cluster bookkeeping

The map of clusters in use, the count of free clusters and the search hint: what it means that the
books are in order (`Bookkept`), and the parts of the calls that keep them.
-/

namespace Bsd386.Msdosfs

open Lib BitVec Finset

/-! ## Bits -/

theorem inUse_usemapAlloc (pm : Msdosfsmount) (cn c : ℕ) :
    (usemapAlloc pm cn).inUse c = (pm.inUse c || decide (c = cn)) := bit_or_one pm.inusemap cn c

theorem inUse_usemapFree (pm : Msdosfsmount) (cn c : ℕ) :
    (usemapFree pm cn).inUse c = (pm.inUse c && !decide (c = cn)) := bit_and_not_one pm.inusemap cn c

theorem searchMap_spec (map : ℕ → BitVec 8) (n idx : ℕ) :
    match searchMap map n idx with
    | none => ∀ c, idx * 8 ≤ c → c < (idx + n) * 8 → (map (c / 8)).getLsbD (c % 8) = true
    | some cn => idx * 8 ≤ cn ∧ cn < (idx + n) * 8 ∧ (map (cn / 8)).getLsbD (cn % 8) = false ∧
        ∀ c, idx * 8 ≤ c → c < cn → (map (c / 8)).getLsbD (c % 8) = true := by
  induction n generalizing idx with
  | zero =>
    intro c hle hlt
    omega
  | succ n ih =>
    -- the byte `idx` is full: the search goes on after it
    have hfull : (∀ i < 8, (map idx).getLsbD i = true) →
        searchMap map (n + 1) idx = searchMap map n (idx + 1) →
        match searchMap map (n + 1) idx with
        | none => ∀ c, idx * 8 ≤ c → c < (idx + (n + 1)) * 8 →
            (map (c / 8)).getLsbD (c % 8) = true
        | some cn => idx * 8 ≤ cn ∧ cn < (idx + (n + 1)) * 8 ∧
            (map (cn / 8)).getLsbD (cn % 8) = false ∧
            ∀ c, idx * 8 ≤ c → c < cn → (map (c / 8)).getLsbD (c % 8) = true := by
      intro hbits heq
      have hhere : ∀ c, idx * 8 ≤ c → c < (idx + 1) * 8 →
          (map (c / 8)).getLsbD (c % 8) = true := by
        intro c hle hlt
        have hdiv : c / 8 = idx := by omega
        rw [hdiv]
        exact hbits _ (Nat.mod_lt _ (by decide))
      have hrest := ih (idx + 1)
      rw [heq]
      cases hs : searchMap map n (idx + 1) with
      | none =>
        rw [hs] at hrest
        intro c hle hlt
        by_cases hc : c < (idx + 1) * 8
        · exact hhere c hle hc
        · exact hrest c (by omega) (by omega)
      | some cn =>
        rw [hs] at hrest
        obtain ⟨hle, hlt, hoff, hbelow⟩ := hrest
        refine ⟨by omega, by omega, hoff, fun c hc hcn => ?_⟩
        by_cases hc' : c < (idx + 1) * 8
        · exact hhere c hc hc'
        · exact hbelow c (by omega) hcn
    by_cases hff : map idx = 0xff
    · refine hfull (fun i hi => ?_) (by rw [searchMap, if_neg (not_not.mpr hff)])
      rw [hff]
      interval_cases i <;> rfl
    cases hfind : (List.range 8).find? fun bit => map idx &&& 1#8 <<< bit == 0 with
    | none =>
      refine hfull (fun i hi => ?_) (by rw [searchMap, if_pos hff, hfind])
      have hnot := List.find?_eq_none.mp hfind i (List.mem_range.mpr hi)
      rw [and_shiftLeft_beq_zero _ hi] at hnot
      simpa using hnot
    | some bit =>
      have heq : searchMap map (n + 1) idx = some (idx * 8 + bit) := by
        rw [searchMap, if_pos hff, hfind]
      rw [List.find?_range_eq_some] at hfind
      obtain ⟨hoff, hmem, hbelow⟩ := hfind
      have hbit := List.mem_range.mp hmem
      rw [and_shiftLeft_beq_zero _ hbit] at hoff
      rw [heq]
      refine ⟨by omega, by omega, ?_, fun c hc hcn => ?_⟩
      · have hdiv : (idx * 8 + bit) / 8 = idx := by omega
        have hmod : (idx * 8 + bit) % 8 = bit := by omega
        rw [hdiv, hmod]
        simpa using hoff
      · have hdiv : c / 8 = idx := by omega
        have hlow := hbelow (c % 8) (by omega)
        rw [and_shiftLeft_beq_zero _ (Nat.mod_lt _ (by decide))] at hlow
        rw [hdiv]
        simpa using hlow

/-! ## Bookkeeping -/

/-- The clusters of the volume whose bit is off. Source: none: what is claimed -/
def freeSet (m : Bpb) (pm : Msdosfsmount) : Finset ℕ :=
  (Finset.Icc clustFirst m.maxcluster).filter fun c => pm.inUse c = false

theorem mem_freeSet {m : Bpb} {pm : Msdosfsmount} {c : ℕ} :
    c ∈ freeSet m pm ↔ m.InVolume c ∧ pm.inUse c = false := by
  rw [freeSet, mem_filter, mem_Icc]
  rfl

/-- The books are in order: the bits are those of the FAT, the count is the number of bits that are
off, no cluster below `pm_lookhere` is free, and allocation fails exactly when no cluster is.
Source: none: what is claimed -/
structure Bookkept (m : Bpb) (pm : Msdosfsmount) : Prop where
  bits : ∀ c, m.InVolume c → (pm.inUse c = true ↔ rawEntry m pm.disk c ≠ 0)
  count : pm.freeclustercount.toNat = (freeSet m pm).card
  lookhere : ∀ c, m.InVolume c → c < pm.lookhere → rawEntry m pm.disk c ≠ 0
  enospc : ∀ fillwith, clusteralloc m pm fillwith = .error .enospc ↔
    ∀ c, m.InVolume c → rawEntry m pm.disk c ≠ 0

/-- The entry of a cluster is not zero. Source: none: what is claimed -/
def InFat (m : Bpb) (d : Disk) (c : ℕ) : Prop := rawEntry m d c ≠ 0

/-- The map says which clusters are `used`, the count is the number of those that are not, and none of
these lies below `pm_lookhere`. The bits that belong to no cluster of the volume are on. -/
structure UsemapInv (m : Bpb) (used : ℕ → Prop) (pm : Msdosfsmount) : Prop where
  bits : ∀ c, m.InVolume c → (pm.inUse c = true ↔ used c)
  count : pm.freeclustercount = BitVec.ofNat 32 (freeSet m pm).card
  lookhere : ∀ c, m.InVolume c → c < pm.lookhere → pm.inUse c = true
  outside : ∀ c, c < (m.maxcluster / 8 + 1) * 8 → ¬m.InVolume c → pm.inUse c = true

section search

variable {m : Volume} {used : ℕ → Prop} {pm : Msdosfsmount} (h : UsemapInv m.toBpb used pm)

include h

theorem freeCluster_spec {cn : ℕ} (hcn : freeCluster m.toBpb pm = some cn) :
    m.InVolume cn ∧ pm.inUse cn = false ∧ ∀ c, m.InVolume c → c < cn → pm.inUse c = true := by
  have hspec := searchMap_spec pm.inusemap (m.maxcluster / 8 + 1 - pm.lookhere / 8) (pm.lookhere / 8)
  unfold freeCluster at hcn
  rw [hcn] at hspec
  obtain ⟨hle, hlt, hoff, hbelow⟩ := hspec
  refine ⟨?_, hoff, fun c hc hlt' => ?_⟩
  · by_contra hout
    have hon := h.outside cn (by omega) hout
    rw [Msdosfsmount.inUse, hoff] at hon
    exact Bool.noConfusion hon
  · by_cases hc' : c < pm.lookhere
    · exact h.lookhere c hc hc'
    · exact hbelow c (by omega) hlt'

theorem freeCluster_eq_none_iff :
    freeCluster m.toBpb pm = none ↔ ∀ c, m.InVolume c → used c := by
  constructor
  · intro hnone c hc
    rw [← h.bits c hc]
    by_cases hc' : c < pm.lookhere
    · exact h.lookhere c hc hc'
    have hspec := searchMap_spec pm.inusemap (m.maxcluster / 8 + 1 - pm.lookhere / 8)
      (pm.lookhere / 8)
    unfold freeCluster at hnone
    rw [hnone] at hspec
    have hle := hc.2
    exact hspec c (by omega) (by omega)
  · intro hall
    cases hs : freeCluster m.toBpb pm with
    | none => rfl
    | some cn =>
      obtain ⟨hcn, hoff, -⟩ := freeCluster_spec h hs
      rw [(h.bits cn hcn).mpr (hall cn hcn)] at hoff
      exact Bool.noConfusion hoff

theorem clusteralloc_eq (fillwith : BitVec 32) :
    clusteralloc m.toBpb pm fillwith = match freeCluster m.toBpb pm with
      | none => .error .enospc
      | some cn =>
        .ok (cn, usemapAlloc { pm with disk := fatSet m.toBpb pm.disk cn fillwith } cn) := by
  unfold clusteralloc
  cases hs : freeCluster m.toBpb pm with
  | none => rfl
  | some cn =>
    have hcn := (freeCluster_spec h hs).1
    dsimp only
    rw [fatentry_sets m pm.disk (rfl : FatFunction.set.sets = true) hcn]

end search

theorem UsemapInv.bookkept {m : Volume} {pm : Msdosfsmount}
    (h : UsemapInv m.toBpb (InFat m.toBpb pm.disk) pm) : Bookkept m.toBpb pm := by
  refine ⟨h.bits, ?_, fun c hc hlt => (h.bits c hc).mp (h.lookhere c hc hlt), fun fillwith => ?_⟩
  · rw [h.count, toNat_ofNat]
    apply Nat.mod_eq_of_lt
    have hcard : (freeSet m.toBpb pm).card ≤ (Finset.Icc clustFirst m.maxcluster).card :=
      card_filter_le _ _
    have hlt := m.clusters
    rw [Nat.card_Icc] at hcard
    unfold clustRsrvs at hlt
    omega
  · rw [clusteralloc_eq h]
    have hnone := freeCluster_eq_none_iff h
    cases hs : freeCluster m.toBpb pm with
    | none =>
      rw [hs] at hnone
      exact iff_of_true rfl (hnone.mp rfl)
    | some cn =>
      rw [hs] at hnone
      exact iff_of_false (by simp) fun hall => by simpa using hnone.mpr hall

/-! ## What each part keeps -/

section parts

variable {m : Volume} {used used' : ℕ → Prop} {pm : Msdosfsmount} (h : UsemapInv m.toBpb used pm)
  (d : Disk) {cn : ℕ}

include h

theorem UsemapInv.of_iff (hused : ∀ c, m.InVolume c → (used' c ↔ used c)) :
    UsemapInv m.toBpb used' { pm with disk := d } :=
  ⟨fun c hc => (h.bits c hc).trans (hused c hc).symm, h.count, h.lookhere, h.outside⟩

theorem UsemapInv.free (hcn : m.InVolume cn) (huse : used cn)
    (hused : ∀ c, m.InVolume c → (used' c ↔ used c ∧ c ≠ cn)) :
    UsemapInv m.toBpb used' (usemapFree { pm with disk := d } cn) := by
  have hbit : ∀ c, (usemapFree { pm with disk := d } cn).inUse c =
      (pm.inUse c && !decide (c = cn)) := fun c => inUse_usemapFree _ cn c
  have hon : pm.inUse cn = true := (h.bits cn hcn).mpr huse
  refine ⟨fun c hc => ?_, ?_, fun c hc hlt => ?_, fun c hc hout => ?_⟩
  · rw [hbit c, hused c hc]
    simp [h.bits c hc]
  · have hset : freeSet m.toBpb (usemapFree { pm with disk := d } cn) =
        insert cn (freeSet m.toBpb pm) := by
      ext c
      rw [mem_insert, mem_freeSet, mem_freeSet, hbit c]
      by_cases hcc : c = cn
      · simp [hcc, hcn]
      · simp [hcc]
    have hnot : cn ∉ freeSet m.toBpb pm := by
      rw [mem_freeSet, hon]
      exact fun hmem => Bool.noConfusion hmem.2
    rw [hset, card_insert_of_notMem hnot]
    rw [h.count]
    exact (ofNat_add _ _).symm
  · rw [hbit c]
    have hlt' : c < (if pm.lookhere > cn then cn else pm.lookhere) := hlt
    split at hlt'
    · rw [h.lookhere c hc (by omega), decide_eq_false (by omega)]
      rfl
    · rw [h.lookhere c hc hlt', decide_eq_false (by omega)]
      rfl
  · have hcc : c ≠ cn := fun heq => hout (heq ▸ hcn)
    rw [hbit c, h.outside c hc hout, decide_eq_false hcc]
    rfl

theorem UsemapInv.alloc (hcn : freeCluster m.toBpb pm = some cn)
    (hused : ∀ c, m.InVolume c → (used' c ↔ used c ∨ c = cn)) :
    UsemapInv m.toBpb used' (usemapAlloc { pm with disk := d } cn) := by
  obtain ⟨hin, hoff, hbelow⟩ := freeCluster_spec h hcn
  have hbit : ∀ c, (usemapAlloc { pm with disk := d } cn).inUse c =
      (pm.inUse c || decide (c = cn)) := fun c => inUse_usemapAlloc _ cn c
  refine ⟨fun c hc => ?_, ?_, fun c hc hlt => ?_, fun c hc hout => ?_⟩
  · rw [hbit c, hused c hc]
    simp [h.bits c hc]
  · have hset : freeSet m.toBpb (usemapAlloc { pm with disk := d } cn) =
        (freeSet m.toBpb pm).erase cn := by
      ext c
      rw [mem_erase, mem_freeSet, mem_freeSet, hbit c]
      by_cases hcc : c = cn
      · simp [hcc]
      · simp [hcc]
    have hmem : cn ∈ freeSet m.toBpb pm := mem_freeSet.mpr ⟨hin, hoff⟩
    have hpos : 0 < (freeSet m.toBpb pm).card := card_pos.mpr ⟨cn, hmem⟩
    rw [hset, card_erase_of_mem hmem]
    rw [h.count]
    obtain ⟨k, hk⟩ : ∃ k, (freeSet m.toBpb pm).card = k + 1 :=
      ⟨_, (Nat.succ_pred_eq_of_pos hpos).symm⟩
    rw [hk, ofNat_add]
    exact add_sub_cancel _ _
  · rw [hbit c]
    have hlt' : c < cn + 1 := hlt
    by_cases hcc : c = cn
    · rw [decide_eq_true hcc, Bool.or_true]
    · rw [hbelow c hc (by omega), Bool.true_or]
  · rw [hbit c, h.outside c hc hout, Bool.true_or]

end parts

/-! ## Which entries a write makes zero -/

section zero

variable {m : Volume} {d : Disk} {cn c : ℕ}

theorem rawEntry_fatSet_free (hcn : cn ≤ m.maxcluster) (hc : c ≤ m.maxcluster) :
    rawEntry m.toBpb (fatSet m.toBpb d cn clustFree) c =
      if c = cn then 0 else rawEntry m.toBpb d c := by
  rw [rawEntry_fatSet m d hcn hc]
  split
  · exact zero_and
  · split
    · exact or_zero
    · rfl

/-- When a write of `v` keeps the other entries zero or non-zero: the entry becomes non-zero, and in a
12 bit FAT the upper bits do not go into the entry of a free cluster. -/
structure AllocOk (m : Bpb) (d : Disk) (cn : ℕ) (v : BitVec 32) : Prop where
  nonzero : v &&& (if m.fat12 then 0x0fff else 0xffff) ≠ 0
  next : m.fat12 = true → cn % 2 = 0 → cn + 1 ≤ m.maxcluster → rawEntry m d (cn + 1) = 0 →
    (v >>> 12) &&& 0xf = 0

theorem inFat_fatSet_iff {v : BitVec 32} (hok : AllocOk m.toBpb d cn v) (hcn : cn ≤ m.maxcluster)
    (hc : c ≤ m.maxcluster) :
    InFat m.toBpb (fatSet m.toBpb d cn v) c ↔ InFat m.toBpb d c ∨ c = cn := by
  unfold InFat
  rw [rawEntry_fatSet m d hcn hc]
  by_cases hcc : c = cn
  · rw [if_pos hcc]
    exact iff_of_true hok.nonzero (.inr hcc)
  rw [if_neg hcc]
  split
  · next hslip =>
      obtain ⟨h12, heven, rfl⟩ := hslip
      constructor
      · intro h
        by_contra hnot
        have hzero : rawEntry m.toBpb d (cn + 1) = 0 := not_not.mp fun hne => hnot (.inl hne)
        apply h
        rw [hzero, hok.next h12 heven hc hzero]
        rfl
      · rintro (h | h) hzero
        · exact h (or_eq_zero_iff.mp hzero).1
        · exact hcc h
  · exact ⟨.inl, fun h => h.resolve_right hcc⟩

theorem allocOk_cluster {L : ℕ} (hcn : m.InVolume cn) :
    AllocOk m.toBpb d L (BitVec.ofNat 32 cn) := by
  have hlt := m.clusters
  have hle := hcn.2
  have hpos := hcn.1
  unfold clustRsrvs at hlt
  unfold clustFirst at hpos
  have hnat : (BitVec.ofNat 32 cn).toNat = cn := by
    rw [toNat_ofNat]
    exact Nat.mod_eq_of_lt (by omega)
  have hne : BitVec.ofNat 32 cn ≠ 0 := by
    intro h
    rw [h] at hnat
    have hzero : (0 : BitVec 32).toNat = 0 := rfl
    omega
  constructor
  · split
    · next h12 =>
        have hsmall : (BitVec.ofNat 32 cn).toNat < 2 ^ 12 := by
          rw [hnat]
          exact m.lt_of_fat12 h12 hcn
        have hand := and_of_lt hsmall (by decide)
        exact fun h => hne (hand.symm.trans h)
    · have hsmall : (BitVec.ofNat 32 cn).toNat < 2 ^ 16 := by omega
      have hand := and_of_lt hsmall (by decide)
      exact fun h => hne (hand.symm.trans h)
  · intro h12 _ _ _
    apply shiftRight_of_lt
    rw [hnat]
    exact m.lt_of_fat12 h12 hcn

end zero

end Bsd386.Msdosfs
