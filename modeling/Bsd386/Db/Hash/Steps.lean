import Bsd386.Db.Hash.Layout

/-!
# The numbering under the operations

Each operation keeps the numbering (`Layout`): a bit more in a bitmap (`Layout.mark`), an address more in
use (`Layout.insert`), a page more at the current split point (`Layout.grow`) or at a new one
(`Layout.growNext`), a bitmap more (`Layout.addBitmap`), and a page less in use (`Layout.clear`).

`overflowPage_spec`, `freeOvflpage_spec` and `expandTable_spec` put them together. The exception is a call
of `overflow_page` that takes the last page of a split point for a bitmap.
-/

namespace Bsd386.Db.Hash

open Function Lib Option Htab List

namespace Layout

variable {h : Htab} {used : Finset ℕ}

/-! ## Bits and addresses -/

theorem mark (hl : Layout h used) (mapp : ℕ → Option (ℕ → BitVec 32)) (lastFreed : ℕ)
    (hmaps : ∀ i, mapp i ≠ none ↔ h.mapp i ≠ none)
    (hbits : ∀ n, h.allocated n = true →
      Htab.allocated { h with mapp := mapp, lastFreed := lastFreed } n = true)
    (hfreed : lastFreed / h.pageBits ≤ (h.total - 1) / h.pageBits) :
    Layout { h with mapp := mapp, lastFreed := lastFreed } used where
  point := hl.point
  last := hl.last
  mono := hl.mono
  zero := hl.zero
  pos := hl.pos
  maps i := (hmaps i).trans (hl.maps i)
  nmaps := hl.nmaps
  room := hl.room
  need := hl.need
  tail n hn := hbits n (hl.tail n hn)
  freed := hfreed
  placed := hl.placed
  mapped := hl.mapped
  bits a ha := hbits _ (hl.bits a ha)
  bitmaps := hl.bitmaps
  apart := hl.apart

theorem insert (hl : Layout h used) {r : ℕ} (hplaced : h.Placed r)
    (hmapped : h.bitAddress r < h.nmaps * h.pageBits) (hbit : h.allocated (h.bitAddress r) = true)
    (hnew : ∀ i < h.nmaps, h.bitmaps i ≠ r) : Layout h (insert r used) where
  point := hl.point
  last := hl.last
  mono := hl.mono
  zero := hl.zero
  pos := hl.pos
  maps := hl.maps
  nmaps := hl.nmaps
  room := hl.room
  need := hl.need
  tail := hl.tail
  freed := hl.freed
  placed a ha := by
    rcases ha with ha | ha
    · rcases Finset.mem_insert.mp ha with rfl | ha
      · exact hplaced
      · exact hl.placed a (Or.inl ha)
    · exact hl.placed a (Or.inr ha)
  mapped a ha := by
    rcases ha with ha | ha
    · rcases Finset.mem_insert.mp ha with rfl | ha
      · exact hmapped
      · exact hl.mapped a (Or.inl ha)
    · exact hl.mapped a (Or.inr ha)
  bits a ha := by
    rcases ha with ha | ha
    · rcases Finset.mem_insert.mp ha with rfl | ha
      · exact hbit
      · exact hl.bits a (Or.inl ha)
    · exact hl.bits a (Or.inr ha)
  bitmaps := hl.bitmaps
  apart i hi hmem := by
    rcases Finset.mem_insert.mp hmem with heq | hmem
    · exact hnew i hi heq
    · exact hl.apart i hi hmem

theorem clear (hl : Layout h used) {a : ℕ} (ha : a ∈ used) (mapp : ℕ → Option (ℕ → BitVec 32))
    (lastFreed : ℕ) (hmaps : ∀ i, mapp i ≠ none ↔ h.mapp i ≠ none)
    (hbits : ∀ n, Htab.allocated { h with mapp := mapp, lastFreed := lastFreed } n =
      (h.allocated n && !decide (n = h.bitAddress a)))
    (hfreed : lastFreed / h.pageBits ≤ (h.total - 1) / h.pageBits) :
    Layout { h with mapp := mapp, lastFreed := lastFreed } (used.erase a) := by
  have hsub : ∀ a', Htab.InUse { h with mapp := mapp, lastFreed := lastFreed } (used.erase a) a' →
      h.InUse used a' ∧ a' ≠ a := by
    intro a' ha'
    rcases ha' with ha' | ⟨i, hi, rfl⟩
    · exact ⟨Or.inl (Finset.mem_of_mem_erase ha'), Finset.ne_of_mem_erase ha'⟩
    · exact ⟨Or.inr ⟨i, hi, rfl⟩, fun heq => hl.apart i hi (heq ▸ ha)⟩
  have hplaced := hl.placed a (Or.inl ha)
  exact {
    point := hl.point
    last := hl.last
    mono := hl.mono
    zero := hl.zero
    pos := hl.pos
    maps := fun i => (hmaps i).trans (hl.maps i)
    nmaps := hl.nmaps
    room := hl.room
    need := hl.need
    tail := by
      intro n hn
      have hlt := hl.bitAddress_lt_total hplaced
      have hne : n ≠ h.bitAddress a := fun heq => absurd hn (Nat.not_le.mpr (heq ▸ hlt))
      rw [hbits, hl.tail n hn, decide_eq_false hne]
      rfl
    freed := hfreed
    placed := fun a' ha' => hl.placed a' (hsub a' ha').1
    mapped := fun a' ha' => hl.mapped a' (hsub a' ha').1
    bits := by
      intro a' ha'
      obtain ⟨huse, hne⟩ := hsub a' ha'
      have hbit : h.bitAddress a' ≠ h.bitAddress a := fun heq =>
        hne (hl.bitAddress_inj (hl.placed a' huse) hplaced heq)
      change allocated _ (h.bitAddress a') = true
      rw [hbits, hl.bits a' huse, decide_eq_false hbit]
      rfl
    bitmaps := hl.bitmaps
    apart := fun i hi hmem => hl.apart i hi (Finset.mem_of_mem_erase hmem) }

/-! ## A new page -/

/-- Nothing in use has the last bit. Source: overflow_page -/
def LastFree (h : Htab) (used : Finset ℕ) : Prop := ∀ a, h.InUse used a → h.bitAddress a + 1 < h.total

theorem extend (hl : Layout h used) (q maxBucket lastFreed : ℕ) (spares : ℕ → ℕ)
    (hq : h.ovflPoint ≤ q) (hsame : ∀ i < h.ovflPoint, spares i = h.spares i)
    (hbetween : ∀ i, h.ovflPoint ≤ i → i < q → spares i = h.total) (hlast : h.total ≤ spares q)
    (hroom : spares q ≤ h.nmaps * h.pageBits + 1) (hmax : maxBucket + 1 ≤ 2 ^ q)
    (hfreed : lastFreed / h.pageBits ≤ (spares q - 1) / h.pageBits) {h' : Htab}
    (hh' : h' = { h with
      ovflPoint := q, maxBucket := maxBucket, lastFreed := lastFreed, spares := spares }) :
    Same h h' ∧ Layout h' used ∧ ∀ a, h'.InUse used a → h'.bitAddress a < h.total := by
  subst hh'
  have hs : Same h { h with
      ovflPoint := q, maxBucket := maxBucket, lastFreed := lastFreed, spares := spares } :=
    ⟨rfl, rfl, hq, hsame, Nat.le_refl _, fun _ _ => rfl⟩
  have hpoint := hl.point
  have hcount : ∀ j, j ≤ q → (j < h.ovflPoint ∧ spares j = h.spares j) ∨
      (h.ovflPoint ≤ j ∧ j < q ∧ spares j = h.total) ∨ j = q := by
    intro j hj
    rcases Nat.lt_or_ge j h.ovflPoint with hlt | hge
    · exact Or.inl ⟨hlt, hsame j hlt⟩
    · rcases Nat.eq_or_lt_of_le hj with rfl | hlt
      · exact Or.inr (Or.inr rfl)
      · exact Or.inr (Or.inl ⟨hge, hlt, hbetween j hge hlt⟩)
  have htotal : ∀ i, i ≤ h.ovflPoint → h.spares i ≤ h.total := fun i hi =>
    hl.mono i _ hi (Nat.le_refl _)
  have hge : ∀ s, s ≤ h.ovflPoint → h.spares s ≤ spares s := by
    intro s hsp
    have hle := htotal s hsp
    rcases hcount s (Nat.le_trans hsp hq) with hc | hc | rfl
    · omega
    · omega
    · omega
  have hbit : ∀ a, h.InUse used a → bitAddress { h with
      ovflPoint := q, maxBucket := maxBucket, lastFreed := lastFreed, spares := spares } a =
        h.bitAddress a := fun a ha => hs.bitAddress (hl.placed a ha).1
  refine ⟨hs, ?_, ?_⟩
  · exact {
      point := Nat.le_trans hpoint hq
      last := hmax
      mono := by
        intro i j hij hj
        change spares i ≤ spares j
        rcases hcount i (Nat.le_trans hij hj) with ⟨hi, hci⟩ | ⟨hi, hiq, hci⟩ | rfl
        · have hle := htotal i (Nat.le_of_lt hi)
          rcases hcount j hj with ⟨hj', hcj⟩ | ⟨-, -, hcj⟩ | rfl
          · rw [hci, hcj]
            exact hl.mono i j hij (Nat.le_of_lt hj')
          · omega
          · omega
        · rcases hcount j hj with hj' | ⟨-, -, hcj⟩ | rfl
          · omega
          · omega
          · omega
        · exact Nat.le_of_eq (congrArg spares (Nat.le_antisymm hij hj))
      zero := (hsame 0 (by omega)).trans hl.zero
      pos := Nat.le_trans hl.pos hlast
      maps := hl.maps
      nmaps := hl.nmaps
      room := hroom
      need := by
        have hneed := hl.need
        change h.nmaps * h.pageBits + 1 < spares q + h.pageBits
        omega
      tail := fun n hn => hl.tail n (Nat.le_trans hlast hn)
      freed := hfreed
      placed := by
        intro a ha
        have hold := hl.placed a ha
        refine ⟨Nat.le_trans hold.1 hq, hold.2.1, ?_⟩
        rw [hs.base hold.1]
        exact Nat.le_trans hold.2.2 (hge _ hold.1)
      mapped := by
        intro a ha
        rw [hbit a ha]
        exact hl.mapped a ha
      bits := by
        intro a ha
        rw [hbit a ha]
        exact hl.bits a ha
      bitmaps := hl.bitmaps
      apart := hl.apart }
  · intro a ha
    rw [hbit a ha]
    exact hl.bitAddress_lt_total (hl.placed a ha)

theorem more (hl : Layout h used) (hroom : h.total ≤ h.nmaps * h.pageBits) (q : ℕ) (spares : ℕ → ℕ)
    (hq : h.ovflPoint ≤ q) (hsame : ∀ i < h.ovflPoint, spares i = h.spares i)
    (hbetween : ∀ i, h.ovflPoint ≤ i → i < q → spares i = h.total) (hlast : spares q = h.total + 1) :
    Same h { h with ovflPoint := q, lastFreed := h.total, spares := spares } ∧
      Layout { h with ovflPoint := q, lastFreed := h.total, spares := spares } used ∧
        LastFree { h with ovflPoint := q, lastFreed := h.total, spares := spares } used := by
  obtain ⟨hs, hl', hbits⟩ := hl.extend q h.maxBucket h.total spares hq hsame hbetween
    (by omega) (by omega) (Nat.le_trans hl.last (Nat.pow_le_pow_right (by decide) hq))
    (by rw [hlast]; exact Nat.le_refl _) rfl
  refine ⟨hs, hl', fun a ha => ?_⟩
  have hlt := hbits a ha
  change _ < spares q
  rw [hlast]
  exact Nat.succ_lt_succ hlt

theorem placed_oaddrOf {q o : ℕ} (hq : q ≤ h.ovflPoint) (ho : 1 ≤ o) (ho' : o ≤ splitmask)
    (hle : h.base q + o ≤ h.spares q) :
    h.Placed (oaddrOf q o) ∧ h.bitAddress (oaddrOf q o) = h.base q + o - 1 := by
  unfold Htab.Placed
  rw [bitAddress_eq, splitnum_oaddrOf ho', opagenum_oaddrOf ho']
  exact ⟨⟨hq, ho, hle⟩, rfl⟩

theorem addBitmap (hl : Layout h used) (hfree : LastFree h used) {o : ℕ} (ho : 1 ≤ o)
    (ho' : o ≤ splitmask) (hplace : h.base h.ovflPoint + o = h.total)
    (hfull : h.total = h.nmaps * h.pageBits + 1) (hcached : h.nmaps < ncached) {h' : Htab}
    (hh' : h' = { initBitmap h (oaddrOf h.ovflPoint o) 1 h.nmaps with
      spares := update h.spares h.ovflPoint (h.total + 1) }) :
    Same h h' ∧ Layout h' used ∧ (∀ a, h'.InUse used a → h'.bitAddress a < h.total) ∧
      h'.allocated h.total = true := by
  obtain ⟨addr, haddr⟩ : ∃ addr, oaddrOf h.ovflPoint o = addr := ⟨_, rfl⟩
  obtain ⟨hplaced, hbit⟩ := placed_oaddrOf (Nat.le_refl _) ho ho' (Nat.le_of_eq hplace)
  rw [haddr] at hh' hplaced hbit
  have hpb := h.le_pageBits
  have hs : Same h h' := by
    rw [hh']
    exact ⟨rfl, rfl, Nat.le_refl _, fun i hi => update_of_ne (Nat.ne_of_lt hi) _ _,
      Nat.le_succ _, fun i hi => update_of_ne (Nat.ne_of_lt hi) _ _⟩
  have hnmaps : h'.nmaps = h.nmaps + 1 := by rw [hh']; rfl
  have hbitmaps : h'.bitmaps = update h.bitmaps h.nmaps addr := by rw [hh']; rfl
  have hmapp : h'.mapp = update h.mapp h.nmaps (some (newBitmap 1)) := by rw [hh']; rfl
  have hspares : h'.spares = update h.spares h.ovflPoint (h.total + 1) := by rw [hh']
  have hpoint : h'.ovflPoint = h.ovflPoint := by rw [hh']; rfl
  have hlastFreed : h'.lastFreed = h.lastFreed := by rw [hh']; rfl
  have hmax : h'.maxBucket = h.maxBucket := by rw [hh']; rfl
  have hbits : h'.pageBits = h.pageBits := by
    unfold pageBits
    rw [hs.bshift]
  have htotal : h'.total = h.total + 1 := by
    unfold total
    rw [hspares, hpoint, update_self]
    rfl
  have hcount : ∀ i, i ≤ h.ovflPoint → (i < h.ovflPoint ∧ h'.spares i = h.spares i) ∨
      (i = h.ovflPoint ∧ h'.spares i = h.total + 1) := by
    intro i hi
    rcases Nat.eq_or_lt_of_le hi with rfl | hlt
    · exact Or.inr ⟨rfl, by rw [hspares, update_self]⟩
    · exact Or.inl ⟨hlt, hs.spares i hlt⟩
  have hold : ∀ i, i ≤ h.ovflPoint → h.spares i ≤ h'.spares i := by
    intro i hi
    have hle : h.spares i ≤ h.total := hl.mono i _ hi (Nat.le_refl _)
    rcases hcount i hi with hc | hc
    · omega
    · omega
  have halloc : ∀ n, h.allocated n = true → h'.allocated n = true := by
    intro n hn
    rw [allocated_update hs.bshift hmapp]
    split_ifs
    · exact wordBit_newBitmap_one _
    · exact hn
  -- an address in use is the new bitmap or was in use before
  have huse : ∀ a, h'.InUse used a → a = addr ∨ h.InUse used a := by
    intro a ha
    rcases ha with ha | ⟨i, hi, rfl⟩
    · exact Or.inr (Or.inl ha)
    rw [hbitmaps, update_apply]
    split_ifs with heq
    · exact Or.inl rfl
    · exact Or.inr (Or.inr ⟨i, by omega, rfl⟩)
  have hplaced' : ∀ a, h.Placed a → h'.Placed a ∧ h'.bitAddress a = h.bitAddress a := by
    intro a ha
    refine ⟨⟨by rw [hpoint]; exact ha.1, ha.2.1, ?_⟩, hs.bitAddress ha.1⟩
    rw [hs.base ha.1]
    exact Nat.le_trans ha.2.2 (hold _ ha.1)
  have hmul : (h.nmaps + 1) * h.pageBits = h.nmaps * h.pageBits + h.pageBits := Nat.succ_mul _ _
  have hold_ne : ∀ i < h.nmaps, h.bitmaps i ≠ addr := by
    rintro i hi rfl
    have hlt := hfree _ (Or.inr ⟨i, hi, rfl⟩)
    omega
  have hnew : ∀ n, n / h.pageBits = h.nmaps → h'.allocated n = true := by
    intro n hn
    rw [allocated_update hs.bshift hmapp, if_pos hn]
    exact wordBit_newBitmap_one _
  refine ⟨hs, ?_, ?_, hnew _ ?_⟩
  · exact {
      point := by rw [hpoint]; exact hl.point
      last := by rw [hpoint, hmax]; exact hl.last
      mono := by
        intro i j hij hj
        rw [hpoint] at hj
        have hmono := hl.mono i j hij hj
        have hj' := hold j hj
        rcases hcount i (Nat.le_trans hij hj) with hc | hc
        · omega
        · rcases hcount j hj with hc' | hc'
          · omega
          · omega
      zero := by
        have hpos := hl.point
        rw [hs.spares 0 (by omega)]
        exact hl.zero
      pos := by omega
      maps := by
        intro i
        rw [hmapp, hnmaps, update_apply]
        split_ifs with heq
        · exact ⟨fun _ => by omega, fun _ => some_ne_none _⟩
        · have hmaps := hl.maps i
          rw [hmaps]
          omega
      nmaps := by omega
      room := by
        rw [hnmaps, hbits, hmul]
        omega
      need := by
        rw [hnmaps, hbits, hmul]
        omega
      tail := fun n hn => halloc n (hl.tail n (by omega))
      freed := by
        rw [hlastFreed, hbits, htotal]
        exact Nat.le_trans hl.freed (Nat.div_le_div_right (by omega))
      placed := by
        intro a ha
        rcases huse a ha with rfl | ha
        · exact (hplaced' _ hplaced).1
        · exact (hplaced' _ (hl.placed a ha)).1
      mapped := by
        intro a ha
        rw [hnmaps, hbits, hmul]
        rcases huse a ha with rfl | ha
        · rw [(hplaced' _ hplaced).2]
          omega
        · rw [(hplaced' _ (hl.placed a ha)).2]
          have hlt := hl.mapped a ha
          omega
      bits := by
        intro a ha
        rcases huse a ha with rfl | ha
        · rw [(hplaced' _ hplaced).2]
          refine hnew _ ?_
          rw [show h.bitAddress a = h.nmaps * h.pageBits by omega]
          exact Nat.mul_div_cancel _ (by omega)
        · rw [(hplaced' _ (hl.placed a ha)).2]
          exact halloc _ (hl.bits a ha)
      bitmaps := by
        intro i j hi hj heq
        rw [hbitmaps, update_apply, update_apply] at heq
        split_ifs at heq with hi' hj' hj'
        · omega
        · exact absurd heq.symm (hold_ne j (by omega))
        · exact absurd heq (hold_ne i (by omega))
        · exact hl.bitmaps i j (by omega) (by omega) heq
      apart := by
        intro i hi hmem
        rw [hbitmaps, update_apply] at hmem
        split_ifs at hmem with heq
        · have hlt := hfree _ (Or.inl hmem)
          omega
        · exact hl.apart i (by omega) hmem }
  · intro a ha
    rcases huse a ha with rfl | ha
    · rw [(hplaced' _ hplaced).2]
      omega
    · rw [(hplaced' _ (hl.placed a ha)).2]
      have hlt := hfree a ha
      omega
  · exact ((page_eq_iff (show 1 < h.pageBits by omega) _).mpr hfull).1

end Layout

/-! ## The operations -/

/-- **What a call of `overflow_page` does**: it keeps the numbering, and the result is 0 or the address of
a page that was not in use. Source: overflow_page -/
def Allocates (h : Htab) (used : Finset ℕ) (r : ℕ × Htab) : Prop :=
  Same h r.2 ∧ r.2.maxBucket = h.maxBucket ∧
    ((r.1 = 0 ∧ Layout r.2 used) ∨
      (opagenum r.1 ≠ 0 ∧ ¬h.InUse used r.1 ∧ Layout r.2 (insert r.1 used)))

section overflow

variable {h : Htab} {used : Finset ℕ}

theorem Allocates.after {h' : Htab} {r : ℕ × Htab} (hr : Allocates h' used r) (hs : Same h h')
    (hmax : h'.maxBucket = h.maxBucket) (huse : ∀ a, h.InUse used a → h'.InUse used a) :
    Allocates h used r := by
  obtain ⟨hs', hmax', hres⟩ := hr
  refine ⟨hs.trans hs', hmax'.trans hmax, hres.imp_right fun ⟨h0, hnot, hl⟩ => ?_⟩
  exact ⟨h0, fun ha => hnot (huse _ ha), hl⟩

/-- The last page of the split point would be taken for a bitmap.
Source: overflow_page -/
def LastForBitmap (splitnum offset freePage freeBit : ℕ) (h : Htab) (memory : Bool) : Prop :=
  freeBit = h.pageBits - 1 ∧ freePage + 1 < ncached ∧ memory = true ∧ offset = splitmask ∧
    splitnum + 1 < ncached

theorem takeNew_spec (hl : Layout h used) (hfree : Layout.LastFree h used) {o freePage freeBit : ℕ}
    {freep : ℕ → BitVec 32} (memory : Bool) (ho : 1 ≤ o) (ho' : o ≤ splitmask)
    (hplace : h.base h.ovflPoint + o = h.total) (hsome : h.mapp freePage = some freep)
    (hlt : freeBit < h.pageBits) (hlast : h.total = freePage * h.pageBits + freeBit + 2)
    (hgood : ¬LastForBitmap h.ovflPoint o freePage freeBit h memory) :
    Allocates h used (h.takeNew h.ovflPoint o freePage freeBit freep memory) := by
  have hrefl := Same.refl h
  have hpb := h.le_pageBits
  have hpage : freePage < h.nmaps := (hl.maps freePage).mp (by rw [hsome]; exact some_ne_none _)
  have hmul : (freePage + 1) * h.pageBits = freePage * h.pageBits + h.pageBits := Nat.succ_mul _ _
  have hmaps : (freePage + 1) * h.pageBits ≤ h.nmaps * h.pageBits := Nat.mul_le_mul_right _ hpage
  obtain ⟨hplaced, hbit⟩ := Layout.placed_oaddrOf (h := h) (Nat.le_refl _) ho ho' (Nat.le_of_eq hplace)
  unfold takeNew
  by_cases hfull : freeBit = h.pageBits - 1
  · rw [if_pos hfull]
    by_cases hcached : ncached ≤ freePage + 1
    · rw [if_pos hcached]
      exact ⟨hrefl, rfl, Or.inl ⟨rfl, hl⟩⟩
    rw [if_neg hcached]
    cases memory with
    | false => exact ⟨hrefl, rfl, Or.inl ⟨rfl, hl⟩⟩
    | true =>
      rw [if_neg (by decide)]
      -- the last bitmap is full
      have hnmaps : h.nmaps = freePage + 1 := by
        have hneed := hl.need
        have hmul' : (freePage + 2) * h.pageBits = (freePage + 1) * h.pageBits + h.pageBits :=
          Nat.succ_mul _ _
        by_contra hne
        have hle := Nat.mul_le_mul_right h.pageBits (show freePage + 2 ≤ h.nmaps by omega)
        omega
      rw [← hnmaps]
      obtain ⟨h', hh'⟩ : ∃ h', { initBitmap h (oaddrOf h.ovflPoint o) 1 h.nmaps with
        spares := update h.spares h.ovflPoint (h.total + 1) } = h' := ⟨_, rfl⟩
      obtain ⟨hs, hl', hbits, hset⟩ := hl.addBitmap hfree ho ho' hplace
        (by rw [hnmaps]; omega) (by omega) hh'.symm
      have hmax : h'.maxBucket = h.maxBucket := by rw [← hh']; rfl
      have hpoint : h'.ovflPoint = h.ovflPoint := by rw [← hh']; rfl
      have htotal : h'.spares h.ovflPoint = h.total + 1 := by
        rw [← hh']
        exact update_self _ _ _
      have hnmaps' : h'.nmaps = h.nmaps + 1 := by rw [← hh']; rfl
      have hbits' : h'.pageBits = h.pageBits := by
        unfold pageBits
        rw [hs.bshift]
      change Allocates h used (if splitmask < o + 1 then
        (if ncached ≤ h.ovflPoint + 1 then (0, { initBitmap h (oaddrOf h.ovflPoint o) 1 h.nmaps with
            spares := update h.spares h.ovflPoint (h.total + 1) })
          else (oaddrOf (h.ovflPoint + 1) 0, nextPoint { initBitmap h
            (oaddrOf h.ovflPoint o) 1 h.nmaps with
              spares := update h.spares h.ovflPoint (h.total + 1) } h.ovflPoint))
        else (oaddrOf h.ovflPoint (o + 1), { initBitmap h (oaddrOf h.ovflPoint o) 1 h.nmaps with
            spares := update h.spares h.ovflPoint (h.total + 1) }))
      rw [hh']
      by_cases hsplit : splitmask < o + 1
      · rw [if_pos hsplit, if_pos]
        · exact ⟨hs, hmax, Or.inl ⟨rfl, hl'⟩⟩
        · by_contra hlt'
          exact hgood ⟨hfull, by omega, rfl, by omega, by omega⟩
      rw [if_neg hsplit]
      obtain ⟨hplaced', hbit'⟩ := Layout.placed_oaddrOf (h := h') (q := h.ovflPoint) (o := o + 1)
        (by omega) (by omega) (by omega) (by rw [htotal, hs.base (Nat.le_refl _)]; omega)
      rw [hs.base (Nat.le_refl _)] at hbit'
      have hfresh : ∀ a, h'.InUse used a → a ≠ oaddrOf h.ovflPoint (o + 1) := by
        rintro a ha rfl
        have hbit := hbits _ ha
        omega
      refine ⟨hs, hmax, Or.inr ⟨?_, ?_, hl'.insert hplaced' ?_ ?_ ?_⟩⟩
      · rw [opagenum_oaddrOf (by omega)]
        exact Nat.succ_ne_zero o
      · intro ha
        have hold := (hl.placed _ ha).2.2
        have hle : h.spares h.ovflPoint = h.total := rfl
        rw [splitnum_oaddrOf (by omega), opagenum_oaddrOf (by omega)] at hold
        omega
      · rw [hbit', hbits', hnmaps', Nat.succ_mul, hnmaps]
        omega
      · rw [hbit', show h.base h.ovflPoint + (o + 1) - 1 = h.total by omega]
        exact hset
      · exact fun i hi heq => hfresh _ (Or.inr ⟨i, hi, rfl⟩) heq
  · -- the next bit of the last bitmap
    rw [if_neg hfull]
    have hb : freeBit + 1 < h.pageBits := by omega
    have hbitN : h.bitAddress (oaddrOf h.ovflPoint o) = freePage * h.pageBits + (freeBit + 1) := by
      omega
    have halloc := allocated_setbit
      { h with mapp := update h.mapp freePage (some (setbit freep (freeBit + 1))) }
      hsome rfl rfl hb
    have hl' := hl.mark (update h.mapp freePage (some (setbit freep (freeBit + 1))))
      h.lastFreed (fun i => by
        rw [update_apply]
        split_ifs with heq
        · rw [heq, hsome]
          exact ⟨fun _ => some_ne_none _, fun _ => some_ne_none _⟩
        · exact Iff.rfl) (fun n hn => by rw [halloc, hn]; rfl) hl.freed
    have hnot : ¬h.InUse used (oaddrOf h.ovflPoint o) := by
      intro ha
      have hlt' := hfree _ ha
      omega
    refine ⟨Same.mark h _ _, rfl, Or.inr ⟨?_, hnot, hl'.insert hplaced ?_ ?_ ?_⟩⟩
    · rw [opagenum_oaddrOf ho']
      exact Nat.one_le_iff_ne_zero.mp ho
    · change h.bitAddress (oaddrOf h.ovflPoint o) < h.nmaps * h.pageBits
      omega
    · change allocated _ (h.bitAddress (oaddrOf h.ovflPoint o)) = true
      rw [halloc, hbitN, decide_eq_true rfl, Bool.or_true]
    · exact fun i hi heq => hnot (Or.inr ⟨i, hi, heq⟩)

theorem splitOf_spec (hl : Layout h used) {n : ℕ} (hpos : 1 ≤ n) (hle : n ≤ h.total) :
    h.splitOf h.ovflPoint n ≠ 0 ∧ h.splitOf h.ovflPoint n ≤ h.ovflPoint ∧
      h.spares (h.splitOf h.ovflPoint n - 1) < n ∧ n ≤ h.spares (h.splitOf h.ovflPoint n) := by
  have hpoint := hl.point
  unfold splitOf
  cases hfind : (range h.ovflPoint).find? fun i => decide (n ≤ h.spares i) with
  | none =>
    have hnot := find?_eq_none.mp hfind (h.ovflPoint - 1) (mem_range.mpr (by omega))
    rw [decide_eq_true_eq] at hnot
    change h.ovflPoint ≠ 0 ∧ h.ovflPoint ≤ h.ovflPoint ∧ _ ∧ n ≤ h.spares h.ovflPoint
    exact ⟨by omega, Nat.le_refl _, Nat.lt_of_not_le hnot, hle⟩
  | some i =>
    obtain ⟨hn, hi, hbefore⟩ := find?_range_eq_some.mp hfind
    rw [decide_eq_true_eq] at hn
    have hlt := mem_range.mp hi
    have h0 : i ≠ 0 := by
      rintro rfl
      have hzero := hl.zero
      omega
    have hnot := hbefore (i - 1) (by omega)
    rw [Bool.not_eq_true', decide_eq_false_iff_not] at hnot
    exact ⟨h0, Nat.le_of_lt hlt, Nat.lt_of_not_le hnot, hn⟩

theorem allocated_firstFree {i bit : ℕ} {freep : ℕ → BitVec 32} (hsome : h.mapp i = some freep)
    (hbit : bit < h.pageBits) (halign : bit % 32 = 0) (hclear : freep (bit / 32) ≠ allSet) :
    bit + firstFree (freep (bit / 32)) < h.pageBits ∧
      h.allocated (i * h.pageBits + (bit + firstFree (freep (bit / 32)))) = false := by
  obtain ⟨hlt, hzero⟩ := firstFree_spec hclear
  obtain ⟨b, hb⟩ : ∃ b, bit + firstFree (freep (bit / 32)) = b := ⟨_, rfl⟩
  obtain ⟨k, -, hk⟩ := h.pageBits_words
  rw [hb]
  have hbpb : b < h.pageBits := by omega
  have hword : wordBit freep b = false := by
    unfold wordBit
    rw [show b / 32 = bit / 32 by omega, show b % 32 = firstFree (freep (bit / 32)) by omega]
    exact hzero
  obtain ⟨hdiv, hmod⟩ := (page_eq_iff hbpb (i * h.pageBits + b)).mpr rfl
  refine ⟨hbpb, ?_⟩
  rw [allocated_of_some hdiv hsome, hmod, hword]

theorem takeFound_spec (hl : Layout h used) {i bit : ℕ} {freep : ℕ → BitVec 32}
    (hsome : h.mapp i = some freep) (hbit : bit < h.pageBits) (halign : bit % 32 = 0)
    (hclear : freep (bit / 32) ≠ allSet) : Allocates h used (h.takeFound i freep bit) := by
  obtain ⟨hbpb, hfree⟩ := allocated_firstFree hsome hbit halign hclear
  obtain ⟨b, hb⟩ : ∃ b, bit + firstFree (freep (bit / 32)) = b := ⟨_, rfl⟩
  rw [hb] at hbpb hfree
  obtain ⟨n, hn⟩ : ∃ n, i * h.pageBits + b = n := ⟨_, rfl⟩
  rw [hn] at hfree
  have hntotal : n < h.total := by
    by_contra hge
    rw [hl.tail n (by omega)] at hfree
    exact absurd hfree (by decide)
  have hnmaps : n < h.nmaps * h.pageBits := by
    have hi : i < h.nmaps := (hl.maps i).mp (by rw [hsome]; exact some_ne_none _)
    have hle := Nat.mul_le_mul_right h.pageBits (show i + 1 ≤ h.nmaps from hi)
    rw [Nat.succ_mul] at hle
    omega
  -- the bit is set, and the last freed page moves to it when it was behind
  obtain ⟨lastFreed, hlf⟩ : ∃ l, (if h.lastFreed ≤ n + 1 then n else h.lastFreed) = l := ⟨_, rfl⟩
  have halloc := allocated_setbit { h with
    mapp := update h.mapp i (some (setbit freep b)), lastFreed := lastFreed } hsome rfl rfl hbpb
  have hl' := hl.mark (update h.mapp i (some (setbit freep b))) lastFreed (fun j => by
      rw [update_apply]
      split_ifs with heq
      · rw [heq, hsome]
        exact ⟨fun _ => some_ne_none _, fun _ => some_ne_none _⟩
      · exact Iff.rfl) (fun m hm => by rw [halloc, hm]; rfl) (by
    rw [← hlf]
    split_ifs
    · exact Nat.div_le_div_right (by omega)
    · exact hl.freed)
  obtain ⟨h', hh'⟩ : ∃ h', { h with
    mapp := update h.mapp i (some (setbit freep b)), lastFreed := lastFreed } = h' := ⟨_, rfl⟩
  rw [hh'] at hl'
  have hsplit := splitOf_spec hl (show 1 ≤ n + 1 by omega) (by omega)
  obtain ⟨s, hs⟩ : ∃ s, h.splitOf h.ovflPoint (n + 1) = s := ⟨_, rfl⟩
  rw [hs] at hsplit
  obtain ⟨hs0, hsp, hlo, hhi⟩ := hsplit
  have hrun : h.takeFound i freep bit = if splitmask ≤ n + 1 - h.spares (s - 1) then (0, h')
      else (oaddrOf s (n + 1 - h.spares (s - 1)), h') := by
    have hsum : 1 + b + i * h.pageBits = n + 1 := by omega
    have hif : (if h.lastFreed ≤ n + 1 then
        { h with mapp := update h.mapp i (some (setbit freep b)), lastFreed := n + 1 - 1 }
        else { h with mapp := update h.mapp i (some (setbit freep b)) }) = h' := by
      rw [← hh', ← hlf]
      split_ifs
      · rfl
      · rfl
    have hpoint : h'.splitOf h'.ovflPoint (n + 1) = s := by
      rw [← hs, ← hh']
      rfl
    have hspares : h'.spares = h.spares := by rw [← hh']
    unfold takeFound
    rw [hb]
    change (let bit := 1 + b + i * h.pageBits
      let h := if h.lastFreed ≤ bit then
        { h with mapp := update h.mapp i (some (setbit freep b)), lastFreed := bit - 1 }
        else { h with mapp := update h.mapp i (some (setbit freep b)) }
      let i := h.splitOf h.ovflPoint bit
      let offset := if i ≠ 0 then bit - h.spares (i - 1) else bit
      if splitmask ≤ offset then (0, h) else (oaddrOf i offset, h)) = _
    rw [hsum]
    dsimp only
    rw [hif, hpoint, if_pos hs0, hspares]
  have hrefl : Same h h' := by
    rw [← hh']
    exact Same.mark h _ _
  have hmax : h'.maxBucket = h.maxBucket := by rw [← hh']
  rw [hrun]
  split_ifs with hlast
  · exact ⟨hrefl, hmax, Or.inl ⟨rfl, hl'⟩⟩
  obtain ⟨o, ho⟩ : ∃ o, n + 1 - h.spares (s - 1) = o := ⟨_, rfl⟩
  rw [ho] at hlast ⊢
  have hbase : h.base s = h.spares (s - 1) := if_pos hs0
  obtain ⟨hplaced, hbit'⟩ := Layout.placed_oaddrOf (h := h) hsp (show 1 ≤ o by omega)
    (Nat.le_of_lt (Nat.lt_of_not_le hlast)) (by omega)
  have hbitn : h.bitAddress (oaddrOf s o) = n := by omega
  have hnot : ¬h.InUse used (oaddrOf s o) := by
    intro ha
    have hset := hl.bits _ ha
    rw [hbitn, hfree] at hset
    exact absurd hset (by decide)
  have hbitn' : h'.bitAddress (oaddrOf s o) = n := (hrefl.bitAddress hplaced.1).trans hbitn
  refine ⟨hrefl, hmax, Or.inr ⟨?_, hnot, hl'.insert ?_ ?_ ?_ ?_⟩⟩
  · rw [opagenum_oaddrOf (Nat.le_of_lt (Nat.lt_of_not_le hlast))]
    omega
  · rw [← hh']
    exact hplaced
  · rw [hbitn', ← hh']
    exact hnmaps
  · rw [hbitn', ← hh', halloc, hn, decide_eq_true rfl, Bool.or_true]
  · rw [← hh']
    exact fun j hj heq => hnot (Or.inr ⟨j, hj, heq⟩)

/-- Every page is allocated, as far as the search looks.
Source: overflow_page -/
def Exhausted (h : Htab) : Prop := ∀ n, h.lastFreed / 32 * 32 ≤ n → n < h.total → h.allocated n = true

/-- **The calls of `overflow_page` that go wrong**: there is no free page, and all bitmaps are in use and
full, or a new bitmap takes the last page of the split point.
Source: overflow_page -/
def Overruns (h : Htab) (memory : Bool) : Prop :=
  Exhausted h ∧ (ncached * h.pageBits < h.total ∨
    (h.total % h.pageBits = 0 ∧ h.total / h.pageBits < ncached ∧ memory = true ∧
      h.total + 1 - h.base h.ovflPoint = splitmask ∧ h.ovflPoint + 1 < ncached))

theorem nextPoint_eq (h : Htab) : Htab.nextPoint { h with
    lastFreed := h.total, spares := update h.spares h.ovflPoint (h.total + 1) } h.ovflPoint =
      { h with
        ovflPoint := h.ovflPoint + 1
        lastFreed := h.total
        spares := update (update h.spares h.ovflPoint h.total) (h.ovflPoint + 1)
          (h.total + 1) } := by
  unfold nextPoint
  dsimp only
  rw [update_self, update_of_ne (Nat.ne_of_lt (Nat.lt_succ_self _)),
    update_self, Nat.add_sub_cancel]
  congr 1
  rw [update_comm (Nat.ne_of_lt (Nat.lt_succ_self _)), update_idem]
  exact update_comm (Nat.succ_ne_self _) _ _ _

theorem overflowPage_eq (hl : Layout h used) (memory : Bool) {freePage freeBit : ℕ}
    (hpage : (h.total - 1) / h.pageBits = freePage) (hbit : (h.total - 1) % h.pageBits = freeBit) :
    overflowPage h memory = match h.searchMaps (h.lastFreed / h.pageBits) freePage freeBit
      (freePage + 1 - h.lastFreed / h.pageBits) (h.lastFreed / h.pageBits) with
    | .undefined => none
    | .null => some (0, h)
    | .found i freep bit => some (h.takeFound i freep bit)
    | .full freep =>
      let h' := { h with
        lastFreed := h.total
        spares := update h.spares h.ovflPoint (h.total + 1) }
      let offset := h.total + 1 - h.base h.ovflPoint
      if splitmask < offset then
        if ncached ≤ h.ovflPoint + 1 then some (0, h')
        else some ((h'.nextPoint h.ovflPoint).takeNew (h.ovflPoint + 1) 1 freePage freeBit freep memory)
      else some (h'.takeNew h.ovflPoint offset freePage freeBit freep memory) := by
  have hoffset : update h.spares h.ovflPoint (h.total + 1) h.ovflPoint -
      (if h.ovflPoint ≠ 0 then
        update h.spares h.ovflPoint (h.total + 1) (h.ovflPoint - 1) else 0) =
      h.total + 1 - h.base h.ovflPoint := by
    have hpoint := hl.point
    have h0 : h.ovflPoint ≠ 0 := by omega
    have hne : h.ovflPoint - 1 ≠ h.ovflPoint := by omega
    unfold base
    rw [if_pos h0, if_pos h0, update_self, update_of_ne hne]
  rw [← hoffset, ← hpage, ← hbit, ← h.shiftRight_eq, ← h.shiftRight_eq, ← h.and_eq_mod]
  rfl

theorem overflowPage_spec (hl : Layout h used) {memory : Bool} (hgood : ¬Overruns h memory) :
    ∃ r, overflowPage h memory = some r ∧ Allocates h used r := by
  have hpb := h.le_pageBits
  have hpos := hl.pos
  obtain ⟨freePage, hpage⟩ : ∃ p, (h.total - 1) / h.pageBits = p := ⟨_, rfl⟩
  obtain ⟨freeBit, hbit⟩ : ∃ b, (h.total - 1) % h.pageBits = b := ⟨_, rfl⟩
  have hlt : freeBit < h.pageBits := by
    rw [← hbit]
    exact Nat.mod_lt _ (by omega)
  have htotal : h.total = freePage * h.pageBits + freeBit + 1 := by
    have hplace := (page_eq_iff hlt (h.total - 1)).mp ⟨hpage, hbit⟩
    omega
  have hfreed := hl.freed
  rw [hpage] at hfreed
  have hsearch := searchMaps_spec (h := h) hlt
    (show h.lastFreed / h.pageBits + (freePage + 1 - h.lastFreed / h.pageBits) = freePage + 1 by omega)
    (by omega) (Nat.le_refl _)
  rw [searchBit_first] at hsearch
  have hrun := overflowPage_eq hl memory hpage hbit
  rw [hrun]
  revert hsearch
  generalize h.searchMaps (h.lastFreed / h.pageBits) freePage freeBit
    (freePage + 1 - h.lastFreed / h.pageBits) (h.lastFreed / h.pageBits) = r
  intro hsearch
  cases r with
  | undefined =>
    -- the search has passed all bitmaps
    obtain ⟨hge, hall⟩ := hsearch
    refine absurd ⟨?_, Or.inl ?_⟩ hgood
    · intro n hlo hhi
      rcases Nat.lt_or_ge n (ncached * h.pageBits) with hn | hn
      · exact hall n hlo hn
      unfold allocated
      have hnone : h.mapp (n / h.pageBits) = none := by
        by_contra hsome
        have hlt' := (hl.maps _).mp hsome
        have hcached := hl.nmaps
        have hdiv := (Nat.le_div_iff_mul_le (show 0 < h.pageBits by omega)).mpr hn
        omega
      rw [hnone]
    · have hmul := Nat.mul_le_mul_right h.pageBits hge
      omega
  | null => exact ⟨_, rfl, Same.refl h, rfl, Or.inl ⟨rfl, hl⟩⟩
  | found i freep bit =>
    obtain ⟨-, hsome, hb, halign, hclear, -⟩ := hsearch
    exact ⟨_, rfl, takeFound_spec hl hsome hb halign hclear⟩
  | full freep =>
    obtain ⟨hcached, hsome, hall⟩ := hsearch
    have hexhausted : Exhausted h := fun n hlo hhi => hall n hlo (by omega)
    have hroom : h.total ≤ h.nmaps * h.pageBits := by
      have hi : freePage < h.nmaps :=
        (hl.maps freePage).mp (by rw [hsome]; exact some_ne_none _)
      have hle := Nat.mul_le_mul_right h.pageBits (show freePage + 1 ≤ h.nmaps from hi)
      rw [Nat.succ_mul] at hle
      omega
    dsimp only
    by_cases hwrap : splitmask < h.total + 1 - h.base h.ovflPoint
    · rw [if_pos hwrap]
      by_cases hpoint : ncached ≤ h.ovflPoint + 1
      · rw [if_pos hpoint]
        obtain ⟨hs, hl', -⟩ := hl.more hroom h.ovflPoint
          (update h.spares h.ovflPoint (h.total + 1)) (Nat.le_refl _)
          (fun i hi => update_of_ne (Nat.ne_of_lt hi) _ _) (fun i hge hi => by omega)
          (update_self _ _ _)
        exact ⟨_, rfl, hs, rfl, Or.inl ⟨rfl, hl'⟩⟩
      · -- the split point is full
        rw [if_neg hpoint, nextPoint_eq]
        obtain ⟨hs, hl', hfree⟩ := hl.more hroom (h.ovflPoint + 1)
          (update (update h.spares h.ovflPoint h.total) (h.ovflPoint + 1)
            (h.total + 1)) (Nat.le_succ _)
          (fun i hi => by
            rw [update_of_ne (by omega), update_of_ne (Nat.ne_of_lt hi)])
          (fun i hge hi => by
            rw [show i = h.ovflPoint by omega, update_of_ne (Nat.ne_of_lt (Nat.lt_succ_self _)),
              update_self])
          (update_self _ _ _)
        obtain ⟨h', hh'⟩ : ∃ h', { h with
          ovflPoint := h.ovflPoint + 1
          lastFreed := h.total
          spares := update (update h.spares h.ovflPoint h.total) (h.ovflPoint + 1)
            (h.total + 1) } = h' := ⟨_, rfl⟩
        rw [hh'] at hs hl' hfree ⊢
        have hpoint' : h'.ovflPoint = h.ovflPoint + 1 := by rw [← hh']
        have htotal' : h'.total = h.total + 1 := by
          rw [← hh']
          exact update_self _ _ _
        have hbase : h'.base h'.ovflPoint = h.total := by
          rw [hpoint', base_succ, ← hh']
          dsimp only
          rw [update_of_ne (Nat.ne_of_lt (Nat.lt_succ_self _)), update_self]
        have hpb' : h'.pageBits = h.pageBits := by rw [← hh']; rfl
        have hsome' : h'.mapp freePage = some freep := by rw [← hh', ← hsome]
        have hnew := takeNew_spec hl' hfree memory (Nat.le_refl 1) (by decide) (by omega) hsome'
          (show freeBit < h'.pageBits by omega) (by rw [htotal', hpb', htotal]) (fun hbad => absurd hbad.2.2.2.1 (by decide))
        rw [hpoint'] at hnew
        exact ⟨_, rfl, hnew.after hs (by rw [← hh']) (by rw [← hh']; exact fun a ha => ha)⟩
    · rw [if_neg hwrap]
      obtain ⟨hs, hl', hfree⟩ := hl.more hroom h.ovflPoint
        (update h.spares h.ovflPoint (h.total + 1)) (Nat.le_refl _)
        (fun i hi => update_of_ne (Nat.ne_of_lt hi) _ _) (fun i hge hi => by omega)
        (update_self _ _ _)
      obtain ⟨h', hh'⟩ : ∃ h', { h with
        lastFreed := h.total
        spares := update h.spares h.ovflPoint (h.total + 1) } = h' := ⟨_, rfl⟩
      change Same h { h with
        lastFreed := h.total
        spares := update h.spares h.ovflPoint (h.total + 1) } at hs
      rw [hh'] at hs hl' hfree ⊢
      have hpoint' : h'.ovflPoint = h.ovflPoint := by rw [← hh']
      have htotal' : h'.total = h.total + 1 := by
        rw [← hh']
        exact update_self _ _ _
      have hbase : h'.base h'.ovflPoint = h.base h.ovflPoint := by
        rw [hpoint']
        exact hs.base (Nat.le_refl _)
      have hle : h.base h.ovflPoint ≤ h.total := by
        unfold base
        split_ifs
        · exact hl.mono _ _ (Nat.sub_le _ _) (Nat.le_refl _)
        · exact Nat.zero_le _
      have hpb' : h'.pageBits = h.pageBits := by rw [← hh']; rfl
      have hsome' : h'.mapp freePage = some freep := by rw [← hh', ← hsome]
      have hnew := takeNew_spec (o := h.total + 1 - h.base h.ovflPoint) hl' hfree memory
        (by omega) (by omega) (by omega) hsome' (show freeBit < h'.pageBits by omega) (by rw [htotal', hpb', htotal]) (by
          rintro ⟨hlast, hnext, hmem, hsplit, hpoint⟩
          have hfull : h.total = (freePage + 1) * h.pageBits := by
            rw [Nat.succ_mul]
            omega
          refine hgood ⟨hexhausted, Or.inr ⟨?_, ?_, hmem, hsplit, by omega⟩⟩
          · rw [hfull]
            exact Nat.mul_mod_left _ _
          · rw [hfull, Nat.mul_div_cancel _ (by omega)]
            exact hnext)
      rw [hpoint'] at hnew
      exact ⟨_, rfl, hnew.after hs (by rw [← hh']) (by rw [← hh']; exact fun a ha => ha)⟩

end overflow

section others

variable {h : Htab} {used : Finset ℕ}

theorem freeOvflpage_spec (hl : Layout h used) {a : ℕ} (ha : a ∈ used) :
    ∃ h', freeOvflpage h a = some h' ∧ Same h h' ∧ h'.maxBucket = h.maxBucket ∧
      Layout h' (used.erase a) ∧
        ∀ n, h'.allocated n = (h.allocated n && !decide (n = h.bitAddress a)) := by
  obtain ⟨n, hn⟩ : ∃ n, h.bitAddress a = n := ⟨_, rfl⟩
  have hpb := h.le_pageBits
  have hmapped := hl.mapped a (Or.inl ha)
  have htotal := hl.bitAddress_lt_total (hl.placed a (Or.inl ha))
  rw [hn] at hmapped htotal ⊢
  have hpage : n / h.pageBits < h.nmaps := (Nat.div_lt_iff_lt_mul (by omega)).mpr hmapped
  have hcached := hl.nmaps
  cases hsome : h.mapp (n / h.pageBits) with
  | none => exact absurd hsome ((hl.maps _).mpr hpage)
  | some freep =>
    obtain ⟨lastFreed, hlf⟩ : ∃ l, (if n < h.lastFreed then n else h.lastFreed) = l := ⟨_, rfl⟩
    obtain ⟨h', hh'⟩ : ∃ h', { h with
      mapp := update h.mapp (n / h.pageBits) (some (clrbit freep (n % h.pageBits)))
      lastFreed := lastFreed } = h' := ⟨_, rfl⟩
    have hs : Same h h' := by
      rw [← hh']
      exact Same.mark h _ _
    have halloc := allocated_clrbit h' hsome hs.bshift (by rw [← hh'])
      (Nat.mod_lt n (show 0 < h.pageBits by omega))
    rw [Nat.div_add_mod'] at halloc
    refine ⟨h', ?_, hs, by rw [← hh'], ?_, halloc⟩
    · have hif : (if n < h.lastFreed then { h with lastFreed := n } else h) =
          { h with lastFreed := lastFreed } := by
        rw [← hlf]
        split_ifs
        · rfl
        · rfl
      unfold freeOvflpage
      dsimp only
      have hbits : ({ h with lastFreed := lastFreed } : Htab).pageBits = h.pageBits := rfl
      rw [hn, hif]
      dsimp only
      rw [h.shiftRight_eq, hbits, h.and_eq_mod, if_neg (by omega), hsome, ← hh']
    · have hmaps : ∀ i, update h.mapp (n / h.pageBits)
          (some (clrbit freep (n % h.pageBits))) i ≠ none ↔ h.mapp i ≠ none := by
        intro i
        rw [update_apply]
        split_ifs with heq
        · rw [heq, hsome]
          exact ⟨fun _ => some_ne_none _, fun _ => some_ne_none _⟩
        · exact Iff.rfl
      have hfreed : lastFreed / h.pageBits ≤ (h.total - 1) / h.pageBits := by
        rw [← hlf]
        split_ifs
        · exact Nat.div_le_div_right (by omega)
        · exact hl.freed
      rw [← hh']
      refine hl.clear ha _ _ hmaps (fun m => ?_) hfreed
      rw [hh', halloc, hn]

theorem newSegment_pages (h : Htab) (seg : ℕ) (m : Memory) : ∃ dsize dirents nsegs exsegs,
    (newSegment h seg m).1 =
      { h with dsize := dsize, dirents := dirents, nsegs := nsegs, exsegs := exsegs } := by
  unfold newSegment growDir
  split_ifs
  · exact ⟨_, _, _, _, rfl⟩
  · exact ⟨_, _, _, _, rfl⟩
  · exact ⟨_, _, _, _, rfl⟩
  · exact ⟨_, _, _, _, rfl⟩
  · exact ⟨_, _, _, _, rfl⟩
  · exact ⟨_, _, _, _, rfl⟩
  · exact ⟨_, _, _, _, rfl⟩

theorem newMasks_pages (h : Htab) : ∃ highMask lowMask,
    newMasks h = { h with highMask := highMask, lowMask := lowMask } := by
  unfold newMasks
  split_ifs
  · exact ⟨_, _, rfl⟩
  · exact ⟨_, _, rfl⟩

theorem Layout.others (hl : Layout h used) (dsize dirents nsegs exsegs highMask lowMask : ℕ) :
    Layout { h with
      dsize := dsize, dirents := dirents, nsegs := nsegs, exsegs := exsegs
      highMask := highMask, lowMask := lowMask } used :=
  ⟨hl.point, hl.last, hl.mono, hl.zero, hl.pos, hl.maps, hl.nmaps, hl.room, hl.need, hl.tail, hl.freed,
    hl.placed, hl.mapped, hl.bits, hl.bitmaps, hl.apart⟩

theorem expandTable_spec (hl : Layout h used) {m : Memory}
    (hok : (newSegment h.next ((h.maxBucket + 1) >>> sshift) m).2 = true ∨
      log2 (h.maxBucket + 2) ≤ h.ovflPoint) :
    Same h (expandTable h m) ∧ (expandTable h m).maxBucket = h.maxBucket + 1 ∧
      Layout (expandTable h m) used := by
  obtain ⟨h', ok, hseg, hmax, -, -, heq⟩ := expandTable_eq h m
  obtain ⟨dsize, dirents, nsegs, exsegs, hpages⟩ :=
    newSegment_pages h.next ((h.maxBucket + 1) >>> sshift) m
  rw [hseg] at hpages hok
  change h' = _ at hpages
  have hlast := hl.last
  by_cases hsplit : h.ovflPoint < log2 (h.maxBucket + 2)
  · -- the first bucket of a doubling
    have htrue : ok = true := hok.resolve_right (Nat.not_le.mpr hsplit)
    have hpoint : log2 (h.maxBucket + 2) = h.ovflPoint + 1 := by
      refine Nat.le_antisymm ((log2_le_iff _).mpr ?_) hsplit
      rw [Nat.pow_succ]
      omega
    have hpow : h.maxBucket + 2 ≤ 2 ^ (h.ovflPoint + 1) := (log2_le_iff _).mp (Nat.le_of_eq hpoint)
    have hnext : nextSplit h' = { h' with
        spares := update h.spares (h.ovflPoint + 1) h.total, ovflPoint := h.ovflPoint + 1 } := by
      rw [hpages]
      change (if h.ovflPoint < log2 (h.maxBucket + 2) then _ else _) = _
      rw [if_pos hsplit]
      change { h.next with
        dsize := dsize, dirents := dirents, nsegs := nsegs, exsegs := exsegs
        spares := update h.spares (log2 (h.maxBucket + 2)) h.total
        ovflPoint := log2 (h.maxBucket + 2) } = _
      rw [hpoint]
    obtain ⟨highMask, lowMask, hmasks⟩ := newMasks_pages (nextSplit h')
    have hroom := hl.room
    obtain ⟨hs, hl', -⟩ := hl.extend (h.ovflPoint + 1) (h.maxBucket + 1) h.lastFreed
      (update h.spares (h.ovflPoint + 1) h.total) (Nat.le_succ _)
      (fun i hi => update_of_ne (by omega) _ _)
      (fun i hge hi => by
        rw [show i = h.ovflPoint by omega, update_of_ne (Nat.ne_of_lt (Nat.lt_succ_self _))]
        rfl)
      (by rw [update_self]) (by rw [update_self]; exact hroom) hpow
      (by rw [update_self]; exact hl.freed) rfl
    rw [heq, if_pos htrue, hmasks, hnext, hpages]
    exact ⟨hs.others _ _ _ _ _ _, rfl, hl'.others _ _ _ _ _ _⟩
  · obtain ⟨hs, hl', -⟩ := hl.extend h.ovflPoint (h.maxBucket + 1) h.lastFreed h.spares (Nat.le_refl _)
      (fun _ _ => rfl) (fun i hge hi => absurd hge (Nat.not_le.mpr hi)) (Nat.le_refl _) hl.room
      ((log2_le_iff _).mp (Nat.le_of_not_lt hsplit)) hl.freed rfl
    have hnext : nextSplit h' = h' := by
      rw [hpages]
      exact if_neg hsplit
    obtain ⟨highMask, lowMask, hmasks⟩ := newMasks_pages (nextSplit h')
    cases ok with
    | true =>
      rw [heq, if_pos rfl, hmasks, hnext, hpages]
      exact ⟨hs.others _ _ _ _ _ _, rfl, hl'.others _ _ _ _ _ _⟩
    | false =>
      rw [heq, if_neg (by decide), hpages]
      exact ⟨hs.others _ _ _ _ _ _, rfl, hl'.others _ _ _ _ _ _⟩

end others

end Bsd386.Db.Hash
