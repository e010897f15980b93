import Bsd386.Net.Radix.Insert

/-!
# Radix trees: the netmask tree

Netmasks are kept once each, in a radix tree of their own, and are compared by address. A netmask
is searched for before it is copied, with bytes behind its end that are not part of it. The first
byte is its length, so this makes no difference: `MaskTree.finds` says that the search finds the
copy of a netmask if there is one, and `MaskTree.internMask_spec` that a netmask always gets the
leaf whose key is its copy padded with zeros.
-/

namespace Bsd386.Net.Radix

open Function

open Lib.Bytes (Byte)

/-- The leaf `M` is a netmask: it is in the tree and not that of `rn_ones`. -/
def IsMask (mlive : Set Ptr) (M : ℕ) : Prop := .leaf M ∈ mlive ∧ M ≠ 1

/-- The number `b` is the first zero bit of the mask from byte `off` on; `rn_zeros` has index 0. -/
def IsIndex (off : ℕ) (m : Key) (b : ℤ) : Prop :=
  ∃ c : ℕ, b = c ∧ bitAt m c = false ∧ (∀ d, 8 * off ≤ d → d < c → bitAt m d = true) ∧
    (8 * off ≤ c ∨ m = rnZeros)

/-- The tree of netmasks, for a routing tree that compares keys from byte `off` on.
Source: rn_addmask -/
structure MaskTree (off : ℕ) (masks : Heap) (mlive : Set Ptr) (mpre : ℕ → Key) : Prop where
  shape : Shape 0 maxkeylen masks mlive mpre
  fresh {n : ℕ} : masks.fresh ≤ n → .leaf n ∉ mlive ∧ .node n ∉ mlive
  len_le {M : ℕ} : IsMask mlive M → vlen (masks.leafKey M) ≤ maxkeylen
  padded {M : ℕ} : IsMask mlive M → Radix.padded (masks.leafKey M) = masks.leafKey M
  index {M : ℕ} : IsMask mlive M → IsIndex off (masks.leafKey M) (-1 - masks.leafB M)

variable {off : ℕ} {masks : Heap} {mlive : Set Ptr} {mpre : ℕ → Key} {m k : Key} {M : ℕ}

/-! ## Padded copies -/

theorem padded_zero (m : Key) : padded m 0 = m 0 := by
  unfold padded
  by_cases hm : 0 < vlen m
  · rw [if_pos hm]
  · rw [if_neg hm]
    have h0 : (m 0).toNat = 0 := Nat.eq_zero_of_not_pos hm
    exact (BitVec.eq_of_toNat_eq (by rw [h0]; rfl)).symm

theorem vlen_padded (m : Key) : vlen (padded m) = vlen m := by rw [vlen, padded_zero, vlen]

theorem padded_of_le {i : ℕ} (hi : vlen m ≤ i) : padded m i = 0 := if_neg (Nat.not_lt.mpr hi)

theorem padded_of_lt {i : ℕ} (hi : i < vlen m) : padded m i = m i := if_pos hi

theorem padded_padded (m : Key) : padded (padded m) = padded m := by
  funext i
  by_cases hi : i < vlen m
  · exact padded_of_lt (by rwa [vlen_padded])
  · rw [padded_of_le (m := m) (Nat.not_lt.mp hi)]
    exact padded_of_le (by rw [vlen_padded]; exact Nat.not_lt.mp hi)

theorem eq_padded_of_sameBytes (hk : padded k = k) (hpos : 0 < vlen m)
    (hsame : SameBytes 0 (vlen m) m k) : k = padded m := by
  have hlen : vlen k = vlen m := by rw [vlen, vlen, hsame 0 (Nat.le_refl _) hpos]
  funext i
  by_cases hi : i < vlen m
  · rw [padded_of_lt hi]
    exact (hsame i (Nat.zero_le _) hi).symm
  · rw [← hk, padded_of_le (by omega), padded_of_le (by omega)]

namespace MaskTree

variable (ht : MaskTree off masks mlive mpre)

include ht

/-! ## Searching for a netmask -/

theorem finds (hM : IsMask mlive M) (hkey : masks.leafKey M = Radix.padded m) :
    Finds masks m (.node 0) M := by
  obtain ⟨x, hx⟩ := ht.shape.exists_finds m ht.shape.top_mem
  by_cases hne : M = x
  · exact hne ▸ hx
  obtain ⟨a, -, h1, h2, h3, h4⟩ := ht.shape.branch ht.shape.top_mem hx hM.1
    (ht.shape.under_top _) hne
  obtain ⟨c, hc⟩ : ∃ c, masks.nodeB a = c := ⟨_, rfl⟩
  rw [Under, hc] at h1 h2
  rw [hc] at h3 h4
  rw [hkey] at h4
  -- the paths part behind the netmask, so the length is the same
  have hlen : vlen m ≤ c / 8 := by
    by_contra hlt
    rw [bitAt, padded_of_lt (Nat.not_le.mp hlt)] at h4
    exact h4 rfl
  have hpos : 1 ≤ c / 8 := by
    by_contra hlt
    rw [bitAt, show c / 8 = 0 by omega, padded_zero, bitAt, show c / 8 = 0 by omega] at h4
    exact h4 rfl
  have hbyte : masks.leafKey x 0 = m 0 := by
    have := (h1.symm.trans h2).sameBytes 0 (Nat.le_refl _) hpos
    rw [this, hkey, padded_zero]
  have hx1 : IsMask mlive x := by
    refine ⟨ht.shape.finds_mem ht.shape.top_mem hx, ?_⟩
    rintro rfl
    have hle := ht.len_le hM
    rw [hkey, vlen_padded, vlen, ← hbyte, ht.shape.ones_key] at hle
    exact absurd hle (by decide)
  have hzero : masks.leafKey x (c / 8) = 0 := by
    rw [← ht.padded hx1]
    exact padded_of_le (by rw [vlen, hbyte]; exact hlen)
  rw [bitAt_of_zero hzero] at h3
  rw [← h3] at h4
  exact absurd (bitAt_of_zero (padded_of_le hlen)) h4

theorem found_iff (hm : vlen m ≤ maxkeylen) {x : ℕ} (hx : Finds masks m (.node 0) x) :
    (∀ i, i < vlen m → m i = masks.leafKey x i) ↔
      IsMask mlive x ∧ masks.leafKey x = Radix.padded m := by
  have hmem := ht.shape.finds_mem ht.shape.top_mem hx
  constructor
  · intro hsame
    by_cases hpos : 0 < vlen m
    · have h1 : IsMask mlive x := by
        refine ⟨hmem, ?_⟩
        rintro rfl
        have h0 := hsame 0 hpos
        rw [ht.shape.ones_key] at h0
        rw [vlen, h0] at hm
        exact absurd hm (by decide)
      exact ⟨h1, eq_padded_of_sameBytes (ht.padded h1) hpos fun i _ hi => hsame i hi⟩
    · -- the empty netmask leads to the leaf of `rn_zeros`
      have h0 : IsMask mlive 0 := ⟨ht.shape.zeros_mem, by decide⟩
      have hkey : masks.leafKey 0 = Radix.padded m := by
        rw [ht.shape.zeros_key]
        funext i
        exact (padded_of_le (by omega)).symm
      obtain rfl := (ht.finds h0 hkey).unique hx
      exact ⟨h0, hkey⟩
  · rintro ⟨-, hkey⟩ i hi
    rw [hkey, padded_of_lt hi]

theorem unique {M' : ℕ} (hM : IsMask mlive M) (hM' : IsMask mlive M')
    (hkey : masks.leafKey M = masks.leafKey M') : M = M' := by
  have h' : masks.leafKey M' = Radix.padded (masks.leafKey M) := by rw [ht.padded hM, hkey]
  exact (ht.finds hM (ht.padded hM).symm).unique (ht.finds hM' h')

/-! ## Interning a netmask -/

theorem rnAddmask_spec (hm : vlen m ≤ maxkeylen)
    (hnew : ∀ M, IsMask mlive M → masks.leafKey M ≠ Radix.padded m) :
    ∃ masks' mlive' mpre', rnAddmask masks m off = some (masks', masks.fresh) ∧
      MaskTree off masks' mlive' mpre' ∧ IsMask mlive' masks.fresh ∧
      masks'.leafKey masks.fresh = Radix.padded m ∧ mlive ⊆ mlive' ∧
      ∀ M, .leaf M ∈ mlive → masks'.leafKey M = masks.leafKey M ∧ masks'.leafB M = masks.leafB M := by
  have hlen : vlen (Radix.padded m) ≤ maxkeylen := by rwa [vlen_padded]
  obtain ⟨t, hf, ⟨hsame, -⟩ | ⟨-, b, p, x, hgap, -, -, hins⟩⟩ :=
    ht.shape.rnInsert_spec (Nat.le_refl _) hlen
  · -- the copy would have been found
    rw [vlen_padded] at hsame
    have hfound := (ht.found_iff hlen hf).mp fun i hi =>
      hsame i (Nat.zero_le _) (by rwa [vlen_padded] at hi)
    rw [padded_padded] at hfound
    exact absurd hfound.2 (hnew t hfound.1)
  · obtain ⟨hl, hn⟩ := ht.fresh (Nat.le_refl _)
    have hshape := ht.shape.splice hl hn hgap
    have hdata := data_spliced masks (Radix.padded m) b p x
    have hB : (spliced masks (Radix.padded m) b p x).leafB =
        update masks.leafB masks.fresh (-1) := congrArg Data.leafB hdata
    have hfresh : (spliced masks (Radix.padded m) b p x).fresh = masks.fresh + 1 :=
      congrArg Data.fresh hdata
    have hK := leafKey_spliced masks (Radix.padded m) b p x
    refine ⟨{ spliced masks (Radix.padded m) b p x with
        leafB := update (spliced masks (Radix.padded m) b p x).leafB masks.fresh
          (-1 - maskIndex (Radix.padded m) (vlen m) off) },
      addPair mlive masks.fresh, update mpre masks.fresh (Radix.padded m), ?_, ?_, ?_, ?_,
      ?_, ?_⟩
    · rw [rnAddmask, hins]
      rfl
    · -- a leaf of the new tree is the new one or an old one
      have hcases : ∀ {M}, IsMask (addPair mlive masks.fresh) M →
          M = masks.fresh ∨ IsMask mlive M ∧ M ≠ masks.fresh := by
        rintro M ⟨hM | hM | hM, h1⟩
        · exact .inl (Ptr.leaf.inj hM)
        · exact absurd hM nofun
        · refine .inr ⟨⟨hM, h1⟩, ?_⟩
          rintro rfl
          exact hl hM
      have hnewkey : update masks.leafKey masks.fresh (Radix.padded m) masks.fresh =
          Radix.padded m := update_self _ _ _
      constructor
      · exact hshape.frame rfl rfl rfl rfl rfl rfl
      · intro n hn
        have hn' : masks.fresh + 1 ≤ n := hfresh ▸ hn
        have hold := ht.fresh (n := n) (by omega)
        constructor
        · rintro (h | h | h)
          · exact absurd (Ptr.leaf.inj h) (by omega)
          · exact absurd h nofun
          · exact hold.1 h
        · rintro (h | h | h)
          · exact absurd h nofun
          · exact absurd (Ptr.node.inj h) (by omega)
          · exact hold.2 h
      · intro M hM
        simp only [hK]
        rcases hcases hM with rfl | ⟨hM, hne⟩
        · rw [hnewkey]
          exact hlen
        · rw [update_of_ne hne]
          exact ht.len_le hM
      · intro M hM
        simp only [hK]
        rcases hcases hM with rfl | ⟨hM, hne⟩
        · rw [hnewkey]
          exact padded_padded m
        · rw [update_of_ne hne]
          exact ht.padded hM
      · intro M hM
        simp only [hK, hB]
        rcases hcases hM with rfl | ⟨hM, hne⟩
        · rw [hnewkey, update_self]
          obtain ⟨h₁, h2, h3⟩ := maskIndex_spec (fun i => padded_of_le (m := m)) off
          exact ⟨_, by omega, h2, h3, .inl h₁⟩
        · rw [update_of_ne hne, update_of_ne hne, update_of_ne hne]
          exact ht.index hM
    · refine ⟨.inl rfl, ?_⟩
      intro h1
      exact hl (h1 ▸ ht.shape.ones_mem)
    · simp only [hK]
      exact update_self _ _ _
    · exact fun y hy => .inr (.inr hy)
    · intro M hM
      have hne : M ≠ masks.fresh := by
        rintro rfl
        exact hl hM
      simp only [hK, hB]
      rw [update_of_ne hne, update_of_ne hne, update_of_ne hne]
      exact ⟨rfl, rfl⟩

/-- **Interning.** A netmask gets the leaf with its padded copy; the others stay as they are. -/
theorem internMask_spec (hm : vlen m ≤ maxkeylen) :
    ∃ masks' mlive' mpre' M, internMask masks m off = some (masks', M) ∧
      MaskTree off masks' mlive' mpre' ∧ IsMask mlive' M ∧ masks'.leafKey M = Radix.padded m ∧
      mlive ⊆ mlive' ∧
      ∀ M, .leaf M ∈ mlive → masks'.leafKey M = masks.leafKey M ∧ masks'.leafB M = masks.leafB M := by
  obtain ⟨x, hx⟩ := ht.shape.exists_finds m ht.shape.top_mem
  have hsearch := (ht.shape.rnSearch_iff (Nat.le_refl _) ht.shape.top_mem).mpr hx
  have hiff := ht.found_iff hm hx
  by_cases hfound : ∀ i, i < vlen m → m i = masks.leafKey x i
  · refine ⟨masks, mlive, mpre, x, ?_, ht, (hiff.mp hfound).1, (hiff.mp hfound).2, subset_rfl,
      fun _ _ => ⟨rfl, rfl⟩⟩
    simp only [internMask, hsearch, Option.bind_eq_bind, Option.bind_some, if_pos hfound]
  have hnew : ∀ M, IsMask mlive M → masks.leafKey M ≠ Radix.padded m := by
    intro M hM hkey
    obtain rfl := (ht.finds hM hkey).unique hx
    exact hfound (hiff.mpr ⟨hM, hkey⟩)
  obtain ⟨masks', mlive', mpre', h1, h2, h3, h4, h5, h6⟩ := ht.rnAddmask_spec hm hnew
  refine ⟨masks', mlive', mpre', masks.fresh, ?_, h2, h3, h4, h5, h6⟩
  simp only [internMask, hsearch, Option.bind_eq_bind, Option.bind_some, if_neg hfound]
  exact h1

end MaskTree

theorem maskTree_rnInithead (off : ℕ) :
    MaskTree off (rnInithead 0) firstLive (fun _ => rnZeros) := by
  have hzero : ∀ {M}, IsMask firstLive M → M = 0 := by
    rintro M ⟨h | h | h, h1⟩
    · exact absurd h nofun
    · exact Ptr.leaf.inj h
    · exact absurd (Ptr.leaf.inj h) h1
  constructor
  · show Shape 0 maxkeylen (rnInithead (8 * 0)) firstLive fun _ => rnZeros
    exact shape_rnInithead (by decide)
  · intro n hn
    have hn' : 2 ≤ n := hn
    constructor
    · rintro (h | h | h)
      · exact absurd h nofun
      · exact absurd (Ptr.leaf.inj h) (by omega)
      · exact absurd (Ptr.leaf.inj h) (by omega)
    · rintro (h | h | h)
      · exact absurd (Ptr.node.inj h) (by omega)
      · exact absurd h nofun
      · exact absurd h nofun
  · intro M hM
    rw [hzero hM]
    exact Nat.zero_le _
  · intro M hM
    rw [hzero hM]
    funext i
    exact padded_of_le (Nat.zero_le _)
  · intro M hM
    rw [hzero hM]
    exact ⟨0, rfl, bitAt_of_zero rfl, fun d _ hd => absurd hd (Nat.not_lt_zero _), .inr rfl⟩

end Bsd386.Net.Radix
