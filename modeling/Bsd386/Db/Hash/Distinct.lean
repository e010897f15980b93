import Bsd386.Db.Hash.Steps

/-!
# File pages never collide

`State` is a table with the overflow addresses given out, `step` a call of `overflow_page`,
`__free_ovflpage` or `__expand_table`. `Sound` says that the pages of buckets, of overflow addresses and of
bitmaps are distinct, and `StepSound` what a call does to them. Both hold in every run whose calls meet
`Meets` (`distinct_of_reach`).

A call of `overflow_page` that takes the last page of a split point for a new bitmap returns an address with
page number 0 at the next split point (`not_distinct_full`).
-/

namespace Bsd386.Db.Hash

open Function Lib
open Lib.Transition

/-! ## States and calls -/

/-- A table, and the addresses that `overflow_page` has given out and that have not been freed. -/
structure State where
  h : Htab
  used : Finset ℕ

/-- The calls. -/
inductive Op where
  | overflow (memory : Bool)
  | free (addr : ℕ)
  | expand (m : Memory)

/-- A call; `none` when its behaviour is not defined. The result 0 of `overflow_page` is no page. -/
def step (s : State) : Op → Option State
  | .overflow memory => (overflowPage s.h memory).map fun r =>
    ⟨r.2, if r.1 = 0 then s.used else insert r.1 s.used⟩
  | .free addr => (freeOvflpage s.h addr).map fun h => ⟨h, s.used.erase addr⟩
  | .expand m => some ⟨expandTable s.h m, s.used⟩

/-- A page is freed by its owner, and the number of buckets is an `int`.
Source: __expand_table -/
def Enabled (s : State) : Op → Prop
  | .overflow _ => True
  | .free addr => addr ∈ s.used
  | .expand _ => s.h.maxBucket + 2 < 2 ^ 31

/-- **The condition on a call.** `overflow_page` does not take the last page of a split point for a bitmap
and does not run out of bitmaps; `__expand_table` has memory for the first bucket of a doubling. -/
def Meets (s : State) : Op → Prop
  | .overflow memory => ¬Overruns s.h memory
  | .free _ => True
  | .expand m => (newSegment s.h.next ((s.h.maxBucket + 1) >>> sshift) m).2 = true ∨
      log2 (s.h.maxBucket + 2) ≤ s.h.ovflPoint

/-- A new table; the expected number of elements is an `int`.
Source: init_htab -/
def Start (s : State) : Prop := ∃ p : Info, p.nelem < 2 ^ 31 ∧ s = ⟨initHtab p, ∅⟩

/-! ## What has to hold -/

/-- What a page belongs to. -/
inductive Owner where
  | bucket (b : ℕ)
  | overflow (addr : ℕ)
  | bitmap (i : ℕ)

/-- Source: hash.h -/
def Live (s : State) : Owner → Prop
  | .bucket b => b ≤ s.h.maxBucket
  | .overflow addr => addr ∈ s.used
  | .bitmap i => i < s.h.nmaps

def pageOf (s : State) : Owner → ℕ
  | .bucket b => s.h.bucketToPage b
  | .overflow addr => s.h.oaddrToPage addr
  | .bitmap i => s.h.oaddrToPage (s.h.bitmaps i)

/-- **No two pages collide.** -/
structure Sound (s : State) : Prop where
  distinct : ∀ o o', Live s o → Live s o' → pageOf s o = pageOf s o' → o = o'
  beyond : ∀ o, Live s o → s.h.hdrpages ≤ pageOf s o

/-- **What a call does**: no page moves, a new overflow page has a number at its split point and was not in
use, and a freed page has its bit cleared, which is that of no other page, and no other bit. -/
structure StepSound (s : State) (op : Op) (t : State) : Prop where
  stay : ∀ o, Live s o → pageOf t o = pageOf s o
  fresh : ∀ memory r, op = .overflow memory → overflowPage s.h memory = some r → r.1 ≠ 0 →
    opagenum r.1 ≠ 0 ∧ ¬s.h.InUse s.used r.1
  freed : ∀ addr, op = .free addr →
    s.h.allocated (s.h.bitAddress addr) = true ∧ t.h.allocated (s.h.bitAddress addr) = false ∧
      (∀ n, n ≠ s.h.bitAddress addr → t.h.allocated n = s.h.allocated n) ∧
        ∀ a, s.h.InUse s.used a → a ≠ addr → s.h.bitAddress a ≠ s.h.bitAddress addr

/-! ## The proof -/

theorem l2_bounds {p : Info} (hp : p.nelem < 2 ^ 31) : 1 ≤ p.l2 ∧ p.l2 ≤ 31 := by
  have hle := (log2_le_iff (max ((p.nelem - 1) / p.ffactor + 1) 2)).mp (Nat.le_refl _)
  have hdiv : (p.nelem - 1) / p.ffactor ≤ p.nelem - 1 := Nat.div_le_self _ _
  constructor
  · by_contra h0
    have hzero : p.l2 = 0 := by omega
    unfold Info.l2 at hzero
    rw [hzero] at hle
    omega
  · exact (log2_le_iff _).mpr (by omega)

theorem layout_init {p : Info} (hp : p.nelem < 2 ^ 31) : Layout (initHtab p) ∅ := by
  obtain ⟨hlo, hhi⟩ := l2_bounds hp
  obtain ⟨h, hh⟩ : ∃ h, initHtab p = h := ⟨_, rfl⟩
  have hpoint : h.ovflPoint = p.l2 := by rw [← hh]; rfl
  have hmax : h.maxBucket = 1 <<< p.l2 - 1 := by rw [← hh]; rfl
  have hspares : h.spares =
      update (update (fun _ => 0) p.l2 (p.l2 + 1)) (p.l2 + 1) (p.l2 + 1) := by
    rw [← hh]
    rfl
  have hnmaps : h.nmaps = 1 := by rw [← hh]; rfl
  have hmapp : h.mapp = update (fun _ => none) 0 (some (newBitmap (p.l2 + 1))) := by
    rw [← hh]
    rfl
  have hbitmaps : h.bitmaps = update (fun _ => 0) 0 (oaddrOf p.l2 1) := by rw [← hh]; rfl
  have hfreed : h.lastFreed = 2 := by rw [← hh]; rfl
  have hpb := h.le_pageBits
  have hbefore : ∀ i < p.l2, h.spares i = 0 := by
    intro i hi
    rw [hspares, update_of_ne (by omega), update_of_ne (by omega)]
  have hlast : h.spares p.l2 = p.l2 + 1 := by
    rw [hspares, update_of_ne (by omega), update_self]
  have htotal : h.total = p.l2 + 1 := by
    unfold Htab.total
    rw [hpoint, hlast]
  have hpow : 0 < 2 ^ p.l2 := Nat.pow_pos (by decide)
  have hbit : ∀ n, n = 0 ∨ p.l2 + 1 ≤ n → h.allocated n = true := by
    intro n hn
    unfold Htab.allocated
    rw [hmapp, update_apply]
    by_cases h0 : n / h.pageBits = 0
    · have hmod : n % h.pageBits = n :=
        Nat.mod_eq_of_lt ((Nat.div_eq_zero_iff_lt (show 0 < h.pageBits by omega)).mp h0)
      rw [if_pos h0, hmod]
      exact wordBit_newBitmap (by omega) hn
    · rw [if_neg h0]
  -- the bitmap is the only page in use
  have huse : ∀ a, h.InUse ∅ a → a = oaddrOf p.l2 1 := by
    rintro a (ha | ⟨i, hi, rfl⟩)
    · exact absurd ha (Finset.notMem_empty a)
    · rw [hbitmaps, show i = 0 by omega]
      exact update_self _ _ _
  have hbase : h.base p.l2 = 0 := by
    unfold Htab.base
    rw [if_pos (by omega)]
    exact hbefore _ (by omega)
  obtain ⟨hplaced, hbitAddress⟩ := Layout.placed_oaddrOf (h := h) (Nat.le_of_eq hpoint.symm)
    (Nat.le_refl 1) (show 1 ≤ splitmask by decide) (by omega)
  rw [hbase] at hbitAddress
  rw [hh]
  exact {
    point := by omega
    last := by
      rw [hmax, hpoint, Nat.one_shiftLeft]
      omega
    mono := by
      intro i j hij hj
      rw [hpoint] at hj
      rcases Nat.eq_or_lt_of_le (Nat.le_trans hij hj) with hi | hi
      · rw [show i = j by omega]
      · rw [hbefore i hi]
        exact Nat.zero_le _
    zero := hbefore 0 (by omega)
    pos := by omega
    maps := by
      intro i
      rw [hmapp, hnmaps, update_apply]
      split_ifs with h0
      · exact ⟨fun _ => by omega, fun _ => Option.some_ne_none _⟩
      · exact ⟨fun hne => absurd rfl hne, fun hi => by omega⟩
    nmaps := by
      rw [hnmaps]
      decide
    room := by
      rw [hnmaps, htotal]
      omega
    need := by
      rw [hnmaps, htotal]
      omega
    tail := fun n hn => hbit n (Or.inr (by omega))
    freed := by
      rw [hfreed, Nat.div_eq_of_lt (by omega)]
      exact Nat.zero_le _
    placed := by
      intro a ha
      rw [huse a ha]
      exact hplaced
    mapped := by
      intro a ha
      rw [huse a ha, hbitAddress, hnmaps]
      omega
    bits := by
      intro a ha
      rw [huse a ha, hbitAddress]
      exact hbit _ (Or.inl rfl)
    bitmaps := fun i j hi hj _ => by omega
    apart := fun i _ => Finset.notMem_empty _ }

theorem Layout.sound {s : State} (hl : Layout s.h s.used) : Sound s where
  distinct := by
    have hover : ∀ addr, addr ∈ s.used → s.h.Placed addr := fun addr ha => hl.placed addr (Or.inl ha)
    have hmap : ∀ i, i < s.h.nmaps → s.h.Placed (s.h.bitmaps i) := fun i hi =>
      hl.placed _ (Or.inr ⟨i, hi, rfl⟩)
    have hapart : ∀ addr i, addr ∈ s.used → i < s.h.nmaps →
        s.h.oaddrToPage addr ≠ s.h.oaddrToPage (s.h.bitmaps i) := fun addr i ha hi heq =>
      hl.apart i hi (hl.oaddrToPage_inj (hover addr ha) (hmap i hi) heq ▸ ha)
    intro o o' ho ho' heq
    cases o with
    | bucket b =>
      cases o' with
      | bucket b' => exact congrArg Owner.bucket (hl.bucketToPage_inj ho ho' heq)
      | overflow a' => exact absurd heq (hl.bucketToPage_ne (hover a' ho') ho)
      | bitmap i' => exact absurd heq (hl.bucketToPage_ne (hmap i' ho') ho)
    | overflow a =>
      cases o' with
      | bucket b' => exact absurd heq.symm (hl.bucketToPage_ne (hover a ho) ho')
      | overflow a' => exact congrArg Owner.overflow (hl.oaddrToPage_inj (hover a ho) (hover a' ho') heq)
      | bitmap i' => exact absurd heq (hapart a i' ho ho')
    | bitmap i =>
      cases o' with
      | bucket b' => exact absurd heq.symm (hl.bucketToPage_ne (hmap i ho) ho')
      | overflow a' => exact absurd heq.symm (hapart a' i ho' ho)
      | bitmap i' =>
        exact congrArg Owner.bitmap
          (hl.bitmaps i i' ho ho' (hl.oaddrToPage_inj (hmap i ho) (hmap i' ho') heq))
  beyond := by
    intro o _
    cases o with
    | bucket b =>
      change _ ≤ s.h.bucketToPage b
      rw [Htab.bucketToPage_eq]
      omega
    | overflow a =>
      change _ ≤ s.h.oaddrToPage a
      rw [Htab.oaddrToPage_eq]
      omega
    | bitmap i =>
      change _ ≤ s.h.oaddrToPage (s.h.bitmaps i)
      rw [Htab.oaddrToPage_eq]
      omega

theorem Layout.stay {s t : State} (hl : Layout s.h s.used) (hs : Same s.h t.h) (o : Owner)
    (ho : Live s o) : pageOf t o = pageOf s o := by
  cases o with
  | bucket b =>
    have hlast := hl.last
    have hb : b ≤ s.h.maxBucket := ho
    exact hs.bucketToPage (by omega)
  | overflow a => exact hs.oaddrToPage (hl.placed a (Or.inl ho)).1
  | bitmap i =>
    have hi : i < s.h.nmaps := ho
    change t.h.oaddrToPage (t.h.bitmaps i) = _
    rw [hs.bitmaps i hi]
    exact hs.oaddrToPage (hl.placed _ (Or.inr ⟨i, hi, rfl⟩)).1

theorem Layout.step {s : State} (hl : Layout s.h s.used) {op : Op} (henabled : Enabled s op)
    (hmeets : Meets s op) :
    ∃ t, Hash.step s op = some t ∧ Layout t.h t.used ∧ StepSound s op t := by
  cases op with
  | overflow memory =>
    obtain ⟨r, hr, hs, -, hres⟩ := overflowPage_spec hl hmeets
    refine ⟨_, congrArg (Option.map _) hr, ?_, hl.stay hs, ?_, (fun _ heq => nomatch heq)⟩
    · rcases hres with ⟨h0, hl'⟩ | ⟨hne, -, hl'⟩
      · dsimp only
        rw [if_pos h0]
        exact hl'
      · have h0 : r.1 ≠ 0 := by
          intro h0
          rw [h0] at hne
          exact hne (by decide)
        dsimp only
        rw [if_neg h0]
        exact hl'
    · intro memory' r' hop hr' h0
      cases hop
      rw [hr] at hr'
      cases hr'
      rcases hres with ⟨hzero, -⟩ | ⟨hne, hnot, -⟩
      · exact absurd hzero h0
      · exact ⟨hne, hnot⟩
  | free addr =>
    obtain ⟨h', hfree, hs, -, hl', hbits⟩ := freeOvflpage_spec hl henabled
    refine ⟨_, congrArg (Option.map _) hfree, hl', hl.stay hs, (fun _ _ heq => nomatch heq), ?_⟩
    intro addr' hop
    cases hop
    refine ⟨hl.bits addr (Or.inl henabled), ?_, ?_, ?_⟩
    · dsimp only
      rw [hbits, decide_eq_true rfl, Bool.not_true, Bool.and_false]
    · intro n hn
      rw [hbits, decide_eq_false hn, Bool.not_false, Bool.and_true]
    · exact fun a ha hne heq =>
        hne (hl.bitAddress_inj (hl.placed a ha) (hl.placed addr (Or.inl henabled)) heq)
  | expand m =>
    obtain ⟨hs, -, hl'⟩ := expandTable_spec hl hmeets
    exact ⟨_, rfl, hl', hl.stay hs, (fun _ _ heq => nomatch heq), (fun _ heq => nomatch heq)⟩

def Calls (s t : State) : Prop := ∃ op, Enabled s op ∧ Meets s op ∧ step s op = some t

/-- **File pages never collide** in a run whose calls all meet the condition, and every call there is
defined and sound. Kind: C -/
theorem distinct_of_reach {s : State} (h : Reach Start Calls s) :
    Sound s ∧ ∀ op, Enabled s op → Meets s op → ∃ t, step s op = some t ∧ StepSound s op t := by
  have hl : Layout s.h s.used := by
    refine h.invariant (I := fun s => Layout s.h s.used) ?_ ?_
    · rintro s ⟨p, hp, rfl⟩
      exact layout_init hp
    · rintro s t - hl ⟨op, henabled, hmeets, hstep⟩
      obtain ⟨t', hstep', hl', -⟩ := hl.step henabled hmeets
      rw [hstep] at hstep'
      cases hstep'
      exact hl'
  refine ⟨hl.sound, fun op henabled hmeets => ?_⟩
  obtain ⟨t, hstep, -, hsound⟩ := hl.step henabled hmeets
  exact ⟨t, hstep, hsound⟩

/-! ## The last page of a split point -/

/-- A table with buckets of 16 bytes. Source: init_hash -/
def smallInfo : Info where
  bshift := 4
  nelem := 1
  ffactor := 65536
  bshift_ge := by decide

theorem smallInfo_l2 : smallInfo.l2 = 1 := by
  unfold Info.l2
  rw [log2_eq]
  decide

theorem smallInfo_nsegs : smallInfo.nsegs = 1 := by
  unfold Info.nsegs
  rw [smallInfo_l2, log2_eq]
  decide

/-- The new header. Source: init_htab -/
def smallHeader : Htab where
  bshift := 4
  hdrpages := 32
  dsize := 256
  dirents := 256
  nsegs := 1
  exsegs := 0
  ovflPoint := 1
  lastFreed := 2
  maxBucket := 1
  highMask := 3
  lowMask := 1
  nmaps := 1
  spares := update (update (fun _ => 0) 1 2) 2 2
  bitmaps := update (fun _ => 0) 0 (oaddrOf 1 1)
  mapp := update (fun _ => none) 0 (some (newBitmap 2))
  bshift_ge := by decide

theorem initHtab_small : initHtab smallInfo = smallHeader := by
  unfold initHtab Info.dirsize
  rw [smallInfo_l2, smallInfo_nsegs]
  rfl

theorem start_small : Start ⟨smallHeader, ∅⟩ := by
  rw [← initHtab_small]
  exact ⟨smallInfo, by decide, rfl⟩

/-- The small table with its first overflow page, which `init_htab` has left free.
Source: overflow_page -/
def smallFirst : State where
  h := { smallHeader with
    lastFreed := 1
    mapp := update smallHeader.mapp 0 (some (setbit (newBitmap 2) 1)) }
  used := {oaddrOf 1 2}

theorem step_small : step ⟨smallHeader, ∅⟩ (.overflow true) = some smallFirst := rfl

theorem meets_small : Meets ⟨smallHeader, ∅⟩ (.overflow true) := by
  rintro ⟨-, hmany | ⟨hmod, -⟩⟩
  · exact absurd hmany (by decide)
  · exact absurd hmod (by decide)

/-- The first page of the small table. Kind: C -/
theorem distinct_small : Sound smallFirst :=
  (distinct_of_reach (.step (.start start_small) ⟨.overflow true, trivial, meets_small, step_small⟩)).1

/-- A table with four buckets of which all `N` overflow pages are allocated.
Source: overflow_page -/
structure Filled (N : ℕ) (s : State) : Prop where
  layout : Layout s.h s.used
  point : s.h.ovflPoint = 2
  before : s.h.spares 1 = 2
  total : s.h.total = N
  pageBits : s.h.pageBits = 128
  room : N ≤ s.h.nmaps * 128
  full : ∀ n, s.h.allocated n = true

theorem Filled.overflowPage_eq {N : ℕ} {s : State} (hf : Filled N s) (hN : N ≤ 2048) :
    ∃ freep, s.h.mapp ((N - 1) / 128) = some freep ∧ Hash.overflowPage s.h true =
      some (Htab.takeNew { s.h with
        ovflPoint := 2
        lastFreed := N
        spares := update s.h.spares 2 (N + 1) } 2 (N - 1) ((N - 1) / 128) ((N - 1) % 128)
          freep true) := by
  have hl := hf.layout
  have hpos := hl.pos
  have hfreed := hl.freed
  have hroom := hf.room
  have hsearch := Htab.searchMaps_spec (h := s.h) (Nat.mod_lt (N - 1) (show 0 < s.h.pageBits by
      rw [hf.pageBits]
      decide))
    (show s.h.lastFreed / s.h.pageBits +
      ((N - 1) / s.h.pageBits + 1 - s.h.lastFreed / s.h.pageBits) = (N - 1) / s.h.pageBits + 1 by
      rw [hf.total] at hfreed
      omega)
    (by
      rw [hf.total] at hfreed
      omega) (Nat.le_refl _)
  have hbase : s.h.base 2 = 2 := (s.h.base_succ 1).trans hf.before
  have hrun := Hash.overflowPage_eq hl true (by rw [hf.total]) (by rw [hf.total])
  rw [hrun]
  revert hsearch
  generalize s.h.searchMaps (s.h.lastFreed / s.h.pageBits) ((N - 1) / s.h.pageBits)
    ((N - 1) % s.h.pageBits) ((N - 1) / s.h.pageBits + 1 - s.h.lastFreed / s.h.pageBits)
    (s.h.lastFreed / s.h.pageBits) = r
  rw [hf.total] at hpos
  rw [hf.pageBits, hf.total, hf.point, hbase]
  intro hsearch
  cases r with
  | found i freep bit =>
    obtain ⟨-, hsome, hb, halign, hclear, -⟩ := hsearch
    obtain ⟨-, hfree⟩ := allocated_firstFree hsome hb halign hclear
    rw [hf.full] at hfree
    exact absurd hfree (by decide)
  | null =>
    obtain ⟨i, hi, hnone⟩ := hsearch
    exact absurd hnone ((hl.maps i).mpr (by omega))
  | undefined =>
    obtain ⟨hge, -⟩ := hsearch
    unfold ncached at hge
    omega
  | full freep =>
    obtain ⟨-, hsome, -⟩ := hsearch
    refine ⟨freep, hsome, ?_⟩
    have hoffset : ¬splitmask < N + 1 - 2 := by
      unfold splitmask
      omega
    dsimp only
    rw [if_neg hoffset]
    rfl

theorem Filled.step {N : ℕ} {s : State} (hf : Filled N s) (hN : N < 2048) :
    ∃ t, Hash.step s (.overflow true) = some t ∧ Filled (if N % 128 = 0 then N + 2 else N + 1) t := by
  have hl := hf.layout
  have hpos := hl.pos
  have hneed := hl.need
  rw [hf.total] at hpos
  rw [hf.total, hf.pageBits] at hneed
  have hmeets : ¬Overruns s.h true := by
    rintro ⟨-, hmany | ⟨hmod, -, -, hlast, -⟩⟩
    · rw [hf.total, hf.pageBits] at hmany
      unfold ncached at hmany
      omega
    · rw [hf.total, hf.point, s.h.base_succ 1, hf.before] at hlast
      rw [hf.total, hf.pageBits] at hmod
      unfold splitmask at hlast
      omega
  obtain ⟨t, hstep, hlayout, -⟩ := hl.step (show Enabled s (.overflow true) from trivial) hmeets
  obtain ⟨freep, hsome, hrun⟩ := hf.overflowPage_eq (Nat.le_of_lt hN)
  refine ⟨t, hstep, ?_⟩
  obtain ⟨h0, hh0⟩ : ∃ h0, { s.h with
    ovflPoint := 2, lastFreed := N, spares := update s.h.spares 2 (N + 1) } = h0 := ⟨_, rfl⟩
  rw [hh0] at hrun
  have hth : t.h = (h0.takeNew 2 (N - 1) ((N - 1) / 128) ((N - 1) % 128) freep true).2 := by
    have hstep' : Option.map (fun r : ℕ × Htab =>
        (⟨r.2, if r.1 = 0 then s.used else insert r.1 s.used⟩ : State))
          (Hash.overflowPage s.h true) = some t := hstep
    rw [hrun] at hstep'
    exact congrArg State.h (Option.some.inj hstep').symm
  have hpb0 : h0.pageBits = 128 := by
    rw [← hh0]
    exact hf.pageBits
  have hfull0 : ∀ n, h0.allocated n = true := by
    rw [← hh0]
    exact hf.full
  have hmapp0 : h0.mapp ((N - 1) / 128) = some freep := by
    rw [← hh0]
    exact hsome
  unfold Htab.takeNew at hth
  rw [hpb0] at hth
  by_cases hbit : (N - 1) % 128 = 128 - 1
  · -- a new bitmap
    have hmod : N % 128 = 0 := by omega
    have hcached : ¬ncached ≤ (N - 1) / 128 + 1 := by
      unfold ncached
      omega
    have hsplit : ¬splitmask < N - 1 + 1 := by
      unfold splitmask
      omega
    rw [if_pos hbit] at hth
    rw [if_neg hcached, if_neg (by decide), if_neg hsplit] at hth
    have htotal : t.h.total = N + 2 := by
      rw [hth, ← hh0]
      change update (update s.h.spares 2 (N + 1)) 2
        (update s.h.spares 2 (N + 1) 2 + 1) 2 = N + 2
      rw [update_self, update_self]
    rw [if_pos hmod]
    refine ⟨hlayout, by rw [hth, ← hh0]; rfl, ?_, htotal, by rw [hth]; exact hpb0, ?_, ?_⟩
    · rw [hth, ← hh0]
      exact hf.before
    · have hnmaps : t.h.nmaps = s.h.nmaps + 1 := by
        rw [hth, ← hh0]
        rfl
      have hroom := hf.room
      omega
    · intro n
      have hb : t.h.bshift = h0.bshift := by
        rw [hth]
        rfl
      have hmapp : t.h.mapp = update h0.mapp ((N - 1) / 128 + 1) (some (newBitmap 1)) := by
        rw [hth]
        rfl
      rw [Htab.allocated_update hb hmapp]
      split_ifs
      · exact wordBit_newBitmap_one _
      · exact hfull0 n
  · have hmod : N % 128 ≠ 0 := by omega
    rw [if_neg hbit] at hth
    have htotal : t.h.total = N + 1 := by
      rw [hth, ← hh0]
      change update s.h.spares 2 (N + 1) 2 = N + 1
      exact update_self _ _ _
    rw [if_neg hmod]
    refine ⟨hlayout, by rw [hth, ← hh0], ?_, htotal, by rw [hth]; exact hpb0, ?_, ?_⟩
    · rw [hth, ← hh0]
      exact hf.before
    · have hnmaps : t.h.nmaps = s.h.nmaps := by
        rw [hth, ← hh0]
      have hroom := hf.room
      omega
    · intro n
      have hmapp : t.h.mapp = update h0.mapp ((N - 1) / 128)
          (some (setbit freep ((N - 1) % 128 + 1))) := by
        rw [hth]
      have hb : (N - 1) % 128 + 1 < h0.pageBits := by omega
      rw [Htab.allocated_setbit t.h hmapp0 (by rw [hth]) hmapp hb, hfull0]
      rfl

def AnyCalls (s t : State) : Prop := ∃ op, Enabled s op ∧ step s op = some t

theorem reach_filled {s : State} (hr : Reach Start AnyCalls s) {N d : ℕ} (hf : Filled N s)
    (hd : N + d = 2048) (hmod : N % 128 ≠ 1) : ∃ t, Reach Start AnyCalls t ∧ Filled 2048 t := by
  induction d using Nat.strong_induction_on generalizing s N with
  | _ d ih =>
    by_cases h0 : d = 0
    · have hN : N = 2048 := by omega
      subst hN
      exact ⟨s, hr, hf⟩
    obtain ⟨t, hstep, hf'⟩ := hf.step (by omega)
    have hr' : Reach Start AnyCalls t := hr.step ⟨.overflow true, trivial, hstep⟩
    by_cases hfull : N % 128 = 0
    · rw [if_pos hfull] at hf'
      exact ih (d - 2) (by omega) hr' hf' (by omega) (by omega)
    · rw [if_neg hfull] at hf'
      exact ih (d - 1) (by omega) hr' hf' (by omega) (by omega)

theorem expandTable_small : expandTable smallFirst.h ⟨true, true⟩ = { smallFirst.h with
    maxBucket := 2
    ovflPoint := 2
    spares := update smallFirst.h.spares 2 2 } := by
  have hlog : log2 3 = 2 := by
    rw [log2_eq]
    decide
  change newMasks (if 1 < log2 3 then { smallFirst.h.next with
    spares := update smallFirst.h.spares (log2 3) 2, ovflPoint := log2 3 } else _) = _
  rw [hlog]
  rfl

theorem reach_small : ∃ s, Reach Start AnyCalls s ∧ Filled 2 s := by
  have hl : Layout smallHeader ∅ := by
    rw [← initHtab_small]
    exact layout_init (by decide)
  have hr : Reach Start AnyCalls smallFirst :=
    .step (.start start_small) ⟨.overflow true, trivial, step_small⟩
  have hfull : ∀ n, smallFirst.h.allocated n = true := by
    intro n
    have hset := Htab.allocated_setbit (h := smallHeader) (i := 0) (b := 1) smallFirst.h rfl rfl rfl
      (by decide) n
    rw [hset]
    match n with
    | 0 => rfl
    | 1 => rfl
    | n + 2 =>
      rw [hl.tail (n + 2) (Nat.le_add_left 2 n)]
      rfl
  have hfirst : Enabled ⟨smallHeader, ∅⟩ (.overflow true) := trivial
  obtain ⟨t, hstep, hlt, -⟩ := hl.step hfirst meets_small
  rw [step_small] at hstep
  cases hstep
  have henabled : Enabled smallFirst (.expand ⟨true, true⟩) := show 1 + 2 < 2 ^ 31 by decide
  obtain ⟨t, hstep, hlt', -⟩ := hlt.step henabled (Or.inl rfl)
  have ht : t = ⟨expandTable smallFirst.h ⟨true, true⟩, smallFirst.used⟩ := (Option.some.inj hstep).symm
  refine ⟨t, hr.step ⟨_, henabled, hstep⟩, ?_⟩
  rw [expandTable_small] at ht
  subst ht
  exact ⟨hlt', rfl, rfl, rfl, rfl, by decide, hfull⟩

/-- **The last page of a split point.** With buckets of 16 bytes, `__expand_table` once and `overflow_page`
until the 2046 pages of the second split point are allocated, the next call takes the last page for a bitmap
and returns page number 0 of the third one. Kind: C -/
theorem not_distinct_full : ¬∀ s, Reach Start AnyCalls s →
    Sound s ∧ ∀ op t, Enabled s op → step s op = some t → StepSound s op t := by
  intro hall
  obtain ⟨s0, hr0, hf0⟩ := reach_small
  obtain ⟨s, hr, hf⟩ := reach_filled (d := 2046) hr0 hf0 (by decide) (by decide)
  obtain ⟨freep, -, hrun⟩ := hf.overflowPage_eq (Nat.le_refl _)
  obtain ⟨h0, hh0⟩ : ∃ h0, { s.h with
    ovflPoint := 2, lastFreed := 2048, spares := update s.h.spares 2 (2048 + 1) } = h0 :=
    ⟨_, rfl⟩
  have hpb : h0.pageBits = 128 := by
    rw [← hh0]
    exact hf.pageBits
  rw [hh0] at hrun
  have hnew : (h0.takeNew 2 (2048 - 1) ((2048 - 1) / 128) ((2048 - 1) % 128) freep true).1 =
      oaddrOf 3 0 := by
    unfold Htab.takeNew
    rw [hpb]
    rfl
  have hsound := ((hall s hr).2 (.overflow true) _ trivial (congrArg (Option.map _) hrun)).fresh
    true _ rfl hrun
  rw [hnew] at hsound
  exact (hsound (by decide)).1 (by decide)

end Bsd386.Db.Hash
