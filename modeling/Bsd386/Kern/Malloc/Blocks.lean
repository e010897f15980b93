import Bsd386.Kern.Malloc.Layout

/-!
# The blocks of the kernel allocator

`Inv`: each free list holds the chunks of its bucket that are not live, and the counters count. It is kept by

* `Inv.take`: taking a chunk from a list (`malloc`),
* `Inv.push`: putting one on its list (`free`),
* `Inv.release`: giving an area back (`free`),
* `Inv.grow_small`, `Inv.grow_large`: a new area behind `kmem_malloc`.
-/

namespace Bsd386.Kern.Malloc

open Function Lib.Linked List Kern

variable {k k' : Kern} {p q i j n a b : ℕ} {live : Finset ℕ}

/-! ## Counting what is not live -/

theorem card_sdiff_insert {s : Finset ℕ} (hs : a ∈ s) (ha : a ∉ live) :
    (s \ insert a live).card + 1 = (s \ live).card := by
  rw [Finset.sdiff_insert, Finset.card_erase_add_one]
  exact Finset.mem_sdiff.mpr ⟨hs, ha⟩

theorem card_sdiff_erase {s : Finset ℕ} (hs : a ∈ s) (ha : a ∈ live) :
    (s \ live.erase a).card = (s \ live).card + 1 := by
  rw [Finset.sdiff_erase hs, Finset.card_insert_of_notMem]
  exact fun h => (Finset.mem_sdiff.mp h).2 ha

theorem sdiff_erase_of_notMem {s : Finset ℕ} (hs : a ∉ s) : s \ live.erase a = s \ live := by
  ext x
  rw [Finset.mem_sdiff, Finset.mem_sdiff, Finset.mem_erase]
  refine and_congr_right fun hx => not_congr ?_
  exact ⟨fun h => h.2, fun h => ⟨ne_of_mem_of_not_mem hx hs, h⟩⟩

/-! ## Types -/

/-- What was asked for. Source: malloc -/
structure Block where
  size : ℕ
  type : ℕ
deriving DecidableEq

variable {req : ℕ → Block} {t : ℕ} {r : Block}

def ofType (live : Finset ℕ) (req : ℕ → Block) (t : ℕ) : Finset ℕ := live.filter fun a => (req a).type = t

theorem ofType_insert (ha : a ∉ live) : ofType (insert a live) (update req a r) t =
    if r.type = t then insert a (ofType live req t) else ofType live req t := by
  have hrest : live.filter (fun b => (update req a r b).type = t) = ofType live req t := by
    refine Finset.filter_congr fun b hb => ?_
    rw [update_of_ne (ne_of_mem_of_not_mem hb ha)]
  rw [ofType, Finset.filter_insert, hrest, update_self]

theorem ofType_erase : ofType (live.erase a) req t = (ofType live req t).erase a :=
  Finset.filter_erase ..

/-- `ks_memuse` and `ks_inuse` of each type are the bytes and the blocks charged to its live blocks. -/
def Charged (stats : ℕ → Kmemstats) (extent : ℕ → ℕ) (live : Finset ℕ) (req : ℕ → Block) : Prop :=
  ∀ t, (stats t).ksMemuse = (∑ a ∈ ofType live req t, extent a : ℕ) ∧
    (stats t).ksInuse = (ofType live req t).card

variable {stats stats' : ℕ → Kmemstats} {extent extent' : ℕ → ℕ}

theorem Charged.insert (h : Charged stats extent live req) (ha : a ∉ live)
    (hext : ∀ b ∈ live, extent' b = extent b)
    (hstats : stats' = update stats r.type { stats r.type with
      ksMemuse := (stats r.type).ksMemuse + extent' a
      ksInuse := (stats r.type).ksInuse + 1 }) :
    Charged stats' extent' (insert a live) (update req a r) := by
  intro t
  obtain ⟨hmem, huse⟩ := h t
  have hout : a ∉ ofType live req t := fun h => ha (Finset.mem_filter.mp h).1
  have hsum : ∑ b ∈ ofType live req t, extent' b = ∑ b ∈ ofType live req t, extent b :=
    Finset.sum_congr rfl fun b hb => hext b (Finset.mem_filter.mp hb).1
  rw [ofType_insert ha, hstats]
  by_cases ht : r.type = t
  · subst ht
    rw [if_pos rfl, update_self, Finset.sum_insert hout, Finset.card_insert_of_notMem hout, hsum]
    refine ⟨?_, ?_⟩
    · change (stats r.type).ksMemuse + _ = _
      rw [hmem]
      omega
    · change (stats r.type).ksInuse + _ = _
      rw [huse]
      omega
  · rw [if_neg ht, update_of_ne fun heq => ht heq.symm, hsum]
    exact ⟨hmem, huse⟩

theorem Charged.erase (h : Charged stats extent live req) (ha : a ∈ live)
    (hext : ∀ b ∈ live.erase a, extent' b = extent b)
    (hstats : stats' = update stats (req a).type { stats (req a).type with
      ksMemuse := (stats (req a).type).ksMemuse - extent a
      ksInuse := (stats (req a).type).ksInuse - 1 }) :
    Charged stats' extent' (live.erase a) req := by
  intro t
  obtain ⟨hmem, huse⟩ := h t
  have hsum : ∑ b ∈ ofType (live.erase a) req t, extent' b = ∑ b ∈ ofType (live.erase a) req t, extent b :=
    Finset.sum_congr rfl fun b hb => hext b (Finset.mem_filter.mp hb).1
  rw [hsum, ofType_erase, hstats]
  by_cases ht : (req a).type = t
  · have hin : a ∈ ofType live req t := Finset.mem_filter.mpr ⟨ha, ht⟩
    subst ht
    have hadd := Finset.add_sum_erase _ extent hin
    have hcard := Finset.card_erase_add_one hin
    rw [update_self]
    refine ⟨?_, ?_⟩
    · change (stats (req a).type).ksMemuse - _ = _
      rw [hmem]
      omega
    · change (stats (req a).type).ksInuse - _ = _
      rw [huse]
      omega
  · have hout : a ∉ ofType live req t := fun h => ht (Finset.mem_filter.mp h).2
    rw [update_of_ne fun heq => ht heq.symm, Finset.erase_eq_of_notMem hout]
    exact ⟨hmem, huse⟩

theorem Charged.congr (h : Charged stats extent live req) (hext : ∀ b ∈ live, extent' b = extent b) :
    Charged stats extent' live req := by
  intro t
  obtain ⟨hmem, huse⟩ := h t
  have hsum : ∑ b ∈ ofType live req t, extent' b = ∑ b ∈ ofType live req t, extent b :=
    Finset.sum_congr rfl fun b hb => hext b (Finset.mem_filter.mp hb).1
  rw [hsum]
  exact ⟨hmem, huse⟩

/-! ## The invariant -/

/-- `*(caddr_t *)a`. -/
def Kern.next (k : Kern) (a : ℕ) : Option ℕ := ptr (k.word a)

/-- `kb_next`. -/
def Kern.head (k : Kern) (i : ℕ) : Option ℕ := ptr (k.bucket i).kbNext

/-- The size of the chunk at an address. -/
def Kern.sizeOf (k : Kern) (a : ℕ) : ℕ := k.extent (k.btokup a)

/-- The allocator with its live blocks, what was asked for them, and the free lists. -/
structure Inv (k : Kern) (live : Finset ℕ) (req : ℕ → Block) (fl : ℕ → List ℕ) : Prop where
  layout : Layout k
  linked : ∀ i, Linked k.next (k.head i) (fl i)
  mem : ∀ {i a}, a ∈ fl i ↔ a ∈ k.chunks i ∧ a ∉ live
  large : ∀ i, 14 ≤ i → fl i = []
  held : ∀ a ∈ live, ∃ i, a ∈ k.chunks i
  fits : ∀ a ∈ live, (req a).size ≤ k.sizeOf a
  cnt : ∀ p ∈ k.areas, k.idx p < 14 → (k.usage p).kuCnt = (k.slots p \ live).card
  total : ∀ i, (k.bucket i).kbTotal = (k.chunks i).card
  totalfree : ∀ i, (k.bucket i).kbTotalfree = (k.chunks i \ live).card
  charged : Charged k.stats k.sizeOf live req
  gccnt : ∀ p, (k.usage p).kuGccnt = 0

variable {fl : ℕ → List ℕ} {c : Caller} {l : List ℕ}

theorem eq_of_ptr (h : ptr p = some a) : p = a ∧ p ≠ 0 := by
  rw [ptr] at h
  by_cases hp : p = 0
  · rw [if_pos hp] at h
    exact absurd h nofun
  · rw [if_neg hp] at h
    exact ⟨Option.some.inj h, hp⟩

theorem ptr_eq_none : ptr p = none ↔ p = 0 := by
  rw [ptr]
  by_cases hp : p = 0
  · simp [hp]
  · simp [hp]

theorem ptr_of_pos (h : 0 < p) : ptr p = some p := if_neg h.ne'

namespace Inv

section

variable (h : Inv k live req fl)
include h

theorem ne_of_mem (ha : a ∈ fl i) (hji : j ≠ i) : a ∉ fl j :=
  fun hj => hji (chunks_inj (h.mem.mp hj).1 (h.mem.mp ha).1)

theorem length_eq (i : ℕ) : (fl i).length = (k.chunks i \ live).card := by
  rw [← toFinset_card_of_nodup (h.linked i).nodup]
  refine congrArg Finset.card ?_
  ext a
  rw [mem_toFinset, h.mem, Finset.mem_sdiff]

theorem idx_lt (ha : a ∈ fl i) : i < 14 := by
  by_contra hi
  rw [h.large i (not_lt.mp hi)] at ha
  exact not_mem_nil ha

omit h in
theorem kmeminit {kmembase kmemsize : ℕ} (word : ℕ → ℕ) (bufmap maxbufmem : ℤ) (hbase : 0 < kmembase)
    (hsize : kmemsize < 2 ^ 31) :
    Inv (Kern.kmeminit word kmembase kmemsize bufmap maxbufmem) ∅ (fun _ => ⟨0, 0⟩) fun _ => [] := by
  have hnone : ∀ i, (Kern.kmeminit word kmembase kmemsize bufmap maxbufmem).chunks i = ∅ := fun _ => rfl
  have harea : ∀ {p}, p ∉ (Kern.kmeminit word kmembase kmemsize bufmap maxbufmem).areas := Finset.notMem_empty _
  refine ⟨⟨hbase, hsize, fun _ _ => ⟨rfl, rfl⟩, fun _ hp => absurd hp harea, fun _ hp => absurd hp harea,
    fun _ hp => absurd hp harea, fun _ hp => absurd hp harea, fun _ hp => absurd hp harea⟩, fun _ => rfl,
    fun {i a} => ?_, fun _ _ => rfl, fun _ ha => absurd ha (Finset.notMem_empty _),
    fun _ ha => absurd ha (Finset.notMem_empty _), fun _ hp => absurd hp harea, fun i => ?_, fun i => ?_,
    fun _ => ⟨rfl, rfl⟩, fun _ => rfl⟩
  · rw [hnone]
    exact iff_of_false not_mem_nil fun ha => Finset.notMem_empty a ha.1
  · rw [hnone]
    rfl
  · rw [hnone]
    rfl

theorem store (ha : a ∈ live) (hi : i < (req a).size) (v : ℕ) :
    Inv { k with word := update k.word (a + i) v } live req fl := by
  obtain ⟨j, hj⟩ := h.held a ha
  refine ⟨⟨h.layout.base, h.layout.size, h.layout.tuned, h.layout.idx, h.layout.pos, h.layout.inside,
    h.layout.used, h.layout.apart⟩, fun i' => ?_, h.mem, h.large, h.held, h.fits, h.cnt, h.total, h.totalfree,
    h.charged, h.gccnt⟩
  refine (h.linked i').congr fun b hb => congrArg ptr (update_of_ne ?_ _ _)
  obtain ⟨hchunk, hfree⟩ := h.mem.mp hb
  have hfits := h.fits a ha
  rw [Kern.sizeOf] at hfits
  -- a free chunk is not inside a live one
  rcases Nat.lt_trichotomy a b with hlt | rfl | hlt
  · have := h.layout.apart_of_lt hj hchunk hlt
    omega
  · exact absurd ha hfree
  · omega

/-! ## A chunk goes from hand to hand -/

theorem move {live' : Finset ℕ} {req' : ℕ → Block} {x : ℕ} {w : ℕ → ℕ} {g : Bool} {s : ℕ → Kmemstats}
    (ha : a ∈ k.chunks i) (hi : i < 14)
    (hk : k' = { k with
      word := w
      needgc := g
      stats := s
      bucket := update k.bucket i { k.bucket i with
        kbNext := x
        kbTotalfree := (k.chunks i \ live').card }
      usage := update k.usage (k.btokup a) { k.usage (k.btokup a) with
        kuCnt := (k.slots (k.btokup a) \ live').card } })
    (hlive : ∀ b, b ≠ a → (b ∈ live' ↔ b ∈ live)) (hword : ∀ b, b ≠ a → w b = k.word b)
    (hlinked : Linked (fun b => ptr (w b)) (ptr x) l) (hmem : ∀ b, b ∈ l ↔ b ∈ k.chunks i ∧ b ∉ live')
    (hfits : ∀ b ∈ live', (req' b).size ≤ k.sizeOf b) (hcharged : Charged s k.sizeOf live' req') :
    Inv k' live' req' (update fl i l) := by
  obtain ⟨hp, hidx, -⟩ := mem_chunks.mp ha
  obtain ⟨p, hp'⟩ : ∃ p, p = k.btokup a := ⟨_, rfl⟩
  have hsmall : k.idx p < 14 := by
    rw [hp', hidx]
    exact hi
  have hother : ∀ {j}, j ≠ i → a ∉ k.chunks j := fun hj ha' => hj (chunks_inj ha' ha)
  have hsame : ∀ s : Finset ℕ, a ∉ s → s \ live' = s \ live := by
    intro s hs
    ext b
    rw [Finset.mem_sdiff, Finset.mem_sdiff]
    exact and_congr_right fun hb => not_congr (hlive b (ne_of_mem_of_not_mem hb hs))
  rw [← hp'] at hk
  have hareas : k'.areas = k.areas := by rw [hk]
  have hbucket : k'.bucket = update k.bucket i { k.bucket i with
      kbNext := x
      kbTotalfree := (k.chunks i \ live').card } := by rw [hk]
  have husage : k'.usage = update k.usage p { k.usage p with kuCnt := (k.slots p \ live').card } := by
    rw [hk]
  have hself : k'.bucket i = { k.bucket i with
      kbNext := x
      kbTotalfree := (k.chunks i \ live').card } := by rw [hbucket, update_self]
  have hne : ∀ j, j ≠ i → k'.bucket j = k.bucket j := fun j hj => by
    rw [hbucket, update_of_ne hj]
  have hown : k'.usage p = { k.usage p with kuCnt := (k.slots p \ live').card } := by
    rw [husage, update_self]
  have hrest : ∀ q, q ≠ p → k'.usage q = k.usage q := fun q hq => by
    rw [husage, update_of_ne hq]
  have hidx' : ∀ q, k'.idx q = k.idx q := by
    intro q
    rw [idx, idx]
    by_cases hq : q = p
    · rw [hq, hown]
    · rw [hrest q hq]
  have hext : ∀ q, k'.extent q = k.extent q := by
    intro q
    rw [extent, extent, hidx']
    by_cases hq : q = p
    · rw [hq, if_pos hsmall, if_pos hsmall]
    · rw [hrest q hq]
  have hsub : Sub k' k := by
    refine ⟨by rw [hk], by rw [hk], fun j => ?_, hareas.subset, fun q _ => hidx' q, fun q _ => hext q,
      fun q _ r _ _ => by rw [hk]⟩
    by_cases hj : j = i
    · rw [hj, hself]
      exact ⟨rfl, rfl⟩
    · rw [hne j hj]
      exact ⟨rfl, rfl⟩
  have hsizeOf : k'.sizeOf = k.sizeOf := by
    funext b
    rw [Kern.sizeOf, Kern.sizeOf, hext, hsub.btokup]
  have hchunks := hsub.chunks hareas
  refine ⟨h.layout.mono hsub, fun j => ?_, fun {j b} => ?_, fun j hj => ?_, fun b hb => ?_, fun b hb => ?_,
    fun q hq hlt => ?_, fun j => ?_, fun j => ?_, ?_, fun q => ?_⟩
  · have hnext : k'.next = fun b => ptr (w b) := by
      funext b
      rw [Kern.next, hk]
    rw [hnext]
    by_cases hj : j = i
    · rw [hj, update_self, Kern.head, hself]
      exact hlinked
    · rw [update_of_ne hj, Kern.head, hne j hj]
      refine (h.linked j).congr fun b hb => ?_
      rw [Kern.next, hword b (ne_of_mem_of_not_mem (h.mem.mp hb).1 (hother hj))]
  · rw [hchunks]
    by_cases hj : j = i
    · rw [hj, update_self]
      exact hmem b
    · rw [update_of_ne hj, h.mem]
      exact and_congr_right fun hb => not_congr (hlive b (ne_of_mem_of_not_mem hb (hother hj))).symm
  · rw [update_of_ne (by omega)]
    exact h.large j hj
  · rw [funext hchunks]
    by_cases hba : b = a
    · exact ⟨i, hba ▸ ha⟩
    · exact h.held b ((hlive b hba).mp hb)
  · rw [hsizeOf]
    exact hfits b hb
  · rw [hareas] at hq
    rw [hidx'] at hlt
    rw [hsub.slots (hareas ▸ hq)]
    by_cases hqp : q = p
    · rw [hqp, hown]
    · have hnot : a ∉ k.slots q := fun ha' => hqp (by rw [hp', btokup_of_mem ha'])
      rw [hrest q hqp, hsame _ hnot]
      exact h.cnt q hq hlt
  · rw [hchunks]
    by_cases hj : j = i
    · rw [hj, hself]
      exact h.total i
    · rw [hne j hj]
      exact h.total j
  · rw [hchunks]
    by_cases hj : j = i
    · rw [hj, hself]
    · rw [hne j hj, hsame _ (hother hj)]
      exact h.totalfree j
  · rw [hsizeOf, hk]
    exact hcharged
  · by_cases hqp : q = p
    · rw [hqp, hown]
      exact h.gccnt p
    · rw [hrest q hqp]
      exact h.gccnt q

omit h in
theorem size_le (hc : c.indx < 14) : c.size ≤ 2 ^ c.indx := by
  by_cases hsize : c.size ≤ maxallocsave
  · exact (bucketindx_small hsize).2
  · exact absurd (bucketindx_large (not_le.mp hsize)) (not_le.mpr hc)

omit h in
theorem sizeOf_eq (ha : a ∈ k.chunks i) (hi : i < 14) : k.sizeOf a = 2 ^ i := by
  obtain ⟨-, hidx, -⟩ := mem_chunks.mp ha
  rw [Kern.sizeOf, Kern.extent, hidx, if_pos hi]

theorem card_le (hp : p ∈ k.areas) : (k.slots p \ live).card ≤ 256 := by
  have hle := Finset.card_le_card (s := k.slots p \ live) Finset.sdiff_subset
  rw [card_slots] at hle
  exact hle.trans (elmOf_le (h.layout.idx p hp).1)

theorem take_ret (hfl : fl c.indx = a :: l) : (k.take c).1 = .ret a := by
  have hlinked := h.linked c.indx
  rw [hfl] at hlinked
  rw [Kern.take, (eq_of_ptr hlinked.1).1]

theorem take (hfl : fl c.indx = a :: l) :
    a ∉ live ∧ Inv (k.take c).2 (insert a live)
      (update req a ⟨c.size, c.type⟩) (update fl c.indx l) := by
  have hlinked := h.linked c.indx
  have hnodup := hlinked.nodup
  rw [hfl] at hlinked hnodup
  obtain ⟨hhead, hlinked⟩ := hlinked
  have hout := (nodup_cons.mp hnodup).1
  have hva : (k.bucket c.indx).kbNext = a := (eq_of_ptr hhead).1
  have hmem : a ∈ fl c.indx := hfl ▸ mem_cons_self
  obtain ⟨hchunk, hfree⟩ := h.mem.mp hmem
  obtain ⟨hp, hidx, hslot⟩ := mem_chunks.mp hchunk
  have hlt := h.idx_lt hmem
  have hbytes := sizeOf_eq hchunk hlt
  have htotal : (k.bucket c.indx).kbTotalfree - 1 = ((k.chunks c.indx \ insert a live).card : ℤ) := by
    have htotal := h.totalfree c.indx
    have hcard := card_sdiff_insert hchunk hfree
    omega
  have hcount : ((k.usage (k.btokup a)).kuCnt + 65535) % 65536 =
      (k.slots (k.btokup a) \ insert a live).card := by
    have hcnt := h.cnt _ hp (hidx.trans_lt hlt)
    have hcard := card_sdiff_insert hslot hfree
    have hle := h.card_le hp
    omega
  have hk : (k.take c).2 = { k with
      stats := update k.stats c.type { k.stats c.type with
        ksMemuse := (k.stats c.type).ksMemuse + (2 ^ c.indx : ℕ)
        ksInuse := (k.stats c.type).ksInuse + 1 }
      bucket := update k.bucket c.indx { k.bucket c.indx with
        kbNext := k.word a
        kbTotalfree := ((k.chunks c.indx \ insert a live).card : ℤ) }
      usage := update k.usage (k.btokup a) { k.usage (k.btokup a) with
        kuCnt := (k.slots (k.btokup a) \ insert a live).card } } := by
    rw [Kern.take, hva, htotal, hcount]
  refine ⟨hfree, h.move hchunk hlt hk (fun b hb => ?_) (fun b _ => rfl) hlinked (fun b => ?_) (fun b hb => ?_) ?_⟩
  · rw [Finset.mem_insert, or_iff_right hb]
  · rw [Finset.mem_insert, not_or]
    constructor
    · intro hb
      have hb' : b ∈ fl c.indx := hfl ▸ mem_cons_of_mem _ hb
      exact ⟨(h.mem.mp hb').1, ne_of_mem_of_not_mem hb hout, (h.mem.mp hb').2⟩
    · rintro ⟨hb, hba, hbl⟩
      have hb' := h.mem.mpr ⟨hb, hbl⟩
      rw [hfl] at hb'
      exact (mem_cons.mp hb').resolve_left hba
  · by_cases hba : b = a
    · rw [hba, update_self, hbytes]
      exact size_le hlt
    · rw [update_of_ne hba]
      exact h.fits b (Finset.mem_of_mem_insert_of_ne hb hba)
  · refine h.charged.insert hfree (fun b _ => rfl) ?_
    rw [hbytes]

/-! ## Freeing a block -/

theorem push (ha : a ∈ live) (hchunk : a ∈ k.chunks i) (hlt : i < 14)
    (hno : ¬ (clbytes ≤ 2 ^ i ∧ ((k.bucket i).kbHighwat : ℤ) ≤ (k.bucket i).kbTotalfree)) :
    Inv (k.free a (req a).type) (live.erase a) req (update fl i (a :: fl i)) := by
  obtain ⟨hp, hidx, hslot⟩ := mem_chunks.mp hchunk
  have hidx' : (k.usage (k.btokup a)).kuIndx = i := hidx
  have hbytes := sizeOf_eq hchunk hlt
  have htotal : (k.bucket i).kbTotalfree + 1 = ((k.chunks i \ live.erase a).card : ℤ) := by
    have htotal := h.totalfree i
    have hcard := card_sdiff_erase hchunk ha
    omega
  have hcount : ((k.usage (k.btokup a)).kuCnt + 1) % 65536 = (k.slots (k.btokup a) \ live.erase a).card := by
    have hcnt := h.cnt _ hp (hidx.trans_lt hlt)
    have hcard := card_sdiff_erase hslot ha
    have hle := h.card_le hp
    omega
  have hnot : a ∉ fl i := fun hm => (h.mem.mp hm).2 ha
  have hlinked : Linked (fun b => ptr (update k.word a (k.bucket i).kbNext b)) (ptr a) (a :: fl i) := by
    refine ⟨ptr_of_pos (h.layout.chunk_mem hchunk).1, ?_⟩
    change Linked _ (ptr (update k.word a (k.bucket i).kbNext a)) (fl i)
    rw [update_self]
    refine (h.linked i).congr fun b hb => ?_
    rw [update_of_ne (ne_of_mem_of_not_mem hb hnot), Kern.next]
  have hk : k.free a (req a).type = { k with
      needgc := (k.free a (req a).type).needgc
      word := update k.word a (k.bucket i).kbNext
      stats := update k.stats (req a).type { k.stats (req a).type with
        ksMemuse := (k.stats (req a).type).ksMemuse - (2 ^ i : ℕ)
        ksInuse := (k.stats (req a).type).ksInuse - 1 }
      bucket := update k.bucket i { k.bucket i with
        kbNext := a
        kbTotalfree := ((k.chunks i \ live.erase a).card : ℤ) }
      usage := update k.usage (k.btokup a) { k.usage (k.btokup a) with
        kuCnt := (k.slots (k.btokup a) \ live.erase a).card } } := by
    subst hidx'
    rw [free, if_neg hno, hcount, htotal]
  refine h.move hchunk hlt hk (fun b hb => ?_) (fun b hb => update_of_ne hb _ _) hlinked (fun b => ?_)
    (fun b hb => h.fits b (Finset.mem_of_mem_erase hb)) ?_
  · rw [Finset.mem_erase, and_iff_right hb]
  · rw [mem_cons, h.mem, Finset.mem_erase]
    constructor
    · rintro (rfl | ⟨hb, hbl⟩)
      · exact ⟨hchunk, fun hb => hb.1 rfl⟩
      · exact ⟨hb, fun hb => hbl hb.2⟩
    · rintro ⟨hb, hbl⟩
      by_cases hba : b = a
      · exact .inl hba
      · exact .inr ⟨hb, fun hb => hbl ⟨hba, hb⟩⟩
  · refine h.charged.erase ha (fun b _ => rfl) ?_
    rw [hbytes]

end

end Inv

end Bsd386.Kern.Malloc
