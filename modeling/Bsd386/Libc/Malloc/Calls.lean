import Bsd386.Libc.Malloc.Blocks

/-!
# The calls of the library allocator

`malloc` and `realloc` from an allocator in order: `Inv.malloc`, `Inv.realloc`. `realloc` frees the block
before it asks for another, so that the block is lost when there is none to be had (`Obtainable`).
-/

namespace Bsd386.Libc.Malloc

open Function Lib.Bytes Lib.Linked

variable {h h' : Heap} {base : ℕ} {live : ℕ → Option ℕ} {fl : ℕ → List ℕ} {op b n : ℕ} {g : Grants}

/-- The first call of `malloc` gets the memory that aligns the break.
Source: malloc -/
def Heap.SetupOk (h : Heap) (g : Grants) : Prop :=
  h.pagesz = 0 → h.gap = 0 ∨ (g.align = true ∧ h.brk + h.gap < 2 ^ 32)

/-- There is a free block for the size, or memory for one; `extra` is a bucket that is about to get one.
Source: malloc -/
def Heap.Obtainable (h : Heap) (granted : Bool) (nbytes : ℕ) (extra : Option ℕ) : Prop :=
  ∃ b, h.bucketOf nbytes = some b ∧ (extra = some b ∨ h.nextf b ≠ 0 ∨ h.CanGrow granted b)

namespace Inv

section

variable (hi : Inv h base live fl)
include hi

theorem live_eq_none (hblk : h.blk = fun _ => none) (p : ℕ) : live p = none := by
  by_contra hne
  obtain ⟨k, hk⟩ := Option.ne_none_iff_exists'.mp hne
  obtain ⟨op, b, -, hb, -⟩ := hi.header p k hk
  rw [hblk] at hb
  exact absurd hb nofun

theorem setup (hzero : h.pagesz = 0) (hok : h.SetupOk g) :
    ∃ h1, h.setup g.align = (true, h1) ∧ Inv h1 base live fl ∧ SameData h h1 ∧ h1.pagesz = getpagesize := by
  have hblk : h.blk = fun _ => none := by
    rcases hi.pages with ⟨-, hblk⟩ | ⟨hpage, -⟩
    · exact hblk
    · exact absurd (hpage.symm.trans hzero) (by decide)
  have hloop : Heap.pageLoop getpagesize 32 8 0 = 9 := by decide
  have hdata : ∀ h1 : Heap, SameData h h1 := by
    intro h1 op b hb
    rw [hblk] at hb
    exact absurd hb nofun
  have hnil : ∀ b, fl b = [] := by
    intro b
    refine List.eq_nil_iff_forall_not_mem.mpr fun op hop => ?_
    have hb := ((hi.mem_iff b op).mp hop).1
    rw [hblk] at hb
    exact absurd hb nofun
  have hstart : ∀ h1 : Heap, h1.nextf = h.nextf → h1.blk = h.blk → h.brk ≤ h1.brk → h1.brk < 2 ^ 32 →
      h1.pagesz = getpagesize → h1.pagebucket = 9 → Inv h1 base live fl := by
    intro h1 hnextf hblk1 hle hlt hpage hbucket
    refine ⟨?_, ⟨?_, ?_, ?_⟩, ?_, ?_, .inr ⟨hpage, hbucket⟩⟩
    · rw [hblk1]
      refine ⟨hi.blocks.base_pos, hi.blocks.base_le.trans hle, hlt, hi.blocks.small, ?_, hi.blocks.apart⟩
      exact fun op b hb => ⟨(hi.blocks.within op b hb).1, (hi.blocks.within op b hb).2.trans hle⟩
    · intro b hb
      have hlinked := hi.lists.linked hb
      rw [hnil b] at hlinked ⊢
      rw [hnextf]
      exact hlinked
    · exact hi.lists.disjoint
    · intro b op _ hop
      rw [hnil b] at hop
      exact absurd hop List.not_mem_nil
    · rw [hblk1]
      exact hi.mem_iff
    · intro p k hp
      exact absurd ((hi.live_eq_none hblk p).symm.trans hp) nofun
  rw [Heap.setup]
  by_cases hgap : h.gap = 0
  · rw [if_pos hgap]
    exact ⟨_, rfl, hstart _ rfl rfl (le_refl _) hi.blocks.brk_lt rfl hloop, hdata _, rfl⟩
  · obtain ⟨halign, hlt⟩ := (hok hzero).resolve_left hgap
    rw [if_neg hgap, Heap.sbrk, if_pos ⟨halign, hlt⟩]
    exact ⟨_, rfl, hstart _ rfl rfl (Nat.le_add_right _ _) hlt rfl hloop, hdata _, rfl⟩

omit hi in
theorem alloc (n : ℕ) (granted : Bool) (hi : Inv h base live fl) (hpage : h.pagesz = getpagesize) :
    SameData h (h.alloc granted n).2 ∧
      ((¬ h.Obtainable granted n none ∧ (h.alloc granted n).1 = 0 ∧ ∃ fl', Inv (h.alloc granted n).2 base live fl') ∨
        (h.Obtainable granted n none ∧ (h.alloc granted n).1 ≠ 0 ∧ live (h.alloc granted n).1 = none ∧
          ∃ fl', Inv (h.alloc granted n).2 base (update live (h.alloc granted n).1 (some n)) fl')) := by
  have hbucket : h.pagebucket = 9 := by
    rcases hi.pages with ⟨hzero, -⟩ | ⟨-, hbucket⟩
    · exact absurd (hpage.symm.trans hzero) (by decide)
    · exact hbucket
  -- a block on the list of the bucket is taken
  have htake : ∀ (h1 : Heap) (fl1 : ℕ → List ℕ) (b : ℕ), Inv h1 base live fl1 → SameData h h1 →
      h1.nextf b ≠ 0 → n + 4 ≤ len b →
      SameData h (h1.take b) ∧ live (h1.nextf b + 4) = none ∧
        ∃ fl', Inv (h1.take b) base (update live (h1.nextf b + 4) (some n)) fl' := by
    intro h1 fl1 b hi1 hdata hne hn
    obtain ⟨hinv, hdata'⟩ := hi1.take hne hn
    exact ⟨hdata.trans hdata', (hi1.nextf_ne_zero hne).choose_spec.2.2, hinv⟩
  rw [Heap.alloc]
  cases hb : h.bucketOf n with
  | none =>
    refine ⟨SameData.refl h, .inl ⟨?_, rfl, fl, hi⟩⟩
    rintro ⟨b, hb', -⟩
    exact absurd (hb.symm.trans hb') nofun
  | some b =>
    obtain ⟨-, hn⟩ := bucketOf_spec hpage hbucket hb
    dsimp only
    by_cases hzero : h.nextf b = 0
    · rw [if_pos hzero]
      by_cases hgrow : h.CanGrow granted b
      · obtain ⟨⟨fl1, hi1⟩, hdata, hnextf⟩ := hi.morecore hpage hbucket hzero hgrow
        have hne : (h.morecore granted b).nextf b ≠ 0 := by
          rw [hnextf]
          exact (hi.blocks.base_pos.trans_le hi.blocks.base_le).ne'
        obtain ⟨hsame, hnone, hinv⟩ := htake _ _ b hi1 hdata hne hn
        rw [if_neg hne]
        exact ⟨hsame, .inr ⟨⟨b, hb, .inr (.inr hgrow)⟩, Nat.succ_ne_zero _, hnone, hinv⟩⟩
      · rw [morecore_eq hgrow, if_pos hzero]
        refine ⟨SameData.refl h, .inl ⟨?_, rfl, fl, hi⟩⟩
        rintro ⟨c, hc, hor⟩
        obtain rfl : c = b := Option.some.inj (hc.symm.trans hb)
        exact (hor.resolve_left nofun).elim (fun hne => hne hzero) hgrow
    · obtain ⟨hsame, hnone, hinv⟩ := htake h fl b hi (SameData.refl h) hzero hn
      rw [if_neg hzero, if_neg hzero]
      exact ⟨hsame, .inr ⟨⟨b, hb, .inr (.inl hzero)⟩, Nat.succ_ne_zero _, hnone, hinv⟩⟩

theorem malloc (hok : h.SetupOk g) :
    SameData h (h.malloc g n).2 ∧
      (((h.malloc g n).1 = 0 ∧ ∃ fl', Inv (h.malloc g n).2 base live fl') ∨
        ((h.malloc g n).1 ≠ 0 ∧ live (h.malloc g n).1 = none ∧
          ∃ fl', Inv (h.malloc g n).2 base (update live (h.malloc g n).1 (some n)) fl')) := by
  by_cases hzero : h.pagesz = 0
  · obtain ⟨h1, hset, hi1, hdata, hpage⟩ := hi.setup hzero hok
    have hrun : h.malloc g n = h1.alloc g.more n := by
      rw [Heap.malloc, if_pos hzero, hset]
    rw [hrun]
    obtain ⟨hdata', ⟨-, hnull⟩ | ⟨-, hsome⟩⟩ := hi1.alloc n g.more hpage
    · exact ⟨hdata.trans hdata', .inl hnull⟩
    · exact ⟨hdata.trans hdata', .inr hsome⟩
  · have hpage : h.pagesz = getpagesize := by
      rcases hi.pages with ⟨h0, -⟩ | ⟨hpage, -⟩
      · exact absurd h0 hzero
      · exact hpage
    have hrun : h.malloc g n = h.alloc g.more n := by
      rw [Heap.malloc, if_neg hzero]
    rw [hrun]
    obtain ⟨hdata', ⟨-, hnull⟩ | ⟨-, hsome⟩⟩ := hi.alloc n g.more hpage
    · exact ⟨hdata', .inl hnull⟩
    · exact ⟨hdata', .inr hsome⟩

theorem resize {p k : ℕ} (hp : live p = some n) (hb : h.blk (p - 4) = some b) (hk : k + 4 ≤ len b) :
    Inv h base (update live p (some k)) fl := by
  have hnone : ∀ q, update live p (some k) q = none ↔ live q = none := by
    intro q
    by_cases hq : q = p
    · subst hq
      rw [update_self, hp]
      exact iff_of_false nofun nofun
    · rw [update_of_ne hq]
  refine ⟨hi.blocks, hi.lists.mono (fun _ _ => rfl) ?_ (Set.Subset.refl _), ?_, ?_, hi.pages⟩
  · exact fun x hx => ⟨hx.1, (hnone _).mpr hx.2⟩
  · intro c x
    rw [hi.mem_iff, hnone]
  · intro q m hq
    by_cases hqp : q = p
    · subst hqp
      rw [update_self] at hq
      obtain rfl := Option.some.inj hq
      obtain ⟨x, c, rfl, hx, -, hm, hidx⟩ := hi.header q n hp
      rw [Nat.add_sub_cancel] at hb
      obtain rfl := Option.some.inj (hx.symm.trans hb)
      exact ⟨x, c, rfl, hx, hk, hm, hidx⟩
    · rw [update_of_ne hqp] at hq
      exact hi.header q m hq

theorem bcopy {p k : ℕ} (hp : live p = some n) (cp : ℕ) (hk : k ≤ n) :
    Inv { h with mem := Heap.bcopy h.mem cp p k } base live fl := by
  obtain ⟨b, hb, -, hpadd, hn, -, -⟩ := hi.live_block hp
  refine hi.data hb fun i hi' => ?_
  rw [hpadd] at hi'
  exact if_neg (by omega)

theorem move {cp old : ℕ} (hp : live cp = some old) (hb : h.blk (cp - 4) = some b)
    (hobt : h.Obtainable g.more n (some b)) :
    ∃ p h', (h.free cp).move g cp n (h.onb b) = (p, h') ∧ p ≠ 0 ∧
      update live cp none p = none ∧
      (∃ fl', Inv h' base (update (update live cp none) p (some n)) fl') ∧
      (∀ i < min old n, h'.mem (p + i) = h.mem (cp + i)) ∧
      ∀ q k, q ≠ cp → live q = some k → ∀ i < k, h'.mem (q + i) = h.mem (q + i) := by
  have hpage : h.pagesz = getpagesize := by
    rcases hi.pages with ⟨-, hblk⟩ | ⟨hpage, -⟩
    · exact absurd ((hi.live_eq_none hblk cp).symm.trans hp) nofun
    · exact hpage
  obtain ⟨⟨fl1, hi1⟩, hdata1⟩ := hi.free hp
  have hfree := hi.free_eq hp hb
  obtain ⟨h1, hh1⟩ : ∃ h1, h.free cp = h1 := ⟨_, rfl⟩
  rw [hh1] at hi1 hdata1 hfree ⊢
  have hpage1 : h1.pagesz = getpagesize := by
    rw [hfree]
    exact hpage
  have hobt1 : h1.Obtainable g.more n none := by
    obtain ⟨c, hc, hor⟩ := hobt
    have hcp : cp - 4 ≠ 0 := (hi.blocks.pos hb).ne'
    have hnextf : h1.nextf = update h.nextf b (cp - 4) := by rw [hfree]
    refine ⟨c, by rw [hfree]; exact hc, .inr ?_⟩
    by_cases hcb : c = b
    · subst hcb
      refine .inl ?_
      rw [hnextf, update_self]
      exact hcp
    rcases hor with heq | hne | hgrow
    · exact absurd (Option.some.inj heq).symm hcb
    · refine .inl ?_
      rw [hnextf, update_of_ne hcb]
      exact hne
    · refine .inr ?_
      rw [hfree]
      exact hgrow
  have hrun : h1.malloc g n = h1.alloc g.more n := by
    rw [Heap.malloc, if_neg (by rw [hpage1]; decide)]
  obtain ⟨hdata2, ⟨hno, -⟩ | ⟨-, hne, hnone, fl2, hi2⟩⟩ := hi1.alloc n g.more hpage1
  · exact absurd hobt1 hno
  obtain ⟨p, h2, hr⟩ : ∃ p h2, h1.alloc g.more n = (p, h2) := ⟨_, _, rfl⟩
  rw [hr] at hdata2 hne hnone hi2
  have hdata := hdata1.trans hdata2
  obtain ⟨res, rfl⟩ : ∃ res, p = res + 1 := ⟨p - 1, by omega⟩
  have hself : update (update live cp none) (res + 1) (some n) (res + 1) = some n :=
    update_self ..
  obtain ⟨c, hc, hres4, hresadd, hroom, -, -⟩ := hi2.live_block hself
  -- the data of the blocks up to the copy
  have hkeep : ∀ q k, live q = some k → ∀ i < k, h2.mem (q + i) = h.mem (q + i) := by
    intro q k hq i hik
    obtain ⟨d, hd, -, hqadd, hkd, -, -⟩ := hi.live_block hq
    exact (hdata (q - 4) d hd).2 (q + i) (by omega) (by omega)
  have hother : ∀ q k, q ≠ cp → live q = some k → ∀ i < k, q + i < res + 1 ∨ res + 1 + n ≤ q + i := by
    intro q k hqcp hq i hik
    have hqres : q ≠ res + 1 := by
      rintro rfl
      rw [update_of_ne hqcp, hq] at hnone
      exact absurd hnone nofun
    have hq2 : update (update live cp none) (res + 1) (some n) q = some k := by
      rw [update_of_ne hqres, update_of_ne hqcp]
      exact hq
    obtain ⟨d, hd, -, hqadd, hkd, -, -⟩ := hi2.live_block hq2
    have hne' : q - 4 ≠ res + 1 - 4 := by omega
    rcases hi2.blocks.apart _ d _ c hd hc hne' with h | h <;> omega
  obtain ⟨b', hb', -, hcpadd, hold, -, -⟩ := hi.live_block hp
  obtain rfl : b' = b := Option.some.inj (hb'.symm.trans hb)
  have honb := onb_eq (h := h) hpage (hi.blocks.small _ _ hb)
  rw [Heap.move, hrun, hr]
  dsimp only
  by_cases hcp : cp = res + 1
  · refine ⟨res + 1, h2, if_neg (not_not.mpr hcp), Nat.succ_ne_zero _, hnone, ⟨fl2, hi2⟩, ?_, ?_⟩
    · intro i hi'
      rw [← hcp]
      exact hkeep cp old hp i (by omega)
    · exact fun q k _ hq i hik => hkeep q k hq i hik
  rw [if_pos hcp]
  have hcount : (if n < h.onb b' then n else h.onb b') ≤ n := by
    split <;> omega
  refine ⟨res + 1, _, rfl, Nat.succ_ne_zero _, hnone, ⟨fl2, hi2.bcopy hself cp hcount⟩, ?_, ?_⟩
  · intro i hi'
    have hin : res + 1 ≤ res + 1 + i ∧ res + 1 + i < res + 1 + if n < h.onb b' then n else h.onb b' := by
      split <;> omega
    have hsub : cp + (res + 1 + i - (res + 1)) = cp + i := by omega
    refine (if_pos hin).trans ?_
    rw [hsub]
    exact hkeep cp old hp i (by omega)
  · intro q k hqcp hq i hik
    have hfar := hother q k hqcp hq i hik
    refine (if_neg (by omega)).trans (hkeep q k hq i hik)

end

end Inv

end Bsd386.Libc.Malloc
