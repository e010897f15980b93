import Bsd386.Lib.Linked
import Bsd386.Libc.Malloc.Sizes

/-!
# Blocks and free lists of the library allocator

`Inv h base live fl`: the blocks that have been cut are apart and between the first break and the present
one, those that are not live are on the free list of their bucket, and the header of a live block tells its
bucket. `live` gives the requested size by the address the program has, behind the header.

Each part of the allocator keeps it and changes no data of a block (`SameData`): `Inv.morecore`, `Inv.take`,
`Inv.free`; `Inv.data` is for writes to the data of a block.
-/

namespace Bsd386.Libc.Malloc

open Function Lib.Bytes Lib.Linked List Option Heap

variable {h h' : Heap} {base : ℕ} {live : ℕ → Option ℕ} {fl : ℕ → List ℕ} {op b n : ℕ}

/-- The next free block. Source: union overhead -/
def next (m : Mem) (op : ℕ) : Option ℕ := ptr (ovNext m op)

def freeSet (h : Heap) (live : ℕ → Option ℕ) : Set ℕ := fun op => h.blk op ≠ none ∧ live (op + 4) = none

/-- Where the blocks are. Source: morecore -/
structure Blocks (blk : ℕ → Option ℕ) (base brk : ℕ) : Prop where
  base_pos : 0 < base
  base_le : base ≤ brk
  brk_lt : brk < 2 ^ 32
  small : ∀ op b, blk op = some b → b ≤ 27
  within : ∀ op b, blk op = some b → base ≤ op ∧ op + len b ≤ brk
  apart : ∀ op b op' b', blk op = some b → blk op' = some b' → op ≠ op' →
    op + len b ≤ op' ∨ op' + len b' ≤ op

/-- The allocator in order. -/
structure Inv (h : Heap) (base : ℕ) (live : ℕ → Option ℕ) (fl : ℕ → List ℕ) : Prop where
  blocks : Blocks h.blk base h.brk
  lists : Family (next h.mem) (fun b => ptr (h.nextf b)) Set.univ (freeSet h live) fl
  mem_iff : ∀ b op, op ∈ fl b ↔ h.blk op = some b ∧ live (op + 4) = none
  header : ∀ p n, live p = some n → ∃ op b, p = op + 4 ∧ h.blk op = some b ∧ n + 4 ≤ len b ∧
    h.mem op = magic ∧ h.mem (op + 1) = BitVec.ofNat 8 b
  pages : (h.pagesz = 0 ∧ h.blk = fun _ => none) ∨ (h.pagesz = getpagesize ∧ h.pagebucket = 9)

/-- The blocks stay, with their data. -/
def SameData (h h' : Heap) : Prop := ∀ op b, h.blk op = some b →
  h'.blk op = some b ∧ ∀ i, op + 4 ≤ i → i < op + len b → h'.mem i = h.mem i

theorem SameData.trans {h'' : Heap} (h1 : SameData h h') (h2 : SameData h' h'') : SameData h h'' := by
  intro op b hb
  obtain ⟨hb', hd⟩ := h1 op b hb
  obtain ⟨hb'', hd'⟩ := h2 op b hb'
  exact ⟨hb'', fun i hi hi' => (hd' i hi hi').trans (hd i hi hi')⟩

theorem SameData.refl (h : Heap) : SameData h h := fun _ _ hb => ⟨hb, fun _ _ _ => rfl⟩

namespace Blocks

variable {blk : ℕ → Option ℕ} {brk : ℕ}

theorem pos (hb : Blocks blk base brk) (hop : blk op = some b) : 0 < op :=
  hb.base_pos.trans_le (hb.within op b hop).1

theorem header_apart (hb : Blocks blk base brk) {x c i : ℕ} (hop : blk op = some b) (hx : blk x = some c)
    (hne : x ≠ op) (hi : x ≤ i) (hi' : i < x + 4) : i < op ∨ op + len b ≤ i := by
  have h2 := le_len c
  rcases hb.apart op b x c hop hx (Ne.symm hne) with h | h <;> omega

end Blocks

namespace Inv

section

variable (hi : Inv h base live fl)
include hi

theorem live_block {p : ℕ} (hp : live p = some n) :
    ∃ b, h.blk (p - 4) = some b ∧ 4 < p ∧ p - 4 + 4 = p ∧ n + 4 ≤ len b ∧ h.mem (p - 4) = magic ∧
      (h.mem (p - 4 + 1)).toNat = b := by
  obtain ⟨op, b, rfl, hb, hn, hm, hx⟩ := hi.header p n hp
  have hpos := hi.blocks.pos hb
  have hsmall := hi.blocks.small op b hb
  rw [Nat.add_sub_cancel]
  refine ⟨b, hb, by omega, rfl, hn, hm, ?_⟩
  rw [hx, BitVec.toNat_ofNat]
  exact Nat.mod_eq_of_lt (by omega)

theorem nextf_eq_zero : h.nextf b = 0 ↔ fl b = [] := by
  have hhead := (hi.lists.linked (Set.mem_univ b)).head_eq
  rw [← ptr_eq_none, hhead, head?_eq_none_iff]

theorem nextf_ne_zero (hne : h.nextf b ≠ 0) :
    ∃ rest, fl b = h.nextf b :: rest ∧ h.blk (h.nextf b) = some b ∧ live (h.nextf b + 4) = none := by
  have hhead := (hi.lists.linked (Set.mem_univ b)).head_eq
  rw [ptr_of_ne hne] at hhead
  cases hfl : fl b with
  | nil =>
    rw [hfl] at hhead
    exact absurd hhead nofun
  | cons x rest =>
    rw [hfl] at hhead
    obtain heq : h.nextf b = x := some.inj hhead
    have hmem := (hi.mem_iff b x).mp (by rw [hfl]; exact mem_cons_self)
    rw [heq]
    exact ⟨rest, rfl, hmem⟩

theorem data {m : Mem} (hop : h.blk op = some b)
    (hm : ∀ i, i < op + 4 ∨ op + len b ≤ i → m i = h.mem i) :
    Inv { h with mem := m } base live fl := by
  have hhead : ∀ x c, h.blk x = some c → ∀ i, x ≤ i → i < x + 4 → m i = h.mem i := by
    intro x c hx i hi1 hi2
    refine hm i ?_
    by_cases hne : x = op
    · subst hne
      exact .inl hi2
    · rcases hi.blocks.header_apart hop hx hne hi1 hi2 with h | h <;> omega
  refine ⟨hi.blocks, ?_, hi.mem_iff, ?_, hi.pages⟩
  · refine hi.lists.mono (fun x hx => ?_) (Set.Subset.refl _) (Set.Subset.refl _)
    obtain ⟨c, hc⟩ := ne_none_iff_exists'.mp hx.1
    rw [next, next, ovNext_congr (hhead x c hc)]
  · intro p n hp
    obtain ⟨x, c, heq, hx, hn, hmag, hidx⟩ := hi.header p n hp
    refine ⟨x, c, heq, hx, hn, ?_, ?_⟩
    · exact (hhead x c hx x (le_refl _) (by omega)).trans hmag
    · exact (hhead x c hx (x + 1) (by omega) (by omega)).trans hidx

theorem take (hne : h.nextf b ≠ 0) (hn : n + 4 ≤ len b) :
    (∃ fl', Inv (h.take b) base (update live (h.nextf b + 4) (some n)) fl') ∧
      SameData h (h.take b) := by
  obtain ⟨rest, hfl, hop, hlive⟩ := hi.nextf_ne_zero hne
  obtain ⟨op, hopeq⟩ : ∃ op, h.nextf b = op := ⟨_, rfl⟩
  rw [hopeq] at hop hlive hfl ⊢
  have hfar : ∀ i, i ≠ op → i ≠ op + 1 → (h.take b).mem i = h.mem i := by
    intro i h0 h1
    rw [Heap.take, hopeq]
    exact (set8_apply_of_ne _ h1).trans (set8_apply_of_ne _ h0)
  have hhead : ∀ x c, h.blk x = some c → x ≠ op → ∀ i, x ≤ i → i < x + 4 →
      (h.take b).mem i = h.mem i := by
    intro x c hx hxop i hi1 hi2
    rcases hi.blocks.header_apart hop hx hxop hi1 hi2 with h | h <;> exact hfar i (by omega) (by omega)
  have hblk : (h.take b).blk = h.blk := rfl
  have hlive' : ∀ x, x ≠ op → update live (op + 4) (some n) (x + 4) = live (x + 4) := by
    intro x hx
    exact update_of_ne (by omega) ..
  have hself : update live (op + 4) (some n) (op + 4) = some n := update_self ..
  have hnodup := (hi.lists.linked (Set.mem_univ b)).nodup
  refine ⟨⟨update fl b ((fl b).erase op), hi.blocks, ?_, ?_, ?_, hi.pages⟩, ?_⟩
  · have hsplit : fl b = [] ++ op :: rest := hfl
    have hun := hi.lists.unlink (Set.mem_univ b) hsplit
    have hnext : ∀ x ∈ freeSet h live \ {op}, next (h.take b).mem x = next h.mem x := by
      intro x hx
      obtain ⟨c, hc⟩ := ne_none_iff_exists'.mp hx.1.1
      rw [next, next, ovNext_congr (hhead x c hc hx.2)]
    have hhd : (fun c => ptr ((h.take b).nextf c)) =
        update (fun c => ptr (h.nextf c)) b (next h.mem op) := by
      have hnextf : (h.take b).nextf = update h.nextf b (ovNext h.mem op) := by
        rw [Heap.take, hopeq]
      funext c
      rw [hnextf]
      by_cases hc : c = b
      · subst hc
        rw [update_self, update_self]
        rfl
      · rw [update_of_ne hc, update_of_ne hc]
    rw [hhd]
    refine hun.mono hnext ?_ (Set.Subset.refl _)
    rintro x ⟨⟨hx, hxl⟩, hxop⟩
    exact ⟨hx, (hlive' x hxop).trans hxl⟩
  · intro c x
    by_cases hx : x = op
    · subst hx
      rw [hself]
      refine iff_of_false (fun hmem => ?_) fun hmem => absurd hmem.2 nofun
      by_cases hc : c = b
      · subst hc
        rw [update_self] at hmem
        exact (hnodup.mem_erase_iff.mp hmem).1 rfl
      · rw [update_of_ne hc] at hmem
        have hblk' := ((hi.mem_iff c x).mp hmem).1
        exact hc (some.inj (hblk'.symm.trans hop))
    · rw [hlive' x hx, hblk, ← hi.mem_iff]
      by_cases hc : c = b
      · subst hc
        rw [update_self]
        exact mem_erase_of_ne hx
      · rw [update_of_ne hc]
  · intro p k hp
    by_cases hpe : p = op + 4
    · subst hpe
      obtain rfl := some.inj (hself.symm.trans hp)
      refine ⟨op, b, rfl, hop, hn, ?_, ?_⟩
      · rw [Heap.take, hopeq]
        exact (set8_apply_of_ne _ (by omega)).trans (set8_apply_self ..)
      · rw [Heap.take, hopeq]
        exact set8_apply_self ..
    · rw [update_of_ne hpe] at hp
      obtain ⟨x, c, rfl, hx, hk, hmag, hidx⟩ := hi.header p k hp
      have hxop : x ≠ op := fun heq => hpe (by rw [heq])
      refine ⟨x, c, rfl, hx, hk, ?_, ?_⟩
      · exact (hhead x c hx hxop x (le_refl _) (by omega)).trans hmag
      · exact (hhead x c hx hxop (x + 1) (by omega) (by omega)).trans hidx
  · intro x c hx
    refine ⟨hx, fun i hi1 hi2 => ?_⟩
    by_cases hxop : x = op
    · subst hxop
      exact hfar i (by omega) (by omega)
    · rcases hi.blocks.apart op b x c hop hx (Ne.symm hxop) with h | h <;> exact hfar i (by omega) (by omega)

theorem free_eq {p : ℕ} (hp : live p = some n) (hb : h.blk (p - 4) = some b) :
    h.free p = { h with
      mem := setNext h.mem (p - 4) (h.nextf b)
      nextf := update h.nextf b (p - 4) } := by
  obtain ⟨c, hc, hp4, -, -, hmag, hidx⟩ := hi.live_block hp
  obtain rfl : c = b := some.inj (hc.symm.trans hb)
  rw [free, if_neg (by omega), if_neg (not_not.mpr hmag), hidx]

theorem free {p : ℕ} (hp : live p = some n) :
    (∃ fl', Inv (h.free p) base (update live p none) fl') ∧ SameData h (h.free p) := by
  obtain ⟨b, hop, -, hpadd, -, -, -⟩ := hi.live_block hp
  obtain ⟨h', hh'⟩ : ∃ h', h.free p = h' := ⟨_, rfl⟩
  have hfree := hi.free_eq hp hop
  rw [hh'] at hfree
  obtain ⟨op, hopeq⟩ : ∃ op, p - 4 = op := ⟨_, rfl⟩
  rw [hopeq] at hop hpadd hfree
  have hpos := hi.blocks.pos hop
  have hmem : h'.mem = setNext h.mem op (h.nextf b) := by rw [hfree]
  have hnextf : h'.nextf = update h.nextf b op := by rw [hfree]
  have hblk : h'.blk = h.blk := by rw [hfree]
  rw [hh']
  subst hpadd
  have hfar : ∀ i, i < op ∨ op + 4 ≤ i → h'.mem i = h.mem i := by
    intro i hi'
    rw [hmem]
    exact setNext_apply hi'
  have hhead : ∀ x c, h.blk x = some c → x ≠ op → ∀ i, x ≤ i → i < x + 4 → h'.mem i = h.mem i := by
    intro x c hx hxop i hi1 hi2
    have hlen := le_len b
    rcases hi.blocks.header_apart hop hx hxop hi1 hi2 with h | h <;> exact hfar i (by omega)
  have hself : update live (op + 4) none (op + 4) = none := update_self ..
  have hlive' : ∀ x, x ≠ op → update live (op + 4) none (x + 4) = live (x + 4) := by
    intro x hx
    exact update_of_ne (by omega) ..
  have hnot : op ∉ freeSet h live := fun hmem => absurd (hp.symm.trans hmem.2) nofun
  have hnext_lt : h.nextf b < 2 ^ 32 := by
    by_cases hne : h.nextf b = 0
    · rw [hne]
      decide
    obtain ⟨-, -, hb, -⟩ := hi.nextf_ne_zero hne
    have h1 := (hi.blocks.within _ b hb).2
    have h2 := hi.blocks.brk_lt
    omega
  refine ⟨⟨update fl b (op :: fl b), ?_, ?_, ?_, ?_, ?_⟩, ?_⟩
  · rw [hfree]
    exact hi.blocks
  · have hpush := hi.lists.push hnot b
    have hhd : (fun c => ptr (h'.nextf c)) = update (fun c => ptr (h.nextf c)) b (some op) := by
      funext c
      rw [hnextf]
      by_cases hc : c = b
      · subst hc
        rw [update_self, update_self, ptr_of_ne hpos.ne']
      · rw [update_of_ne hc, update_of_ne hc]
    have hnext : ∀ x ∈ insert op (freeSet h live),
        next h'.mem x = update (next h.mem) op (ptr (h.nextf b)) x := by
      rintro x hx
      by_cases hxop : x = op
      · subst hxop
        rw [update_self, next, hmem, ovNext_setNext h.mem x hnext_lt]
      · obtain ⟨c, hc⟩ := ne_none_iff_exists'.mp (hx.resolve_left hxop).1
        rw [update_of_ne hxop, next, next, ovNext_congr (hhead x c hc hxop)]
    rw [hhd]
    refine hpush.mono hnext ?_ (Set.Subset.refl _)
    rintro x (rfl | ⟨hx, hxl⟩)
    · exact ⟨by rw [hblk, hop]; exact nofun, hself⟩
    · have hxop : x ≠ op := by
        rintro rfl
        exact absurd (hp.symm.trans hxl) nofun
      exact ⟨hblk.symm ▸ hx, (hlive' x hxop).trans hxl⟩
  · intro c x
    rw [hblk]
    by_cases hx : x = op
    · subst hx
      rw [hself, hop]
      by_cases hc : c = b
      · subst hc
        rw [update_self]
        exact iff_of_true mem_cons_self ⟨rfl, rfl⟩
      · rw [update_of_ne hc]
        refine iff_of_false (fun hmem => ?_) fun hmem => hc (some.inj hmem.1).symm
        exact absurd (hp.symm.trans ((hi.mem_iff c x).mp hmem).2) nofun
    · rw [hlive' x hx, ← hi.mem_iff]
      by_cases hc : c = b
      · subst hc
        rw [update_self, mem_cons]
        exact or_iff_right hx
      · rw [update_of_ne hc]
  · intro q k hq
    have hqp : q ≠ op + 4 := by
      rintro rfl
      exact absurd (hself.symm.trans hq) nofun
    rw [update_of_ne hqp] at hq
    obtain ⟨x, c, rfl, hx, hk, hxm, hxi⟩ := hi.header q k hq
    have hxop : x ≠ op := fun heq => hqp (by rw [heq])
    refine ⟨x, c, rfl, by rw [hblk]; exact hx, hk, ?_, ?_⟩
    · exact (hhead x c hx hxop x (le_refl _) (by omega)).trans hxm
    · exact (hhead x c hx hxop (x + 1) (by omega) (by omega)).trans hxi
  · rw [hfree]
    exact hi.pages
  · intro x c hx
    refine ⟨by rw [hblk]; exact hx, fun i hi1 hi2 => hfar i ?_⟩
    by_cases hxop : x = op
    · subst hxop
      exact .inr hi1
    · have hlen := le_len b
      rcases hi.blocks.apart op b x c hop hx (Ne.symm hxop) with h | h <;> omega

end

end Inv

/-! ## More memory -/

/-- The blocks of a piece of memory. Source: morecore -/
def cells (sz : ℕ) : ℕ → ℕ → List ℕ
  | 0, _ => []
  | n + 1, op => op :: cells sz n (op + sz)

theorem mem_cells {sz k op x : ℕ} : x ∈ cells sz k op ↔ ∃ j < k, x = op + j * sz := by
  induction k generalizing op with
  | zero => exact iff_of_false not_mem_nil fun ⟨j, hj, _⟩ => Nat.not_lt_zero j hj
  | succ k ih =>
    rw [cells, mem_cons, ih]
    constructor
    · rintro (rfl | ⟨j, hj, rfl⟩)
      · exact ⟨0, Nat.succ_pos k, by omega⟩
      · exact ⟨j + 1, Nat.succ_lt_succ hj, by rw [Nat.succ_mul]; omega⟩
    · rintro ⟨j, hj, rfl⟩
      cases j with
      | zero => exact .inl (by omega)
      | succ j => exact .inr ⟨j, Nat.lt_of_succ_lt_succ hj, by rw [Nat.succ_mul]; omega⟩

theorem cut_spec {sz k : ℕ} (h : Heap) (hsz : 4 ≤ sz) (hop : 0 < op) (hlt : op + (k + 1) * sz < 2 ^ 32)
    (hzero : ∀ i, op ≤ i → i < op + (k + 1) * sz → h.mem i = 0) :
    (∀ i < op, (Heap.cut b sz (k + 1) op h).mem i = h.mem i) ∧
      (∀ x ∈ cells sz (k + 1) op, (Heap.cut b sz (k + 1) op h).blk x = some b) ∧
      (∀ x ∉ cells sz (k + 1) op, (Heap.cut b sz (k + 1) op h).blk x = h.blk x) ∧
      Linked (next (Heap.cut b sz (k + 1) op h).mem) (some op) (cells sz (k + 1) op) ∧
      Heap.cut b sz (k + 1) op h = { h with
        mem := (Heap.cut b sz (k + 1) op h).mem
        blk := (Heap.cut b sz (k + 1) op h).blk } := by
  induction k generalizing op h with
  | zero =>
    refine ⟨fun i _ => rfl, fun x hx => ?_, fun x hx => ?_, ⟨rfl, ?_⟩, rfl⟩
    · rw [mem_singleton.mp hx]
      exact update_self ..
    · exact update_of_ne (fun heq => hx (mem_singleton.mpr heq)) ..
    · have hnull : ovNext h.mem op = 0 := by
        rw [ovNext, hzero op (by omega) (by omega), hzero (op + 1) (by omega) (by omega),
          hzero (op + 2) (by omega) (by omega), hzero (op + 3) (by omega) (by omega)]
        rfl
      exact ptr_eq_none.mpr hnull
  | succ k ih =>
    have hmul : (k + 1 + 1) * sz = (k + 1) * sz + sz := Nat.succ_mul _ _
    rw [hmul] at hlt hzero
    obtain ⟨h1, hh1⟩ : ∃ h1, h1 = { h with
        mem := setNext h.mem op (op + sz)
        blk := update h.blk op (some b) } := ⟨_, rfl⟩
    have hmem1 : h1.mem = setNext h.mem op (op + sz) := by rw [hh1]
    have hblk1 : h1.blk = update h.blk op (some b) := by rw [hh1]
    have hcut : cut b sz (k + 1 + 1) op h = cut b sz (k + 1) (op + sz) h1 := by
      rw [cut, ← hh1]
    have hzero1 : ∀ i, op + sz ≤ i → i < op + sz + (k + 1) * sz → h1.mem i = 0 := by
      intro i hi1 hi2
      rw [hmem1, setNext_apply (by omega)]
      exact hzero i (by omega) (by omega)
    obtain ⟨hlow, hin, hout, hlinked, heq⟩ := ih h1 (by omega) (by omega) hzero1
    rw [hcut]
    refine ⟨fun i hi => ?_, fun x hx => ?_, fun x hx => ?_, ⟨rfl, ?_⟩, ?_⟩
    · rw [hlow i (by omega), hmem1, setNext_apply (.inl hi)]
    · rcases mem_cons.mp hx with rfl | hx
      · have hnot : x ∉ cells sz (k + 1) (x + sz) := by
          rw [mem_cells]
          rintro ⟨j, -, heq⟩
          omega
        rw [hout x hnot, hblk1, update_self]
      · exact hin x hx
    · obtain ⟨hne, hx⟩ := ne_and_not_mem_of_not_mem_cons hx
      rw [hout x hx, hblk1, update_of_ne hne]
    · have hword : ovNext (cut b sz (k + 1) (op + sz) h1).mem op = op + sz := by
        rw [ovNext_congr (m := h1.mem) fun i _ hi => hlow i (by omega), hmem1]
        exact ovNext_setNext h.mem op (by omega)
      rw [next, hword, ptr_of_ne (by omega)]
      exact hlinked
    · rw [heq, hh1]

theorem Blocks.extend {blk blk' : ℕ → Option ℕ} {brk amt k sz : ℕ} (hb : Blocks blk base brk)
    (hsmall : b ≤ 27) (hlt : brk + amt < 2 ^ 32) (hfit : (k = 1 ∧ amt = len b) ∨ (len b = sz ∧ k * sz ≤ amt))
    (hin : ∀ x ∈ cells sz k brk, blk' x = some b) (hout : ∀ x ∉ cells sz k brk, blk' x = blk x) :
    Blocks blk' base (brk + amt) := by
  -- a cell is behind the old break, and before the new one with its length
  have hcell : ∀ x ∈ cells sz k brk, brk ≤ x ∧ x + len b ≤ brk + amt := by
    intro x hx
    obtain ⟨j, hj, rfl⟩ := mem_cells.mp hx
    rcases hfit with ⟨rfl, rfl⟩ | ⟨hlen, hle⟩
    · obtain rfl : j = 0 := by omega
      omega
    · have hmul : (j + 1) * sz ≤ k * sz := Nat.mul_le_mul_right sz hj
      rw [Nat.succ_mul] at hmul
      omega
  have hcells : ∀ x ∈ cells sz k brk, ∀ y ∈ cells sz k brk, x ≠ y → x + len b ≤ y ∨ y + len b ≤ x := by
    intro x hx y hy hne
    obtain ⟨j, hj, rfl⟩ := mem_cells.mp hx
    obtain ⟨i, hi, rfl⟩ := mem_cells.mp hy
    rcases hfit with ⟨rfl, -⟩ | ⟨hlen, -⟩
    · obtain rfl : j = 0 := by omega
      obtain rfl : i = 0 := by omega
      exact absurd rfl hne
    rcases Nat.lt_trichotomy j i with hji | rfl | hij
    · have hmul : (j + 1) * sz ≤ i * sz := Nat.mul_le_mul_right sz hji
      rw [Nat.succ_mul] at hmul
      omega
    · exact absurd rfl hne
    · have hmul : (i + 1) * sz ≤ j * sz := Nat.mul_le_mul_right sz hij
      rw [Nat.succ_mul] at hmul
      omega
  have hcases : ∀ x c, blk' x = some c → (x ∈ cells sz k brk ∧ c = b) ∨ blk x = some c := by
    intro x c hx
    by_cases hmem : x ∈ cells sz k brk
    · exact .inl ⟨hmem, some.inj (hx.symm.trans (hin x hmem))⟩
    · exact .inr ((hout x hmem).symm.trans hx)
  refine ⟨hb.base_pos, hb.base_le.trans (Nat.le_add_right _ _), hlt, ?_, ?_, ?_⟩
  · intro x c hx
    rcases hcases x c hx with ⟨-, rfl⟩ | hx
    · exact hsmall
    · exact hb.small x c hx
  · intro x c hx
    rcases hcases x c hx with ⟨hmem, rfl⟩ | hx
    · exact ⟨hb.base_le.trans (hcell x hmem).1, (hcell x hmem).2⟩
    · have hw := hb.within x c hx
      omega
  · intro x c y d hx hy hne
    rcases hcases x c hx with ⟨hxm, rfl⟩ | hx <;> rcases hcases y d hy with ⟨hym, rfl⟩ | hy
    · exact hcells x hxm y hym hne
    · have h1 := (hb.within y d hy).2
      have h2 := (hcell x hxm).1
      omega
    · have h1 := (hb.within x c hx).2
      have h2 := (hcell y hym).1
      omega
    · exact hb.apart x c y d hx hy hne

/-- Whether `morecore` gets memory for a bucket. Source: morecore -/
def Heap.CanGrow (h : Heap) (granted : Bool) (b : ℕ) : Prop :=
  b ≤ 27 ∧ granted = true ∧ h.brk + h.moreAmt b < 2 ^ 32

namespace Inv

theorem morecore_eq {granted : Bool} (hno : ¬ h.CanGrow granted b) : h.morecore granted b = h := by
  rw [morecore]
  by_cases hsz : 2 ^ 31 ≤ Heap.sizeOf b
  · rw [if_pos hsz]
  · rw [if_neg hsz, sbrk, if_neg]
    exact fun hyes => hno ⟨sizeOf_lt_iff.mp (Nat.not_le.mp hsz), hyes⟩

theorem morecore {granted : Bool} (hi : Inv h base live fl) (hpage : h.pagesz = getpagesize)
    (hbucket : h.pagebucket = 9) (hzero : h.nextf b = 0) (hgrow : h.CanGrow granted b) :
    (∃ fl', Inv (h.morecore granted b) base live fl') ∧ SameData h (h.morecore granted b) ∧
      (h.morecore granted b).nextf b = h.brk := by
  obtain ⟨hsmall, hgranted, hlt⟩ := hgrow
  obtain ⟨hblks, hfit⟩ := moreBlks_spec (h := h) (b := b) hpage
  obtain ⟨k, hk⟩ : ∃ k, h.moreBlks b = k + 1 := ⟨_, (Nat.succ_pred_eq_of_pos hblks).symm⟩
  obtain ⟨amt, hamt⟩ : ∃ amt, h.moreAmt b = amt := ⟨_, rfl⟩
  obtain ⟨sz, hsz⟩ : ∃ sz, Heap.sizeOf b = sz := ⟨_, rfl⟩
  rw [hamt] at hlt
  rw [hk, hamt, hsz] at hfit
  have hfit' : (k + 1 = 1 ∧ amt = len b) ∨ (len b = sz ∧ (k + 1) * sz ≤ amt) := hfit
  have hsz8 : 8 ≤ sz := by
    have hpow : 2 ^ 3 ≤ 2 ^ (b + 3) := Nat.pow_le_pow_right (by decide) (Nat.le_add_left 3 b)
    rw [← hsz, Heap.sizeOf]
    exact hpow
  have hlen_sz : sz ≤ len b := by
    rw [len, hsz]
    split <;> omega
  have hcut_le : (k + 1) * sz ≤ amt := by
    rcases hfit' with ⟨hk1, ha⟩ | ⟨-, hle⟩
    · rw [hk1, Nat.one_mul, ha]
      exact hlen_sz
    · exact hle
  have hbrk : 0 < h.brk := hi.blocks.base_pos.trans_le hi.blocks.base_le
  obtain ⟨h2, hh2⟩ : ∃ h2, h2 = { h with
      mem := fun i => if h.brk ≤ i ∧ i < h.brk + amt then 0 else h.mem i
      nextf := update h.nextf b h.brk
      brk := h.brk + amt } := ⟨_, rfl⟩
  have hrun : h.morecore granted b = cut b sz (k + 1) h.brk h2 := by
    rw [Heap.morecore, if_neg (Nat.not_le.mpr (sizeOf_lt_iff.mpr hsmall)), Heap.sbrk, hamt,
      if_pos ⟨hgranted, hlt⟩, hk, hsz, hh2]
  have hmem2 : ∀ i, h2.mem i = if h.brk ≤ i ∧ i < h.brk + amt then 0 else h.mem i := by
    intro i
    rw [hh2]
  have hzero2 : ∀ i, h.brk ≤ i → i < h.brk + (k + 1) * sz → h2.mem i = 0 := by
    intro i hi1 hi2
    rw [hmem2, if_pos ⟨hi1, by omega⟩]
  obtain ⟨hlow, hin, hout, hlinked, heq⟩ := cut_spec (b := b) h2 (by omega) hbrk (by omega) hzero2
  obtain ⟨h', hh'⟩ : ∃ h', cut b sz (k + 1) h.brk h2 = h' := ⟨_, rfl⟩
  rw [hrun, hh']
  rw [hh'] at hlow hin hout hlinked heq
  have hblk2 : h2.blk = h.blk := by rw [hh2]
  rw [hblk2] at hout
  have hnextf : h'.nextf = update h.nextf b h.brk := by rw [heq, hh2]
  have hbrk' : h'.brk = h.brk + amt := by rw [heq, hh2]
  have hpages : h'.pagesz = h.pagesz ∧ h'.pagebucket = h.pagebucket := by
    rw [heq, hh2]
    exact ⟨rfl, rfl⟩
  -- below the old break nothing changes
  have hmem : ∀ i < h.brk, h'.mem i = h.mem i := by
    intro i hi'
    rw [hlow i hi', hmem2, if_neg (by omega)]
  have hold : ∀ x c, h.blk x = some c → x ∉ cells sz (k + 1) h.brk := by
    intro x c hx hmem
    obtain ⟨j, -, rfl⟩ := mem_cells.mp hmem
    have h1 := (hi.blocks.within _ c hx).2
    have h2 := le_len c
    omega
  have hhead : ∀ x c, h.blk x = some c → ∀ i, x ≤ i → i < x + len c → h'.mem i = h.mem i := by
    intro x c hx i _ hi2
    have h1 := (hi.blocks.within _ c hx).2
    exact hmem i (by omega)
  have hdead : ∀ x ∈ cells sz (k + 1) h.brk, live (x + 4) = none := by
    intro x hx
    by_contra hne
    obtain ⟨n, hn⟩ := ne_none_iff_exists'.mp hne
    obtain ⟨op, c, hop, hblk, -⟩ := hi.header _ n hn
    obtain rfl : x = op := by omega
    exact hold x c hblk hx
  have hfree : ∀ x, x ∈ freeSet h live → x ∉ cells sz (k + 1) h.brk ∧ x ∈ freeSet h' live := by
    rintro x ⟨hx, hxl⟩
    obtain ⟨c, hc⟩ := ne_none_iff_exists'.mp hx
    refine ⟨hold x c hc, ?_, hxl⟩
    rw [hout x (hold x c hc)]
    exact hx
  have hnone : fl b = [] := hi.nextf_eq_zero.mp hzero
  refine ⟨⟨update fl b (cells sz (k + 1) h.brk), ?_, ⟨?_, ?_, ?_⟩, ?_, ?_, ?_⟩, ?_, ?_⟩
  · rw [hbrk']
    exact hi.blocks.extend hsmall hlt hfit' hin hout
  · intro c _
    rw [hnextf]
    by_cases hc : c = b
    · subst hc
      rw [update_self, update_self, ptr_of_ne hbrk.ne']
      exact hlinked
    rw [update_of_ne hc, update_of_ne hc]
    refine (hi.lists.linked (Set.mem_univ c)).congr fun x hx => ?_
    obtain ⟨d, hd⟩ := ne_none_iff_exists'.mp (hi.lists.mem (Set.mem_univ c) hx).1
    have hlen := le_len d
    rw [next, next, ovNext_congr fun i hi1 hi2 => hhead x d hd i hi1 (by omega)]
  · intro c d x _ _ hxc hxd
    have hother : ∀ e, e ≠ b → x ∈ update fl b (cells sz (k + 1) h.brk) e → x ∈ freeSet h live := by
      intro e he hx
      rw [update_of_ne he] at hx
      exact hi.lists.mem (Set.mem_univ e) hx
    by_cases hc : c = b <;> by_cases hd : d = b
    · exact hc.trans hd.symm
    · rw [hc, update_self] at hxc
      exact absurd hxc (hfree x (hother d hd hxd)).1
    · rw [hd, update_self] at hxd
      exact absurd hxd (hfree x (hother c hc hxc)).1
    · rw [update_of_ne hc] at hxc
      rw [update_of_ne hd] at hxd
      exact hi.lists.disjoint (Set.mem_univ c) (Set.mem_univ d) hxc hxd
  · intro c x _ hx
    by_cases hc : c = b
    · rw [hc, update_self] at hx
      exact ⟨by rw [hin x hx]; rintro ⟨⟩, hdead x hx⟩
    · rw [update_of_ne hc] at hx
      exact (hfree x (hi.lists.mem (Set.mem_univ c) hx)).2
  · intro c x
    by_cases hx : x ∈ cells sz (k + 1) h.brk
    · rw [hin x hx]
      by_cases hc : c = b
      · rw [hc, update_self]
        exact iff_of_true hx ⟨rfl, hdead x hx⟩
      · rw [update_of_ne hc]
        refine iff_of_false (fun hmem => ?_) fun hmem => hc (some.inj hmem.1).symm
        exact (hfree x (hi.lists.mem (Set.mem_univ c) hmem)).1 hx
    · rw [hout x hx, ← hi.mem_iff]
      by_cases hc : c = b
      · rw [hc, update_self, hnone]
        exact iff_of_false hx not_mem_nil
      · rw [update_of_ne hc]
  · intro p n hp
    obtain ⟨x, c, rfl, hx, hn, hm, hidx⟩ := hi.header p n hp
    refine ⟨x, c, rfl, ?_, hn, ?_, ?_⟩
    · rw [hout x (hold x c hx)]
      exact hx
    · rw [hhead x c hx x (le_refl _) (by omega), hm]
    · rw [hhead x c hx (x + 1) (by omega) (by omega), hidx]
  · exact .inr ⟨hpages.1.trans hpage, hpages.2.trans hbucket⟩
  · intro x c hx
    refine ⟨by rw [hout x (hold x c hx)]; exact hx, fun i hi1 hi2 => hhead x c hx i (by omega) hi2⟩
  · rw [hnextf, update_self]

end Inv

end Bsd386.Libc.Malloc
