import Bsd386.Lib.Transition
import Bsd386.Libc.Malloc.Calls

/-!
# The library allocator over whole runs

In every state that calls meeting `Meets` reach, live blocks are apart, in memory from `sbrk` and large
enough, the other blocks are on the free list of their bucket, and the next such call keeps the contents
(`heap_sound_of_reach`).

A `realloc` that needs more memory and does not get it has freed the block before, and returns `NULL`
(`not_heap_sound`).
-/

namespace Bsd386.Libc.Malloc

open Function Lib.Bytes Lib.Linked Lib.Transition

/-- The allocator, the first break, and the live blocks with the sizes they were asked for. -/
structure State where
  heap : Heap
  base : ℕ
  live : ℕ → Option ℕ

/-- A call, or a byte that the program stores in a block. -/
inductive Call where
  | malloc (g : Grants) (nbytes : ℕ)
  | realloc (g : Grants) (cp nbytes : ℕ)
  | free (cp : ℕ)
  | store (cp i : ℕ) (v : Byte)

/-- The block that a call is about. -/
def Call.block : Call → Option ℕ
  | .malloc _ _ => none
  | .realloc _ cp _ => some cp
  | .free cp => some cp
  | .store cp _ _ => some cp

namespace State

/-- The blocks that are live for the program when a call has returned an address. -/
def liveAfter (live : ℕ → Option ℕ) (cp res nbytes : ℕ) : ℕ → Option ℕ :=
  if res = 0 then live else update (update live cp none) res (some nbytes)

def exec (s : State) : Call → State
  | .malloc g nbytes =>
    let r := s.heap.malloc g nbytes
    ⟨r.2, s.base, liveAfter s.live 0 r.1 nbytes⟩
  | .realloc g cp nbytes =>
    let r := s.heap.realloc g cp nbytes
    ⟨r.2, s.base, liveAfter s.live cp r.1 nbytes⟩
  | .free cp => ⟨s.heap.free cp, s.base, update s.live cp none⟩
  | .store cp i v => ⟨{ s.heap with mem := set8 s.heap.mem (cp + i) v }, s.base, s.live⟩

/-- Sizes are `size_t`; blocks given to `realloc` and `free` are live or null; the program stores what it has
asked for. -/
def Allowed (s : State) : Call → Prop
  | .malloc _ nbytes => nbytes < 2 ^ 32
  | .realloc _ cp nbytes => nbytes < 2 ^ 32 ∧ (cp = 0 ∨ s.live cp ≠ none)
  | .free cp => cp = 0 ∨ s.live cp ≠ none
  | .store cp i _ => ∃ n, s.live cp = some n ∧ i < n

def IsInitial (s : State) : Prop := ∃ mem brk, 0 < brk ∧ brk < 2 ^ 32 ∧
  s = ⟨⟨mem, fun _ => 0, 0, 0, brk, fun _ => none⟩, brk, fun _ => none⟩

def Next (P : Heap → Call → Prop) (s s' : State) : Prop :=
  ∃ call, s.Allowed call ∧ P s.heap call ∧ s' = s.exec call

end State

/-- When a call keeps the blocks: the first `malloc` is granted what aligns the break, and `realloc` leaves
the block in its place or finds another one, the one it frees included. -/
def Meets (h : Heap) : Call → Prop
  | .malloc g _ => h.SetupOk g
  | .realloc g cp nbytes =>
    let i := (h.mem (cp - 4 + 1)).toNat
    if cp = 0 then h.SetupOk g
    else (nbytes ≤ h.onb i ∧ h.less i < nbytes) ∨ h.Obtainable g.more nbytes (some i)
  | .free _ => True
  | .store _ _ _ => True

/-- The allocator as it should be, for calls that meet a condition. -/
structure Sound (P : Heap → Call → Prop) (s : State) : Prop where
  /-- the blocks are in the memory that `sbrk` has returned. -/
  within : ∀ op b, s.heap.blk op = some b → s.base ≤ op ∧ op + len b ≤ s.heap.brk
  /-- and apart. -/
  apart : ∀ op b op' b', s.heap.blk op = some b → s.heap.blk op' = some b' → op ≠ op' →
    op + len b ≤ op' ∨ op' + len b' ≤ op
  /-- a live block is one of them, and large enough behind its header. -/
  room : ∀ p n, s.live p = some n → ∃ b, 4 ≤ p ∧ s.heap.blk (p - 4) = some b ∧ n + 4 ≤ len b
  /-- live blocks are disjoint. -/
  disjoint : ∀ p n q k, s.live p = some n → s.live q = some k → p ≠ q → p + n ≤ q ∨ q + k ≤ p
  /-- a block is not live exactly when it is on a free list, and then on one, once. -/
  lists : ∃ fl : ℕ → List ℕ,
    (∀ b, Linked (next s.heap.mem) (ptr (s.heap.nextf b)) (fl b) ∧ (fl b).Nodup) ∧
    (∀ b op, op ∈ fl b → s.heap.blk op = some b ∧ s.live (op + 4) = none) ∧
    ∀ op, s.heap.blk op ≠ none → s.live (op + 4) = none → ∃! b, op ∈ fl b
  /-- the next call does not touch the contents of other live blocks. -/
  kept : ∀ call, s.Allowed call → P s.heap call → ∀ p n, call.block ≠ some p → s.live p = some n →
    ∀ i < n, (s.exec call).heap.mem (p + i) = s.heap.mem (p + i)
  /-- `realloc` that returns a block preserves the contents. -/
  moved : ∀ g cp nbytes old, s.Allowed (.realloc g cp nbytes) → P s.heap (.realloc g cp nbytes) →
    s.live cp = some old → (s.heap.realloc g cp nbytes).1 ≠ 0 → ∀ i < min old nbytes,
      (s.heap.realloc g cp nbytes).2.mem ((s.heap.realloc g cp nbytes).1 + i) = s.heap.mem (cp + i)
  /-- `realloc` that returns `NULL` leaves the block as it is. -/
  null : ∀ g cp nbytes old, s.Allowed (.realloc g cp nbytes) → P s.heap (.realloc g cp nbytes) →
    s.live cp = some old → (s.heap.realloc g cp nbytes).1 = 0 →
      (s.heap.realloc g cp nbytes).2.mem (cp - 4) = magic ∧
        ∀ i < old, (s.heap.realloc g cp nbytes).2.mem (cp + i) = s.heap.mem (cp + i)

variable {h : Heap} {s s' : State} {base : ℕ} {live : ℕ → Option ℕ} {fl : ℕ → List ℕ} {g : Grants}
  {call : Call}

namespace Inv

section

variable (hi : Inv h base live fl)
include hi

theorem live_zero : live 0 = none := by
  by_contra hne
  obtain ⟨n, hn⟩ := Option.ne_none_iff_exists'.mp hne
  obtain ⟨op, b, heq, -⟩ := hi.header 0 n hn
  omega

theorem disjoint {p n q k : ℕ} (hp : live p = some n) (hq : live q = some k) (hne : p ≠ q) :
    p + n ≤ q ∨ q + k ≤ p := by
  obtain ⟨b, hb, -, hpadd, hn, -, -⟩ := hi.live_block hp
  obtain ⟨c, hc, -, hqadd, hk, -, -⟩ := hi.live_block hq
  have hne' : p - 4 ≠ q - 4 := by omega
  rcases hi.blocks.apart _ b _ c hb hc hne' with h | h <;> omega

theorem kept {h' : Heap} (hdata : SameData h h') {p n i : ℕ} (hp : live p = some n) (hin : i < n) :
    h'.mem (p + i) = h.mem (p + i) := by
  obtain ⟨b, hb, -, hpadd, hn, -, -⟩ := hi.live_block hp
  exact (hdata (p - 4) b hb).2 (p + i) (by omega) (by omega)

theorem malloc_live (hok : h.SetupOk g) (nbytes : ℕ) :
    SameData h (h.malloc g nbytes).2 ∧ ∃ fl', Inv (h.malloc g nbytes).2 base
      (State.liveAfter live 0 (h.malloc g nbytes).1 nbytes) fl' := by
  have hzero : update live 0 none = live := by
    rw [Function.update_eq_self_iff, hi.live_zero]
  obtain ⟨hdata, ⟨hnull, hinv⟩ | ⟨hne, -, hinv⟩⟩ := hi.malloc (n := nbytes) hok
  · refine ⟨hdata, ?_⟩
    rw [State.liveAfter, if_pos hnull]
    exact hinv
  · refine ⟨hdata, ?_⟩
    rw [State.liveAfter, if_neg hne, hzero]
    exact hinv

theorem realloc {cp old nbytes : ℕ} (hp : live cp = some old) (hmeets : Meets h (.realloc g cp nbytes)) :
    (h.realloc g cp nbytes).1 ≠ 0 ∧
      (∃ fl', Inv (h.realloc g cp nbytes).2 base
        (State.liveAfter live cp (h.realloc g cp nbytes).1 nbytes) fl') ∧
      (∀ i < min old nbytes,
        (h.realloc g cp nbytes).2.mem ((h.realloc g cp nbytes).1 + i) = h.mem (cp + i)) ∧
      ∀ q k, q ≠ cp → live q = some k → ∀ i < k,
        (h.realloc g cp nbytes).2.mem (q + i) = h.mem (q + i) := by
  obtain ⟨b, hb, hcp, -, -, hmag, hidx⟩ := hi.live_block hp
  have hcp0 : cp ≠ 0 := by omega
  have hpage : h.pagesz = getpagesize := by
    rcases hi.pages with ⟨-, hblk⟩ | ⟨hpage, -⟩
    · exact absurd ((hi.live_eq_none hblk cp).symm.trans hp) nofun
    · exact hpage
  have honb := onb_eq (h := h) hpage (hi.blocks.small _ _ hb)
  rw [Meets, hidx] at hmeets
  rw [if_neg hcp0] at hmeets
  have hrun : h.realloc g cp nbytes = if nbytes ≤ h.onb b ∧ h.less b < nbytes then (cp, h)
      else (h.free cp).move g cp nbytes (h.onb b) := by
    rw [Heap.realloc, if_neg hcp0, if_pos hmag, hidx]
  by_cases hstay : nbytes ≤ h.onb b ∧ h.less b < nbytes
  · have hlive : State.liveAfter live cp cp nbytes = update live cp (some nbytes) := by
      rw [State.liveAfter, if_neg hcp0, update_idem]
    rw [hrun, if_pos hstay]
    refine ⟨hcp0, ⟨fl, ?_⟩, fun _ _ => rfl, fun _ _ _ _ _ _ => rfl⟩
    rw [hlive]
    exact hi.resize hp hb (by omega)
  · obtain ⟨p, h', hmove, hne, -, ⟨fl', hi'⟩, hmoved, hkept⟩ := hi.move hp hb (hmeets.resolve_left hstay)
    rw [hrun, if_neg hstay, hmove]
    refine ⟨hne, ⟨fl', ?_⟩, hmoved, hkept⟩
    rw [State.liveAfter, if_neg hne]
    exact hi'

end

theorem step (hi : Inv s.heap s.base s.live fl) (hallowed : s.Allowed call) (hmeets : Meets s.heap call) :
    (∃ fl', Inv (s.exec call).heap (s.exec call).base (s.exec call).live fl') ∧
      ∀ p n, call.block ≠ some p → s.live p = some n →
        ∀ i < n, (s.exec call).heap.mem (p + i) = s.heap.mem (p + i) := by
  cases call with
  | malloc g nbytes =>
    obtain ⟨hdata, hinv⟩ := hi.malloc_live hmeets nbytes
    exact ⟨hinv, fun p n _ hp i hin => hi.kept hdata hp hin⟩
  | realloc g cp nbytes =>
    by_cases hcp : cp = 0
    · subst hcp
      have hok : s.heap.SetupOk g := hmeets
      obtain ⟨hdata, hinv⟩ := hi.malloc_live hok nbytes
      have hrun : s.exec (.realloc g 0 nbytes) = s.exec (.malloc g nbytes) := by
        rw [State.exec, State.exec, Heap.realloc, if_pos rfl]
      rw [hrun]
      exact ⟨hinv, fun p n _ hp i hin => hi.kept hdata hp hin⟩
    · obtain ⟨old, hold⟩ := Option.ne_none_iff_exists'.mp (hallowed.2.resolve_left hcp)
      obtain ⟨-, hinv, -, hkept⟩ := hi.realloc hold hmeets
      exact ⟨hinv, fun p n hne hp => hkept p n (fun heq => hne (by rw [heq]; rfl)) hp⟩
  | free cp =>
    by_cases hcp : cp = 0
    · subst hcp
      have hrun : s.exec (.free 0) = s := by
        have hzero : update s.live 0 none = s.live := by
          rw [Function.update_eq_self_iff, hi.live_zero]
        rw [State.exec, Heap.free, if_pos rfl, hzero]
      rw [hrun]
      exact ⟨⟨fl, hi⟩, fun _ _ _ _ _ _ => rfl⟩
    · obtain ⟨old, hold⟩ := Option.ne_none_iff_exists'.mp (hallowed.resolve_left hcp)
      obtain ⟨hinv, hdata⟩ := hi.free hold
      exact ⟨hinv, fun p n _ hp i hin => hi.kept hdata hp hin⟩
  | store cp i v =>
    obtain ⟨n, hn, hin⟩ := hallowed
    obtain ⟨b, hb, -, hcpadd, hroom, -, -⟩ := hi.live_block hn
    refine ⟨⟨fl, hi.data hb fun j hj => set8_apply_of_ne v (by omega)⟩, fun p k hne hp j hj => ?_⟩
    have hpcp : p ≠ cp := fun heq => hne (by rw [heq]; rfl)
    refine set8_apply_of_ne v ?_
    rcases hi.disjoint hp hn hpcp with h | h <;> omega

theorem sound (hi : Inv s.heap s.base s.live fl) : Sound Meets s := by
  refine ⟨hi.blocks.within, hi.blocks.apart, ?_, ?_, ⟨fl, ?_, ?_, ?_⟩, ?_, ?_, ?_⟩
  · intro p n hp
    obtain ⟨b, hb, hlt, -, hn, -, -⟩ := hi.live_block hp
    exact ⟨b, hlt.le, hb, hn⟩
  · exact fun p n q k hp hq hne => hi.disjoint hp hq hne
  · exact fun b => ⟨hi.lists.linked (Set.mem_univ b), (hi.lists.linked (Set.mem_univ b)).nodup⟩
  · exact fun b op hop => (hi.mem_iff b op).mp hop
  · intro op hop hlive
    obtain ⟨b, hb⟩ := Option.ne_none_iff_exists'.mp hop
    refine ⟨b, (hi.mem_iff b op).mpr ⟨hb, hlive⟩, fun c hc => ?_⟩
    exact Option.some.inj (((hi.mem_iff c op).mp hc).1.symm.trans hb)
  · exact fun call hallowed hmeets => (hi.step hallowed hmeets).2
  · exact fun g cp nbytes old _ hmeets hold _ => (hi.realloc hold hmeets).2.2.1
  · exact fun g cp nbytes old _ hmeets hold hnull => absurd hnull (hi.realloc hold hmeets).1

end Inv

theorem inv_of_reach (h : Reach State.IsInitial (State.Next Meets) s) :
    ∃ fl, Inv s.heap s.base s.live fl := by
  refine h.invariant (I := fun s => ∃ fl, Inv s.heap s.base s.live fl) (fun s hs => ?_)
    fun s s' _ ⟨fl, hi⟩ hnext => ?_
  · obtain ⟨mem, brk, hpos, hlt, rfl⟩ := hs
    refine ⟨fun _ => [], ⟨hpos, le_refl _, hlt, ?_, ?_, ?_⟩, ⟨?_, ?_, ?_⟩, ?_, ?_, .inl ⟨rfl, rfl⟩⟩
    · exact fun op b hb => absurd hb nofun
    · exact fun op b hb => absurd hb nofun
    · exact fun op b op' b' hb => absurd hb nofun
    · exact fun _ => rfl
    · exact fun _ _ hm => absurd hm List.not_mem_nil
    · exact fun _ hm => absurd hm List.not_mem_nil
    · exact fun b op => iff_of_false List.not_mem_nil fun hop => absurd hop.1 nofun
    · exact fun p n hp => absurd hp nofun
  · obtain ⟨call, hallowed, hmeets, rfl⟩ := hnext
    exact (hi.step hallowed hmeets).1

/-- **The allocator's invariant.** In every state reached by calls that meet the condition, blocks and free
lists are as they should be, and the next such call keeps the contents. Kind: P. -/
theorem heap_sound_of_reach (h : Reach State.IsInitial (State.Next Meets) s) : Sound Meets s := by
  obtain ⟨fl, hi⟩ := inv_of_reach h
  exact hi.sound

/-- A process with its break at the end of a page. -/
def boot : State := ⟨⟨fun _ => 0, fun _ => 0, 0, 0, 4096, fun _ => none⟩, 4096, fun _ => none⟩

/-- The system grants what is asked for. Source: sbrk.s -/
def yes : Grants := ⟨true, true⟩

/-- A block that is allocated. Source: malloc. Kind: C -/
theorem heap_sound_malloc : ∃ s, Sound Meets s ∧ s.live 8192 = some 3000 := by
  have hnext : State.Next Meets boot (boot.exec (.malloc yes 3000)) := by
    refine ⟨.malloc yes 3000, ?_, fun _ => .inr ⟨rfl, ?_⟩, rfl⟩
    · rw [State.Allowed]
      decide
    · decide
  have hreach : Reach State.IsInitial (State.Next Meets) (boot.exec (.malloc yes 3000)) :=
    .step (.start ⟨fun _ => 0, 4096, by decide, by decide, rfl⟩) hnext
  exact ⟨_, heap_sound_of_reach hreach, by decide⟩

/-- A block that `realloc` loses. Source: realloc. Kind: C -/
theorem not_heap_sound : ¬ ∀ s, Reach State.IsInitial (State.Next fun _ _ => True) s →
    Sound (fun _ _ => True) s := by
  intro h
  obtain ⟨s1, hs1⟩ : ∃ s1, s1 = boot.exec (.malloc yes 3000) := ⟨_, rfl⟩
  obtain ⟨s2, hs2⟩ : ∃ s2, s2 = s1.exec (.realloc ⟨true, false⟩ 8192 10000) := ⟨_, rfl⟩
  have hmalloc : State.Next (fun _ _ => True) boot s1 := by
    refine ⟨.malloc yes 3000, ?_, trivial, hs1⟩
    rw [State.Allowed]
    decide
  have hrealloc : State.Next (fun _ _ => True) s1 s2 := by
    refine ⟨.realloc ⟨true, false⟩ 8192 10000, ⟨by decide, .inr ?_⟩, trivial, hs2⟩
    rw [hs1]
    decide
  have hreach : Reach State.IsInitial (State.Next fun _ _ => True) s2 :=
    .step (.step (.start ⟨fun _ => 0, 4096, by decide, by decide, rfl⟩) hmalloc) hrealloc
  obtain ⟨fl, hlinked, hfree, -⟩ := (h s2 hreach).lists
  -- the program still has the block, and it is on the free list
  have hlive : s2.live 8192 = some 3000 := by
    rw [hs2, hs1]
    decide
  have hhead : ptr (s2.heap.nextf 9) = some 8188 := by
    rw [hs2, hs1]
    decide
  have heq := (hlinked 9).1.head_eq
  rw [hhead] at heq
  have hnone := (hfree 9 8188 (List.mem_of_head? heq.symm)).2
  exact absurd (hlive.symm.trans hnone) nofun

end Bsd386.Libc.Malloc
