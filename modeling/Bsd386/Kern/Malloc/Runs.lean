import Bsd386.Lib.Transition
import Bsd386.Kern.Malloc.Calls

/-!
# The kernel allocator over whole runs

Any number of calls of `malloc` are under way, each at one of its sleep points, and go on in any order. In
every state that is reached, live blocks are apart and large enough, the free lists hold the free chunks of
their buckets, and the counters count (`kmem_sound_of_reach`).

`malloc` lets the type `M_LAST` pass, which has no place in `kmemstats` (`not_kmem_sound`).
-/

namespace Bsd386.Kern.Malloc

open Function Lib.Linked Lib.Transition Option

/-- The sleep points. Source: malloc -/
inductive Point where
  | again
  | kmem
deriving DecidableEq

/-- The allocator, its live blocks with what was asked for, and the calls under way. -/
structure State where
  kern : Kern
  live : Finset ℕ
  req : ℕ → Block
  calls : ℕ → Option (Caller × Point)
  fault : Bool

/-- A process calls `malloc`, goes on at `again` or behind `kmem_malloc` (`p` is the first cluster of what it
gives), frees a block or stores a word in one. -/
inductive Step where
  | call (pid : ℕ) (c : Caller)
  | again (pid : ℕ)
  | kmem (pid : ℕ) (p : Option ℕ)
  | free (addr : ℕ)
  | store (addr i v : ℕ)

namespace State

/-- A call is put where its part has led it; there is no state behind a panic.
Source: malloc -/
def settle (s : State) (pid : ℕ) (c : Caller) : Result × Kern → Option State
  | (.again, k) => some { s with kern := k, calls := update s.calls pid (some (c, .again)) }
  | (.kmem, k) => some { s with kern := k, calls := update s.calls pid (some (c, .kmem)) }
  | (.ret va, k) =>
    let s' := { s with kern := k, calls := update s.calls pid none }
    some (if va = 0 then s' else { s' with
      live := insert va s.live
      req := update s.req va ⟨c.size, c.type⟩ })
  | (.panic, _) => none
  | (.fault, k) => some { s with kern := k, fault := true }

def exec (s : State) : Step → Option State
  | .call pid c =>
    if mLast < c.type then none
    else some { s with calls := update s.calls pid (some (c, .again)) }
  | .again pid => (s.calls pid).bind fun (c, _) => s.settle pid c (s.kern.again c)
  | .kmem pid p => (s.calls pid).bind fun (c, _) => s.settle pid c (s.kern.kmem c p)
  | .free addr => some { s with
      kern := s.kern.free addr (s.req addr).type
      live := s.live.erase addr }
  | .store addr i v => some { s with
      kern := { s.kern with word := update s.kern.word (addr + i) v } }

/-- A process has one call under way; sizes are `unsigned long`; `kmem_malloc` gives fresh memory; live blocks
are freed, and stored in as far as they were asked for. -/
def Allowed (s : State) : Step → Prop
  | .call pid c => s.calls pid = none ∧ c.size < 2 ^ 32
  | .again pid => ∃ c, s.calls pid = some (c, .again)
  | .kmem pid p => ∃ c, s.calls pid = some (c, .kmem) ∧ ∀ p', p = some p' → s.kern.Fresh p' c.npg
  | .free addr => addr ∈ s.live
  | .store addr i _ => addr ∈ s.live ∧ i < (s.req addr).size

/-- After `kmeminit`. Source: kmeminit -/
def IsInitial (s : State) : Prop := ∃ word kmembase kmemsize bufmap maxbufmem,
  0 < kmembase ∧ clbytes ∣ kmembase ∧ kmembase + kmemsize ≤ 2 ^ 32 ∧ kmemsize < 2 ^ 31 ∧
    s = ⟨Kern.kmeminit word kmembase kmemsize bufmap maxbufmem, ∅, fun _ => ⟨0, 0⟩, fun _ => none, false⟩

def Next (P : Step → Prop) (s s' : State) : Prop :=
  ∃ step, s.fault = false ∧ s.Allowed step ∧ P step ∧ s.exec step = some s'

end State

/-- A call does not have the type `M_LAST`. Source: malloc -/
def Meets : Step → Prop
  | .call _ c => c.type ≠ mLast
  | _ => True

/-- The allocator as it should be. -/
structure Sound (s : State) : Prop where
  /-- no access beyond an array. -/
  safe : s.fault = false
  /-- a live block is a chunk of a bucket, in `kmem_map`. -/
  within : ∀ a ∈ s.live, (∃ i, a ∈ s.kern.chunks i) ∧ s.kern.kmembase ≤ a ∧
    a + s.kern.sizeOf a ≤ s.kern.kmembase + s.kern.kmemsize
  /-- live blocks are disjoint. -/
  disjoint : ∀ a ∈ s.live, ∀ b ∈ s.live, a < b → a + s.kern.sizeOf a ≤ b
  /-- and large enough. -/
  room : ∀ a ∈ s.live, (s.req a).size ≤ s.kern.sizeOf a
  /-- the list of a bucket holds its free chunks, each once, and no live one. -/
  lists : ∃ fl : ℕ → List ℕ, ∀ i, Linked s.kern.next (s.kern.head i) (fl i) ∧ (fl i).Nodup ∧
    ∀ a, a ∈ fl i ↔ a ∈ s.kern.chunks i ∧ a ∉ s.live
  /-- `ku_freecnt` is the number of the free chunks of a page. -/
  freecnt : ∀ p ∈ s.kern.areas, 2 ^ s.kern.idx p < clbytes →
    (s.kern.usage p).kuCnt = (s.kern.slots p \ s.live).card
  /-- `kb_total` and `kb_totalfree` count the chunks and the free chunks. -/
  total : ∀ i, (s.kern.bucket i).kbTotal = (s.kern.chunks i).card
  totalfree : ∀ i, (s.kern.bucket i).kbTotalfree = (s.kern.chunks i \ s.live).card
  /-- `ks_memuse` and `ks_inuse` are the bytes and the number of the live blocks of a type. -/
  memuse : ∀ t, (s.kern.stats t).ksMemuse = (∑ a ∈ ofType s.live s.req t, s.kern.sizeOf a : ℕ)
  inuse : ∀ t, (s.kern.stats t).ksInuse = (ofType s.live s.req t).card

variable {s s' : State} {e : Step}

/-- The invariant of a run. -/
structure Good (s : State) : Prop where
  safe : s.fault = false
  inv : ∃ fl, Inv s.kern s.live s.req fl
  calls : ∀ pid c pt, s.calls pid = some (c, pt) → c.type < mLast ∧ c.size < 2 ^ 32

namespace Good

theorem calls_update {pid : ℕ} {x : Option (Caller × Point)} (h : Good s)
    (hx : ∀ c pt, x = some (c, pt) → c.type < mLast ∧ c.size < 2 ^ 32) :
    ∀ pid' c pt, update s.calls pid x pid' = some (c, pt) → c.type < mLast ∧ c.size < 2 ^ 32 := by
  intro pid' c pt hc
  by_cases hpid : pid' = pid
  · rw [hpid, update_self] at hc
    exact hx c pt hc
  · rw [update_of_ne hpid] at hc
    exact h.calls pid' c pt hc

theorem settle {pid : ℕ} {c : Caller} {r : Result × Kern} (h : Good s) (hc : c.type < mLast ∧ c.size < 2 ^ 32)
    (hafter : After s.live s.req c r) (hs : s.settle pid c r = some s') : Good s' := by
  obtain ⟨r, k⟩ := r
  have hsome : ∀ (pt : Point) (c' : Caller) (pt' : Point), some (c, pt) = some (c', pt') → c'.type < mLast ∧ c'.size < 2 ^ 32 := by
    rintro pt c' pt' heq
    obtain ⟨rfl, -⟩ := Prod.mk.inj (some.inj heq)
    exact hc
  cases r with
  | again =>
    obtain rfl := some.inj hs
    exact ⟨h.safe, hafter, h.calls_update (hsome _)⟩
  | kmem =>
    obtain rfl := some.inj hs
    exact ⟨h.safe, hafter, h.calls_update (hsome _)⟩
  | ret va =>
    obtain rfl := some.inj hs
    rcases hafter with ⟨hva, hinv⟩ | ⟨hva, -, hinv⟩
    · rw [if_pos hva]
      exact ⟨h.safe, hinv, h.calls_update fun _ _ heq => absurd heq nofun⟩
    · rw [if_neg hva]
      exact ⟨h.safe, hinv, h.calls_update fun _ _ heq => absurd heq nofun⟩
  | panic => exact absurd hs nofun
  | fault => exact hafter.elim

theorem step (h : Good s) (hallowed : s.Allowed e) (hmeets : Meets e) (hs : s.exec e = some s') : Good s' := by
  obtain ⟨fl, hinv⟩ := h.inv
  cases e with
  | call pid c =>
    rw [State.exec] at hs
    by_cases htype : mLast < c.type
    · rw [if_pos htype] at hs
      exact absurd hs nofun
    rw [if_neg htype] at hs
    obtain rfl := some.inj hs
    refine ⟨h.safe, h.inv, h.calls_update fun c' pt heq => ?_⟩
    obtain ⟨rfl, -⟩ := Prod.mk.inj (some.inj heq)
    exact ⟨lt_of_le_of_ne (not_lt.mp htype) hmeets, hallowed.2⟩
  | again pid =>
    obtain ⟨c, hc⟩ := hallowed
    rw [State.exec, hc] at hs
    have hcall := h.calls pid c .again hc
    exact h.settle hcall (hinv.after_again hcall.1) hs
  | kmem pid p =>
    obtain ⟨c, hc, hfresh⟩ := hallowed
    rw [State.exec, hc] at hs
    have hcall := h.calls pid c .kmem hc
    cases p with
    | none => exact h.settle hcall hinv.after_kmem_none hs
    | some p => exact h.settle hcall (hinv.after_kmem hcall.2 (hfresh p rfl)) hs
  | free addr =>
    obtain rfl := some.inj hs
    exact ⟨h.safe, hinv.free hallowed, h.calls⟩
  | store addr i v =>
    obtain rfl := some.inj hs
    exact ⟨h.safe, ⟨fl, hinv.store hallowed.1 hallowed.2 v⟩, h.calls⟩

theorem sound (h : Good s) : Sound s := by
  obtain ⟨fl, hinv⟩ := h.inv
  refine ⟨h.safe, fun a ha => ?_, fun a ha b hb hab => ?_, hinv.fits, ⟨fl, fun i => ?_⟩, fun p hp hlt => ?_,
    hinv.total, hinv.totalfree, fun t => (hinv.charged t).1, fun t => (hinv.charged t).2⟩
  · obtain ⟨i, hi⟩ := hinv.held a ha
    exact ⟨⟨i, hi⟩, hinv.layout.chunk_within hi⟩
  · obtain ⟨i, hi⟩ := hinv.held a ha
    obtain ⟨j, hj⟩ := hinv.held b hb
    exact hinv.layout.apart_of_lt hi hj hab
  · exact ⟨hinv.linked i, (hinv.linked i).nodup, fun a => hinv.mem⟩
  · refine hinv.cnt p hp ?_
    by_contra hle
    have hpow : 2 ^ 12 ≤ 2 ^ s.kern.idx p := Nat.pow_le_pow_right Nat.two_pos (show 12 ≤ s.kern.idx p by omega)
    exact absurd hlt (not_lt.mpr hpow)

end Good

theorem good_of_reach (h : Reach State.IsInitial (State.Next Meets) s) : Good s := by
  refine h.invariant (fun s hs => ?_) fun s s' _ hgood hnext => ?_
  · obtain ⟨word, kmembase, kmemsize, bufmap, maxbufmem, hbase, -, -, hsize, rfl⟩ := hs
    refine ⟨rfl, ⟨fun _ => [], Inv.kmeminit word bufmap maxbufmem hbase hsize⟩, fun pid c pt hc => absurd hc nofun⟩
  · obtain ⟨step, -, hallowed, hmeets, hs⟩ := hnext
    exact hgood.step hallowed hmeets hs

/-- **The allocator's invariant.** In every state reached by calls with types below `M_LAST`, blocks, free
lists and counters are as they should be. Kind: P. -/
theorem kmem_sound_of_reach (h : Reach State.IsInitial (State.Next Meets) s) : Sound s :=
  (good_of_reach h).sound

/-- A kernel with a megabyte for the allocator. Source: kmeminit -/
def boot : State :=
  ⟨Kern.kmeminit (fun _ => 0) 4096 1048576 0 0, ∅, fun _ => ⟨0, 0⟩, fun _ => none, false⟩

theorem boot_initial : boot.IsInitial :=
  ⟨fun _ => 0, 4096, 1048576, 0, 0, by decide, by decide, by decide, by decide, rfl⟩

/-- A page that is allocated. Source: malloc. Kind: C -/
theorem kmem_sound_malloc : ∃ s, Sound s ∧ s.live = {4096} := by
  obtain ⟨c, hc⟩ : ∃ c : Caller, c = ⟨4000, 3, .waitok⟩ := ⟨_, rfl⟩
  have hcall : boot.exec (.call 1 c) = some { boot with
      calls := update boot.calls 1 (some (c, .again)) } := by
    subst hc
    rfl
  obtain ⟨s1, hs1⟩ : ∃ s1 : State, s1 = { boot with
      calls := update boot.calls 1 (some (c, .again)) } := ⟨_, rfl⟩
  have hc1 : s1.calls 1 = some (c, .again) := by
    rw [hs1]
    rfl
  obtain ⟨s2, hs2⟩ : ∃ s2 : State, s2 = { s1 with calls := update s1.calls 1 (some (c, .kmem)) } := ⟨_, rfl⟩
  have hagain : s1.exec (.again 1) = some s2 := by
    have hres : s1.kern.again c = (.kmem, s1.kern) := by
      subst hs1 hc
      rfl
    rw [State.exec, hc1, bind_some, hs2]
    exact congrArg (s1.settle 1 c) hres
  have hc2 : s2.calls 1 = some (c, .kmem) := by
    rw [hs2]
    rfl
  obtain ⟨s3, hs3, hlive⟩ : ∃ s3, s2.exec (.kmem 1 (some 0)) = some s3 ∧ s3.live = {4096} := by
    have hret : (s2.kern.kmem c (some 0)).1 = .ret 4096 := by
      subst hs2 hs1 hc
      decide +kernel
    obtain ⟨k, hk⟩ : ∃ k, s2.kern.kmem c (some 0) = (.ret 4096, k) := ⟨_, Prod.ext hret rfl⟩
    have hempty : s2.live = ∅ := by rw [hs2, hs1]; rfl
    have hexec : s2.exec (.kmem 1 (some 0)) = s2.settle 1 c (.ret 4096, k) := by
      rw [State.exec, hc2, bind_some]
      exact congrArg (s2.settle 1 c) hk
    refine ⟨_, hexec, ?_⟩
    rw [hempty]
    rfl
  have hfresh : s2.kern.Fresh 0 c.npg := by
    subst hs2 hs1 hc
    exact ⟨by decide, by decide, fun _ _ _ => rfl⟩
  have hmeets : Meets (.call 1 c) := by
    subst hc
    exact (by decide : (3 : ℕ) ≠ mLast)
  have hreach : Reach State.IsInitial (State.Next Meets) s3 := by
    refine .step (.step (.step (.start boot_initial) (t := s1) ⟨.call 1 c, rfl, ⟨rfl, ?_⟩, hmeets, ?_⟩) (t := s2)
      ⟨.again 1, ?_, ⟨c, hc1⟩, trivial, hagain⟩) ⟨.kmem 1 (some 0), ?_, ⟨c, hc2, fun p' hp' => ?_⟩, trivial, hs3⟩
    · rw [hc]
      decide
    · rw [hcall, hs1]
    · rw [hs1]
      rfl
    · rw [hs2, hs1]
      rfl
    · obtain rfl := some.inj hp'
      exact hfresh
  exact ⟨s3, kmem_sound_of_reach hreach, hlive⟩

/-- A call with the type `M_LAST`. Source: malloc. Kind: C -/
theorem not_kmem_sound : ¬ ∀ s, Reach State.IsInitial (State.Next fun _ => True) s → Sound s := by
  intro h
  obtain ⟨c, hc⟩ : ∃ c : Caller, c = ⟨16, 53, .waitok⟩ := ⟨_, rfl⟩
  obtain ⟨s1, hs1⟩ : ∃ s1 : State, s1 = { boot with
      calls := update boot.calls 1 (some (c, .again)) } := ⟨_, rfl⟩
  have hc1 : s1.calls 1 = some (c, .again) := by
    rw [hs1]
    rfl
  have hcall : boot.exec (.call 1 c) = some s1 := by
    subst hs1 hc
    rfl
  have hagain : s1.exec (.again 1) = some { s1 with fault := true } := by
    subst hs1 hc
    rfl
  have hreach : Reach State.IsInitial (State.Next fun _ => True) { s1 with fault := true } := by
    refine .step (.step (.start boot_initial) ⟨.call 1 c, rfl, ⟨rfl, ?_⟩, trivial, hcall⟩)
      ⟨.again 1, ?_, ⟨c, hc1⟩, trivial, hagain⟩
    · rw [hc]
      decide
    · rw [hs1]
      rfl
  exact absurd (h _ hreach).safe nofun

end Bsd386.Kern.Malloc
