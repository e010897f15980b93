import Bsd386.Lib.Transition
import Bsd386.Db.Mpool.Chains

/-!
# The page pool as a transparent cache

Next to the pool a `State` keeps what the pool stands for, the bytes last left in each page that
`mpool_new` returned (`ideal`), and its history: which buckets have been modified since they were put
(`touched`), which of them `mpool_sync` has left in the output format (`stale`), and which pages have been
written since `mpool_new` (`written`).

`Inv` relates the two: a bucket that is not stale shows the bytes of its page, and the file has the filtered
bytes of each page that is not in the cache or clean there, once it has been written. Every call keeps it
under `Meets`, and so `mpool_get` shows the bytes last left in the page (`shown_of_reach`).
-/

namespace Bsd386.Db.Mpool

open Function Lib.Transition List Option

variable {ps : ℕ}

/-! ## States and calls -/

/-- A pool with its history. -/
structure State (ps : ℕ) where
  m : Mpool ps
  ideal : ℕ → Option (Page ps)
  touched : ℕ → Prop
  stale : ℕ → Prop
  written : ℕ → Prop

/-- The calls, and a modification of the page in a bucket; `memory` is what `malloc` gives if it is called. -/
inductive Op (ps : ℕ) where
  | new (memory : Option (Page ps))
  | get (pgno : ℕ) (memory : Option (Page ps))
  | modify (b : ℕ) (page : Page ps)
  | put (b : ℕ) (dirty : Bool)
  | sync

/-- The page that `mpool_bkt` writes. Source: mpool_bkt -/
def Flushes (m : Mpool ps) (p : ℕ) : Prop :=
  ∃ v, victim m = some v ∧ (m.bkt v).dirty = true ∧ (m.bkt v).pgno = p

/-- A page is read into the bucket. Source: mpool_get -/
def Misses (f : Filters ps) (m : Mpool ps) (pgno : ℕ) (memory : Option (Page ps)) (b : ℕ) : Prop :=
  mpoolLook m pgno = none ∧ (mpoolGet f m pgno memory).1 = some b

def step (f : Filters ps) (s : State ps) : Op ps → State ps
  | .new memory =>
    let written := fun p => s.written p ∨ Flushes s.m p
    match mpoolNew f s.m memory with
    | (none, m) => { s with m := m, written := written }
    | (some b, m) =>
      { m := m
        ideal := update s.ideal s.m.npages (some (m.bkt b).page)
        touched := fun b' => s.touched b' ∧ b' ≠ b
        stale := fun b' => s.stale b' ∧ b' ≠ b
        written := fun p => written p ∧ p ≠ s.m.npages }
  | .get pgno memory =>
    { s with
      m := (mpoolGet f s.m pgno memory).2
      touched := fun b => s.touched b ∧ ¬Misses f s.m pgno memory b
      stale := fun b => s.stale b ∧ ¬Misses f s.m pgno memory b
      written := fun p =>
        s.written p ∨ (mpoolLook s.m pgno = none ∧ pgno < s.m.npages ∧ Flushes s.m p) }
  | .modify b page =>
    { s with
      m := s.m.setBkt b { s.m.bkt b with page := page }
      ideal := update s.ideal (s.m.bkt b).pgno ((s.ideal (s.m.bkt b).pgno).map fun _ => page)
      touched := fun b' => s.touched b' ∨ b' = b
      stale := fun b' => s.stale b' ∧ b' ≠ b }
  | .put b dirty =>
    { s with
      m := mpoolPut s.m b dirty
      touched := fun b' => s.touched b' ∧ b' ≠ b }
  | .sync =>
    { s with
      m := (mpoolSync f s.m).1
      stale := fun b => s.stale b ∨ (b ∈ s.m.lru ∧ (s.m.bkt b).dirty = true ∧
        (f.clean (s.m.bkt b)).page ≠ (s.m.bkt b).page)
      written := fun p => s.written p ∨
        ∃ b ∈ s.m.lru, (s.m.bkt b).dirty = true ∧ (s.m.bkt b).pgno = p }

/-- What the callers promise: a page is only modified while it is pinned, and put dirty after that. -/
def Promised (s : State ps) : Op ps → Prop
  | .modify b _ => b ∈ s.m.lru ∧ (s.m.bkt b).pinned = true
  | .put b dirty => b ∈ s.m.lru ∧ (s.touched b → dirty = true)
  | _ => True

/-- **The condition on a call.** `mpool_get` finds no page in the cache that `mpool_sync` has left in the
output format, nor is such a page put dirty; `mpool_get` does not read a page that has never been written;
and the offsets of new pages fit. -/
def Meets (s : State ps) : Op ps → Prop
  | .new _ => (s.m.npages + 1) * ps ≤ 2 ^ 31
  | .get pgno _ =>
    (∀ b, mpoolLook s.m pgno = some b → ¬s.stale b) ∧
      (mpoolLook s.m pgno = none → s.ideal pgno ≠ none → s.written pgno)
  | .put b dirty => dirty = true → ¬s.stale b
  | _ => True

/-- A pool that has been opened. Source: mpool_open -/
def Start (s : State ps) : Prop :=
  ∃ maxcache bkt file, file.size < 2 ^ 31 ∧
    s = ⟨mpoolOpen ps maxcache bkt file, fun _ => none, fun _ => False, fun _ => False, fun _ => False⟩

/-! ## The invariant -/

/-- **The pool and what it stands for.** -/
structure Inv (f : Filters ps) (s : State ps) : Prop where
  chained : Chained s.m
  ideal_lt : ∀ p, s.ideal p ≠ none → p < s.m.npages
  pinned : ∀ b ∈ s.m.lru, s.touched b → (s.m.bkt b).pinned = true
  clean : ∀ b ∈ s.m.lru, s.stale b → (s.m.bkt b).dirty = false
  shows : ∀ b ∈ s.m.lru, ∀ c, s.ideal (s.m.bkt b).pgno = some c → ¬s.stale b → (s.m.bkt b).page = c
  kept : ∀ p c, s.ideal p = some c → s.written p →
    (∀ b ∈ s.m.lru, (s.m.bkt b).pgno = p → (s.m.bkt b).dirty = false ∧ ¬s.touched b) →
      s.m.file.read ps (ps * p) = some (f.pgout p c)

section preservation

variable {f : Filters ps} {s : State ps}

theorem inv_start (hs : Start s) : Inv f s := by
  obtain ⟨maxcache, bkt, file, hsize, rfl⟩ := hs
  have hnil : ∀ b, b ∉ (mpoolOpen ps maxcache bkt file).lru := fun b => not_mem_nil
  exact {
    chained := {
      nodup := nodup_nil
      hashNodup := fun _ => nodup_nil
      hash := fun k b => ⟨fun h => absurd h not_mem_nil, fun h => absurd h.1 (hnil b)⟩
      unique := fun b hb => absurd hb (hnil b)
      bound := fun b hb => absurd hb (hnil b)
      pages := fun b hb => absurd hb (hnil b)
      fits := Nat.le_trans (Nat.div_mul_le_self _ _) (Nat.le_of_lt hsize) }
    ideal_lt := fun p hp => absurd rfl hp
    pinned := fun b hb => absurd hb (hnil b)
    clean := fun b hb => absurd hb (hnil b)
    shows := fun b hb => absurd hb (hnil b)
    kept := fun p c hp => absurd hp (some_ne_none c).symm }

section

variable (hi : Inv f s)
include hi

theorem Inv.congr {m : Mpool ps} (hlru : m.lru = s.m.lru) (hhash : m.hashtable = s.m.hashtable)
    (hbkt : ∀ b ∈ s.m.lru, m.bkt b = s.m.bkt b) (hcur : s.m.curcache ≤ m.curcache)
    (hnp : m.npages = s.m.npages) (hfile : m.file = s.m.file) :
    Inv f { s with m := m } where
  chained := hi.chained.congr hlru hhash (fun b hb => by rw [hbkt b hb]) hcur hnp
  ideal_lt := by
    intro p hp
    rw [hnp]
    exact hi.ideal_lt p hp
  pinned := by
    intro b hb
    rw [hlru] at hb
    rw [hbkt b hb]
    exact hi.pinned b hb
  clean := by
    intro b hb
    rw [hlru] at hb
    rw [hbkt b hb]
    exact hi.clean b hb
  shows := by
    intro b hb
    rw [hlru] at hb
    rw [hbkt b hb]
    exact hi.shows b hb
  kept := by
    intro p c hp hw hall
    rw [hfile]
    refine hi.kept p c hp hw fun b hb => ?_
    have hb' := hall b (by rw [hlru]; exact hb)
    rw [hbkt b hb] at hb'
    exact hb'

/-- **A bucket for a page**: it is taken off the chains when it was there, and its page is in the file. -/
theorem Inv.mpoolBkt (hps : 0 < ps) {memory : Option (Page ps)} {r : Option ℕ} {m : Mpool ps}
    (hr : mpoolBkt f s.m memory = (r, m)) :
    Inv f { s with m := m, written := fun p => s.written p ∨ Flushes s.m p } ∧ m.npages = s.m.npages ∧
      (∀ b ∈ m.lru, b ∈ s.m.lru ∧ m.bkt b = s.m.bkt b) ∧ (memory ≠ none → r ≠ none) ∧
        (∀ b, r = some b → b ∉ m.lru ∧ b < m.curcache) := by
  have hc := hi.chained
  cases hv : victim s.m with
  | none =>
    have hno : ∀ p, ¬Flushes s.m p := by
      rintro p ⟨v, hv', -⟩
      rw [hv] at hv'
      exact some_ne_none v hv'.symm
    have hwritten : (fun p => s.written p ∨ Flushes s.m p) = s.written :=
      funext fun p => propext ⟨fun h => h.resolve_right (hno p), Or.inl⟩
    unfold Mpool.mpoolBkt at hr
    rw [hv] at hr
    rw [hwritten]
    cases memory with
    | none =>
      obtain ⟨rfl, rfl⟩ := Prod.mk.inj hr
      exact ⟨hi, rfl, fun b hb => ⟨hb, rfl⟩, fun h => absurd rfl h, fun b hb => nomatch hb⟩
    | some junk =>
      obtain ⟨rfl, rfl⟩ := Prod.mk.inj hr
      have hne : ∀ b ∈ s.m.lru, b ≠ s.m.curcache := fun b hb => Nat.ne_of_lt (hc.bound b hb)
      have hbkt : ∀ b ∈ s.m.lru,
          (s.m.setBkt s.m.curcache { s.m.bkt s.m.curcache with page := junk }).bkt b = s.m.bkt b :=
        fun b hb => update_of_ne (hne b hb) _ _
      refine ⟨?_, rfl, fun b hb => ⟨hb, hbkt b hb⟩, fun _ => some_ne_none _, ?_⟩
      · exact hi.congr (m := { s.m.setBkt s.m.curcache { s.m.bkt s.m.curcache with page := junk } with
          curcache := s.m.curcache + 1 }) rfl rfl hbkt (Nat.le_succ _) rfl rfl
      · rintro b hb
        obtain rfl := some.inj hb
        exact ⟨fun hmem => hne _ hmem rfl, Nat.lt_succ_self _⟩
  | some v =>
    obtain ⟨hmem, hpin, m', hs, heq⟩ := hc.mpoolBkt_of_victim hps f hv memory
    rw [heq] at hr
    obtain ⟨rfl, rfl⟩ := Prod.mk.inj hr
    have hc' : Chained m' :=
      hc.congr hs.lru hs.hashtable (fun b _ => hs.pgno b) (Nat.le_of_eq hs.curcache.symm) hs.npages
    have hrest : ∀ b ∈ (m'.unlink v).lru, b ≠ v ∧ b ∈ s.m.lru ∧ (m'.unlink v).bkt b = s.m.bkt b := by
      intro b hb
      obtain ⟨hne, hb'⟩ := (hc'.nodup.mem_erase_iff).mp hb
      rw [hs.lru] at hb'
      exact ⟨hne, hb', hs.same b (Or.inl fun h => hne (mem_singleton.mp h))⟩
    have hflush : ∀ p, Flushes s.m p → (s.m.bkt v).dirty = true ∧ (s.m.bkt v).pgno = p := by
      rintro p ⟨v', hv', hd, hp⟩
      obtain rfl := some.inj (hv.symm.trans hv')
      exact ⟨hd, hp⟩
    refine ⟨?_, hs.npages, fun b hb => (hrest b hb).2, fun _ => some_ne_none _, ?_⟩
    · exact {
        chained := hc'.unlink v
        ideal_lt := by
          intro p hp
          change p < m'.npages
          rw [hs.npages]
          exact hi.ideal_lt p hp
        pinned := by
          intro b hb
          obtain ⟨-, hb', hbkt⟩ := hrest b hb
          rw [hbkt]
          exact hi.pinned b hb'
        clean := by
          intro b hb
          obtain ⟨-, hb', hbkt⟩ := hrest b hb
          rw [hbkt]
          exact hi.clean b hb'
        shows := by
          intro b hb
          obtain ⟨-, hb', hbkt⟩ := hrest b hb
          rw [hbkt]
          exact hi.shows b hb'
        kept := by
          intro p c hp hw hall
          change m'.file.read ps (ps * p) = _
          have hall' : ∀ b ∈ s.m.lru, b ≠ v → (s.m.bkt b).pgno = p →
              (s.m.bkt b).dirty = false ∧ ¬s.touched b := by
            intro b hb hne hpg
            have hb' : b ∈ (m'.unlink v).lru := by
              refine (hc'.nodup.mem_erase_iff).mpr ⟨hne, ?_⟩
              rw [hs.lru]
              exact hb
            have hbkt := (hrest b hb').2.2
            have hcl := hall b hb' (by rw [hbkt]; exact hpg)
            rw [hbkt] at hcl
            exact hcl
          by_cases hpv : (s.m.bkt v).pgno = p
          · cases hd : (s.m.bkt v).dirty with
            | true =>
              -- the page has just been written
              have hst : ¬s.stale v := fun h => by
                rw [hi.clean v hmem h] at hd
                exact absurd hd (by decide)
              have hshow := hi.shows v hmem c (by rw [hpv]; exact hp) hst
              rw [← hpv, (hs.done v (mem_singleton.mpr rfl) hd).2]
              unfold Filters.clean
              rw [hshow]
            | false =>
              have hw' : s.written p := hw.resolve_right fun h => by
                rw [(hflush p h).1] at hd
                exact absurd hd (by decide)
              refine hs.kept p _ (fun b hb hdb => ?_) (hi.kept p c hp hw' fun b hb hpg => ?_)
              · rw [mem_singleton.mp hb, hd] at hdb
                exact absurd hdb (by decide)
              · by_cases hbv : b = v
                · subst hbv
                  refine ⟨hd, fun ht => ?_⟩
                  rw [hi.pinned b hb ht] at hpin
                  exact absurd hpin (by decide)
                · exact hall' b hb hbv hpg
          · have hw' : s.written p := hw.resolve_right fun h => hpv (hflush p h).2
            refine hs.kept p _ (fun b hb _ => ?_) (hi.kept p c hp hw' fun b hb hpg => ?_)
            · rw [mem_singleton.mp hb]
              exact hpv
            · refine hall' b hb ?_ hpg
              rintro rfl
              exact hpv hpg }
    · rintro b hb
      obtain rfl := some.inj hb
      refine ⟨fun h => (hrest _ h).1 rfl, ?_⟩
      change v < m'.curcache
      rw [hs.curcache]
      exact hc.bound v hmem

theorem Inv.fill {b : ℕ} (hb : b ∉ s.m.lru) (hcur : b < s.m.curcache) (bp : Bkt ps)
    (hlt : bp.pgno < s.m.npages) (hnew : ∀ b' ∈ s.m.lru, (s.m.bkt b').pgno ≠ bp.pgno)
    (hpage : ∀ c, s.ideal bp.pgno = some c → bp.page = c) :
    Inv f { s with
      m := (s.m.setBkt b bp).link b
      touched := fun b' => s.touched b' ∧ b' ≠ b
      stale := fun b' => s.stale b' ∧ b' ≠ b } := by
  have hself : ((s.m.setBkt b bp).link b).bkt b = bp := update_self _ _ _
  have hother : ∀ b' ∈ s.m.lru, b' ≠ b ∧ ((s.m.setBkt b bp).link b).bkt b' = s.m.bkt b' := by
    intro b' hb'
    have hne : b' ≠ b := fun heq => hb (heq ▸ hb')
    exact ⟨hne, update_of_ne hne _ _⟩
  have hmem : ∀ b', b' ∈ ((s.m.setBkt b bp).link b).lru ↔ b' = b ∨ b' ∈ s.m.lru :=
    fun b' => mem_cons
  exact {
    chained := hi.chained.link hb hcur hlt hnew
    ideal_lt := hi.ideal_lt
    pinned := by
      intro b' hb' ht
      have hold := ((hmem b').mp hb').resolve_left ht.2
      rw [(hother b' hold).2]
      exact hi.pinned b' hold ht.1
    clean := by
      intro b' hb' hst
      have hold := ((hmem b').mp hb').resolve_left hst.2
      rw [(hother b' hold).2]
      exact hi.clean b' hold hst.1
    shows := by
      intro b' hb' c
      rcases (hmem b').mp hb' with rfl | hold
      · rw [hself]
        exact fun hc _ => hpage c hc
      · rw [(hother b' hold).2]
        exact fun hc hst => hi.shows b' hold c hc fun h => hst ⟨h, (hother b' hold).1⟩
    kept := by
      intro p c hp hw hall
      refine hi.kept p c hp hw fun b' hb' hpg => ?_
      obtain ⟨hne, hbkt⟩ := hother b' hb'
      have hcl := hall b' ((hmem b').mpr (Or.inr hb'))
      rw [hbkt] at hcl
      exact ⟨(hcl hpg).1, fun h => (hcl hpg).2 ⟨h, hne⟩⟩ }

theorem Inv.grow (hfits : (s.m.npages + 1) * ps ≤ 2 ^ 31) (page : Page ps) :
    Inv f { s with
      m := { s.m with npages := s.m.npages + 1 }
      ideal := update s.ideal s.m.npages (some page)
      written := fun p => s.written p ∧ p ≠ s.m.npages } := by
  have hc := hi.chained
  have hne : ∀ b ∈ s.m.lru, (s.m.bkt b).pgno ≠ s.m.npages := fun b hb =>
    Nat.ne_of_lt (hc.pages b hb)
  exact {
    chained := {
      nodup := hc.nodup
      hashNodup := hc.hashNodup
      hash := hc.hash
      unique := hc.unique
      bound := hc.bound
      pages := fun b hb => Nat.lt_succ_of_lt (hc.pages b hb)
      fits := hfits }
    ideal_lt := by
      intro p hp
      by_cases heq : p = s.m.npages
      · rw [heq]
        exact Nat.lt_succ_self _
      · dsimp only at hp
        rw [update_of_ne heq] at hp
        exact Nat.lt_succ_of_lt (hi.ideal_lt p hp)
    pinned := hi.pinned
    clean := hi.clean
    shows := by
      intro b hb c hp
      dsimp only at hp
      rw [update_of_ne (hne b hb)] at hp
      exact hi.shows b hb c hp
    kept := by
      intro p c hp hw hall
      dsimp only at hp
      rw [update_of_ne hw.2] at hp
      exact hi.kept p c hp hw.1 hall }

omit hi in
theorem link_npages (m : Mpool ps) (b n : ℕ) (bp : Bkt ps) :
    { (m.setBkt b bp).link b with npages := n } = ({ m with npages := n }.setBkt b bp).link b := by
  unfold Mpool.link Mpool.setBkt
  dsimp only

theorem Inv.new (hps : 0 < ps) {memory : Option (Page ps)} (hfits : (s.m.npages + 1) * ps ≤ 2 ^ 31) :
    Inv f (step f s (.new memory)) := by
  obtain ⟨⟨r, m⟩, hr⟩ : ∃ r, Mpool.mpoolBkt f s.m memory = r := ⟨_, rfl⟩
  obtain ⟨hi', hnp, -, -, hnew⟩ := hi.mpoolBkt hps hr
  unfold step mpoolNew
  dsimp only
  rw [hr]
  cases r with
  | none => exact hi'
  | some b =>
    obtain ⟨hb, hcur⟩ := hnew b rfl
    have hmod : (s.m.npages + 1) % 2 ^ 32 = s.m.npages + 1 := by
      refine Nat.mod_eq_of_lt ?_
      have hle := Nat.le_mul_of_pos_right (s.m.npages + 1) hps
      omega
    have hgrow := hi'.grow (by rw [hnp]; exact hfits) (m.bkt b).page
    have hfill := hgrow.fill (b := b) hb hcur
      { m.bkt b with pgno := m.npages, dirty := false, pinned := true } (Nat.lt_succ_self _)
      (fun b' hb' => Nat.ne_of_lt (hi'.chained.pages b' hb')) (by
        intro c hp
        dsimp only at hp
        rw [update_self] at hp
        exact some.inj hp)
    change Inv f {
      m := { (m.setBkt b { m.bkt b with pgno := m.npages, dirty := false, pinned := true }).link b with
        npages := (m.npages + 1) % 2 ^ 32 }
      ideal := update s.ideal s.m.npages (some (update m.bkt b
        { m.bkt b with pgno := m.npages, dirty := false, pinned := true } b).page)
      touched := fun b' => s.touched b' ∧ b' ≠ b
      stale := fun b' => s.stale b' ∧ b' ≠ b
      written := fun p => (s.written p ∨ Flushes s.m p) ∧ p ≠ s.m.npages }
    rw [update_self, hnp, hmod, ← hnp, link_npages]
    exact hfill

theorem Inv.flags {b : ℕ} {bp : Bkt ps} {lru : List ℕ} {touched : ℕ → Prop}
    (hmem : ∀ b', b' ∈ lru ↔ b' ∈ s.m.lru) (hnodup : lru.Nodup) (hpage : bp.page = (s.m.bkt b).page)
    (hpgno : bp.pgno = (s.m.bkt b).pgno) (hother : ∀ b', b' ≠ b → (touched b' ↔ s.touched b'))
    (hpin : touched b → bp.pinned = true) (hstale : b ∈ s.m.lru → s.stale b → bp.dirty = false)
    (hclean : bp.dirty = false → ¬touched b → (s.m.bkt b).dirty = false ∧ ¬s.touched b) :
    Inv f { s with m := { s.m.setBkt b bp with lru := lru }, touched := touched } := by
  have hc := hi.chained
  have hself : (s.m.setBkt b bp).bkt b = bp := update_self _ _ _
  have hne : ∀ b', b' ≠ b → (s.m.setBkt b bp).bkt b' = s.m.bkt b' := fun b' h =>
    update_of_ne h _ _
  have hpgnos : ∀ b', ((s.m.setBkt b bp).bkt b').pgno = (s.m.bkt b').pgno := by
    intro b'
    by_cases heq : b' = b
    · rw [heq, hself, hpgno]
    · rw [hne b' heq]
  exact {
    chained := {
      nodup := hnodup
      hashNodup := hc.hashNodup
      hash := by
        intro k b'
        rw [hmem, hpgnos]
        exact hc.hash k b'
      unique := by
        intro b1 h1 b2 h2 heq
        rw [hpgnos, hpgnos] at heq
        exact hc.unique b1 ((hmem b1).mp h1) b2 ((hmem b2).mp h2) heq
      bound := fun b' hb' => hc.bound b' ((hmem b').mp hb')
      pages := by
        intro b' hb'
        rw [hpgnos]
        exact hc.pages b' ((hmem b').mp hb')
      fits := hc.fits }
    ideal_lt := hi.ideal_lt
    pinned := by
      intro b' hb' ht
      by_cases heq : b' = b
      · rw [heq, hself]
        exact hpin (heq ▸ ht)
      · rw [hne b' heq]
        exact hi.pinned b' ((hmem b').mp hb') ((hother b' heq).mp ht)
    clean := by
      intro b' hb' hst
      have hold := (hmem b').mp hb'
      by_cases heq : b' = b
      · subst heq
        rw [hself]
        exact hstale hold hst
      · rw [hne b' heq]
        exact hi.clean b' hold hst
    shows := by
      intro b' hb' c hp hst
      rw [hpgnos] at hp
      have hshow := hi.shows b' ((hmem b').mp hb') c hp hst
      by_cases heq : b' = b
      · rw [heq, hself, hpage, ← heq, hshow]
      · rw [hne b' heq, hshow]
    kept := by
      intro p c hp hw hall
      refine hi.kept p c hp hw fun b' hb' hpg => ?_
      have hcl := hall b' ((hmem b').mpr hb')
      change ((s.m.setBkt b bp).bkt b').pgno = p →
        ((s.m.setBkt b bp).bkt b').dirty = false ∧ ¬touched b' at hcl
      rw [hpgnos] at hcl
      obtain ⟨hd, ht⟩ := hcl hpg
      by_cases heq : b' = b
      · subst heq
        rw [hself] at hd
        exact hclean hd ht
      · rw [hne b' heq] at hd
        exact ⟨hd, fun h => ht ((hother b' heq).mpr h)⟩ }

theorem Inv.put {b : ℕ} {dirty : Bool} (hpromise : Promised s (.put b dirty))
    (hmeets : Meets s (.put b dirty)) : Inv f (step f s (.put b dirty)) := by
  refine hi.flags (fun _ => Iff.rfl) hi.chained.nodup rfl rfl
    (fun b' hne => ⟨fun h => h.1, fun h => ⟨h, hne⟩⟩) (fun h => absurd rfl h.2) ?_ ?_
  · intro hb hst
    rw [hi.clean b hb hst, Bool.false_or]
    cases hd : dirty with
    | false => rfl
    | true => exact absurd hst (hmeets hd)
  · intro hd _
    obtain ⟨h1, h2⟩ := Bool.or_eq_false_iff.mp hd
    refine ⟨h1, fun ht => ?_⟩
    rw [hpromise.2 ht] at h2
    exact absurd h2 (by decide)

theorem Inv.modify {b : ℕ} {page : Page ps} (hpromise : Promised s (.modify b page)) :
    Inv f (step f s (.modify b page)) := by
  have hc := hi.chained
  obtain ⟨hb, hpin⟩ := hpromise
  obtain ⟨bp, hbp⟩ : ∃ bp, { s.m.bkt b with page := page } = bp := ⟨_, rfl⟩
  have hself : (s.m.setBkt b bp).bkt b = bp := update_self _ _ _
  have hne : ∀ b', b' ≠ b → (s.m.setBkt b bp).bkt b' = s.m.bkt b' := fun b' h =>
    update_of_ne h _ _
  have hpgnos : ∀ b', ((s.m.setBkt b bp).bkt b').pgno = (s.m.bkt b').pgno := by
    intro b'
    by_cases heq : b' = b
    · rw [heq, hself, ← hbp]
    · rw [hne b' heq]
  have hideal : ∀ p, p ≠ (s.m.bkt b).pgno → update s.ideal (s.m.bkt b).pgno
      ((s.ideal (s.m.bkt b).pgno).map fun _ => page) p = s.ideal p := fun p h =>
    update_of_ne h _ _
  unfold step
  dsimp only
  rw [hbp]
  exact {
    chained := hc.congr rfl rfl (fun b' _ => hpgnos b') (Nat.le_refl _) rfl
    ideal_lt := by
      intro p hp
      by_cases heq : p = (s.m.bkt b).pgno
      · rw [heq]
        exact hc.pages b hb
      · dsimp only at hp
        rw [hideal p heq] at hp
        exact hi.ideal_lt p hp
    pinned := by
      intro b' hb' ht
      by_cases heq : b' = b
      · rw [heq, hself, ← hbp]
        exact hpin
      · rw [hne b' heq]
        exact hi.pinned b' hb' (ht.resolve_right heq)
    clean := by
      intro b' hb' hst
      rw [hne b' hst.2]
      exact hi.clean b' hb' hst.1
    shows := by
      intro b' hb' c hp hst
      change update s.ideal _ _ ((s.m.setBkt b bp).bkt b').pgno = some c at hp
      rw [hpgnos] at hp
      by_cases heq : b' = b
      · rw [heq, update_self] at hp
        obtain ⟨_, -, rfl⟩ := map_eq_some_iff.mp hp
        rw [heq, hself, ← hbp]
      have hpg : (s.m.bkt b').pgno ≠ (s.m.bkt b).pgno := fun h => heq (hc.unique b' hb' b hb h)
      rw [hideal _ hpg] at hp
      rw [hne b' heq]
      exact hi.shows b' hb' c hp fun h => hst ⟨h, heq⟩
    kept := by
      intro p c hp hw hall
      have hpg : p ≠ (s.m.bkt b).pgno := by
        rintro rfl
        have hcl := hall b hb (hpgnos b)
        exact hcl.2 (Or.inr rfl)
      dsimp only at hp
      rw [hideal p hpg] at hp
      refine hi.kept p c hp hw fun b' hb' hpgb => ?_
      have heq : b' ≠ b := fun h => hpg (by rw [← hpgb, h])
      have hcl := hall b' hb'
      change ((s.m.setBkt b bp).bkt b').pgno = p →
        ((s.m.setBkt b bp).bkt b').dirty = false ∧ ¬(s.touched b' ∨ b' = b) at hcl
      rw [hne b' heq] at hcl
      exact ⟨(hcl hpgb).1, fun h => (hcl hpgb).2 (Or.inl h)⟩ }

theorem Inv.sync (hps : 0 < ps) : Inv f (step f s .sync) := by
  have hc := hi.chained
  obtain ⟨m', hm', hs⟩ := hc.syncLoop_spec hps f (nodup_reverse.mpr hc.nodup)
    fun b hb => mem_reverse.mp hb
  unfold step mpoolSync
  rw [hm']
  have hmem : ∀ b, b ∈ m'.lru ↔ b ∈ s.m.lru := fun b => by rw [hs.lru]
  -- a bucket was dirty and is clean now, or is what it was
  have hcase : ∀ b ∈ s.m.lru, ((s.m.bkt b).dirty = true ∧ m'.bkt b = f.clean (s.m.bkt b)) ∨
      ((s.m.bkt b).dirty = false ∧ m'.bkt b = s.m.bkt b) := by
    intro b hb
    cases hd : (s.m.bkt b).dirty with
    | true => exact Or.inl ⟨rfl, (hs.done b (mem_reverse.mpr hb) hd).1⟩
    | false => exact Or.inr ⟨rfl, hs.same b (Or.inr hd)⟩
  exact {
    chained := hc.congr hs.lru hs.hashtable (fun b _ => hs.pgno b) (Nat.le_of_eq hs.curcache.symm) hs.npages
    ideal_lt := by
      intro p hp
      rw [hs.npages]
      exact hi.ideal_lt p hp
    pinned := by
      intro b hb ht
      have hold := hi.pinned b ((hmem b).mp hb) ht
      rcases hcase b ((hmem b).mp hb) with ⟨-, hbkt⟩ | ⟨-, hbkt⟩
      · rw [hbkt]
        exact hold
      · rw [hbkt]
        exact hold
    clean := by
      intro b hb _
      rcases hcase b ((hmem b).mp hb) with ⟨-, hbkt⟩ | ⟨hd, hbkt⟩
      · rw [hbkt]
        rfl
      · rw [hbkt]
        exact hd
    shows := by
      intro b hb c hp hst
      have hb' := (hmem b).mp hb
      rw [hs.pgno b] at hp
      have hshow := hi.shows b hb' c hp fun h => hst (Or.inl h)
      rcases hcase b hb' with ⟨hd, hbkt⟩ | ⟨hd, hbkt⟩
      · -- the filter has not changed the page
        rw [hbkt, ← hshow]
        by_contra hne
        exact hst (Or.inr ⟨hb', hd, hne⟩)
      · rw [hbkt]
        exact hshow
    kept := by
      intro p c hp hw hall
      have hall' : ∀ b ∈ s.m.lru, (s.m.bkt b).pgno = p → ¬s.touched b := by
        intro b hb hpg
        have hcl := hall b ((hmem b).mpr hb)
        rw [hs.pgno b] at hcl
        exact (hcl hpg).2
      by_cases hdirty : ∃ b ∈ s.m.lru, (s.m.bkt b).dirty = true ∧ (s.m.bkt b).pgno = p
      · obtain ⟨b, hb, hd, rfl⟩ := hdirty
        have hst : ¬s.stale b := fun h => by
          rw [hi.clean b hb h] at hd
          exact absurd hd (by decide)
        have hshow := hi.shows b hb c hp hst
        rw [(hs.done b (mem_reverse.mpr hb) hd).2]
        unfold Filters.clean
        rw [hshow]
      · refine hs.kept p _ (fun b hb hd hpg => hdirty ⟨b, mem_reverse.mp hb, hd, hpg⟩)
          (hi.kept p c hp (hw.resolve_right hdirty) fun b hb hpg => ⟨?_, hall' b hb hpg⟩)
        cases hd : (s.m.bkt b).dirty with
        | false => rfl
        | true => exact absurd ⟨b, hb, hd, hpg⟩ hdirty }

end

/-- What `mpool_get` returns: a bucket with the bytes of the page, unless there is no memory for one.
Source: mpool_get -/
def Shows (f : Filters ps) (s : State ps) (pgno : ℕ) (memory : Option (Page ps)) : Prop :=
  ∀ c, s.ideal pgno = some c →
    (memory ≠ none → (mpoolGet f s.m pgno memory).1 ≠ none) ∧
      ∀ b, (mpoolGet f s.m pgno memory).1 = some b → ((mpoolGet f s.m pgno memory).2.bkt b).page = c

theorem not_misses_of_none {pgno : ℕ} {memory : Option (Page ps)}
    (hget : (mpoolGet f s.m pgno memory).1 = none) (b : ℕ) : ¬Misses f s.m pgno memory b := fun h =>
  Option.some_ne_none b (h.2.symm.trans hget)

theorem and_not_misses {pgno : ℕ} {memory : Option (Page ps)} (P : ℕ → Prop)
    (hno : ∀ b, ¬Misses f s.m pgno memory b) : (fun b => P b ∧ ¬Misses f s.m pgno memory b) = P :=
  funext fun b => propext ⟨fun h => h.1, fun h => ⟨h, hno b⟩⟩

theorem Inv.get_hit (hi : Inv f s) {pgno b : ℕ} {memory : Option (Page ps)}
    (hlook : mpoolLook s.m pgno = some b) (hmeets : Meets s (.get pgno memory)) :
    Inv f (step f s (.get pgno memory)) ∧ Shows f s pgno memory := by
  have hc := hi.chained
  obtain ⟨hb, hpg⟩ := hc.mpoolLook_eq_some hlook
  have hget : mpoolGet f s.m pgno memory = (some b, { s.m.setBkt b { s.m.bkt b with pinned := true } with
      lru := b :: s.m.lru.erase b }) := by
    unfold mpoolGet
    rw [hlook]
  have hno : ∀ b', ¬Misses f s.m pgno memory b' := fun b' h =>
    some_ne_none b (hlook.symm.trans h.1)
  have hwritten : (fun p => s.written p ∨ (mpoolLook s.m pgno = none ∧ pgno < s.m.npages ∧
      Flushes s.m p)) = s.written := by
    refine funext fun p => propext ⟨fun h => h.resolve_right fun h' => ?_, Or.inl⟩
    rw [hlook] at h'
    exact some_ne_none b h'.1
  constructor
  · unfold step
    dsimp only
    rw [and_not_misses _ hno, and_not_misses _ hno, hwritten, hget]
    refine hi.flags (fun b' => ?_) ?_ rfl rfl (fun _ _ => Iff.rfl) (fun _ => rfl)
      (fun hb' hst => hi.clean b hb' hst) fun hd ht => ⟨hd, ht⟩
    · rw [mem_cons, hc.nodup.mem_erase_iff]
      constructor
      · rintro (rfl | h)
        · exact hb
        · exact h.2
      · intro h
        by_cases heq : b' = b
        · exact Or.inl heq
        · exact Or.inr ⟨heq, h⟩
    · exact nodup_cons.mpr ⟨hc.nodup.not_mem_erase, hc.nodup.erase b⟩
  · intro c hp
    rw [hget]
    refine ⟨fun _ => some_ne_none b, fun b' hb' => ?_⟩
    obtain rfl := some.inj hb'
    change (update s.m.bkt b _ b).page = c
    rw [update_self]
    exact hi.shows b hb c (by rw [hpg]; exact hp) (hmeets.1 b hlook)

theorem Inv.get_miss (hi : Inv f s) (hps : 0 < ps) (hinv : ∀ n x, f.pgin n (f.pgout n x) = x) {pgno : ℕ}
    {memory : Option (Page ps)} (hlook : mpoolLook s.m pgno = none)
    (hmeets : Meets s (.get pgno memory)) :
    Inv f (step f s (.get pgno memory)) ∧ Shows f s pgno memory := by
  have hc := hi.chained
  have hnew := hc.mpoolLook_eq_none hlook
  by_cases hlt : pgno < s.m.npages
  · obtain ⟨⟨r, m⟩, hr⟩ : ∃ r, Mpool.mpoolBkt f s.m memory = r := ⟨_, rfl⟩
    obtain ⟨hi', hnp, hsub, hsome, hfresh⟩ := hi.mpoolBkt hps hr
    have hwritten : (fun p => s.written p ∨ (mpoolLook s.m pgno = none ∧ pgno < s.m.npages ∧
        Flushes s.m p)) = fun p => s.written p ∨ Flushes s.m p := by
      refine funext fun p => propext ⟨fun h => h.imp_right fun h' => h'.2.2, ?_⟩
      exact fun h => h.imp_right fun h' => ⟨hlook, hlt, h'⟩
    obtain ⟨hoff, hseek⟩ := hc.offset_eq hps hlt
    cases r with
    | none =>
      have hget : mpoolGet f s.m pgno memory = (none, m) := by
        unfold mpoolGet
        rw [hlook]
        rw [if_neg (Nat.not_le.mpr hlt), hr]
      have hno := not_misses_of_none (f := f) (s := s) (congrArg Prod.fst hget)
      constructor
      · unfold step
        dsimp only
        rw [and_not_misses _ hno, and_not_misses _ hno, hwritten, hget]
        exact hi'
      · intro c hp
        rw [hget]
        refine ⟨fun hmem => absurd rfl (hsome hmem), ?_⟩
        rintro b ⟨⟩
    | some b =>
      obtain ⟨hb, hcur⟩ := hfresh b rfl
      have hnot : ∀ b' ∈ m.lru, (m.bkt b').pgno ≠ pgno := by
        intro b' hb'
        obtain ⟨hold, hbkt⟩ := hsub b' hb'
        rw [hbkt]
        exact hnew b' hold
      -- the file has the page when it has been written
      have hread : ∀ c, s.ideal pgno = some c → m.file.read ps (ps * pgno) = some (f.pgout pgno c) := by
        intro c hp
        refine hi'.kept pgno c hp (Or.inl (hmeets.2 hlook ?_)) fun b' hb' hpg => absurd hpg (hnot b' hb')
        rw [hp]
        exact some_ne_none c
      rw [hoff] at hseek
      cases hfile : m.file.read ps (ps * pgno) with
      | none =>
        have hget : mpoolGet f s.m pgno memory =
            (none, m.setBkt b { m.bkt b with pgno := pgno, dirty := false, pinned := true }) := by
          unfold mpoolGet
          rw [hlook]
          rw [if_neg (Nat.not_le.mpr hlt), hr]
          simp only [hoff, hseek, if_true, hfile]
        have hno := not_misses_of_none (f := f) (s := s) (congrArg Prod.fst hget)
        constructor
        · unfold step
          dsimp only
          rw [and_not_misses _ hno, and_not_misses _ hno, hwritten, hget]
          exact hi'.congr (m := m.setBkt b { m.bkt b with
              pgno := pgno, dirty := false, pinned := true }) rfl rfl
            (fun b' hb' => by
              have hne : b' ≠ b := by
                rintro rfl
                exact hb hb'
              exact update_of_ne hne _ _) (Nat.le_refl _) rfl rfl
        · intro c hp
          rw [hread c hp] at hfile
          exact absurd hfile (some_ne_none _)
      | some page =>
        have hget : mpoolGet f s.m pgno memory = (some b, (m.setBkt b { m.bkt b with
            pgno := pgno, dirty := false, pinned := true, page := f.pgin pgno page }).link b) := by
          unfold mpoolGet
          rw [hlook]
          rw [if_neg (Nat.not_le.mpr hlt), hr]
          simp only [hoff, hseek, if_true, hfile]
        have hmiss : ∀ b', Misses f s.m pgno memory b' ↔ b' = b := by
          intro b'
          unfold Misses
          rw [hget]
          exact ⟨fun h => (some.inj h.2).symm, fun h => ⟨hlook, h ▸ rfl⟩⟩
        have htouched : (fun b' => s.touched b' ∧ ¬Misses f s.m pgno memory b') =
            fun b' => s.touched b' ∧ b' ≠ b :=
          funext fun b' => propext (and_congr_right fun _ => not_congr (hmiss b'))
        have hstale : (fun b' => s.stale b' ∧ ¬Misses f s.m pgno memory b') =
            fun b' => s.stale b' ∧ b' ≠ b :=
          funext fun b' => propext (and_congr_right fun _ => not_congr (hmiss b'))
        have hpage : ∀ c, s.ideal pgno = some c → f.pgin pgno page = c := by
          intro c hp
          rw [hread c hp] at hfile
          rw [← some.inj hfile]
          exact hinv pgno c
        constructor
        · unfold step
          dsimp only
          rw [htouched, hstale, hwritten, hget]
          exact hi'.fill (b := b) hb hcur { m.bkt b with
              pgno := pgno, dirty := false, pinned := true, page := f.pgin pgno page }
            (show pgno < m.npages by rw [hnp]; exact hlt) hnot hpage
        · intro c hp
          rw [hget]
          refine ⟨fun _ => some_ne_none b, fun b' hb' => ?_⟩
          obtain rfl := some.inj hb'
          change (update m.bkt b _ b).page = c
          rw [update_self]
          exact hpage c hp
  · have hget : mpoolGet f s.m pgno memory = (none, s.m) := by
      unfold mpoolGet
      rw [hlook]
      rw [if_pos (Nat.le_of_not_lt hlt)]
    have hno := not_misses_of_none (f := f) (s := s) (congrArg Prod.fst hget)
    have hwritten : (fun p => s.written p ∨ (mpoolLook s.m pgno = none ∧ pgno < s.m.npages ∧
        Flushes s.m p)) = s.written :=
      funext fun p => propext ⟨fun h => h.resolve_right fun h' => hlt h'.2.1, Or.inl⟩
    constructor
    · unfold step
      dsimp only
      rw [and_not_misses _ hno, and_not_misses _ hno, hwritten, hget]
      exact hi
    · exact fun c hp => absurd (hi.ideal_lt pgno (by rw [hp]; exact some_ne_none c)) hlt

theorem Inv.step (hi : Inv f s) (hps : 0 < ps) (hinv : ∀ n x, f.pgin n (f.pgout n x) = x) {op : Op ps}
    (hpromise : Promised s op) (hmeets : Meets s op) : Inv f (Mpool.step f s op) := by
  cases op with
  | new memory => exact hi.new hps hmeets
  | get pgno memory =>
    cases hlook : mpoolLook s.m pgno with
    | some b => exact (hi.get_hit hlook hmeets).1
    | none => exact (hi.get_miss hps hinv hlook hmeets).1
  | modify b page => exact hi.modify hpromise
  | put b dirty => exact hi.put hpromise hmeets
  | sync => exact hi.sync hps

end preservation

/-! ## Runs -/

def Calls (f : Filters ps) (s t : State ps) : Prop :=
  ∃ op, Promised s op ∧ Meets s op ∧ t = step f s op

/-- **The page pool is transparent** in a run whose calls all meet the condition: no two buckets have the
same page number, and `mpool_get` shows the bytes last left in a page. Kind: C -/
theorem shown_of_reach (hps : 0 < ps) {f : Filters ps}
    (hinv : ∀ n x, f.pgin n (f.pgout n x) = x) {s : State ps} (h : Reach Start (Calls f) s) :
    (∀ b ∈ s.m.lru, ∀ b' ∈ s.m.lru, (s.m.bkt b).pgno = (s.m.bkt b').pgno → b = b') ∧
      ∀ pgno memory, Meets s (.get pgno memory) → Shows f s pgno memory := by
  have hi : Inv f s := by
    refine h.invariant (I := Inv f) (fun s hs => inv_start hs) ?_
    rintro s t - hi ⟨op, hpromise, hmeets, rfl⟩
    exact hi.step hps hinv hpromise hmeets
  refine ⟨hi.chained.unique, fun pgno memory hmeets => ?_⟩
  cases hlook : mpoolLook s.m pgno with
  | some b => exact (hi.get_hit hlook hmeets).2
  | none => exact (hi.get_miss hps hinv hlook hmeets).2



/-! ## A page after `mpool_sync` -/

/-- Filters on pages of one byte. Source: mpool_filter -/
def byteFilters : Filters 1 where
  pgin _ x := fun i => x i - 1
  pgout _ x := fun i => x i + 1

theorem byteFilters_inv (n : ℕ) (x : Page 1) : byteFilters.pgin n (byteFilters.pgout n x) = x ∧
    byteFilters.pgout n (byteFilters.pgin n x) = x :=
  ⟨funext fun i => BitVec.add_sub_cancel (x i) 1, funext fun i => BitVec.sub_add_cancel (x i) 1⟩

def bytePage (c : BitVec 8) : Page 1 := fun _ => c

/-- A pool for one page and an empty file. Source: mpool_open -/
def bytePool : State 1 :=
  ⟨mpoolOpen 1 1 (fun _ => ⟨bytePage 0, 0, false, false⟩) ⟨fun _ => 0, 0⟩, fun _ => none, fun _ => False,
    fun _ => False, fun _ => False⟩

def runs (ops : List (Op 1)) : State 1 := ops.foldl (step byteFilters) bytePool

def fillPage : List (Op 1) := [.new (some (bytePage 0)), .modify 0 (bytePage 7), .put 0 true]

/-- The page is read back after another one has taken its bucket. Kind: C -/
theorem transparent_evicted :
    Shows byteFilters (runs (fillPage ++ [.new none, .put 0 true])) 0 none := by
  have h0 : Reach Start (Calls byteFilters) bytePool := .start ⟨_, _, _, by decide, rfl⟩
  have h1 := h0.step ⟨.new (some (bytePage 0)), trivial, show (0 + 1) * 1 ≤ 2 ^ 31 by decide, rfl⟩
  have h2 := h1.step ⟨.modify 0 (bytePage 7), ⟨by decide, by decide⟩, trivial, rfl⟩
  have h3 := h2.step ⟨.put 0 true, ⟨by decide, fun _ => rfl⟩, fun _ hst => hst.2 rfl, rfl⟩
  have h4 := h3.step ⟨.new none, trivial, show (1 + 1) * 1 ≤ 2 ^ 31 by decide, rfl⟩
  have h5 := h4.step ⟨.put 0 true, ⟨by decide, fun _ => rfl⟩, fun _ hst => hst.2 rfl, rfl⟩
  refine (shown_of_reach (by decide) (fun n x => (byteFilters_inv n x).1) h5).2 0 none ⟨?_, ?_⟩
  · exact fun b hb => absurd (show none = some b from hb).symm (some_ne_none b)
  · exact fun _ _ => ⟨Or.inr ⟨0, rfl, rfl, rfl⟩, by decide⟩

def AnyCalls (f : Filters ps) (s t : State ps) : Prop := ∃ op, Promised s op ∧ t = step f s op

/-- **A page in the output format.** After `mpool_sync` the page is still in the cache, and `mpool_get`
shows it as it was written to the file. Source: mpool_write. Kind: C -/
theorem not_transparent_synced : ¬∀ (ps : ℕ) (f : Filters ps), 0 < ps →
    (∀ n x, f.pgin n (f.pgout n x) = x ∧ f.pgout n (f.pgin n x) = x) →
      ∀ s, Reach Start (AnyCalls f) s →
        (∀ b ∈ s.m.lru, ∀ b' ∈ s.m.lru, (s.m.bkt b).pgno = (s.m.bkt b').pgno → b = b') ∧
          ∀ pgno memory, Shows f s pgno memory := by
  intro hall
  have h0 : Reach Start (AnyCalls byteFilters) bytePool := .start ⟨_, _, _, by decide, rfl⟩
  have h1 := h0.step ⟨.new (some (bytePage 0)), trivial, rfl⟩
  have h2 := h1.step ⟨.modify 0 (bytePage 7), ⟨by decide, by decide⟩, rfl⟩
  have h3 := h2.step ⟨.put 0 true, ⟨by decide, fun _ => rfl⟩, rfl⟩
  have h4 : Reach Start (AnyCalls byteFilters) (runs (fillPage ++ [.sync])) :=
    h3.step ⟨.sync, trivial, rfl⟩
  have hshow := ((hall 1 byteFilters (by decide) byteFilters_inv _ h4).2 0 none (bytePage 7) rfl).2 0 rfl
  exact absurd (congrFun hshow 0) (by decide)

end Bsd386.Db.Mpool
