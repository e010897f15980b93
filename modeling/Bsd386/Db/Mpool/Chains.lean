import Mathlib.Data.List.Nodup
import Bsd386.Db.Mpool.Basic

/-!
# The chains of the pool, and the file

`Chained` is what the two chains and the page numbers of the buckets have to satisfy: a bucket is on the
chain of its hash key exactly when it is on the least recently used chain, and no two buckets there have the
same page number. `mpoolLook_eq_some` and `mpoolLook_eq_none` follow, and `Chained.unlink` and
`Chained.link` keep it.

`mpoolWrite_spec` and `syncLoop_spec` say what is in the file afterwards: the file has the filtered pages of
the buckets that were dirty, and its other pages are unchanged.
-/

namespace Bsd386.Db.Mpool

open Function List

variable {ps : ℕ}

/-! ## The chains -/

/-- Source: mpool.h -/
structure Chained (m : Mpool ps) : Prop where
  nodup : m.lru.Nodup
  hashNodup : ∀ k, (m.hashtable k).Nodup
  hash : ∀ k b, b ∈ m.hashtable k ↔ b ∈ m.lru ∧ hashkey (m.bkt b).pgno = k
  unique : ∀ b ∈ m.lru, ∀ b' ∈ m.lru, (m.bkt b).pgno = (m.bkt b').pgno → b = b'
  bound : ∀ b ∈ m.lru, b < m.curcache
  pages : ∀ b ∈ m.lru, (m.bkt b).pgno < m.npages
  fits : m.npages * ps ≤ 2 ^ 31

section chains

variable {m : Mpool ps} {b : ℕ}

theorem Chained.mpoolLook_eq_some (hc : Chained m) {p : ℕ} (h : mpoolLook m p = some b) :
    b ∈ m.lru ∧ (m.bkt b).pgno = p := by
  have hpgno : ((m.bkt b).pgno == p) = true :=
    find?_some (p := fun b => (m.bkt b).pgno == p) h
  exact ⟨((hc.hash _ _).mp (mem_of_find?_eq_some h)).1, eq_of_beq hpgno⟩

theorem Chained.mpoolLook_eq_none (hc : Chained m) {p : ℕ} (h : mpoolLook m p = none) :
    ∀ b ∈ m.lru, (m.bkt b).pgno ≠ p := by
  rintro b hb rfl
  have hno := find?_eq_none.mp h b ((hc.hash _ _).mpr ⟨hb, rfl⟩)
  exact hno (beq_self_eq_true _)

theorem Chained.congr (hc : Chained m) {m' : Mpool ps} (hlru : m'.lru = m.lru)
    (hhash : m'.hashtable = m.hashtable) (hpgno : ∀ b ∈ m.lru, (m'.bkt b).pgno = (m.bkt b).pgno)
    (hcur : m.curcache ≤ m'.curcache) (hnp : m'.npages = m.npages) : Chained m' where
  nodup := by
    rw [hlru]
    exact hc.nodup
  hashNodup := by
    rw [hhash]
    exact hc.hashNodup
  hash := by
    intro k b
    rw [hhash, hlru, hc.hash k b]
    exact and_congr_right fun hb => by rw [hpgno b hb]
  unique := by
    rw [hlru]
    intro b hb b' hb' heq
    rw [hpgno b hb, hpgno b' hb'] at heq
    exact hc.unique b hb b' hb' heq
  bound := by
    rw [hlru]
    exact fun b hb => Nat.lt_of_lt_of_le (hc.bound b hb) hcur
  pages := by
    rw [hlru, hnp]
    intro b hb
    rw [hpgno b hb]
    exact hc.pages b hb
  fits := by
    rw [hnp]
    exact hc.fits

theorem Chained.unlink (hc : Chained m) (b : ℕ) : Chained (m.unlink b) where
  nodup := hc.nodup.erase b
  hashNodup k := (hc.hashNodup k).erase b
  hash k b' := by
    change b' ∈ (m.hashtable k).erase b ↔ b' ∈ m.lru.erase b ∧ _
    rw [(hc.hashNodup k).mem_erase_iff, hc.nodup.mem_erase_iff, hc.hash, and_assoc]
    rfl
  unique b1 h1 b2 h2 :=
    hc.unique b1 (mem_of_mem_erase h1) b2 (mem_of_mem_erase h2)
  bound b' hb' := hc.bound b' (mem_of_mem_erase hb')
  pages b' hb' := hc.pages b' (mem_of_mem_erase hb')
  fits := hc.fits

theorem Chained.link (hc : Chained m) (hb : b ∉ m.lru) (hcur : b < m.curcache) {bp : Bkt ps}
    (hlt : bp.pgno < m.npages) (hnew : ∀ b' ∈ m.lru, (m.bkt b').pgno ≠ bp.pgno) :
    Chained ((m.setBkt b bp).link b) := by
  have hne : ∀ b' ∈ m.lru, b' ≠ b := fun b' hb' heq => hb (heq ▸ hb')
  have hself : (m.setBkt b bp).bkt b = bp := update_self _ _ _
  have hother : ∀ b' ∈ m.lru, (m.setBkt b bp).bkt b' = m.bkt b' := fun b' hb' =>
    update_of_ne (hne b' hb') _ _
  have hmem : ∀ b', b' ∈ ((m.setBkt b bp).link b).lru ↔ b' = b ∨ b' ∈ m.lru := fun b' => mem_cons
  have hbkt : ((m.setBkt b bp).link b).bkt = (m.setBkt b bp).bkt := rfl
  have hhash : ∀ k, ((m.setBkt b bp).link b).hashtable k =
      if k = hashkey bp.pgno then b :: m.hashtable k else m.hashtable k := by
    intro k
    have hlink : ((m.setBkt b bp).link b).hashtable = update m.hashtable
        (hashkey ((m.setBkt b bp).bkt b).pgno)
        (b :: m.hashtable (hashkey ((m.setBkt b bp).bkt b).pgno)) := by
      unfold Mpool.link
      unfold Mpool.setBkt
      dsimp only
    rw [hlink, hself, update_apply]
    split_ifs with hk
    · rw [hk]
    · rfl
  have hnot : ∀ k, b ∉ m.hashtable k := fun k hmem => hb ((hc.hash k b).mp hmem).1
  exact {
    nodup := nodup_cons.mpr ⟨hb, hc.nodup⟩
    hashNodup := by
      intro k
      rw [hhash]
      split_ifs
      · exact nodup_cons.mpr ⟨hnot k, hc.hashNodup k⟩
      · exact hc.hashNodup k
    hash := by
      intro k b'
      rw [hhash, hmem, hbkt]
      by_cases heq : b' = b
      · subst heq
        rw [hself]
        split_ifs with hk
        · exact ⟨fun _ => ⟨Or.inl rfl, hk.symm⟩, fun _ => mem_cons_self⟩
        · exact ⟨fun h => absurd h (hnot k), fun h => absurd h.2.symm hk⟩
      have hold : b' ∈ m.hashtable k ↔ b' ∈ m.lru ∧ hashkey ((m.setBkt b bp).bkt b').pgno = k := by
        rw [hc.hash]
        exact and_congr_right fun hb' => by rw [hother b' hb']
      rw [or_iff_right heq, ← hold]
      split_ifs
      · rw [mem_cons, or_iff_right heq]
      · exact Iff.rfl
    unique := by
      intro b1 h1 b2 h2 heq
      rw [hbkt] at heq
      rcases (hmem b1).mp h1 with heq1 | hm1
      · rcases (hmem b2).mp h2 with heq2 | hm2
        · exact heq1.trans heq2.symm
        · rw [heq1, hself, hother b2 hm2] at heq
          exact absurd heq.symm (hnew b2 hm2)
      rcases (hmem b2).mp h2 with heq2 | hm2
      · rw [heq2, hself, hother b1 hm1] at heq
        exact absurd heq (hnew b1 hm1)
      · rw [hother b1 hm1, hother b2 hm2] at heq
        exact hc.unique b1 hm1 b2 hm2 heq
    bound := by
      intro b' hb'
      rcases (hmem b').mp hb' with rfl | hb'
      · exact hcur
      · exact hc.bound b' hb'
    pages := by
      intro b' hb'
      rw [hbkt]
      rcases (hmem b').mp hb' with rfl | hb'
      · rw [hself]
        exact hlt
      · rw [hother b' hb']
        exact hc.pages b' hb'
    fits := hc.fits }

end chains

/-! ## Pages of the file -/

section file

variable {m : Mpool ps}

theorem Chained.offset_eq (hc : Chained m) (hps : 0 < ps) {p : ℕ} (hp : p < m.npages) :
    offset ps p = ps * p ∧ lseek (offset ps p) = true := by
  have hle : ps * (p + 1) ≤ 2 ^ 31 := by
    rw [Nat.mul_comm]
    exact Nat.le_trans (Nat.mul_le_mul_right ps hp) hc.fits
  rw [Nat.mul_succ] at hle
  have heq : offset ps p = ps * p := Nat.mod_eq_of_lt (by omega)
  refine ⟨heq, ?_⟩
  rw [heq]
  exact decide_eq_true (by omega)

theorem File.read_write_self (fd : File) (off : ℕ) (page : Page ps) :
    (fd.write off page).read ps off = some page := by
  unfold File.read File.write
  rw [if_pos (Nat.le_max_right _ _)]
  refine congrArg some (funext fun i => ?_)
  have hi : off ≤ off + ↑i ∧ off + ↑i - off < ps := by
    omega
  dsimp only
  rw [dif_pos hi]
  exact congrArg page (Fin.ext (Nat.add_sub_cancel_left off ↑i))

theorem File.read_write_of_ne {fd : File} {p q : ℕ} (hne : p ≠ q) (page page' : Page ps)
    (hread : fd.read ps (ps * q) = some page') :
    (fd.write (ps * p) page).read ps (ps * q) = some page' := by
  unfold File.read at hread ⊢
  unfold File.write
  by_cases hsize : ps * q + ps ≤ fd.size
  · rw [if_pos hsize] at hread
    rw [if_pos (Nat.le_trans hsize (Nat.le_max_left _ _)), ← hread]
    refine congrArg some (funext fun i => ?_)
    have hout : ¬(ps * p ≤ ps * q + ↑i ∧ ps * q + ↑i - ps * p < ps) := by
      rcases Nat.lt_or_gt_of_ne hne with hpq | hpq
      · have hle := Nat.mul_le_mul_left ps (show p + 1 ≤ q from hpq)
        rw [Nat.mul_succ] at hle
        omega
      · have hle := Nat.mul_le_mul_left ps (show q + 1 ≤ p from hpq)
        rw [Nat.mul_succ] at hle
        omega
    exact dif_neg hout
  · rw [if_neg hsize] at hread
    exact absurd hread (Option.some_ne_none _).symm

/-- The bucket after its page has been written. Source: mpool_write -/
def Filters.clean (f : Filters ps) (bp : Bkt ps) : Bkt ps :=
  { bp with page := f.pgout bp.pgno bp.page, dirty := false }

theorem Chained.mpoolWrite_eq (hc : Chained m) (hps : 0 < ps) (f : Filters ps) {b : ℕ}
    (hb : b ∈ m.lru) : mpoolWrite f m b =
      ({ m.setBkt b (f.clean (m.bkt b)) with
        file := m.file.write (ps * (m.bkt b).pgno) (f.clean (m.bkt b)).page }, true) := by
  obtain ⟨hoff, hseek⟩ := hc.offset_eq hps (hc.pages b hb)
  unfold mpoolWrite
  rw [if_pos hseek, hoff]
  rfl

/-- What a loop over the buckets has done. Source: mpool_sync -/
structure Synced (f : Filters ps) (m m' : Mpool ps) (bs : List ℕ) : Prop where
  lru : m'.lru = m.lru
  hashtable : m'.hashtable = m.hashtable
  curcache : m'.curcache = m.curcache
  npages : m'.npages = m.npages
  done : ∀ b ∈ bs, (m.bkt b).dirty = true → m'.bkt b = f.clean (m.bkt b) ∧
    m'.file.read ps (ps * (m.bkt b).pgno) = some (f.clean (m.bkt b)).page
  same : ∀ b, b ∉ bs ∨ (m.bkt b).dirty = false → m'.bkt b = m.bkt b
  kept : ∀ q page, (∀ b ∈ bs, (m.bkt b).dirty = true → (m.bkt b).pgno ≠ q) →
    m.file.read ps (ps * q) = some page → m'.file.read ps (ps * q) = some page

theorem Synced.pgno {f : Filters ps} {m' : Mpool ps} {bs : List ℕ} (hs : Synced f m m' bs) (b : ℕ) :
    (m'.bkt b).pgno = (m.bkt b).pgno := by
  by_cases hb : b ∈ bs
  · cases hd : (m.bkt b).dirty with
    | true =>
      rw [(hs.done b hb hd).1]
      rfl
    | false => rw [hs.same b (Or.inr hd)]
  · rw [hs.same b (Or.inl hb)]

theorem Chained.syncLoop_spec (hc : Chained m) (hps : 0 < ps) (f : Filters ps) {bs : List ℕ}
    (hnodup : bs.Nodup) (hsub : ∀ b ∈ bs, b ∈ m.lru) :
    ∃ m', syncLoop f m bs = (m', true) ∧ Synced f m m' bs := by
  induction bs generalizing m with
  | nil =>
    exact ⟨m, rfl, rfl, rfl, rfl, rfl, fun b hb => absurd hb not_mem_nil, fun _ _ => rfl,
      fun _ _ _ h => h⟩
  | cons b bs ih =>
    obtain ⟨hb, hbs⟩ := nodup_cons.mp hnodup
    have hbl := hsub b mem_cons_self
    unfold syncLoop
    cases hd : (m.bkt b).dirty with
    | false =>
      rw [if_neg (by decide)]
      obtain ⟨m', hm', hs⟩ := ih hc hbs fun b' hb' => hsub b' (mem_cons_of_mem b hb')
      refine ⟨m', hm', hs.lru, hs.hashtable, hs.curcache, hs.npages, ?_, ?_, ?_⟩
      · intro b' hb' hd'
        rcases mem_cons.mp hb' with rfl | hb'
        · rw [hd] at hd'
          exact absurd hd' (by decide)
        · exact hs.done b' hb' hd'
      · rintro b' (hb' | hb')
        · exact hs.same b' (Or.inl fun h => hb' (mem_cons_of_mem b h))
        · exact hs.same b' (Or.inr hb')
      · exact fun q page hq => hs.kept q page fun b' hb' => hq b' (mem_cons_of_mem b hb')
    | true =>
      rw [if_pos rfl, hc.mpoolWrite_eq hps f hbl]
      obtain ⟨m1, hm1⟩ : ∃ m1, { m.setBkt b (f.clean (m.bkt b)) with
        file := m.file.write (ps * (m.bkt b).pgno) (f.clean (m.bkt b)).page } = m1 := ⟨_, rfl⟩
      have hself : m1.bkt b = f.clean (m.bkt b) := by
        rw [← hm1]
        exact update_self _ _ _
      have hother : ∀ b', b' ≠ b → m1.bkt b' = m.bkt b' := by
        intro b' hne
        rw [← hm1]
        exact update_of_ne hne _ _
      have hlru : m1.lru = m.lru := by rw [← hm1]; rfl
      have hhash : m1.hashtable = m.hashtable := by rw [← hm1]; rfl
      have hcur : m1.curcache = m.curcache := by rw [← hm1]; rfl
      have hnp : m1.npages = m.npages := by rw [← hm1]; rfl
      have hfile : m1.file = m.file.write (ps * (m.bkt b).pgno) (f.clean (m.bkt b)).page := by
        rw [← hm1]
      have hpgno : ∀ b', (m1.bkt b').pgno = (m.bkt b').pgno := by
        intro b'
        by_cases heq : b' = b
        · rw [heq, hself]
          rfl
        · rw [hother b' heq]
      have hne : ∀ b' ∈ bs, b' ≠ b := fun b' hb' heq => hb (heq ▸ hb')
      have hc1 : Chained m1 :=
        hc.congr hlru hhash (fun b' _ => hpgno b') (Nat.le_of_eq hcur.symm) hnp
      obtain ⟨m', hm', hs⟩ := ih hc1 hbs fun b' hb' => by
        rw [hlru]
        exact hsub b' (mem_cons_of_mem b hb')
      rw [hm1]
      -- the rest of the loop does not touch the page that was just written
      have hread : m'.file.read ps (ps * (m.bkt b).pgno) = some (f.clean (m.bkt b)).page := by
        refine hs.kept _ _ (fun b' hb' _ heq => ?_) ?_
        · rw [hpgno] at heq
          exact hne b' hb' (hc.unique b' (hsub b' (mem_cons_of_mem b hb')) b hbl heq)
        · rw [hfile]
          exact File.read_write_self _ _ _
      refine ⟨m', hm', hs.lru.trans hlru, hs.hashtable.trans hhash, hs.curcache.trans hcur,
        hs.npages.trans hnp, ?_, ?_, ?_⟩
      · intro b' hb' hd'
        rcases mem_cons.mp hb' with rfl | hb'
        · rw [hs.same b' (Or.inl hb), hself]
          exact ⟨rfl, hread⟩
        · have hdone := hs.done b' hb' (by rw [hother b' (hne b' hb')]; exact hd')
          rw [hother b' (hne b' hb')] at hdone
          exact hdone
      · intro b' hb'
        have heq : b' ≠ b := by
          rintro rfl
          rcases hb' with hb' | hb'
          · exact hb' mem_cons_self
          · rw [hd] at hb'
            exact absurd hb' (by decide)
        rw [← hother b' heq]
        refine hs.same b' (hb'.imp (fun h h' => h (mem_cons_of_mem b h')) fun h => ?_)
        rw [hother b' heq]
        exact h
      · intro q page hq hr
        refine hs.kept q page (fun b' hb' hd' => ?_) ?_
        · rw [hother b' (hne b' hb')] at hd' ⊢
          exact hq b' (mem_cons_of_mem b hb') hd'
        · rw [hfile]
          exact File.read_write_of_ne (hq b mem_cons_self hd) _ _ hr

theorem Chained.mpoolBkt_of_victim (hc : Chained m) (hps : 0 < ps) (f : Filters ps) {v : ℕ}
    (hv : victim m = some v) (memory : Option (Page ps)) :
    v ∈ m.lru ∧ (m.bkt v).pinned = false ∧
      ∃ m', Synced f m m' [v] ∧ mpoolBkt f m memory = (some v, m'.unlink v) := by
  have hfind : m.lru.reverse.find? (fun b => !(m.bkt b).pinned) = some v := by
    unfold victim at hv
    split_ifs at hv with hcur
    exact hv
  have hmem : v ∈ m.lru := mem_reverse.mp (mem_of_find?_eq_some hfind)
  have hpin : (!(m.bkt v).pinned) = true :=
    find?_some (p := fun b => !(m.bkt b).pinned) hfind
  rw [Bool.not_eq_true'] at hpin
  obtain ⟨m', hm', hs⟩ := hc.syncLoop_spec hps f (nodup_singleton v)
    fun b hb => (mem_singleton.mp hb) ▸ hmem
  refine ⟨hmem, hpin, m', hs, ?_⟩
  unfold mpoolBkt
  rw [hv]
  dsimp only
  unfold syncLoop at hm'
  cases hd : (m.bkt v).dirty with
  | false =>
    rw [hd, if_neg (by decide)] at hm'
    obtain rfl : m = m' := congrArg Prod.fst hm'
    rfl
  | true =>
    rw [hd, if_pos rfl, hc.mpoolWrite_eq hps f hmem] at hm'
    rw [if_pos rfl, hc.mpoolWrite_eq hps f hmem]
    obtain rfl := congrArg Prod.fst hm'
    rfl

end file

end Bsd386.Db.Mpool
