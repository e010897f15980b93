import Bsd386.Kern.Unp.Mark

/-!
# The sweeping loop of the collector

`while (fp->f_msgcount) unp_discard(fp)` drops all references in flight to a file at once and
leaves them in the receive buffers they are in. When the last one is dropped the file is closed,
its buffer is flushed, and the references there are dropped in their turn.

`Discards t t' l d` sums up any part of the sweep: `d p` references to `p` were dropped in all,
and all but those in the list `l` were taken out of a receive buffer. So a direct drop leaves the
counts of the file behind the references to it (`Discards.refs_eq`).
-/

namespace Bsd386.Kern.Unp

open List Kern.Sockbuf

/-! ## Dropping references -/

/-- References are to entries of the table. -/
structure Closed (t : Table) : Prop where
  nodup : t.order.Nodup
  refs_mem : ∀ p ∈ t.order, ∀ q ∈ (t.file p).refs, q ∈ t.order

/-- From `t` to `t'` references were dropped, `d p` to each `p`; those in `l` are still in a
receive buffer, the others were flushed from one. -/
structure Discards (t t' : Table) (l : List FilePtr) (d : FilePtr → ℕ) : Prop where
  order : t'.order = t.order
  mark : ∀ p, (t'.file p).mark = (t.file p).mark
  count : ∀ p, (t'.file p).count + d p = (t.file p).count
  msgcount : ∀ p, (t'.file p).msgcount + d p = (t.file p).msgcount
  refs_eq : ∀ p, t'.allRefs.count p + d p = t.allRefs.count p + l.count p
  nonneg : ∀ p, 0 ≤ (t.file p).count → 0 ≤ (t'.file p).count
  flushed : ∀ p, (t'.file p).refs = (t.file p).refs ∨ (t'.file p).refs = []
  closed : ∀ p, ((t.file p).count = 0 → (t.file p).refs = []) →
    (t'.file p).count = 0 → (t'.file p).refs = []

section discards

variable {t t' t'' : Table} {l l' : List FilePtr} {d d' : FilePtr → ℕ}

theorem Discards.refl (t : Table) : Discards t t [] (fun _ => 0) :=
  ⟨rfl, fun _ => rfl, fun _ => Int.add_zero _, fun _ => Int.add_zero _, fun _ => rfl,
    fun _ h => h, fun _ => .inl rfl, fun _ h => h⟩

theorem Discards.trans (h : Discards t t' l d) (h' : Discards t' t'' l' d') :
    Discards t t'' (l ++ l') (fun p => d p + d' p) where
  order := h'.order.trans h.order
  mark p := (h'.mark p).trans (h.mark p)
  count p := by
    have h1 := h.count p
    have h2 := h'.count p
    omega
  msgcount p := by
    have h1 := h.msgcount p
    have h2 := h'.msgcount p
    omega
  refs_eq p := by
    have h1 := h.refs_eq p
    have h2 := h'.refs_eq p
    rw [count_append]
    omega
  nonneg p hp := h'.nonneg p (h.nonneg p hp)
  flushed p := by
    rcases h'.flushed p with h2 | h2
    · rcases h.flushed p with h1 | h1
      · exact .inl (h2.trans h1)
      · exact .inr (h2.trans h1)
    · exact .inr h2
  closed p hp := h'.closed p (h.closed p hp)

theorem Closed.of_discards (hc : Closed t) (h : Discards t t' l d) : Closed t' where
  nodup := h.order ▸ hc.nodup
  refs_mem p hp q hq := by
    rw [h.order] at hp ⊢
    rcases h.flushed p with hf | hf
    · exact hc.refs_mem p hp q (hf ▸ hq)
    · rw [hf] at hq
      exact absurd hq not_mem_nil

theorem count_flatMap_flush {o : List FilePtr} (hnd : o.Nodup) {p : FilePtr} (hp : p ∈ o)
    {f g : FilePtr → List FilePtr} (hfg : ∀ q, q ≠ p → g q = f q) (hg : g p = []) (x : FilePtr) :
    (o.flatMap g).count x + (f p).count x = (o.flatMap f).count x := by
  induction o with
  | nil => exact absurd hp not_mem_nil
  | cons a o ih =>
    obtain ⟨ha, ho⟩ := nodup_cons.mp hnd
    rw [flatMap_cons, flatMap_cons, count_append, count_append]
    by_cases hap : a = p
    · subst hap
      have hrest : o.flatMap g = o.flatMap f :=
        flatMap_congr fun q hq => hfg q fun h => ha (h ▸ hq)
      rw [hg, hrest, count_nil]
      omega
    have hp' : p ∈ o := (mem_cons.mp hp).resolve_left (Ne.symm hap)
    have hrest := ih ho hp'
    rw [hfg a hap]
    omega

/-- `f_msgcount--`, `unp_rights--` and `--f_count`.
Source: unp_discard -/
def File.dropped (f : File) : File := { f with msgcount := f.msgcount - 1, count := f.count - 1 }

/-- The table when the last reference to `p` has been dropped and its buffer is emptied, before the
references that were there are disposed of.
Source: closef, sorflush -/
def Table.closing (t : Table) (p : FilePtr) : Table :=
  { t.set p (t.file p).dropped with rights := t.rights - 1 }.set p
    { (t.file p).dropped with sock := none }

theorem Table.closing_file_self (t : Table) (p : FilePtr) :
    (t.closing p).file p = { (t.file p).dropped with sock := none } := Table.set_file_self ..

theorem Table.closing_file_of_ne (t : Table) {p q : FilePtr} (h : q ≠ p) :
    (t.closing p).file q = t.file q :=
  (Table.set_file_of_ne _ h _).trans (t.set_file_of_ne h _)

theorem Table.closing_refs_self (t : Table) (p : FilePtr) : ((t.closing p).file p).refs = [] := by
  rw [t.closing_file_self p]
  rfl

theorem Closed.closing (hc : Closed t) (p : FilePtr) : Closed (t.closing p) where
  nodup := hc.nodup
  refs_mem q hq x hx := by
    by_cases hqp : q = p
    · rw [hqp, t.closing_refs_self p] at hx
      exact absurd hx not_mem_nil
    · rw [t.closing_file_of_ne hqp] at hx
      exact hc.refs_mem q hq x hx

theorem unpDiscard_cases {fuel : ℕ} {p : FilePtr} (h : unpDiscard (fuel + 1) t p = some (.ok t')) :
    (1 < (t.file p).count ∧
      t' = { t.set p (t.file p).dropped with rights := t.rights - 1 }) ∨
    ((t.file p).count = 1 ∧
      forEach (unpDiscard fuel) (t.file p).refs (t.closing p) = some (.ok t')) := by
  simp only [unpDiscard] at h
  split at h
  · next hpos => exact .inl ⟨by omega, (Except.ok.inj (Option.some.inj h)).symm⟩
  · split at h
    · exact absurd (Option.some.inj h) (by simp)
    · next hpos hneg => exact .inr ⟨by omega, h⟩

theorem discards_dropped (t : Table) {p : FilePtr} (hpos : 1 < (t.file p).count) :
    Discards t { t.set p (t.file p).dropped with rights := t.rights - 1 } [p]
      (fun q => if q = p then 1 else 0) := by
  obtain ⟨t', ht'⟩ : ∃ t', { t.set p (t.file p).dropped with rights := t.rights - 1 } = t' :=
    ⟨_, rfl⟩
  have hself : t'.file p = (t.file p).dropped := by rw [← ht']; exact t.set_file_self ..
  have hother : ∀ q, q ≠ p → t'.file q = t.file q := by
    intro q hq
    rw [← ht']
    exact t.set_file_of_ne hq _
  have hrefs : ∀ q, (t'.file q).refs = (t.file q).refs := by
    intro q
    by_cases hq : q = p
    · rw [hq, hself]
      rfl
    · rw [hother q hq]
  have horder : t'.order = t.order := by rw [← ht']; rfl
  have hall : t'.allRefs = t.allRefs := by
    unfold Table.allRefs
    rw [horder]
    exact flatMap_congr fun q _ => hrefs q
  rw [ht']
  refine ⟨horder, fun q => ?_, fun q => ?_, fun q => ?_, fun q => ?_, fun q hq => ?_,
    fun q => .inl (hrefs q), fun q hq hz => ?_⟩
  all_goals by_cases hqp : q = p
  · rw [hqp, hself]
    rfl
  · rw [hother q hqp]
  · rw [hqp, hself, if_pos rfl, File.dropped]
    simp
  · rw [hother q hqp, if_neg hqp]
    simp
  · rw [hqp, hself, if_pos rfl, File.dropped]
    simp
  · rw [hother q hqp, if_neg hqp]
    simp
  · rw [hqp, hall, if_pos rfl, count_singleton_self]
  · rw [hall, if_neg hqp, count_singleton, if_neg (by simpa using Ne.symm hqp)]
  · rw [hqp, hself, File.dropped]
    simp only
    omega
  · rw [hother q hqp]
    exact hq
  · rw [hqp, hself, File.dropped] at hz
    simp only at hz
    omega
  · rw [hrefs q]
    rw [hother q hqp] at hz
    exact hq hz

theorem Discards.close (hc : Closed t) {p : FilePtr} (hp : p ∈ t.order)
    (hone : (t.file p).count = 1) (h : Discards (t.closing p) t' (t.file p).refs d) :
    Discards t t' [p] (fun q => (if q = p then 1 else 0) + d q) := by
  have hself := t.closing_file_self p
  have hother : ∀ q, q ≠ p → (t.closing p).file q = t.file q := fun q hq =>
    t.closing_file_of_ne hq
  have hempty := t.closing_refs_self p
  have hall : ∀ x, (t.closing p).allRefs.count x + (t.file p).refs.count x
      = t.allRefs.count x := by
    intro x
    exact count_flatMap_flush hc.nodup hp (f := fun q => (t.file q).refs)
      (g := fun q => ((t.closing p).file q).refs) (fun q hq => by rw [hother q hq]) hempty x
  have hzero : ((t.closing p).file p).count = 0 := by
    rw [hself, File.dropped]
    simp only
    omega
  refine ⟨h.order, fun q => ?_, fun q => ?_, fun q => ?_, fun q => ?_, fun q hq => ?_,
    fun q => ?_, fun q hq hz => ?_⟩
  · rw [h.mark q]
    by_cases hqp : q = p
    · rw [hqp, hself]
      rfl
    · rw [hother q hqp]
  · have hcount := h.count q
    by_cases hqp : q = p
    · subst hqp
      rw [if_pos rfl, hone]
      omega
    · rw [if_neg hqp, ← hother q hqp]
      omega
  · have hmsg := h.msgcount q
    by_cases hqp : q = p
    · subst hqp
      rw [hself, File.dropped] at hmsg
      simp only at hmsg
      rw [if_pos rfl]
      omega
    · rw [if_neg hqp, ← hother q hqp]
      omega
  · have hrefs := h.refs_eq q
    have hflush := hall q
    by_cases hqp : q = p
    · rw [if_pos hqp, hqp, count_singleton_self, ← hqp]
      omega
    · rw [if_neg hqp, count_singleton, if_neg (by simpa using Ne.symm hqp)]
      omega
  · refine h.nonneg q ?_
    by_cases hqp : q = p
    · rw [hqp, hzero]
    · rw [hother q hqp]
      exact hq
  · rcases h.flushed q with hf | hf
    · by_cases hqp : q = p
      · exact .inr (by rw [hf, hqp, hempty])
      · exact .inl (by rw [hf, hother q hqp])
    · exact .inr hf
  · refine h.closed q ?_ hz
    by_cases hqp : q = p
    · exact fun _ => by rw [hqp, hempty]
    · rw [hother q hqp]
      exact hq

theorem forEach_discards {f : Table → FilePtr → Result}
    (hf : ∀ {t t' : Table} {p : FilePtr}, Closed t → p ∈ t.order → f t p = some (.ok t') →
      ∃ d, Discards t t' [p] d) {l : List FilePtr} {t t' : Table} (hc : Closed t)
    (hl : ∀ p ∈ l, p ∈ t.order) (h : forEach f l t = some (.ok t')) : ∃ d, Discards t t' l d := by
  induction l generalizing t with
  | nil =>
    obtain rfl := Except.ok.inj (Option.some.inj h)
    exact ⟨_, Discards.refl t⟩
  | cons p l ih =>
    rw [forEach] at h
    split at h
    · next t1 ht1 =>
        obtain ⟨d1, h1⟩ := hf hc (hl p mem_cons_self) ht1
        obtain ⟨d2, h2⟩ := ih (hc.of_discards h1)
          (fun q hq => h1.order ▸ hl q (mem_cons_of_mem p hq)) h
        exact ⟨_, h1.trans h2⟩
    · next hne => exact absurd h (hne t')

theorem unpDiscard_discards {fuel : ℕ} {t t' : Table} {p : FilePtr} (hc : Closed t)
    (hp : p ∈ t.order) (h : unpDiscard fuel t p = some (.ok t')) :
    ∃ d, Discards t t' [p] d ∧ 0 < d p := by
  induction fuel generalizing t t' p with
  | zero => exact absurd h (by simp [unpDiscard])
  | succ fuel ih =>
    obtain ⟨hpos, rfl⟩ | ⟨hone, hrest⟩ := unpDiscard_cases h
    · exact ⟨_, discards_dropped t hpos, by simp⟩
    · obtain ⟨d, hd⟩ := forEach_discards (fun hc hp h => (ih hc hp h).imp fun _ hd => hd.1)
        (hc.closing p) (fun q hq => hc.refs_mem p hp q hq) hrest
      exact ⟨_, hd.close hc hp hone, by simp⟩

end discards

/-! ## One file of the sweep -/

section sweep

variable {fuel : ℕ} {t t' : Table} {p : FilePtr}

theorem discardAll_discards {n : ℕ} (hc : Closed t) (hp : p ∈ t.order)
    (h : discardAll fuel n t p = some (.ok t')) :
    (∃ k d, Discards t t' (List.replicate k p) d ∧ ((t.file p).msgcount ≠ 0 → k ≠ 0)) ∧
      (t'.file p).msgcount = 0 := by
  induction n generalizing t with
  | zero => exact absurd h (by simp [discardAll])
  | succ n ih =>
    rw [discardAll] at h
    split at h
    · next hz =>
        obtain rfl := Except.ok.inj (Option.some.inj h)
        exact ⟨⟨0, _, Discards.refl t, fun hne => absurd hz hne⟩, hz⟩
    split at h
    · next t1 ht1 =>
        obtain ⟨d1, h1, -⟩ := unpDiscard_discards hc hp ht1
        obtain ⟨⟨k, d2, h2, -⟩, hz⟩ := ih (hc.of_discards h1) (h1.order ▸ hp) h
        exact ⟨⟨k + 1, _, h1.trans h2, fun _ => Nat.succ_ne_zero k⟩, hz⟩
    · next hne => exact absurd h (hne t')

def openFiles (t : Table) : ℕ := t.order.countP fun p => 0 < (t.file p).count

theorem Discards.openFiles_le {l : List FilePtr} {d : FilePtr → ℕ} (h : Discards t t' l d) :
    openFiles t' ≤ openFiles t := by
  unfold openFiles
  rw [h.order]
  refine countP_mono_left fun p _ hp => ?_
  have hcnt := h.count p
  simp only [decide_eq_true_eq] at hp ⊢
  omega

theorem unpDiscard_ne_none (hc : Closed t) (hp : p ∈ t.order) (hfuel : openFiles t < fuel) :
    unpDiscard fuel t p ≠ none := by
  induction fuel generalizing t p with
  | zero => exact absurd hfuel (Nat.not_lt_zero _)
  | succ fuel ih =>
    have hall : ∀ (l : List FilePtr) (u : Table), Closed u → (∀ q ∈ l, q ∈ u.order) →
        openFiles u < fuel → forEach (unpDiscard fuel) l u ≠ none := by
      intro l
      induction l with
      | nil => exact fun u _ _ _ h => absurd h (by simp [forEach])
      | cons q l ihl =>
        intro u hu hl hfu
        have hq := hl q mem_cons_self
        rw [forEach]
        split
        · next u' hu' =>
            obtain ⟨d, hd, -⟩ := unpDiscard_discards hu hq hu'
            exact ihl u' (hu.of_discards hd)
              (fun r hr => hd.order ▸ hl r (mem_cons_of_mem q hr))
              (lt_of_le_of_lt hd.openFiles_le hfu)
        · exact ih hu hq hfu
    simp only [unpDiscard]
    split
    · exact Option.some_ne_none _
    split
    · exact Option.some_ne_none _
    next hpos hneg =>
      have hless : openFiles t = openFiles (t.closing p) + 1 := by
        refine countP_eq_succ hc.nodup hp (fun q hq => ?_) ?_ ?_
        · rw [t.closing_file_of_ne hq]
        · rw [t.closing_file_self p, File.dropped]
          simp only [decide_eq_false_iff_not]
          omega
        · simp only [decide_eq_true_eq]
          omega
      exact hall (t.file p).refs (t.closing p) (hc.closing p)
        (fun q hq => hc.refs_mem p hp q hq) (by omega)

theorem discardAll_ne_none {n : ℕ} (hc : Closed t) (hp : p ∈ t.order) (hfuel : openFiles t < fuel)
    (hcount : (t.file p).count = (t.file p).msgcount) (hnn : 0 ≤ (t.file p).count)
    (hn : (t.file p).count < n) : discardAll fuel n t p ≠ none := by
  induction n generalizing t with
  | zero => omega
  | succ n ih =>
    rw [discardAll]
    split
    · exact Option.some_ne_none _
    split
    · next t1 ht1 =>
        obtain ⟨d, hd, hpos⟩ := unpDiscard_discards hc hp ht1
        have h1 := hd.count p
        have h2 := hd.msgcount p
        exact ih (hc.of_discards hd) (hd.order ▸ hp) (lt_of_le_of_lt hd.openFiles_le hfuel)
          (by omega) (hd.nonneg p hnn) (by omega)
    · exact unpDiscard_ne_none hc hp hfuel

theorem sweepOne_discards (hc : Closed t) (hp : p ∈ t.order)
    (h : sweepOne fuel t p = some (.ok t')) :
    (t' = t ∧ ((t.file p).count = 0 ∨
        ¬ ((t.file p).count = (t.file p).msgcount ∧ (t.file p).mark = false))) ∨
    ((t.file p).count = (t.file p).msgcount ∧ (t.file p).mark = false ∧
      (t'.file p).msgcount = 0 ∧ ∃ k d, k ≠ 0 ∧ Discards t t' (List.replicate k p) d) := by
  rw [sweepOne] at h
  split at h
  · next hz => exact .inl ⟨(Except.ok.inj (Option.some.inj h)).symm, .inl hz⟩
  next hz =>
    split at h
    · next hcond =>
        obtain ⟨⟨k, d, hd, hk⟩, hmsg⟩ := discardAll_discards hc hp h
        refine .inr ⟨hcond.1, hcond.2, hmsg, k, d, hk ?_, hd⟩
        rw [← hcond.1]
        exact hz
    · next hcond => exact .inl ⟨(Except.ok.inj (Option.some.inj h)).symm, .inr hcond⟩

theorem forEach_sweepOne {l : List FilePtr} (hc : Closed t) (hl : ∀ p ∈ l, p ∈ t.order)
    (hnn : ∀ p ∈ t.order, 0 ≤ (t.file p).count) (h : forEach (sweepOne fuel) l t = some (.ok t')) :
    ∃ direct d, Discards t t' direct d ∧
      (∀ p ∈ direct, p ∈ t.order ∧ (t.file p).count = (t.file p).msgcount ∧
        (t.file p).mark = false) ∧
      ((t' = t ∧ ∀ p ∈ l, (t.file p).count = 0 ∨
        ¬ ((t.file p).count = (t.file p).msgcount ∧ (t.file p).mark = false)) ∨ direct ≠ []) ∧
      ∀ p ∈ l, (t.file p).count = (t.file p).msgcount → (t.file p).mark = false →
        (t'.file p).count = 0 := by
  induction l generalizing t with
  | nil =>
    obtain rfl := Except.ok.inj (Option.some.inj h)
    exact ⟨[], _, Discards.refl t, fun p hp => absurd hp not_mem_nil,
      .inl ⟨rfl, fun p hp => absurd hp not_mem_nil⟩,
      fun p hp => absurd hp not_mem_nil⟩
  | cons a l ih =>
    rw [forEach] at h
    split at h
    · next t1 ht1 =>
        have ha := hl a mem_cons_self
        have hl' : ∀ p ∈ l, p ∈ t.order := fun p hp => hl p (mem_cons_of_mem a hp)
        obtain ⟨rfl, hcond⟩ | ⟨heq, hmark, hmsg, k, d1, hk, h1⟩ := sweepOne_discards hc ha ht1
        · obtain ⟨direct, d, hd, hdir, hcases, hzero⟩ := ih hc hl' hnn h
          refine ⟨direct, d, hd, hdir, ?_, ?_⟩
          · rcases hcases with ⟨rfl, hrest⟩ | hne
            · refine .inl ⟨rfl, fun p hp => ?_⟩
              rcases mem_cons.mp hp with rfl | hp
              · exact hcond
              · exact hrest p hp
            · exact .inr hne
          · intro p hp hpc hpm
            rcases mem_cons.mp hp with rfl | hp
            · rcases hcond with hz | hz
              · have hnn' := hd.nonneg p (hnn p ha)
                have hcnt := hd.count p
                omega
              · exact absurd ⟨hpc, hpm⟩ hz
            · exact hzero p hp hpc hpm
        · have hsame : ∀ p, (t.file p).count = (t.file p).msgcount ↔
              (t1.file p).count = (t1.file p).msgcount := by
            intro p
            have hcnt := h1.count p
            have hm := h1.msgcount p
            omega
          obtain ⟨direct, d, hd, hdir, -, hzero⟩ := ih (hc.of_discards h1)
            (fun p hp => h1.order ▸ hl' p hp)
            (fun p hp => h1.nonneg p (hnn p (h1.order ▸ hp))) h
          refine ⟨replicate k a ++ direct, _, h1.trans hd, ?_, .inr ?_, ?_⟩
          · intro p hp
            rcases mem_append.mp hp with hp | hp
            · rw [eq_of_mem_replicate hp]
              exact ⟨ha, heq, hmark⟩
            · obtain ⟨hpo, hpc, hpm⟩ := hdir p hp
              exact ⟨h1.order ▸ hpo, (hsame p).mpr hpc, h1.mark p ▸ hpm⟩
          · obtain ⟨k, rfl⟩ := Nat.exists_eq_succ_of_ne_zero hk
            exact cons_ne_nil _ _
          · intro p hp hpc hpm
            rcases mem_cons.mp hp with rfl | hp
            · have hz : (t1.file p).count = 0 := by rw [(hsame p).mp hpc, hmsg]
              have hnn' := hd.nonneg p (h1.nonneg p (hnn p ha))
              have hcnt := hd.count p
              omega
            · exact hzero p hp ((hsame p).mp hpc) (h1.mark p ▸ hpm)
    · next hne => exact absurd h (hne t')

theorem forEach_sweepOne_ne_none {l : List FilePtr} (hc : Closed t) (hl : ∀ p ∈ l, p ∈ t.order)
    (hnn : ∀ p ∈ t.order, 0 ≤ (t.file p).count) (hopen : openFiles t < fuel)
    (hcount : ∀ p ∈ t.order, (t.file p).count < fuel) :
    forEach (sweepOne fuel) l t ≠ none := by
  induction l generalizing t with
  | nil => exact Option.some_ne_none _
  | cons a l ih =>
    have ha := hl a mem_cons_self
    have hl' : ∀ p ∈ l, p ∈ t.order := fun p hp => hl p (mem_cons_of_mem a hp)
    rw [forEach]
    split
    · next t1 ht1 =>
        obtain ⟨rfl, -⟩ | ⟨-, -, -, k, d, -, hd⟩ := sweepOne_discards hc ha ht1
        · exact ih hc hl' hnn hopen hcount
        refine ih (hc.of_discards hd) (fun p hp => hd.order ▸ hl' p hp)
          (fun p hp => hd.nonneg p (hnn p (hd.order ▸ hp)))
          (lt_of_le_of_lt hd.openFiles_le hopen) fun p hp => ?_
        have h1 := hd.count p
        have h2 := hcount p (hd.order ▸ hp)
        omega
    · rw [sweepOne]
      split
      · exact Option.some_ne_none _
      split
      · next hcond =>
          exact discardAll_ne_none hc ha hopen hcond.1 (hnn a ha) (hcount a ha)
      · exact Option.some_ne_none _

end sweep

/-! ## The collector -/

/-- The marking loop terminates and marks exactly the live files. -/
def MarksExactly (s : Table) : Prop :=
  ∃ fuel t, markLoop fuel (clearFlags s) = some t ∧
    ∀ p ∈ s.order, (t.file p).mark = true ↔ Live s p

/-- The collector returns, and has closed exactly the unmarked files with `f_count = f_msgcount`. -/
def SweepsExactly (s : Table) : Prop :=
  ∃ fuel t, unpGc fuel s = some (.ok t) ∧
    ∀ p ∈ s.order, ((s.file p).count ≠ 0 ∧ (t.file p).count = 0) ↔ Garbage s p

/-- The collector returns, without `closef` of a file whose `f_count` is 0, and `f_msgcount` of
every file and `unp_rights` are the numbers of references left in receive buffers. -/
def DropsOnce (s : Table) : Prop :=
  ∃ fuel t, unpGc fuel s = some (.ok t) ∧
    (∀ p ∈ s.order, (t.file p).msgcount = (t.allRefs.count p : ℤ)) ∧
    t.rights = (t.allRefs.length : ℤ)

theorem markLoop_add {fuel : ℕ} {s t : Table} (h : markLoop fuel s = some t) (k : ℕ) :
    markLoop (fuel + k) s = some t := by
  induction fuel generalizing s with
  | zero => exact absurd h (by simp [markLoop])
  | succ fuel ih =>
    rw [Nat.add_right_comm, markLoop]
    rw [markLoop] at h
    split at h
    · next hz => rw [if_pos hz, h]
    · next hz => rw [if_neg hz, ih h]

theorem marking_of_markLoop {s t : Table} (hs : Consistent s) {fuel : ℕ}
    (h : markLoop fuel (clearFlags s) = some t) :
    Marking s t (fun _ => False) ∧ ∀ p ∈ s.order, (t.file p).mark = true ↔ Live s p := by
  obtain ⟨fuel', t', hrun, hmark⟩ := markLoop_spec hs
  have h1 := markLoop_add h fuel'
  have h2 := markLoop_add hrun fuel
  rw [Nat.add_comm] at h2
  obtain rfl := Option.some.inj (h1.symm.trans h2)
  exact hmark

theorem Marking.allRefs_eq {s t : Table} (hm : Marking s t (fun _ => False)) :
    t.allRefs = s.allRefs := by
  unfold Table.allRefs
  rw [hm.order]
  exact flatMap_congr fun p _ => hm.refs p

theorem Marking.sweep_of_no_garbage {s t : Table} (hm : Marking s t (fun _ => False))
    (hlive : ∀ p ∈ s.order, (t.file p).mark = true ↔ Live s p)
    (hg : ∀ p, ¬ Garbage s p) (fuel : ℕ) : sweep fuel t = some (.ok t) := by
  suffices hall : ∀ l : List FilePtr, (∀ p ∈ l, p ∈ s.order) →
      forEach (sweepOne fuel) l t = some (.ok t) by
    exact hall t.order fun p hp => hm.order ▸ hp
  intro l hl
  induction l with
  | nil => rfl
  | cons a l ih =>
    have ha := hl a mem_cons_self
    have hone : sweepOne fuel t a = some (.ok t) := by
      rw [sweepOne]
      split
      · rfl
      next hz =>
        refine if_neg fun hcond => hg a ⟨ha, ?_, ?_, fun hl => ?_⟩
        · rw [← hm.count a, ← hm.msgcount a]
          exact hcond.1
        · rw [← hm.count a]
          exact hz
        · rw [(hlive a ha).mpr hl] at hcond
          exact absurd hcond.2 (by simp)
    rw [forEach, hone]
    exact ih fun p hp => hl p (mem_cons_of_mem a hp)

section marked

variable {s t : Table} (hs : Consistent s) (hm : Marking s t (fun _ => False))
include hs hm

theorem Marking.closed : Closed t where
  nodup := hm.order ▸ hs.nodup
  refs_mem p hp q hq := hm.order ▸ hs.refs_mem p (hm.order ▸ hp) q (hm.refs p ▸ hq)

theorem Marking.count_nonneg (p : FilePtr) (hp : p ∈ t.order) : 0 ≤ (t.file p).count := by
  have hp' : p ∈ s.order := hm.order ▸ hp
  have hmsg := hs.msgcount_eq p hp'
  have hle := hs.msgcount_le p hp'
  rw [hm.count p]
  omega

theorem Marking.exists_direct (hlive : ∀ p ∈ s.order, (t.file p).mark = true ↔ Live s p)
    {g : FilePtr} (hg : Garbage s g) {fuel : ℕ} {t' : Table} (h : sweep fuel t = some (.ok t')) :
    ∃ direct d, Discards t t' direct d ∧ direct ≠ [] ∧
      (∀ p ∈ direct, p ∈ s.order ∧ (t.file p).count = (t.file p).msgcount ∧ ¬ Live s p) ∧
      ∀ p ∈ s.order, (t.file p).count = (t.file p).msgcount → ¬ Live s p →
        (t'.file p).count = 0 := by
  have hunmarked : ∀ p ∈ s.order, (t.file p).mark = false ↔ ¬ Live s p := by
    intro p hp
    rw [← hlive p hp, Bool.not_eq_true]
  obtain ⟨direct, d, hd, hdir, hcases, hzero⟩ :=
    forEach_sweepOne (hm.closed hs) (fun p hp => hp) (hm.count_nonneg hs) h
  refine ⟨direct, d, hd, ?_, ?_, ?_⟩
  · rcases hcases with ⟨-, hnone⟩ | hne
    · obtain ⟨hgo, hgc, hgz, hgl⟩ := hg
      rcases hnone g (hm.order ▸ hgo) with hz | hz
      · rw [hm.count g] at hz
        exact absurd hz hgz
      · refine absurd ⟨?_, (hunmarked g hgo).mpr hgl⟩ hz
        rw [hm.count g, hm.msgcount g, hgc]
    · exact hne
  · intro p hp
    obtain ⟨hpo, hpc, hpm⟩ := hdir p hp
    have hpo' : p ∈ s.order := hm.order ▸ hpo
    exact ⟨hpo', hpc, (hunmarked p hpo').mp hpm⟩
  · intro p hp hpc hpl
    exact hzero p (hm.order ▸ hp) hpc ((hunmarked p hp).mpr hpl)

/-- **The references that the sweep leaves behind** are held by other garbage, whose buffers the
same sweep flushes: the sweep of a table with garbage does not return. -/
theorem Marking.sweep_ne_ok (hlive : ∀ p ∈ s.order, (t.file p).mark = true ↔ Live s p)
    {g : FilePtr} (hg : Garbage s g) {fuel : ℕ} {t' : Table} : sweep fuel t ≠ some (.ok t') := by
  intro h
  obtain ⟨direct, d, hd, hne, hdir, hzero⟩ := hm.exists_direct hs hlive hg h
  obtain ⟨x, hx⟩ := exists_mem_of_ne_nil direct hne
  obtain ⟨hxo, hxc, hxl⟩ := hdir x hx
  have hleft : 0 < t'.allRefs.count x := by
    have hpos : 0 < direct.count x := count_pos_iff.mpr hx
    have hrefs := hd.refs_eq x
    have hmsg := hs.msgcount_eq x hxo
    have hcnt := hd.count x
    have hnn := hd.nonneg x (hm.count_nonneg hs x (hm.order ▸ hxo))
    rw [hm.allRefs_eq] at hrefs
    rw [hm.count x] at hxc hcnt
    rw [hm.msgcount x] at hxc
    omega
  obtain ⟨y, hyo, hxy⟩ := mem_flatMap.mp (count_pos_iff.mp hleft)
  rw [hd.order, hm.order] at hyo
  have hxy' : x ∈ (s.file y).refs := by
    rcases hd.flushed y with hf | hf
    · rw [← hm.refs y, ← hf]
      exact hxy
    · rw [hf] at hxy
      exact absurd hxy not_mem_nil
  have hyl : ¬ Live s y := fun hy => hxl (hy.tail hxy')
  have hyc : (t.file y).count = (t.file y).msgcount := by
    have hle := hs.msgcount_le y hyo
    by_contra hyne
    rw [hm.count y, hm.msgcount y] at hyne
    exact hyl (Root.live ⟨hyo, lt_of_le_of_ne hle (Ne.symm hyne)⟩)
  have hempty : (t'.file y).refs = [] := by
    refine hd.closed y (fun hz => ?_) (hzero y hyo hyc hyl)
    rw [hm.count y] at hz
    rw [hm.refs y]
    exact hs.closed y hyo hz
  rw [hempty] at hxy
  exact absurd hxy not_mem_nil

end marked

theorem unpGc_ne_ok {s : Table} (hs : Consistent s) {g : FilePtr} (hg : Garbage s g) {fuel : ℕ}
    {t : Table} : unpGc fuel s ≠ some (.ok t) := by
  intro h
  rw [unpGc] at h
  split at h
  · exact absurd h (by simp)
  · next t0 ht0 =>
      obtain ⟨hm, hlive⟩ := marking_of_markLoop hs ht0
      exact hm.sweep_ne_ok hs hlive hg h

theorem unpGc_panics {s : Table} (hs : Consistent s) {g : FilePtr} (hg : Garbage s g) :
    ∃ fuel, unpGc fuel s = some (.error .closef) := by
  obtain ⟨n, t, hrun, hm, -⟩ := markLoop_spec hs
  have hbound : ∀ l : List FilePtr, ∃ b : ℕ, ∀ p ∈ l, (t.file p).count < b := by
    intro l
    induction l with
    | nil => exact ⟨0, fun p hp => absurd hp not_mem_nil⟩
    | cons a l ih =>
      obtain ⟨b, hb⟩ := ih
      refine ⟨b + (t.file a).count.toNat + 1, fun p hp => ?_⟩
      rcases mem_cons.mp hp with rfl | hp
      · omega
      · have hpb := hb p hp
        omega
  obtain ⟨b, hb⟩ := hbound t.order
  obtain ⟨fuel, hfuel⟩ : ∃ fuel, fuel = n + (openFiles t + 1 + b) := ⟨_, rfl⟩
  refine ⟨fuel, ?_⟩
  have hmark : markLoop fuel (clearFlags s) = some t := hfuel ▸ markLoop_add hrun _
  have hsweep : sweep fuel t ≠ none :=
    forEach_sweepOne_ne_none (hm.closed hs) (fun p hp => hp) (hm.count_nonneg hs)
      (by omega) fun p hp => by have := hb p hp; omega
  have hne : ∀ u, unpGc fuel s ≠ some (.ok u) := fun u => unpGc_ne_ok hs hg
  rw [unpGc, hmark] at hne ⊢
  simp only at hne ⊢
  cases hres : sweep fuel t with
  | none => exact absurd hres hsweep
  | some r =>
    cases r with
    | error e => cases e; rfl
    | ok u => exact absurd hres (hne u)

theorem unpGc_of_no_garbage {s : Table} (hs : Consistent s) (hg : ∀ p, ¬ Garbage s p) :
    ∃ fuel t, unpGc fuel s = some (.ok t) ∧ Marking s t (fun _ => False) := by
  obtain ⟨fuel, t, hrun, hm, hlive⟩ := markLoop_spec hs
  refine ⟨fuel, t, ?_, hm⟩
  rw [unpGc, hrun]
  exact hm.sweep_of_no_garbage hlive hg fuel

/-- **References are dropped once when there is nothing to collect.** On a consistent table the
collector returns without `closef` of a file whose `f_count` is 0, with all counts equal to the
references left, if and only if there is no garbage; with garbage it does call `closef` of such a
file.
Source: unp_gc, unp_discard. Kind: C -/
theorem unpGc_drops_once_iff {s : Table} (hs : Consistent s) :
    (DropsOnce s ↔ ∀ p, ¬ Garbage s p) ∧
      ∀ p, Garbage s p → ∃ fuel, unpGc fuel s = some (.error .closef) := by
  refine ⟨⟨fun ⟨fuel, t, hrun, _⟩ p hg => unpGc_ne_ok hs hg hrun, fun hg => ?_⟩,
    fun p hg => unpGc_panics hs hg⟩
  obtain ⟨fuel, t, hrun, hm⟩ := unpGc_of_no_garbage hs hg
  refine ⟨fuel, t, hrun, fun p hp => ?_, ?_⟩
  · rw [hm.msgcount p, hm.allRefs_eq]
    exact hs.msgcount_eq p hp
  · rw [hm.rights, hm.allRefs_eq]
    exact hs.rights_eq

/-! ## Two tables -/

/-- A control message with one right. -/
def oneRight (a : Fin nmbuf) (lo : UInt8) : Mbuf where
  addr := a
  type := .control
  off := 0
  bytes := [16, 0, 0, 0, 0xff, 0xff, 0, 0, 1, 0, 0, 0, lo, 0, 0, 0]
  ext := none
  pkthdr := none
  eor := false
  room := by
    simp only [length_cons, length_nil]
    decide
  ext_le := mlen_le_mclbytes

/-- A Unix domain socket whose receive buffer holds one right. -/
def holder (a : Fin nmbuf) (lo : UInt8) : Socket where
  unixDomain := true
  prRights := true
  rcv := [[oneRight a lo]]
  one_rights r hr := by
    rw [mem_singleton.mp hr]
    exact List.length_filter_le _ _

/-- Two sockets, each in flight in the buffer of the other, and closed otherwise. -/
def loopTable : Table where
  order := [4, 8]
  file p := ⟨1, 1, false, false, some (holder ⟨0, nmbuf_pos⟩ (if p = 4 then 8 else 4))⟩
  rights := 2
  deferred := 0

/-- An open socket that holds a right to a second one, which holds one to a third file. -/
def chainTable : Table where
  order := [12, 8, 4]
  file p :=
    if p = 4 then ⟨1, 0, false, false, some (holder ⟨0, nmbuf_pos⟩ 8)⟩
    else if p = 8 then ⟨1, 1, false, false, some (holder ⟨1, one_lt_nmbuf⟩ 12)⟩
    else ⟨1, 1, false, false, none⟩
  rights := 2
  deferred := 0

local instance filePtrLawful : LawfulBEq FilePtr := inferInstance

def consistentB (s : Table) : Bool :=
  s.order.Nodup &&
  s.order.all (fun p => (s.file p).refs.all (· ∈ s.order) &&
    (s.file p).msgcount == (s.allRefs.count p : ℤ) &&
    decide ((s.file p).msgcount ≤ (s.file p).count) &&
    ((s.file p).count != 0 || (s.file p).refs.isEmpty)) &&
  s.rights == (s.allRefs.length : ℤ)

theorem consistent_of_consistentB {s : Table} (h : consistentB s = true) : Consistent s := by
  simp only [consistentB, Bool.and_eq_true, decide_eq_true_eq, all_eq_true, beq_iff_eq,
    Bool.or_eq_true, bne_iff_ne, List.isEmpty_iff] at h
  obtain ⟨⟨hnd, hall⟩, hrights⟩ := h
  refine ⟨hnd, fun p hp q hq => (hall p hp).1.1.1 q hq, fun p hp => (hall p hp).1.1.2,
    fun p hp => (hall p hp).1.2, fun p hp hz => ?_, hrights⟩
  exact (hall p hp).2.resolve_left fun hne => hne hz

theorem loopTable_consistent : Consistent loopTable :=
  consistent_of_consistentB (by decide)

theorem chainTable_consistent : Consistent chainTable :=
  consistent_of_consistentB (by decide)

theorem loopTable_garbage : Garbage loopTable 4 := by
  refine ⟨by decide, by decide, by decide, ?_⟩
  rintro ⟨p, hroot, -⟩
  exact absurd hroot.2 (lt_irrefl 1)

theorem chainTable_no_garbage (p : FilePtr) : ¬ Garbage chainTable p := by
  have h4 : Live chainTable 4 := Root.live (by unfold Root; decide)
  have h8 : Live chainTable 8 := h4.tail (by decide)
  have h12 : Live chainTable 12 := h8.tail (by decide)
  rintro ⟨hp, -, -, hl⟩
  have hcases : p = 12 ∨ p = 8 ∨ p = 4 := by simpa [chainTable] using hp
  rcases hcases with rfl | rfl | rfl
  · exact hl h12
  · exact hl h8
  · exact hl h4

/-- On the two sockets the collector calls `closef` of a file whose `f_count` is 0.
Source: unp_gc. Kind: C -/
theorem loopTable_not_dropsOnce :
    Consistent loopTable ∧ (∃ fuel, unpGc fuel loopTable = some (.error .closef)) ∧
      ¬ DropsOnce loopTable := by
  refine ⟨loopTable_consistent, unpGc_panics loopTable_consistent loopTable_garbage,
    fun ⟨fuel, t, hrun, _⟩ => ?_⟩
  exact unpGc_ne_ok loopTable_consistent loopTable_garbage hrun

/-- On the chain of three files nothing is dropped. Source: unp_gc. Kind: C -/
theorem unpGc_drops_once_chain : Consistent chainTable ∧ DropsOnce chainTable :=
  ⟨chainTable_consistent, (unpGc_drops_once_iff chainTable_consistent).1.mpr chainTable_no_garbage⟩

end Bsd386.Kern.Unp
