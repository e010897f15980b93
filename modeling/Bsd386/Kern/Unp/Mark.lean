import Bsd386.Kern.Unp.Gc
import Mathlib.Algebra.Order.Group.Nat
import Mathlib.Data.List.Nodup

/-!
# The marking loop of the collector

The loop keeps that a marked file is live, that `unp_defer` is the number of files with `FDEFER`,
and that everything a marked file references is marked unless the file itself is deferred
(`Marking`). Each step of a pass that does something makes the measure `work` smaller, and a pass
over a table with deferred files does something.
-/

namespace Bsd386.Kern.Unp

open List Relation

/-! ## Live files -/

section live

variable {s : Table} (hs : Consistent s)
include hs

theorem Consistent.live_mem {q : FilePtr} (h : Live s q) : q ∈ s.order := by
  obtain ⟨p, hroot, hpath⟩ := h
  induction hpath with
  | refl => exact hroot.1
  | tail _ hedge ih => exact hs.refs_mem _ ih _ hedge

theorem Consistent.count_pos_of_ref {p q : FilePtr} (hp : p ∈ s.order)
    (hq : q ∈ (s.file p).refs) : 0 < (s.file q).count := by
  have hmem : q ∈ s.order := hs.refs_mem p hp q hq
  have hcount : 0 < s.allRefs.count q := count_pos_iff.mpr (mem_flatMap.mpr ⟨p, hp, hq⟩)
  have hmsg := hs.msgcount_eq q hmem
  have hle := hs.msgcount_le q hmem
  omega

theorem Consistent.live_count_pos {q : FilePtr} (h : Live s q) : 0 < (s.file q).count := by
  obtain ⟨p, hroot, hpath⟩ := h
  rcases ReflTransGen.cases_tail hpath with rfl | ⟨r, hr, hedge⟩
  · have hmsg := hs.msgcount_eq q hroot.1
    have hlt := hroot.2
    omega
  · exact hs.count_pos_of_ref (hs.live_mem ⟨p, hroot, hr⟩) hedge

end live

theorem Root.live {s : Table} {p : FilePtr} (h : Root s p) : Live s p := ⟨p, h, .refl⟩

theorem Live.tail {s : Table} {p q : FilePtr} (h : Live s p) (hq : q ∈ (s.file p).refs) :
    Live s q := by
  obtain ⟨r, hroot, hpath⟩ := h
  exact ⟨r, hroot, hpath.tail hq⟩

/-! ## Counting flags -/

theorem countP_eq_succ {l : List FilePtr} (hnd : l.Nodup) {q : FilePtr} (hq : q ∈ l)
    {f g : FilePtr → Bool} (hfg : ∀ p, p ≠ q → f p = g p) (hf : f q = false) (hg : g q = true) :
    l.countP g = l.countP f + 1 := by
  induction l with
  | nil => exact absurd hq not_mem_nil
  | cons a l ih =>
    obtain ⟨ha, hl⟩ := nodup_cons.mp hnd
    by_cases haq : a = q
    · subst haq
      have hrest : l.countP g = l.countP f :=
        countP_congr fun p hp => by rw [hfg p fun h => ha (h ▸ hp)]
      rw [countP_cons_of_pos hg, countP_cons_of_neg (by rw [hf]; exact Bool.false_ne_true),
        hrest]
    · rcases mem_cons.mp hq with h | hq
      · exact absurd h.symm haq
      · rw [countP_cons, countP_cons, ih hl hq, hfg a haq, Nat.add_right_comm]

/-- What remains to be done: twice the unmarked files, and the deferred ones. -/
def work (t : Table) : ℕ :=
  2 * t.order.countP (fun p => !(t.file p).mark) + t.order.countP (fun p => (t.file p).defer)

/-! ## The invariant -/

/-- The marking of the table `s`, when it has come to `t`; the files in `ex` may still have
unmarked references. -/
structure Marking (s t : Table) (ex : FilePtr → Prop) : Prop where
  order : t.order = s.order
  rights : t.rights = s.rights
  count : ∀ p, (t.file p).count = (s.file p).count
  msgcount : ∀ p, (t.file p).msgcount = (s.file p).msgcount
  sock : ∀ p, (t.file p).sock = (s.file p).sock
  live : ∀ p ∈ s.order, (t.file p).mark = true → Live s p
  mark_of_defer : ∀ p ∈ s.order, (t.file p).defer = true → (t.file p).mark = true
  deferred : t.deferred = (s.order.countP (fun p => (t.file p).defer) : ℤ)
  done : ∀ p ∈ s.order, (t.file p).mark = true → (t.file p).defer = false → ¬ ex p →
    ∀ q ∈ (s.file p).refs, (t.file q).mark = true

/-- How the flags change: marks stay, a deferred file other than `p` stays deferred, and there is
no more work than before. -/
structure Advance (t t' : Table) (p : Option FilePtr) : Prop where
  mark : ∀ q, (t.file q).mark = true → (t'.file q).mark = true
  defer : ∀ q, some q ≠ p → (t.file q).defer = true → (t'.file q).defer = true
  work_le : work t' ≤ work t

section advance

variable {t t' t'' : Table} {p : Option FilePtr}

theorem Advance.refl (t : Table) (p : Option FilePtr) : Advance t t p :=
  ⟨fun _ h => h, fun _ _ h => h, le_rfl⟩

theorem Advance.trans (h : Advance t t' p) (h' : Advance t' t'' none) : Advance t t'' p :=
  ⟨fun q hq => h'.mark q (h.mark q hq),
    fun q hqp hq => h'.defer q (Option.some_ne_none q) (h.defer q hqp hq),
    h'.work_le.trans h.work_le⟩

end advance

section steps

variable {s t : Table} {ex : FilePtr → Prop}

theorem Marking.refs (h : Marking s t ex) (p : FilePtr) : (t.file p).refs = (s.file p).refs := by
  unfold File.refs
  rw [h.sock p]

theorem Marking.unpMark (hs : Consistent s) (h : Marking s t ex) {q : FilePtr} (hq : Live s q) :
    Marking s (unpMark t q) ex ∧ Advance t (unpMark t q) none ∧
      ((unpMark t q).file q).mark = true := by
  have hmem := hs.live_mem hq
  by_cases hm : (t.file q).mark = true
  · rw [Unp.unpMark, if_pos hm]
    exact ⟨h, Advance.refl t none, hm⟩
  have hm' : (t.file q).mark = false := by simpa using hm
  have hd' : (t.file q).defer = false := by
    cases hd : (t.file q).defer with
    | false => rfl
    | true => exact absurd (h.mark_of_defer q hmem hd) hm
  rw [Unp.unpMark, if_neg hm]
  obtain ⟨t', ht'⟩ : ∃ t', { t.set q { t.file q with mark := true, defer := true } with
    deferred := t.deferred + 1 } = t' := ⟨_, rfl⟩
  have hself : t'.file q = { t.file q with mark := true, defer := true } := by
    rw [← ht']
    exact t.set_file_self ..
  have hother : ∀ p, p ≠ q → t'.file p = t.file p := by
    intro p hp
    rw [← ht']
    exact t.set_file_of_ne hp _
  have horder : t'.order = s.order := by rw [← ht']; exact h.order
  have hmark : ∀ p, (t.file p).mark = true → (t'.file p).mark = true := by
    intro p hp
    by_cases hpq : p = q
    · rw [hpq, hself]
    · rw [hother p hpq]
      exact hp
  have hdefer : ∀ p, (t.file p).defer = true → (t'.file p).defer = true := by
    intro p hp
    by_cases hpq : p = q
    · rw [hpq, hself]
    · rw [hother p hpq]
      exact hp
  have hcount := countP_eq_succ hs.nodup hmem (f := fun p => (t.file p).defer)
    (g := fun p => (t'.file p).defer) (fun p hp => by rw [hother p hp]) hd' (by rw [hself])
  have hfield : ∀ {β : Type} (f : File → β), f { t.file q with mark := true, defer := true }
      = f (t.file q) → ∀ p, f (t'.file p) = f (t.file p) := by
    intro β f hf p
    by_cases hpq : p = q
    · rw [hpq, hself, hf]
    · rw [hother p hpq]
  rw [ht']
  refine ⟨⟨horder, ?_, ?_, ?_, ?_, ?_, ?_, ?_, ?_⟩, ⟨hmark, fun p _ => hdefer p, ?_⟩,
    by rw [hself]⟩
  · rw [← ht']
    exact h.rights
  · exact fun p => (hfield File.count rfl p).trans (h.count p)
  · exact fun p => (hfield File.msgcount rfl p).trans (h.msgcount p)
  · exact fun p => (hfield File.sock rfl p).trans (h.sock p)
  · intro p hp hpm
    by_cases hpq : p = q
    · rw [hpq]
      exact hq
    · rw [hother p hpq] at hpm
      exact h.live p hp hpm
  · intro p hp hpd
    by_cases hpq : p = q
    · rw [hpq, hself]
    · rw [hother p hpq] at hpd ⊢
      exact h.mark_of_defer p hp hpd
  · rw [hcount, Int.natCast_add, ← h.deferred, ← ht']
    rfl
  · intro p hp hpm hpd hex r hr
    by_cases hpq : p = q
    · rw [hpq, hself] at hpd
      exact absurd hpd (by simp)
    · rw [hother p hpq] at hpm hpd
      exact hmark r (h.done p hp hpm hpd hex r hr)
  · have hunmark := countP_eq_succ hs.nodup hmem (f := fun p => !(t'.file p).mark)
      (g := fun p => !(t.file p).mark) (fun p hp => by rw [hother p hp]) (by rw [hself]; rfl)
      (by rw [hm']; rfl)
    unfold work
    rw [horder, h.order, hcount, hunmark]
    omega

theorem Marking.foldl_unpMark (hs : Consistent s) (h : Marking s t ex) {l : List FilePtr}
    (hl : ∀ q ∈ l, Live s q) :
    Marking s (l.foldl Unp.unpMark t) ex ∧ Advance t (l.foldl Unp.unpMark t) none ∧
      ∀ q ∈ l, ((l.foldl Unp.unpMark t).file q).mark = true := by
  induction l generalizing t with
  | nil => exact ⟨h, Advance.refl t none, fun q hq => absurd hq not_mem_nil⟩
  | cons a l ih =>
    obtain ⟨h1, hadv1, hmark1⟩ := h.unpMark hs (hl a mem_cons_self)
    obtain ⟨h2, hadv2, hmark2⟩ := ih h1 fun q hq => hl q (mem_cons_of_mem a hq)
    refine ⟨h2, hadv1.trans hadv2, fun q hq => ?_⟩
    rcases mem_cons.mp hq with rfl | hq
    · exact hadv2.mark q hmark1
    · exact hmark2 q hq

theorem Marking.scan (hs : Consistent s) {p : FilePtr} (h : Marking s t (· = p)) (hp : Live s p) :
    Marking s (scan t p) (fun _ => False) ∧ Advance t (scan t p) none := by
  obtain ⟨h1, hadv, hmark⟩ := h.foldl_unpMark hs (l := (t.file p).refs)
    (fun q hq => hp.tail (h.refs p ▸ hq))
  refine ⟨⟨h1.order, h1.rights, h1.count, h1.msgcount, h1.sock, h1.live, h1.mark_of_defer,
    h1.deferred, ?_⟩, hadv⟩
  intro q hq hqm hqd _ r hr
  by_cases hqp : q = p
  · subst hqp
    exact hmark r (h.refs q ▸ hr)
  · exact h1.done q hq hqm hqd hqp r hr

theorem Marking.set_data (h : Marking s t ex) {p : FilePtr} {f : File}
    (hc : f.count = (t.file p).count) (hm : f.msgcount = (t.file p).msgcount)
    (hk : f.sock = (t.file p).sock) (q : FilePtr) :
    ((t.set p f).file q).count = (s.file q).count ∧
      ((t.set p f).file q).msgcount = (s.file q).msgcount ∧
      ((t.set p f).file q).sock = (s.file q).sock := by
  by_cases hq : q = p
  · subst hq
    rw [t.set_file_self, hc, hm, hk]
    exact ⟨h.count q, h.msgcount q, h.sock q⟩
  · rw [t.set_file_of_ne hq]
    exact ⟨h.count q, h.msgcount q, h.sock q⟩

section

variable (hs : Consistent s) (h : Marking s t (fun _ => False))
include hs h

theorem Marking.undefer {p : FilePtr} (hp : p ∈ s.order) (hd : (t.file p).defer = true) {t' : Table}
    (ht' : { t.set p { t.file p with defer := false } with deferred := t.deferred - 1 } = t') :
    Marking s t' (· = p) ∧ Advance t t' (some p) ∧ work t' < work t := by
  have hself : t'.file p = { t.file p with defer := false } := by
    rw [← ht']
    exact t.set_file_self ..
  have hother : ∀ q, q ≠ p → t'.file q = t.file q := by
    intro q hq
    rw [← ht']
    exact t.set_file_of_ne hq _
  have horder : t'.order = s.order := by rw [← ht']; exact h.order
  have hmark : ∀ q, (t'.file q).mark = (t.file q).mark := by
    intro q
    by_cases hqp : q = p
    · rw [hqp, hself]
    · rw [hother q hqp]
  have hcount := countP_eq_succ hs.nodup hp (f := fun q => (t'.file q).defer)
    (g := fun q => (t.file q).defer) (fun q hq => by rw [hother q hq]) (by rw [hself]) hd
  have hdata := h.set_data (p := p) (f := { t.file p with defer := false }) rfl rfl rfl
  have hless : work t' < work t := by
    unfold work
    simp only [horder, h.order, hcount, hmark]
    omega
  refine ⟨⟨horder, by rw [← ht']; exact h.rights, fun q => ht' ▸ (hdata q).1,
    fun q => ht' ▸ (hdata q).2.1, fun q => ht' ▸ (hdata q).2.2, ?_, ?_, ?_, ?_⟩, ⟨?_, ?_, ?_⟩,
    hless⟩
  · exact fun q hq hqm => h.live q hq (hmark q ▸ hqm)
  · intro q hq hqd
    by_cases hqp : q = p
    · rw [hqp, hself] at hqd
      exact absurd hqd (by simp)
    · rw [hother q hqp] at hqd ⊢
      exact h.mark_of_defer q hq hqd
  · have hdef := h.deferred
    have hnew : t'.deferred = t.deferred - 1 := by rw [← ht']
    rw [hcount] at hdef
    omega
  · intro q hq hqm hqd hqp r hr
    rw [hother q hqp] at hqd
    rw [hmark r]
    exact h.done q hq (hmark q ▸ hqm) hqd not_false r hr
  · exact fun q hq => (hmark q).trans hq
  · intro q hqp hqd
    rw [hother q fun h => hqp (congrArg some h)]
    exact hqd
  · exact hless.le

theorem Marking.markRoot {p : FilePtr} (hp : Root s p) (hm : (t.file p).mark = false) {t' : Table}
    (ht' : t.set p { t.file p with mark := true } = t') :
    Marking s t' (· = p) ∧ Advance t t' (some p) ∧ (t'.file p).mark = true := by
  have hself : t'.file p = { t.file p with mark := true } := by
    rw [← ht']
    exact t.set_file_self ..
  have hother : ∀ q, q ≠ p → t'.file q = t.file q := by
    intro q hq
    rw [← ht']
    exact t.set_file_of_ne hq _
  have horder : t'.order = s.order := by rw [← ht']; exact h.order
  have hdefer : ∀ q, (t'.file q).defer = (t.file q).defer := by
    intro q
    by_cases hqp : q = p
    · rw [hqp, hself]
    · rw [hother q hqp]
  have hmark : ∀ q, (t.file q).mark = true → (t'.file q).mark = true := by
    intro q hq
    by_cases hqp : q = p
    · rw [hqp, hself]
    · rw [hother q hqp]
      exact hq
  have hcount := countP_eq_succ hs.nodup hp.1 (f := fun q => !(t'.file q).mark)
    (g := fun q => !(t.file q).mark) (fun q hq => by rw [hother q hq]) (by rw [hself]; rfl)
    (by rw [hm]; rfl)
  have hdata := h.set_data (p := p) (f := { t.file p with mark := true }) rfl rfl rfl
  refine ⟨⟨horder, by rw [← ht']; exact h.rights, fun q => ht' ▸ (hdata q).1,
    fun q => ht' ▸ (hdata q).2.1, fun q => ht' ▸ (hdata q).2.2, ?_, ?_, ?_, ?_⟩, ⟨hmark, ?_, ?_⟩,
    by rw [hself]⟩
  · intro q hq hqm
    by_cases hqp : q = p
    · rw [hqp]
      exact hp.live
    · rw [hother q hqp] at hqm
      exact h.live q hq hqm
  · exact fun q hq hqd => hmark q (h.mark_of_defer q hq (hdefer q ▸ hqd))
  · simp only [hdefer]
    rw [← ht']
    exact h.deferred
  · intro q hq hqm hqd hqp r hr
    rw [hother q hqp] at hqm
    exact hmark r (h.done q hq hqm (hdefer q ▸ hqd) not_false r hr)
  · exact fun q _ hqd => (hdefer q).trans hqd
  · unfold work
    simp only [horder, h.order, hdefer]
    rw [hcount]
    omega

/-- **One file of a pass.** The invariant stays; a deferred file is worked on, and a root is marked
afterwards. -/
theorem Marking.markOne {p : FilePtr} (hp : p ∈ s.order) :
    Marking s (markOne t p) (fun _ => False) ∧ Advance t (Unp.markOne t p) (some p) ∧
      ((t.file p).defer = true → work (Unp.markOne t p) < work t) ∧
      (Root s p → ((Unp.markOne t p).file p).mark = true) := by
  have hzero : (t.file p).count = 0 → ¬ Live s p := by
    intro hz hlive
    have hpos := hs.live_count_pos hlive
    rw [h.count p] at hz
    omega
  unfold Unp.markOne
  simp only
  split
  · next hz =>
      refine ⟨h, Advance.refl t _, fun hd => ?_, fun hroot => absurd hroot.live (hzero hz)⟩
      exact absurd (h.live p hp (h.mark_of_defer p hp hd)) (hzero hz)
  split
  · next hd =>
      have hm := h.mark_of_defer p hp hd
      obtain ⟨h1, hadv1, hless⟩ := h.undefer hs hp hd rfl
      obtain ⟨h2, hadv2⟩ := h1.scan hs (h.live p hp hm)
      refine ⟨h2, hadv1.trans hadv2, fun _ => lt_of_le_of_lt hadv2.work_le hless, fun _ => ?_⟩
      exact hadv2.mark p (hadv1.mark p hm)
  · next hd =>
      split
      · next hm => exact ⟨h, Advance.refl t _, fun hd' => absurd hd' hd, fun _ => hm⟩
      next hm =>
        split
        · next heq =>
            refine ⟨h, Advance.refl t _, fun hd' => absurd hd' hd, fun hroot => ?_⟩
            have hlt := hroot.2
            rw [h.count p, h.msgcount p] at heq
            omega
        next hne =>
          have hroot : Root s p := by
            have hle := hs.msgcount_le p hp
            rw [h.count p, h.msgcount p] at hne
            exact ⟨hp, lt_of_le_of_ne hle (Ne.symm hne)⟩
          obtain ⟨h1, hadv1, hmark⟩ := h.markRoot hs hroot (by simpa using hm) rfl
          obtain ⟨h2, hadv2⟩ := h1.scan hs hroot.live
          exact ⟨h2, hadv1.trans hadv2, fun hd' => absurd hd' hd,
            fun _ => hadv2.mark p hmark⟩

theorem Marking.foldl_markOne {l : List FilePtr} (hl : ∀ p ∈ l, p ∈ s.order) :
    Marking s (l.foldl Unp.markOne t) (fun _ => False) ∧
      (∀ q, (t.file q).mark = true → ((l.foldl Unp.markOne t).file q).mark = true) ∧
      work (l.foldl Unp.markOne t) ≤ work t ∧
      ((∃ p ∈ l, (t.file p).defer = true) → work (l.foldl Unp.markOne t) < work t) ∧
      ∀ p ∈ l, Root s p → ((l.foldl Unp.markOne t).file p).mark = true := by
  induction l generalizing t with
  | nil =>
    exact ⟨h, fun _ hq => hq, le_rfl, fun ⟨p, hp, _⟩ => absurd hp not_mem_nil,
      fun p hp => absurd hp not_mem_nil⟩
  | cons a l ih =>
    obtain ⟨h1, hadv, hless, hroot⟩ := h.markOne hs (hl a mem_cons_self)
    obtain ⟨h2, hmark2, hle2, hless2, hroot2⟩ := ih h1 fun p hp => hl p (mem_cons_of_mem a hp)
    refine ⟨h2, fun q hq => hmark2 q (hadv.mark q hq), hle2.trans hadv.work_le, ?_, ?_⟩
    · rintro ⟨p, hp, hd⟩
      by_cases hpa : p = a
      · subst hpa
        exact lt_of_le_of_lt hle2 (hless hd)
      · have hp' : p ∈ l := (mem_cons.mp hp).resolve_left hpa
        have hd' := hadv.defer p (fun h => hpa (Option.some.inj h)) hd
        exact lt_of_lt_of_le (hless2 ⟨p, hp', hd'⟩) hadv.work_le
    · intro p hp hr
      rcases mem_cons.mp hp with rfl | hp
      · exact hmark2 p (hroot hr)
      · exact hroot2 p hp hr

theorem Marking.markPass :
    Marking s (markPass t) (fun _ => False) ∧
      (t.deferred ≠ 0 → work (Unp.markPass t) < work t) ∧
      ∀ p, Root s p → ((Unp.markPass t).file p).mark = true := by
  have horder : ∀ p ∈ t.order, p ∈ s.order := fun p hp => h.order ▸ hp
  obtain ⟨h1, -, -, hless, hroot⟩ := h.foldl_markOne hs horder
  refine ⟨h1, fun hd => hless ?_, fun p hp => hroot p (h.order ▸ hp.1) hp⟩
  have hpos : 0 < s.order.countP (fun p => (t.file p).defer) := by
    rw [h.deferred] at hd
    omega
  obtain ⟨p, hp, hpd⟩ := countP_pos_iff.mp hpos
  exact ⟨p, h.order ▸ hp, hpd⟩

end

end steps

/-! ## The loop -/

theorem Marking.mark_iff_live {s t : Table} (hs : Consistent s) (h : Marking s t (fun _ => False))
    (hz : t.deferred = 0) (hroot : ∀ p, Root s p → (t.file p).mark = true) {p : FilePtr}
    (hp : p ∈ s.order) : (t.file p).mark = true ↔ Live s p := by
  have hdefer : ∀ q ∈ s.order, (t.file q).defer = false := by
    intro q hq
    have hcount : s.order.countP (fun p => (t.file p).defer) = 0 := by
      have hdef := h.deferred
      omega
    simpa using countP_eq_zero.mp hcount q hq
  refine ⟨h.live p hp, fun hlive => ?_⟩
  obtain ⟨r, hr, hpath⟩ := hlive
  clear hp
  induction hpath with
  | refl => exact hroot r hr
  | @tail a b ha hedge ih =>
    have hmem := hs.live_mem ⟨r, hr, ha⟩
    exact h.done a hmem ih (hdefer a hmem) not_false b hedge

theorem marking_clearFlags (s : Table) : Marking s (clearFlags s) (fun _ => False) := by
  have hfile : ∀ p ∈ s.order, (clearFlags s).file p
      = { s.file p with mark := false, defer := false } := fun p hp => if_pos hp
  have hdata : ∀ {β : Type} (f : File → β),
      (∀ g : File, f { g with mark := false, defer := false } = f g) →
      ∀ p, f ((clearFlags s).file p) = f (s.file p) := by
    intro β f hf p
    simp only [clearFlags]
    split
    · exact hf _
    · rfl
  refine ⟨rfl, rfl, hdata _ fun _ => rfl, hdata _ fun _ => rfl, hdata _ fun _ => rfl, ?_, ?_, ?_,
    ?_⟩
  · intro p hp hm
    rw [hfile p hp] at hm
    exact absurd hm (by simp)
  · intro p hp hd
    rw [hfile p hp] at hd
    exact absurd hd (by simp)
  · have hzero : s.order.countP (fun p => ((clearFlags s).file p).defer) = 0 := by
      rw [countP_eq_zero]
      intro p hp
      rw [hfile p hp]
      simp
    rw [hzero]
    rfl
  · intro p hp hm
    rw [hfile p hp] at hm
    exact absurd hm (by simp)

theorem markLoop_spec {s : Table} (hs : Consistent s) :
    ∃ fuel t, markLoop fuel (clearFlags s) = some t ∧ Marking s t (fun _ => False) ∧
      ∀ p ∈ s.order, (t.file p).mark = true ↔ Live s p := by
  suffices hloop : ∀ n t, work t ≤ n → Marking s t (fun _ => False) →
      ∃ fuel t', markLoop fuel t = some t' ∧ Marking s t' (fun _ => False) ∧
        ∀ p ∈ s.order, (t'.file p).mark = true ↔ Live s p by
    exact hloop _ _ le_rfl (marking_clearFlags s)
  have hpass : ∀ t, Marking s t (fun _ => False) → (markPass t).deferred = 0 →
      ∀ p ∈ s.order, ((markPass t).file p).mark = true ↔ Live s p := by
    intro t h hz p hp
    obtain ⟨h1, -, hroot⟩ := h.markPass hs
    exact h1.mark_iff_live hs hz hroot hp
  -- once a file is deferred each pass makes `work` smaller; the first pass may not
  have hdeferred : ∀ n t, work t ≤ n → t.deferred ≠ 0 → Marking s t (fun _ => False) →
      ∃ fuel t', markLoop fuel t = some t' ∧ Marking s t' (fun _ => False) ∧
        ∀ p ∈ s.order, (t'.file p).mark = true ↔ Live s p := by
    intro n
    induction n with
    | zero =>
      intro t hn hd h
      have hless := (h.markPass hs).2.1 hd
      omega
    | succ n ih =>
      intro t hn hd h
      obtain ⟨h1, hless, -⟩ := h.markPass hs
      by_cases hz : (markPass t).deferred = 0
      · exact ⟨1, markPass t, by rw [markLoop, if_pos hz], h1, hpass t h hz⟩
      · obtain ⟨fuel, t', hrun, hrest⟩ := ih (markPass t) (by have := hless hd; omega) hz h1
        exact ⟨fuel + 1, t', by rw [markLoop, if_neg hz, hrun], hrest⟩
  intro n t _ h
  obtain ⟨h1, -, -⟩ := h.markPass hs
  by_cases hz : (markPass t).deferred = 0
  · exact ⟨1, markPass t, by rw [markLoop, if_pos hz], h1, hpass t h hz⟩
  · obtain ⟨fuel, t', hrun, hrest⟩ := hdeferred _ (markPass t) le_rfl hz h1
    exact ⟨fuel + 1, t', by rw [markLoop, if_neg hz, hrun], hrest⟩

end Bsd386.Kern.Unp
