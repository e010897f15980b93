import Mathlib.Data.List.Basic
import Mathlib.Order.Basic
import Mathlib.Order.Lattice

/-!
# Partial functions as lists of ranges

A list of ranges, in order and without overlap, stands for a partial function on positions: inside a
range `e` the value at `a` is `val e a` (`read`). A range may be cut in two without a change of the
function (`Ranges.front`, `Ranges.back`).

* `read_split`, `Ordered.split`: cutting a range keeps the function and the order.
-/

namespace Bsd386.Lib

open List

/-- A kind of ranges with their bounds, `hi` excluded, their values, and how they are cut in two. -/
structure Ranges (α ε β : Type) [LinearOrder α] where
  lo : ε → α
  hi : ε → α
  val : ε → α → β
  front : ε → α → ε
  back : ε → α → ε
  lo_front : ∀ e a, lo (front e a) = lo e
  hi_front : ∀ e a, hi (front e a) = a
  lo_back : ∀ e a, lo (back e a) = a
  hi_back : ∀ e a, hi (back e a) = hi e
  val_front : ∀ e a x, val (front e a) x = val e x
  val_back : ∀ e a x, lo e ≤ a → a ≤ x → val (back e a) x = val e x

namespace Ranges

variable {α ε β : Type} [LinearOrder α] (R : Ranges α ε β)

/-- The partial function of a list. -/
def read (es : List ε) (a : α) : Option β :=
  es.findSome? fun e => if R.lo e ≤ a ∧ a < R.hi e then some (R.val e a) else none

/-- No range is empty, and each ends before the next begins. -/
structure Ordered (es : List ε) : Prop where
  nonempty : ∀ e ∈ es, R.lo e < R.hi e
  sorted : es.Pairwise fun x y => R.hi x ≤ R.lo y

/-- Change the ranges that begin before `b`; one that goes on beyond `b` is cut there first. -/
def editTo (f : ε → ε) (b : α) : List ε → List ε
  | [] => []
  | e :: es =>
    if R.lo e < b then
      if b < R.hi e then f (R.front e b) :: R.back e b :: es
      else f e :: editTo f b es
    else e :: es

/-- Remove the ranges that begin before `b`; of one that goes on beyond `b` the rest stays. -/
def dropTo (b : α) : List ε → List ε
  | [] => []
  | e :: es =>
    if R.lo e < b then
      if b < R.hi e then R.back e b :: es
      else dropTo b es
    else e :: es

/-- The ranges from `a` on; one that begins before `a` is cut there. -/
def cutFrom (a : α) : List ε → List ε
  | [] => []
  | e :: es =>
    if R.hi e ≤ a then cutFrom a es
    else if R.lo e < a then R.back e a :: es
    else e :: es

/-- The ranges that have a place between `a` and `b`. -/
def meeting (a b : α) (es : List ε) : List ε :=
  es.filter fun e => decide (a < b) && decide (a < R.hi e) && decide (R.lo e < b)

/-- Do the ranges cover everything from `a` to `b`, all with the property? -/
def covered (P : ε → Bool) (b : α) : α → List ε → Bool
  | a, [] => decide (b ≤ a)
  | a, e :: es =>
    if b ≤ a then true
    else if a < R.lo e then false
    else if P e then covered P b (R.hi e) es
    else false

/-- The same ranges, with what `π` makes of the values. -/
def map {γ : Type} (π : β → γ) : Ranges α ε γ where
  lo := R.lo
  hi := R.hi
  val e a := π (R.val e a)
  front := R.front
  back := R.back
  lo_front := R.lo_front
  hi_front := R.hi_front
  lo_back := R.lo_back
  hi_back := R.hi_back
  val_front e a x := congrArg π (R.val_front e a x)
  val_back e a x hlo hax := congrArg π (R.val_back e a x hlo hax)

variable {R} {e : ε} {es fs : List ε} {a b : α}

/-! ## Reading -/

theorem read_cons_of_mem (h : R.lo e ≤ a ∧ a < R.hi e) : R.read (e :: es) a = some (R.val e a) := by
  unfold read
  rw [findSome?_cons, if_pos h]

theorem read_cons_of_not_mem (h : ¬ (R.lo e ≤ a ∧ a < R.hi e)) : R.read (e :: es) a = R.read es a := by
  unfold read
  rw [findSome?_cons, if_neg h]

theorem read_append : R.read (es ++ fs) a = (R.read es a).or (R.read fs a) :=
  findSome?_append

theorem read_of_hi_le (h : ∀ e ∈ es, R.hi e ≤ a) : R.read es a = none := by
  unfold read
  rw [findSome?_eq_none_iff]
  intro e he
  exact if_neg fun hm => absurd (h e he) (not_le.mpr hm.2)

theorem read_of_lt_lo (h : ∀ e ∈ es, a < R.lo e) : R.read es a = none := by
  unfold read
  rw [findSome?_eq_none_iff]
  intro e he
  exact if_neg fun hm => absurd (h e he) (not_lt.mpr hm.1)

theorem read_map {γ : Type} (π : β → γ) : (R.map π).read es a = (R.read es a).map π := by
  induction es with
  | nil => rfl
  | cons e es ih =>
    by_cases hm : R.lo e ≤ a ∧ a < R.hi e
    · rw [read_cons_of_mem hm, read_cons_of_mem (R := R.map π) hm]
      rfl
    · rw [read_cons_of_not_mem hm, read_cons_of_not_mem (R := R.map π) hm, ih]

/-! ## Ordered lists -/

theorem Ordered.tail (h : R.Ordered (e :: es)) : R.Ordered es :=
  ⟨fun x hx => h.nonempty x (mem_cons_of_mem e hx), (pairwise_cons.mp h.sorted).2⟩

theorem Ordered.head_lt (h : R.Ordered (e :: es)) : R.lo e < R.hi e :=
  h.nonempty e mem_cons_self

theorem Ordered.head_le (h : R.Ordered (e :: es)) : ∀ x ∈ es, R.hi e ≤ R.lo x :=
  (pairwise_cons.mp h.sorted).1

theorem Ordered.cons (h : R.Ordered es) (he : R.lo e < R.hi e) (hle : ∀ x ∈ es, R.hi e ≤ R.lo x) :
    R.Ordered (e :: es) :=
  ⟨forall_mem_cons.mpr ⟨he, h.nonempty⟩, pairwise_cons.mpr ⟨hle, h.sorted⟩⟩

theorem ordered_append : R.Ordered (es ++ fs) ↔
    R.Ordered es ∧ R.Ordered fs ∧ ∀ x ∈ es, ∀ y ∈ fs, R.hi x ≤ R.lo y := by
  constructor
  · intro h
    obtain ⟨hes, hfs, hle⟩ := pairwise_append.mp h.sorted
    exact ⟨⟨fun x hx => h.nonempty x (mem_append_left fs hx), hes⟩,
      ⟨fun x hx => h.nonempty x (mem_append_right es hx), hfs⟩, hle⟩
  · rintro ⟨hes, hfs, hle⟩
    refine ⟨?_, pairwise_append.mpr ⟨hes.sorted, hfs.sorted, hle⟩⟩
    intro x hx
    rcases mem_append.mp hx with hx | hx
    · exact hes.nonempty x hx
    · exact hfs.nonempty x hx

theorem Ordered.read_tail (h : R.Ordered (e :: es)) (ha : a < R.hi e) : R.read es a = none :=
  read_of_lt_lo fun x hx => lt_of_lt_of_le ha (h.head_le x hx)

/-! ## Cutting -/

theorem read_front_back (h : R.lo e ≤ b ∧ b ≤ R.hi e) :
    R.read (R.front e b :: R.back e b :: es) a = R.read (e :: es) a := by
  by_cases hf : R.lo e ≤ a ∧ a < b
  · rw [read_cons_of_mem (by rwa [R.lo_front, R.hi_front]), R.val_front,
      read_cons_of_mem ⟨hf.1, lt_of_lt_of_le hf.2 h.2⟩]
  rw [read_cons_of_not_mem (by rwa [R.lo_front, R.hi_front])]
  by_cases hb : b ≤ a ∧ a < R.hi e
  · rw [read_cons_of_mem (by rwa [R.lo_back, R.hi_back]), R.val_back e b a h.1 hb.1,
      read_cons_of_mem ⟨h.1.trans hb.1, hb.2⟩]
  rw [read_cons_of_not_mem (by rwa [R.lo_back, R.hi_back]), read_cons_of_not_mem]
  rintro ⟨hlo, hhi⟩
  rcases lt_or_ge a b with hab | hab
  · exact hf ⟨hlo, hab⟩
  · exact hb ⟨hab, hhi⟩

theorem read_split (h : R.lo e ≤ b ∧ b ≤ R.hi e) :
    R.read (es ++ R.front e b :: R.back e b :: fs) a = R.read (es ++ e :: fs) a := by
  rw [read_append, read_append, read_front_back h]

theorem Ordered.front_back (h : R.Ordered (e :: es)) (hb : R.lo e < b ∧ b < R.hi e) :
    R.Ordered (R.front e b :: R.back e b :: es) := by
  have hback : R.Ordered (R.back e b :: es) := by
    refine h.tail.cons ?_ ?_
    · rw [R.lo_back, R.hi_back]
      exact hb.2
    · rw [R.hi_back]
      exact h.head_le
  refine hback.cons ?_ ?_
  · rw [R.lo_front, R.hi_front]
    exact hb.1
  · rw [R.hi_front]
    intro x hx
    rcases mem_cons.mp hx with rfl | hx
    · rw [R.lo_back]
    · exact hb.2.le.trans (h.head_le x hx)

theorem Ordered.split (h : R.Ordered (es ++ e :: fs)) (hb : R.lo e < b ∧ b < R.hi e) :
    R.Ordered (es ++ R.front e b :: R.back e b :: fs) := by
  obtain ⟨hes, hfs, hle⟩ := ordered_append.mp h
  refine ordered_append.mpr ⟨hes, hfs.front_back hb, ?_⟩
  intro x hx y hy
  have hxe := hle x hx e mem_cons_self
  rcases mem_cons.mp hy with rfl | hy
  · rw [R.lo_front]
    exact hxe
  rcases mem_cons.mp hy with rfl | hy
  · rw [R.lo_back]
    exact hxe.trans hb.1.le
  · exact hle x hx y (mem_cons_of_mem e hy)

theorem Ordered.join (h : R.Ordered (es ++ R.front e b :: R.back e b :: fs)) : R.Ordered (es ++ e :: fs) := by
  obtain ⟨hes, hfs, hle⟩ := ordered_append.mp h
  have hlo := hfs.head_lt
  have hhi := hfs.tail.head_lt
  have hbehind := hfs.tail.head_le
  rw [R.lo_front, R.hi_front] at hlo
  rw [R.lo_back, R.hi_back] at hhi
  rw [R.hi_back] at hbehind
  refine ordered_append.mpr ⟨hes, hfs.tail.tail.cons (hlo.trans hhi) hbehind, ?_⟩
  intro x hx y hy
  rcases mem_cons.mp hy with rfl | hy
  · have hxe := hle x hx _ mem_cons_self
    rwa [R.lo_front] at hxe
  · exact hle x hx y (mem_cons_of_mem _ (mem_cons_of_mem _ hy))

theorem Ordered.replace {e' : ε} (h : R.Ordered (es ++ e :: fs)) (hlo : R.lo e' = R.lo e)
    (hhi : R.hi e' = R.hi e) : R.Ordered (es ++ e' :: fs) := by
  obtain ⟨hes, hfs, hle⟩ := ordered_append.mp h
  refine ordered_append.mpr ⟨hes, hfs.tail.cons ?_ ?_, ?_⟩
  · rw [hlo, hhi]
    exact hfs.head_lt
  · rw [hhi]
    exact hfs.head_le
  · intro x hx y hy
    rcases mem_cons.mp hy with rfl | hy
    · rw [hlo]
      exact hle x hx e mem_cons_self
    · exact hle x hx y (mem_cons_of_mem e hy)

theorem Ordered.remove (h : R.Ordered (es ++ e :: fs)) : R.Ordered (es ++ fs) := by
  obtain ⟨hes, hfs, hle⟩ := ordered_append.mp h
  exact ordered_append.mpr ⟨hes, hfs.tail, fun x hx y hy => hle x hx y (mem_cons_of_mem e hy)⟩

/-! ## Changing and removing -/

/-- **Changes.** A change of the ranges before `b` that keeps their bounds changes the function before
`b` only. -/
theorem read_editTo {f : ε → ε} {g : β → β} (hlo : ∀ e, R.lo (f e) = R.lo e)
    (hhi : ∀ e, R.hi (f e) = R.hi e) (hval : ∀ e x, R.val (f e) x = g (R.val e x))
    (h : R.Ordered es) :
    R.read (R.editTo f b es) a = if a < b then (R.read es a).map g else R.read es a := by
  have hf : ∀ x xs, R.read (f x :: xs) a =
      if R.lo x ≤ a ∧ a < R.hi x then some (g (R.val x a)) else R.read xs a := by
    intro x xs
    split_ifs with hm
    · rw [read_cons_of_mem (by rwa [hlo, hhi]), hval]
    · rw [read_cons_of_not_mem (by rwa [hlo, hhi])]
  induction es with
  | nil => exact (ite_self none).symm
  | cons e es ih =>
    unfold editTo
    by_cases hlt : R.lo e < b
    · rw [if_pos hlt]
      by_cases hcut : b < R.hi e
      · rw [if_pos hcut, hf, R.lo_front, R.hi_front, R.val_front]
        by_cases hab : a < b
        · rw [if_pos hab]
          by_cases hle : R.lo e ≤ a
          · rw [if_pos ⟨hle, hab⟩, read_cons_of_mem ⟨hle, hab.trans hcut⟩]
            rfl
          rw [if_neg fun hm => hle hm.1, read_cons_of_not_mem, read_cons_of_not_mem fun hm => hle hm.1,
            h.read_tail (hab.trans hcut)]
          · rfl
          · rw [R.lo_back]
            exact fun hm => absurd hab (not_lt.mpr hm.1)
        · rw [if_neg hab, if_neg fun hm => hab hm.2]
          rw [← read_front_back (b := b) (e := e) ⟨hlt.le, hcut.le⟩, read_cons_of_not_mem (e := R.front e b)]
          rw [R.hi_front]
          exact fun hm => hab hm.2
      · rw [if_neg hcut, hf, ih h.tail]
        by_cases hm : R.lo e ≤ a ∧ a < R.hi e
        · rw [if_pos hm, read_cons_of_mem hm, if_pos (lt_of_lt_of_le hm.2 (not_lt.mp hcut))]
          rfl
        · rw [if_neg hm, read_cons_of_not_mem hm]
    · rw [if_neg hlt]
      by_cases hab : a < b
      · rw [if_pos hab]
        have hnone : R.read (e :: es) a = none := by
          rw [read_cons_of_not_mem fun hm => hlt (lt_of_le_of_lt hm.1 hab)]
          exact h.read_tail ((lt_of_lt_of_le hab (not_lt.mp hlt)).trans h.head_lt)
        rw [hnone]
        rfl
      · rw [if_neg hab]

theorem editTo_map {γ : Type} (π : β → γ) (f : ε → ε) : (R.map π).editTo f b es = R.editTo f b es := by
  induction es with
  | nil => rfl
  | cons e es ih =>
    unfold editTo
    rw [ih]
    rfl

theorem hi_le_of_mem_editTo {f : ε → ε} (hhi : ∀ e, R.hi (f e) = R.hi e) (h : R.Ordered es) : ∀ e ∈ R.editTo f b es, R.lo e < b → R.hi e ≤ b := by
  induction es with
  | nil => exact fun e he => absurd he not_mem_nil
  | cons e es ih =>
    unfold editTo
    by_cases hlt : R.lo e < b
    · rw [if_pos hlt]
      by_cases hcut : b < R.hi e
      · rw [if_pos hcut]
        refine forall_mem_cons.mpr ⟨fun _ => ?_, forall_mem_cons.mpr ⟨fun hb => ?_, ?_⟩⟩
        · rw [hhi, R.hi_front]
        · rw [R.lo_back] at hb
          exact absurd hb (lt_irrefl b)
        · exact fun x hx hb => absurd (hb.trans hcut) (not_lt.mpr (h.head_le x hx))
      · rw [if_neg hcut]
        refine forall_mem_cons.mpr ⟨fun _ => ?_, ih h.tail⟩
        rw [hhi]
        exact not_lt.mp hcut
    · rw [if_neg hlt]
      refine forall_mem_cons.mpr ⟨fun hb => absurd hb hlt, fun x hx hb => ?_⟩
      have hle := h.head_lt.le.trans (h.head_le x hx)
      exact absurd (hle.trans_lt hb) hlt

/-- **Removal.** Without the ranges before `b` nothing is mapped before `b`, and what is mapped from `b`
on stays. -/
theorem read_dropTo (h : R.Ordered es) :
    R.read (R.dropTo b es) a = if a < b then none else R.read es a := by
  induction es with
  | nil => exact (ite_self none).symm
  | cons e es ih =>
    unfold dropTo
    by_cases hlt : R.lo e < b
    · rw [if_pos hlt]
      by_cases hcut : b < R.hi e
      · rw [if_pos hcut]
        by_cases hab : a < b
        · rw [if_pos hab, read_cons_of_not_mem, h.read_tail (hab.trans hcut)]
          rw [R.lo_back]
          exact fun hm => absurd hab (not_lt.mpr hm.1)
        rw [if_neg hab, ← read_front_back (b := b) (e := e) ⟨hlt.le, hcut.le⟩,
          read_cons_of_not_mem (e := R.front e b)]
        rw [R.hi_front]
        exact fun hm => hab hm.2
      · rw [if_neg hcut, ih h.tail]
        by_cases hab : a < b
        · rw [if_pos hab, if_pos hab]
        · rw [if_neg hab, if_neg hab, read_cons_of_not_mem]
          exact fun hm => hcut (lt_of_le_of_lt (not_lt.mp hab) hm.2)
    · rw [if_neg hlt]
      by_cases hab : a < b
      · rw [if_pos hab, read_cons_of_not_mem fun hm => hlt (lt_of_le_of_lt hm.1 hab)]
        exact h.read_tail ((lt_of_lt_of_le hab (not_lt.mp hlt)).trans h.head_lt)
      · rw [if_neg hab]

theorem read_append_change {fs' : List ε} {x : α} {g : Option β → Option β} (hg : g none = none)
    (hes : ∀ e ∈ es, R.hi e ≤ a) (hfs : ∀ e ∈ fs, a ≤ R.lo e)
    (hread : R.read fs' x = if x < b then g (R.read fs x) else R.read fs x) :
    R.read (es ++ fs') x = if a ≤ x ∧ x < b then g (R.read (es ++ fs) x) else R.read (es ++ fs) x := by
  rw [read_append, read_append, hread]
  by_cases ha : a ≤ x
  · have hnone : R.read es x = none := read_of_hi_le fun e he => (hes e he).trans ha
    rw [hnone, Option.none_or, Option.none_or]
    by_cases hb : x < b
    · rw [if_pos hb, if_pos ⟨ha, hb⟩]
    · rw [if_neg hb, if_neg fun hc => hb hc.2]
  · have hnone : R.read fs x = none := read_of_lt_lo fun e he => (not_le.mp ha).trans_le (hfs e he)
    rw [hnone, hg, ite_self, if_neg fun hc => ha hc.1]

/-! ## The ranges of an interval -/

theorem cutFrom_append (hes : ∀ e ∈ es, R.hi e ≤ a) : R.cutFrom a (es ++ fs) = R.cutFrom a fs := by
  induction es with
  | nil => rfl
  | cons e es ih =>
    obtain ⟨he, hes⟩ := forall_mem_cons.mp hes
    exact (if_pos he).trans (ih hes)

theorem cutFrom_cons_of_lt (h : a < R.hi e) :
    R.cutFrom a (e :: es) = (if R.lo e < a then R.back e a else e) :: es := by
  unfold cutFrom
  rw [if_neg (not_le.mpr h)]
  split_ifs
  · rfl
  · rfl

theorem takeWhile_eq_filter (h : R.Ordered es) :
    es.takeWhile (fun e => decide (R.lo e < b)) = es.filter fun e => decide (R.lo e < b) := by
  induction es with
  | nil => rfl
  | cons e es ih =>
    by_cases hlt : R.lo e < b
    · simp [hlt, ih h.tail]
    · have hrest : ∀ x ∈ es, b ≤ R.lo x := fun x hx =>
        (not_lt.mp hlt).trans (h.head_lt.le.trans (h.head_le x hx))
      simpa [hlt] using hrest

/-- **The ranges of an interval.** A walk from `a` on, the range across `a` being cut, up to `b` meets
the ranges that have a place between `a` and `b`, as far as the cutting keeps what is asked of them. -/
theorem map_takeWhile_cutFrom {γ : Type} {φ : ε → γ} (hφ : ∀ e x, φ (R.back e x) = φ e)
    (h : R.Ordered es) :
    ((R.cutFrom a es).takeWhile fun e => decide (R.lo e < b)).map φ = (R.meeting a b es).map φ := by
  unfold meeting
  induction es with
  | nil => rfl
  | cons e es ih =>
    unfold cutFrom
    by_cases hhi : R.hi e ≤ a
    · rw [if_pos hhi, ih h.tail]
      simp [not_lt.mpr hhi]
    rw [if_neg hhi]
    have hhi' := not_le.mp hhi
    -- behind the first one everything ends after `a`
    have hrest : a < b → (es.filter fun e => decide (a < b) && decide (a < R.hi e) && decide (R.lo e < b))
        = es.takeWhile fun e => decide (R.lo e < b) := by
      intro hab
      rw [takeWhile_eq_filter h.tail]
      refine filter_congr fun x hx => ?_
      have hx' : a < R.hi x := hhi'.trans_le ((h.head_le x hx).trans (h.tail.nonempty x hx).le)
      simp [hab, hx']
    by_cases hlo : R.lo e < a
    · rw [if_pos hlo]
      by_cases hab : a < b
      · rw [filter_cons_of_pos (by simp [hab, hhi', hlo.trans hab]), hrest hab]
        simp [R.lo_back, hab, hφ]
      · simp [R.lo_back, hab]
    rw [if_neg hlo]
    by_cases hlob : R.lo e < b
    · have hab := (not_lt.mp hlo).trans_lt hlob
      rw [filter_cons_of_pos (by simp [hab, hhi', hlob]), hrest hab]
      simp [hlob]
    · have hge : ∀ x ∈ es, b ≤ R.lo x := fun x hx =>
        (not_lt.mp hlob).trans (h.head_lt.le.trans (h.head_le x hx))
      simpa [hlob] using fun x hx _ _ => hge x hx

/-! ## Looking for gaps -/

/-- **Covering.** The walk from `a`, which no range ends before, tells whether every position from
`a` to `b` is mapped to a value with the property. -/
theorem covered_iff {P : ε → Bool} {Q : β → Prop} (hPQ : ∀ e x, P e = true ↔ Q (R.val e x))
    (h : R.Ordered es) (hbelow : ∀ e ∈ es, a < R.hi e) :
    R.covered P b a es = true ↔ ∀ x, a ≤ x → x < b → ∃ v ∈ R.read es x, Q v := by
  induction es generalizing a with
  | nil =>
    unfold covered
    rw [decide_eq_true_iff]
    constructor
    · intro hba x hax hxb
      exact absurd (hba.trans hax) (not_le.mpr hxb)
    · intro hall
      by_contra hba
      obtain ⟨v, hv, -⟩ := hall a le_rfl (not_le.mp hba)
      cases hv
  | cons e es ih =>
    unfold covered
    by_cases hba : b ≤ a
    · rw [if_pos hba]
      exact ⟨fun _ x hax hxb => absurd (hba.trans hax) (not_le.mpr hxb), fun _ => rfl⟩
    rw [if_neg hba]
    have hab := not_le.mp hba
    by_cases hlo : a < R.lo e
    · rw [if_pos hlo]
      constructor
      · intro hf
        cases hf
      · intro hall
        obtain ⟨v, hv, -⟩ := hall a le_rfl hab
        rw [read_cons_of_not_mem fun hm => absurd hlo (not_lt.mpr hm.1),
          h.read_tail (hbelow e mem_cons_self)] at hv
        cases hv
    · rw [if_neg hlo]
      have hin : R.lo e ≤ a ∧ a < R.hi e := ⟨not_lt.mp hlo, hbelow e mem_cons_self⟩
      by_cases hP : P e = true
      · rw [if_pos hP, ih h.tail fun x hx => lt_of_le_of_lt (h.head_le x hx) (h.tail.nonempty x hx)]
        constructor
        · intro hall x hax hxb
          by_cases hx : x < R.hi e
          · rw [read_cons_of_mem ⟨hin.1.trans hax, hx⟩]
            exact ⟨_, rfl, (hPQ e x).mp hP⟩
          · rw [read_cons_of_not_mem fun hm => hx hm.2]
            exact hall x (not_lt.mp hx) hxb
        · intro hall x hex hxb
          have hx := hall x (hin.2.le.trans hex) hxb
          rw [read_cons_of_not_mem fun hm => absurd hex (not_le.mpr hm.2)] at hx
          exact hx
      · rw [if_neg hP]
        constructor
        · intro hf
          cases hf
        · intro hall
          obtain ⟨v, hv, hQ⟩ := hall a le_rfl hab
          rw [read_cons_of_mem hin] at hv
          rw [← Option.some.inj hv] at hQ
          exact absurd ((hPQ e a).mpr hQ) hP

end Ranges

end Bsd386.Lib
