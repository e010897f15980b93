import Mathlib.Data.List.Nodup

/-!
# Lists with a pointer to the last link

A link is a place that holds a pointer to an element: the head of the list, or the `next` field of an
element. An element knows the link that points to it (`prev`), and `tail` is the last link, so that an
element can be unlinked without its list and appended without a walk.

`Queue.Holds q l`: the list from the head is `l`, all `prev` are right and `tail` is the last link. It is
kept by `unlink`, `append` and `push` (`Holds.unlink`, `Holds.append`, `Holds.push`). `push` reads the
element at the head, so that it fails on an empty list.
-/

namespace Bsd386.Lib.Tailq

open List
open Function (update update_of_ne update_self)

/-- A place that holds a pointer. -/
inductive Link (α : Type) where
  | head
  | next (x : α)
deriving DecidableEq

/-- The memory of the list: what the links hold, the back pointers, and the last link. -/
structure Queue (α : Type) where
  cell : Link α → Option α
  prev : α → Link α
  tail : Link α

variable {α : Type} {q q' : Queue α} {p : Link α} {x y : α} {l pre post : List α}

namespace Queue

/-- `*prev(x) = next(x); if (next(x)) prev(next(x)) = prev(x); else tail = prev(x);`. -/
def unlink [DecidableEq α] (q : Queue α) (x : α) : Queue α :=
  let cell := Function.update q.cell (q.prev x) (q.cell (.next x))
  match cell (.next x) with
  | some y => ⟨cell, Function.update q.prev y (q.prev x), q.tail⟩
  | none => ⟨cell, q.prev, q.prev x⟩

/-- `next(x) = NULL; prev(x) = tail; *tail = x; tail = &next(x);`. -/
def append [DecidableEq α] (q : Queue α) (x : α) : Queue α :=
  ⟨Function.update (Function.update q.cell (.next x) none) q.tail (some x),
    Function.update q.prev x q.tail, .next x⟩

/-- `next(x) = head; prev(x) = &head; prev(head) = &next(x); head = x;`, which fails when there is no
head. -/
def push [DecidableEq α] (q : Queue α) (x : α) : Option (Queue α) :=
  (q.cell .head).map fun y =>
    ⟨Function.update (Function.update q.cell (.next x) (some y)) .head (some x),
      Function.update (Function.update q.prev x .head) y (.next x), q.tail⟩

/-- The elements from the link on, up to the last link. -/
def On (q : Queue α) : Link α → List α → Prop
  | p, [] => q.cell p = none ∧ q.tail = p
  | p, x :: l => q.cell p = some x ∧ q.prev x = p ∧ q.On (.next x) l

/-- The elements between two links. -/
def Seg (q : Queue α) : Link α → List α → Prop
  | _, [] => True
  | p, x :: l => q.cell p = some x ∧ q.prev x = p ∧ q.Seg (.next x) l

def after : Link α → List α → Link α
  | p, [] => p
  | _, x :: l => after (.next x) l

/-- The list from the head, each element once. -/
structure Holds (q : Queue α) (l : List α) : Prop where
  on : q.On .head l
  nodup : l.Nodup

/-! ## Parts of a list -/

theorem on_append : q.On p (pre ++ post) ↔ q.Seg p pre ∧ q.On (after p pre) post := by
  induction pre generalizing p with
  | nil => exact ⟨fun h => ⟨trivial, h⟩, fun h => h.2⟩
  | cons x pre ih =>
    rw [cons_append, On, Seg, after, ih, and_assoc, and_assoc]

theorem after_eq_or (p : Link α) (l : List α) : after p l = p ∨ ∃ x ∈ l, after p l = .next x := by
  induction l generalizing p with
  | nil => exact .inl rfl
  | cons x l ih =>
    refine .inr ?_
    rw [after]
    rcases ih (.next x) with h | ⟨y, hy, h⟩
    · exact ⟨x, mem_cons_self, h⟩
    · exact ⟨y, mem_cons_of_mem _ hy, h⟩

theorem On.congr (h : q.On p l) (hp : q'.cell p = q.cell p)
    (hc : ∀ x ∈ l, q'.cell (.next x) = q.cell (.next x)) (hv : ∀ x ∈ l, q'.prev x = q.prev x)
    (ht : q'.tail = q.tail) : q'.On p l := by
  induction l generalizing p with
  | nil => exact ⟨hp.trans h.1, ht.trans h.2⟩
  | cons x l ih =>
    obtain ⟨h1, h2, h3⟩ := h
    refine ⟨hp.trans h1, (hv x mem_cons_self).trans h2, ?_⟩
    exact ih h3 (hc x mem_cons_self) (fun y hy => hc y (mem_cons_of_mem _ hy))
      fun y hy => hv y (mem_cons_of_mem _ hy)

theorem Seg.congr (h : q.Seg p l) (hnodup : l.Nodup) (hp : ∀ x ∈ l, p ≠ .next x)
    (hc : ∀ r, r ≠ after p l → (r = p ∨ ∃ x ∈ l, r = .next x) → q'.cell r = q.cell r)
    (hv : ∀ x ∈ l, q'.prev x = q.prev x) : q'.Seg p l := by
  induction l generalizing p with
  | nil => trivial
  | cons x l ih =>
    obtain ⟨h1, h2, h3⟩ := h
    obtain ⟨hx, hnodup⟩ := nodup_cons.mp hnodup
    have hne : p ≠ after p (x :: l) := by
      rw [after]
      rcases after_eq_or (.next x) l with heq | ⟨y, hy, heq⟩
      · rw [heq]
        exact hp x mem_cons_self
      · rw [heq]
        exact hp y (mem_cons_of_mem _ hy)
    refine ⟨(hc p hne (.inl rfl)).trans h1, (hv x mem_cons_self).trans h2, ih h3 hnodup ?_ ?_ ?_⟩
    · intro y hy heq
      obtain rfl := Link.next.inj heq
      exact hx hy
    · intro r hr hor
      refine hc r hr (.inr ?_)
      rcases hor with rfl | ⟨y, hy, rfl⟩
      · exact ⟨x, mem_cons_self, rfl⟩
      · exact ⟨y, mem_cons_of_mem _ hy, rfl⟩
    · exact fun y hy => hv y (mem_cons_of_mem _ hy)

namespace Holds

theorem head_eq (h : q.Holds l) : q.cell .head = l.head? := by
  cases l with
  | nil => exact h.on.1
  | cons x l => exact h.on.1

theorem next_eq (h : q.Holds (pre ++ x :: post)) : q.cell (.next x) = post.head? := by
  have hon := (on_append.mp h.on).2.2.2
  cases post with
  | nil => exact hon.1
  | cons y post => exact hon.1

variable [DecidableEq α]

theorem unlink (h : q.Holds (pre ++ x :: post)) : (q.unlink x).Holds (pre ++ post) := by
  have hnodup := h.nodup
  obtain ⟨hpre, hrest, hdisj⟩ := nodup_append.mp hnodup
  obtain ⟨hx, hpost⟩ := nodup_cons.mp hrest
  obtain ⟨hseg, hcell, hprev, hon⟩ := on_append.mp h.on
  obtain ⟨r, hr⟩ : ∃ r, after .head pre = r := ⟨_, rfl⟩
  rw [hr] at hcell hprev
  -- the link to `x` is none of those behind it
  have hnext : ∀ z ∈ x :: post, r ≠ .next z := by
    intro z hz heq
    rcases after_eq_or (α := α) .head pre with h0 | ⟨y, hy, h0⟩
    · rw [hr, heq] at h0
      exact absurd h0 nofun
    · rw [hr, heq] at h0
      obtain rfl := Link.next.inj h0
      exact hdisj z hy z hz rfl
  have hself : update q.cell r (q.cell (.next x)) (.next x) = q.cell (.next x) :=
    update_of_ne (hnext x mem_cons_self).symm _ _
  refine ⟨on_append.mpr ⟨?_, ?_⟩, ?_⟩
  · refine hseg.congr hpre (fun _ _ => nofun) (fun c hc _ => ?_) fun z hz => ?_
    · rw [hr] at hc
      rw [Queue.unlink, hprev]
      split <;> exact update_of_ne hc _ _
    · rw [Queue.unlink, hprev]
      rw [hself]
      cases post with
      | nil =>
        rw [hon.1]
      | cons y post =>
        rw [hon.1]
        refine update_of_ne ?_ _ _
        rintro rfl
        exact hdisj z hz z (by simp) rfl
  · rw [hr, Queue.unlink, hprev]
    rw [hself]
    cases post with
    | nil =>
      rw [hon.1]
      exact ⟨update_self .., rfl⟩
    | cons y post =>
      obtain ⟨hy, hpost⟩ := nodup_cons.mp hpost
      rw [hon.1]
      refine ⟨update_self .., update_self .., hon.2.2.congr ?_ ?_ ?_ rfl⟩
      · exact update_of_ne (hnext y (by simp)).symm _ _
      · exact fun z hz => update_of_ne (hnext z (by simp [hz])).symm _ _
      · exact fun z hz => update_of_ne (ne_of_mem_of_not_mem hz hy) _ _
  · exact (nodup_middle.mp hnodup).of_cons

theorem append (h : q.Holds l) (hx : x ∉ l) : (q.append x).Holds (l ++ [x]) := by
  have hon : q.On .head (l ++ []) := by
    rw [append_nil]
    exact h.on
  obtain ⟨hseg, hnone, htail⟩ := on_append.mp hon
  have hne : q.tail ≠ .next x := by
    rw [htail]
    intro heq
    rcases after_eq_or (α := α) .head l with h0 | ⟨y, hy, h0⟩
    · exact absurd (heq.symm.trans h0) nofun
    · obtain rfl := Link.next.inj (heq.symm.trans h0)
      exact hx hy
  refine ⟨on_append.mpr ⟨?_, ?_⟩, ?_⟩
  · refine hseg.congr h.nodup (fun _ _ => nofun) (fun c hc hor => ?_) fun z hz => ?_
    · have hcx : c ≠ .next x := by
        rintro rfl
        rcases hor with hor | ⟨y, hy, hor⟩
        · exact absurd hor nofun
        · obtain rfl := Link.next.inj hor
          exact hx hy
      rw [← htail] at hc
      exact (update_of_ne hc _ _).trans (update_of_ne hcx _ _)
    · exact update_of_ne (ne_of_mem_of_not_mem hz hx) _ _
  · rw [← htail]
    refine ⟨update_self q.tail .., update_self x .., ?_, rfl⟩
    exact (update_of_ne hne.symm _ _).trans (update_self ..)
  · exact nodup_append.mpr ⟨h.nodup, nodup_singleton x, fun a ha b hb => by
      rw [mem_singleton.mp hb]
      exact ne_of_mem_of_not_mem ha hx⟩

theorem push (h : q.Holds (y :: l)) (hx : x ∉ y :: l) :
    ∃ q', q.push x = some q' ∧ q'.Holds (x :: y :: l) := by
  obtain ⟨hcell, hprev, hon⟩ := h.on
  obtain ⟨hy, hnodup⟩ := nodup_cons.mp h.nodup
  obtain ⟨hxy, hxl⟩ := ne_and_not_mem_of_not_mem_cons hx
  obtain ⟨q', hpush, hcell', hprev', htail'⟩ : ∃ q', q.push x = some q' ∧
      q'.cell = update (update q.cell (.next x) (some y)) .head (some x) ∧
      q'.prev = update (update q.prev x .head) y (.next x) ∧ q'.tail = q.tail :=
    ⟨⟨update (update q.cell (.next x) (some y)) .head (some x),
      update (update q.prev x .head) y (.next x), q.tail⟩,
      by rw [Queue.push, hcell, Option.map_some], rfl, rfl, rfl⟩
  have hcells : ∀ z, z ≠ x → q'.cell (.next z) = q.cell (.next z) := by
    intro z hz
    have hne : Link.next z ≠ .head := nofun
    rw [hcell', update_of_ne hne, update_of_ne]
    exact fun heq => hz (Link.next.inj heq)
  refine ⟨q', hpush, ⟨?_, ?_, ?_, ?_, ?_⟩, nodup_cons.mpr ⟨hx, h.nodup⟩⟩
  · rw [hcell', update_self]
  · rw [hprev', update_of_ne hxy, update_self]
  · have hne : Link.next x ≠ .head := nofun
    rw [hcell', update_of_ne hne, update_self]
  · rw [hprev', update_self]
  · refine hon.congr (hcells y hxy.symm) (fun z hz => hcells z (ne_of_mem_of_not_mem hz hxl))
      (fun z hz => ?_) htail'
    rw [hprev', update_of_ne (ne_of_mem_of_not_mem hz hy),
      update_of_ne (ne_of_mem_of_not_mem hz hxl)]

theorem push_nil (h : q.Holds []) (x : α) : q.push x = none := by
  rw [Queue.push, h.head_eq]
  rfl

end Holds

end Queue

end Bsd386.Lib.Tailq
