import Mathlib.Data.List.Nodup
import Mathlib.Data.Set.Insert

/-!
# Circular doubly linked lists

Each node has a forward and a backward link; a header starts a circle through the nodes of its list and
back to itself, and a node that is on no list may be the header of an empty one. Removing a node clears
its backward link, so that removing it again goes through a null pointer.

`Rings k H ring`: the headers are `H` and the list of `h` is `ring h`; no node is on two of them. It is
kept by the operations: `Rings.remque_of_mem`, `Rings.remque_self`, `Rings.self` and `Rings.insque`. A
loop over a list meets its nodes in order and ends at the header (`Rings.scan_eq`, `Rings.nodes_eq`).
-/

namespace Bsd386.Lib.Insque

open Function List

/-- The links of the nodes. -/
structure Links (ν : Type) where
  forw : ν → ν
  back : ν → Option ν

variable {ν : Type} {k k' : Links ν} {p q h x y : ν} {l pre post : List ν}

namespace Links

section Ops

variable [DecidableEq ν]

/-- `x->forw->back = x->back; x->back->forw = x->forw; x->back = 0;`. -/
def remque (k : Links ν) (x : ν) : Option (Links ν) :=
  (k.back x).map fun b =>
    ⟨update k.forw b (k.forw x),
      update (update k.back (k.forw x) (some b)) x none⟩

/-- `x->forw = p->forw; p->forw = x; x->back = p; x->forw->back = x;`. -/
def insque (k : Links ν) (x p : ν) : Links ν :=
  ⟨update (update k.forw x (k.forw p)) p x,
    update (update k.back x (some p)) (k.forw p) (some x)⟩

/-- `x->forw = x; x->back = x;`. -/
def self (k : Links ν) (x : ν) : Links ν :=
  ⟨update k.forw x x, update k.back x (some x)⟩

/-- `for (c = c; c != h; c = c->forw) if (f(c)) break;`: where the loop stops. -/
def scan (k : Links ν) (h : ν) (f : ν → Bool) : ℕ → ν → Option ν
  | 0, _ => none
  | n + 1, c => if c = h then some h else if f c then some c else scan k h f n (k.forw c)

/-- The nodes that `for (c = c; c != h; c = c->forw)` meets. -/
def nodes (k : Links ν) (h : ν) : ℕ → ν → Option (List ν)
  | 0, _ => none
  | n + 1, c => if c = h then some [] else (nodes k h n (k.forw c)).map (c :: ·)

end Ops

/-- The links lead from a node through the list to a node, both ways. -/
def Seg (k : Links ν) : ν → List ν → ν → Prop
  | p, [], q => k.forw p = q ∧ k.back q = some p
  | p, x :: l, q => k.forw p = x ∧ k.back x = some p ∧ k.Seg x l q

theorem seg_append : k.Seg p (pre ++ x :: post) q ↔ k.Seg p pre x ∧ k.Seg x post q := by
  induction pre generalizing p with
  | nil =>
    constructor
    · exact fun ⟨h1, h2, h3⟩ => ⟨⟨h1, h2⟩, h3⟩
    · exact fun ⟨⟨h1, h2⟩, h3⟩ => ⟨h1, h2, h3⟩
  | cons y pre ih =>
    rw [cons_append, Seg, Seg, ih, and_assoc, and_assoc]

theorem Seg.congr (hs : k.Seg p l q) (hp : k'.forw p = k.forw p) (hq : k'.back q = k.back q)
    (hf : ∀ x ∈ l, k'.forw x = k.forw x) (hb : ∀ x ∈ l, k'.back x = k.back x) : k'.Seg p l q := by
  induction l generalizing p with
  | nil => exact ⟨hp.trans hs.1, hq.trans hs.2⟩
  | cons x l ih =>
    obtain ⟨h1, h2, h3⟩ := hs
    refine ⟨hp.trans h1, (hb x mem_cons_self).trans h2, ?_⟩
    exact ih h3 (hf x mem_cons_self) (fun y hy => hf y (mem_cons_of_mem _ hy))
      fun y hy => hb y (mem_cons_of_mem _ hy)

theorem Seg.forw_eq (hs : k.Seg p l q) : k.forw p = l.head?.getD q := by
  cases l with
  | nil => exact hs.1
  | cons x l => exact hs.1

theorem Seg.exists_back (hs : k.Seg p l q) : ∃ b ∈ p :: l, k.back q = some b := by
  induction l generalizing p with
  | nil => exact ⟨p, mem_cons_self, hs.2⟩
  | cons x l ih =>
    obtain ⟨b, hb, heq⟩ := ih hs.2.2
    exact ⟨b, mem_cons_of_mem _ hb, heq⟩

section

variable [DecidableEq ν]

theorem Seg.join {b : ν} (hpre : k.Seg p pre x) (hpost : k.Seg x post q) (hb : k.back x = some b)
    (hnodup : (p :: pre ++ x :: post).Nodup) (hq : q ∉ pre ++ x :: post)
    (hforw : k'.forw = update k.forw b (k.forw x))
    (hback : k'.back = update (update k.back (k.forw x) (some b)) x none) :
    k'.Seg p (pre ++ post) q := by
  induction pre generalizing p with
  | nil =>
    obtain rfl : p = b := Option.some.inj (hpre.2.symm.trans hb)
    obtain ⟨hp, hrest⟩ := nodup_cons.mp hnodup
    obtain ⟨hx, hnd⟩ := nodup_cons.mp hrest
    obtain ⟨hqx, hqpost⟩ := ne_and_not_mem_of_not_mem_cons hq
    have hkp : k'.forw p = k.forw x := by rw [hforw, update_self]
    cases post with
    | nil =>
      refine ⟨hkp.trans hpost.1, ?_⟩
      rw [hback, update_of_ne hqx, hpost.1, update_self]
    | cons y post =>
      obtain ⟨hy, hnd⟩ := nodup_cons.mp hnd
      obtain ⟨hqy, hqpost⟩ := ne_and_not_mem_of_not_mem_cons hqpost
      have hfx : k.forw x = y := hpost.1
      have hyx : y ≠ x := (ne_and_not_mem_of_not_mem_cons hx).1.symm
      have hfar : ∀ z, z ≠ y → z ≠ x → k'.back z = k.back z := by
        intro z hzy hzx
        rw [hback, update_of_ne hzx, hfx, update_of_ne hzy]
      have hstay : ∀ z ∈ y :: post, k'.forw z = k.forw z := by
        intro z hz
        rw [hforw, update_of_ne]
        exact ne_of_mem_of_not_mem (mem_cons_of_mem _ hz) hp
      refine ⟨hkp.trans hfx, ?_, hpost.2.2.congr (hstay y mem_cons_self) (hfar q hqy hqx) ?_ ?_⟩
      · rw [hback, update_of_ne hyx, hfx, update_self]
      · exact fun z hz => hstay z (mem_cons_of_mem _ hz)
      · intro z hz
        refine hfar z (ne_of_mem_of_not_mem hz hy) ?_
        exact ne_of_mem_of_not_mem (mem_cons_of_mem _ hz) hx
  | cons z pre ih =>
    obtain ⟨h1, h2, h3⟩ := hpre
    obtain ⟨hp, hrest⟩ := nodup_cons.mp hnodup
    obtain ⟨hqz, hq⟩ := ne_and_not_mem_of_not_mem_cons hq
    obtain ⟨hz, -⟩ := nodup_cons.mp hrest
    refine ⟨?_, ?_, ih h3 hrest hq⟩
    · obtain ⟨b', hb', heq⟩ := h3.exists_back
      obtain rfl := Option.some.inj (hb.symm.trans heq)
      rw [hforw, update_of_ne, h1]
      exact (ne_of_mem_of_not_mem (mem_append_left _ hb') hp).symm
    · have hzx : z ≠ x := by
        rintro rfl
        exact hz mem_append_cons_self
      have hzf : z ≠ k.forw x := by
        rw [hpost.forw_eq]
        cases post with
        | nil => exact hqz.symm
        | cons y post =>
          rintro rfl
          exact hz (mem_append_right _ (mem_cons_of_mem _ mem_cons_self))
      rw [hback, update_of_ne hzx, update_of_ne hzf, h2]

theorem Seg.scan_eq {f : ν → Bool} {n : ℕ} (hs : k.Seg p l h) (hh : h ∉ l) (hn : l.length < n) :
    k.scan h f n (k.forw p) = some ((l.find? f).getD h) := by
  induction l generalizing p n with
  | nil =>
    obtain ⟨n, rfl⟩ : ∃ m, n = m + 1 := ⟨n - 1, by omega⟩
    rw [hs.1, scan, if_pos rfl]
    rfl
  | cons x l ih =>
    obtain ⟨n, rfl⟩ : ∃ m, n = m + 1 := ⟨n - 1, by omega⟩
    obtain ⟨hhx, hh⟩ := ne_and_not_mem_of_not_mem_cons hh
    rw [hs.1, scan, if_neg hhx.symm, find?_cons]
    cases f x with
    | true => rfl
    | false =>
      rw [if_neg Bool.false_ne_true]
      exact ih hs.2.2 hh (by simp only [length_cons] at hn; omega)

theorem Seg.nodes_eq {n : ℕ} (hs : k.Seg p l h) (hh : h ∉ l) (hn : l.length < n) :
    k.nodes h n (k.forw p) = some l := by
  induction l generalizing p n with
  | nil =>
    obtain ⟨n, rfl⟩ : ∃ m, n = m + 1 := ⟨n - 1, by omega⟩
    rw [hs.1, nodes, if_pos rfl]
  | cons x l ih =>
    obtain ⟨n, rfl⟩ : ∃ m, n = m + 1 := ⟨n - 1, by omega⟩
    obtain ⟨hhx, hh⟩ := ne_and_not_mem_of_not_mem_cons hh
    rw [hs.1, nodes, if_neg hhx.symm, ih hs.2.2 hh (by simp only [length_cons] at hn; omega)]
    rfl

end

end Links

/-! ## Several lists -/

open Links

/-- The headers and their lists; each node is on one list at most. -/
structure Rings (k : Links ν) (H : Set ν) (ring : ν → List ν) : Prop where
  seg : ∀ h ∈ H, k.Seg h (ring h) h
  nodup : ∀ h ∈ H, (ring h).Nodup
  notMem : ∀ h ∈ H, ∀ x ∈ ring h, x ∉ H
  apart : ∀ h ∈ H, ∀ h' ∈ H, ∀ x ∈ ring h, x ∈ ring h' → h = h'

namespace Rings

variable {H : Set ν} {ring : ν → List ν}

theorem congr {H' : Set ν} (hr : Rings k H ring) (hH : H' ⊆ H)
    (hf : ∀ h ∈ H', ∀ x ∈ h :: ring h, k'.forw x = k.forw x)
    (hb : ∀ h ∈ H', ∀ x ∈ h :: ring h, k'.back x = k.back x) : Rings k' H' ring where
  seg := fun h hh => (hr.seg h (hH hh)).congr (hf h hh h mem_cons_self)
    (hb h hh h mem_cons_self) (fun x hx => hf h hh x (mem_cons_of_mem _ hx))
    fun x hx => hb h hh x (mem_cons_of_mem _ hx)
  nodup := fun h hh => hr.nodup h (hH hh)
  notMem := fun h hh x hx hxH => hr.notMem h (hH hh) x hx (hH hxH)
  apart := fun h hh h' hh' => hr.apart h (hH hh) h' (hH hh')

theorem ne_of_mem (hr : Rings k H ring) {h' : ν} (hh : h ∈ H) (hh' : h' ∈ H) (hne : h' ≠ h)
    (hx : x ∈ h :: ring h) (hy : y ∈ h' :: ring h') : x ≠ y := by
  rintro rfl
  rcases mem_cons.mp hx with rfl | hx <;> rcases mem_cons.mp hy with heq | hy
  · exact hne heq.symm
  · exact hr.notMem h' hh' x hy hh
  · exact hr.notMem h hh x hx (heq ▸ hh')
  · exact hne (hr.apart h' hh' h hh x hy hx)

section

variable [DecidableEq ν]

section

variable (hr : Rings k H ring)
include hr

theorem set (hh : h ∈ H) (hseg : k'.Seg h l h) (hnodup : l.Nodup)
    (hl : ∀ x ∈ l, x ∉ H ∧ ∀ h' ∈ H, h' ≠ h → x ∉ ring h')
    (hf : ∀ h' ∈ H, h' ≠ h → ∀ x ∈ h' :: ring h', k'.forw x = k.forw x)
    (hb : ∀ h' ∈ H, h' ≠ h → ∀ x ∈ h' :: ring h', k'.back x = k.back x) :
    Rings k' H (update ring h l) where
  seg := by
    intro h' hh'
    by_cases hne : h' = h
    · subst hne
      rw [update_self]
      exact hseg
    rw [update_of_ne hne]
    exact (hr.seg h' hh').congr (hf h' hh' hne h' mem_cons_self)
      (hb h' hh' hne h' mem_cons_self) (fun x hx => hf h' hh' hne x (mem_cons_of_mem _ hx))
      fun x hx => hb h' hh' hne x (mem_cons_of_mem _ hx)
  nodup := by
    intro h' hh'
    by_cases hne : h' = h
    · subst hne
      rw [update_self]
      exact hnodup
    · rw [update_of_ne hne]
      exact hr.nodup h' hh'
  notMem := by
    intro h' hh' x hx
    by_cases hne : h' = h
    · subst hne
      rw [update_self] at hx
      exact (hl x hx).1
    · rw [update_of_ne hne] at hx
      exact hr.notMem h' hh' x hx
  apart := by
    intro h1 hh1 h2 hh2 x hx1 hx2
    by_cases hne1 : h1 = h <;> by_cases hne2 : h2 = h
    · exact hne1.trans hne2.symm
    · rw [hne1, update_self] at hx1
      rw [update_of_ne hne2] at hx2
      exact absurd hx2 ((hl x hx1).2 h2 hh2 hne2)
    · rw [hne2, update_self] at hx2
      rw [update_of_ne hne1] at hx1
      exact absurd hx1 ((hl x hx2).2 h1 hh1 hne1)
    · rw [update_of_ne hne1] at hx1
      rw [update_of_ne hne2] at hx2
      exact hr.apart h1 hh1 h2 hh2 x hx1 hx2

theorem remque_of_mem (hh : h ∈ H) (hring : ring h = pre ++ x :: post) :
    ∃ k', k.remque x = some k' ∧ Rings k' H (update ring h (pre ++ post)) := by
  have hseg := hr.seg h hh
  have hnodup := hr.nodup h hh
  have hnotMem := hr.notMem h hh
  rw [hring] at hseg hnodup hnotMem
  have hhring : h ∉ pre ++ x :: post := fun hmem => hnotMem h hmem hh
  obtain ⟨hpre, hpost⟩ := seg_append.mp hseg
  obtain ⟨b, hbmem, hb⟩ := hpre.exists_back
  -- the two neighbours are the header or on the list
  have hb1 : b ∈ h :: ring h := by
    rw [hring]
    rcases mem_cons.mp hbmem with rfl | hmem
    · exact mem_cons_self
    · exact mem_cons_of_mem _ (mem_append_left _ hmem)
  have hx1 : x ∈ h :: ring h := by simp [hring]
  have hf1 : k.forw x ∈ h :: ring h := by
    rw [hpost.forw_eq, hring]
    cases post with
    | nil => exact mem_cons_self
    | cons y post => simp
  obtain ⟨k', hk', hforw, hback⟩ : ∃ k', k.remque x = some k' ∧
      k'.forw = update k.forw b (k.forw x) ∧
      k'.back = update (update k.back (k.forw x) (some b)) x none :=
    ⟨⟨update k.forw b (k.forw x),
      update (update k.back (k.forw x) (some b)) x none⟩,
      by rw [Links.remque, hb, Option.map_some], rfl, rfl⟩
  refine ⟨k', hk', hr.set hh ?_ (nodup_middle.mp hnodup).of_cons ?_ ?_ ?_⟩
  · exact hpre.join hpost hb (nodup_cons.mpr ⟨hhring, hnodup⟩) hhring hforw hback
  · intro y hy
    have hyring : y ∈ ring h := by
      rw [hring]
      rcases mem_append.mp hy with hy | hy
      · exact mem_append_left _ hy
      · exact mem_append_right _ (mem_cons_of_mem _ hy)
    exact ⟨hr.notMem h hh y hyring, fun h' hh' hne hy' => hne (hr.apart h' hh' h hh y hy' hyring)⟩
  · intro h' hh' hne y hy
    rw [hforw, update_of_ne (hr.ne_of_mem hh hh' hne hb1 hy).symm]
  · intro h' hh' hne y hy
    rw [hback, update_of_ne (hr.ne_of_mem hh hh' hne hx1 hy).symm,
      update_of_ne (hr.ne_of_mem hh hh' hne hf1 hy).symm]

theorem remque_self (hx : x ∈ H) (hring : ring x = []) :
    ∃ k', k.remque x = some k' ∧ Rings k' (H \ {x}) ring := by
  have hseg := hr.seg x hx
  rw [hring] at hseg
  obtain ⟨hforw, hback⟩ := hseg
  refine ⟨_, by rw [Links.remque, hback, Option.map_some], hr.congr (fun _ hh => hh.1) ?_ ?_⟩
  · intro h hh y hy
    have hyx : y ≠ x := hr.ne_of_mem hh.1 hx (fun heq => hh.2 heq.symm) hy mem_cons_self
    exact update_of_ne hyx _ _
  · intro h hh y hy
    have hyx : y ≠ x := hr.ne_of_mem hh.1 hx (fun heq => hh.2 heq.symm) hy mem_cons_self
    rw [hforw]
    exact (update_of_ne hyx _ _).trans (update_of_ne hyx _ _)

theorem self (hx : x ∉ H) (hfree : ∀ h ∈ H, x ∉ ring h) :
    Rings (k.self x) (insert x H) (update ring x []) := by
  have hold : ∀ h ∈ H, h ≠ x := fun h hh => ne_of_mem_of_not_mem hh hx
  have hne : ∀ h ∈ H, ∀ y ∈ h :: ring h, y ≠ x := by
    intro h hh y hy
    rcases mem_cons.mp hy with rfl | hy
    · exact hold _ hh
    · exact ne_of_mem_of_not_mem hy (hfree h hh)
  have hnil : ∀ y, y ∉ update ring x [] x := by
    intro y
    rw [update_self]
    exact not_mem_nil
  refine ⟨?_, ?_, ?_, ?_⟩
  · rintro h (rfl | hh)
    · rw [update_self]
      exact ⟨update_self h .., update_self h ..⟩
    · rw [update_of_ne (hold h hh)]
      refine (hr.seg h hh).congr ?_ ?_ (fun y hy => ?_) fun y hy => ?_
      · exact update_of_ne (hold h hh) _ _
      · exact update_of_ne (hold h hh) _ _
      · exact update_of_ne (hne h hh y (mem_cons_of_mem _ hy)) _ _
      · exact update_of_ne (hne h hh y (mem_cons_of_mem _ hy)) _ _
  · rintro h (rfl | hh)
    · rw [update_self]
      exact nodup_nil
    · rw [update_of_ne (hold h hh)]
      exact hr.nodup h hh
  · rintro h (rfl | hh) y hy
    · exact absurd hy (hnil y)
    · rw [update_of_ne (hold h hh)] at hy
      rintro (rfl | hyH)
      · exact hfree h hh hy
      · exact hr.notMem h hh y hy hyH
  · rintro h (rfl | hh) h' (rfl | hh') y hy hy'
    · rfl
    · exact absurd hy (hnil y)
    · exact absurd hy' (hnil y)
    · rw [update_of_ne (hold _ hh)] at hy
      rw [update_of_ne (hold _ hh')] at hy'
      exact hr.apart h hh h' hh' y hy hy'

theorem insque (hh : h ∈ H) (hx : x ∉ H) (hfree : ∀ h ∈ H, x ∉ ring h) :
    Rings (k.insque x h) H (update ring h (x :: ring h)) := by
  have hseg := hr.seg h hh
  have hxh : h ≠ x := ne_of_mem_of_not_mem hh hx
  have hnode : ∀ h' ∈ H, ∀ y ∈ h' :: ring h', y ≠ x := by
    intro h' hh' y hy
    rcases mem_cons.mp hy with rfl | hy
    · exact ne_of_mem_of_not_mem hh' hx
    · exact ne_of_mem_of_not_mem hy (hfree h' hh')
  have hf1 : k.forw h ∈ h :: ring h := by
    rw [hseg.forw_eq]
    cases ring h with
    | nil => exact mem_cons_self
    | cons y l => simp
  have hxf : x ≠ k.forw h := (hnode h hh _ hf1).symm
  obtain ⟨k', hk', hforw, hback⟩ : ∃ k', k.insque x h = k' ∧
      k'.forw = update (update k.forw x (k.forw h)) h x ∧
      k'.back = update (update k.back x (some h)) (k.forw h) (some x) :=
    ⟨k.insque x h, rfl, rfl, rfl⟩
  have hfx : k'.forw x = k.forw h := by rw [hforw, update_of_ne hxh.symm, update_self]
  rw [hk']
  refine hr.set hh ⟨?_, ?_, ?_⟩ (nodup_cons.mpr ⟨hfree h hh, hr.nodup h hh⟩) ?_ ?_ ?_
  · rw [hforw, update_self]
  · rw [hback, update_of_ne hxf, update_self]
  · -- the rest of the list now starts at the new node
    have hnd := hr.nodup h hh
    have hnH := hr.notMem h hh
    have hxl := hfree h hh
    cases hl : ring h with
    | nil =>
      rw [hl] at hseg
      refine ⟨hfx.trans hseg.1, ?_⟩
      rw [hback, hseg.1, update_self]
    | cons y l =>
      rw [hl] at hseg hnd hnH hxl
      obtain ⟨hfy, hby, hrest⟩ := hseg
      obtain ⟨hy, -⟩ := nodup_cons.mp hnd
      have hstay : ∀ z ∈ y :: l, k'.forw z = k.forw z := by
        intro z hz
        have hzh : z ≠ h := fun heq => hnH z hz (heq ▸ hh)
        rw [hforw, update_of_ne hzh, update_of_ne (ne_of_mem_of_not_mem hz hxl)]
      have hfar : ∀ z, z ≠ y → z ≠ x → k'.back z = k.back z := by
        intro z hzy hzx
        rw [hback, hfy, update_of_ne hzy, update_of_ne hzx]
      refine ⟨hfx.trans hfy, ?_, hrest.congr (hstay y mem_cons_self) (hfar h ?_ hxh) ?_ ?_⟩
      · rw [hback, hfy, update_self]
      · exact fun heq => hnH y mem_cons_self (heq ▸ hh)
      · exact fun z hz => hstay z (mem_cons_of_mem _ hz)
      · intro z hz
        exact hfar z (ne_of_mem_of_not_mem hz hy)
          (ne_of_mem_of_not_mem (mem_cons_of_mem _ hz) hxl)
  · intro y hy
    rcases mem_cons.mp hy with rfl | hy
    · exact ⟨hx, fun h' hh' _ => hfree h' hh'⟩
    · exact ⟨hr.notMem h hh y hy, fun h' hh' hne hy' => hne (hr.apart h' hh' h hh y hy' hy)⟩
  · intro h' hh' hne y hy
    have hyh : y ≠ h := (hr.ne_of_mem hh hh' hne mem_cons_self hy).symm
    rw [hforw, update_of_ne hyh, update_of_ne (hnode h' hh' y hy)]
  · intro h' hh' hne y hy
    rw [hback, update_of_ne (hr.ne_of_mem hh hh' hne hf1 hy).symm,
      update_of_ne (hnode h' hh' y hy)]

theorem scan_eq {f : ν → Bool} {n : ℕ} (hh : h ∈ H) (hn : (ring h).length < n) :
    k.scan h f n (k.forw h) = some (((ring h).find? f).getD h) :=
  (hr.seg h hh).scan_eq (fun hmem => hr.notMem h hh h hmem hh) hn

theorem nodes_eq {n : ℕ} (hh : h ∈ H) (hn : (ring h).length < n) :
    k.nodes h n (k.forw h) = some (ring h) :=
  (hr.seg h hh).nodes_eq (fun hmem => hr.notMem h hh h hmem hh) hn

end

end

end Rings

end Bsd386.Lib.Insque
