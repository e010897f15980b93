import Bsd386.Kern.Namecache.Basic
import Mathlib.Data.List.Perm.Subperm

/-!
# The lists of the name cache

`Shape c l chain`: the LRU list is `l`, with every allocated entry once, and the entries of chain `i` are
`chain i`; an entry that is on no chain is linked to itself. The calls keep it: `Shape.moveToEnd`,
`Shape.discard`, `Shape.fill_new`, `Shape.fill_old`; `Shape.nchinit` is the empty cache.

`discard` reads the head of the LRU list it has taken the entry from, and needs one that is not alone.
-/

namespace Bsd386.Kern.Namecache

open List Lib.Insque Lib.Tailq
open Function (update update_of_ne update_self)

variable {c c' : Cache} {l : List Entry} {chain : ℕ → List Entry} {e e' : Entry} {ndp : Nameidata}

/-- The heads of the table, and the entries that are on no chain.
Source: nchinit, cache_lookup -/
def headers (n m : ℕ) (chain : ℕ → List Entry) : Set Node := fun x => match x with
  | .head i => i ≤ n
  | .entry e => e < m ∧ ∀ i, e ∉ chain i

def ring (chain : ℕ → List Entry) : Node → List Node
  | .head i => (chain i).map .entry
  | .entry _ => []

def without (chain : ℕ → List Entry) (e : Entry) (i : ℕ) : List Entry := (chain i).erase e

/-- The lists in memory. -/
structure Shape (c : Cache) (l : List Entry) (chain : ℕ → List Entry) : Prop where
  lru : c.lru.Holds l
  mem : ∀ e, e ∈ l ↔ e < c.numcache
  rings : Rings c.links (headers c.nchash c.numcache chain) (ring chain)
  bound : ∀ i, ∀ e ∈ chain i, e < c.numcache ∧ i ≤ c.nchash

namespace Shape

theorem head_mem {n m i : ℕ} (hi : i ≤ n) : Node.head i ∈ headers n m chain := hi

theorem nhp_le (c : Cache) (ndp : Nameidata) : c.nhp ndp ≤ c.nchash := Nat.and_le_right

section

variable (h : Shape c l chain)
include h

theorem length_eq : l.length = c.numcache := by
  have hperm : l.Perm (range c.numcache) :=
    (perm_ext_iff_of_nodup h.lru.nodup nodup_range).mpr fun e => by
      rw [h.mem, mem_range]
  rw [hperm.length_eq, length_range]

theorem nodup (i : ℕ) : (chain i).Nodup := by
  cases hc : chain i with
  | nil => exact nodup_nil
  | cons x m =>
    have hi : i ≤ c.nchash := (h.bound i x (by rw [hc]; exact mem_cons_self)).2
    rw [← hc]
    exact (h.rings.nodup (.head i) (head_mem hi)).of_map

theorem unique {i j : ℕ} (hi : e ∈ chain i) (hj : e ∈ chain j) : i = j :=
  Node.head.inj (h.rings.apart (.head i) (head_mem (h.bound i e hi).2) (.head j)
    (head_mem (h.bound j e hj).2) (.entry e) (mem_map_of_mem hi) (mem_map_of_mem hj))

theorem length_lt (i : ℕ) : (ring chain (.head i)).length < c.numcache + 1 := by
  have hsub : chain i ⊆ range c.numcache := fun e he => mem_range.mpr (h.bound i e he).1
  have hle := (subperm_of_subset (h.nodup i) hsub).length_le
  rw [length_range] at hle
  rw [ring, length_map]
  exact Nat.lt_succ_of_le hle

theorem find_cases (ndp : Nameidata) :
    (c.find ndp = some (.head (c.nhp ndp)) ∧ ∀ e ∈ chain (c.nhp ndp), c.isFor ndp e = false) ∨
      ∃ e, c.find ndp = some (.entry e) ∧ e ∈ chain (c.nhp ndp) ∧ c.isFor ndp e = true := by
  have hcomp : c.stops ndp ∘ Node.entry = c.isFor ndp := rfl
  rw [Cache.find, h.rings.scan_eq (head_mem (nhp_le c ndp)) (h.length_lt _), ring, find?_map, hcomp]
  cases hfind : (chain (c.nhp ndp)).find? (c.isFor ndp) with
  | none =>
    refine .inl ⟨?_, fun e he => ?_⟩
    · rfl
    · exact Bool.eq_false_iff.mpr (find?_eq_none.mp hfind e he)
  | some e =>
    exact .inr ⟨e, rfl, mem_of_find?_eq_some hfind, find?_some hfind⟩

theorem congr (hlinks : c'.links = c.links) (hlru : c'.lru = c.lru) (hnchash : c'.nchash = c.nchash)
    (hnumcache : c'.numcache = c.numcache) : Shape c' l chain := by
  refine ⟨?_, ?_, ?_, ?_⟩
  · rw [hlru]
    exact h.lru
  · rw [hnumcache]
    exact h.mem
  · rw [hlinks, hnchash, hnumcache]
    exact h.rings
  · rw [hnchash, hnumcache]
    exact h.bound

theorem moveToEnd (he : e < c.numcache) :
    ∃ l', Shape (c.moveToEnd e) l' chain := by
  obtain ⟨pre, post, rfl⟩ := append_of_mem ((h.mem e).mpr he)
  rw [Cache.moveToEnd, h.lru.next_eq]
  cases post with
  | nil => exact ⟨_, h⟩
  | cons x post =>
    have hnot : e ∉ pre ++ x :: post := (nodup_middle.mp h.lru.nodup).notMem
    refine ⟨(pre ++ x :: post) ++ [e], h.lru.unlink.append hnot, fun y => ?_, h.rings, h.bound⟩
    refine Iff.trans ?_ (h.mem y)
    simp only [mem_append, mem_cons, not_mem_nil, or_false]
    tauto

theorem remque (he : e < c.numcache) :
    ∃ k', c.links.remque (.entry e) = some k' ∧
      Rings k' (headers c.nchash c.numcache chain \ {.entry e}) (ring (without chain e)) := by
  by_cases hon : ∃ i, e ∈ chain i
  · obtain ⟨i, hi⟩ := hon
    obtain ⟨pre, post, hsplit, hpre⟩ : ∃ pre post, chain i = pre ++ e :: post ∧ e ∉ pre := by
      obtain ⟨pre, post, hpre, hsplit, -⟩ := exists_erase_eq hi
      exact ⟨pre, post, hsplit, hpre⟩
    have hring : ring chain (.head i) = pre.map Node.entry ++ .entry e :: post.map Node.entry := by
      rw [ring, hsplit, map_append, map_cons]
    obtain ⟨k', hk', hrings⟩ := h.rings.remque_of_mem (head_mem (h.bound i e hi).2) hring
    have hH : headers c.nchash c.numcache chain \ {.entry e} = headers c.nchash c.numcache chain := by
      ext x
      refine ⟨fun hx => hx.1, fun hx => ⟨hx, ?_⟩⟩
      rintro rfl
      exact hx.2 i hi
    have hnew : update (ring chain) (.head i) (pre.map Node.entry ++ post.map Node.entry) =
        ring (without chain e) := by
      funext x
      cases x with
      | entry x => rfl
      | head j =>
        by_cases hj : j = i
        · subst hj
          rw [update_self, ring, without, hsplit, erase_append_right _ hpre,
            erase_cons_head, map_append]
        · have hne : Node.head j ≠ .head i := fun heq => hj (Node.head.inj heq)
          have hnot : e ∉ chain j := fun hmem => hj (h.unique hmem hi)
          rw [update_of_ne hne, ring, ring, without, erase_of_not_mem hnot]
    rw [hH, ← hnew]
    exact ⟨k', hk', hrings⟩
  · have hfree : ∀ i, e ∉ chain i := fun i hi => hon ⟨i, hi⟩
    have hself : without chain e = chain := funext fun i => erase_of_not_mem (hfree i)
    rw [hself]
    exact h.rings.remque_self (x := Node.entry e) ⟨he, hfree⟩ rfl

theorem mem_without {i : ℕ} : e' ∈ without chain e i ↔ e' ≠ e ∧ e' ∈ chain i :=
  (h.nodup i).mem_erase_iff

end

theorem discard {pre post : List Entry} (h : Shape c (pre ++ e :: post) chain)
    (hne : pre ++ post ≠ []) :
    ∃ c', c.discard e = some c' ∧ Shape c' (e :: (pre ++ post)) (without chain e) ∧
      c' = { c with links := c'.links, lru := c'.lru } := by
  have he : e < c.numcache := (h.mem e).mp (by simp)
  have hnot : e ∉ pre ++ post := (nodup_middle.mp h.lru.nodup).notMem
  obtain ⟨k', hk', hrings⟩ := h.remque he
  obtain ⟨y, m, hm⟩ := exists_cons_of_ne_nil hne
  have hunlink := h.lru.unlink
  rw [hm] at hunlink hnot ⊢
  obtain ⟨q', hq', hpush⟩ := hunlink.push hnot
  refine ⟨_, by rw [Cache.discard, hk', Option.bind_some, hq', Option.map_some], ⟨hpush, ?_, ?_, ?_⟩, rfl⟩
  · intro x
    refine Iff.trans ?_ (h.mem x)
    rw [← hm]
    simp only [mem_append, mem_cons]
    tauto
  · have hfree : ∀ x ∈ headers c.nchash c.numcache chain \ {.entry e},
        Node.entry e ∉ ring (without chain e) x := by
      intro x hx hmem
      cases x with
      | entry x => exact not_mem_nil hmem
      | head i =>
        obtain ⟨x, hx, heq⟩ := mem_map.mp hmem
        obtain rfl := Node.entry.inj heq
        exact (h.mem_without.mp hx).1 rfl
    have hself := hrings.self (fun hmem => hmem.2 rfl) hfree
    have hring : update (ring (without chain e)) (.entry e) [] = ring (without chain e) := by
      rw [Function.update_eq_self_iff]
      rfl
    have hH : insert (.entry e) (headers c.nchash c.numcache chain \ {.entry e}) =
        headers c.nchash c.numcache (without chain e) := by
      ext x
      cases x with
      | head i =>
        constructor
        · rintro (heq | hi)
          · exact absurd heq nofun
          · exact hi.1
        · exact fun hi => .inr ⟨hi, nofun⟩
      | entry x =>
        by_cases hx : x = e
        · subst hx
          refine iff_of_true (.inl rfl) ⟨he, fun i hi => ?_⟩
          exact (h.mem_without.mp hi).1 rfl
        have hne : Node.entry x ≠ .entry e := fun heq => hx (Node.entry.inj heq)
        constructor
        · rintro (heq | hi)
          · exact absurd heq hne
          · exact ⟨hi.1.1, fun i hmem => hi.1.2 i (h.mem_without.mp hmem).2⟩
        · exact fun hi => .inr ⟨⟨hi.1, fun i hmem => hi.2 i (h.mem_without.mpr ⟨hx, hmem⟩)⟩, hne⟩
    rw [hring, hH] at hself
    exact hself
  · exact fun i x hx => h.bound i x (h.mem_without.mp hx).2

/-- A new first entry of a chain. Source: cache_enter -/
def onto (chain : ℕ → List Entry) (b : ℕ) (e : Entry) : ℕ → List Entry :=
  Function.update chain b (e :: chain b)

theorem mem_onto {b i : ℕ} : e' ∈ onto chain b e i ↔ (i = b ∧ e' = e) ∨ e' ∈ chain i := by
  by_cases hi : i = b
  · subst hi
    rw [onto, update_self, mem_cons]
    simp
  · rw [onto, update_of_ne hi]
    simp [hi]

theorem insque {k : Links Node} {n m m' b : ℕ}
    (hr : Rings k (headers n m chain \ {.entry e}) (ring chain)) (hb : b ≤ n) (hfree : ∀ i, e ∉ chain i)
    (hm : ∀ x, x ≠ e → (x < m' ↔ x < m)) :
    Rings (k.insque (.entry e) (.head b)) (headers n m' (onto chain b e)) (ring (onto chain b e)) := by
  have hnot : ∀ x ∈ headers n m chain \ {.entry e}, Node.entry e ∉ ring chain x := by
    intro x hx hmem
    cases x with
    | entry x => exact not_mem_nil hmem
    | head i =>
      obtain ⟨y, hy, heq⟩ := mem_map.mp hmem
      obtain rfl := Node.entry.inj heq
      exact hfree i hy
  have hhead : Node.head b ∈ headers n m chain \ {.entry e} := ⟨hb, nofun⟩
  have hins := hr.insque hhead (fun hmem => hmem.2 rfl) hnot
  have hring : update (ring chain) (.head b) (.entry e :: ring chain (.head b)) =
      ring (onto chain b e) := by
    funext x
    cases x with
    | entry x => rfl
    | head i =>
      by_cases hi : i = b
      · subst hi
        rw [update_self, ring, ring, onto, update_self, map_cons]
      · have hne : Node.head i ≠ .head b := fun heq => hi (Node.head.inj heq)
        rw [update_of_ne hne, ring, ring, onto, update_of_ne hi]
  have hH : headers n m chain \ {.entry e} = headers n m' (onto chain b e) := by
    ext x
    cases x with
    | head i => exact ⟨fun hi => hi.1, fun hi => ⟨hi, nofun⟩⟩
    | entry x =>
      by_cases hx : x = e
      · subst hx
        refine iff_of_false (fun hmem => hmem.2 rfl) fun hmem => ?_
        exact hmem.2 b (mem_onto.mpr (.inl ⟨rfl, rfl⟩))
      have hne : Node.entry x ≠ .entry e := fun heq => hx (Node.entry.inj heq)
      constructor
      · refine fun hmem => ⟨(hm x hx).mpr hmem.1.1, fun i hi => ?_⟩
        rcases mem_onto.mp hi with ⟨-, heq⟩ | hi
        · exact hx heq
        · exact hmem.1.2 i hi
      · exact fun hmem => ⟨⟨(hm x hx).mp hmem.1, fun i hi => hmem.2 i (mem_onto.mpr (.inr hi))⟩, hne⟩
  rw [hring, hH] at hins
  exact hins

theorem fill_new (h : Shape c l chain) (hlen : ndp.niName.length ≤ nchnamlen) :
    ∃ c', { c with numcache := c.numcache + 1 }.fill c.numcache ndp = some c' ∧
      Shape c' (l ++ [c.numcache]) (onto chain (c.nhp ndp) c.numcache) ∧
      c' = { c with
        ncp := Function.update c.ncp c.numcache (c.ncpOf ndp)
        numcache := c.numcache + 1
        links := c'.links
        lru := c'.lru } := by
  have hfree : ∀ i, c.numcache ∉ chain i := fun i hi => absurd (h.bound i _ hi).1 (lt_irrefl _)
  have hl : c.numcache ∉ l := fun hmem => absurd ((h.mem _).mp hmem) (lt_irrefl _)
  have hH : headers c.nchash c.numcache chain \ {.entry c.numcache} =
      headers c.nchash c.numcache chain := by
    ext x
    refine ⟨fun hx => hx.1, fun hx => ⟨hx, ?_⟩⟩
    rintro rfl
    exact absurd hx.1 (lt_irrefl _)
  have hrings := h.rings
  rw [← hH] at hrings
  refine ⟨_, by rw [Cache.fill, if_neg (Nat.not_lt.mpr hlen)], ⟨h.lru.append hl, ?_, ?_, ?_⟩, rfl⟩
  · intro x
    rw [mem_append, h.mem, mem_singleton]
    exact Nat.lt_succ_iff_lt_or_eq.symm
  · exact insque hrings (nhp_le c ndp) hfree fun x hx => Nat.lt_succ_iff_lt_or_eq.trans (or_iff_left hx)
  · intro i x hx
    rcases mem_onto.mp hx with ⟨rfl, rfl⟩ | hx
    · exact ⟨Nat.lt_succ_self _, nhp_le c ndp⟩
    · exact ⟨Nat.lt_succ_of_lt (h.bound i x hx).1, (h.bound i x hx).2⟩

theorem fill_old (h : Shape c (e :: l) chain) (hlen : ndp.niName.length ≤ nchnamlen) :
    ∃ c', (c.links.remque (.entry e)).bind (fun links =>
        { c with lru := c.lru.unlink e, links := links }.fill e ndp) = some c' ∧
      Shape c' (l ++ [e]) (onto (without chain e) (c.nhp ndp) e) ∧
      c' = { c with
        ncp := Function.update c.ncp e (c.ncpOf ndp)
        links := c'.links
        lru := c'.lru } := by
  have he : e < c.numcache := (h.mem e).mp mem_cons_self
  have hl : e ∉ l := (nodup_cons.mp h.lru.nodup).1
  have hfree : ∀ i, e ∉ without chain e i := fun i hi => (h.mem_without.mp hi).1 rfl
  obtain ⟨k', hk', hrings⟩ := h.remque he
  have hlru : c.lru.Holds ([] ++ e :: l) := h.lru
  have hunlink : (c.lru.unlink e).Holds ([] ++ l) := hlru.unlink
  have hrest : Rings k' (headers c.nchash c.numcache (without chain e) \ {.entry e})
      (ring (without chain e)) := by
    refine hrings.congr ?_ (fun _ _ _ _ => rfl) fun _ _ _ _ => rfl
    intro x hx
    cases x with
    | head i => exact hx
    | entry x =>
      have hne : x ≠ e := fun heq => hx.2 (congrArg _ heq)
      exact ⟨⟨hx.1.1, fun i hi => hx.1.2 i (h.mem_without.mpr ⟨hne, hi⟩)⟩, hx.2⟩
  refine ⟨_, by rw [hk', Option.bind_some, Cache.fill, if_neg (Nat.not_lt.mpr hlen)],
    ⟨hunlink.append hl, ?_, ?_, ?_⟩, rfl⟩
  · intro x
    refine Iff.trans ?_ (h.mem x)
    simp only [mem_append, mem_cons, not_mem_nil, or_false]
    exact or_comm
  · exact insque hrest (nhp_le c ndp) hfree fun x _ => Iff.rfl
  · intro i x hx
    rcases mem_onto.mp hx with ⟨rfl, rfl⟩ | hx
    · exact ⟨he, nhp_le c ndp⟩
    · exact h.bound i x (h.mem_without.mp hx).2

theorem nchinit (n : ℕ) (on : Bool) (id : BitVec 32) (vId : Vnode → BitVec 32) (vMount : Vnode → Mount) :
    Shape (Cache.nchinit n on id vId vMount) [] fun _ => [] where
  lru := ⟨⟨rfl, rfl⟩, nodup_nil⟩
  mem := fun e => iff_of_false not_mem_nil (Nat.not_lt_zero e)
  rings := by
    have hnil : ∀ x, ring (fun _ => []) x = [] := by
      intro x
      cases x <;> rfl
    refine ⟨fun x _ => ?_, fun x _ => ?_, fun x _ y hy => ?_, fun x _ x' _ y hy => ?_⟩
    · rw [hnil]
      exact ⟨rfl, rfl⟩
    · rw [hnil]
      exact nodup_nil
    · rw [hnil] at hy
      exact absurd hy not_mem_nil
    · rw [hnil] at hy
      exact absurd hy not_mem_nil
  bound := fun _ _ he => absurd he not_mem_nil

end Shape

end Bsd386.Kern.Namecache
