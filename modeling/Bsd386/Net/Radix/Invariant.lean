import Bsd386.Net.Radix.Promote

/-!
# Radix trees: the invariant

`Ok off L st g` is what holds between calls of the state `st` of a routing tree with keys of `L`
bytes: the tree has the shape of a radix tree, routes with the same key are in one chain
(`Chains`), every route is annotated where a lookup needs it, and each internal node in use is the
twin of a leaf in use. The ghost state `g` names the pointers in use and the contents of all lists.

`Safe` is the condition under which a call keeps the invariant. It excludes three slips of the
source: `rn_addroute` of a known key overwrites the list of the parent when the sibling has one;
`rn_addroute` of a new key and `rn_delete` look at the first route of the neighbouring chain only.
-/

namespace Bsd386.Net.Radix

open Lib.Linked List

/-! ## Chains -/

/-- The leaves with equal keys, in chains. Source: radix.h, rn_dupedkey -/
structure Chains (off L : ℕ) (h : Heap) (live : Set Ptr) (chain : ℕ → List ℕ) : Prop where
  linked {j : ℕ} : .leaf j ∈ live → Linked h.leafDup (some j) (chain j)
  key {j e : ℕ} : .leaf j ∈ live → e ∈ chain j → SameBytes off L (h.leafKey e) (h.leafKey j)
  lt {j e : ℕ} : .leaf j ∈ live → e ∈ chain j → e < h.fresh
  node_lt {i : ℕ} : .node i ∈ live → i < h.fresh
  root {j e : ℕ} : .leaf j ∈ live → e ∈ chain j → (h.leafRoot e = true ↔ e = 0 ∨ e = 1)
  root_mask {e : ℕ} : e = 0 ∨ e = 1 → h.leafMask e = none

def routes (live : Set Ptr) (chain : ℕ → List ℕ) : Set ℕ := {e | ∃ j, .leaf j ∈ live ∧ e ∈ chain j}

/-- The chain of a leaf, read from the memory. Source: radix.h, rn_dupedkey -/
def chainFrom (h : Heap) : ℕ → Option ℕ → List ℕ
  | 0, _ => []
  | _ + 1, none => []
  | n + 1, some e => e :: chainFrom h n (h.leafDup e)

/-- The chain of a leaf in use, with enough fuel. Source: radix.h, rn_dupedkey -/
def chainOf (h : Heap) (j : ℕ) : List ℕ := chainFrom h h.fresh (some j)

variable {off L : ℕ} {h g masks masks' : Heap} {live mlive mlive' : Set Ptr} {pre : ℕ → Key}
  {chain list : ℕ → List ℕ} {E : Set ℕ} {j k e n : ℕ}

theorem chainFrom_eq {p : Option ℕ} {l : List ℕ} (hl : Linked h.leafDup p l) (hn : l.length ≤ n) :
    chainFrom h n p = l := by
  induction l generalizing p n with
  | nil =>
    obtain rfl : p = none := hl
    cases n <;> rfl
  | cons e l ih =>
    obtain ⟨rfl, hl⟩ := hl
    cases n with
    | zero => exact absurd hn (Nat.not_succ_le_zero _)
    | succ n =>
      rw [chainFrom, ih hl]
      exact Nat.le_of_succ_le_succ hn

namespace Chains

variable (hc : Chains off L h live chain)

include hc

section

variable (hj : .leaf j ∈ live)
include hj

theorem eq_cons : ∃ l, chain j = j :: l ∧ Linked h.leafDup (h.leafDup j) l := by
  have hl := hc.linked hj
  cases hch : chain j with
  | nil =>
    rw [hch] at hl
    exact absurd hl nofun
  | cons e l =>
    rw [hch] at hl
    obtain rfl := Option.some.inj hl.1
    exact ⟨l, rfl, hl.2⟩

theorem self_mem : j ∈ chain j := by
  obtain ⟨l, hl, -⟩ := hc.eq_cons hj
  rw [hl]
  exact mem_cons_self ..

theorem mem_routes : j ∈ routes live chain := ⟨j, hj, hc.self_mem hj⟩

theorem length_le : (chain j).length ≤ h.fresh :=
  (hc.linked hj).length_le fun _ he => hc.lt hj he

theorem chainOf_eq : chainOf h j = chain j :=
  chainFrom_eq (hc.linked hj) (hc.length_le hj)

end

theorem fresh_notMem : .leaf h.fresh ∉ live ∧ .node h.fresh ∉ live ∧ h.fresh ∉ routes live chain := by
  refine ⟨fun hj => ?_, fun hi => ?_, ?_⟩
  · exact absurd (hc.lt hj (hc.self_mem hj)) (Nat.lt_irrefl _)
  · exact absurd (hc.node_lt hi) (Nat.lt_irrefl _)
  · rintro ⟨j, hj, he⟩
    exact absurd (hc.lt hj he) (Nat.lt_irrefl _)

theorem unique (hs : Shape off L h live pre) (hj : .leaf j ∈ live) (hk : .leaf k ∈ live)
    (hej : e ∈ chain j) (hek : e ∈ chain k) : j = k := by
  refine hs.leaf_unique hj hk (agree_mul_iff.mpr fun i h1 h2 => ?_)
  rw [← hc.key hj hej i h1 h2, hc.key hk hek i h1 h2]

end Chains

/-! ## Frames -/

/-- More netmasks. -/
structure MoreMasks (masks masks' : Heap) (mlive mlive' : Set Ptr) : Prop where
  sub : mlive ⊆ mlive'
  leafKey (M : ℕ) : .leaf M ∈ mlive → masks'.leafKey M = masks.leafKey M
  leafB (M : ℕ) : .leaf M ∈ mlive → masks'.leafB M = masks.leafB M

theorem MoreMasks.isMask (hm : MoreMasks masks masks' mlive mlive') {M : ℕ} (hM : IsMask mlive M) :
    IsMask mlive' M := ⟨hm.sub hM.1, hM.2⟩

theorem Lists.more (hl : Lists h masks mlive live list) (hm : MoreMasks masks masks' mlive mlive') :
    Lists h masks' mlive' live list where
  linked := hl.linked
  disjoint := hl.disjoint
  lt := hl.lt
  low := hl.low
  high := hl.high
  sorted := hl.sorted
  mask hi hmi := by
    obtain ⟨h1, h2⟩ := hl.mask hi hmi
    exact ⟨hm.isMask h1, by rw [h2, hm.leafB _ h1.1]⟩

theorem Notes.more (hn : Notes off h masks mlive live pre list E)
    (hm : MoreMasks masks masks' mlive mlive') :
    Notes off h masks' mlive' live pre list E where
  mask he h1 := by
    obtain ⟨h2, h3⟩ := hn.mask he h1
    exact ⟨hm.isMask h2, by rw [h3, hm.leafB _ h2.1]⟩
  noted := hn.noted
  unnoted he h1 h2 h3 h4 := by
    rw [hm.leafB _ (hn.mask he h2).1.1]
    exact hn.unnoted he h1 h2 h3 h4
  refs := hn.refs

theorem Notes.congr (hn : Notes off h masks mlive live pre list E)
    (h1 : ∀ e ∈ E, g.leafMask e = h.leafMask e) (h2 : ∀ e ∈ E, g.leafB e = h.leafB e)
    (h3 : ∀ e ∈ E, g.leafKey e = h.leafKey e) (h4 : ∀ e ∈ E, g.leafMk e = h.leafMk e)
    (h5 : g.nodeB = h.nodeB) (h6 : g.rmMask = h.rmMask) (h7 : g.rmRefs = h.rmRefs) :
    Notes off g masks mlive live pre list E where
  mask he hM := by
    rw [h1 _ he] at hM
    rw [h2 _ he]
    exact hn.mask he hM
  noted he hm := by
    rw [h4 _ he] at hm
    obtain ⟨i, a1, a2, a3, a4⟩ := hn.noted he hm
    rw [h3 _ he, h1 _ he, h6]
    exact ⟨i, a1, (under_congr h5 _).mpr a2, a3, a4⟩
  unnoted he hm hM hi hu := by
    rw [h4 _ he] at hm
    rw [h1 _ he] at hM
    rw [h3 _ he] at hu
    rw [h5]
    exact hn.unnoted he hm hM hi ((under_congr h5 _).mp hu)
  refs hi hm := by
    obtain ⟨u, hu, hcard⟩ := hn.refs hi hm
    refine ⟨u, fun e => ?_, by rw [h7]; exact hcard⟩
    rw [hu e]
    constructor
    · rintro ⟨he, h'⟩
      exact ⟨he, by rw [h4 e he]; exact h'⟩
    · rintro ⟨he, h'⟩
      exact ⟨he, by rw [← h4 e he]; exact h'⟩

/-! ## The invariant -/

/-- What the invariant names: the pointers in use, keys of nodes, chains and lists. -/
structure Ghost where
  mlive : Set Ptr
  mpre : ℕ → Key
  live : Set Ptr
  pre : ℕ → Key
  chain : ℕ → List ℕ
  list : ℕ → List ℕ

def Ghost.routes (g : Ghost) : Set ℕ := Radix.routes g.live g.chain

/-- The key has only bits of the mask. Source: radix.c, "the bit-wise logical and of the key and
mask to be the key" -/
def Masked (off L : ℕ) (v m : Key) : Prop := ∀ i, off ≤ i → i < L → v i &&& m i = v i

/-- **The invariant.** -/
structure Ok (off L : ℕ) (st : State) (g : Ghost) : Prop where
  masks : MaskTree off st.masks g.mlive g.mpre
  shape : Shape off L st.tree g.live g.pre
  chains : Chains off L st.tree g.live g.chain
  lists : Lists st.tree st.masks g.mlive g.live g.list
  notes : Notes off st.tree st.masks g.mlive g.live g.pre g.list g.routes
  masked {e M : ℕ} : e ∈ g.routes → st.tree.leafMask e = some M →
    Masked off L (st.tree.leafKey e) (st.masks.leafKey M)
  twins (n : ℕ) : .node n ∈ g.live ↔ .leaf n ∈ g.live ∧ n ≠ 1

/-! ## Calls that keep it -/

/-- The netmask is the one with the number. -/
def SameMask (masks : Heap) : Option Key → Option ℕ → Prop
  | none, none => True
  | some m, some M => ∀ i, i < maxkeylen → padded m i = masks.leafKey M i
  | _, _ => False

/-- The list of the parent of the leaf is overwritten when a route is added to the leaf: the other
child is a node with a list.
Source: rn_addroute -/
def LosesList (h : Heap) (t : ℕ) : Prop :=
  match sibling h (h.leafP t) t with
  | .node i => h.nodeMk i ≠ none ∧ h.nodeMk (h.leafP t) ≠ none
  | .leaf _ => False

/-- A route of the chain of `k` other than the first has its index behind the bit of `p` and not
behind the bit `b`.
Source: rn_addroute, rn_delete -/
def Stranded (h : Heap) (k p b : ℕ) : Prop :=
  ∃ e ∈ (chainOf h k).tail, h.leafMask e ≠ none ∧ (h.nodeB p : ℤ) < -1 - h.leafB e ∧
    -1 - h.leafB e ≤ b

/-- The condition for adding a route. Source: rn_addroute -/
def SafeAdd (st : State) (v : Key) (netmask : Option Key) : Prop :=
  match rnSearch st.tree v depthFuel (.node 0) with
  | none => True
  | some t =>
    match firstDiff v (st.tree.leafKey t) (headOff st.tree) (vlen v) with
    | none =>
      (∃ e ∈ chainOf st.tree t, SameMask st.masks netmask (st.tree.leafMask e)) ∨
        ¬ LosesList st.tree t
    | some i =>
      match descend st.tree v (diffBit v (st.tree.leafKey t) i) depthFuel 0 with
      | some (p, .leaf k) => ¬ Stranded st.tree k p (diffBit v (st.tree.leafKey t) i)
      | _ => True

/-- The condition for deleting a route. Source: rn_delete -/
def SafeDelete (st : State) (v : Key) : Prop :=
  match rnSearch st.tree v depthFuel (.node 0) with
  | none => True
  | some t =>
    firstDiff v (st.tree.leafKey t) (headOff st.tree) (vlen v) = none →
      st.tree.leafDup t = none → st.tree.leafRoot t = false →
      match sibling st.tree (st.tree.leafP t) t with
      | .leaf k =>
        ¬ Stranded st.tree k (st.tree.nodeP (st.tree.leafP t)) (st.tree.nodeB (st.tree.leafP t))
      | .node _ => True

/-- **Safe calls.** Source: rn_addroute, rn_delete -/
def Safe (st : State) : Op → Prop
  | .add v netmask => SafeAdd st v netmask
  | .delete v _ => SafeDelete st v

/-- The arguments of a call: keys have `L` bytes, netmasks fit into `MAXKEYLEN`, and a key added has
only bits of its netmask. -/
def OpOk (off L : ℕ) : Op → Prop
  | .add v netmask => vlen v = L ∧ ∀ m, netmask = some m → vlen m ≤ maxkeylen ∧ Masked off L v (padded m)
  | .delete v _ => vlen v = L

theorem ok_initial (hoff : off < L) :
    Ok off L (initial off) ⟨firstLive, fun _ => rnZeros, firstLive, fun _ => rnZeros,
      fun j => [j], fun _ => []⟩ := by
  have hnode : ∀ {i}, .node i ∈ firstLive → i = 0 := by
    rintro i (h | h | h)
    · exact Ptr.node.inj h
    · exact absurd h nofun
    · exact absurd h nofun
  have hleaf : ∀ {j}, .leaf j ∈ firstLive → j = 0 ∨ j = 1 := by
    rintro j (h | h | h)
    · exact absurd h nofun
    · exact .inl (Ptr.leaf.inj h)
    · exact .inr (Ptr.leaf.inj h)
  constructor
  · exact maskTree_rnInithead off
  · exact shape_rnInithead hoff
  · constructor
    · intro j _
      exact ⟨rfl, rfl⟩
    · intro j e _ he
      obtain rfl := mem_singleton.mp he
      exact fun _ _ _ => rfl
    · intro j e hj he
      obtain rfl := mem_singleton.mp he
      show e < 2
      have := hleaf hj
      omega
    · intro i hi
      show i < 2
      have := hnode hi
      omega
    · intro j e _ he
      show (decide (e = 0) || decide (e = 1)) = true ↔ _
      simp
    · exact fun _ => rfl
  · constructor
    · exact fun _ => rfl
    · exact fun _ _ hm => absurd hm not_mem_nil
    · exact fun _ hm => absurd hm not_mem_nil
    · exact fun _ hm => absurd hm not_mem_nil
    · exact fun _ _ hm => absurd hm not_mem_nil
    · exact fun _ => List.Pairwise.nil
    · exact fun _ hm => absurd hm not_mem_nil
  · constructor
    · exact fun _ h => absurd h nofun
    · exact fun _ h => absurd h nofun
    · exact fun _ _ h => absurd h nofun
    · exact fun _ hm => absurd hm not_mem_nil
  · exact fun _ h => absurd h nofun
  · intro n
    constructor
    · intro hn
      obtain rfl := hnode hn
      exact ⟨.inr (.inl rfl), by decide⟩
    · rintro ⟨hn, h1⟩
      obtain rfl := (hleaf hn).resolve_right h1
      exact .inl rfl

end Bsd386.Net.Radix
