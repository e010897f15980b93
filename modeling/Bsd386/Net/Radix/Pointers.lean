import Bsd386.Net.Radix.Map

/-!
# Radix trees: the invariant of the representation

What the pointers and the keys of a routing tree are like in every state of every run, said of the
memory alone (`Trie`): the pointers that are in use are those reached from the top.
-/

namespace Bsd386.Net.Radix

open List Lib.Linked

/-- The leaf is at or below the pointer, also behind another one in a chain. -/
inductive Below (h : Heap) : Ptr → ℕ → Prop where
  | leaf (j : ℕ) : Below h (.leaf j) j
  | dup {x : Ptr} {j k : ℕ} : Below h x j → h.leafDup j = some k → Below h x k
  | child {i j : ℕ} (s : Bool) : Below h (child h i s) j → Below h (.node i) j

/-- The tree below the top node, for keys compared from the bit `first` on, where the leaves in `ends`
need no twin. Source: none: what is claimed. -/
structure Trie (first : ℕ) (ends : Set ℕ) (h : Heap) : Prop where
  linked {i : ℕ} : Reaches h (.node i) → ∀ s, parent h (child h i s) = i
  rises {i k : ℕ} {s : Bool} : Reaches h (.node i) → child h i s = .node k → h.nodeB i < h.nodeB k
  agree {i a b : ℕ} : Reaches h (.node i) → Below h (.node i) a → Below h (.node i) b →
    ∀ c, first ≤ c → c < h.nodeB i → bitAt (h.leafKey a) c = bitAt (h.leafKey b) c
  side {i a : ℕ} {s : Bool} : Reaches h (.node i) → Below h (child h i s) a →
    bitAt (h.leafKey a) (h.nodeB i) = s
  twin {i j : ℕ} {s : Bool} : Reaches h (.node i) → child h i s = .leaf j → j ∉ ends →
    Reaches h (.node j)

variable {off L : ℕ} {h : Heap} {live : Set Ptr} {pre : ℕ → Key} {chain : ℕ → List ℕ} {x : Ptr} {a : ℕ}

theorem Below.spec (hb : Below h x a) (hs : Shape off L h live pre) (hc : Chains off L h live chain)
    (hx : x ∈ live) :
    ∃ j, .leaf j ∈ live ∧ a ∈ chain j ∧ (∀ k, x = .leaf k → k = j) ∧
      ∀ i, x = .node i → Under off h pre i (h.leafKey j) := by
  induction hb with
  | leaf j => exact ⟨j, hx, hc.self_mem hx, fun _ hk => (Ptr.leaf.inj hk).symm, nofun⟩
  | dup _ hd ih =>
    obtain ⟨j, hj, ha, hrest⟩ := ih hx
    exact ⟨j, hj, hc.dup_mem_chain hj ha hd, hrest⟩
  | @child i _ s _ ih =>
    obtain ⟨j, hj, ha, hleaf, hnode⟩ := ih (hs.child_mem hx s)
    refine ⟨j, hj, ha, nofun, fun i' hi' => ?_⟩
    obtain rfl := Ptr.node.inj hi'
    have hunder := hs.child_under hx s
    have hparent := hs.child_parent hx s
    have hmem := hs.child_mem hx s
    cases hchild : Radix.child h i s with
    | leaf k =>
      rw [hchild] at hunder
      exact hleaf k hchild ▸ hunder
    | node k =>
      rw [hchild] at hmem hparent
      exact hparent ▸ hs.under_parent hmem (hnode k hchild)

theorem TreeOk.trie {st : State} {g : Ghost} (hok : TreeOk off L st g) :
    Trie (8 * off) {1} st.tree := by
  have hs := hok.shape
  have hc := hok.chains
  have hmem {i : ℕ} (hi : Reaches st.tree (.node i)) : .node i ∈ g.live := (reaches_mem hs hc hi).1 i rfl
  -- the leaves of a chain have the bits of its first one
  have hbits {j a c : ℕ} (hj : .leaf j ∈ g.live) (ha : a ∈ g.chain j) (h1 : 8 * off ≤ c)
      (h2 : c < 8 * L) : bitAt (st.tree.leafKey a) c = bitAt (st.tree.leafKey j) c :=
    agree_mul_iff.mpr (hc.key hj ha) c h1 h2
  constructor
  · exact fun hi s => hs.child_parent (hmem hi) s
  · exact fun hi hk => hs.child_lt (hmem hi) _ _ hk
  · intro i a b hi ha hb c h1 h2
    have hlt := h2.trans (hs.bit_lt (hmem hi))
    obtain ⟨j, hj, haj, -, hunder⟩ := ha.spec hs hc (hmem hi)
    obtain ⟨k, hk, hbk, -, hunder'⟩ := hb.spec hs hc (hmem hi)
    rw [hbits hj haj h1 hlt, hbits hk hbk h1 hlt, ← hunder i rfl c h1 h2, hunder' i rfl c h1 h2]
  · intro i a s hi ha
    have htop := hs.top_le (hmem hi)
    obtain ⟨j, hj, haj, hleaf, hnode⟩ := ha.spec hs hc (hs.child_mem (hmem hi) s)
    have hbit := hs.child_bit (hmem hi) s
    rw [hbits hj haj htop (hs.bit_lt (hmem hi))]
    cases hchild : child st.tree i s with
    | leaf k =>
      rw [hchild] at hbit
      exact hleaf k hchild ▸ hbit
    | node k =>
      rw [hchild] at hbit
      exact (hnode k hchild _ htop (hs.child_lt (hmem hi) s k hchild)).symm.trans hbit
  · intro i j s hi hj hone
    have hleaf := hs.child_mem (hmem hi) s
    rw [hj] at hleaf
    exact hs.reaches ((hok.twins j).mpr ⟨hleaf, hone⟩)

/-- **Every run keeps the representation.** Kind: P. -/
theorem run_trie {ops : List Op} (hoff : off < L) (hL : L ≤ maxkeylen) (hops : ∀ op ∈ ops, LenOk L op) :
    ∃ st, run (initial off) ops = some st ∧ Trie (8 * off) {1} st.tree := by
  obtain ⟨st, g, hrun, hok⟩ := run_treeOk (treeOk_initial hoff) hL hops
  exact ⟨st, hrun, hok.trie⟩

theorem run_trie_single :
    ∃ st, run (initial 4) [.add (inet 10 0 0 0) none] = some st ∧ Trie (8 * 4) {1} st.tree :=
  run_trie (show 4 < 8 by decide) (by decide)
    (forall_mem_cons.mpr ⟨⟨by decide +kernel, nofun⟩, nofun⟩)

/-- A key of one byte from byte 4 on is added to the chain of a longer one, and takes its place. -/
def shorter : List Op :=
  [.add (inet 10 0 0 0) none, .add (ofBytes [5, 2, 0, 0, 10, 1, 1, 1]) (some classA),
    .add (inet 10 0 0 1) none, .delete (inet 10 0 0 0) none]

/-- The leaf of `rn_ones` has no twin, the keys of the two ends differ before the first bit compared,
and bytes behind a key count where another one is longer. Kind: C -/
theorem not_trie : ¬ Trie 32 ∅ (initial 4).tree ∧ ¬ Trie 0 {1} (initial 4).tree ∧
    ∃ st, run (initial 4) shorter = some st ∧ ¬ Trie 32 {1} st.tree := by
  refine ⟨fun ht => ?_, fun ht => ?_, ?_⟩
  · have hok := treeOk_initial (show 4 < 8 by decide)
    have hmem := (reaches_mem hok.shape hok.chains (ht.twin .top (s := true) rfl (Set.notMem_empty 1))).1 1 rfl
    rcases hmem with h | h | h
    · exact absurd (Ptr.node.inj h) (by decide)
    · exact absurd h nofun
    · exact absurd h nofun
  · have hbit := ht.agree .top (.child false (.leaf 0)) (.child true (.leaf 1)) 0 le_rfl (by decide)
    exact absurd hbit (by decide)
  · obtain ⟨st, hrun⟩ : ∃ st, run (initial 4) shorter = some st :=
      Option.isSome_iff_exists.mp (by decide +kernel)
    refine ⟨st, hrun, fun ht => ?_⟩
    have hval : (run (initial 4) shorter).map (fun st => (child st.tree 0 false, child st.tree 3 true,
        child st.tree 4 false, bitAt (st.tree.leafKey 3) (st.tree.nodeB 4))) =
        some (.node 3, .node 4, .leaf 3, true) := by
      decide +kernel
    rw [hrun, Option.map_some, Option.some.injEq, Prod.mk.injEq, Prod.mk.injEq, Prod.mk.injEq] at hval
    obtain ⟨h0, h3, h4, hbit⟩ := hval
    have hreach : Reaches st.tree (.node 4) := h3 ▸ .child true (h0 ▸ .child false .top)
    have hbelow : Below st.tree (child st.tree 4 false) 3 := h4 ▸ .leaf 3
    have hside := ht.side hreach hbelow
    exact absurd (hside.symm.trans hbit) nofun

end Bsd386.Net.Radix
