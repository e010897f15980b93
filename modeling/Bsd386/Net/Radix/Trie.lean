import Bsd386.Net.Radix.Keys

/-!
# Radix trees: the shape of a tree

`Shape off L h live pre` says of the pointers `live` of a tree that parents and children point at
each other, that `rn_b` grows from a node to its child, and that the keys below a node agree before
its bit and are on the side their own bit says. It is a condition on each pointer and its parent
alone: every internal node `i` has a key `pre i`, of which only the bits before `rn_b` matter, and a
key `k` is below `i` when it agrees with `pre i` on those (`Under`). So the tree itself does not
occur, and an update of the memory is a matter of the few pointers it changes.
-/

namespace Bsd386.Net.Radix

open Function

open Lib.Bytes (Byte)

/-! ## Pointers and searches -/

/-- A child of a node. Source: radix.h, rn_l, rn_r -/
def child (h : Heap) (i : ℕ) (s : Bool) : Ptr := if s then h.nodeR i else h.nodeL i

/-- `rn_p` -/
def parent (h : Heap) : Ptr → ℕ
  | .leaf j => h.leafP j
  | .node i => h.nodeP i

/-- The key of a leaf, or the key given to a node. -/
def keyOf (h : Heap) (pre : ℕ → Key) : Ptr → Key
  | .leaf j => h.leafKey j
  | .node i => pre i

/-- The key agrees with that of the node before the bit of the node. -/
def Under (off : ℕ) (h : Heap) (pre : ℕ → Key) (i : ℕ) (k : Key) : Prop :=
  Agree off (h.nodeB i) (pre i) k

/-- The search for `v` from a pointer ends at the leaf. Source: rn_search -/
inductive Finds (h : Heap) (v : Key) : Ptr → ℕ → Prop where
  | leaf (j : ℕ) : Finds h v (.leaf j) j
  | node {i j : ℕ} : Finds h v (childOf h v i) j → Finds h v (.node i) j

/-- The shape of a tree whose keys have `L` bytes and are compared from byte `off` on. -/
structure Shape (off L : ℕ) (h : Heap) (live : Set Ptr) (pre : ℕ → Key) : Prop where
  top_mem : .node 0 ∈ live
  top_parent : h.nodeP 0 = 0
  top_bit : h.nodeB 0 = 8 * off
  zeros_mem : .leaf 0 ∈ live
  zeros_key : h.leafKey 0 = rnZeros
  ones_mem : .leaf 1 ∈ live
  ones_key : h.leafKey 1 = rnOnes
  bit_lt {i : ℕ} : .node i ∈ live → h.nodeB i < 8 * L
  child_mem {i : ℕ} : .node i ∈ live → ∀ s, child h i s ∈ live
  child_parent {i : ℕ} : .node i ∈ live → ∀ s, parent h (child h i s) = i
  child_under {i : ℕ} : .node i ∈ live → ∀ s, Under off h pre i (keyOf h pre (child h i s))
  child_bit {i : ℕ} : .node i ∈ live → ∀ s, bitAt (keyOf h pre (child h i s)) (h.nodeB i) = s
  child_lt {i : ℕ} : .node i ∈ live → ∀ s k, child h i s = .node k → h.nodeB i < h.nodeB k
  up_mem {x : Ptr} : x ∈ live → x ≠ .node 0 → .node (parent h x) ∈ live
  up_child {x : Ptr} : x ∈ live → x ≠ .node 0 → ∃ s, child h (parent h x) s = x

variable {off L : ℕ} {h h' : Heap} {live : Set Ptr} {pre : ℕ → Key} {v v' k : Key} {x : Ptr}
  {i j e n t : ℕ}

/-- What the shape asks of the child `x` of node `i`. -/
structure Hangs (off : ℕ) (h : Heap) (live : Set Ptr) (pre : ℕ → Key) (i : ℕ) (s : Bool)
    (x : Ptr) : Prop where
  mem : x ∈ live
  parent_eq : parent h x = i
  under : Under off h pre i (keyOf h pre x)
  bit : bitAt (keyOf h pre x) (h.nodeB i) = s
  lt (k : ℕ) : x = .node k → h.nodeB i < h.nodeB k

theorem Shape.of_hangs (htop : .node 0 ∈ live) (hp : h.nodeP 0 = 0) (hb : h.nodeB 0 = 8 * off)
    (hz : .leaf 0 ∈ live) (hzk : h.leafKey 0 = rnZeros) (ho : .leaf 1 ∈ live)
    (hok : h.leafKey 1 = rnOnes)
    (hdown : ∀ i s, .node i ∈ live → h.nodeB i < 8 * L ∧ Hangs off h live pre i s (child h i s))
    (hup : ∀ x, x ∈ live → x ≠ .node 0 →
      .node (parent h x) ∈ live ∧ ∃ s, child h (parent h x) s = x) : Shape off L h live pre where
  top_mem := htop
  top_parent := hp
  top_bit := hb
  zeros_mem := hz
  zeros_key := hzk
  ones_mem := ho
  ones_key := hok
  bit_lt hi := (hdown _ true hi).1
  child_mem hi s := (hdown _ s hi).2.mem
  child_parent hi s := (hdown _ s hi).2.parent_eq
  child_under hi s := (hdown _ s hi).2.under
  child_bit hi s := (hdown _ s hi).2.bit
  child_lt hi s := (hdown _ s hi).2.lt
  up_mem hx h0 := (hup _ hx h0).1
  up_child hx h0 := (hup _ hx h0).2

theorem Shape.hangs (hs : Shape off L h live pre) (hi : .node i ∈ live) (s : Bool) :
    Hangs off h live pre i s (child h i s) :=
  ⟨hs.child_mem hi s, hs.child_parent hi s, hs.child_under hi s, hs.child_bit hi s,
    hs.child_lt hi s⟩

theorem childOf_eq (h : Heap) (v : Key) (i : ℕ) : childOf h v i = child h i (bitAt v (h.nodeB i)) :=
  rfl

theorem Finds.unique (h1 : Finds h v x i) (h2 : Finds h v x j) : i = j := by
  induction h1 with
  | leaf => cases h2; rfl
  | node _ ih =>
    cases h2 with
    | node h2 => exact ih h2

theorem finds_of_rnSearch (hs : rnSearch h v n x = some j) : Finds h v x j := by
  induction n generalizing x with
  | zero =>
    cases x with
    | leaf i => rw [rnSearch, Option.some.injEq] at hs; exact hs ▸ .leaf i
    | node i => rw [rnSearch] at hs; exact absurd hs (by simp)
  | succ n ih =>
    cases x with
    | leaf i => rw [rnSearch, Option.some.injEq] at hs; exact hs ▸ .leaf i
    | node i => exact .node (ih hs)

/-! ## Updates of pointers -/

section updates

variable (h : Heap) (p n b l : ℕ) (s r : Bool) (x y : Ptr) (v : Key)

/-- All fields of an internal node stored. -/
def setNode (n p b : ℕ) (l r : Ptr) (mk : Option ℕ) : Heap :=
  { h with
    nodeP := update h.nodeP n p
    nodeB := update h.nodeB n b
    nodeL := update h.nodeL n l
    nodeR := update h.nodeR n r
    nodeMk := update h.nodeMk n mk }

theorem child_setChild (i : ℕ) :
    child (setChild h p r x) i s = if i = p ∧ s = r then x else child h i s := by
  cases r <;> cases s <;> simp [child, setChild, update_apply]

theorem parent_setChild : parent (setChild h p r x) y = parent h y := by
  cases r <;> cases y <;> rfl

theorem child_setParent (i : ℕ) : child (setParent h x n) i s = child h i s := by
  cases x <;> rfl

theorem parent_setParent : parent (setParent h x n) y = if y = x then n else parent h y := by
  cases x <;> cases y <;> simp [parent, setParent, update_apply]

theorem child_setNode (l r : Ptr) (mk : Option ℕ) (i : ℕ) :
    child (setNode h n p b l r mk) i s =
      if i = n then (if s then r else l) else child h i s := by
  by_cases hi : i = n
  · subst hi
    cases s <;> simp [child, setNode]
  · cases s <;> simp [child, setNode, hi]

theorem parent_setNode (l r : Ptr) (mk : Option ℕ) :
    parent (setNode h n p b l r mk) y = if y = .node n then p else parent h y := by
  cases y <;> simp [parent, setNode, update_apply]

theorem child_newLeaf (i : ℕ) : child (newLeaf h v n) i s = child h i s := rfl

theorem parent_newLeaf :
    parent (newLeaf h v n) y = if y = .leaf h.fresh then n else parent h y := by
  cases y <;> simp [parent, newLeaf, update_apply]

theorem nodeB_setChild : (setChild h p r x).nodeB = h.nodeB := by cases r <;> rfl

theorem nodeB_setParent : (setParent h x n).nodeB = h.nodeB := by cases x <;> rfl

theorem leafKey_setChild : (setChild h p r x).leafKey = h.leafKey := by cases r <;> rfl

theorem leafKey_setParent : (setParent h x n).leafKey = h.leafKey := by cases x <;> rfl

end updates

namespace Shape

variable (hs : Shape off L h live pre)

include hs

/-! ## Going up -/

theorem parent_lt (hi : .node i ∈ live) (h0 : i ≠ 0) : h.nodeB (h.nodeP i) < h.nodeB i := by
  have hne : Ptr.node i ≠ .node 0 := fun h => h0 (Ptr.node.inj h)
  obtain ⟨s, hs'⟩ := hs.up_child hi hne
  exact hs.child_lt (hs.up_mem hi hne) s i hs'

theorem parent_mem (hi : .node i ∈ live) : .node (h.nodeP i) ∈ live := by
  by_cases h0 : i = 0
  · rw [h0, hs.top_parent]
    exact hs.top_mem
  · exact hs.up_mem hi fun h => h0 (Ptr.node.inj h)

theorem leafP_mem (hj : .leaf j ∈ live) : .node (h.leafP j) ∈ live := hs.up_mem hj nofun

theorem under_top (k : Key) : Under off h pre 0 k := agree_of_le (Nat.le_of_eq hs.top_bit)

theorem top_le (hi : .node i ∈ live) : 8 * off ≤ h.nodeB i := by
  induction hb : h.nodeB i using Nat.strong_induction_on generalizing i with
  | _ b ih =>
    by_cases h0 : i = 0
    · rw [← hb, h0, hs.top_bit]
    · have hlt := hs.parent_lt hi h0
      exact (ih _ (hb ▸ hlt) (hs.parent_mem hi) rfl).trans (hb ▸ Nat.le_of_lt hlt)

theorem under_up (hx : x ∈ live) (h0 : x ≠ .node 0) :
    Under off h pre (parent h x) (keyOf h pre x) ∧
      childOf h (keyOf h pre x) (parent h x) = x := by
  obtain ⟨s, hs'⟩ := hs.up_child hx h0
  have hmem := hs.up_mem hx h0
  have hu := hs.child_under hmem s
  have hb := hs.child_bit hmem s
  rw [hs'] at hu hb
  refine ⟨hu, ?_⟩
  rw [childOf_eq, hb]
  exact hs'

theorem under_parent (hi : .node i ∈ live) (hu : Under off h pre i k) :
    Under off h pre (h.nodeP i) k := by
  by_cases h0 : i = 0
  · rw [h0, hs.top_parent]
    exact hs.under_top k
  · have hup := (hs.under_up hi fun h => h0 (Ptr.node.inj h)).1
    exact hup.trans (hu.mono (Nat.le_of_lt (hs.parent_lt hi h0)))

theorem under_leafP (hj : .leaf j ∈ live) : Under off h pre (h.leafP j) (h.leafKey j) :=
  (hs.under_up hj nofun).1

theorem bit_lt_depthFuel (hL : L ≤ maxkeylen) (hi : .node i ∈ live) : h.nodeB i < depthFuel := by
  have h1 := hs.bit_lt hi
  have h2 : depthFuel = 257 := rfl
  have h3 : maxkeylen = 32 := rfl
  omega

/-- **The highest node.** The loop that goes up while the bit of the parent is not before the
index. -/
theorem highest_spec (b : ℤ) (hn : h.nodeB t < n) (ht : .node t ∈ live) :
    ∃ i, highest h b n t = some i ∧ .node i ∈ live ∧ (i = 0 ∨ (h.nodeB (h.nodeP i) : ℤ) < b) ∧
      (b ≤ h.nodeB t → b ≤ h.nodeB i) ∧ ∀ k, Under off h pre t k → Under off h pre i k := by
  induction n generalizing t with
  | zero => exact absurd hn (Nat.not_lt_zero _)
  | succ n ih =>
    unfold highest
    by_cases hc : b ≤ h.nodeB (h.nodeP t) ∧ t ≠ 0
    · rw [if_pos hc]
      have hlt := hs.parent_lt ht hc.2
      obtain ⟨i, h1, h2, h3, h4, h5⟩ := ih (t := h.nodeP t) (by omega) (hs.parent_mem ht)
      exact ⟨i, h1, h2, h3, fun _ => h4 hc.1, fun k hk => h5 k (hs.under_parent ht hk)⟩
    rw [if_neg hc]
    refine ⟨t, rfl, ht, ?_, id, fun _ => id⟩
    by_cases h0 : t = 0
    · exact .inl h0
    · refine .inr ?_
      by_contra hb
      exact hc ⟨by omega, h0⟩

/-! ## Searching -/

theorem exists_rnSearch (v : Key) (hx : x ∈ live)
    (hn : ∀ i, x = .node i → 8 * L ≤ h.nodeB i + n) : ∃ j, rnSearch h v n x = some j := by
  induction n generalizing x with
  | zero =>
    cases x with
    | leaf j => exact ⟨j, rfl⟩
    | node i => exact absurd (hs.bit_lt hx) (by have := hn i rfl; omega)
  | succ n ih =>
    cases x with
    | leaf j => exact ⟨j, rfl⟩
    | node i =>
      refine ih (hs.child_mem hx _) fun k hk => ?_
      have hlt := hs.child_lt hx _ k hk
      have := hn i rfl
      omega

theorem rnSearch_iff (hL : L ≤ maxkeylen) (hx : x ∈ live) :
    rnSearch h v depthFuel x = some j ↔ Finds h v x j := by
  refine ⟨finds_of_rnSearch, fun hf => ?_⟩
  obtain ⟨j', hj'⟩ := hs.exists_rnSearch v hx (n := depthFuel) fun i hi => by
    have : depthFuel = 257 := rfl
    have : maxkeylen = 32 := rfl
    omega
  rw [hj', hf.unique (finds_of_rnSearch hj')]

theorem exists_finds (v : Key) (hx : x ∈ live) : ∃ j, Finds h v x j := by
  obtain ⟨j, hj⟩ := hs.exists_rnSearch v hx (n := 8 * L) fun i _ => by omega
  exact ⟨j, finds_of_rnSearch hj⟩

theorem finds_mem (hx : x ∈ live) (hf : Finds h v x j) : .leaf j ∈ live := by
  induction hf with
  | leaf => exact hx
  | node _ ih => exact ih (hs.child_mem hx _)

theorem finds_under (hi : .node i ∈ live) (hf : Finds h v (.node i) j) :
    Under off h pre i (h.leafKey j) ∧ bitAt (h.leafKey j) (h.nodeB i) = bitAt v (h.nodeB i) ∧
      h.nodeB i ≤ h.nodeB (h.leafP j) := by
  induction hd : 8 * L - h.nodeB i using Nat.strong_induction_on generalizing i with
  | _ d ih =>
    obtain ⟨hc⟩ | ⟨hc⟩ := hf
    have hu := hs.child_under hi (bitAt v (h.nodeB i))
    have hb := hs.child_bit hi (bitAt v (h.nodeB i))
    have hp := hs.child_parent hi (bitAt v (h.nodeB i))
    rw [childOf_eq] at hc
    cases hx : child h i (bitAt v (h.nodeB i)) with
    | leaf j' =>
      rw [hx] at hc hu hb hp
      cases hc
      exact ⟨hu, hb, Nat.le_of_eq (congrArg h.nodeB hp.symm)⟩
    | node k =>
      have hlt := hs.child_lt hi _ k hx
      have hk := hs.child_mem hi (bitAt v (h.nodeB i))
      have hL := hs.bit_lt hi
      rw [hx] at hc hu hb hk
      obtain ⟨h1, -, h3⟩ := ih _ (by omega) hk hc rfl
      refine ⟨hu.trans (h1.mono (Nat.le_of_lt hlt)), ?_, by omega⟩
      exact (h1 _ (hs.top_le hi) hlt).symm.trans hb

theorem finds_top (hx : x ∈ live)
    (hv : x ≠ .node 0 → Agree off (h.nodeB (parent h x) + 1) (keyOf h pre x) v)
    (hf : Finds h v x j) : Finds h v (.node 0) j := by
  by_cases h0 : x = .node 0
  · exact h0 ▸ hf
  induction hb : h.nodeB (parent h x) using Nat.strong_induction_on generalizing x with
  | _ b ih =>
    have hmem := hs.up_mem hx h0
    obtain ⟨hu, hc⟩ := hs.under_up hx h0
    have hstep : Finds h v (.node (parent h x)) j := by
      refine .node ?_
      rw [childOf_eq, ← hv h0 _ (hs.top_le hmem) (Nat.lt_succ_self _), ← childOf_eq, hc]
      exact hf
    by_cases hp : parent h x = 0
    · exact hp ▸ hstep
    · have hlt := hs.parent_lt hmem hp
      refine ih _ (hb ▸ hlt) hmem (fun _ => ?_) hstep (fun h => hp (Ptr.node.inj h)) rfl
      exact (hu.trans ((hv h0).mono (Nat.le_succ _))).mono hlt

theorem finds_self (hj : .leaf j ∈ live) (hv : Agree off (8 * L) (h.leafKey j) v) :
    Finds h v (.node 0) j :=
  hs.finds_top hj (fun _ => hv.mono (hs.bit_lt (hs.leafP_mem hj))) (.leaf j)

theorem leaf_unique (hi : .leaf i ∈ live) (hj : .leaf j ∈ live)
    (hk : Agree off (8 * L) (h.leafKey i) (h.leafKey j)) : i = j :=
  (hs.finds_self hi hk).unique (hs.finds_self hj (.refl _ _ _))

section

variable (hi : .node i ∈ live)
include hi

theorem finds_congr (hv : ∀ c, h.nodeB i ≤ c → c < 8 * L → bitAt v c = bitAt v' c)
    (hf : Finds h v (.node i) j) :
    Finds h v' (.node i) j := by
  induction hd : 8 * L - h.nodeB i using Nat.strong_induction_on generalizing i with
  | _ d ih =>
    obtain ⟨hc⟩ | ⟨hc⟩ := hf
    refine .node ?_
    have hbit := hv _ (Nat.le_refl _) (hs.bit_lt hi)
    rw [childOf_eq] at hc ⊢
    rw [← hbit]
    cases hx : child h i (bitAt v (h.nodeB i)) with
    | leaf j' =>
      rw [hx] at hc
      cases hc
      exact .leaf j
    | node k =>
      have hlt := hs.child_lt hi _ k hx
      have hk := hs.child_mem hi (bitAt v (h.nodeB i))
      have hL := hs.bit_lt hi
      rw [hx] at hc hk
      exact ih _ (by omega) hk (fun c h1 h2 => hv c (by omega) h2) hc rfl

/-- **Searching below a node.** A search from a node above a leaf, with a key that agrees with that
of the leaf from the bit of the node on, finds the leaf. -/
theorem finds_of_under (hj : .leaf j ∈ live) (hu : Under off h pre i (h.leafKey j))
    (hv : ∀ c, h.nodeB i ≤ c → c < 8 * L → bitAt (h.leafKey j) c = bitAt v c) :
    Finds h v (.node i) j := by
  refine hs.finds_congr hi hv ?_
  obtain ⟨j', hj'⟩ := hs.exists_finds (h.leafKey j) hi
  have htop : Finds h (h.leafKey j) (.node 0) j' := by
    refine hs.finds_top hi (fun h0 => hu.mono ?_) hj'
    exact hs.parent_lt hi fun h => h0 (congrArg _ h)
  obtain rfl : j = j' := (hs.finds_self hj (.refl _ _ _)).unique htop
  exact hj'

theorem nodeB_le_of_under (hj : .leaf j ∈ live) (hu : Under off h pre i (h.leafKey j)) :
    h.nodeB i ≤ h.nodeB (h.leafP j) :=
  (hs.finds_under hi (hs.finds_of_under hi hj hu fun _ _ _ => rfl)).2.2

/-- **Branching off.** If a search from a node above the leaf `e` finds another leaf, some node on
its way is above both and has them on different sides. -/
theorem branch (hf : Finds h v (.node i) t) (he : .leaf e ∈ live)
    (hu : Under off h pre i (h.leafKey e)) (hne : e ≠ t) :
    ∃ a, .node a ∈ live ∧ Under off h pre a (h.leafKey t) ∧ Under off h pre a (h.leafKey e) ∧
      bitAt (h.leafKey t) (h.nodeB a) = bitAt v (h.nodeB a) ∧
      bitAt (h.leafKey e) (h.nodeB a) ≠ bitAt v (h.nodeB a) := by
  induction hd : 8 * L - h.nodeB i using Nat.strong_induction_on generalizing i with
  | _ d ih =>
    by_cases hbit : bitAt (h.leafKey e) (h.nodeB i) = bitAt v (h.nodeB i)
    · -- both go to the same child
      have hfe := hs.finds_of_under hi he hu fun _ _ _ => rfl
      obtain ⟨hc⟩ | ⟨hc⟩ := hf
      obtain ⟨hce⟩ | ⟨hce⟩ := hfe
      rw [childOf_eq] at hc hce
      rw [hbit] at hce
      cases hx : child h i (bitAt v (h.nodeB i)) with
      | leaf j' =>
        rw [hx] at hc hce
        cases hc
        cases hce
        exact absurd rfl hne
      | node k =>
        have hlt := hs.child_lt hi _ k hx
        have hk := hs.child_mem hi (bitAt v (h.nodeB i))
        have hL := hs.bit_lt hi
        rw [hx] at hc hce hk
        exact ih _ (by omega) hk hc (hs.finds_under hk hce).1 rfl
    · have hft := hs.finds_under hi hf
      exact ⟨i, hi, hft.1, hu, hft.2.1, hbit⟩

/-! ## Nodes above one key -/

theorem visits (hu : Under off h pre i k) :
    Relation.ReflTransGen (fun a b => .node a ∈ live ∧ childOf h k a = .node b) 0 i := by
  induction hb : h.nodeB i using Nat.strong_induction_on generalizing i with
  | _ b ih =>
    by_cases h0 : i = 0
    · rw [h0]
    have hne : Ptr.node i ≠ .node 0 := fun h => h0 (Ptr.node.inj h)
    have hlt := hs.parent_lt hi h0
    have hmem := hs.parent_mem hi
    refine (ih _ (hb ▸ hlt) hmem (hs.under_parent hi hu) rfl).tail ⟨hmem, ?_⟩
    rw [childOf_eq, ← hu _ (hs.top_le hmem) hlt, ← childOf_eq]
    exact (hs.under_up hi hne).2

theorem above_cases (hj : .node j ∈ live) (hui : Under off h pre i k) (huj : Under off h pre j k) :
    i = j ∨ (j ≠ 0 ∧ h.nodeB i ≤ h.nodeB (h.nodeP j)) ∨
      (i ≠ 0 ∧ h.nodeB j ≤ h.nodeB (h.nodeP i)) := by
  -- a path with at least one step ends below its start
  have hpath : ∀ {a b}, .node a ∈ live →
      Relation.ReflTransGen (fun a b => .node a ∈ live ∧ childOf h k a = .node b) a b →
      a = b ∨ b ≠ 0 ∧ h.nodeB a ≤ h.nodeB (h.nodeP b) := by
    intro a b ha hab
    induction hab with
    | refl => exact .inl rfl
    | @tail c d hac hcd ih =>
      have hp : h.nodeP d = c := by
        have := hs.child_parent hcd.1 (bitAt k (h.nodeB c))
        rwa [← childOf_eq, hcd.2] at this
      have hd := hs.child_lt hcd.1 _ d hcd.2
      have hd0 : d ≠ 0 := by
        rintro rfl
        have := hs.top_le hcd.1
        rw [hs.top_bit] at hd
        omega
      refine .inr ⟨hd0, ?_⟩
      rw [hp]
      rcases ih with rfl | ⟨hc0, hle⟩
      · exact Nat.le_refl _
      · exact hle.trans (Nat.le_of_lt (hs.parent_lt hcd.1 hc0))
  have htotal := Relation.ReflTransGen.total_of_right_unique
    (fun a b c hab hac => Ptr.node.inj (hab.2.symm.trans hac.2)) (hs.visits hi hui)
    (hs.visits hj huj)
  rcases htotal with hij | hji
  · rcases hpath hi hij with rfl | h'
    · exact .inl rfl
    · exact .inr (.inl h')
  · rcases hpath hj hji with rfl | h'
    · exact .inl rfl
    · exact .inr (.inr h')

/-- **The place of an index.** Only one node above a key has its bit not before the index, and that
of its parent before it. -/
theorem place_unique {b : ℤ} (hj : .node j ∈ live) (hui : Under off h pre i k)
    (huj : Under off h pre j k) (hib : b ≤ h.nodeB i) (hjb : b ≤ h.nodeB j)
    (hip : i ≠ 0 → (h.nodeB (h.nodeP i) : ℤ) < b) (hjp : j ≠ 0 → (h.nodeB (h.nodeP j) : ℤ) < b) :
    i = j := by
  rcases hs.above_cases hi hj hui huj with heq | ⟨h0, hle⟩ | ⟨h0, hle⟩
  · exact heq
  · have := hjp h0
    omega
  · have := hip h0
    omega

end

/-! ## Frames -/

theorem congr (h1 : ∀ j, .leaf j ∈ live → h'.leafP j = h.leafP j)
    (h2 : ∀ j, .leaf j ∈ live → h'.leafKey j = h.leafKey j) (h3 : h'.nodeP = h.nodeP)
    (h4 : h'.nodeB = h.nodeB) (h5 : h'.nodeL = h.nodeL) (h6 : h'.nodeR = h.nodeR) :
    Shape off L h' live pre := by
  have hchild : ∀ i s, child h' i s = child h i s := fun i s => by rw [child, child, h5, h6]
  have hparent : ∀ x, x ∈ live → parent h' x = parent h x := by
    rintro (j | i) hx
    · exact h1 j hx
    · exact congrFun h3 i
  have hkey : ∀ x, x ∈ live → keyOf h' pre x = keyOf h pre x := by
    rintro (j | i) hx
    · exact h2 j hx
    · rfl
  refine Shape.of_hangs hs.top_mem ?_ ?_ hs.zeros_mem ?_ hs.ones_mem ?_ ?_ ?_
  · rw [h3]; exact hs.top_parent
  · rw [h4]; exact hs.top_bit
  · rw [h2 0 hs.zeros_mem]; exact hs.zeros_key
  · rw [h2 1 hs.ones_mem]; exact hs.ones_key
  · intro i s hi
    have hc := hs.hangs hi s
    rw [hchild, h4]
    refine ⟨hs.bit_lt hi, hc.mem, (hparent _ hc.mem).trans hc.parent_eq, ?_, ?_, ?_⟩
    · rw [Under, hkey _ hc.mem, h4]; exact hc.under
    · rw [hkey _ hc.mem, h4]; exact hc.bit
    · rw [h4]; exact hc.lt
  · intro x hx h0
    rw [hparent x hx]
    simp only [hchild]
    exact ⟨hs.up_mem hx h0, hs.up_child hx h0⟩

theorem frame (h1 : h'.leafP = h.leafP) (h2 : h'.leafKey = h.leafKey) (h3 : h'.nodeP = h.nodeP)
    (h4 : h'.nodeB = h.nodeB) (h5 : h'.nodeL = h.nodeL) (h6 : h'.nodeR = h.nodeR) :
    Shape off L h' live pre :=
  hs.congr (fun _ _ => congrFun h1 _) (fun _ _ => congrFun h2 _) h3 h4 h5 h6

end Shape

end Bsd386.Net.Radix
