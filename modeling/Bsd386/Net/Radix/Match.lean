import Bsd386.Net.Radix.Delete

/-!
# Radix trees: what a lookup finds

An entry of a tree is a leaf that is reached from the head and was not made by `rn_inithead`
(`IsEntry`), and it covers an address if the address masked is its key (`Covers`). In a state with
the invariant the entries are the routes the invariant names (`Ok.isEntry_iff`).

`rn_match` first tries the chain of the leaf its search ends at, then goes up and tries the
annotations of each node on the way.
-/

namespace Bsd386.Net.Radix

open List BitVec Option

open Lib.Bytes (Byte)
open Lib.Linked

/-! ## Entries -/

/-- What is reached from the head. Source: radix.h, struct radix_node -/
inductive Reaches (h : Heap) : Ptr → Prop where
  | top : Reaches h (.node 0)
  | child {i : ℕ} (s : Bool) : Reaches h (.node i) → Reaches h (child h i s)
  | dup {j k : ℕ} : Reaches h (.leaf j) → h.leafDup j = some k → Reaches h (.leaf k)

/-- The leaf is an entry of the tree. Source: radix.h, RNF_ROOT -/
def IsEntry (h : Heap) (e : ℕ) : Prop := Reaches h (.leaf e) ∧ h.leafRoot e = false

/-- The bits of a mask; a host route has all of them. -/
def maskBytes (masks : Heap) : Option ℕ → Key
  | none => rnOnes
  | some M => masks.leafKey M

/-- The leaf covers the address. Source: rn_match -/
def Covers (off L : ℕ) (st : State) (v : Key) (e : ℕ) : Prop :=
  ∀ i, off ≤ i → i < L → v i &&& maskBytes st.masks (st.tree.leafMask e) i = st.tree.leafKey e i

/-- The answer to a lookup: an entry that covers the address if there is one, else no entry.
Source: rn_match -/
def Answers (off L : ℕ) (st : State) (v : Key) (r : Option ℕ) : Prop :=
  (∃ e, r = some e ∧ IsEntry st.tree e ∧ Covers off L st v e) ∨
    (¬ ∃ e, IsEntry st.tree e ∧ Covers off L st v e) ∧ ∀ e, r = some e → st.tree.leafRoot e = true

/-- The lookup ends at the leaf of `rn_ones` and does not look further: the address is all ones, no
entry has that key, and some entry covers it.
Source: rn_match -/
def HiddenByOnes (off L : ℕ) (st : State) (v : Key) : Prop :=
  (∀ i, off ≤ i → i < L → v i = 0xff) ∧
    (¬ ∃ e, IsEntry st.tree e ∧ ∀ i, off ≤ i → i < L → st.tree.leafKey e i = 0xff) ∧
    ∃ e, IsEntry st.tree e ∧ Covers off L st v e

variable {off L : ℕ} {st : State} {g : Ghost} {h : Heap} {live : Set Ptr} {pre : ℕ → Key}
  {chain : ℕ → List ℕ} {v old : Key} {e i j m o t n : ℕ}

theorem Shape.reaches (hs : Shape off L h live pre) {x : Ptr} (hx : x ∈ live) : Reaches h x := by
  by_cases h0 : x = .node 0
  · rw [h0]
    exact .top
  induction hb : h.nodeB (parent h x) using Nat.strong_induction_on generalizing x with
  | _ b ih =>
    obtain ⟨s, hs'⟩ := hs.up_child hx h0
    have hmem := hs.up_mem hx h0
    rw [← hs']
    refine .child s ?_
    by_cases hp0 : parent h x = 0
    · rw [hp0]
      exact .top
    · refine ih _ ?_ hmem (fun heq => hp0 (Ptr.node.inj heq)) rfl
      rw [← hb]
      exact hs.parent_lt hmem hp0

theorem reaches_linked {l : List ℕ} (hl : Linked h.leafDup (some j) l) (hj : Reaches h (.leaf j))
    (he : e ∈ l) : Reaches h (.leaf e) := by
  induction l generalizing j with
  | nil => exact absurd he not_mem_nil
  | cons x l ih =>
    obtain ⟨hx, hl⟩ := hl
    obtain rfl := some.inj hx
    rcases mem_cons.mp he with rfl | he
    · exact hj
    cases hd : h.leafDup j with
    | none =>
      rw [hd] at hl
      rw [head?_eq_none_iff.mp hl.head_eq.symm] at he
      exact absurd he not_mem_nil
    | some k =>
      rw [hd] at hl
      exact ih hl (.dup hj hd) he

theorem Chains.dup_mem_chain {k : ℕ} (hc : Chains off L h live chain) (hk : .leaf k ∈ live)
    (he : e ∈ chain k) (hd : h.leafDup e = some j) : j ∈ chain k := by
  obtain ⟨l1, l2, hsplit⟩ := append_of_mem he
  have hlink := hc.linked hk
  rw [hsplit] at hlink
  have hnext := hlink.next_eq
  rw [hd] at hnext
  rw [hsplit]
  exact mem_append_right _ (mem_cons_of_mem _ (mem_of_mem_head? hnext.head_eq.symm))

theorem reaches_mem (hs : Shape off L h live pre) (hc : Chains off L h live chain) {x : Ptr}
    (hx : Reaches h x) :
    (∀ i, x = .node i → .node i ∈ live) ∧ ∀ e, x = .leaf e → e ∈ routes live chain := by
  induction hx with
  | top => exact ⟨fun i hi => hi ▸ hs.top_mem, nofun⟩
  | child s _ ih =>
    have hmem := hs.child_mem (ih.1 _ rfl) s
    exact ⟨fun i hi => hi ▸ hmem, fun e he => hc.mem_routes (he ▸ hmem)⟩
  | dup _ hd ih =>
    refine ⟨nofun, fun e he => ?_⟩
    obtain rfl := Ptr.leaf.inj he
    obtain ⟨k, hk, he⟩ := ih.2 _ rfl
    exact ⟨k, hk, hc.dup_mem_chain hk he hd⟩

theorem reaches_iff (hs : Shape off L h live pre) (hc : Chains off L h live chain) :
    Reaches h (.leaf e) ↔ e ∈ routes live chain := by
  constructor
  · exact fun hr => (reaches_mem hs hc hr).2 e rfl
  · rintro ⟨j, hj, he⟩
    exact reaches_linked (hc.linked hj) (hs.reaches hj) he

theorem Ok.isEntry_iff (hok : Ok off L st g) :
    IsEntry st.tree e ↔ e ∈ g.routes ∧ st.tree.leafRoot e = false := by
  rw [IsEntry, reaches_iff hok.shape hok.chains]
  rfl

/-! ## Keys and masks of entries -/

theorem Ok.key_and_mask (hok : Ok off L st g) (he : e ∈ g.routes) (h1 : off ≤ i) (h2 : i < L) :
    st.tree.leafKey e i &&& maskBytes st.masks (st.tree.leafMask e) i = st.tree.leafKey e i := by
  cases hm : st.tree.leafMask e with
  | none => exact and_allOnes
  | some M => exact hok.masked he hm i h1 h2

theorem Ok.covers_of_sameBytes (hok : Ok off L st g) (he : e ∈ g.routes)
    (hkey : SameBytes off L v (st.tree.leafKey e)) : Covers off L st v e := by
  intro i h1 h2
  rw [hkey i h1 h2]
  exact hok.key_and_mask he h1 h2

theorem Covers.sameBytes (hc : Covers off L st v e) (hm : st.tree.leafMask e = none) :
    SameBytes off L v (st.tree.leafKey e) := by
  intro i h1 h2
  rw [← hc i h1 h2, hm]
  exact and_allOnes.symm

theorem Covers.bitAt {c : ℕ} (hc : Covers off L st v e) (h1 : 8 * off ≤ c) (h2 : c < 8 * L) :
    bitAt (st.tree.leafKey e) c =
      (Radix.bitAt v c && Radix.bitAt (maskBytes st.masks (st.tree.leafMask e)) c) :=
  bitAt_and (hc (c / 8) (by omega) (by omega)).symm

/-! ## The annotations tried -/

section lookup

variable (hok : Ok off L st g) (hL : L ≤ maxkeylen) (hlen : vlen v = L) (ht : .leaf t ∈ g.live)
  (hbytes : SameBytes off o v (st.tree.leafKey t)) (ho : off ≤ o)

include hok hL hlen hbytes ho

/-- **An annotation tried.** At a node above the leaf `t`, with which the address agrees up to the
byte `o`, an annotation gives an entry that covers the address, if there is one with that mask below
the node. -/
theorem tryMask_spec (old : Key) (hi : .node i ∈ g.live) (hu : Under off st.tree g.pre i (st.tree.leafKey t))
    (m : ℕ) :
    ∃ r, tryMask st.tree st.masks old v (min (st.tree.nodeB i / 8) o) i m = some r ∧
      (∀ e, r = some e → e ∈ g.routes ∧ st.tree.leafMask e = some (st.tree.rmMask m) ∧
        Covers off L st v e) ∧
      (r = none → ∀ e ∈ g.routes, st.tree.leafMask e = some (st.tree.rmMask m) →
        Under off st.tree g.pre i (st.tree.leafKey e) → ¬ Covers off L st v e) := by
  have hs := hok.shape
  have hc := hok.chains
  have htop := hs.top_le hi
  obtain ⟨a, ha⟩ : ∃ a, min (st.tree.nodeB i / 8) o = a := ⟨_, rfl⟩
  rw [ha]
  obtain ⟨mask, hmask⟩ : ∃ mask, st.masks.leafKey (st.tree.rmMask m) = mask := ⟨_, rfl⟩
  obtain ⟨key, hkey⟩ : ∃ key, maskedKey old v mask a = key := ⟨_, rfl⟩
  have hkey' : ∀ i', a ≤ i' → i' < L → key i' = v i' &&& mask i' := by
    intro i' h1 h2
    rw [← hkey, maskedKey, if_pos ⟨h1, by omega⟩]
  obtain ⟨x, hx⟩ := hs.exists_finds key hi
  have hxl := hs.finds_mem hi hx
  have hsearch := (hs.rnSearch_iff hL hi).mpr hx
  obtain ⟨l1, l2, hsplit, h1, h2, hwalk⟩ := walk_spec
    (fun e => decide (st.tree.leafMask e = some (st.tree.rmMask m))) (hc.linked hxl)
    (Nat.lt_succ_of_le (hc.length_le hxl)) none
  -- an entry below the node with the mask is in the chain found
  have hcomplete : ∀ e ∈ g.routes, st.tree.leafMask e = some (st.tree.rmMask m) →
      Under off st.tree g.pre i (st.tree.leafKey e) → Covers off L st v e → e ∈ g.chain x := by
    rintro e ⟨j, hj, he⟩ hem hue hcov
    have hsame := hc.key hj he
    have hf : Finds st.tree key (.node i) j := by
      refine hs.finds_of_under hi hj ((hs.under_iff hi hsame).mp hue) fun c hc1 hc2 => ?_
      have hbyte : st.tree.leafKey j (c / 8) = key (c / 8) := by
        rw [← hsame _ (by omega) (by omega), hkey' _ (by omega) (by omega),
          ← hcov _ (by omega) (by omega), hem, maskBytes, hmask]
      rw [bitAt, bitAt, hbyte]
    rw [hx.unique hf]
    exact he
  unfold tryMask
  simp only [hmask, hkey, hsearch, bind_eq_bind, bind_some, hwalk]
  cases l2 with
  | nil =>
    refine ⟨none, rfl, nofun, fun _ e he hem hue hcov => ?_⟩
    have hmem := hcomplete e he hem hue hcov
    rw [hsplit, append_nil] at hmem
    exact of_decide_eq_false (h1 e hmem) hem
  | cons e l2 =>
    have he : e ∈ g.chain x := hsplit ▸ mem_append_right _ (mem_cons_self ..)
    have hem : st.tree.leafMask e = some (st.tree.rmMask m) := of_decide_eq_true (h2 e rfl)
    have her : e ∈ g.routes := ⟨x, hxl, he⟩
    simp only [head?_cons]
    by_cases hdiff : SameBytes a L key (st.tree.leafKey e)
    · rw [hlen, firstDiff_eq_none.mpr hdiff]
      refine ⟨some e, rfl, fun e' he' => ?_, nofun⟩
      obtain rfl := some.inj he'
      refine ⟨her, hem, fun i' h1 h2 => ?_⟩
      by_cases hlow : i' < a
      · -- before byte `a` the node above fixes all bytes
        have hxt : st.tree.leafKey e i' = v i' := by
          rw [hc.key hxl he i' h1 h2, hbytes i' h1 (by omega)]
          exact ((hs.finds_under hi hx).1.symm.trans hu).sameBytes i' h1 (by omega)
        rw [← hxt]
        exact hok.key_and_mask her h1 h2
      · rw [hem, maskBytes, hmask, ← hkey' i' (Nat.not_lt.mp hlow) h2]
        exact hdiff i' (Nat.not_lt.mp hlow) h2
    · have hsome : (firstDiff key (st.tree.leafKey e) a (vlen v)).isNone = false := by
        rw [hlen]
        refine Bool.eq_false_iff.mpr fun hnone => hdiff ?_
        exact firstDiff_eq_none.mp (isNone_iff_eq_none.mp hnone)
      rw [hsome, if_neg Bool.false_ne_true]
      refine ⟨none, rfl, nofun, fun _ e' he' hem' hue hcov => hdiff fun i' h1 h2 => ?_⟩
      have hmem := hcomplete e' he' hem' hue hcov
      rw [hkey' i' h1 h2, hc.key hxl he i' (by omega) h2, ← hc.key hxl hmem i' (by omega) h2,
        ← hcov i' (by omega) h2, hem', maskBytes, hmask]

omit hok hL hlen hbytes ho in
theorem tryMasks_spec {masks : Heap} {a : ℕ} {p : Option ℕ} {l : List ℕ} (hl : Linked h.rmNext p l)
    (hn : l.length < n) (htry : ∀ m, ∃ r, tryMask h masks old v a t m = some r) :
    ∃ r, tryMasks h masks old v a t n p = some r ∧
      (r = none → ∀ m ∈ l, tryMask h masks old v a t m = some none) ∧
      ∀ e, r = some e → ∃ l1 m l2, l = l1 ++ m :: l2 ∧ tryMask h masks old v a t m = some (some e) ∧
        ∀ m' ∈ l1, tryMask h masks old v a t m' = some none := by
  induction l generalizing p n with
  | nil =>
    obtain ⟨n, rfl⟩ : ∃ k, n = k + 1 := ⟨n - 1, by rw [length_nil] at hn; omega⟩
    obtain rfl : p = none := hl
    exact ⟨none, rfl, fun _ m hm => absurd hm not_mem_nil, nofun⟩
  | cons m l ih =>
    rw [length_cons] at hn
    obtain ⟨n, rfl⟩ : ∃ k, n = k + 1 := ⟨n - 1, by omega⟩
    obtain ⟨rfl, hl⟩ := hl
    obtain ⟨r, hr⟩ := htry m
    rw [tryMasks, hr, bind_eq_bind, bind_some]
    cases r with
    | some e =>
      refine ⟨some e, rfl, nofun, fun e' he' => ?_⟩
      obtain rfl := some.inj he'
      exact ⟨[], m, l, rfl, hr, fun _ hm => absurd hm not_mem_nil⟩
    | none =>
      obtain ⟨r, h1, h2, h3⟩ := ih (n := n) hl (by omega)
      refine ⟨r, h1, fun hnone => forall_mem_cons.mpr ⟨hr, h2 hnone⟩, fun e he => ?_⟩
      obtain ⟨l1, m', l2, rfl, h4, h5⟩ := h3 e he
      exact ⟨m :: l1, m', l2, rfl, h4, forall_mem_cons.mpr ⟨hr, h5⟩⟩

omit hL hlen hbytes ho in
theorem Ok.above_or_eq {a : ℕ} (hi : .node i ∈ g.live) (ha : .node a ∈ g.live)
    (hu : Under off st.tree g.pre i (st.tree.leafKey t))
    (hua : Under off st.tree g.pre a (st.tree.leafKey t))
    (hle : st.tree.nodeB a ≤ st.tree.nodeB i) :
    a = i ∨ i ≠ 0 ∧ st.tree.nodeB a ≤ st.tree.nodeB (st.tree.nodeP i) := by
  rcases hok.shape.above_cases ha hi hua hu with heq | hup | ⟨h0, hdown⟩
  · exact .inl heq
  · exact .inr hup
  · have hlt := hok.shape.parent_lt ha h0
    omega

/-- **The way up.** The annotations of the nodes above the leaf `t` are tried from below, in their
order, up to the first that gives a route. -/
theorem matchUp_spec (old : Key) (hi : .node i ∈ g.live) (hu : Under off st.tree g.pre i (st.tree.leafKey t))
    (hn : st.tree.nodeB i < n) :
    ∃ r, matchUp st.tree st.masks old v o n i = some r ∧
      (r = none → ∀ a, .node a ∈ g.live → Under off st.tree g.pre a (st.tree.leafKey t) →
        st.tree.nodeB a ≤ st.tree.nodeB i → ∀ m ∈ g.list a,
          tryMask st.tree st.masks old v (min (st.tree.nodeB a / 8) o) a m = some none) ∧
      ∀ e, r = some e → ∃ b l1 m l2, .node b ∈ g.live ∧
        Under off st.tree g.pre b (st.tree.leafKey t) ∧ g.list b = l1 ++ m :: l2 ∧
        tryMask st.tree st.masks old v (min (st.tree.nodeB b / 8) o) b m = some (some e) ∧
        (∀ m' ∈ l1, tryMask st.tree st.masks old v (min (st.tree.nodeB b / 8) o) b m' = some none) ∧
        ∀ a, .node a ∈ g.live → Under off st.tree g.pre a (st.tree.leafKey t) →
          st.tree.nodeB b < st.tree.nodeB a → st.tree.nodeB a ≤ st.tree.nodeB i → ∀ m ∈ g.list a,
            tryMask st.tree st.masks old v (min (st.tree.nodeB a / 8) o) a m = some none := by
  have hs := hok.shape
  induction n generalizing i with
  | zero => exact absurd hn (Nat.not_lt_zero _)
  | succ n ih =>
    have hlink := hok.lists.linked hi
    have hlen' := hlink.length_le fun m hm => hok.lists.lt hi hm
    obtain ⟨r, h1, h2, h3⟩ := tryMasks_spec hlink (Nat.lt_succ_of_le hlen') fun m => by
      obtain ⟨r, hr, -⟩ := tryMask_spec hok hL hlen hbytes ho old hi hu m
      exact ⟨r, hr⟩
    rw [matchUp, h1, bind_eq_bind, bind_some]
    cases r with
    | some e =>
      refine ⟨some e, rfl, nofun, fun e' he' => ?_⟩
      obtain rfl := some.inj he'
      obtain ⟨l1, m, l2, hsplit, h4, h5⟩ := h3 e rfl
      exact ⟨i, l1, m, l2, hi, hu, hsplit, h4, h5, fun a _ _ hlt hle => by omega⟩
    | none =>
      have hhere := h2 rfl
      by_cases h0 : i = 0
      · rw [if_pos h0]
        refine ⟨none, rfl, fun _ a ha hua hle => ?_, nofun⟩
        rcases hok.above_or_eq hi ha hu hua hle with rfl | ⟨hne, -⟩
        · exact hhere
        · exact absurd h0 hne
      rw [if_neg h0]
      have hlt := hs.parent_lt hi h0
      obtain ⟨r, h4, h5, h6⟩ := ih (hs.parent_mem hi) (hs.under_parent hi hu) (by omega)
      refine ⟨r, h4, fun hnone a ha hua hle => ?_, fun e he => ?_⟩
      · rcases hok.above_or_eq hi ha hu hua hle with rfl | ⟨-, hle'⟩
        · exact hhere
        · exact h5 hnone a ha hua hle'
      · obtain ⟨b, l1, m, l2, b1, b2, b3, b4, b5, b6⟩ := h6 e he
        refine ⟨b, l1, m, l2, b1, b2, b3, b4, b5, fun a ha hua hlt' hle => ?_⟩
        rcases hok.above_or_eq hi ha hu hua hle with rfl | ⟨-, hle'⟩
        · exact hhere
        · exact b6 a ha hua hlt' hle'

end lookup

/-! ## Entries elsewhere -/

theorem IsIndex.le {m : Key} {b : ℤ} {c : ℕ} (hb : IsIndex off m b) (hc : 8 * off ≤ c)
    (hbit : bitAt m c = false) : b ≤ c := by
  obtain ⟨d, rfl, -, hones, -⟩ := hb
  by_contra hlt
  exact absurd (hones c hc (by omega)) (by rw [hbit]; exact Bool.false_ne_true)

theorem Ok.exists_branch (hok : Ok off L st g) (hf : Finds st.tree v (.node 0) t)
    (he : e ∈ g.routes) (hcov : Covers off L st v e) (hne : e ∉ g.chain t) :
    ∃ a, .node a ∈ g.live ∧ Under off st.tree g.pre a (st.tree.leafKey t) ∧
      Under off st.tree g.pre a (st.tree.leafKey e) ∧
      bitAt (st.tree.leafKey t) (st.tree.nodeB a) = true ∧
      bitAt (maskBytes st.masks (st.tree.leafMask e)) (st.tree.nodeB a) = false := by
  have hs := hok.shape
  obtain ⟨j, hj, hej⟩ := he
  have hsame := hok.chains.key hj hej
  have hjt : j ≠ t := by
    rintro rfl
    exact hne hej
  obtain ⟨a, ha, h1, h2, h3, h4⟩ := hs.branch hs.top_mem hf hj (hs.under_top _) hjt
  have hlow := hs.top_le ha
  have hhigh := hs.bit_lt ha
  have hbit : bitAt (st.tree.leafKey e) (st.tree.nodeB a) = bitAt (st.tree.leafKey j) (st.tree.nodeB a) :=
    agree_mul_iff.mpr hsame _ hlow hhigh
  rw [← hbit, hcov.bitAt hlow hhigh] at h4
  refine ⟨a, ha, h1, (hs.under_iff ha hsame).mpr h2, ?_⟩
  rw [h3]
  cases hv : bitAt v (st.tree.nodeB a)
  · rw [hv] at h4
    exact absurd rfl h4
  · rw [hv, Bool.true_and] at h4
    exact ⟨rfl, Bool.eq_false_iff.mpr h4⟩

/-- **Where an entry is annotated.** An entry that covers the address but is not in the chain of the
leaf found is annotated at a node above that leaf. -/
theorem Ok.exists_note (hok : Ok off L st g) (hf : Finds st.tree v (.node 0) t)
    (he : e ∈ g.routes) (hcov : Covers off L st v e) (hne : e ∉ g.chain t) :
    ∃ i m, .node i ∈ g.live ∧ Under off st.tree g.pre i (st.tree.leafKey t) ∧
      Under off st.tree g.pre i (st.tree.leafKey e) ∧ m ∈ g.list i ∧
      st.tree.leafMask e = some (st.tree.rmMask m) := by
  have hs := hok.shape
  obtain ⟨a, ha, h1, h2, -, hbit⟩ := hok.exists_branch hf he hcov hne
  have hlow := hs.top_le ha
  cases hM : st.tree.leafMask e with
  | none =>
    rw [hM] at hbit
    exact absurd (bitAt_of_ones rfl) (by rw [maskBytes] at hbit; rw [hbit]; exact Bool.false_ne_true)
  | some M =>
    rw [hM] at hbit
    obtain ⟨hmask, hB⟩ := hok.notes.mask he hM
    have hidx := (hok.masks.index hmask).le hlow hbit
    cases hmk : st.tree.leafMk e with
    | none =>
      have := hok.notes.unnoted he hmk hM ha h2
      omega
    | some m =>
      obtain ⟨i, hi, hu, hm, hrm⟩ := hok.notes.noted he hmk
      rw [hM] at hrm
      refine ⟨i, m, hi, ?_, hu, hm, hrm⟩
      -- the node of the annotation is not below the node `a`
      have hle : st.tree.nodeB i ≤ st.tree.nodeB a := by
        obtain ⟨-, hrmB⟩ := hok.lists.mask hi hm
        rw [← some.inj hrm] at hrmB
        rcases hs.above_cases hi ha hu h2 with rfl | ⟨h0, hup⟩ | ⟨h0, hdown⟩
        · exact Nat.le_refl _
        · have := hs.parent_lt ha h0
          omega
        · have := hok.lists.high hi h0 hm
          omega
      exact hu.trans ((h2.symm.trans h1).mono hle)

/-! ## Lookups -/

/-- What a lookup that ends at the leaf `t` has found. Source: rn_match -/
inductive Outcome (off L : ℕ) (st : State) (g : Ghost) (v : Key) (t : ℕ) : Option ℕ → Prop where
  | exact : SameBytes off L v (st.tree.leafKey t) → st.tree.leafRoot t = false →
      Outcome off L st g v t (some t)
  | dup {d : ℕ} {l : List ℕ} : SameBytes off L v (st.tree.leafKey t) → st.tree.leafRoot t = true →
      g.chain t = t :: d :: l → Outcome off L st g v t (some d)
  | root : SameBytes off L v (st.tree.leafKey t) → st.tree.leafRoot t = true → g.chain t = [t] →
      Outcome off L st g v t (some t)
  | chain {l₁ l₂ : List ℕ} {e M : ℕ} : ¬ SameBytes off L v (st.tree.leafKey t) →
      g.chain t = l₁ ++ e :: l₂ → st.tree.leafMask e = some M → Covers off L st v e →
      (∀ a ∈ l₁, ¬ Covers off L st v a) → Outcome off L st g v t (some e)
  | up {b m e : ℕ} {l₁ l₂ : List ℕ} : (∀ a ∈ g.chain t, ¬ Covers off L st v a) →
      .node b ∈ g.live → Under off st.tree g.pre b (st.tree.leafKey t) → g.list b = l₁ ++ m :: l₂ →
      e ∈ g.routes → st.tree.leafMask e = some (st.tree.rmMask m) → Covers off L st v e →
      (∀ a m' e', .node a ∈ g.live → Under off st.tree g.pre a (st.tree.leafKey t) →
        m' ∈ g.list a → st.tree.nodeB b < st.tree.nodeB a ∨ a = b ∧ m' ∈ l₁ → e' ∈ g.routes →
        st.tree.leafMask e' = some (st.tree.rmMask m') →
        Under off st.tree g.pre a (st.tree.leafKey e') → ¬ Covers off L st v e') →
      Outcome off L st g v t (some e)
  | none : (∀ e ∈ g.routes, ¬ Covers off L st v e) → Outcome off L st g v t none

theorem xor_and_eq_zero {k v m : Byte} : (k ^^^ v) &&& m = 0 ↔ k &&& m = v &&& m := by
  have hdistrib : (k ^^^ v) &&& m = (k &&& m) ^^^ (v &&& m) := by
    refine eq_of_getLsbD_eq fun i _ => ?_
    rw [getLsbD_and, getLsbD_xor, getLsbD_xor, getLsbD_and,
      getLsbD_and]
    exact Bool.and_xor_distrib_right ..
  rw [hdistrib]
  exact BitVec.xor_eq_zero_iff

theorem Ok.maskedEq_iff {M : ℕ} (hok : Ok off L st g) (he : e ∈ g.routes)
    (hM : st.tree.leafMask e = some M) (ho : off ≤ o)
    (hbytes : SameBytes off o v (st.tree.leafKey e)) :
    maskedEq v (st.tree.leafKey e) (st.masks.leafKey M) o L = true ↔ Covers off L st v e := by
  rw [maskedEq, decide_eq_true_iff]
  constructor
  · intro hall i h1 h2
    rw [hM, maskBytes]
    by_cases hi : o ≤ i
    · rw [← xor_and_eq_zero.mp (hall i h2 hi)]
      exact hok.masked he hM i h1 h2
    · rw [hbytes i h1 (by omega)]
      exact hok.masked he hM i h1 h2
  · intro hcov i h2 hi
    have hv := hcov i (by omega) h2
    rw [hM, maskBytes] at hv
    rw [xor_and_eq_zero, hv]
    exact hok.masked he hM i (by omega) h2

theorem rnMatch_spec (hok : Ok off L st g) (hL : L ≤ maxkeylen) (hlen : vlen v = L) (old : Key) :
    ∃ t r, .leaf t ∈ g.live ∧ Finds st.tree v (.node 0) t ∧ rnMatch st old v = some r ∧
      Outcome off L st g v t r := by
  have hs := hok.shape
  have hc := hok.chains
  have hhead : headOff st.tree = off := by rw [headOff, hs.top_bit]; omega
  obtain ⟨t, hfind⟩ := hs.exists_finds v hs.top_mem
  have hsearch := (hs.rnSearch_iff hL hs.top_mem).mpr hfind
  have ht : .leaf t ∈ g.live := hs.finds_mem hs.top_mem hfind
  obtain ⟨l, hchain, hlink⟩ := hc.eq_cons ht
  unfold rnMatch
  simp only [hsearch, hhead, hlen, bind_eq_bind, bind_some]
  cases hdiff : firstDiff v (st.tree.leafKey t) off L with
  | none =>
    have hsame := firstDiff_eq_none.mp hdiff
    cases hroot : st.tree.leafRoot t with
    | false => exact ⟨t, some t, ht, hfind, rfl, .exact hsame hroot⟩
    | true =>
      cases l with
      | nil =>
        have hdup : st.tree.leafDup t = none := hlink
        exact ⟨t, some t, ht, hfind, by rw [hdup], .root hsame hroot hchain⟩
      | cons d l =>
        have hdup : st.tree.leafDup t = some d := hlink.1
        exact ⟨t, some d, ht, hfind, by rw [hdup], .dup hsame hroot hchain⟩
  | some o =>
    obtain ⟨ho, hoL, hne, hbytes⟩ := firstDiff_eq_some hdiff
    have hdiffer : ¬ SameBytes off L v (st.tree.leafKey t) := fun hsame => hne (hsame o ho hoL)
    have hbytes' : ∀ {e}, e ∈ g.chain t → SameBytes off o v (st.tree.leafKey e) := by
      intro e he i h1 h2
      rw [hbytes i h1 h2, hc.key ht he i h1 (by omega)]
    obtain ⟨l1, l2, hsplit, h1, h2, hwalk⟩ := walk_spec
      (fun e => (st.tree.leafMask e).elim false fun m =>
        maskedEq v (st.tree.leafKey e) (st.masks.leafKey m) o L)
      (hc.linked ht) (Nat.lt_succ_of_le (hc.length_le ht)) none
    -- what the loop over the chain passes does not cover the address
    have hpassed : ∀ a ∈ l1, ¬ Covers off L st v a := by
      intro a ha hcov
      have hmem : a ∈ g.chain t := hsplit ▸ mem_append_left _ ha
      cases hM : st.tree.leafMask a with
      | none =>
        refine hdiffer fun i h1 h2 => ?_
        rw [hcov.sameBytes hM i h1 h2, hc.key ht hmem i h1 h2]
      | some M =>
        have hstop := h1 a ha
        simp only [hM, Option.elim_some] at hstop
        rw [(hok.maskedEq_iff ⟨t, ht, hmem⟩ hM ho (hbytes' hmem)).mpr hcov] at hstop
        cases hstop
    have hmatch : matchChain st.tree st.masks v o t = some l2.head? := by
      rw [matchChain, hlen]
      refine Eq.trans ?_ (congrArg (fun w => bind w fun r => some r.2) hwalk)
      congr 2
      funext e
      cases st.tree.leafMask e with
      | none => rfl
      | some m => rfl
    simp only [hmatch, bind_some]
    cases l2 with
    | cons e l2 =>
      have hmem : e ∈ g.chain t := hsplit ▸ mem_append_right _ (mem_cons_self ..)
      have hstop := h2 e rfl
      cases hM : st.tree.leafMask e with
      | none =>
        simp only [hM, Option.elim_none] at hstop
        cases hstop
      | some M =>
        simp only [hM, Option.elim_some] at hstop
        have hcov := (hok.maskedEq_iff ⟨t, ht, hmem⟩ hM ho (hbytes' hmem)).mp hstop
        exact ⟨t, some e, ht, hfind, rfl, .chain hdiffer hsplit hM hcov hpassed⟩
    | nil =>
      rw [append_nil] at hsplit
      rw [← hsplit] at hpassed
      have hp := hs.leafP_mem ht
      have hu := hs.under_leafP ht
      have hfuel : st.tree.nodeB (st.tree.leafP t) < depthFuel := by
        have := hs.bit_lt hp
        have : depthFuel = 257 := rfl
        have : maxkeylen = 32 := rfl
        omega
      obtain ⟨r, m1, m2, m3⟩ := matchUp_spec hok hL hlen hbytes ho old hp hu hfuel
      simp only [head?_nil, m1]
      refine ⟨t, r, ht, hfind, rfl, ?_⟩
      -- an annotation that gave nothing stands for no entry that covers the address
      have htried : ∀ {a m' e'}, .node a ∈ g.live →
          Under off st.tree g.pre a (st.tree.leafKey t) →
          tryMask st.tree st.masks old v (min (st.tree.nodeB a / 8) o) a m' = some none →
          e' ∈ g.routes → st.tree.leafMask e' = some (st.tree.rmMask m') →
          Under off st.tree g.pre a (st.tree.leafKey e') → ¬ Covers off L st v e' := by
        intro a m' e' ha hua hnone he' hM' hue'
        obtain ⟨r', hr', -, hcomplete⟩ := tryMask_spec hok hL hlen hbytes ho old ha hua m'
        exact hcomplete (some.inj (hr'.symm.trans hnone)) e' he' hM' hue'
      cases r with
      | none =>
        refine .none fun e he hcov => ?_
        by_cases hmem : e ∈ g.chain t
        · exact hpassed e hmem hcov
        · obtain ⟨i, m, hi, hui, hue, hm, hM⟩ := hok.exists_note hfind he hcov hmem
          exact htried hi hui (m2 rfl i hi hui (hs.nodeB_le_of_under hi ht hui) m hm) he hM hue
            hcov
      | some e =>
        obtain ⟨b, k1, m, k2, b1, b2, b3, b4, b5, b6⟩ := m3 e rfl
        obtain ⟨r', hr', hsound, -⟩ := tryMask_spec hok hL hlen hbytes ho old b1 b2 m
        obtain ⟨he, hM, hcov⟩ := hsound e (some.inj (hr'.symm.trans b4))
        refine .up hpassed b1 b2 b3 he hM hcov fun a m' e' ha hua hm' hbefore => ?_
        refine htried ha hua ?_
        rcases hbefore with hlt | ⟨rfl, hmem⟩
        · exact b6 a ha hua hlt (hs.nodeB_le_of_under ha ht hua) m' hm'
        · exact b5 m' hmem

end Bsd386.Net.Radix
