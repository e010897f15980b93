import Bsd386.Net.Radix.Remove

/-!
# Radix trees: deleting a route

`rnDelete_spec`: a safe call of `rn_delete` keeps the invariant and takes at most one route out of
the tree (`Deleted`). The annotations of the node that goes are handed to the remaining child
(`demote_node`, `demote_leaf`).
-/

namespace Bsd386.Net.Radix

open Function List Lib.Linked Option

variable {off L : ℕ} {h h' masks : Heap} {mlive live : Set Ptr} {pre : ℕ → Key}
  {chain list list' : ℕ → List ℕ} {E : Set ℕ} {v : Key} {i j k m n t tt x : ℕ} {y : Ptr}
  {st : State} {g : Ghost}

/-! ## Demoting -/

section demote

variable (hs : Shape off L h live pre) (hl : Lists h masks mlive live list)
  (hn : Notes off h masks mlive live pre list E) (htt : .leaf tt ∈ live) (h0 : tt ≠ 0)
  (h1 : tt ≠ 1) (hy : sibling h (h.leafP tt) tt = y)

include hs htt hy in
theorem Shape.finds_sibling (hj : .leaf j ∈ live) (hne : j ≠ tt)
    (hu : Under off h pre (h.leafP tt) (h.leafKey j)) : Finds h (h.leafKey j) y j := by
  have ht := hs.leafP_mem htt
  obtain ⟨s, hst, hsy⟩ := hs.sibling_eq htt
  obtain ⟨hc⟩ | ⟨hc⟩ := hs.finds_of_under ht hj hu fun _ _ _ => rfl
  rw [childOf_eq] at hc
  by_cases hb : bitAt (h.leafKey j) (h.nodeB (h.leafP tt)) = s
  · rw [hb, hst] at hc
    cases hc
    exact absurd rfl hne
  have hb' : bitAt (h.leafKey j) (h.nodeB (h.leafP tt)) = !s := by
    revert hb
    cases bitAt (h.leafKey j) (h.nodeB (h.leafP tt)) <;> cases s <;> decide
  rwa [hb', ← hsy, hy] at hc

include hs hl htt h0 h1 hy in
theorem Lists.drop
    (hB : h'.nodeB = h.nodeB) (hrmB : h'.rmB = h.rmB) (hrmM : h'.rmMask = h.rmMask)
    (hmf : h'.mfresh = h.mfresh)
    (hP : ∀ j, .node j ∈ dropLive live tt (h.leafP tt) →
      h'.nodeP j = if y = .node j then h.nodeP (h.leafP tt) else h.nodeP j)
    (hlink : ∀ j, .node j ∈ dropLive live tt (h.leafP tt) → Linked h'.rmNext (h'.nodeMk j) (list' j))
    (hlist : ∀ j, .node j ∈ dropLive live tt (h.leafP tt) →
      list' j = list j ∨ y = .node j ∧ list' j = list j ++ list (h.leafP tt)) :
    Lists h' masks mlive (dropLive live tt (h.leafP tt)) list' := by
  have ht := hs.leafP_mem htt
  have ht0 := hs.leafP_ne_zero htt h0 h1
  have hpt := hs.parent_lt ht ht0
  obtain ⟨s, -, hsy⟩ := hs.sibling_eq htt
  rw [hy] at hsy
  have hyc := hs.hangs ht (!s)
  rw [← hsy] at hyc
  have hcases : ∀ {j m}, .node j ∈ dropLive live tt (h.leafP tt) → m ∈ list' j →
      m ∈ list j ∨ y = .node j ∧ m ∈ list (h.leafP tt) := by
    intro j m hj hm
    rcases hlist j hj with heq | ⟨hyj, heq⟩
    · exact .inl (heq ▸ hm)
    · rw [heq] at hm
      exact (mem_append.mp hm).imp id fun hm => ⟨hyj, hm⟩
  have hjt : ∀ {j}, .node j ∈ dropLive live tt (h.leafP tt) → j ≠ h.leafP tt := fun hj heq =>
    hj.2 (.inr (congrArg Ptr.node heq))
  -- where an annotation was
  have hold : ∀ {j m}, .node j ∈ dropLive live tt (h.leafP tt) → m ∈ list' j →
      ∃ i, .node i ∈ live ∧ m ∈ list i ∧ -1 - (h.nodeB j : ℤ) ≤ h.rmB m := by
    intro j m hj hm
    rcases hcases hj hm with hm | ⟨hyj, hm⟩
    · exact ⟨j, hj.1, hm, hl.low hj.1 hm⟩
    · have hlt := hyc.lt j hyj
      have hlow := hl.low ht hm
      exact ⟨_, ht, hm, by omega⟩
  constructor
  · exact fun hj => hlink _ hj
  · intro j k m hj hk hmj hmk
    rcases hcases hj hmj with hmj' | ⟨hyj, hmj'⟩
    · rcases hcases hk hmk with hmk' | ⟨-, hmk'⟩
      · exact hl.disjoint hj.1 hk.1 hmj' hmk'
      · exact absurd (hl.disjoint hj.1 ht hmj' hmk') (hjt hj)
    · rcases hcases hk hmk with hmk' | ⟨hyk, -⟩
      · exact absurd (hl.disjoint hk.1 ht hmk' hmj') (hjt hk)
      · exact Ptr.node.inj (hyj.symm.trans hyk)
  · intro j m hj hm
    obtain ⟨i, hi, hmi, -⟩ := hold hj hm
    rw [hmf]
    exact hl.lt hi hmi
  · intro j m hj hm
    obtain ⟨-, -, -, hlow⟩ := hold hj hm
    rw [hrmB, hB]
    exact hlow
  · intro j m hj hj0 hm
    rw [hrmB, hB, hP j hj]
    by_cases hyj : y = .node j
    · rw [if_pos hyj]
      rcases hcases hj hm with hm' | ⟨-, hm'⟩
      · have hhigh := hl.high hj.1 hj0 hm'
        have hpj : h.nodeP j = h.leafP tt := by
          have := hyc.parent_eq
          rwa [hyj] at this
        rw [hpj] at hhigh
        omega
      · exact hl.high ht ht0 hm'
    · rw [if_neg hyj]
      rcases hcases hj hm with hm' | ⟨hyj', -⟩
      · exact hl.high hj.1 hj0 hm'
      · exact absurd hyj' hyj
  · intro j hj
    rw [hrmB]
    rcases hlist j hj with heq | ⟨hyj, heq⟩
    · rw [heq]
      exact hl.sorted hj.1
    rw [heq]
    refine pairwise_append.mpr ⟨hl.sorted hj.1, hl.sorted ht, fun a ha b hb => ?_⟩
    have hj0 : j ≠ 0 := by
      rintro rfl
      have h₁ := hyc.lt 0 hyj
      have h2 := hs.top_le ht
      rw [hs.top_bit] at h₁
      omega
    have h₁ := hl.high hj.1 hj0 ha
    have h2 := hl.low ht hb
    have hpj : h.nodeP j = h.leafP tt := by
      have := hyc.parent_eq
      rwa [hyj] at this
    rw [hpj] at h₁
    omega
  · intro j m hj hm
    obtain ⟨i, hi, hmi, -⟩ := hold hj hm
    rw [hrmB, hrmM]
    exact hl.mask hi hmi

include hs hl hn htt h0 h1 hy in
theorem demote_node (hi : y = .node i)
    (hE : ∀ e ∈ E, ∃ j, .leaf j ∈ live ∧ j ≠ tt ∧ SameBytes off L (h.leafKey e) (h.leafKey j)) :
    ∃ h' list', demote (unsplice h tt y) (h.leafP tt) y = some h' ∧ Keeps (unsplice h tt y) h' ∧
      Lists h' masks mlive (dropLive live tt (h.leafP tt)) list' ∧
      Notes off h' masks mlive (dropLive live tt (h.leafP tt)) pre list' E := by
  have ht := hs.leafP_mem htt
  obtain ⟨hdata, hB, hK⟩ := unsplice_rest h tt y
  obtain ⟨hshape, hP⟩ := hs.unsplice htt h0 h1 hy
  have hil : .node i ∈ live := by
    obtain ⟨s, -, hsy⟩ := hs.sibling_eq htt
    rw [hy] at hsy
    exact hi ▸ hsy ▸ hs.child_mem ht _
  have hit : i ≠ h.leafP tt := by
    rintro rfl
    obtain ⟨s, -, hsy⟩ := hs.sibling_eq htt
    rw [hy] at hsy
    exact Nat.lt_irrefl _ (hs.child_lt ht _ _ (hsy.symm.trans hi))
  obtain ⟨h₁, hh1⟩ : ∃ h₁, unsplice h tt y = h₁ := ⟨_, rfl⟩
  rw [hh1] at hdata hB hK hP ⊢
  have hMk : h₁.nodeMk = h.nodeMk := congrArg Data.nodeMk hdata
  have hNx : h₁.rmNext = h.rmNext := congrArg Data.rmNext hdata
  -- the memory the function leaves
  obtain ⟨h', hh'⟩ : ∃ h', storeMk h₁ i (list i).getLast? (h.nodeMk (h.leafP tt)) = h' := ⟨_, rfl⟩
  have hkeep : Keeps h₁ h' := hh' ▸ keeps_storeMk _ _ _ _
  obtain ⟨r1, r2, r3, r4, r5⟩ := storeMk_rest h₁ i (list i).getLast? (h.nodeMk (h.leafP tt))
  have hnext := rmNext_storeMk h₁ i (list i).getLast? (h.nodeMk (h.leafP tt))
  have hmk := nodeMk_storeMk h₁ i (list i).getLast? (h.nodeMk (h.leafP tt))
  rw [hh'] at r1 r2 r3 r4 r5 hnext hmk
  have hlist : ∀ j, .node j ∈ dropLive live tt (h.leafP tt) →
      update list i (list i ++ list (h.leafP tt)) j = list j ∨ y = .node j ∧
        update list i (list i ++ list (h.leafP tt)) j = list j ++ list (h.leafP tt) := by
    intro j _
    by_cases hji : j = i
    · subst hji
      exact .inr ⟨hi, update_self _ _ _⟩
    · exact .inl (update_of_ne hji _ _)
  refine ⟨h', update list i (list i ++ list (h.leafP tt)), ?_, hkeep, ?_, ?_⟩
  · -- an empty list is left alone, and that is the same
    subst hi
    unfold demote
    simp only [hMk]
    cases hm : h.nodeMk (h.leafP tt) with
    | none =>
      refine congrArg some ?_
      rw [← hh', hm, storeMk_getLast]
      rw [hNx, hMk]
      exact hl.linked hil
    | some m =>
      have hlen := (hl.linked hil).length_le fun m hm => hl.lt hil hm
      obtain ⟨l1, l2, hl', -, h2, hwalk⟩ := walk_spec (fun _ => false) (hl.linked hil)
        (Nat.lt_succ_of_le hlen) none
      cases l2 with
      | cons c l2 => exact absurd (h2 c rfl) nofun
      | nil =>
        rw [append_nil] at hl'
        subst hl'
        rw [or_none, ← hNx, ← show h₁.mfresh = h.mfresh from congrArg Data.mfresh hdata]
          at hwalk
        simp only [hwalk, bind_eq_bind, bind_some]
        rw [← hh', hm]
  · refine hl.drop hs htt h0 h1 hy (hkeep.nodeB.trans hB) (r1.trans (congrArg Data.rmB hdata))
      (r2.trans (congrArg Data.rmMask hdata)) (r4.trans (congrArg Data.mfresh hdata)) ?_ ?_ hlist
    · intro j hj
      rw [hkeep.nodeP]
      exact hP j hj
    · intro j hj
      rw [hnext, hmk, hNx, hMk]
      refine Linked.store (append_nil _).symm (hl.linked hil) (hl.linked ht) ?_
        (hl.linked hj.1) ?_
      · exact fun m hm hm' => hit (hl.disjoint hil ht hm hm')
      · exact fun hji m hm hm' => hji (hl.disjoint hj.1 hil hm hm')
  · have hmask : h'.leafMask = h.leafMask := hkeep.leafMask.trans (congrArg Data.leafMask hdata)
    have hleafMk : h'.leafMk = h.leafMk := r5.trans (congrArg Data.leafMk hdata)
    have hkey : h'.leafKey = h.leafKey := hkeep.leafKey.trans hK
    have hbit : h'.nodeB = h.nodeB := hkeep.nodeB.trans hB
    have hil' : .node i ∈ dropLive live tt (h.leafP tt) := node_mem_dropLive.mpr ⟨hil, hit⟩
    constructor
    · rw [hmask, hkeep.leafB, show h₁.leafB = h.leafB from congrArg Data.leafB hdata]
      exact hn.mask
    · rw [hmask, hleafMk, hkey, r2, show h₁.rmMask = h.rmMask from congrArg Data.rmMask hdata]
      intro e m he hm
      obtain ⟨a, a1, a2, a3, a4⟩ := hn.noted he hm
      by_cases hat : a = h.leafP tt
      · subst hat
        obtain ⟨j, hj, hjt, hkj⟩ := hE e he
        have hfind := hs.finds_sibling htt hy hj hjt ((hs.under_iff ht hkj).mp a2)
        rw [hi] at hfind
        have hui := (hs.under_iff hil hkj).mpr (hs.finds_under hil hfind).1
        refine ⟨i, hil', (under_congr hbit _).mpr hui, ?_, a4⟩
        rw [update_self]
        exact mem_append_right _ a3
      · refine ⟨a, node_mem_dropLive.mpr ⟨a1, hat⟩, (under_congr hbit _).mpr a2, ?_, a4⟩
        by_cases hai : a = i
        · subst hai
          rw [update_self]
          exact mem_append_left _ a3
        · rwa [update_of_ne hai]
    · rw [hmask, hleafMk, hkey]
      intro e M a he h₁ h2 h3 h4
      rw [hbit]
      exact hn.unnoted he h₁ h2 h3.1 ((under_congr hbit _).mp h4)
    · rw [hleafMk, r3, show h₁.rmRefs = h.rmRefs from congrArg Data.rmRefs hdata]
      intro a m ha hm
      by_cases hai : a = i
      · subst hai
        rw [update_self] at hm
        rcases mem_append.mp hm with hm | hm
        · exact hn.refs hil hm
        · exact hn.refs ht hm
      · rw [update_of_ne hai] at hm
        exact hn.refs ha.1 hm

theorem demoteLeaf_none {q : Option ℕ} {l : List ℕ} (hl : Linked h.rmNext q l) (hn : l.length < n)
    (hk : ∀ m ∈ l, h.leafMk k ≠ some m) : demoteLeaf k n q h = some h := by
  induction l generalizing q n with
  | nil =>
    obtain ⟨n, rfl⟩ : ∃ m, n = m + 1 := ⟨n - 1, by simp only [length_nil] at hn; omega⟩
    obtain rfl : q = none := hl
    rfl
  | cons c l ih =>
    obtain ⟨n, rfl⟩ : ∃ m, n = m + 1 := ⟨n - 1, by simp only [length_cons] at hn; omega⟩
    obtain ⟨rfl, hl⟩ := hl
    unfold demoteLeaf
    rw [if_neg (hk c (mem_cons_self ..))]
    refine ih hl ?_ fun m hm => hk m (mem_cons_of_mem _ hm)
    simp only [length_cons] at hn
    omega

theorem demoteLeaf_some {q : Option ℕ} {l : List ℕ} (hl : Linked h.rmNext q l) (hn : l.length < n)
    (hk : h.leafMk k = some m) (hm : m ∈ l) (hrefs : h.rmRefs m = 0) :
    demoteLeaf k n q h = some { h with
      rmRefs := update h.rmRefs m (-1)
      leafMk := update h.leafMk k none } := by
  induction l generalizing q n with
  | nil => exact absurd hm not_mem_nil
  | cons c l ih =>
    obtain ⟨n, rfl⟩ : ∃ m, n = m + 1 := ⟨n - 1, by simp only [length_cons] at hn; omega⟩
    have hn' : l.length < n := by
      simp only [length_cons] at hn
      omega
    obtain ⟨rfl, hl⟩ := hl
    unfold demoteLeaf
    by_cases hmc : c = m
    · subst hmc
      have hneg : (-1 : ℤ) < 0 := by decide
      simp only [if_pos hk, update_self, hrefs, Int.zero_sub, if_pos hneg]
      refine demoteLeaf_none hl hn' fun m hm => ?_
      simp only [update_self]
      exact nofun
    · have hne : h.leafMk k ≠ some c := by
        rw [hk]
        exact fun h => hmc (some.inj h).symm
      simp only [if_neg hne]
      exact ih hl hn' ((mem_cons.mp hm).resolve_left fun h => hmc h.symm)

include hs hl hn htt h0 h1 hy in
theorem demote_leaf (hk : y = .leaf k) (hkE : k ∈ E)
    (hE : ∀ e ∈ E, ∃ j, .leaf j ∈ live ∧ j ≠ tt ∧ SameBytes off L (h.leafKey e) (h.leafKey j))
    (hfar : ∀ e ∈ E, e ≠ k → SameBytes off L (h.leafKey e) (h.leafKey k) →
      ∀ m, h.leafMk e = some m → m ∉ list (h.leafP tt)) :
    ∃ h' list', demote (unsplice h tt y) (h.leafP tt) y = some h' ∧ Keeps (unsplice h tt y) h' ∧
      Lists h' masks mlive (dropLive live tt (h.leafP tt)) list' ∧
      Notes off h' masks mlive (dropLive live tt (h.leafP tt)) pre list' E := by
  have ht := hs.leafP_mem htt
  have ht0 := hs.leafP_ne_zero htt h0 h1
  obtain ⟨hdata, hB, hK⟩ := unsplice_rest h tt y
  obtain ⟨-, hP⟩ := hs.unsplice htt h0 h1 hy
  obtain ⟨s, -, hsy⟩ := hs.sibling_eq htt
  rw [hy] at hsy
  have hyc := hs.hangs ht (!s)
  rw [← hsy, hk] at hyc
  have hkl : .leaf k ∈ live := hyc.mem
  have hkP : h.leafP k = h.leafP tt := hyc.parent_eq
  obtain ⟨h₁, hh1⟩ : ∃ h₁, unsplice h tt y = h₁ := ⟨_, rfl⟩
  rw [hh1] at hdata hB hK hP ⊢
  have hMk : h₁.nodeMk = h.nodeMk := congrArg Data.nodeMk hdata
  have hNx : h₁.rmNext = h.rmNext := congrArg Data.rmNext hdata
  have hlMk : h₁.leafMk = h.leafMk := congrArg Data.leafMk hdata
  have hRef : h₁.rmRefs = h.rmRefs := congrArg Data.rmRefs hdata
  have hMf : h₁.mfresh = h.mfresh := congrArg Data.mfresh hdata
  have hlen : (list (h.leafP tt)).length < h₁.mfresh + 1 := by
    rw [hMf]
    exact Nat.lt_succ_of_le ((hl.linked ht).length_le fun m hm => hl.lt ht hm)
  have hlink : Linked h₁.rmNext (h₁.nodeMk (h.leafP tt)) (list (h.leafP tt)) := by
    rw [hNx, hMk]
    exact hl.linked ht
  have hdem : demote h₁ (h.leafP tt) y =
      demoteLeaf k (h₁.mfresh + 1) (h₁.nodeMk (h.leafP tt)) h₁ := by
    rw [hk]
    rfl
  -- a route noted at the node that goes is the first of the chain of `k`
  have honly : ∀ {e m}, e ∈ E → h.leafMk e = some m → m ∈ list (h.leafP tt) → e = k := by
    intro e m he hm hml
    by_contra hek
    obtain ⟨a, a1, a2, a3, -⟩ := hn.noted he hm
    obtain rfl := hl.disjoint a1 ht a3 hml
    obtain ⟨j, hj, hjt, hkj⟩ := hE e he
    have hfind := hs.finds_sibling htt hy hj hjt ((hs.under_iff ht hkj).mp a2)
    rw [hk] at hfind
    cases hfind
    exact hfar e he hek hkj m hm hml
  have hrest : ∀ h', Keeps h₁ h' → h'.rmB = h₁.rmB → h'.rmMask = h₁.rmMask →
      h'.mfresh = h₁.mfresh → h'.rmNext = h₁.rmNext → h'.nodeMk = h₁.nodeMk →
      (∀ a m, .node a ∈ live → a ≠ h.leafP tt → m ∈ list a → h'.rmRefs m = h.rmRefs m) →
      (∀ e, h'.leafMk e = h.leafMk e ∨ e = k ∧ h'.leafMk e = none) →
      (∀ m, h'.leafMk k = some m → m ∉ list (h.leafP tt)) →
      (∀ a m, .node a ∈ live → a ≠ h.leafP tt → m ∈ list a → h.leafMk k = some m →
        h'.leafMk k = some m) →
      Lists h' masks mlive (dropLive live tt (h.leafP tt)) list ∧
      Notes off h' masks mlive (dropLive live tt (h.leafP tt)) pre list E := by
    intro h' hkeep e1 e2 e3 e4 e5 e6 e7 e8 e9
    have hbit : h'.nodeB = h.nodeB := hkeep.nodeB.trans hB
    have hrmM : h'.rmMask = h.rmMask := e2.trans (congrArg Data.rmMask hdata)
    have hmask : h'.leafMask = h.leafMask := hkeep.leafMask.trans (congrArg Data.leafMask hdata)
    have hkey : h'.leafKey = h.leafKey := hkeep.leafKey.trans hK
    refine ⟨?_, ?_⟩
    · refine hl.drop hs htt h0 h1 hy hbit (e1.trans (congrArg Data.rmB hdata)) hrmM (e3.trans hMf)
        (fun j hj => by rw [hkeep.nodeP]; exact hP j hj) (fun j hj => ?_) (fun j _ => .inl rfl)
      rw [e4, e5, hNx, hMk]
      exact hl.linked hj.1
    · constructor
      · rw [hmask, hkeep.leafB, show h₁.leafB = h.leafB from congrArg Data.leafB hdata]
        exact hn.mask
      · intro e m he hm
        rw [hmask, hkey, hrmM]
        rcases e7 e with heq | ⟨-, hnone⟩
        · have hm' := heq ▸ hm
          obtain ⟨a, a1, a2, a3, a4⟩ := hn.noted he hm'
          refine ⟨a, node_mem_dropLive.mpr ⟨a1, ?_⟩, (under_congr hbit _).mpr a2, a3, a4⟩
          rintro rfl
          obtain rfl := honly he hm' a3
          exact e8 m hm a3
        · rw [hnone] at hm
          exact absurd hm nofun
      · intro e M a he h2 h3 ha h4
        rw [hmask] at h3
        rw [hkey] at h4
        rw [hbit]
        obtain ⟨hal, hat⟩ := node_mem_dropLive.mp ha
        have hua := (under_congr hbit _).mp h4
        cases hmk : h.leafMk e with
        | none => exact hn.unnoted he hmk h3 hal hua
        | some m =>
          -- its annotation was at the node that goes, and every other node above it is higher
          have hek : e = k := by
            rcases e7 e with heq | ⟨hek, -⟩
            · rw [heq, hmk] at h2
              exact absurd h2 nofun
            · exact hek
          subst hek
          obtain ⟨b, b1, b2, b3, b4⟩ := hn.noted he hmk
          have hbt : b = h.leafP tt := by
            by_contra hbt
            rw [e9 b m b1 hbt b3 hmk] at h2
            exact absurd h2 nofun
          subst hbt
          have hhigh := hl.high ht ht0 b3
          have hM : h.rmB m = masks.leafB M := by
            obtain rfl := some.inj (h3.symm.trans b4)
            exact (hl.mask ht b3).2
          have hle : h.nodeB a ≤ h.nodeB (h.nodeP (h.leafP tt)) := by
            rcases hs.above_cases hal ht hua b2 with heq | ⟨-, hle⟩ | ⟨ha0, hle⟩
            · exact absurd heq hat
            · exact hle
            · have h5 := hs.nodeB_le_of_under hal hkl hua
              have h6 := hs.parent_lt hal ha0
              rw [hkP] at h5
              omega
          omega
      · intro a m ha hm
        obtain ⟨hal, hat⟩ := node_mem_dropLive.mp ha
        obtain ⟨u, hu, hcard⟩ := hn.refs hal hm
        refine ⟨u, fun e => ?_, by rw [e6 a m hal hat hm]; exact hcard⟩
        rw [hu e]
        constructor
        · rintro ⟨he, hem⟩
          refine ⟨he, ?_⟩
          rcases e7 e with heq | ⟨rfl, -⟩
          · rw [heq]
            exact hem
          · exact e9 a m hal hat hm hem
        · rintro ⟨he, hem⟩
          refine ⟨he, ?_⟩
          rcases e7 e with heq | ⟨-, hnone⟩
          · rw [← heq]
            exact hem
          · rw [hnone] at hem
            exact absurd hem nofun
  by_cases hnoted : ∃ m, h.leafMk k = some m ∧ m ∈ list (h.leafP tt)
  · obtain ⟨m, hmk, hml⟩ := hnoted
    have hrefs : h.rmRefs m = 0 := by
      obtain ⟨u, hu, hcard⟩ := hn.refs ht hml
      have hone : u = {k} := by
        ext e
        rw [hu e, Finset.mem_singleton]
        constructor
        · rintro ⟨he, hem⟩
          exact honly he hem hml
        · rintro rfl
          exact ⟨hkE, hmk⟩
      rw [hone, Finset.card_singleton] at hcard
      omega
    refine ⟨_, list, ?_, ?_, hrest { h₁ with
      rmRefs := update h₁.rmRefs m (-1), leafMk := update h₁.leafMk k none }
      ?_ rfl rfl rfl rfl rfl ?_ ?_ ?_ ?_⟩
    · rw [hdem]
      exact demoteLeaf_some hlink hlen (hlMk ▸ hmk) hml (by rw [hRef]; exact hrefs)
    · exact ⟨rfl, rfl, rfl, rfl, rfl, rfl, rfl, rfl, rfl, rfl, rfl⟩
    · exact ⟨rfl, rfl, rfl, rfl, rfl, rfl, rfl, rfl, rfl, rfl, rfl⟩
    · intro a m' ha hat hm'
      have hne : m' ≠ m := by
        rintro rfl
        exact hat (hl.disjoint ha ht hm' hml)
      show update h₁.rmRefs m (-1) m' = _
      rw [update_of_ne hne, hRef]
    · intro e
      show update h₁.leafMk k none e = _ ∨ _ ∧ update h₁.leafMk k none e = _
      by_cases hek : e = k
      · exact .inr ⟨hek, by rw [hek, update_self]⟩
      · exact .inl (by rw [update_of_ne hek, hlMk])
    · intro m' hm'
      have hm'' : update h₁.leafMk k none k = some m' := hm'
      rw [update_self] at hm''
      exact absurd hm'' nofun
    · intro a m' ha hat hm' hkm
      obtain rfl := some.inj (hmk.symm.trans hkm)
      exact absurd (hl.disjoint ha ht hm' hml) hat
  · refine ⟨h₁, list, ?_, .refl h₁, hrest h₁ (.refl h₁) rfl rfl rfl rfl rfl ?_ ?_ ?_ ?_⟩
    · rw [hdem]
      exact demoteLeaf_none hlink hlen fun m hm hkm => hnoted ⟨m, hlMk ▸ hkm, hm⟩
    · intro a m' _ _ _
      rw [hRef]
    · exact fun e => .inl (by rw [hlMk])
    · exact fun m hm hml => hnoted ⟨m, hlMk ▸ hm, hml⟩
    · intro a m _ _ _ hm
      rw [hlMk]
      exact hm

end demote

/-! ## The three ways a leaf goes -/

theorem setParent_setChild (h : Heap) (p : ℕ) (r : Bool) (x y : Ptr) (n : ℕ) :
    setParent (setChild h p r x) y n = setChild (setParent h y n) p r x := by
  cases r <;> cases y <;> rfl

theorem dropHead_eq (hp : (replaceLeaf h tt x).nodeP tt ≠ x) :
    dropHead h tt x = moveNode (replaceLeaf h tt x) tt x := by
  obtain ⟨g, hg⟩ : ∃ g, replaceLeaf h tt x = g := ⟨_, rfl⟩
  obtain ⟨A, hA⟩ : ∃ A, setNode g x (g.nodeP tt) (g.nodeB tt) (g.nodeL tt) (g.nodeR tt)
    (g.nodeMk tt) = A := ⟨_, rfl⟩
  rw [hg] at hp ⊢
  have h1 : dropHead h tt x =
      setParent (setParent (setChild A (g.nodeP tt) (decide (A.nodeL (g.nodeP tt) ≠ .node tt))
        (.node x)) (child (setChild A (g.nodeP tt) (decide (A.nodeL (g.nodeP tt) ≠ .node tt))
        (.node x)) x false) x) (child (setChild A (g.nodeP tt)
        (decide (A.nodeL (g.nodeP tt) ≠ .node tt)) (.node x)) x true) x := by
    rw [← hA, ← hg]
    rfl
  have h2 : moveNode g tt x =
      setChild (setParent (setParent A (child A x false) x) (child A x true) x) (g.nodeP tt)
        (decide (child (setParent (setParent A (child A x false) x) (child A x true) x) (g.nodeP tt)
          false ≠ .node tt)) (.node x) := by
    rw [← hA]
    rfl
  have hne : ∀ s, ¬ (x = g.nodeP tt ∧ s = decide (A.nodeL (g.nodeP tt) ≠ .node tt)) := fun s hx =>
    hp hx.1.symm
  rw [h1, h2, child_setChild, child_setChild, if_neg (hne _), if_neg (hne _), setParent_setChild,
    setParent_setChild, child_setParent, child_setParent]
  rfl

/-- The leaves have kept their keys, masks and places in chains. -/
structure SameLeaves (h h' : Heap) : Prop where
  leafKey : h'.leafKey = h.leafKey
  leafMask : h'.leafMask = h.leafMask
  leafRoot : h'.leafRoot = h.leafRoot
  fresh : h'.fresh = h.fresh

/-- The leaf `tt` has been taken out of the tree. -/
structure Dropped (off L : ℕ) (h h' : Heap) (live live' : Set Ptr) (pre' : ℕ → Key)
    (chain chain' : ℕ → List ℕ) (tt : ℕ) : Prop where
  shape : Shape off L h' live' pre'
  chains : Chains off L h' live' chain'
  routes : routes live' chain' = routes live chain \ {tt}
  twins (n : ℕ) : .node n ∈ live' ↔ .leaf n ∈ live' ∧ n ≠ 1
  leaves : SameLeaves h h'
  sub {k : ℕ} : .leaf k ∈ live' → ∃ j, .leaf j ∈ live ∧ (chain' k).Sublist (chain j)

theorem Chains.sub {live' : Set Ptr} (hc : Chains off L h live chain) (hleaves : SameLeaves h h')
    (hdup : h'.leafDup = h.leafDup) (hsub : ∀ j, .leaf j ∈ live' → .leaf j ∈ live)
    (hnode : ∀ i, .node i ∈ live' → i < h.fresh) : Chains off L h' live' chain := by
  constructor
  · rw [hdup]
    exact fun hj => hc.linked (hsub _ hj)
  · rw [hleaves.leafKey]
    exact fun hj => hc.key (hsub _ hj)
  · rw [hleaves.fresh]
    exact fun hj => hc.lt (hsub _ hj)
  · rw [hleaves.fresh]
    exact fun hi => hnode _ hi
  · rw [hleaves.leafRoot]
    exact fun hj => hc.root (hsub _ hj)
  · rw [hleaves.leafMask]
    exact hc.root_mask

section drop

variable (hs : Shape off L h live pre) (hc : Chains off L h live chain)
  (htt : .leaf tt ∈ live) (h0 : tt ≠ 0) (h1 : tt ≠ 1)
  (htwins : ∀ n, .node n ∈ live ↔ .leaf n ∈ live ∧ n ≠ 1)

include hs hc htt h0 h1

theorem demote_safe (hl : Lists h masks mlive live list)
    (hn : Notes off h masks mlive live pre list (routes live chain \ {tt})) (hone : chain tt = [tt])
    (hy : sibling h (h.leafP tt) tt = y)
    (hsafe : ∀ k, y = .leaf k → ¬ Stranded h k (h.nodeP (h.leafP tt)) (h.nodeB (h.leafP tt))) :
    ∃ h' list', demote (unsplice h tt y) (h.leafP tt) y = some h' ∧ Keeps (unsplice h tt y) h' ∧
      Lists h' masks mlive (dropLive live tt (h.leafP tt)) list' ∧
      Notes off h' masks mlive (dropLive live tt (h.leafP tt)) pre list'
        (routes live chain \ {tt}) := by
  have ht := hs.leafP_mem htt
  have ht0 := hs.leafP_ne_zero htt h0 h1
  obtain ⟨s, hst, hsy⟩ := hs.sibling_eq htt
  rw [hy] at hsy
  have hyl : y ∈ live := hsy ▸ hs.child_mem ht _
  have hE : ∀ e ∈ routes live chain \ {tt},
      ∃ j, .leaf j ∈ live ∧ j ≠ tt ∧ SameBytes off L (h.leafKey e) (h.leafKey j) := by
    rintro e ⟨⟨j, hj, he⟩, hne⟩
    refine ⟨j, hj, ?_, hc.key hj he⟩
    rintro rfl
    rw [hone] at he
    exact hne (mem_singleton.mp he)
  cases hyk : y with
  | node i =>
    rw [← hyk]
    exact demote_node hs hl hn htt h0 h1 hy hyk hE
  | leaf k =>
    rw [← hyk]
    have hk : .leaf k ∈ live := hyk ▸ hyl
    have hktt : k ≠ tt := by
      rintro rfl
      have h₁ := hs.child_bit ht s
      have h2 := hs.child_bit ht (!s)
      rw [← hsy, hyk] at h2
      rw [hst, h2] at h₁
      cases s <;> exact absurd h₁ (by decide)
    refine demote_leaf hs hl hn htt h0 h1 hy hyk ⟨hc.mem_routes hk, hktt⟩ hE ?_
    rintro e he hek hkey m hm hml
    obtain ⟨⟨j, hj, hej⟩, hne⟩ := he
    obtain rfl : j = k := by
      refine hs.leaf_unique hj hk (agree_mul_iff.mpr fun i h₁ h2 => ?_)
      rw [← hc.key hj hej i h₁ h2]
      exact hkey i h₁ h2
    refine hsafe j hyk ⟨e, ?_, ?_⟩
    · rw [hc.chainOf_eq hj]
      obtain ⟨l, hl', -⟩ := hc.eq_cons hj
      rw [hl'] at hej ⊢
      exact (mem_cons.mp hej).resolve_left hek
    · obtain ⟨-, -, -, -, hmask⟩ := hn.noted ⟨⟨j, hj, hej⟩, hne⟩ hm
      have hB := (hn.mask ⟨⟨j, hj, hej⟩, hne⟩ hmask).2
      have hrm := (hl.mask ht hml).2
      have hlow := hl.low ht hml
      have hhigh := hl.high ht ht0 hml
      exact ⟨by rw [hmask]; exact nofun, by omega, by omega⟩

include htwins

theorem dropLeaf_spec {h2 : Heap} (hone : chain tt = [tt]) (hy : sibling h (h.leafP tt) tt = y)
    (d1 : demote (unsplice h tt y) (h.leafP tt) y = some h2) (d2 : Keeps (unsplice h tt y) h2) :
    ∃ h' live' pre' σ, dropLeaf h tt = some h' ∧
      Dropped off L h h' live live' pre' chain chain tt ∧
      Moved h2 h' (dropLive live tt (h.leafP tt)) live' pre pre' σ := by
  have ht := hs.leafP_mem htt
  obtain ⟨s, hst, hsy⟩ := hs.sibling_eq htt
  rw [hy] at hsy
  obtain ⟨hdata, hB, hK⟩ := unsplice_rest h tt y
  have hs' : Shape off L h2 (dropLive live tt (h.leafP tt)) pre :=
    (hs.unsplice htt h0 h1 hy).1.keeps d2
  have hleaves : SameLeaves h h2 :=
    ⟨d2.leafKey.trans hK, d2.leafMask.trans (congrArg Data.leafMask hdata),
      d2.leafRoot.trans (congrArg Data.leafRoot hdata), d2.fresh.trans (congrArg Data.fresh hdata)⟩
  have hdup : h2.leafDup = h.leafDup := d2.leafDup.trans (congrArg Data.leafDup hdata)
  -- the value of the function
  have heval : dropLeaf h tt = some (if h.leafP tt ≠ tt then moveNode h2 tt (h.leafP tt) else h2) := by
    have hx : (if h.nodeL (h.leafP tt) = .leaf tt then h.nodeR (h.leafP tt) else
        h.nodeL (h.leafP tt)) = y := by
      rw [hsy]
      have hb := hs.child_bit ht
      cases s with
      | false => exact if_pos hst
      | true =>
        refine if_neg fun hf => ?_
        have hf' : child h (h.leafP tt) false = .leaf tt := hf
        have h₁ := hb true
        have h2 := hb false
        rw [hst] at h₁
        rw [hf', h₁] at h2
        exact absurd h2 (by decide)
    unfold dropLeaf
    simp only [hx]
    rw [show setParent (setChild h (h.nodeP (h.leafP tt))
      (decide (h.nodeR (h.nodeP (h.leafP tt)) = .node (h.leafP tt))) y) y
      (h.nodeP (h.leafP tt)) = unsplice h tt y from rfl, d1]
    rfl
  have hroutes : ∀ {live'}, (∀ j, .leaf j ∈ live' ↔ .leaf j ∈ live ∧ j ≠ tt) →
      Radix.routes live' chain = Radix.routes live chain \ {tt} := by
    intro live' hleaf
    ext e
    constructor
    · rintro ⟨j, hj, he⟩
      obtain ⟨hjl, hjt⟩ := (hleaf j).mp hj
      refine ⟨⟨j, hjl, he⟩, ?_⟩
      rintro rfl
      exact hjt (hc.unique hs hjl htt he (hc.self_mem htt))
    · rintro ⟨⟨j, hj, he⟩, hne⟩
      refine ⟨j, (hleaf j).mpr ⟨hj, ?_⟩, he⟩
      rintro rfl
      rw [hone] at he
      exact hne (mem_singleton.mp he)
  have hleaf1 : ∀ j, .leaf j ∈ dropLive live tt (h.leafP tt) ↔ .leaf j ∈ live ∧ j ≠ tt := fun j =>
    leaf_mem_dropLive
  by_cases heq : h.leafP tt = tt
  · -- the node that goes is the twin itself
    refine ⟨h2, dropLive live tt (h.leafP tt), pre, id, ?_, ⟨hs', ?_, hroutes hleaf1, ?_, hleaves, ?_⟩,
      .refl _ _ _⟩
    · rw [heval, if_neg fun h => h heq]
    · exact hc.sub hleaves hdup (fun j hj => ((hleaf1 j).mp hj).1)
        fun i hi => hc.node_lt (node_mem_dropLive.mp hi).1
    · intro n
      rw [hleaf1, node_mem_dropLive, htwins n, heq]
      tauto
    · exact fun hk => ⟨_, ((hleaf1 _).mp hk).1, List.Sublist.refl _⟩
  · have hntt : .node tt ∈ dropLive live tt (h.leafP tt) :=
      node_mem_dropLive.mpr ⟨(htwins tt).mpr ⟨htt, h1⟩, fun h => heq h.symm⟩
    have hnt : .node (h.leafP tt) ∉ dropLive live tt (h.leafP tt) := fun h =>
      (node_mem_dropLive.mp h).2 rfl
    have hs'' := hs'.moveNode hntt h0 hnt
    have hmdata := data_moveNode h2 tt (h.leafP tt)
    have hmkey := (moveNode_bits h2 tt (h.leafP tt)).2
    have hleaves' : SameLeaves h (moveNode h2 tt (h.leafP tt)) :=
      ⟨hmkey.trans hleaves.leafKey, (congrArg Data.leafMask hmdata).trans hleaves.leafMask,
        (congrArg Data.leafRoot hmdata).trans hleaves.leafRoot,
        (congrArg Data.fresh hmdata).trans hleaves.fresh⟩
    have hleaf2 : ∀ j, .leaf j ∈ moveLive (dropLive live tt (h.leafP tt)) tt (h.leafP tt) ↔
        .leaf j ∈ live ∧ j ≠ tt := by
      intro j
      rw [← hleaf1 j]
      constructor
      · rintro (h | ⟨h, -⟩)
        · exact absurd h nofun
        · exact h
      · exact fun h => .inr ⟨h, nofun⟩
    have hnode2 : ∀ j, .node j ∈ moveLive (dropLive live tt (h.leafP tt)) tt (h.leafP tt) ↔
        .node j ∈ live ∧ j ≠ tt := by
      intro j
      constructor
      · rintro (h2 | ⟨h2, hne⟩)
        · rw [Ptr.node.inj h2]
          exact ⟨ht, heq⟩
        · exact ⟨(node_mem_dropLive.mp h2).1, fun h => hne (congrArg Ptr.node h)⟩
      · rintro ⟨hj, hjt⟩
        by_cases hjp : j = h.leafP tt
        · exact .inl (congrArg Ptr.node hjp)
        · exact .inr ⟨node_mem_dropLive.mpr ⟨hj, hjp⟩, fun h => hjt (Ptr.node.inj h)⟩
    refine ⟨moveNode h2 tt (h.leafP tt), _, _, _, ?_, ⟨hs'', ?_, hroutes hleaf2, ?_, hleaves', ?_⟩,
      hs'.moved_moveNode hntt h0 hnt⟩
    · rw [heval, if_pos heq]
    · exact hc.sub hleaves' ((congrArg Data.leafDup hmdata).trans hdup)
        (fun j hj => ((hleaf2 j).mp hj).1) fun i hi => hc.node_lt ((hnode2 i).mp hi).1
    · intro n
      rw [hleaf2, hnode2, htwins n]
      tauto
    · exact fun hk => ⟨_, ((hleaf2 _).mp hk).1, List.Sublist.refl _⟩

theorem dropHead_spec {l : List ℕ} (hchain : chain tt = tt :: x :: l) :
    ∃ live' pre' chain' σ, Dropped off L h (dropHead h tt x) live live' pre' chain chain' tt ∧
      Moved h (dropHead h tt x) live live' pre pre' σ := by
  have hxc : x ∈ chain tt := by
    rw [hchain]
    exact mem_cons_of_mem _ (mem_cons_self ..)
  have hlink := hc.linked htt
  have hnd := hlink.nodup
  rw [hchain] at hnd hlink
  have hxtt : x ≠ tt := fun heq => (nodup_cons.mp hnd).1 (heq ▸ mem_cons_self ..)
  have hxl : .leaf x ∉ live := fun hx => hxtt (hc.unique hs hx htt (hc.self_mem hx) hxc)
  have hxn : .node x ∉ live := fun hx => hxl ((htwins x).mp hx).1
  have hntt : .node tt ∈ live := (htwins tt).mpr ⟨htt, h1⟩
  -- the leaf first, then the node
  obtain ⟨rdata, rB, rK, rP⟩ := replaceLeaf_rest h tt x
  have heq : dropHead h tt x = moveNode (replaceLeaf h tt x) tt x := by
    have hp : (replaceLeaf h tt x).nodeP tt ≠ x := by
      rw [rP]
      exact fun heq => hxn (heq ▸ hs.parent_mem hntt)
    exact dropHead_eq hp
  have hs1 := hs.replaceLeaf htt h0 h1 hxl (hc.key htt hxc)
  have hmem1 : ∀ {i}, .node i ∈ replaceLive live tt x ↔ .node i ∈ live := by
    intro i
    constructor
    · rintro (h | ⟨h, -⟩)
      · exact absurd h nofun
      · exact h
    · exact fun h => .inr ⟨h, nofun⟩
  have hntt1 := hmem1.mpr hntt
  have hxn1 : .node x ∉ replaceLive live tt x := fun h => hxn (hmem1.mp h)
  have hs2 := hs1.moveNode hntt1 h0 hxn1
  have mdata := data_moveNode (replaceLeaf h tt x) tt x
  have mK := (moveNode_bits (replaceLeaf h tt x) tt x).2
  have hleaves : SameLeaves h (moveNode (replaceLeaf h tt x) tt x) :=
    ⟨mK.trans rK, (congrArg Data.leafMask mdata).trans (congrArg Data.leafMask rdata),
      (congrArg Data.leafRoot mdata).trans (congrArg Data.leafRoot rdata),
      (congrArg Data.fresh mdata).trans (congrArg Data.fresh rdata)⟩
  have hdup : (moveNode (replaceLeaf h tt x) tt x).leafDup = h.leafDup :=
    (congrArg Data.leafDup mdata).trans (congrArg Data.leafDup rdata)
  have hleaf2 : ∀ j, .leaf j ∈ moveLive (replaceLive live tt x) tt x ↔
      j = x ∨ .leaf j ∈ live ∧ j ≠ tt := by
    intro j
    constructor
    · rintro (h | ⟨h | ⟨h, hne⟩, -⟩)
      · exact absurd h nofun
      · exact .inl (Ptr.leaf.inj h)
      · exact .inr ⟨h, fun h => hne (congrArg Ptr.leaf h)⟩
    · rintro (rfl | ⟨h, hne⟩)
      · exact .inr ⟨.inl rfl, nofun⟩
      · exact .inr ⟨.inr ⟨h, fun h => hne (Ptr.leaf.inj h)⟩, nofun⟩
  have hnode2 : ∀ j, .node j ∈ moveLive (replaceLive live tt x) tt x ↔
      j = x ∨ .node j ∈ live ∧ j ≠ tt := by
    intro j
    constructor
    · rintro (h | ⟨h, hne⟩)
      · exact .inl (Ptr.node.inj h)
      · exact .inr ⟨hmem1.mp h, fun h => hne (congrArg Ptr.node h)⟩
    · rintro (rfl | ⟨h, hne⟩)
      · exact .inl rfl
      · exact .inr ⟨hmem1.mpr h, fun h => hne (Ptr.node.inj h)⟩
  -- the chain without its first leaf
  obtain ⟨chain', hchain'⟩ : ∃ c, update chain x (x :: l) = c := ⟨_, rfl⟩
  have hcx : chain' x = x :: l := by rw [← hchain', update_self]
  have hcj : ∀ {j}, .leaf j ∈ live → chain' j = chain j := fun hj => by
    rw [← hchain', update_of_ne]
    rintro rfl
    exact hxl hj
  have hsubl : ∀ {a}, a ∈ x :: l → a ∈ chain tt := fun ha => by
    rw [hchain]
    exact mem_cons_of_mem _ ha
  have hxlt := hc.lt htt hxc
  rw [heq]
  refine ⟨_, _, chain', _, ⟨hs2, ?_, ?_, ?_, hleaves, ?_⟩,
    (moved_replaceLeaf h live pre tt x).trans (hs1.moved_moveNode hntt1 h0 hxn1)⟩
  · constructor
    · intro j hj
      rw [hdup]
      rcases (hleaf2 j).mp hj with rfl | ⟨hj, -⟩
      · rw [hcx]
        exact hlink.2.1 ▸ hlink.2
      · rw [hcj hj]
        exact hc.linked hj
    · intro j e hj he
      rw [hleaves.leafKey]
      rcases (hleaf2 j).mp hj with rfl | ⟨hj, -⟩
      · rw [hcx] at he
        intro i h₁ h2
        rw [hc.key htt (hsubl he) i h₁ h2, hc.key htt hxc i h₁ h2]
      · rw [hcj hj] at he
        exact hc.key hj he
    · intro j e hj he
      rw [hleaves.fresh]
      rcases (hleaf2 j).mp hj with rfl | ⟨hj, -⟩
      · rw [hcx] at he
        exact hc.lt htt (hsubl he)
      · rw [hcj hj] at he
        exact hc.lt hj he
    · intro i hi
      rw [hleaves.fresh]
      rcases (hnode2 i).mp hi with rfl | ⟨hi, -⟩
      · exact hxlt
      · exact hc.node_lt hi
    · intro j e hj he
      rw [hleaves.leafRoot]
      rcases (hleaf2 j).mp hj with rfl | ⟨hj, -⟩
      · rw [hcx] at he
        exact hc.root htt (hsubl he)
      · rw [hcj hj] at he
        exact hc.root hj he
    · rw [hleaves.leafMask]
      exact hc.root_mask
  · ext e
    constructor
    · rintro ⟨j, hj, he⟩
      rcases (hleaf2 j).mp hj with rfl | ⟨hj', hjt⟩
      · rw [hcx] at he
        refine ⟨⟨tt, htt, hsubl he⟩, ?_⟩
        rintro rfl
        exact (nodup_cons.mp hnd).1 he
      rw [hcj hj'] at he
      refine ⟨⟨j, hj', he⟩, ?_⟩
      rintro rfl
      exact hjt (hc.unique hs hj' htt he (hc.self_mem htt))
    · rintro ⟨⟨j, hj, he⟩, hne⟩
      by_cases hjt : j = tt
      · subst hjt
        rw [hchain] at he
        refine ⟨x, (hleaf2 x).mpr (.inl rfl), ?_⟩
        rw [hcx]
        exact (mem_cons.mp he).resolve_left hne
      · exact ⟨j, (hleaf2 j).mpr (.inr ⟨hj, hjt⟩), by rw [hcj hj]; exact he⟩
  · intro n
    have hx1 : x ≠ 1 := fun hx1 => hxl (hx1 ▸ hs.ones_mem)
    rw [hleaf2, hnode2, htwins n]
    constructor
    · rintro (rfl | ⟨⟨h₁, h2⟩, h3⟩)
      · exact ⟨.inl rfl, hx1⟩
      · exact ⟨.inr ⟨h₁, h3⟩, h2⟩
    · rintro ⟨rfl | ⟨h₁, h2⟩, h3⟩
      · exact .inl rfl
      · exact .inr ⟨⟨h₁, h3⟩, h2⟩
  · intro k hk
    rcases (hleaf2 k).mp hk with rfl | ⟨hk, -⟩
    · refine ⟨tt, htt, ?_⟩
      rw [hcx, hchain]
      exact sublist_cons_self _ _
    · exact ⟨k, hk, by rw [hcj hk]⟩

end drop

theorem dropLater_spec {l1 l2 : List ℕ} {p : ℕ} (hs : Shape off L h live pre)
    (hc : Chains off L h live chain)
    (hj : .leaf j ∈ live) (hchain : chain j = l1 ++ tt :: l2) (hp : l1.getLast? = some p)
    (htwins : ∀ n, .node n ∈ live ↔ .leaf n ∈ live ∧ n ≠ 1) :
    Dropped off L h { h with leafDup := update h.leafDup p (h.leafDup tt) } live live pre
      chain (update chain j (l1 ++ l2)) tt := by
  have hlink := hc.linked hj
  have hnd := hlink.nodup
  rw [hchain] at hnd
  have htt : tt ∈ chain j := by
    rw [hchain]
    exact mem_append_right _ (mem_cons_self ..)
  have hsub : ∀ {k e}, e ∈ update chain j (l1 ++ l2) k → e ∈ chain k := by
    intro k e he
    by_cases hkj : k = j
    · subst hkj
      rw [update_self] at he
      rw [hchain]
      rcases mem_append.mp he with he | he
      · exact mem_append_left _ he
      · exact mem_append_right _ (mem_cons_of_mem _ he)
    · rwa [update_of_ne hkj] at he
  refine ⟨?_, ?_, ?_, htwins, ⟨rfl, rfl, rfl, rfl⟩, ?_⟩
  · exact hs.frame rfl rfl rfl rfl rfl rfl
  · constructor
    · intro k hk
      exact Linked.store_self hchain hp hlink (by rw [hchain] at hlink; exact hlink.next_eq)
        (fun m hm hm' => (nodup_append.mp hnd).2.2 m hm m (mem_cons_of_mem _ hm') rfl)
        (hc.linked hk) fun hkj m hm hm' => hkj (hc.unique hs hk hj hm
          (hchain ▸ mem_append_left _ hm'))
    · exact fun hk he => hc.key hk (hsub he)
    · exact fun hk he => hc.lt hk (hsub he)
    · exact hc.node_lt
    · exact fun hk he => hc.root hk (hsub he)
    · exact hc.root_mask
  · ext e
    constructor
    · rintro ⟨k, hk, he⟩
      refine ⟨⟨k, hk, hsub he⟩, ?_⟩
      rintro rfl
      obtain rfl := hc.unique hs hk hj (hsub he) htt
      rw [update_self] at he
      obtain ⟨-, h2, h3⟩ := nodup_append.mp hnd
      rcases mem_append.mp he with he | he
      · exact h3 e he e (mem_cons_self ..) rfl
      · exact (nodup_cons.mp h2).1 he
    · rintro ⟨⟨k, hk, he⟩, hne⟩
      refine ⟨k, hk, ?_⟩
      by_cases hkj : k = j
      · subst hkj
        rw [update_self]
        rw [hchain] at he
        rcases mem_append.mp he with he | he
        · exact mem_append_left _ he
        · exact mem_append_right _ ((mem_cons.mp he).resolve_left hne)
      · rwa [update_of_ne hkj]
  · intro k hk
    refine ⟨k, hk, ?_⟩
    by_cases hkj : k = j
    · subst hkj
      rw [update_self, hchain]
      exact (sublist_cons_self tt l2).append_left l1
    · rw [update_of_ne hkj]

/-! ## The call -/

theorem chainFrom_congr (hdup : h'.leafDup = h.leafDup) (n : ℕ) (p : Option ℕ) :
    chainFrom h' n p = chainFrom h n p := by
  induction n generalizing p with
  | zero => rfl
  | succ n ih =>
    cases p with
    | none => rfl
    | some e => rw [chainFrom, chainFrom, hdup, ih]

theorem Keeps.stranded (hk : Keeps h h') {k p b : ℕ} : Stranded h' k p b ↔ Stranded h k p b := by
  unfold Stranded chainOf
  rw [chainFrom_congr hk.leafDup, hk.fresh, hk.leafMask, hk.nodeB, hk.leafB]

/-- `rn_delete` from the route on. Source: rn_delete -/
def deleteFound (st : State) (saved tt : ℕ) : Option (State × Option ℕ) := do
  let h ← unlift st.tree saved tt
  if h.leafRoot tt then some ({ st with tree := h }, none)
  else
    match h.leafDup saved with
    | some x =>
      if tt = saved then some ({ st with tree := dropHead h tt x }, some tt)
      else do
        let (p, _) ← walk h.leafDup (fun e => decide (e = tt)) (h.fresh + 1) none (some saved)
        match p with
        | none => some ({ st with tree := h }, some tt)
        | some p =>
          some ({ st with tree :=
            { h with leafDup := update h.leafDup p (h.leafDup tt) } }, some tt)
    | none => do
        let h ← dropLeaf h tt
        some ({ st with tree := h }, some tt)

/-- `rn_delete` from the search of the chain on. Source: rn_delete -/
def deleteFrom (st : State) (saved : ℕ) : Option ℕ → Option (State × Option ℕ)
  | none => some (st, none)
  | some tt => deleteFound st saved tt

/-- The route `e` has been deleted. -/
structure Deleted (st st' : State) (g g' : Ghost) (e : ℕ) : Prop where
  routes : g'.routes = g.routes \ {e}
  leaves : SameLeaves st.tree st'.tree
  masks : st'.masks = st.masks
  mlive : g'.mlive = g.mlive
  sub {k : ℕ} : .leaf k ∈ g'.live → ∃ j, .leaf j ∈ g.live ∧ (g'.chain k).Sublist (g.chain j)

theorem Ok.of_dropped {st : State} {g : Ghost} {h h' : Heap} {live' : Set Ptr} {pre' : ℕ → Key}
    {chain' list' : ℕ → List ℕ} (hok : Ok off L st g) (hk : Keeps st.tree h)
    (hd : Dropped off L h h' g.live live' pre' g.chain chain' tt)
    (hl : Lists h' st.masks g.mlive live' list')
    (hn : Notes off h' st.masks g.mlive live' pre' list' (g.routes \ {tt})) :
    Ok off L ⟨h', st.masks⟩ ⟨g.mlive, g.mpre, live', pre', chain', list'⟩ ∧
      Deleted st ⟨h', st.masks⟩ g ⟨g.mlive, g.mpre, live', pre', chain', list'⟩ tt := by
  have hleaves : SameLeaves st.tree h' :=
    ⟨hd.leaves.leafKey.trans hk.leafKey, hd.leaves.leafMask.trans hk.leafMask,
      hd.leaves.leafRoot.trans hk.leafRoot, hd.leaves.fresh.trans hk.fresh⟩
  refine ⟨⟨hok.masks, hd.shape, hd.chains, hl, ?_, ?_, hd.twins⟩,
    ⟨hd.routes, hleaves, rfl, rfl, hd.sub⟩⟩
  · rw [Ghost.routes, hd.routes]
    exact hn
  · intro e M he hM
    rw [Ghost.routes, hd.routes] at he
    rw [hleaves.leafMask] at hM
    rw [hleaves.leafKey]
    exact hok.masked he.1 hM

theorem deleteFound_eval {st : State} (hs : Shape off L h live pre) (hc : Chains off L h live chain)
    (htwins : ∀ n, .node n ∈ live ↔ .leaf n ∈ live ∧ n ≠ 1)
    (hun : unlift st.tree j tt = some h) (hroot : h.leafRoot tt = false) (hj : .leaf j ∈ live)
    (htt : tt ∈ chain j) (hy : sibling h (h.leafP j) j = y)
    (hdem : chain j = [j] → ∃ h2, demote (unsplice h j y) (h.leafP j) y = some h2 ∧
      Keeps (unsplice h j y) h2) :
    ∃ h2 h' live2 live' pre' chain' σ, deleteFound st j tt = some ({ st with tree := h' }, some tt) ∧
      Dropped off L h h' live live' pre' chain chain' tt ∧ Moved h2 h' live2 live' pre pre' σ ∧
      (h2 = h ∧ live2 = live ∨ chain j = [j] ∧ tt = j ∧
        demote (unsplice h j y) (h.leafP j) y = some h2 ∧ live2 = dropLive live j (h.leafP j)) := by
  have h01 : ¬ (tt = 0 ∨ tt = 1) := fun h => by
    rw [(hc.root hj htt).mpr h] at hroot
    exact absurd hroot nofun
  unfold deleteFound
  rw [hun, bind_eq_bind, bind_some, hroot, if_neg Bool.false_ne_true]
  obtain ⟨l, hchain, hlink⟩ := hc.eq_cons hj
  cases l with
  | nil =>
    -- the only leaf of its chain
    have hdup : h.leafDup j = none := hlink
    rw [hchain, mem_singleton] at htt
    subst htt
    obtain ⟨h2, d1, d2⟩ := hdem hchain
    obtain ⟨h', live', pre', σ, hdrop, hd, hm⟩ := dropLeaf_spec hs hc hj (fun h0 => h01 (.inl h0))
      (fun h1 => h01 (.inr h1)) htwins hchain hy d1 d2
    rw [hdup]
    refine ⟨h2, h', _, live', pre', chain, σ, ?_, hd, hm, .inr ⟨hchain, rfl, d1, rfl⟩⟩
    rw [hdrop]
    rfl
  | cons x l =>
    have hdup : h.leafDup j = some x := hlink.1
    rw [hdup]
    by_cases htj : tt = j
    · subst htj
      obtain ⟨live', pre', chain', σ, hd, hm⟩ := dropHead_spec hs hc hj (fun h0 => h01 (.inl h0))
        (fun h1 => h01 (.inr h1)) htwins hchain
      refine ⟨h, _, live, live', pre', chain', σ, ?_, hd, hm, .inl ⟨rfl, rfl⟩⟩
      show (if tt = tt then _ else _) = _
      rw [if_pos rfl]
    · obtain ⟨l1, l2, hsplit, hwalk⟩ := walk_mem (hc.linked hj)
        (Nat.lt_succ_of_le (hc.length_le hj)) htt
      obtain ⟨p, hp⟩ : ∃ p, l1.getLast? = some p := by
        cases l1 with
        | nil =>
          rw [hchain] at hsplit
          exact absurd (List.cons.inj hsplit).1.symm htj
        | cons y l1 => exact ⟨_, List.getLast?_cons⟩
      have hd := dropLater_spec hs hc hj hsplit hp htwins
      refine ⟨h, _, live, live, pre, _, id, ?_, hd, ?_, .inl ⟨rfl, rfl⟩⟩
      · show (if tt = j then _ else _) = _
        rw [if_neg htj, hwalk, hp]
        rfl
      · obtain ⟨⟨r1, r2, r3, r4, r5, r6⟩, m1, m2, m3, m4, m5, m6, m7, m8, m9, m10⟩ :=
          Moved.refl h live pre
        exact ⟨⟨r1, r2, r3, r4, r5, r6⟩, m1, m2, m3, m4, m5, m6, m7, m8, m9, m10⟩

theorem deleteFound_root {st : State} (hc : Chains off L st.tree live chain) (hj : .leaf j ∈ live)
    (htt : tt ∈ chain j) (hroot : st.tree.leafRoot tt = true) :
    deleteFound st j tt = some (st, none) := by
  -- it has no mask, and nothing is taken back
  have hmask := hc.root_mask ((hc.root hj htt).mp hroot)
  have hun : unlift st.tree j tt = some st.tree := by rw [unlift, hmask]
  unfold deleteFound
  rw [hun, bind_eq_bind, bind_some, if_pos hroot]

theorem deleteFound_spec {st : State} {g : Ghost} (hok : Ok off L st g) (hL : L ≤ maxkeylen)
    (hj : .leaf j ∈ g.live) (htt : tt ∈ g.chain j)
    (hsafe : st.tree.leafDup j = none → st.tree.leafRoot j = false →
      ∀ k, sibling st.tree (st.tree.leafP j) j = .leaf k →
        ¬ Stranded st.tree k (st.tree.nodeP (st.tree.leafP j)) (st.tree.nodeB (st.tree.leafP j)))
    (hroot : st.tree.leafRoot tt = false) :
    ∃ st' g', deleteFound st j tt = some (st', some tt) ∧ Ok off L st' g' ∧
      Deleted st st' g g' tt := by
  have hc := hok.chains
  have h01 : ¬ (tt = 0 ∨ tt = 1) := fun h => by
    rw [(hc.root hj htt).mpr h] at hroot
    exact absurd hroot nofun
  obtain ⟨h, list, hun, hk, -, hl, hn⟩ := unlift_spec hok.shape hL hok.lists hok.notes ⟨j, hj, htt⟩
    hj (hc.key hj htt)
  have hs := hok.shape.keeps hk
  have hc' := hc.keeps hk
  obtain ⟨y, hy⟩ : ∃ y, sibling h (h.leafP j) j = y := ⟨_, rfl⟩
  have hdem : g.chain j = [j] → ∃ h2 list2, demote (unsplice h j y) (h.leafP j) y = some h2 ∧
      Keeps (unsplice h j y) h2 ∧ Lists h2 st.masks g.mlive (dropLive g.live j (h.leafP j)) list2 ∧
      Notes off h2 st.masks g.mlive (dropLive g.live j (h.leafP j)) g.pre list2
        (g.routes \ {j}) := by
    intro hone
    rw [hone, mem_singleton] at htt
    subst htt
    refine demote_safe hs hc' hj (fun h0 => h01 (.inl h0)) (fun h1 => h01 (.inr h1)) hl hn hone hy ?_
    intro k hyk
    have hdup : st.tree.leafDup tt = none := by
      have hlink := hc.linked hj
      rw [hone] at hlink
      exact hlink.2
    have hsib : sibling st.tree (st.tree.leafP tt) tt = .leaf k := by
      rw [← hyk, ← hy, sibling, sibling, hk.nodeR, hk.nodeL, hk.leafP]
    rw [hk.stranded, hk.leafP, hk.nodeP, hk.nodeB]
    exact hsafe hdup hroot k hsib
  obtain ⟨h2, h', live2, live', pre', chain', σ, heval, hd, hm, ⟨rfl, rfl⟩ | ⟨hone, rfl, d1, rfl⟩⟩ :=
    deleteFound_eval hs hc' hok.twins hun (by rw [hk.leafRoot, hroot]) hj htt hy fun hone => by
      obtain ⟨h2, -, d1, d2, -⟩ := hdem hone
      exact ⟨h2, d1, d2⟩
  · exact ⟨_, _, heval, hok.of_dropped hk hd (hl.moved hm) (hn.moved hm)⟩
  · obtain ⟨h3, list3, e1, -, e3, e4⟩ := hdem hone
    obtain rfl : h3 = h2 := some.inj (e1.symm.trans d1)
    exact ⟨_, _, heval, hok.of_dropped hk hd (e3.moved hm) (e4.moved hm)⟩

/-- The netmask `rn_delete` looks for in a chain of several routes.
Source: rn_delete -/
def deleteMask (masks : Heap) (netmask : Option Key) : Option (Option ℕ) :=
  match netmask with
  | none => some none
  | some m => (rnSearch masks m depthFuel (.node 0)).map some

theorem rnDelete_eq (st : State) (v : Key) (netmask : Option Key) :
    rnDelete st v netmask =
      (rnSearch st.tree v depthFuel (.node 0)).bind fun saved =>
        if (firstDiff v (st.tree.leafKey saved) (headOff st.tree) (vlen v)).isSome then some (st, none)
        else
          (match st.tree.leafDup saved with
            | none => some (some saved)
            | some _ =>
              (deleteMask st.masks netmask).bind fun mask =>
                (walk st.tree.leafDup (fun e => decide (st.tree.leafMask e = mask))
                  (st.tree.fresh + 1) none (some saved)).bind fun r => some r.2).bind
            (deleteFrom st saved) := by
  refine bind_congr fun saved _ => if_congr Iff.rfl rfl ?_
  cases st.tree.leafDup saved with
  | none => rfl
  | some x =>
    have hwalk : ∀ (mask : Option ℕ) (f : Option ℕ → Option (State × Option ℕ)),
        ((walk st.tree.leafDup (fun e => decide (st.tree.leafMask e = mask)) (st.tree.fresh + 1) none
          (some saved)).bind fun r => some r.2).bind f =
        (walk st.tree.leafDup (fun e => decide (st.tree.leafMask e = mask)) (st.tree.fresh + 1) none
          (some saved)).bind fun r => f r.2 := fun mask f => bind_assoc ..
    cases netmask with
    | none => exact (hwalk none (deleteFrom st saved)).symm
    | some m =>
      simp only [deleteMask]
      cases rnSearch st.masks m depthFuel (.node 0) with
      | none => rfl
      | some M => exact (hwalk (some M) (deleteFrom st saved)).symm

theorem MaskTree.exists_deleteMask {mpre : ℕ → Key} (ht : MaskTree off masks mlive mpre)
    (netmask : Option Key) : ∃ mask, deleteMask masks netmask = some mask := by
  cases netmask with
  | none => exact ⟨none, rfl⟩
  | some m =>
    have hs := ht.shape
    obtain ⟨M, hM⟩ := hs.exists_finds m hs.top_mem
    have hsearch := (hs.rnSearch_iff (Nat.le_refl _) hs.top_mem).mpr hM
    exact ⟨some M, by rw [deleteMask, hsearch]; rfl⟩

theorem rnDelete_eval {st : State} {v : Key} {netmask : Option Key} {mask : Option ℕ}
    (hs : Shape off L st.tree live pre) (hc : Chains off L st.tree live chain) (hL : L ≤ maxkeylen)
    (hlen : vlen v = L) (hmask : deleteMask st.masks netmask = some mask) :
    ∃ t, .leaf t ∈ live ∧ Finds st.tree v (.node 0) t ∧
    (rnDelete st v netmask = some (st, none) ∧ (SameBytes off L v (st.tree.leafKey t) →
        1 < (chain t).length ∧ ∀ e ∈ chain t, st.tree.leafMask e ≠ mask) ∨
      SameBytes off L v (st.tree.leafKey t) ∧ ∃ e ∈ chain t,
        (chain t = [t] ∨ 1 < (chain t).length ∧ st.tree.leafMask e = mask) ∧
        rnDelete st v netmask = deleteFound st t e) := by
  have hhead : headOff st.tree = off := by rw [headOff, hs.top_bit]; omega
  obtain ⟨t, hfind⟩ := hs.exists_finds v hs.top_mem
  have hsearch := (hs.rnSearch_iff hL hs.top_mem).mpr hfind
  have ht : .leaf t ∈ live := hs.finds_mem hs.top_mem hfind
  refine ⟨t, ht, hfind, ?_⟩
  simp only [rnDelete_eq, hsearch, hhead, hlen, bind_some]
  cases hdiff : firstDiff v (st.tree.leafKey t) off L with
  | some i =>
    refine .inl ⟨rfl, fun hsame => ?_⟩
    rw [firstDiff_eq_none.mpr hsame] at hdiff
    cases hdiff
  | none =>
    have hsame := firstDiff_eq_none.mp hdiff
    obtain ⟨l, hchain, hlink⟩ := hc.eq_cons ht
    cases l with
    | nil =>
      have hdup : st.tree.leafDup t = none := hlink
      simp only [hdup, isSome_none, Bool.false_eq_true, if_false, bind_some]
      exact .inr ⟨hsame, t, hc.self_mem ht, .inl hchain, rfl⟩
    | cons x l =>
      have hdup : st.tree.leafDup t = some x := hlink.1
      have hlong : 1 < (chain t).length := by
        rw [hchain, length_cons, length_cons]
        omega
      obtain ⟨l1, l2, hsplit, h1, h2, hwalk⟩ := walk_spec
        (fun e => decide (st.tree.leafMask e = mask)) (hc.linked ht)
        (Nat.lt_succ_of_le (hc.length_le ht)) none
      simp only [hdup, isSome_none, Bool.false_eq_true, if_false, hmask,
        bind_some, hwalk]
      cases l2 with
      | nil =>
        rw [append_nil] at hsplit
        refine .inl ⟨rfl, fun _ => ⟨hlong, fun e he => ?_⟩⟩
        rw [hsplit] at he
        exact of_decide_eq_false (h1 e he)
      | cons e l2 =>
        have he : e ∈ chain t := hsplit ▸ mem_append_right _ (mem_cons_self ..)
        exact .inr ⟨hsame, e, he, .inr ⟨hlong, of_decide_eq_true (h2 e rfl)⟩, rfl⟩

theorem rnDelete_spec {st : State} {g : Ghost} {v : Key} {netmask : Option Key}
    (hok : Ok off L st g) (hL : L ≤ maxkeylen) (hlen : vlen v = L) (hsafe : SafeDelete st v) :
    rnDelete st v netmask = some (st, none) ∨
    ∃ e st' g', rnDelete st v netmask = some (st', some e) ∧ Ok off L st' g' ∧
      Deleted st st' g g' e := by
  have hs := hok.shape
  have hhead : headOff st.tree = off := by rw [headOff, hs.top_bit]; omega
  obtain ⟨mask, hmask⟩ := hok.masks.exists_deleteMask netmask
  obtain ⟨t, ht, hfind, ⟨heval, -⟩ | ⟨hsame, e, he, -, heval⟩⟩ :=
    rnDelete_eval hs hok.chains hL hlen hmask
  · exact .inl heval
  rw [heval]
  cases hroot : st.tree.leafRoot e with
  | true => exact .inl (deleteFound_root hok.chains ht he hroot)
  | false =>
    rw [SafeDelete, (hs.rnSearch_iff hL hs.top_mem).mpr hfind] at hsafe
    simp only [hhead, hlen] at hsafe
    refine .inr ⟨e, deleteFound_spec hok hL ht he (fun h1 h2 k h3 => ?_) hroot⟩
    have hsafe := hsafe (firstDiff_eq_none.mpr hsame) h1 h2
    rw [h3] at hsafe
    exact hsafe

end Bsd386.Net.Radix
