import Bsd386.Net.Radix.Notes

/-!
# Radix trees: annotations of a new node

When `rn_addroute` has put a new node between a node and its child, annotations of the child whose
index is not behind the bit of the new node belong to the new node. If the child is a node, the end
of its list is moved up; if it is a leaf, the route of the leaf gets an annotation. Only the first
route of the leaf's chain is looked at, so `promote_new` asks that no other needs one.
-/

namespace Bsd386.Net.Radix

open Function List Lib.Linked

variable {off L : ℕ} {h g masks : Heap} {mlive live : Set Ptr} {pre : ℕ → Key}
  {list list' : ℕ → List ℕ} {E : Set ℕ} {v : Key} {b p j k : ℕ} {x : Ptr}

/-! ## The memory after the splice -/

/-- The memory `g` differs from the one after a splice only in annotations, and in the new leaf. -/
structure Spliced (h g : Heap) (v : Key) (b p : ℕ) (x : Ptr) : Prop where
  nodeB : g.nodeB = update h.nodeB h.fresh b
  nodeP (i : ℕ) : g.nodeP i = parent (spliced h v b p x) (.node i)
  leafKey (e : ℕ) : e ≠ h.fresh → g.leafKey e = h.leafKey e
  leafMask (e : ℕ) : e ≠ h.fresh → g.leafMask e = h.leafMask e
  leafB (e : ℕ) : e ≠ h.fresh → g.leafB e = h.leafB e
  rmB : g.rmB = h.rmB
  rmMask : g.rmMask = h.rmMask
  rmRefs : g.rmRefs = h.rmRefs
  mfresh : g.mfresh = h.mfresh

theorem Gap.finds (hgap : Gap off L h live pre v b p x) (hs : Shape off L h live pre)
    (hj : .leaf j ∈ live) (hv : Agree off b v (h.leafKey j)) : Finds h (h.leafKey j) x j := by
  have hup : Under off h pre p (h.leafKey j) :=
    hgap.under.trans (hv.mono (Nat.le_of_lt hgap.parent_lt))
  obtain ⟨hc⟩ | ⟨hc⟩ := hs.finds_of_under hgap.mem hj hup fun _ _ _ => rfl
  rwa [childOf_eq, ← hv _ (hs.top_le hgap.mem) hgap.parent_lt, hgap.child_eq] at hc

/-- **The lists after a splice**, if those of the new node and of its child have been set right. -/
theorem Lists.splice (hl : Lists h masks mlive live list) (hs : Shape off L h live pre)
    (hn : .node h.fresh ∉ live) (hgap : Gap off L h live pre v b p x)
    (hg : Spliced h g v b p x)
    (hlink : ∀ i, .node i ∈ addPair live h.fresh → Linked g.rmNext (g.nodeMk i) (list' i))
    (hsub : ∀ i, .node i ∈ live → (list' i).Sublist (list i))
    (hnew : ∀ m ∈ list' h.fresh, ∃ i, x = .node i ∧ m ∈ list i ∧ m ∉ list' i ∧ -1 - (b : ℤ) ≤ h.rmB m)
    (hkept : ∀ i, x = .node i → ∀ m ∈ list' i, h.rmB m < -1 - (b : ℤ))
    (hsort : (list' h.fresh).Pairwise fun a b => h.rmB a ≤ h.rmB b) :
    Lists g masks mlive (addPair live h.fresh) list' := by
  have hnode : ∀ {i}, .node i ∈ live → i ≠ h.fresh := fun hi heq => hn (heq ▸ hi)
  have hcases : ∀ {i}, .node i ∈ addPair live h.fresh → i = h.fresh ∨ .node i ∈ live := by
    rintro i (hi | hi | hi)
    · exact absurd hi nofun
    · exact .inl (Ptr.node.inj hi)
    · exact .inr hi
  have hxl : x ∈ live := hgap.child_eq ▸ hs.child_mem hgap.mem _
  have hxp : parent h x = p := hgap.child_eq ▸ hs.child_parent hgap.mem _
  have hbit : ∀ {i}, .node i ∈ live → g.nodeB i = h.nodeB i := fun hi => by
    rw [hg.nodeB, update_of_ne (hnode hi)]
  have hbit' : g.nodeB h.fresh = b := by rw [hg.nodeB, update_self]
  constructor
  · exact fun hi => hlink _ hi
  · intro i j m hi hj hmi hmj
    -- an annotation of the new node came from the child
    rcases hcases hi with rfl | hi'
    · rcases hcases hj with rfl | hj'
      · rfl
      · obtain ⟨k, rfl, h1, h2, -⟩ := hnew m hmi
        obtain rfl := hl.disjoint hxl hj' h1 ((hsub j hj').subset hmj)
        exact absurd hmj h2
    rcases hcases hj with rfl | hj'
    · obtain ⟨k, rfl, h1, h2, -⟩ := hnew m hmj
      obtain rfl := hl.disjoint hxl hi' h1 ((hsub i hi').subset hmi)
      exact absurd hmi h2
    · exact hl.disjoint hi' hj' ((hsub i hi').subset hmi) ((hsub j hj').subset hmj)
  · intro i m hi hm
    rw [hg.mfresh]
    rcases hcases hi with rfl | hi'
    · obtain ⟨k, rfl, h1, -, -⟩ := hnew m hm
      exact hl.lt hxl h1
    · exact hl.lt hi' ((hsub i hi').subset hm)
  · intro i m hi hm
    rw [hg.rmB]
    rcases hcases hi with rfl | hi'
    · obtain ⟨-, -, -, -, h1⟩ := hnew m hm
      rw [hbit']
      exact h1
    · rw [hbit hi']
      exact hl.low hi' ((hsub i hi').subset hm)
  · intro i m hi h0 hm
    rw [hg.rmB, hg.nodeP, parent_spliced]
    rcases hcases hi with rfl | hi'
    · rw [if_pos rfl, hbit hgap.mem]
      obtain ⟨k, rfl, h1, -, -⟩ := hnew m hm
      have hk0 : k ≠ 0 := by
        rintro rfl
        have := hgap.lt_child 0 rfl
        have := hgap.parent_lt
        have := hs.top_le hgap.mem
        rw [hs.top_bit] at *
        omega
      exact hxp ▸ hl.high hxl hk0 h1
    · have hmi := (hsub i hi').subset hm
      rw [if_neg fun h => hnode hi' (Ptr.node.inj h)]
      by_cases hix : Ptr.node i = x
      · rw [if_pos hix, hbit']
        exact hkept i hix.symm m hm
      rw [if_neg hix, if_neg nofun]
      have hp : h.nodeB (parent h (.node i)) = g.nodeB (parent h (.node i)) :=
        (hbit (hs.parent_mem hi')).symm
      rw [← hp]
      exact hl.high hi' h0 hmi
  · intro i hi
    rw [hg.rmB]
    rcases hcases hi with rfl | hi'
    · exact hsort
    · exact (hl.sorted hi').sublist (hsub i hi')
  · intro i m hi hm
    rw [hg.rmB, hg.rmMask]
    rcases hcases hi with rfl | hi'
    · obtain ⟨k, rfl, h1, -, -⟩ := hnew m hm
      exact hl.mask hxl h1
    · exact hl.mask hi' ((hsub i hi').subset hm)

theorem Notes.splice {E' : Set ℕ} (hnotes : Notes off h masks mlive live pre list E)
    (hs : Shape off L h live pre) (hn : .node h.fresh ∉ live)
    (hgap : Gap off L h live pre v b p x) (hg : Spliced h g v b p x) (hE : E' ⊆ E) (hfresh : h.fresh ∉ E)
    (hmk : ∀ e ∈ E, g.leafMk e = h.leafMk e)
    (hfree : ∀ e ∈ E, e ∉ E' → h.leafMk e = none)
    (hsub : ∀ i, .node i ∈ live → list' i ⊆ list i)
    (hnew : ∀ m ∈ list' h.fresh, ∃ i, x = .node i ∧ m ∈ list i)
    (hmoved : ∀ i m, .node i ∈ live → m ∈ list i → m ∈ list' i ∨ x = .node i ∧ m ∈ list' h.fresh)
    (hfar : ∀ e ∈ E', ∀ M, h.leafMk e = none → h.leafMask e = some M →
      Agree off b v (h.leafKey e) → masks.leafB M < -1 - (b : ℤ)) :
    Notes off g masks mlive (addPair live h.fresh) (update pre h.fresh v) list' E' := by
  have hnode : ∀ {i}, .node i ∈ live → i ≠ h.fresh := fun hi heq => hn (heq ▸ hi)
  have hne : ∀ {e}, e ∈ E' → e ≠ h.fresh := fun he heq => hfresh (heq ▸ hE he)
  have hxl : x ∈ live := hgap.child_eq ▸ hs.child_mem hgap.mem _
  have hunder : ∀ {i k}, .node i ∈ live →
      (Under off g (update pre h.fresh v) i k ↔ Under off h pre i k) := fun hi => by
    rw [Under, Under, hg.nodeB, update_of_ne (hnode hi), update_of_ne (hnode hi)]
  have hunder' : ∀ {k}, Under off g (update pre h.fresh v) h.fresh k ↔ Agree off b v k := by
    intro k
    rw [Under, hg.nodeB, update_self, update_self]
  constructor
  · intro e M he h1
    rw [hg.leafMask e (hne he)] at h1
    rw [hg.leafB e (hne he)]
    exact hnotes.mask (hE he) h1
  · intro e m he h1
    rw [hmk e (hE he)] at h1
    obtain ⟨i, a1, a2, a3, a4⟩ := hnotes.noted (hE he) h1
    rw [hg.leafMask e (hne he), hg.leafKey e (hne he), hg.rmMask]
    rcases hmoved i m a1 a3 with hm | ⟨hxi, hm⟩
    · exact ⟨i, .inr (.inr a1), (hunder a1).mpr a2, hm, a4⟩
    -- what is below the child is below the new node
    refine ⟨h.fresh, .inr (.inl rfl), hunder'.mpr ?_, hm, a4⟩
    have hagree := hgap.agree
    subst hxi
    exact hagree.trans (a2.mono (Nat.le_of_lt (hgap.lt_child i rfl)))
  · intro e M i he h1 h2 h3 h4
    rw [hmk e (hE he)] at h1
    rw [hg.leafMask e (hne he)] at h2
    rw [hg.leafKey e (hne he)] at h4
    rcases h3 with h3 | h3 | h3
    · cases h3
    · obtain rfl := Ptr.node.inj h3
      rw [hg.nodeB, update_self]
      exact hfar e he M h1 h2 (hunder'.mp h4)
    · rw [hg.nodeB, update_of_ne (hnode h3)]
      exact hnotes.unnoted (hE he) h1 h2 h3 ((hunder h3).mp h4)
  · intro i m hi hm
    have hold : ∃ i, .node i ∈ live ∧ m ∈ list i := by
      rcases hi with hi | hi | hi
      · cases hi
      · obtain rfl := Ptr.node.inj hi
        obtain ⟨k, rfl, hk⟩ := hnew m hm
        exact ⟨k, hxl, hk⟩
      · exact ⟨i, hi, hsub i hi hm⟩
    obtain ⟨k, hk, hmk'⟩ := hold
    obtain ⟨u, hu, hcard⟩ := hnotes.refs hk hmk'
    refine ⟨u, fun e => ?_, by rw [hg.rmRefs]; exact hcard⟩
    rw [hu e]
    constructor
    · rintro ⟨he, h1⟩
      have he' : e ∈ E' := by
        by_contra hnot
        rw [hfree e he hnot] at h1
        cases h1
      exact ⟨he', by rw [hmk e he]; exact h1⟩
    · rintro ⟨he, h1⟩
      exact ⟨hE he, by rw [← hmk e (hE he)]; exact h1⟩

/-! ## Promoting -/

section promote

variable (hs : Shape off L h live pre) (hl : Lists h masks mlive live list)
  (hnotes : Notes off h masks mlive live pre list E) (hn : .node h.fresh ∉ live)
  (hgap : Gap off L h live pre v b p x) (hfresh : h.fresh ∉ E)
  (hg : Spliced h g v b p x) (hnext : g.rmNext = h.rmNext)
  (hmk : g.nodeMk = update h.nodeMk h.fresh none)
  (hleaf : ∀ e, e ≠ h.fresh → g.leafMk e = h.leafMk e)

include hs hl hnotes hn hgap hfresh hg hnext hmk hleaf

theorem promote_node {i : ℕ} (hx : x = .node i)
    (hfar : ∀ e ∈ E, ∀ M, h.leafMk e = none → h.leafMask e = some M →
      Agree off b v (h.leafKey e) → masks.leafB M < -1 - (b : ℤ)) :
    ∃ g' list', promote g h.fresh x = some g' ∧ Keeps g g' ∧ g'.leafMk = g.leafMk ∧
      Lists g' masks mlive (addPair live h.fresh) list' ∧
      Notes off g' masks mlive (addPair live h.fresh) (update pre h.fresh v) list' E := by
  have hi : .node i ∈ live := hx ▸ hgap.child_eq ▸ hs.child_mem hgap.mem _
  have hnode : ∀ {i}, .node i ∈ live → i ≠ h.fresh := fun hi heq => hn (heq ▸ hi)
  have hbit : g.nodeB h.fresh = b := by rw [hg.nodeB, update_self]
  have hgi : ∀ {i}, .node i ∈ live → g.nodeMk i = h.nodeMk i := fun hi => by
    rw [hmk, update_of_ne (hnode hi)]
  have hlen := (hl.linked hi).length_le fun m hm => hl.lt hi hm
  obtain ⟨l1, l2, hlist, h1, h2, hwalk⟩ := walk_spec
    (fun m => decide (-1 - (b : ℤ) ≤ h.rmB m)) (hl.linked hi) (Nat.lt_succ_of_le hlen) none
  rw [Option.or_none] at hwalk
  have hle1 : ∀ a ∈ l1, h.rmB a < -1 - (b : ℤ) := fun a ha => by
    have := of_decide_eq_false (h1 a ha)
    omega
  have hle2 := hl.le_of_head hi hlist fun a ha => of_decide_eq_true (h2 a ha)
  have hnd := (hl.linked hi).nodup
  rw [hlist] at hnd
  -- the memory the function leaves, and its lists
  obtain ⟨g', hg'⟩ : ∃ g', storeMk { g with nodeMk := update g.nodeMk h.fresh l2.head? } i
      l1.getLast? none = g' := ⟨_, rfl⟩
  obtain ⟨list', hlist'⟩ : ∃ l, update (update list h.fresh l2) i l1 = l :=
    ⟨_, rfl⟩
  have hkeep : Keeps g g' := by
    rw [← hg']
    have hmk : Keeps g { g with nodeMk := update g.nodeMk h.fresh l2.head? } :=
      ⟨rfl, rfl, rfl, rfl, rfl, rfl, rfl, rfl, rfl, rfl, rfl⟩
    exact hmk.trans (keeps_storeMk _ _ _ _)
  obtain ⟨r1, r2, r3, r4, r5⟩ := storeMk_rest
    { g with nodeMk := update g.nodeMk h.fresh l2.head? } i l1.getLast? none
  rw [hg'] at r1 r2 r3 r4 r5
  have hnext' : g'.rmNext = relinkNext l1.getLast? h.rmNext none := by
    rw [← hnext, ← hg', rmNext_storeMk]
  have hmk' : g'.nodeMk = update (update g.nodeMk h.fresh l2.head?) i
      (relinkHead l1.getLast? (update g.nodeMk h.fresh l2.head? i) none) := by
    rw [← hg', nodeMk_storeMk]
  have hspl : Spliced h g' v b p x := by
    constructor
    · rw [hkeep.nodeB]; exact hg.nodeB
    · rw [hkeep.nodeP]; exact hg.nodeP
    · rw [hkeep.leafKey]; exact hg.leafKey
    · rw [hkeep.leafMask]; exact hg.leafMask
    · rw [hkeep.leafB]; exact hg.leafB
    · exact r1.trans hg.rmB
    · exact r2.trans hg.rmMask
    · exact r3.trans hg.rmRefs
    · exact r4.trans hg.mfresh
  have hli : list' i = l1 := by rw [← hlist', update_self]
  have hlf : list' h.fresh = l2 := by
    rw [← hlist', update_of_ne (hnode hi).symm, update_self]
  have hlj : ∀ {j}, .node j ∈ live → j ≠ i → list' j = list j := fun hj hji => by
    rw [← hlist', update_of_ne hji, update_of_ne (hnode hj)]
  have hsub : ∀ j, .node j ∈ live → (list' j).Sublist (list j) := by
    intro j hj
    by_cases hji : j = i
    · rw [hji, hli, hlist]
      exact sublist_append_left l1 l2
    · rw [hlj hj hji]
  refine ⟨g', list', ?_, hkeep, r5, ?_, ?_⟩
  · -- an empty list is left alone, and that is the same
    subst hx
    unfold promote
    cases hm : g.nodeMk i with
    | none =>
      have hnil : list i = [] := by
        have := hl.linked hi
        rw [← hgi hi, hm] at this
        have hend : Linked h.rmNext none [] := rfl
        exact this.unique hend
      obtain ⟨rfl, rfl⟩ := append_eq_nil_iff.mp (hlist.symm.trans hnil)
      simp only [hm, ← hg', getLast?_nil, head?_nil, storeMk]
      have h1 : update g.nodeMk h.fresh none = g.nodeMk := by
        rw [hmk, update_idem]
      have h2 : update g.nodeMk i none = g.nodeMk := by
        rw [← hm, update_eq_self]
      rw [h1, h2]
    | some m0 =>
      rw [← hgi hi, hm, ← hnext, ← hg.rmB, ← hg.mfresh, ← hbit] at hwalk
      simp only [hm, hwalk, Option.bind_eq_bind, Option.bind_some]
      exact congrArg some hg'
  · refine hl.splice hs hn hgap hspl ?_ hsub ?_ ?_ ?_
    · intro j hj
      rw [hnext', hmk']
      by_cases hjf : j = h.fresh
      · rw [hjf, hlf, update_of_ne (hnode hi).symm, update_self]
        have hl2 := hl.linked hi
        rw [hlist] at hl2
        obtain ⟨q, hq⟩ := hl2.append_right
        refine (hq.head_eq ▸ hq).congr fun m hm => relinkNext_of_notMem fun hm' => ?_
        exact (nodup_append.mp hnd).2.2 m hm' m hm rfl
      · have hjl : .node j ∈ live := by
          rcases hj with hj | hj | hj
          · exact absurd hj nofun
          · exact absurd (Ptr.node.inj hj) hjf
          · exact hj
        have hend : Linked h.rmNext none [] := rfl
        have hstore := Linked.store hlist (hl.linked hi) hend
          (fun _ _ => not_mem_nil) (hl.linked hjl) fun hji m hm hm' =>
            hji (hl.disjoint hjl hi hm (hlist ▸ mem_append_left _ hm'))
        rw [append_nil] at hstore
        rw [update_of_ne (hnode hi), hgi hi]
        by_cases hji : j = i
        · subst hji
          rw [update_self, update_self] at hstore
          rw [update_self, hli]
          exact hstore
        · rw [update_of_ne hji, update_of_ne hji] at hstore
          rw [update_of_ne hji, update_of_ne hjf, hgi hjl, hlj hjl hji]
          exact hstore
    · intro m hm
      rw [hlf] at hm
      refine ⟨i, hx, hlist ▸ mem_append_right _ hm, ?_, hle2 m hm⟩
      rw [hli]
      exact fun hm' => (nodup_append.mp hnd).2.2 m hm' m hm rfl
    · intro j hj m hm
      obtain rfl := Ptr.node.inj (hx.symm.trans hj)
      rw [hli] at hm
      exact hle1 m hm
    · rw [hlf]
      have hs2 := hl.sorted hi
      rw [hlist] at hs2
      exact (pairwise_append.mp hs2).2.1
  · refine hnotes.splice hs hn hgap hspl subset_rfl hfresh ?_ (fun e he hne => absurd he hne)
      (fun j hj => (hsub j hj).subset) ?_ ?_ hfar
    · intro e he
      rw [r5]
      exact hleaf e fun heq => hfresh (heq ▸ he)
    · intro m hm
      rw [hlf] at hm
      exact ⟨i, hx, hlist ▸ mem_append_right _ hm⟩
    · intro j m hj hm
      by_cases hji : j = i
      · subst hji
        rw [hlist] at hm
        rw [hli, hlf]
        exact (mem_append.mp hm).imp id fun hm => ⟨hx, hm⟩
      · rw [hlj hj hji]
        exact .inl hm

theorem promote_leaf (hx : x = .leaf k) (hk : k ∈ E)
    (hfar : ∀ e ∈ E, e ≠ k → ∀ M, h.leafMk e = none → h.leafMask e = some M →
      Agree off b v (h.leafKey e) → masks.leafB M < -1 - (b : ℤ)) :
    ∃ g' list', promote g h.fresh x = some g' ∧ Keeps g g' ∧
      g'.leafMk h.fresh = g.leafMk h.fresh ∧
      Lists g' masks mlive (addPair live h.fresh) list' ∧
      Notes off g' masks mlive (addPair live h.fresh) (update pre h.fresh v) list' E := by
  have hkne : k ≠ h.fresh := fun heq => hfresh (heq ▸ hk)
  have hnode : ∀ {i}, .node i ∈ live → i ≠ h.fresh := fun hi heq => hn (heq ▸ hi)
  have hbit : g.nodeB h.fresh = b := by rw [hg.nodeB, update_self]
  have hkey : Agree off b v (h.leafKey k) := by
    have := hgap.agree
    rwa [hx] at this
  have hmkE : ∀ e ∈ E, g.leafMk e = h.leafMk e := fun e he => hleaf e fun heq => hfresh (heq ▸ he)
  -- the new node has no list yet
  obtain ⟨list', hlist'⟩ : ∃ l, update list h.fresh [] = l := ⟨_, rfl⟩
  have hlf : list' h.fresh = [] := by rw [← hlist', update_self]
  have hlj : ∀ {j}, .node j ∈ live → list' j = list j := fun hj => by
    rw [← hlist', update_of_ne (hnode hj)]
  have hl' : Lists g masks mlive (addPair live h.fresh) list' := by
    refine hl.splice hs hn hgap hg ?_ (fun j hj => by rw [hlj hj]) ?_ ?_ ?_
    · intro j hj
      rw [hnext, hmk]
      rcases hj with hj | hj | hj
      · exact absurd hj nofun
      · obtain rfl := Ptr.node.inj hj
        rw [hlf, update_self]
        rfl
      · rw [hlj hj, update_of_ne (hnode hj)]
        exact hl.linked hj
    · intro m hm
      rw [hlf] at hm
      exact absurd hm not_mem_nil
    · intro i hi
      exact absurd (hx.symm.trans hi) nofun
    · rw [hlf]
      exact List.Pairwise.nil
  have hnotes' : ∀ E', E' ⊆ E → (∀ e ∈ E, e ∉ E' → h.leafMk e = none) →
      (k ∈ E' → ∀ M, h.leafMk k = none → h.leafMask k = some M → masks.leafB M < -1 - (b : ℤ)) →
      Notes off g masks mlive (addPair live h.fresh) (update pre h.fresh v) list' E' := by
    intro E' hE hfree hfark
    refine hnotes.splice hs hn hgap hg hE hfresh hmkE hfree (fun j hj m hm => hlj hj ▸ hm) ?_ ?_ ?_
    · intro m hm
      rw [hlf] at hm
      exact absurd hm not_mem_nil
    · intro j m hj hm
      rw [hlj hj]
      exact .inl hm
    · intro e he M h1 h2 h3
      by_cases hek : e = k
      · subst hek
        exact hfark he M h1 h2
      · exact hfar e (hE he) hek M h1 h2 h3
  subst hx
  unfold promote
  simp only [hbit]
  cases hmask : g.leafMask k with
  | none =>
    refine ⟨g, list', rfl, .refl g, rfl, hl', hnotes' E subset_rfl (fun e he hne => absurd he hne) ?_⟩
    intro _ M _ h2
    rw [hg.leafMask k hkne, h2] at hmask
    exact absurd hmask nofun
  | some M =>
    have hmask' := hmask
    rw [hg.leafMask k hkne] at hmask'
    obtain ⟨hM, hB⟩ := hnotes.mask hk hmask'
    have hBg : g.leafB k = masks.leafB M := by rw [hg.leafB k hkne, hB]
    by_cases hcond : -1 - (b : ℤ) ≤ g.leafB k ∧ g.leafMk k = none
    · have hmkk : h.leafMk k = none := by rw [← hmkE k hk]; exact hcond.2
      have hn' := hnotes' (E \ {k}) Set.sdiff_subset
        (fun e he hne => by
          obtain rfl : e = k := by
            by_contra hek
            exact hne ⟨he, hek⟩
          exact hmkk)
        (fun hk' => absurd rfl hk'.2)
      have hp : g.nodeP h.fresh = p := by rw [hg.nodeP, parent_spliced, if_pos rfl]
      have hunder : Under off g (update pre h.fresh v) h.fresh (g.leafKey k) := by
        rw [Under, hbit, update_self, hg.leafKey k hkne]
        exact hkey
      have hlow : -1 - (g.nodeB h.fresh : ℤ) ≤ masks.leafB M := by
        rw [hbit, ← hBg]
        exact hcond.1
      have hhigh : h.fresh ≠ 0 → masks.leafB M < -1 - (g.nodeB (g.nodeP h.fresh) : ℤ) := by
        intro _
        rw [hp, hg.nodeB, update_of_ne (hnode hgap.mem)]
        refine hnotes.unnoted hk hmkk hmask' hgap.mem ?_
        exact hgap.under.trans (hkey.mono (Nat.le_of_lt hgap.parent_lt))
      obtain ⟨k1, k2, k3⟩ := note_new hl' hn'
        (fun hk' => hk'.2 rfl) (.inr (.inl rfl)) (hlf.trans (append_nil []).symm) hunder hM hmask
        hBg (fun a ha => absurd ha not_mem_nil) (fun a ha => absurd ha not_mem_nil) hlow
        hhigh rfl
      refine ⟨noteNew g h.fresh k M none none, _, if_pos hcond, k1, ?_, k2, ?_⟩
      · exact update_of_ne hkne.symm _ _
      · rwa [Set.insert_sdiff_self_of_mem hk] at k3
    · refine ⟨g, list', if_neg hcond, .refl g, rfl, hl',
        hnotes' E subset_rfl (fun e he hne => absurd he hne) ?_⟩
      intro _ M' h1 h2
      obtain rfl := Option.some.inj (hmask'.symm.trans h2)
      rw [← hBg]
      by_contra hge
      exact hcond ⟨by omega, by rw [hmkE k hk]; exact h1⟩

end promote

end Bsd386.Net.Radix
