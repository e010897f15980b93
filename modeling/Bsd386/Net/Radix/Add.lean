import Bsd386.Net.Radix.Invariant

/-!
# Radix trees: adding a route

`rnAddroute_spec`: a safe call of `rn_addroute` keeps the invariant. It returns nothing, and changes
nothing but the netmasks, if the route is there; else there is one route more (`Added`), at the end
of the chain of its key.
-/

namespace Bsd386.Net.Radix

open Function List Lib.Linked Option

variable {off L : ℕ} {h masks : Heap} {mlive live : Set Ptr} {pre : ℕ → Key}
  {chain list : ℕ → List ℕ} {E : Set ℕ} {v : Key} {b p j k t tt : ℕ} {x : Ptr} {st : State}
  {g : Ghost}
  {h' h₁ masks' : Heap} {mask : Option ℕ} {mpre : ℕ → Key} {netmask : Option Key}

/-! ## The other child -/

theorem Shape.sibling_eq (hs : Shape off L h live pre) (hj : .leaf j ∈ live) :
    ∃ s, child h (h.leafP j) s = .leaf j ∧ sibling h (h.leafP j) j = child h (h.leafP j) (!s) := by
  have ht := hs.leafP_mem hj
  obtain ⟨s, hs'⟩ := hs.up_child hj nofun
  refine ⟨s, hs', ?_⟩
  have hother : child h (h.leafP j) (!s) ≠ .leaf j := by
    intro heq
    have h₁ := hs.child_bit ht s
    have h2 := hs.child_bit ht (!s)
    rw [heq] at h2
    rw [show child h (h.leafP j) s = .leaf j from hs'] at h₁
    rw [h₁] at h2
    cases s <;> exact absurd h2 (by decide)
  cases s with
  | true => exact if_pos hs'
  | false => exact if_neg hother

/-! ## A known key -/

theorem storeMk_getLast {i : ℕ} {l : List ℕ} (hl : Linked h.rmNext (h.nodeMk i) l) :
    storeMk h i l.getLast? none = h := by
  rcases eq_nil_or_concat l with rfl | ⟨l', m, rfl⟩
  · have hnone : h.nodeMk i = none := hl
    show { h with nodeMk := update h.nodeMk i none } = h
    rw [← hnone, update_eq_self]
  rw [concat_eq_append] at hl ⊢
  have hlast : h.rmNext m = none := hl.next_eq
  rw [getLast?_append_cons]
  show { h with rmNext := update h.rmNext m none } = h
  rw [← hlast, update_eq_self]

theorem promote_old (hs : Shape off L h live pre) (hl : Lists h masks mlive live list)
    (hn : Notes off h masks mlive live pre list E) (hE : ∀ k, .leaf k ∈ live → k ∈ E)
    (hj : .leaf j ∈ live) (hsafe : ¬ LosesList h j) :
    promote h (h.leafP j) (sibling h (h.leafP j) j) = some h := by
  have ht := hs.leafP_mem hj
  obtain ⟨s, -, hsib⟩ := hs.sibling_eq hj
  have hmem := hs.child_mem ht (!s)
  have hpar := hs.child_parent ht (!s)
  have hund := hs.child_under ht (!s)
  rw [LosesList] at hsafe
  rw [← hsib] at hmem hpar hund
  unfold promote
  cases hx : sibling h (h.leafP j) j with
  | leaf k =>
    rw [hx] at hmem hund
    simp only []
    cases hmask : h.leafMask k with
    | none => rfl
    | some M =>
      refine if_neg ?_
      rintro ⟨h₁, h2⟩
      have hfar := hn.unnoted (hE k hmem) h2 hmask ht hund
      rw [(hn.mask (hE k hmem) hmask).2] at h₁
      omega
  | node i =>
    rw [hx] at hmem hpar hsafe
    simp only []
    cases hmk : h.nodeMk i with
    | none => rfl
    | some m0 =>
      have hi0 : i ≠ 0 := by
        rintro rfl
        have h₁ := hs.child_lt ht (!s) 0 (hsib.symm.trans hx)
        have h2 := hs.top_le ht
        rw [hs.top_bit] at h₁
        omega
      have hpar' : h.nodeP i = h.leafP j := hpar
      have hlen := (hl.linked hmem).length_le fun m hm => hl.lt hmem hm
      obtain ⟨l1, l2, hlist, -, h2, hwalk⟩ := walk_spec
        (fun m => decide (-1 - (h.nodeB (h.leafP j) : ℤ) ≤ h.rmB m)) (hl.linked hmem)
        (Nat.lt_succ_of_le hlen) none
      -- every index of the sibling is behind the bit of the parent
      have hnil : l2 = [] := by
        cases l2 with
        | nil => rfl
        | cons m l2 =>
          have h₁ := of_decide_eq_true (h2 m rfl)
          have h3 := hl.high hmem hi0 (m := m) (hlist ▸ mem_append_right _
            (mem_cons_self ..))
          rw [hpar'] at h3
          omega
      subst hnil
      rw [append_nil] at hlist
      rw [or_none, hmk] at hwalk
      have hnone : h.nodeMk (h.leafP j) = none := by
        by_contra hne
        exact hsafe ⟨by rw [hmk]; exact nofun, hne⟩
      have hsame : update h.nodeMk (h.leafP j) none = h.nodeMk := by
        rw [← hnone, update_eq_self]
      simp only [hwalk, bind_eq_bind, bind_some, head?_nil, hsame]
      rw [← hlist]
      exact congrArg some (storeMk_getLast (hl.linked hmem))

/-! ## The new leaf -/

/-- The memory with the new leaf: nothing else that belongs to leaves or annotations has changed. -/
structure WithLeaf (h h₁ masks : Heap) (v : Key) (mask : Option ℕ) : Prop where
  old {e : ℕ} : e ≠ h.fresh → h₁.leafKey e = h.leafKey e ∧ h₁.leafMask e = h.leafMask e ∧
    h₁.leafB e = h.leafB e ∧ h₁.leafMk e = h.leafMk e ∧ h₁.leafRoot e = h.leafRoot e
  leafKey : h₁.leafKey h.fresh = v
  leafMask : h₁.leafMask h.fresh = mask
  leafB (M : ℕ) : mask = some M → h₁.leafB h.fresh = masks.leafB M
  leafMk : h₁.leafMk h.fresh = none
  leafRoot : h₁.leafRoot h.fresh = false
  rmB : h₁.rmB = h.rmB
  rmMask : h₁.rmMask = h.rmMask
  rmRefs : h₁.rmRefs = h.rmRefs
  rmNext : h₁.rmNext = h.rmNext
  mfresh : h₁.mfresh = h.mfresh
  fresh : h₁.fresh = h.fresh + 1

theorem withLeaf_setMask {h0 : Heap} (hkey : h0.leafKey = update h.leafKey h.fresh v)
    (hdata : ∃ d, h0.data = { (newLeaf h v h.fresh).data with leafDup := d, nodeMk := h0.nodeMk })
    (masks : Heap) (mask : Option ℕ) : WithLeaf h (setMask h0 masks h.fresh mask) masks v mask := by
  obtain ⟨d, hd⟩ := hdata
  have hB : h0.leafB = update h.leafB h.fresh (-1) := congrArg Data.leafB hd
  have hRoot : h0.leafRoot = update h.leafRoot h.fresh false := congrArg Data.leafRoot hd
  have hMask : h0.leafMask = update h.leafMask h.fresh none := congrArg Data.leafMask hd
  have hMk : h0.leafMk = update h.leafMk h.fresh none := congrArg Data.leafMk hd
  have hrest : (setMask h0 masks h.fresh mask).leafKey = h0.leafKey ∧
      (setMask h0 masks h.fresh mask).leafMk = h0.leafMk ∧
      (setMask h0 masks h.fresh mask).leafRoot = h0.leafRoot ∧
      (setMask h0 masks h.fresh mask).rmB = h0.rmB ∧
      (setMask h0 masks h.fresh mask).rmMask = h0.rmMask ∧
      (setMask h0 masks h.fresh mask).rmRefs = h0.rmRefs ∧
      (setMask h0 masks h.fresh mask).rmNext = h0.rmNext ∧
      (setMask h0 masks h.fresh mask).mfresh = h0.mfresh ∧
      (setMask h0 masks h.fresh mask).fresh = h0.fresh := by
    cases mask <;> exact ⟨rfl, rfl, rfl, rfl, rfl, rfl, rfl, rfl, rfl⟩
  obtain ⟨r1, r2, r3, r4, r5, r6, r7, r8, r9⟩ := hrest
  constructor
  · intro e he
    rw [r1, r2, r3, hkey, hMk, hRoot, update_of_ne he, update_of_ne he,
      update_of_ne he]
    refine ⟨rfl, ?_, ?_, rfl, rfl⟩
    · cases mask with
      | none => exact (congrFun hMask e).trans (update_of_ne he _ _)
      | some M =>
        refine (update_of_ne he _ _).trans ?_
        exact (congrFun hMask e).trans (update_of_ne he _ _)
    · cases mask with
      | none => exact (congrFun hB e).trans (update_of_ne he _ _)
      | some M =>
        refine (update_of_ne he _ _).trans ?_
        exact (congrFun hB e).trans (update_of_ne he _ _)
  · rw [r1, hkey, update_self]
  · cases mask with
    | none => exact (congrFun hMask _).trans (update_self _ _ _)
    | some M => exact update_self _ _ _
  · rintro M rfl
    exact update_self _ _ _
  · rw [r2, hMk, update_self]
  · rw [r3, hRoot, update_self]
  · exact r4.trans (congrArg Data.rmB hd)
  · exact r5.trans (congrArg Data.rmMask hd)
  · exact r6.trans (congrArg Data.rmRefs hd)
  · exact r7.trans (congrArg Data.rmNext hd)
  · exact r8.trans (congrArg Data.mfresh hd)
  · exact r9.trans (congrArg Data.fresh hd)

theorem setMask_tree (h masks : Heap) (tt : ℕ) (mask : Option ℕ) :
    (setMask h masks tt mask).leafP = h.leafP ∧ (setMask h masks tt mask).leafDup = h.leafDup ∧
      (setMask h masks tt mask).nodeP = h.nodeP ∧ (setMask h masks tt mask).nodeB = h.nodeB ∧
      (setMask h masks tt mask).nodeL = h.nodeL ∧ (setMask h masks tt mask).nodeR = h.nodeR ∧
      (setMask h masks tt mask).nodeMk = h.nodeMk := by
  cases mask <;> exact ⟨rfl, rfl, rfl, rfl, rfl, rfl, rfl⟩

theorem annotate_of_promote {h2 : Heap} (hL : L ≤ maxkeylen)
    (hh1 : h₁ = setMask h masks tt mask)
    (hpro : promote h₁ (h₁.leafP j) (sibling h₁ (h₁.leafP j) j) = some h2) (hkeep : Keeps h₁ h2)
    (hs : Shape off L h₁ live pre) (hl : Lists h2 masks mlive live list)
    (hn : Notes off h2 masks mlive live pre list E) (htt : tt ∉ E) (hj : .leaf j ∈ live)
    (hkey : SameBytes off L (h₁.leafKey tt) (h₁.leafKey j)) (hmask : h₁.leafMask tt = mask)
    (hM : ∀ M, mask = some M → IsMask mlive M ∧ h₁.leafB tt = masks.leafB M)
    (hmk : h2.leafMk tt = none) :
    ∃ h' list', annotate h masks j tt mask = some h' ∧ Keeps h₁ h' ∧
      Lists h' masks mlive live list' ∧ Notes off h' masks mlive live pre list' (insert tt E) := by
  unfold annotate
  simp only [← hh1, hpro, bind_eq_bind, bind_some]
  cases mask with
  | none =>
    refine ⟨h2, list, rfl, hkeep, hl, hn.insert_unnoted hmk ?_ ?_⟩
    · intro M h'
      rw [hkeep.leafMask, hmask] at h'
      exact absurd h' nofun
    · intro M i h'
      rw [hkeep.leafMask, hmask] at h'
      exact absurd h' nofun
  | some M =>
    obtain ⟨hM1, hM2⟩ := hM M rfl
    rw [← hkeep.leafKey] at hkey
    rw [← hkeep.leafMask] at hmask
    rw [← hkeep.leafB] at hM2
    obtain ⟨h', list', a1, a2, a3, a4⟩ := lift_spec (hs.keeps hkeep) hL hl hn htt hj hkey hM1
      hmask hM2 hmk
    refine ⟨h', list', ?_, hkeep.trans a2, a3, a4⟩
    rw [hkeep.leafP] at a1
    exact a1

theorem Chains.keeps (hc : Chains off L h live chain) (hk : Keeps h h') :
    Chains off L h' live chain := by
  constructor
  · rw [hk.leafDup]; exact hc.linked
  · rw [hk.leafKey]; exact hc.key
  · rw [hk.fresh]; exact hc.lt
  · rw [hk.fresh]; exact hc.node_lt
  · rw [hk.leafRoot]; exact hc.root
  · rw [hk.leafMask]; exact hc.root_mask

theorem attachDup_data (h : Heap) (v : Key) (t : ℕ) :
    (attachDup h v t).data =
      { (newLeaf h v h.fresh).data with
        leafDup := update (update h.leafDup h.fresh none) t (some h.fresh)
        nodeMk := (attachDup h v t).nodeMk } := rfl

section dup

variable (hs : Shape off L h live pre) (hc : Chains off L h live chain) (hj : .leaf j ∈ live)

include hs hc hj

theorem Chains.append (hw : WithLeaf h h₁ masks v mask)
    (ht : (chain j).getLast? = some t)
    (hdup : h₁.leafDup = update (update h.leafDup h.fresh none) t (some h.fresh))
    (hv : SameBytes off L v (h.leafKey j)) :
    Chains off L h₁ live (update chain j (chain j ++ [h.fresh])) := by
  have hold : ∀ {k e}, .leaf k ∈ live → e ∈ chain k → e ≠ h.fresh := fun hk he heq =>
    absurd (hc.lt hk he) (by omega)
  have hcases : ∀ {k e}, e ∈ update chain j (chain j ++ [h.fresh]) k →
      k = j ∧ e = h.fresh ∨ e ∈ chain k := by
    intro k e he
    by_cases hkj : k = j
    · subst hkj
      rw [update_self] at he
      rcases mem_append.mp he with he | he
      · exact .inr he
      · exact .inl ⟨rfl, mem_singleton.mp he⟩
    · rw [update_of_ne hkj] at he
      exact .inr he
  have hkeyj : h₁.leafKey j = h.leafKey j := (hw.old (hold hj (hc.self_mem hj))).1
  constructor
  · intro k hk
    have hcongr : ∀ {k}, .leaf k ∈ live →
        Linked (update h.leafDup h.fresh none) (some k) (chain k) := fun hk =>
      (hc.linked hk).congr fun e he => update_of_ne (hold hk he) _ _
    have hnew : Linked (update h.leafDup h.fresh none) (some h.fresh) [h.fresh] :=
      ⟨rfl, update_self _ _ _⟩
    rw [hdup]
    refine Linked.store_self (append_nil _).symm ht (hcongr hj) hnew ?_ (hcongr hk) ?_
    · intro e he he'
      exact hold hj he (mem_singleton.mp he')
    · intro hkj e he he'
      exact hkj (hc.unique hs hk hj he he')
  · intro k e hk he
    rcases hcases he with ⟨rfl, rfl⟩ | he'
    · rw [hw.leafKey, hkeyj]
      exact hv
    · rw [(hw.old (hold hk he')).1, (hw.old (hold hk (hc.self_mem hk))).1]
      exact hc.key hk he'
  · intro k e hk he
    rw [hw.fresh]
    rcases hcases he with ⟨-, rfl⟩ | he'
    · exact Nat.lt_succ_self _
    · exact Nat.lt_succ_of_lt (hc.lt hk he')
  · intro i hi
    rw [hw.fresh]
    exact Nat.lt_succ_of_lt (hc.node_lt hi)
  · intro k e hk he
    rcases hcases he with ⟨-, rfl⟩ | he'
    · have h1 := hc.lt hs.ones_mem (hc.self_mem hs.ones_mem)
      rw [hw.leafRoot]
      constructor
      · exact fun h' => absurd h' nofun
      · intro h'
        omega
    · rw [(hw.old (hold hk he')).2.2.2.2]
      exact hc.root hk he'
  · intro e he
    have hne : e ≠ h.fresh := by
      rcases he with rfl | rfl
      · exact hold hs.zeros_mem (hc.self_mem hs.zeros_mem)
      · exact hold hs.ones_mem (hc.self_mem hs.ones_mem)
    rw [(hw.old hne).2.1]
    exact hc.root_mask he

theorem attachDup_tree (masks : Heap) (mask : Option ℕ) (ht : (chain j).getLast? = some t)
    (hv : SameBytes off L v (h.leafKey j)) :
    WithLeaf h (setMask (attachDup h v t) masks h.fresh mask) masks v mask ∧
      Shape off L (setMask (attachDup h v t) masks h.fresh mask) live pre ∧
      Chains off L (setMask (attachDup h v t) masks h.fresh mask) live
        (update chain j (chain j ++ [h.fresh])) := by
  have hf1 := hc.fresh_notMem.1
  have hw : WithLeaf h (setMask (attachDup h v t) masks h.fresh mask) masks v mask :=
    withLeaf_setMask rfl ⟨_, attachDup_data h v t⟩ masks mask
  obtain ⟨t1, t2, t3, t4, t5, t6, -⟩ := setMask_tree (attachDup h v t) masks h.fresh mask
  have hne : ∀ {k}, .leaf k ∈ live → k ≠ h.fresh := fun hk heq => hf1 (heq ▸ hk)
  refine ⟨hw, hs.congr (fun k hk => ?_) (fun k hk => (hw.old (hne hk)).1) t3 t4 t5 t6,
    hc.append hs hj hw ht t2 hv⟩
  rw [t1]
  exact update_of_ne (hne hk) _ _

theorem annotate_dup (hL : L ≤ maxkeylen) (hl : Lists h masks mlive live list)
    (hn : Notes off h masks mlive live pre list (routes live chain)) (hsafe : ¬ LosesList h j)
    (hM : ∀ M, mask = some M → IsMask mlive M)
    (ht : (chain j).getLast? = some t) (hv : SameBytes off L v (h.leafKey j)) :
    ∃ h' list', annotate (attachDup h v t) masks j h.fresh mask = some h' ∧
      WithLeaf h (setMask (attachDup h v t) masks h.fresh mask) masks v mask ∧
      Keeps (setMask (attachDup h v t) masks h.fresh mask) h' ∧
      Shape off L h' live pre ∧
      Chains off L h' live (update chain j (chain j ++ [h.fresh])) ∧
      Lists h' masks mlive live list' ∧
      Notes off h' masks mlive live pre list' (insert h.fresh (routes live chain)) := by
  obtain ⟨hf1, hf2, hf3⟩ := hc.fresh_notMem
  obtain ⟨hw, hs1, hc1⟩ := attachDup_tree hs hc hj masks mask ht hv
  obtain ⟨h₁, hh1⟩ : ∃ h₁, h₁ = setMask (attachDup h v t) masks h.fresh mask := ⟨_, rfl⟩
  obtain ⟨t1, t2, t3, t4, t5, t6, t7⟩ := setMask_tree (attachDup h v t) masks h.fresh mask
  rw [← hh1] at t1 t2 t3 t4 t5 t6 t7 hw hs1 hc1
  have hne : ∀ {k}, .leaf k ∈ live → k ≠ h.fresh := fun hk heq => hf1 (heq ▸ hk)
  have hP : ∀ k, .leaf k ∈ live → h₁.leafP k = h.leafP k := fun k hk => by
    rw [t1]
    exact update_of_ne (hne hk) _ _
  have hl1 : Lists h₁ masks mlive live list :=
    hl.congr hw.rmNext t7 hw.mfresh hw.rmB hw.rmMask t4 t3
  have hE : ∀ {e}, e ∈ routes live chain → e ≠ h.fresh := fun he heq => hf3 (heq ▸ he)
  have hn1 : Notes off h₁ masks mlive live pre list (routes live chain) :=
    hn.congr (fun e he => (hw.old (hE he)).2.1) (fun e he => (hw.old (hE he)).2.2.1)
      (fun e he => (hw.old (hE he)).1) (fun e he => (hw.old (hE he)).2.2.2.1) t4 hw.rmMask hw.rmRefs
  have hsafe1 : ¬ LosesList h₁ j := by
    have hL' : h₁.nodeL = h.nodeL := t5
    have hR' : h₁.nodeR = h.nodeR := t6
    have hMk' : h₁.nodeMk = h.nodeMk := t7
    rw [LosesList, sibling, hP j hj, hL', hR', hMk']
    exact hsafe
  have hpro := promote_old hs1 hl1 hn1 (fun k hk => hc.mem_routes hk) hj hsafe1
  obtain ⟨h', list', a1, a2, a3, a4⟩ := annotate_of_promote hL hh1 hpro (.refl h₁) hs1 hl1 hn1 hf3 hj
    (by rw [hw.leafKey, (hw.old (hne hj)).1]; exact hv) hw.leafMask
    (fun M hM' => ⟨hM M hM', hw.leafB M hM'⟩) hw.leafMk
  rw [← hh1]
  exact ⟨h', list', a1, hw, a2, hs1.keeps a2, hc1.keeps a2, a3, a4⟩

end dup

/-! ## A new key -/

section new

variable (hs : Shape off L h live pre) (hc : Chains off L h live chain)
  (hgap : Gap off L h live pre v b p x)

include hs hc

theorem Chains.single (hw : WithLeaf h h₁ masks v mask)
    (hdup : h₁.leafDup = update h.leafDup h.fresh none) :
    Chains off L h₁ (addPair live h.fresh) (update chain h.fresh [h.fresh]) := by
  obtain ⟨hf1, hf2, -⟩ := hc.fresh_notMem
  have hold : ∀ {k e}, .leaf k ∈ live → e ∈ chain k → e ≠ h.fresh := fun hk he heq =>
    absurd (hc.lt hk he) (by omega)
  -- a leaf is the new one, or an old one with its old chain
  have hcases : ∀ {k}, .leaf k ∈ addPair live h.fresh →
      k = h.fresh ∧ update chain h.fresh [h.fresh] k = [h.fresh] ∨
      .leaf k ∈ live ∧ update chain h.fresh [h.fresh] k = chain k := by
    rintro k (hk | hk | hk)
    · obtain rfl := Ptr.leaf.inj hk
      exact .inl ⟨rfl, update_self _ _ _⟩
    · exact absurd hk nofun
    · refine .inr ⟨hk, update_of_ne ?_ _ _⟩
      rintro rfl
      exact hf1 hk
  constructor
  · intro k hk
    rw [hdup]
    rcases hcases hk with ⟨rfl, hch⟩ | ⟨hk, hch⟩
    · rw [hch]
      exact ⟨rfl, update_self _ _ _⟩
    · rw [hch]
      exact (hc.linked hk).congr fun e he => update_of_ne (hold hk he) _ _
  · intro k e hk he
    rcases hcases hk with ⟨rfl, hch⟩ | ⟨hk, hch⟩
    · rw [hch] at he
      obtain rfl := mem_singleton.mp he
      exact fun _ _ _ => rfl
    · rw [hch] at he
      rw [(hw.old (hold hk he)).1, (hw.old (hold hk (hc.self_mem hk))).1]
      exact hc.key hk he
  · intro k e hk he
    rw [hw.fresh]
    rcases hcases hk with ⟨rfl, hch⟩ | ⟨hk, hch⟩
    · rw [hch] at he
      rw [mem_singleton.mp he]
      exact Nat.lt_succ_self _
    · rw [hch] at he
      exact Nat.lt_succ_of_lt (hc.lt hk he)
  · intro i hi
    rw [hw.fresh]
    rcases hi with hi | hi | hi
    · exact absurd hi nofun
    · rw [Ptr.node.inj hi]
      exact Nat.lt_succ_self _
    · exact Nat.lt_succ_of_lt (hc.node_lt hi)
  · intro k e hk he
    rcases hcases hk with ⟨rfl, hch⟩ | ⟨hk, hch⟩
    · rw [hch] at he
      obtain rfl := mem_singleton.mp he
      have h1 := hc.lt hs.ones_mem (hc.self_mem hs.ones_mem)
      rw [hw.leafRoot]
      constructor
      · exact fun h' => absurd h' nofun
      · intro h'
        omega
    · rw [hch] at he
      rw [(hw.old (hold hk he)).2.2.2.2]
      exact hc.root hk he
  · intro e he
    have hne : e ≠ h.fresh := by
      rcases he with rfl | rfl
      · exact hold hs.zeros_mem (hc.self_mem hs.zeros_mem)
      · exact hold hs.ones_mem (hc.self_mem hs.ones_mem)
    rw [(hw.old hne).2.1]
    exact hc.root_mask he

include hgap

theorem spliced_tree (masks : Heap) (mask : Option ℕ) :
    WithLeaf h (setMask (spliced h v b p x) masks h.fresh mask) masks v mask ∧
      Shape off L (setMask (spliced h v b p x) masks h.fresh mask) (addPair live h.fresh)
        (update pre h.fresh v) ∧
      Chains off L (setMask (spliced h v b p x) masks h.fresh mask) (addPair live h.fresh)
        (update chain h.fresh [h.fresh]) := by
  obtain ⟨hf1, hf2, -⟩ := hc.fresh_notMem
  have hdata := data_spliced h v b p x
  have hw : WithLeaf h (setMask (spliced h v b p x) masks h.fresh mask) masks v mask := by
    refine withLeaf_setMask (leafKey_spliced h v b p x) ⟨(newLeaf h v h.fresh).leafDup, ?_⟩ masks mask
    rw [hdata, show (spliced h v b p x).nodeMk = update h.nodeMk h.fresh none from
      congrArg Data.nodeMk hdata]
    rfl
  obtain ⟨t1, t2, t3, t4, t5, t6, -⟩ := setMask_tree (spliced h v b p x) masks h.fresh mask
  have hkey : (setMask (spliced h v b p x) masks h.fresh mask).leafKey = (spliced h v b p x).leafKey := by
    cases mask <;> rfl
  exact ⟨hw, (hs.splice hf1 hf2 hgap).frame t1 hkey t3 t4 t5 t6,
    hc.single hs hw (t2.trans (congrArg Data.leafDup hdata))⟩

theorem annotate_new (hL : L ≤ maxkeylen) (hl : Lists h masks mlive live list)
    (hn : Notes off h masks mlive live pre list (routes live chain))
    (hsafe : ∀ k, x = .leaf k → ¬ Stranded h k p b)
    (hM : ∀ M, mask = some M → IsMask mlive M) :
    ∃ h' list', annotate (spliced h v b p x) masks h.fresh h.fresh mask = some h' ∧
      WithLeaf h (setMask (spliced h v b p x) masks h.fresh mask) masks v mask ∧
      Keeps (setMask (spliced h v b p x) masks h.fresh mask) h' ∧
      Shape off L h' (addPair live h.fresh) (update pre h.fresh v) ∧
      Chains off L h' (addPair live h.fresh) (update chain h.fresh [h.fresh]) ∧
      Lists h' masks mlive (addPair live h.fresh) list' ∧
      Notes off h' masks mlive (addPair live h.fresh) (update pre h.fresh v) list'
        (insert h.fresh (routes live chain)) := by
  obtain ⟨hf1, hf2, hf3⟩ := hc.fresh_notMem
  have hxl : x ∈ live := hgap.child_eq ▸ hs.child_mem hgap.mem _
  obtain ⟨h₁, hh1⟩ : ∃ h₁, h₁ = setMask (spliced h v b p x) masks h.fresh mask := ⟨_, rfl⟩
  have hmk0 : (spliced h v b p x).nodeMk = update h.nodeMk h.fresh none :=
    congrArg Data.nodeMk (data_spliced h v b p x)
  obtain ⟨hw, hs1, hc1⟩ := spliced_tree hs hc hgap masks mask
  obtain ⟨t1, t2, t3, t4, t5, t6, t7⟩ := setMask_tree (spliced h v b p x) masks h.fresh mask
  rw [← hh1] at t1 t2 t3 t4 t5 t6 t7 hw hs1 hc1
  have hspl : Spliced h h₁ v b p x := by
    constructor
    · rw [t4, nodeB_spliced]
    · intro i
      rw [t3]
      rfl
    · exact fun e he => (hw.old he).1
    · exact fun e he => (hw.old he).2.1
    · exact fun e he => (hw.old he).2.2.1
    · exact hw.rmB
    · exact hw.rmMask
    · exact hw.rmRefs
    · exact hw.mfresh
  have hleaf : .leaf h.fresh ∈ addPair live h.fresh := .inl rfl
  have hP : h₁.leafP h.fresh = h.fresh := by
    have hp := parent_spliced h v b p x (.leaf h.fresh)
    have hne : Ptr.leaf h.fresh ≠ x := fun heq => hf1 (heq ▸ hxl)
    rw [if_neg (by rintro ⟨⟩), if_neg hne, if_pos rfl] at hp
    rw [t1]
    exact hp
  have hsib : sibling h₁ (h₁.leafP h.fresh) h.fresh = x := by
    obtain ⟨s, hs', hsib⟩ := hs1.sibling_eq hleaf
    have hchild : ∀ s, child h₁ h.fresh s = if s = bitAt v b then .leaf h.fresh else x := by
      intro s
      have := child_spliced h v b p x h.fresh s
      rw [if_pos rfl] at this
      rw [← this, child, child, t5, t6]
    rw [hP, hchild] at hs' hsib
    by_cases hsb : s = bitAt v b
    · rw [hP, hsib, if_neg]
      rw [hsb]
      cases bitAt v b <;> decide
    · rw [if_neg hsb] at hs'
      exact absurd (hs' ▸ hxl) hf1
  -- routes of other leaves that agree with the new key before the new bit
  have hbelow : ∀ e ∈ routes live chain, Agree off b v (h.leafKey e) →
      ∃ j, .leaf j ∈ live ∧ e ∈ chain j ∧ Finds h (h.leafKey j) x j := by
    rintro e ⟨j, hj, he⟩ hag
    refine ⟨j, hj, he, hgap.finds hs hj (hag.trans ?_)⟩
    exact (agree_mul_iff.mpr (hc.key hj he)).mono (Nat.le_of_lt hgap.bit_lt)
  have hpro : ∃ h2 list2, promote h₁ h.fresh x = some h2 ∧ Keeps h₁ h2 ∧
      h2.leafMk h.fresh = h₁.leafMk h.fresh ∧
      Lists h2 masks mlive (addPair live h.fresh) list2 ∧
      Notes off h2 masks mlive (addPair live h.fresh) (update pre h.fresh v) list2
        (routes live chain) := by
    have hmk1 : h₁.nodeMk = update h.nodeMk h.fresh none := t7.trans hmk0
    have hleafMk : ∀ e, e ≠ h.fresh → h₁.leafMk e = h.leafMk e := fun e he => (hw.old he).2.2.2.1
    cases hx : x with
    | node i =>
      rw [← hx]
      obtain ⟨h2, list2, a1, a2, a3, a4, a5⟩ := promote_node hs hl hn hf2 hgap hf3 hspl hw.rmNext
        hmk1 hleafMk hx fun e he M h₁ h2 hag => by
          obtain ⟨j, hj, hej, hfind⟩ := hbelow e he hag
          have hi : .node i ∈ live := hx ▸ hxl
          rw [hx] at hfind
          have hu := (hs.under_iff hi (hc.key hj hej)).mpr (hs.finds_under hi hfind).1
          have hfar := hn.unnoted he h₁ h2 hi hu
          have hlt := hgap.lt_child i hx
          omega
      exact ⟨h2, list2, a1, a2, by rw [a3], a4, a5⟩
    | leaf k =>
      rw [← hx]
      have hk : .leaf k ∈ live := hx ▸ hxl
      refine promote_leaf hs hl hn hf2 hgap hf3 hspl hw.rmNext hmk1 hleafMk hx (hc.mem_routes hk) ?_
      intro e he hek M h₁ h2 hag
      obtain ⟨j, hj, hej, hfind⟩ := hbelow e he hag
      rw [hx] at hfind
      cases hfind
      -- the route is behind the first of the chain
      have htail : e ∈ (chainOf h k).tail := by
        rw [hc.chainOf_eq hk]
        obtain ⟨l, hl, -⟩ := hc.eq_cons hk
        rw [hl] at hej ⊢
        exact (mem_cons.mp hej).resolve_left hek
      have hfar := hn.unnoted he h₁ h2 hgap.mem
        (hgap.under.trans (hag.mono (Nat.le_of_lt hgap.parent_lt)))
      have hB := (hn.mask he h2).2
      by_contra hge
      exact hsafe k hx ⟨e, htail, by rw [h2]; rintro ⟨⟩, by omega, by omega⟩
  obtain ⟨h2, list2, p1, p2, p3, p4, p5⟩ := hpro
  obtain ⟨h', list', a1, a2, a3, a4⟩ := annotate_of_promote hL hh1 (by rw [hsib, hP]; exact p1) p2 hs1
    p4 p5 hf3 hleaf (fun _ _ _ => rfl) hw.leafMask (fun M hM' => ⟨hM M hM', hw.leafB M hM'⟩)
    (p3.trans hw.leafMk)
  rw [← hh1]
  exact ⟨h', list', a1, hw, a2, hs1.keeps a2, hc1.keeps a2, a3, a4⟩

end new

/-! ## The netmask -/

theorem MaskTree.sameMask_some {m : Key} {M : ℕ}
    (ht : MaskTree off masks mlive mpre) (hM : IsMask mlive M) (hm : vlen m ≤ maxkeylen) :
    SameMask masks (some m) (some M) ↔ masks.leafKey M = Radix.padded m := by
  constructor
  · intro h
    funext i
    by_cases hi : i < maxkeylen
    · exact (h i hi).symm
    · rw [padded_of_le (by omega), ← ht.padded hM]
      exact padded_of_le ((ht.len_le hM).trans (by omega))
  · intro h i _
    rw [h]

/-- The first step of `rn_addroute`: the netmask gets its number. Source: rn_addroute. -/
def internOption (masks : Heap) (netmask : Option Key) (skip : ℕ) : Option (Heap × Option ℕ) :=
  match netmask with
  | none => some (masks, none)
  | some m => (internMask masks m skip).map fun (masks, x) => (masks, some x)

/-- The rest of `rn_addroute`. Source: rn_addroute -/
def addInterned (h masks : Heap) (v : Key) (mask : Option ℕ) : Option (State × Option ℕ) := do
  let ins ← rnInsert h v
  if ins.dupentry then
    let (t, same) ← walk ins.heap.leafDup (fun e => decide (ins.heap.leafMask e = mask))
      (ins.heap.fresh + 1) none (some ins.tt)
    match t, same with
    | some t, none =>
      let h ← annotate (attachDup ins.heap v t) masks ins.tt ins.heap.fresh mask
      some ({ tree := h, masks := masks }, some ins.heap.fresh)
    | _, _ => some ({ tree := ins.heap, masks := masks }, none)
  else
    let h ← annotate ins.heap masks ins.tt ins.tt mask
    some ({ tree := h, masks := masks }, some ins.tt)

theorem rnAddroute_eq (st : State) (v : Key) (netmask : Option Key) :
    rnAddroute st v netmask = (internOption st.masks netmask (headOff st.tree)).bind
      fun r => addInterned st.tree r.1 v r.2 := by
  cases netmask <;> rfl

/-- The netmask has got the number `mask`. -/
structure Interned (off : ℕ) (masks masks' : Heap) (mlive mlive' : Set Ptr) (mpre' : ℕ → Key)
    (netmask : Option Key) (mask : Option ℕ) : Prop where
  tree : MaskTree off masks' mlive' mpre'
  more : MoreMasks masks masks' mlive mlive'
  key (M : ℕ) : mask = some M → IsMask mlive' M ∧ ∃ m, netmask = some m ∧ masks'.leafKey M = padded m
  eq_iff (M : Option ℕ) : (∀ M', M = some M' → IsMask mlive M') →
    (M = mask ↔ SameMask masks netmask M)

theorem Interned.netmask_eq_none {mlive' : Set Ptr} {mpre' : ℕ → Key}
   
    (hi : Interned off masks masks' mlive mlive' mpre' netmask mask) (hnone : mask = none) :
    netmask = none := by
  have hsm := (hi.eq_iff none fun M' h => absurd h nofun).mp hnone.symm
  cases netmask with
  | none => rfl
  | some m => exact absurd hsm id

theorem MaskTree.intern_spec
    (ht : MaskTree off masks mlive mpre)
    (hm : ∀ m, netmask = some m → vlen m ≤ maxkeylen) :
    ∃ masks' mlive' mpre' mask, internOption masks netmask off = some (masks', mask) ∧
      Interned off masks masks' mlive mlive' mpre' netmask mask := by
  cases netmask with
  | none =>
    refine ⟨masks, mlive, mpre, none, rfl, ht, ⟨subset_rfl, fun _ _ => rfl, fun _ _ => rfl⟩,
      fun _ h => absurd h nofun, fun M _ => ?_⟩
    cases M with
    | none => exact ⟨fun _ => trivial, fun _ => rfl⟩
    | some M => exact ⟨fun h => absurd h nofun, fun h => absurd h id⟩
  | some m =>
    have hlen := hm m rfl
    obtain ⟨masks', mlive', mpre', M, h₁, h2, h3, h4, h5, h6⟩ := ht.internMask_spec hlen
    refine ⟨masks', mlive', mpre', some M, by rw [internOption, h₁]; rfl, h2,
      ⟨h5, fun M hM => (h6 M hM).1, fun M hM => (h6 M hM).2⟩, ?_, fun M' hM' => ?_⟩
    · rintro _ ⟨⟩
      exact ⟨h3, m, rfl, h4⟩
    · cases M' with
      | none => exact ⟨fun h => absurd h nofun, fun h => absurd h id⟩
      | some M' =>
        have hmask := hM' M' rfl
        rw [ht.sameMask_some hmask hlen, ← (h6 M' hmask.1).1, ← h4, some.injEq]
        constructor
        · rintro rfl
          rfl
        · exact fun h => h2.unique ⟨h5 hmask.1, hmask.2⟩ h3 h

/-! ## Adding -/

/-- The route `e` has been added: what else is in the tree is as before. -/
structure Added (off L : ℕ) (st st' : State) (g g' : Ghost) (v : Key) (netmask : Option Key)
    (e : ℕ) : Prop where
  routes : g'.routes = insert e g.routes
  notMem : e ∉ g.routes
  old {a : ℕ} : a ∈ g.routes → st'.tree.leafKey a = st.tree.leafKey a ∧
    st'.tree.leafMask a = st.tree.leafMask a ∧ st'.tree.leafRoot a = st.tree.leafRoot a
  key : st'.tree.leafKey e = v
  mask (M : ℕ) : st'.tree.leafMask e = some M → ∃ m, netmask = some m ∧
    st'.masks.leafKey M = padded m
  nomask : st'.tree.leafMask e = none → netmask = none
  root : st'.tree.leafRoot e = false
  chain {k : ℕ} : .leaf k ∈ g'.live →
    .leaf k ∈ g.live ∧ g'.chain k = g.chain k ∨
    .leaf k ∈ g.live ∧ g'.chain k = g.chain k ++ [e] ∧ SameBytes off L v (st.tree.leafKey k) ∨
    g'.chain k = [e]

theorem routes_append (hj : .leaf j ∈ live) (e : ℕ) :
    routes live (update chain j (chain j ++ [e])) = insert e (routes live chain) := by
  ext a
  constructor
  · rintro ⟨k, hk, ha⟩
    by_cases hkj : k = j
    · subst hkj
      rw [update_self] at ha
      rcases mem_append.mp ha with ha | ha
      · exact .inr ⟨k, hk, ha⟩
      · exact .inl (mem_singleton.mp ha)
    · rw [update_of_ne hkj] at ha
      exact .inr ⟨k, hk, ha⟩
  · rintro (rfl | ⟨k, hk, ha⟩)
    · refine ⟨j, hj, ?_⟩
      rw [update_self]
      exact mem_append_right _ (mem_singleton.mpr rfl)
    · refine ⟨k, hk, ?_⟩
      by_cases hkj : k = j
      · subst hkj
        rw [update_self]
        exact mem_append_left _ ha
      · rwa [update_of_ne hkj]

theorem routes_single {e : ℕ} (he : .leaf e ∉ live) :
    routes (addPair live e) (update chain e [e]) = insert e (routes live chain) := by
  ext a
  constructor
  · rintro ⟨k, hk | hk | hk, ha⟩
    · obtain rfl := Ptr.leaf.inj hk
      rw [update_self] at ha
      exact .inl (mem_singleton.mp ha)
    · exact absurd hk nofun
    · have hne : k ≠ e := fun heq => he (heq ▸ hk)
      rw [update_of_ne hne] at ha
      exact .inr ⟨k, hk, ha⟩
  · rintro (rfl | ⟨k, hk, ha⟩)
    · exact ⟨a, .inl rfl, by rw [update_self]; exact mem_singleton.mpr rfl⟩
    · have hne : k ≠ e := fun heq => he (heq ▸ hk)
      refine ⟨k, .inr (.inr hk), ?_⟩
      rwa [update_of_ne hne]

theorem Ok.of_added {nm : Option Key} {mk : Option ℕ}
    {g' : Ghost} (hok : Ok off L st g)
    (ht : MaskTree off masks' g'.mlive g'.mpre)
    (hmore : MoreMasks st.masks masks' g.mlive g'.mlive)
    (hM : ∀ M, mk = some M → IsMask g'.mlive M ∧ ∃ m, nm = some m ∧ masks'.leafKey M = padded m)
    (hmasked : ∀ m, nm = some m → Masked off L v (padded m))
    (hw : WithLeaf st.tree h₁ masks' v mk) (hkeep : Keeps h₁ h')
    (hshape : Shape off L h' g'.live g'.pre) (hchains : Chains off L h' g'.live g'.chain)
    (hlists : Lists h' masks' g'.mlive g'.live g'.list)
    (hroutes : g'.routes = insert st.tree.fresh g.routes)
    (hnotes : Notes off h' masks' g'.mlive g'.live g'.pre g'.list (insert st.tree.fresh g.routes))
    (htwins : ∀ n, .node n ∈ g'.live ↔ .leaf n ∈ g'.live ∧ n ≠ 1) :
    Ok off L ⟨h', masks'⟩ g' := by
  have hf := hok.chains.fresh_notMem.2.2
  refine ⟨ht, hshape, hchains, hlists, hroutes ▸ hnotes, ?_, htwins⟩
  intro e M he h₁
  have h2 : h'.leafMask e = some M := h₁
  rw [hkeep.leafMask] at h2
  rw [hkeep.leafKey]
  rw [hroutes] at he
  rcases he with rfl | he
  · rw [hw.leafMask] at h2
    obtain ⟨-, m, hm, hkey⟩ := hM M h2
    rw [hw.leafKey, hkey]
    exact hmasked m hm
  have hne : e ≠ st.tree.fresh := fun heq => hf (heq ▸ he)
  rw [(hw.old hne).2.1] at h2
  rw [(hw.old hne).1, hmore.leafKey M (hok.notes.mask he h2).1.1]
  exact hok.masked he h2

theorem added_of_withLeaf {nm : Option Key} {mk : Option ℕ} {g' : Ghost}
    (hc : Chains off L st.tree g.live g.chain)
    (hM : ∀ M, mk = some M → IsMask g'.mlive M ∧ ∃ m, nm = some m ∧ masks'.leafKey M = padded m)
    (hnone : mk = none → nm = none)
    (hw : WithLeaf st.tree h₁ masks' v mk) (hkeep : Keeps h₁ h')
    (hroutes : g'.routes = insert st.tree.fresh g.routes)
    (hchain : ∀ k, .leaf k ∈ g'.live →
      .leaf k ∈ g.live ∧ g'.chain k = g.chain k ∨
      .leaf k ∈ g.live ∧ g'.chain k = g.chain k ++ [st.tree.fresh] ∧
        SameBytes off L v (st.tree.leafKey k) ∨
      g'.chain k = [st.tree.fresh]) :
    Added off L st ⟨h', masks'⟩ g g' v nm st.tree.fresh := by
  have hf : st.tree.fresh ∉ g.routes := hc.fresh_notMem.2.2
  constructor
  · exact hroutes
  · exact hf
  · intro a ha
    have hne : a ≠ st.tree.fresh := fun heq => hf (heq ▸ ha)
    rw [hkeep.leafKey, hkeep.leafMask, hkeep.leafRoot]
    exact ⟨(hw.old hne).1, (hw.old hne).2.1, (hw.old hne).2.2.2.2⟩
  · exact (congrFun hkeep.leafKey _).trans hw.leafKey
  · intro M h2
    have h3 : h'.leafMask st.tree.fresh = some M := h2
    rw [hkeep.leafMask, hw.leafMask] at h3
    exact (hM M h3).2
  · intro h2
    have h3 : h'.leafMask st.tree.fresh = none := h2
    rw [hkeep.leafMask, hw.leafMask] at h3
    exact hnone h3
  · exact (congrFun hkeep.leafRoot _).trans hw.leafRoot
  · exact fun hk => hchain _ hk

/-- What `rn_addroute` does, up to the annotations. Source: rn_addroute -/
inductive AddPlan (off L : ℕ) (st : State) (live : Set Ptr) (pre : ℕ → Key) (chain : ℕ → List ℕ)
    (v : Key) (netmask : Option Key) (masks' : Heap) (mask : Option ℕ) : Prop where
  | present {e : ℕ} : e ∈ routes live chain → SameBytes off L v (st.tree.leafKey e) →
      SameMask st.masks netmask (st.tree.leafMask e) →
      rnAddroute st v netmask = some (⟨st.tree, masks'⟩, none) →
      AddPlan off L st live pre chain v netmask masks' mask
  | dup {t last : ℕ} : (∀ e ∈ routes live chain, ¬ (SameBytes off L v (st.tree.leafKey e) ∧
        SameMask st.masks netmask (st.tree.leafMask e))) →
      Finds st.tree v (.node 0) t → .leaf t ∈ live → SameBytes off L v (st.tree.leafKey t) →
      (chain t).getLast? = some last →
      rnAddroute st v netmask = (annotate (attachDup st.tree v last) masks' t st.tree.fresh mask).bind
        (fun h => some (⟨h, masks'⟩, some st.tree.fresh)) →
      AddPlan off L st live pre chain v netmask masks' mask
  | new {t i p : ℕ} {x : Ptr} : (∀ e ∈ routes live chain, ¬ (SameBytes off L v (st.tree.leafKey e) ∧
        SameMask st.masks netmask (st.tree.leafMask e))) →
      Finds st.tree v (.node 0) t → firstDiff v (st.tree.leafKey t) off L = some i →
      Gap off L st.tree live pre v (diffBit v (st.tree.leafKey t) i) p x →
      descend st.tree v (diffBit v (st.tree.leafKey t) i) depthFuel 0 = some (p, x) →
      rnAddroute st v netmask =
        (annotate (spliced st.tree v (diffBit v (st.tree.leafKey t) i) p x) masks' st.tree.fresh
          st.tree.fresh mask).bind (fun h => some (⟨h, masks'⟩, some st.tree.fresh)) →
      AddPlan off L st live pre chain v netmask masks' mask

theorem rnAddroute_eval
    (htree : MaskTree off st.masks mlive mpre) (hs : Shape off L st.tree live pre)
    (hc : Chains off L st.tree live chain)
    (hmasks : ∀ e ∈ routes live chain, ∀ M, st.tree.leafMask e = some M → IsMask mlive M)
    (hL : L ≤ maxkeylen) (hlen : vlen v = L) (hnm : ∀ m, netmask = some m → vlen m ≤ maxkeylen) :
    ∃ masks' mlive' mpre' mask, Interned off st.masks masks' mlive mlive' mpre' netmask mask ∧
      AddPlan off L st live pre chain v netmask masks' mask := by
  have hhead : headOff st.tree = off := by rw [headOff, hs.top_bit]; omega
  obtain ⟨masks', mlive', mpre', mask, hintern, hi⟩ := htree.intern_spec hnm
  refine ⟨masks', mlive', mpre', mask, hi, ?_⟩
  -- the number of a mask of a route tells whether it is the netmask
  have hmask : ∀ {e}, e ∈ routes live chain →
      (st.tree.leafMask e = mask ↔ SameMask st.masks netmask (st.tree.leafMask e)) := fun he =>
    hi.eq_iff _ (hmasks _ he)
  obtain ⟨t, hfind, hins⟩ := hs.rnInsert_spec (v := v) hL (Nat.le_of_eq hlen)
  have ht : .leaf t ∈ live := hs.finds_mem hs.top_mem hfind
  have heq : rnAddroute st v netmask = addInterned st.tree masks' v mask := by
    rw [rnAddroute_eq, hhead, hintern, bind_some]
  rw [hlen] at hins
  rcases hins with ⟨hsame, hins⟩ | ⟨hdiff, b, p, x, hgap, hdesc, ⟨i, hi', rfl⟩, hins⟩
  · -- the key is there
    obtain ⟨l1, l2, hlist, h₁, h2, hwalk⟩ := walk_spec
      (fun e => decide (st.tree.leafMask e = mask)) (hc.linked ht)
      (Nat.lt_succ_of_le (hc.length_le ht)) none
    rw [or_none] at hwalk
    cases l2 with
    | cons e l2 =>
      -- with this mask
      have he : e ∈ chain t := hlist ▸ mem_append_right _ (mem_cons_self ..)
      have hsm := (hmask ⟨t, ht, he⟩).mp (of_decide_eq_true (h2 e rfl))
      refine .present ⟨t, ht, he⟩ (fun i h₁ h2 => ?_) hsm ?_
      · rw [hc.key ht he i h₁ h2]
        exact hsame i h₁ h2
      · rw [heq, addInterned]
        simp only [hins, bind_eq_bind, bind_some, if_true, hwalk, head?_cons]
        cases l1.getLast? <;> rfl
    | nil =>
      -- with other masks only
      rw [append_nil] at hlist
      subst hlist
      obtain ⟨last, hlast⟩ : ∃ last, (chain t).getLast? = some last := by
        obtain ⟨l, hl, -⟩ := hc.eq_cons ht
        exact ⟨_, by rw [hl]; exact getLast?_cons⟩
      refine .dup ?_ hfind ht hsame hlast ?_
      · rintro e ⟨k, hk, he⟩ ⟨hkey, hsm⟩
        have hkt : k = t := by
          refine hs.leaf_unique hk ht (agree_mul_iff.mpr fun i h₁ h2 => ?_)
          rw [← hc.key hk he i h₁ h2, ← hkey i h₁ h2, hsame i h₁ h2]
        subst hkt
        exact of_decide_eq_false (h₁ e he) ((hmask ⟨k, hk, he⟩).mpr hsm)
      · rw [heq, addInterned]
        simp only [hins, bind_eq_bind, bind_some, if_true, hwalk, hlast, head?_nil]
  · -- the key is new
    rw [hhead] at hi'
    refine .new ?_ hfind hi' hgap hdesc ?_
    · rintro e ⟨k, hk, he⟩ ⟨hkey, -⟩
      -- the search would have found the key
      refine hdiff ?_
      have hkey' : SameBytes off L v (st.tree.leafKey k) := fun i h₁ h2 => by
        rw [← hc.key hk he i h₁ h2]
        exact hkey i h₁ h2
      have hfk := hs.finds_self hk (agree_mul_iff.mpr fun i h₁ h2 => (hkey' i h₁ h2).symm)
      rw [hfind.unique hfk]
      exact hkey'
    · rw [heq, addInterned]
      simp only [hins, bind_eq_bind, bind_some, Bool.false_eq_true, if_false]
      rfl

theorem twins_addPair {n : ℕ} (htwins : ∀ n, .node n ∈ live ↔ .leaf n ∈ live ∧ n ≠ 1) (hn : n ≠ 1)
    (k : ℕ) : .node k ∈ addPair live n ↔ .leaf k ∈ addPair live n ∧ k ≠ 1 := by
  constructor
  · rintro (h | h | h)
    · exact absurd h nofun
    · obtain rfl := Ptr.node.inj h
      exact ⟨.inl rfl, hn⟩
    · exact ⟨.inr (.inr ((htwins k).mp h).1), ((htwins k).mp h).2⟩
  · rintro ⟨h | h | h, h1⟩
    · rw [Ptr.leaf.inj h]
      exact .inr (.inl rfl)
    · exact absurd h nofun
    · exact .inr (.inr ((htwins k).mpr ⟨h, h1⟩))

theorem rnAddroute_spec (hok : Ok off L st g) (hL : L ≤ maxkeylen)
    (hop : OpOk off L (.add v netmask)) (hsafe : SafeAdd st v netmask) :
    (∃ masks' g', rnAddroute st v netmask = some (⟨st.tree, masks'⟩, none) ∧
      Ok off L ⟨st.tree, masks'⟩ g' ∧ g'.live = g.live ∧ g'.chain = g.chain ∧
      MoreMasks st.masks masks' g.mlive g'.mlive ∧
      ∃ e ∈ g.routes, SameBytes off L v (st.tree.leafKey e) ∧
        SameMask st.masks netmask (st.tree.leafMask e)) ∨
    ∃ st' g', rnAddroute st v netmask = some (st', some st.tree.fresh) ∧ Ok off L st' g' ∧
      Added off L st st' g g' v netmask st.tree.fresh ∧
      MoreMasks st.masks st'.masks g.mlive g'.mlive ∧
      ∀ e ∈ g.routes, ¬ (SameBytes off L v (st.tree.leafKey e) ∧
        SameMask st.masks netmask (st.tree.leafMask e)) := by
  obtain ⟨hlen, hnm⟩ := hop
  have hs := hok.shape
  have hc := hok.chains
  obtain ⟨hf1, hf2, hf3⟩ := hc.fresh_notMem
  have hhead : headOff st.tree = off := by rw [headOff, hs.top_bit]; omega
  have hmasked : ∀ m, netmask = some m → Masked off L v (padded m) := fun m hm => (hnm m hm).2
  obtain ⟨masks', mlive', mpre', mask, hi, hplan⟩ := rnAddroute_eval hok.masks hs hc
    (fun e he M hM => (hok.notes.mask he hM).1) hL hlen fun m hm => (hnm m hm).1
  have hl := hok.lists.more hi.more
  have hn := hok.notes.more hi.more
  cases hplan with
  | @present e he hsame hsm heval =>
    refine .inl ⟨masks', { g with mlive := mlive', mpre := mpre' }, heval, ?_, rfl, rfl, hi.more,
      e, he, hsame, hsm⟩
    exact ⟨hi.tree, hs, hc, hl, hn, fun he hM => by
      rw [hi.more.leafKey _ (hok.notes.mask he hM).1.1]
      exact hok.masked he hM, hok.twins⟩
  | @dup t last hnew hfind ht hsame hlast heval =>
    have hloses : ¬ LosesList st.tree t := by
      rw [SafeAdd, (hs.rnSearch_iff hL hs.top_mem).mpr hfind] at hsafe
      simp only [hhead, hlen, firstDiff_eq_none.mpr hsame, hc.chainOf_eq ht] at hsafe
      rcases hsafe with ⟨e, he, hsm⟩ | hsafe
      · refine absurd ⟨fun i h₁ h2 => ?_, hsm⟩ (hnew e ⟨t, ht, he⟩)
        rw [hsame i h₁ h2, hc.key ht he i h₁ h2]
      · exact hsafe
    obtain ⟨h', list', a1, a2, a3, a4, a5, a6, a7⟩ := annotate_dup (v := v) hs hc ht hL hl hn
      hloses (fun M hM => (hi.key M hM).1) hlast hsame
    have hroutes : routes g.live (update g.chain t (g.chain t ++ [st.tree.fresh])) =
        insert st.tree.fresh g.routes := routes_append ht st.tree.fresh
    refine .inr ⟨⟨h', masks'⟩, ⟨mlive', mpre', g.live, g.pre, _, list'⟩, ?_,
      hok.of_added hi.tree hi.more hi.key hmasked a2 a3 a4 a5 a6 hroutes a7 hok.twins, ?_, hi.more,
      hnew⟩
    · rw [heval, a1]
      rfl
    · refine added_of_withLeaf hc hi.key hi.netmask_eq_none a2 a3 hroutes ?_
      intro k hk
      by_cases hkt : k = t
      · subst hkt
        exact .inr (.inl ⟨hk, update_self _ _ _, hsame⟩)
      · exact .inl ⟨hk, update_of_ne hkt _ _⟩
  | @new t i p x hnew hfind hdiff hgap hdesc heval =>
    obtain ⟨h', list', a1, a2, a3, a4, a5, a6, a7⟩ := annotate_new hs hc hgap hL hl hn
      (fun k hk => by
        rw [SafeAdd, (hs.rnSearch_iff hL hs.top_mem).mpr hfind] at hsafe
        simp only [hhead, hlen, hdiff, hdesc, hk] at hsafe
        exact hsafe)
      (fun M hM => (hi.key M hM).1)
    have hroutes : routes (addPair g.live st.tree.fresh)
        (update g.chain st.tree.fresh [st.tree.fresh]) =
        insert st.tree.fresh g.routes := routes_single hf1
    have hne : st.tree.fresh ≠ 1 := fun h1 => hf1 (h1 ▸ hs.ones_mem)
    refine .inr ⟨⟨h', masks'⟩, ⟨mlive', mpre', _, _, _, list'⟩, ?_,
      hok.of_added hi.tree hi.more hi.key hmasked a2 a3 a4 a5 a6 hroutes a7
        (twins_addPair hok.twins hne), ?_, hi.more, hnew⟩
    · rw [heval, a1]
      rfl
    · refine added_of_withLeaf hc hi.key hi.netmask_eq_none a2 a3 hroutes ?_
      rintro k (h | h | h)
      · obtain rfl := Ptr.leaf.inj h
        exact .inr (.inr (update_self _ _ _))
      · cases h
      · refine .inl ⟨h, update_of_ne ?_ _ _⟩
        rintro rfl
        exact hf1 h

end Bsd386.Net.Radix
