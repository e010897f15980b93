import Bsd386.Net.Radix.Delete

/-!
# Radix trees: the calls return

Calls that are not safe may lose annotations, so `Lists` and `Notes` do not hold in every state of
every run. What does hold is `Ends`: the lists of annotations end and have no annotation in common.
That is enough for the loops over them to end, and none of them touches the tree: each of `promote`,
`lift`, `unlift` and `demote` returns a memory that differs from the given one in annotations only.
-/

namespace Bsd386.Net.Radix

open Function List Lib.Linked Option

/-- The lists of annotations end and are disjoint. Source: rn_mklist -/
def Ends (h : Heap) (live : Set Ptr) (list : ℕ → List ℕ) : Prop :=
  Family h.rmNext h.nodeMk {i | .node i ∈ live} {m | m < h.mfresh} list

variable {off L : ℕ} {h h' masks : Heap} {live live' : Set Ptr} {pre pre' : ℕ → Key}
  {list : ℕ → List ℕ} {i j k n t tt x : ℕ} {y : Ptr} {l1 l2 : List ℕ} {σ : ℕ → ℕ}

theorem Ends.congr (he : Ends h live list) (h1 : h'.rmNext = h.rmNext) (h2 : h'.nodeMk = h.nodeMk)
    (h3 : h'.mfresh = h.mfresh) : Ends h' live list := by
  rw [Ends, h1, h2, h3]
  exact he

theorem Ends.moved (he : Ends h live list) (hm : Moved h h' live live' pre pre' σ) :
    Ends h' live' (list ∘ σ) := by
  rw [Ends, hm.rmNext, hm.mfresh]
  exact he.rename (fun j hj => hm.mem hj) (fun j hj k hk => hm.inj hj hk) fun j hj => hm.nodeMk hj

theorem Ends.insert (he : Ends h live list) (hx : .node x ∈ live) (hsplit : list x = l1 ++ l2)
    (b : ℤ) (mask : ℕ) :
    Ends (storeMk (mkGet h b mask l2.head?) x l1.getLast? (some h.mfresh)) live
      (update list x (l1 ++ h.mfresh :: l2)) := by
  have hf : Family (mkGet h b mask l2.head?).rmNext h.nodeMk {i | .node i ∈ live}
      {m | m < h.mfresh + 1} list := by
    refine he.mono (fun m hm => update_of_ne (Nat.ne_of_lt hm) _ _) (fun m hm => ?_) subset_rfl
    exact Nat.lt_succ_of_lt hm
  have hnew : ∀ {i}, .node i ∈ live → h.mfresh ∉ list i := fun hi hm =>
    absurd (he.mem hi hm) (Nat.lt_irrefl _)
  have hnext : (mkGet h b mask l2.head?).rmNext h.mfresh = l2.head? := update_self _ _ _
  have hq : Linked (mkGet h b mask l2.head?).rmNext (some h.mfresh) (h.mfresh :: l2) := by
    refine ⟨rfl, ?_⟩
    rw [hnext]
    have hl := hf.linked hx
    rw [hsplit] at hl
    obtain ⟨q, hq⟩ := hl.append_right
    exact hq.head_eq ▸ hq
  have hnd := (hf.linked hx).nodup
  rw [hsplit] at hnd
  obtain ⟨-, -, -, hfresh, -⟩ := storeMk_rest (mkGet h b mask l2.head?) x l1.getLast? (some h.mfresh)
  rw [Ends, rmNext_storeMk, nodeMk_storeMk, hfresh]
  refine hf.store hx hsplit hq ?_ ?_ subset_rfl ?_
  · intro m hm
    rcases mem_cons.mp hm with rfl | hm
    · exact Nat.lt_succ_self _
    · exact hf.mem hx (hsplit ▸ mem_append_right _ hm)
  · intro m hm hm'
    rcases mem_cons.mp hm' with rfl | hm'
    · exact hnew hx (hsplit ▸ mem_append_left _ hm)
    · exact (nodup_append.mp hnd).2.2 m hm m hm' rfl
  · intro i hi hix m hm hm'
    rcases mem_cons.mp hm' with rfl | hm'
    · exact hnew hi hm
    · exact hix (he.disjoint hi hx hm (hsplit ▸ mem_append_right _ hm'))

/-! ## Adding -/

theorem promote_ends (he : Ends h live list) (ht : .node t ∈ live)
    (hy : ∀ i, y = .node i → .node i ∈ live ∧ i ≠ t) :
    ∃ h' list', promote h t y = some h' ∧ Keeps h h' ∧ Ends h' live list' := by
  cases y with
  | leaf k =>
    simp only [promote]
    cases hM : h.leafMask k with
    | none => exact ⟨h, list, rfl, .refl h, he⟩
    | some M =>
      by_cases hcond : -1 - (h.nodeB t : ℤ) ≤ h.leafB k ∧ h.leafMk k = none
      · simp only [if_pos hcond]
        refine ⟨_, update list t [h.mfresh], rfl,
          ⟨rfl, rfl, rfl, rfl, rfl, rfl, rfl, rfl, rfl, rfl, rfl⟩, ?_⟩
        -- the annotation comes first and is then cut off from the old list
        have hf : Family (mkGet h (h.leafB k) M none).rmNext h.nodeMk {i | .node i ∈ live}
            {m | m < h.mfresh + 1} list := by
          refine he.mono (fun m hm => update_of_ne (Nat.ne_of_lt hm) _ _) (fun m hm => ?_)
            subset_rfl
          exact Nat.lt_succ_of_lt hm
        have hnext : (mkGet h (h.leafB k) M none).rmNext h.mfresh = none := update_self _ _ _
        have hq : Linked (mkGet h (h.leafB k) M none).rmNext (some h.mfresh) [h.mfresh] :=
          ⟨rfl, hnext⟩
        exact hf.store ht (nil_append _).symm hq
          (fun m hm => by rw [mem_singleton.mp hm]; exact Nat.lt_succ_self _)
          (fun m hm => absurd hm not_mem_nil) subset_rfl fun i hi _ m hm hm' => by
            rw [mem_singleton.mp hm'] at hm
            exact absurd (he.mem hi hm) (Nat.lt_irrefl _)
      · simp only [if_neg hcond]
        exact ⟨h, list, rfl, .refl h, he⟩
  | node i =>
    obtain ⟨hi, hit⟩ := hy i rfl
    simp only [promote]
    cases hmk : h.nodeMk i with
    | none => exact ⟨h, list, rfl, .refl h, he⟩
    | some m0 =>
      obtain ⟨l1, l2, hsplit, -, -, hwalk⟩ := he.walk_eq hi
        (fun m => decide (-1 - (h.nodeB t : ℤ) ≤ h.rmB m))
      rw [hmk] at hwalk
      simp only [hwalk, bind_eq_bind, bind_some]
      refine ⟨_, update (update list i l1) t l2, rfl, ?_, ?_⟩
      · obtain ⟨a1, a2, a3, a4, a5, a6, a7, a8, a9, a10, a11⟩ := keeps_storeMk
          { h with nodeMk := update h.nodeMk t l2.head? } i l1.getLast? none
        exact ⟨a1, a2, a3, a4, a5, a6, a7, a8, a9, a10, a11⟩
      · have hnd := (he.linked hi).nodup
        rw [hsplit] at hnd
        have hsub : ∀ {m}, m ∈ l2 → m ∈ list i := fun hm => hsplit ▸ mem_append_right _ hm
        -- first the list of `i` is cut, then `t` gets the rest
        have hnil : Linked h.rmNext none [] := rfl
        have hcut := he.store hi hsplit hnil
          (fun m hm => absurd hm not_mem_nil) (fun m _ hm => absurd hm not_mem_nil)
          (subset_refl {i | .node i ∈ live}) fun j _ _ m _ hm => absurd hm not_mem_nil
        rw [append_nil] at hcut
        have hrest : Linked (relinkNext l1.getLast? h.rmNext none) l2.head? l2 := by
          have hl := he.linked hi
          rw [hsplit] at hl
          obtain ⟨q, hq⟩ := hl.append_right
          rw [hq.head_eq] at hq
          refine hq.congr fun m hm => relinkNext_of_notMem fun hm' => ?_
          exact (nodup_append.mp hnd).2.2 m hm' m hm rfl
        have hset := hcut.store ht (nil_append _).symm hrest
          (fun m hm => he.mem hi (hsub hm)) (fun m hm => absurd hm not_mem_nil)
          (subset_refl {i | .node i ∈ live}) fun j hj hjt m hm hm' => by
            by_cases hji : j = i
            · subst hji
              rw [update_self] at hm
              exact (nodup_append.mp hnd).2.2 m hm m hm' rfl
            · rw [update_of_ne hji] at hm
              exact hji (he.disjoint hj hi hm (hsub hm'))
        rw [Ends, rmNext_storeMk, nodeMk_storeMk]
        obtain ⟨-, -, -, hfresh, -⟩ := storeMk_rest
          { h with nodeMk := update h.nodeMk t l2.head? } i l1.getLast? none
        rw [hfresh]
        show Family (relinkNext l1.getLast? h.rmNext none) (update
          (update h.nodeMk t l2.head?) i (relinkHead l1.getLast?
            (update h.nodeMk t l2.head? i) none)) _ _ _
        rw [update_of_ne hit, update_comm hit.symm]
        exact hset

theorem lift_ends (masks : Heap) (tt M : ℕ) (hs : Shape off L h live pre) (hL : L ≤ maxkeylen) (he : Ends h live list)
    (ht : .node t ∈ live) :
    ∃ h' list', lift h masks t tt M = some h' ∧ Keeps h h' ∧ Ends h' live list' := by
  unfold lift
  by_cases hfar : (h.nodeB t : ℤ) < -1 - masks.leafB M
  · exact ⟨h, list, if_pos hfar, .refl h, he⟩
  simp only [if_neg hfar]
  obtain ⟨x, hx, hxl, -⟩ := hs.highest_spec (-1 - masks.leafB M) (hs.bit_lt_depthFuel hL ht) ht
  obtain ⟨l1, l2, hsplit, -, -, hwalk⟩ := he.walk_eq hxl (fun m => decide (h.leafB tt < h.rmB m) ||
    (decide (h.leafB tt ≤ h.rmB m) && (decide (h.rmMask m = M) ||
      someByteGreater (masks.leafKey M) (masks.leafKey (h.rmMask m)) (vlen (masks.leafKey M)))))
  simp only [hx, hwalk, bind_eq_bind, bind_some]
  have hnew : Keeps h { storeMk (mkGet h (h.leafB tt) M l2.head?) x l1.getLast? (some h.mfresh) with
      leafMk := update (storeMk (mkGet h (h.leafB tt) M l2.head?) x l1.getLast?
        (some h.mfresh)).leafMk tt (some h.mfresh) } := by
    obtain ⟨a1, a2, a3, a4, a5, a6, a7, a8, a9, a10, a11⟩ :=
      keeps_storeMk (mkGet h (h.leafB tt) M l2.head?) x l1.getLast? (some h.mfresh)
    exact ⟨a1, a2, a3, a4, a5, a6, a7, a8, a9, a10, a11⟩
  have hends := (he.insert hxl hsplit (h.leafB tt) M)
  cases hm : l2.head? with
  | none =>
    rw [hm] at hnew hends
    exact ⟨_, _, rfl, hnew, hends.congr rfl rfl rfl⟩
  | some m =>
    rw [hm] at hnew hends
    by_cases hsame : h.rmB m ≤ h.leafB tt ∧ h.rmMask m = M
    · simp only [if_pos hsame]
      exact ⟨_, list, rfl, ⟨rfl, rfl, rfl, rfl, rfl, rfl, rfl, rfl, rfl, rfl, rfl⟩,
        he.congr rfl rfl rfl⟩
    · simp only [if_neg hsame]
      exact ⟨_, _, rfl, hnew, hends.congr rfl rfl rfl⟩

theorem annotate_ends {mask : Option ℕ} (hs : Shape off L (setMask h masks tt mask) live pre)
    (hL : L ≤ maxkeylen) (he : Ends h live list) (hj : .leaf j ∈ live) :
    ∃ h' list', annotate h masks j tt mask = some h' ∧ Keeps (setMask h masks tt mask) h' ∧
      Ends h' live list' := by
  obtain ⟨h1, hh1⟩ : ∃ h1, setMask h masks tt mask = h1 := ⟨_, rfl⟩
  have he1 : Ends h1 live list := by
    rw [← hh1]
    cases mask
    · exact he
    · exact he.congr rfl rfl rfl
  rw [hh1] at hs ⊢
  have ht := hs.leafP_mem hj
  obtain ⟨s, hst, hsy⟩ := hs.sibling_eq hj
  obtain ⟨h2, list2, p1, p2, p3⟩ := promote_ends (y := sibling h1 (h1.leafP j) j) he1 ht fun i hi => by
    rw [hi] at hsy
    refine ⟨hsy ▸ hs.child_mem ht _, ?_⟩
    rintro rfl
    exact absurd (hs.child_lt ht _ _ hsy.symm) (Nat.lt_irrefl _)
  unfold annotate
  simp only [hh1, p1, bind_eq_bind, bind_some]
  cases mask with
  | none => exact ⟨h2, list2, rfl, p2, p3⟩
  | some M =>
    obtain ⟨h', list', l1, l2, l3⟩ := lift_ends masks tt M (hs.keeps p2) hL p3 ht
    exact ⟨h', list', l1, p2.trans l2, l3⟩

/-! ## Deleting -/

theorem unlift_ends (tt : ℕ) (hs : Shape off L h live pre) (hL : L ≤ maxkeylen) (he : Ends h live list)
    (hj : .leaf j ∈ live) :
    ∃ h' list', unlift h j tt = some h' ∧ Keeps h h' ∧ Ends h' live list' := by
  have hsame : ∀ r, Keeps h { h with rmRefs := r } := fun r =>
    ⟨rfl, rfl, rfl, rfl, rfl, rfl, rfl, rfl, rfl, rfl, rfl⟩
  have ht := hs.leafP_mem hj
  unfold unlift
  cases hM : h.leafMask tt with
  | none => exact ⟨h, list, rfl, .refl h, he⟩
  | some M =>
    cases hmk : h.leafMk tt with
    | none => exact ⟨h, list, rfl, .refl h, he⟩
    | some m =>
      by_cases hne : h.rmMask m ≠ M
      · exact ⟨h, list, if_pos hne, .refl h, he⟩
      simp only [if_neg hne]
      obtain ⟨r, hr⟩ : ∃ r, update h.rmRefs m (h.rmRefs m - 1) = r := ⟨_, rfl⟩
      rw [hr]
      by_cases href : 0 ≤ r m
      · exact ⟨_, list, if_pos href, hsame r, he.congr rfl rfl rfl⟩
      simp only [if_neg href]
      by_cases hfar : (h.nodeB (h.leafP j) : ℤ) < -1 - h.leafB tt
      · exact ⟨_, list, if_pos hfar, hsame r, he.congr rfl rfl rfl⟩
      simp only [if_neg hfar]
      have hs' := hs.keeps (hsame r)
      have he' : Ends { h with rmRefs := r } live list := he.congr rfl rfl rfl
      obtain ⟨x, hx, hxl, -⟩ := hs'.highest_spec (-1 - h.leafB tt)
        (hs'.bit_lt_depthFuel hL ht) ht
      obtain ⟨l1, l2, hsplit, -, h2, hwalk⟩ := he'.walk_eq hxl (fun m' => decide (m' = m))
      simp only [hx, hwalk, bind_eq_bind, bind_some]
      cases l2 with
      | nil => exact ⟨_, list, rfl, hsame r, he'⟩
      | cons c l2 =>
        obtain rfl : c = m := of_decide_eq_true (h2 c rfl)
        refine ⟨_, update list x (l1 ++ l2), rfl,
          (hsame r).trans (keeps_storeMk _ _ _ _), ?_⟩
        have hnd := (he'.linked hxl).nodup
        rw [hsplit] at hnd
        have hsub : ∀ {a}, a ∈ l2 → a ∈ list x := fun ha =>
          hsplit ▸ mem_append_right _ (mem_cons_of_mem _ ha)
        have hlink := he'.linked hxl
        rw [hsplit] at hlink
        obtain ⟨-, -, -, hfresh, -⟩ := storeMk_rest { h with rmRefs := r } x l1.getLast?
          (h.rmNext c)
        rw [Ends, rmNext_storeMk, nodeMk_storeMk, hfresh]
        exact he'.store hxl hsplit hlink.next_eq (fun a ha => he'.mem hxl (hsub ha))
          (fun a ha ha' => (nodup_append.mp hnd).2.2 a ha a
            (mem_cons_of_mem _ ha') rfl) subset_rfl
          fun i hi hix a ha ha' => hix (he'.disjoint hi hxl ha (hsub ha'))

theorem demoteLeaf_ends {q : Option ℕ} {l : List ℕ} (hl : Linked h.rmNext q l) (hn : l.length < n) :
    ∃ h', demoteLeaf k n q h = some h' ∧ Keeps h h' ∧ h'.rmNext = h.rmNext ∧ h'.nodeMk = h.nodeMk ∧
      h'.mfresh = h.mfresh := by
  induction l generalizing q n h with
  | nil =>
    obtain ⟨n, rfl⟩ : ∃ m, n = m + 1 := ⟨n - 1, by rw [length_nil] at hn; omega⟩
    obtain rfl : q = none := hl
    exact ⟨h, rfl, .refl h, rfl, rfl, rfl⟩
  | cons m l ih =>
    rw [length_cons] at hn
    obtain ⟨n, rfl⟩ : ∃ m, n = m + 1 := ⟨n - 1, by omega⟩
    obtain ⟨rfl, hl⟩ := hl
    have hn' : l.length < n := by omega
    unfold demoteLeaf
    by_cases hk : h.leafMk k = some m
    · simp only [if_pos hk]
      obtain ⟨r, hr⟩ : ∃ r, update h.rmRefs m (h.rmRefs m - 1) = r := ⟨_, rfl⟩
      rw [hr]
      have hkeep : ∀ mk, Keeps h { h with rmRefs := r, leafMk := mk } := fun mk =>
        ⟨rfl, rfl, rfl, rfl, rfl, rfl, rfl, rfl, rfl, rfl, rfl⟩
      by_cases href : r m < 0
      · simp only [if_pos href]
        obtain ⟨h', h1, h2, h3⟩ := ih (h := { h with
          rmRefs := r, leafMk := update h.leafMk k none }) hl hn'
        exact ⟨h', h1, (hkeep _).trans h2, h3⟩
      · simp only [if_neg href]
        obtain ⟨h', h1, h2, h3⟩ := ih (h := { h with rmRefs := r }) hl hn'
        exact ⟨h', h1, (hkeep h.leafMk).trans h2, h3⟩
    · simp only [if_neg hk]
      exact ih hl hn'

/-- **Demoting returns.** The list of the node `t` that goes is appended to that of the node in its
place, or given up. -/
theorem demote_ends (tt : ℕ) (he : Ends h live list) (ht : .node t ∈ live)
    (hy : ∀ i, y = .node i → .node i ∈ live ∧ i ≠ t) :
    ∃ h' list', demote h t y = some h' ∧ Keeps h h' ∧ Ends h' (dropLive live tt t) list' := by
  have hsub : {i | .node i ∈ dropLive live tt t} ⊆ {i | .node i ∈ live} := fun i hi =>
    (node_mem_dropLive.mp hi).1
  have hdrop : Ends h (dropLive live tt t) list := he.mono (fun _ _ => rfl) subset_rfl hsub
  have hlen : ∀ {i}, .node i ∈ live → (list i).length < h.mfresh + 1 := fun hi =>
    Nat.lt_succ_of_le ((he.linked hi).length_le fun m hm => he.mem hi hm)
  cases y with
  | leaf k =>
    obtain ⟨h', h1, h2, h3, h4, h5⟩ := demoteLeaf_ends (k := k) (he.linked ht) (hlen ht)
    exact ⟨h', list, h1, h2, hdrop.congr h3 h4 h5⟩
  | node i =>
    obtain ⟨hi, hit⟩ := hy i rfl
    simp only [demote]
    cases hmk : h.nodeMk t with
    | none => exact ⟨h, list, rfl, .refl h, hdrop⟩
    | some m =>
      obtain ⟨l1, l2, hsplit, -, h2, hwalk⟩ := he.walk_eq hi (fun _ => false)
      obtain rfl : l2 = [] := by
        cases l2 with
        | nil => rfl
        | cons c l2 => exact absurd (h2 c rfl) nofun
      simp only [hwalk, bind_eq_bind, bind_some]
      refine ⟨_, update list i (l1 ++ list t), rfl, keeps_storeMk _ _ _ _, ?_⟩
      have hmem : ∀ {a}, a ∈ l1 → a ∈ list i := fun ha => hsplit ▸ mem_append_left _ ha
      have hq := he.linked ht
      rw [hmk] at hq
      obtain ⟨-, -, -, hfresh, -⟩ := storeMk_rest h i l1.getLast? (some m)
      rw [Ends, rmNext_storeMk, nodeMk_storeMk, hfresh]
      refine he.store hi hsplit hq (fun a ha => he.mem ht ha) ?_ hsub ?_
      · exact fun a ha ha' => hit (he.disjoint hi ht (hmem ha) ha')
      · intro j hj _ a ha ha'
        exact (node_mem_dropLive.mp hj).2 (he.disjoint (hsub hj) ht ha ha')

end Bsd386.Net.Radix
