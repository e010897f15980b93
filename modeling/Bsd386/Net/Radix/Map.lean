import Bsd386.Net.Radix.Ends
import Bsd386.Net.Radix.Lookup

/-!
# Radix trees: a map from keys and masks

Annotations apart, the tree is kept in order by every call, safe or not: `TreeOk` holds in every
state of every run (`run_treeOk`), and no two leaves have the same key and the same mask.
-/

namespace Bsd386.Net.Radix

open Function List Lib.Linked Option

/-! ## The invariant of all runs -/

/-- What every call keeps. -/
structure TreeOk (off L : ℕ) (st : State) (g : Ghost) : Prop where
  masks : MaskTree off st.masks g.mlive g.mpre
  shape : Shape off L st.tree g.live g.pre
  chains : Chains off L st.tree g.live g.chain
  ends : Ends st.tree g.live g.list
  mask {e M : ℕ} : e ∈ g.routes → st.tree.leafMask e = some M → IsMask g.mlive M
  unique {a b : ℕ} : a ∈ g.routes → b ∈ g.routes →
    SameBytes off L (st.tree.leafKey a) (st.tree.leafKey b) →
    st.tree.leafMask a = st.tree.leafMask b → a = b
  twins (n : ℕ) : .node n ∈ g.live ↔ .leaf n ∈ g.live ∧ n ≠ 1

/-- The lengths of the arguments of a call. -/
def LenOk (L : ℕ) : Op → Prop
  | .add v netmask => vlen v = L ∧ ∀ m, netmask = some m → vlen m ≤ maxkeylen
  | .delete v _ => vlen v = L

variable {off L : ℕ} {st st' : State} {g g' : Ghost} {v : Key} {netmask : Option Key} {a e t : ℕ}
  {op : Op} {ops : List Op}

theorem treeOk_initial (hoff : off < L) :
    TreeOk off L (initial off) ⟨firstLive, fun _ => rnZeros, firstLive, fun _ => rnZeros,
      fun j => [j], fun _ => []⟩ := by
  have hok := ok_initial hoff
  refine ⟨hok.masks, hok.shape, hok.chains, ?_, nofun, ?_, hok.twins⟩
  · exact ⟨fun hi => hok.lists.linked hi, fun _ _ hm => absurd hm not_mem_nil,
      fun _ hm => absurd hm not_mem_nil⟩
  · rintro a b ⟨j, hj, ha⟩ ⟨k, hk, hb⟩ hsame -
    obtain rfl := mem_singleton.mp ha
    obtain rfl := mem_singleton.mp hb
    exact hok.shape.leaf_unique hj hk (agree_mul_iff.mpr hsame)

namespace TreeOk

variable (hok : TreeOk off L st g)

include hok

theorem isEntry_iff : IsEntry st.tree e ↔ e ∈ g.routes ∧ st.tree.leafRoot e = false := by
  rw [IsEntry, reaches_iff hok.shape hok.chains]
  rfl

theorem root_iff (he : e ∈ g.routes) : st.tree.leafRoot e = true ↔ e = 0 ∨ e = 1 := by
  obtain ⟨j, hj, hej⟩ := he
  exact hok.chains.root hj hej

theorem deleteMask_eq {mask : Option ℕ} (he : e ∈ g.routes)
    (hsm : SameMask st.masks netmask (st.tree.leafMask e))
    (hmask : deleteMask st.masks netmask = some mask) : st.tree.leafMask e = mask := by
  cases netmask with
  | none =>
    obtain rfl := some.inj hmask
    cases hM : st.tree.leafMask e with
    | none => rfl
    | some M =>
      rw [hM] at hsm
      exact absurd hsm id
  | some m =>
    cases hM : st.tree.leafMask e with
    | none =>
      rw [hM] at hsm
      exact absurd hsm id
    | some M =>
      rw [hM] at hsm
      have hMask := hok.mask he hM
      have hs := hok.masks.shape
      -- the first byte says that the netmask is not too long
      have hlen : vlen m ≤ maxkeylen := by
        have h0 := hsm 0 (by decide)
        rw [padded_zero] at h0
        have hle := hok.masks.len_le hMask
        rw [vlen, ← h0] at hle
        exact hle
      have hkey := (hok.masks.sameMask_some hMask hlen).mp hsm
      have hfind := hok.masks.finds hMask hkey
      rw [deleteMask, (hs.rnSearch_iff (Nat.le_refl _) hs.top_mem).mpr hfind] at hmask
      exact some.inj hmask

theorem of_added (hadd : Added off L st st' g g' v netmask e)
    (hmore : MoreMasks st.masks st'.masks g.mlive g'.mlive)
    (hnew : ∀ a ∈ g.routes, ¬ (SameBytes off L v (st.tree.leafKey a) ∧
      SameMask st.masks netmask (st.tree.leafMask a)))
    (hmask : ∀ M, st'.tree.leafMask e = some M → IsMask g'.mlive M)
    (hsm : ∀ a ∈ g.routes, st.tree.leafMask a = st'.tree.leafMask e →
      SameMask st.masks netmask (st.tree.leafMask a))
    (ht : MaskTree off st'.masks g'.mlive g'.mpre) (hs : Shape off L st'.tree g'.live g'.pre)
    (hc : Chains off L st'.tree g'.live g'.chain) (he : Ends st'.tree g'.live g'.list)
    (htwins : ∀ n, .node n ∈ g'.live ↔ .leaf n ∈ g'.live ∧ n ≠ 1) : TreeOk off L st' g' := by
  refine ⟨ht, hs, hc, he, ?_, ?_, htwins⟩
  · intro a M ha hM
    rw [hadd.routes] at ha
    rcases ha with rfl | ha
    · exact hmask M hM
    · rw [(hadd.old ha).2.1] at hM
      exact hmore.isMask (hok.mask ha hM)
  · -- the new leaf is like no old one
    have hdiff : ∀ {b}, b ∈ g.routes → SameBytes off L v (st.tree.leafKey b) →
        st.tree.leafMask b = st'.tree.leafMask e → False := fun hb hsame hM =>
      hnew _ hb ⟨hsame, hsm _ hb hM⟩
    intro a b ha hb hsame hM
    rw [hadd.routes] at ha hb
    rcases ha with rfl | ha
    · rcases hb with rfl | hb
      · rfl
      · rw [hadd.key, (hadd.old hb).1] at hsame
        rw [(hadd.old hb).2.1] at hM
        exact (hdiff hb hsame hM.symm).elim
    rcases hb with rfl | hb
    · rw [hadd.key, (hadd.old ha).1] at hsame
      rw [(hadd.old ha).2.1] at hM
      exact (hdiff ha (fun i h1 h2 => (hsame i h1 h2).symm) hM).elim
    · rw [(hadd.old ha).1, (hadd.old hb).1] at hsame
      rw [(hadd.old ha).2.1, (hadd.old hb).2.1] at hM
      exact hok.unique ha hb hsame hM

theorem rnAddroute_spec (hL : L ≤ maxkeylen) (hlen : vlen v = L)
    (hnm : ∀ m, netmask = some m → vlen m ≤ maxkeylen) :
    (∃ masks' g', rnAddroute st v netmask = some (⟨st.tree, masks'⟩, none) ∧
      TreeOk off L ⟨st.tree, masks'⟩ g' ∧ g'.routes = g.routes ∧
      MoreMasks st.masks masks' g.mlive g'.mlive ∧
      ∃ e ∈ g.routes, SameBytes off L v (st.tree.leafKey e) ∧
        SameMask st.masks netmask (st.tree.leafMask e)) ∨
    ∃ st' g', rnAddroute st v netmask = some (st', some st.tree.fresh) ∧ TreeOk off L st' g' ∧
      Added off L st st' g g' v netmask st.tree.fresh ∧
      MoreMasks st.masks st'.masks g.mlive g'.mlive ∧
      ∀ e ∈ g.routes, ¬ (SameBytes off L v (st.tree.leafKey e) ∧
        SameMask st.masks netmask (st.tree.leafMask e)) := by
  have hs := hok.shape
  have hc := hok.chains
  obtain ⟨hf1, hf2, hf3⟩ := hc.fresh_notMem
  obtain ⟨masks', mlive', mpre', mask, hi, hplan⟩ := rnAddroute_eval hok.masks hs hc
    (fun e he M hM => hok.mask he hM) hL hlen hnm
  have hsm : ∀ a ∈ g.routes, st.tree.leafMask a = mask →
      SameMask st.masks netmask (st.tree.leafMask a) := fun a ha =>
    (hi.eq_iff _ fun M hM => hok.mask ha hM).mp
  -- what the annotations leave of a tree with a new leaf
  have hdone : ∀ {h₁ h' : Heap} {g' : Ghost}, Added off L st ⟨h', masks'⟩ g g' v netmask st.tree.fresh →
      g'.mlive = mlive' → g'.mpre = mpre' →
      (∀ e ∈ g.routes, ¬ (SameBytes off L v (st.tree.leafKey e) ∧
        SameMask st.masks netmask (st.tree.leafMask e))) →
      WithLeaf st.tree h₁ masks' v mask → Keeps h₁ h' → Shape off L h₁ g'.live g'.pre →
      Chains off L h₁ g'.live g'.chain → Ends h' g'.live g'.list →
      (∀ n, .node n ∈ g'.live ↔ .leaf n ∈ g'.live ∧ n ≠ 1) →
      TreeOk off L ⟨h', masks'⟩ g' := by
    rintro h₁ h' ⟨ml, mp, li, pr, ch, ls⟩ hadd rfl rfl hnew hw hkeep hs1 hc1 he htwins
    have hmask : h'.leafMask st.tree.fresh = mask := by rw [hkeep.leafMask, hw.leafMask]
    refine hok.of_added hadd hi.more hnew (fun M hM => (hi.key M ?_).1) (fun a ha hM => ?_) hi.tree
      (hs1.keeps hkeep) (hc1.keeps hkeep) he htwins
    · exact hmask.symm.trans hM
    · exact hsm a ha (hM.trans hmask)
  cases hplan with
  | @present e he hsame hsm heval =>
    refine .inl ⟨masks', { g with mlive := mlive', mpre := mpre' }, heval, ?_, rfl, hi.more, e, he,
      hsame, hsm⟩
    exact ⟨hi.tree, hs, hc, hok.ends, fun he hM => hi.more.isMask (hok.mask he hM), hok.unique,
      hok.twins⟩
  | @dup t last hnew hfind ht hsame hlast heval =>
    obtain ⟨hw, hs1, hc1⟩ := attachDup_tree hs hc ht masks' mask hlast hsame
    have he1 : Ends (attachDup st.tree v last) g.live g.list := hok.ends.congr rfl rfl rfl
    obtain ⟨h', list', a1, a2, a3⟩ := annotate_ends hs1 hL he1 ht
    have hroutes : routes g.live (update g.chain t (g.chain t ++ [st.tree.fresh])) =
        insert st.tree.fresh g.routes := routes_append ht st.tree.fresh
    have hadd : Added off L st ⟨h', masks'⟩ g ⟨mlive', mpre', g.live, g.pre,
        update g.chain t (g.chain t ++ [st.tree.fresh]), list'⟩ v netmask st.tree.fresh := by
      refine added_of_withLeaf hc hi.key hi.netmask_eq_none hw a2 hroutes ?_
      intro k hk
      by_cases hkt : k = t
      · subst hkt
        exact .inr (.inl ⟨hk, update_self _ _ _, hsame⟩)
      · exact .inl ⟨hk, update_of_ne hkt _ _⟩
    refine .inr ⟨_, _, ?_, hdone hadd rfl rfl hnew hw a2 hs1 hc1 a3 hok.twins, hadd, hi.more, hnew⟩
    rw [heval, a1]
    rfl
  | @new t i p x hnew hfind hdiff hgap hdesc heval =>
    obtain ⟨hw, hs1, hc1⟩ := spliced_tree hs hc hgap masks' mask
    have hdata := data_spliced st.tree v (diffBit v (st.tree.leafKey t) i) p x
    -- the list of the new node is empty
    have he1 : Ends (spliced st.tree v (diffBit v (st.tree.leafKey t) i) p x)
        (addPair g.live st.tree.fresh) (update g.list st.tree.fresh []) := by
      have hold : ∀ {i}, .node i ∈ g.live → i ≠ st.tree.fresh := fun hi heq => hf2 (heq ▸ hi)
      have hcases : ∀ {i}, .node i ∈ addPair g.live st.tree.fresh →
          i = st.tree.fresh ∨ .node i ∈ g.live := by
        rintro i (h | h | h)
        · cases h
        · exact .inl (Ptr.node.inj h)
        · exact .inr h
      have hmem : ∀ {i m}, .node i ∈ addPair g.live st.tree.fresh →
          m ∈ update g.list st.tree.fresh [] i → .node i ∈ g.live ∧ m ∈ g.list i := by
        intro i m hi hm
        rcases hcases hi with rfl | hi
        · rw [update_self] at hm
          exact absurd hm not_mem_nil
        · rw [update_of_ne (hold hi)] at hm
          exact ⟨hi, hm⟩
      have hnext : (spliced st.tree v (diffBit v (st.tree.leafKey t) i) p x).rmNext =
          st.tree.rmNext := congrArg Data.rmNext hdata
      have hmk : (spliced st.tree v (diffBit v (st.tree.leafKey t) i) p x).nodeMk =
          update st.tree.nodeMk st.tree.fresh none := congrArg Data.nodeMk hdata
      have hfresh : (spliced st.tree v (diffBit v (st.tree.leafKey t) i) p x).mfresh =
          st.tree.mfresh := congrArg Data.mfresh hdata
      rw [Ends, hnext, hmk, hfresh]
      refine ⟨fun {i} hi => ?_, fun hi hj hmi hmj => ?_, fun hi hm => ?_⟩
      · rcases hcases hi with rfl | hi
        · rw [update_self, update_self]
          exact rfl
        · rw [update_of_ne (hold hi), update_of_ne (hold hi)]
          exact hok.ends.linked hi
      · obtain ⟨hi, hmi⟩ := hmem hi hmi
        obtain ⟨hj, hmj⟩ := hmem hj hmj
        exact hok.ends.disjoint hi hj hmi hmj
      · obtain ⟨hi, hm⟩ := hmem hi hm
        exact hok.ends.mem hi hm
    obtain ⟨h', list', a1, a2, a3⟩ := annotate_ends hs1 hL he1 (.inl rfl)
    have hroutes : routes (addPair g.live st.tree.fresh)
        (update g.chain st.tree.fresh [st.tree.fresh]) =
        insert st.tree.fresh g.routes := routes_single hf1
    have hne : st.tree.fresh ≠ 1 := fun h1 => hf1 (h1 ▸ hs.ones_mem)
    have hadd : Added off L st ⟨h', masks'⟩ g ⟨mlive', mpre', addPair g.live st.tree.fresh,
        update g.pre st.tree.fresh v, update g.chain st.tree.fresh [st.tree.fresh],
        list'⟩ v netmask st.tree.fresh := by
      refine added_of_withLeaf hc hi.key hi.netmask_eq_none hw a2 hroutes ?_
      rintro k (h | h | h)
      · obtain rfl := Ptr.leaf.inj h
        exact .inr (.inr (update_self _ _ _))
      · cases h
      · refine .inl ⟨h, update_of_ne ?_ _ _⟩
        rintro rfl
        exact hf1 h
    refine .inr ⟨_, _, ?_, hdone hadd rfl rfl hnew hw a2 hs1 hc1 a3
      (twins_addPair hok.twins hne), hadd, hi.more, hnew⟩
    rw [heval, a1]
    rfl

theorem deleteFound_spec {j tt : ℕ} (hL : L ≤ maxkeylen) (hj : .leaf j ∈ g.live)
    (htt : tt ∈ g.chain j) (hroot : st.tree.leafRoot tt = false) :
    ∃ st' g', deleteFound st j tt = some (st', some tt) ∧ TreeOk off L st' g' ∧
      Deleted st st' g g' tt := by
  obtain ⟨h, list, hun, hk, he⟩ := unlift_ends tt hok.shape hL hok.ends hj
  have hs := hok.shape.keeps hk
  have hc := hok.chains.keeps hk
  obtain ⟨y, hy⟩ : ∃ y, sibling h (h.leafP j) j = y := ⟨_, rfl⟩
  obtain ⟨hdata, -, -⟩ := unsplice_rest h j y
  have he' : Ends (unsplice h j y) g.live list := he.congr (congrArg Data.rmNext hdata)
    (congrArg Data.nodeMk hdata) (congrArg Data.mfresh hdata)
  have ht := hs.leafP_mem hj
  obtain ⟨s, hst, hsy⟩ := hs.sibling_eq hj
  obtain ⟨h2, list2, d1, d2, d3⟩ := demote_ends (y := y) j he' ht fun i hi => by
    rw [hy, hi] at hsy
    refine ⟨hsy ▸ hs.child_mem ht _, ?_⟩
    rintro rfl
    exact absurd (hs.child_lt ht _ _ hsy.symm) (Nat.lt_irrefl _)
  obtain ⟨h3, h', live2, live', pre', chain', σ, heval, hd, hm, hcases⟩ :=
    deleteFound_eval hs hc hok.twins hun (by rw [hk.leafRoot, hroot]) hj htt hy
      fun _ => ⟨h2, d1, d2⟩
  have hleaves : SameLeaves st.tree h' :=
    ⟨hd.leaves.leafKey.trans hk.leafKey, hd.leaves.leafMask.trans hk.leafMask,
      hd.leaves.leafRoot.trans hk.leafRoot, hd.leaves.fresh.trans hk.fresh⟩
  have hend : ∃ list', Ends h' live' list' := by
    rcases hcases with ⟨rfl, rfl⟩ | ⟨-, -, d1', rfl⟩
    · exact ⟨_, he.moved hm⟩
    · obtain rfl : h2 = h3 := some.inj (d1.symm.trans d1')
      exact ⟨_, d3.moved hm⟩
  obtain ⟨list', hend⟩ := hend
  refine ⟨⟨h', st.masks⟩, ⟨g.mlive, g.mpre, live', pre', chain', list'⟩, heval,
    ⟨hok.masks, hd.shape, hd.chains, hend, ?_, ?_, hd.twins⟩, ⟨hd.routes, hleaves, rfl, rfl, hd.sub⟩⟩
  · intro a M ha hM
    rw [Ghost.routes, hd.routes] at ha
    rw [hleaves.leafMask] at hM
    exact hok.mask ha.1 hM
  · intro a b ha hb hsame hM
    rw [Ghost.routes, hd.routes] at ha hb
    rw [hleaves.leafKey] at hsame
    rw [hleaves.leafMask] at hM
    exact hok.unique ha.1 hb.1 hsame hM

theorem step (hL : L ≤ maxkeylen) (hop : LenOk L op) :
    ∃ st' g', Radix.step st op = some st' ∧ TreeOk off L st' g' := by
  cases op with
  | add v netmask =>
    rcases hok.rnAddroute_spec hL hop.1 hop.2 with
      ⟨masks', g', h, hok', -⟩ | ⟨st', g', h, hok', -⟩
    · exact ⟨_, g', by rw [Radix.step, h]; rfl, hok'⟩
    · exact ⟨st', g', by rw [Radix.step, h]; rfl, hok'⟩
  | delete v netmask =>
    obtain ⟨mask, hmask⟩ := hok.masks.exists_deleteMask netmask
    obtain ⟨t, ht, -, ⟨h, -⟩ | ⟨-, e, he, -, h⟩⟩ :=
      rnDelete_eval hok.shape hok.chains hL hop hmask
    · exact ⟨st, g, by rw [Radix.step, h]; rfl, hok⟩
    cases hroot : st.tree.leafRoot e with
    | true =>
      rw [deleteFound_root hok.chains ht he hroot] at h
      exact ⟨st, g, by rw [Radix.step, h]; rfl, hok⟩
    | false =>
      obtain ⟨st', g', hdel, hok', -⟩ := hok.deleteFound_spec hL ht he hroot
      rw [hdel] at h
      exact ⟨st', g', by rw [Radix.step, h]; rfl, hok'⟩

end TreeOk

theorem run_treeOk (hok : TreeOk off L st g) (hL : L ≤ maxkeylen) (hops : ∀ op ∈ ops, LenOk L op) :
    ∃ st' g', run st ops = some st' ∧ TreeOk off L st' g' := by
  induction ops generalizing st g with
  | nil => exact ⟨st, g, rfl, hok⟩
  | cons op ops ih =>
    obtain ⟨hop, hrest⟩ := forall_mem_cons.mp hops
    obtain ⟨st', g', hstep, hok'⟩ := hok.step hL hop
    obtain ⟨st'', g'', hrun, hok''⟩ := ih hok' hrest
    exact ⟨st'', g'', by rw [run, hstep]; exact hrun, hok''⟩

/-! ## The map -/

/-- The entry `e` is the route with this key and this mask. -/
def IsRoute (off L : ℕ) (st : State) (v : Key) (netmask : Option Key) (e : ℕ) : Prop :=
  IsEntry st.tree e ∧ SameBytes off L v (st.tree.leafKey e) ∧
    SameMask st.masks netmask (st.tree.leafMask e)

/-- The leaf has kept its key and its mask. -/
def Unchanged (st st' : State) (a : ℕ) : Prop :=
  st'.tree.leafKey a = st.tree.leafKey a ∧ st'.tree.leafMask a = st.tree.leafMask a ∧
    ∀ M, st.tree.leafMask a = some M → st'.masks.leafKey M = st.masks.leafKey M

/-- `rn_addroute` fails exactly if the route is there, and otherwise adds exactly that route.
Source: rn_addroute -/
def AddOk (off L : ℕ) (st : State) (v : Key) (netmask : Option Key) : Prop :=
  ∃ st' r, rnAddroute st v netmask = some (st', r) ∧ (∀ a, IsEntry st.tree a → Unchanged st st' a) ∧
    (r = none ∧ (∃ e, IsRoute off L st v netmask e) ∧ (∀ a, IsEntry st'.tree a ↔ IsEntry st.tree a) ∨
      ∃ e, r = some e ∧ (¬ ∃ e, IsRoute off L st v netmask e) ∧ ¬ IsEntry st.tree e ∧
        (∀ a, IsEntry st'.tree a ↔ IsEntry st.tree a ∨ a = e) ∧ IsRoute off L st' v netmask e)

/-- `rn_delete` removes exactly the route if it is there, and otherwise returns 0 and leaves every
entry in place.
Source: rn_delete -/
def DeleteOk (off L : ℕ) (st : State) (v : Key) (netmask : Option Key) : Prop :=
  ∃ st' r, rnDelete st v netmask = some (st', r) ∧ (∀ a, IsEntry st'.tree a → Unchanged st st' a) ∧
    (r = none ∧ (¬ ∃ e, IsRoute off L st v netmask e) ∧ (∀ a, IsEntry st'.tree a ↔ IsEntry st.tree a) ∨
      ∃ e, r = some e ∧ IsRoute off L st v netmask e ∧
        ∀ a, IsEntry st'.tree a ↔ IsEntry st.tree a ∧ a ≠ e)

/-- The route is one to a host, and its key that of a leaf of `rn_inithead`.
Source: rn_addroute, rn_inithead -/
def LikeRoot (off L : ℕ) (v : Key) (netmask : Option Key) : Prop :=
  netmask = none ∧ ((∀ i, off ≤ i → i < L → v i = 0) ∨ ∀ i, off ≤ i → i < L → v i = 0xff)

/-- There is an entry with the key and another mask that `rn_delete` takes for the route: the only
leaf with this key, or the one at whose mask the search for the netmask ends.
Source: rn_delete -/
def Mistaken (off L : ℕ) (st : State) (v : Key) (netmask : Option Key) : Prop :=
  ∃ e, IsEntry st.tree e ∧ SameBytes off L v (st.tree.leafKey e) ∧
    ¬ SameMask st.masks netmask (st.tree.leafMask e) ∧
    ((∀ a, Reaches st.tree (.leaf a) → SameBytes off L v (st.tree.leafKey a) → a = e) ∨
      ∃ m M, netmask = some m ∧ st.tree.leafMask e = some M ∧
        rnSearch st.masks m depthFuel (.node 0) = some M)

namespace TreeOk

variable (hok : TreeOk off L st g)

include hok

theorem eq_of_sameMask (ha : a ∈ g.routes) (he : e ∈ g.routes)
    (hka : SameBytes off L v (st.tree.leafKey a)) (hke : SameBytes off L v (st.tree.leafKey e))
    (hma : SameMask st.masks netmask (st.tree.leafMask a))
    (hme : SameMask st.masks netmask (st.tree.leafMask e)) : a = e := by
  obtain ⟨mask, hmask⟩ := hok.masks.exists_deleteMask netmask
  refine hok.unique ha he (fun i h1 h2 => ?_) ?_
  · rw [← hka i h1 h2, hke i h1 h2]
  · rw [hok.deleteMask_eq ha hma hmask, hok.deleteMask_eq he hme hmask]

theorem likeRoot_iff : LikeRoot off L v netmask ↔ ∃ e ∈ g.routes, st.tree.leafRoot e = true ∧
    SameBytes off L v (st.tree.leafKey e) ∧ SameMask st.masks netmask (st.tree.leafMask e) := by
  have hs := hok.shape
  have hc := hok.chains
  have h0 := hc.mem_routes hs.zeros_mem
  have h1 := hc.mem_routes hs.ones_mem
  constructor
  · rintro ⟨rfl, hz | ho⟩
    · refine ⟨0, h0, (hok.root_iff h0).mpr (.inl rfl), fun i h₁ h2 => ?_, ?_⟩
      · rw [hz i h₁ h2, hs.zeros_key]
        rfl
      · rw [hc.root_mask (.inl rfl)]
        trivial
    · refine ⟨1, h1, (hok.root_iff h1).mpr (.inr rfl), fun i h₁ h2 => ?_, ?_⟩
      · rw [ho i h₁ h2, hs.ones_key]
        rfl
      · rw [hc.root_mask (.inr rfl)]
        trivial
  · rintro ⟨e, he, hroot, hkey, hsm⟩
    have h01 := (hok.root_iff he).mp hroot
    rw [hc.root_mask h01] at hsm
    refine ⟨?_, ?_⟩
    · cases netmask with
      | none => rfl
      | some m => exact absurd hsm id
    · rcases h01 with rfl | rfl
      · refine .inl fun i h₁ h2 => ?_
        rw [hkey i h₁ h2, hs.zeros_key]
        rfl
      · refine .inr fun i h₁ h2 => ?_
        rw [hkey i h₁ h2, hs.ones_key]
        rfl

theorem addOk_iff (hL : L ≤ maxkeylen) (hlen : vlen v = L)
    (hnm : ∀ m, netmask = some m → vlen m ≤ maxkeylen) :
    AddOk off L st v netmask ↔ ¬ LikeRoot off L v netmask := by
  rw [hok.likeRoot_iff]
  rcases hok.rnAddroute_spec hL hlen hnm with
    ⟨masks', g', h, hok', -, hmore, e, he, hkey, hsm⟩ | ⟨st', g', h, hok', hadd, hmore, hnew⟩
  · have hunchanged : ∀ a, IsEntry st.tree a → Unchanged st ⟨st.tree, masks'⟩ a := fun a ha =>
      ⟨rfl, rfl, fun M hM => hmore.leafKey M (hok.mask (hok.isEntry_iff.mp ha).1 hM).1⟩
    constructor
    · -- the leaf found is an entry, and there is no other one
      rintro ⟨st'', r, h', -, ⟨-, ⟨a, ha, hka, hma⟩, -⟩ | ⟨b, hb, -⟩⟩ ⟨c, hc, hroot, hkc, hmc⟩
      · have hac := hok.eq_of_sameMask (hok.isEntry_iff.mp ha).1 hc hka hkc hma hmc
        rw [← hac, ha.2] at hroot
        exact absurd hroot nofun
      · rw [h] at h'
        have hr := congrArg Prod.snd (some.inj h')
        rw [hb] at hr
        exact absurd hr nofun
    · intro hno
      have hroot : st.tree.leafRoot e = false :=
        Bool.eq_false_iff.mpr fun hr => hno ⟨e, he, hr, hkey, hsm⟩
      exact ⟨_, none, h, hunchanged,
        .inl ⟨rfl, ⟨e, hok.isEntry_iff.mpr ⟨he, hroot⟩, hkey, hsm⟩, fun _ => Iff.rfl⟩⟩
  · constructor
    · rintro - ⟨e, he, -, hkey, hsm⟩
      exact hnew e he ⟨hkey, hsm⟩
    · intro _
      have hentry : ∀ a, IsEntry st'.tree a ↔ IsEntry st.tree a ∨ a = st.tree.fresh := by
        intro a
        rw [hok'.isEntry_iff, hok.isEntry_iff, hadd.routes]
        constructor
        · rintro ⟨rfl | ha, hroot⟩
          · exact .inr rfl
          · exact .inl ⟨ha, (hadd.old ha).2.2 ▸ hroot⟩
        · rintro (⟨ha, hroot⟩ | rfl)
          · exact ⟨.inr ha, (hadd.old ha).2.2.trans hroot⟩
          · exact ⟨.inl rfl, hadd.root⟩
      refine ⟨st', some st.tree.fresh, h, fun a ha => ?_, .inr ⟨_, rfl, ?_, ?_, hentry, ?_⟩⟩
      · have ha' := (hok.isEntry_iff.mp ha).1
        exact ⟨(hadd.old ha').1, (hadd.old ha').2.1, fun M hM => hmore.leafKey M (hok.mask ha' hM).1⟩
      · rintro ⟨a, ha, hka, hma⟩
        exact hnew a (hok.isEntry_iff.mp ha).1 ⟨hka, hma⟩
      · exact fun ha => hadd.notMem (hok.isEntry_iff.mp ha).1
      · refine ⟨(hentry _).mpr (.inr rfl), fun i _ _ => by rw [hadd.key], ?_⟩
        cases hM : st'.tree.leafMask st.tree.fresh with
        | none =>
          rw [hadd.nomask hM]
          trivial
        | some M =>
          obtain ⟨m, rfl, hkey⟩ := hadd.mask M hM
          exact fun i _ => by rw [hkey]

theorem deleteOk_iff (hL : L ≤ maxkeylen) (hlen : vlen v = L) :
    DeleteOk off L st v netmask ↔ ¬ Mistaken off L st v netmask := by
  have hs := hok.shape
  have hc := hok.chains
  obtain ⟨mask, hmask⟩ := hok.masks.exists_deleteMask netmask
  obtain ⟨t, ht, hfind, hcases⟩ := rnDelete_eval hs hc hL hlen hmask
  -- a leaf with the key is in the chain of the leaf found
  have hmem : ∀ {a}, a ∈ g.routes → SameBytes off L v (st.tree.leafKey a) →
      a ∈ g.chain t ∧ SameBytes off L v (st.tree.leafKey t) := by
    rintro a ⟨j, hj, ha⟩ hkey
    have hkj : SameBytes off L v (st.tree.leafKey j) := fun i h1 h2 => by
      rw [hkey i h1 h2, hc.key hj ha i h1 h2]
    obtain rfl : t = j := hfind.unique
      (hs.finds_self hj (agree_mul_iff.mpr fun i h1 h2 => (hkj i h1 h2).symm))
    exact ⟨ha, hkj⟩
  have hkeep : ∀ a, IsEntry st.tree a → Unchanged st st a := fun a _ => ⟨rfl, rfl, fun _ _ => rfl⟩
  -- a call that finds nothing is right if there is no such route
  have hnone : rnDelete st v netmask = some (st, none) →
      ((¬ ∃ e, IsRoute off L st v netmask e) ↔ DeleteOk off L st v netmask) := by
    intro h
    constructor
    · exact fun hno => ⟨st, none, h, hkeep, .inl ⟨rfl, hno, fun _ => Iff.rfl⟩⟩
    · rintro ⟨st', r, h', -, ⟨-, hno, -⟩ | ⟨e, hr, -⟩⟩
      · exact hno
      · rw [h] at h'
        have hr' := congrArg Prod.snd (some.inj h')
        rw [hr] at hr'
        cases hr'
  rcases hcases with ⟨h, hlong⟩ | ⟨hsame, e, he, hpick, h⟩
  · -- no leaf has been found
    have hno : ¬ ∃ e, IsRoute off L st v netmask e := by
      rintro ⟨a, ha, hka, hma⟩
      have ha' := (hok.isEntry_iff.mp ha).1
      obtain ⟨hat, hsame⟩ := hmem ha' hka
      exact (hlong hsame).2 a hat (hok.deleteMask_eq ha' hma hmask)
    refine iff_of_true ((hnone h).mp hno) ?_
    rintro ⟨a, ha, hka, hma, hcase⟩
    have ha' := (hok.isEntry_iff.mp ha).1
    obtain ⟨hat, hsame⟩ := hmem ha' hka
    obtain ⟨hlen', hnot⟩ := hlong hsame
    rcases hcase with honly | ⟨m, M, rfl, hM, hsearch⟩
    · -- there are several leaves with the key
      have hone : ∀ b ∈ g.chain t, b = a := fun b hb =>
        honly b ((reaches_iff hs hc).mpr ⟨t, ht, hb⟩) fun i h1 h2 => by
          rw [hsame i h1 h2, hc.key ht hb i h1 h2]
      have hnd := (hc.linked ht).nodup
      obtain ⟨b, l, hl⟩ : ∃ b l, g.chain t = b :: l := ⟨t, (hc.eq_cons ht).imp fun _ h => h.1⟩
      rw [hl] at hlen' hnd hone
      cases l with
      | nil => exact absurd hlen' (Nat.lt_irrefl _)
      | cons c l =>
        refine (nodup_cons.mp hnd).1 ?_
        rw [hone b (mem_cons_self ..), ← hone c (mem_cons_of_mem _ (mem_cons_self ..))]
        exact mem_cons_self ..
    · rw [deleteMask, hsearch] at hmask
      exact hnot a hat (hM.trans (some.inj hmask))
  · have her : e ∈ g.routes := ⟨t, ht, he⟩
    have hke : SameBytes off L v (st.tree.leafKey e) := fun i h1 h2 => by
      rw [hsame i h1 h2, hc.key ht he i h1 h2]
    -- any leaf with the key that the call could take is the one it has found
    have honly : ∀ {a}, a ∈ g.routes → SameBytes off L v (st.tree.leafKey a) →
        st.tree.leafMask a = mask ∨ (∀ b, Reaches st.tree (.leaf b) →
          SameBytes off L v (st.tree.leafKey b) → b = a) → a = e := by
      rintro a ha hka (hM | hall)
      · rcases hpick with hone | ⟨-, hMe⟩
        · have hat := (hmem ha hka).1
          rw [hone, mem_singleton] at hat he
          rw [hat, he]
        · exact hok.unique ha her (fun i h1 h2 => by rw [← hka i h1 h2, hke i h1 h2])
            (hM.trans hMe.symm)
      · exact (hall e ((reaches_iff hs hc).mpr her) hke).symm
    cases hroot : st.tree.leafRoot e with
    | true =>
      rw [deleteFound_root hc ht he hroot] at h
      have hno : ¬ ∃ e, IsRoute off L st v netmask e := by
        rintro ⟨a, ha, hka, hma⟩
        have ha' := (hok.isEntry_iff.mp ha).1
        have hae := honly ha' hka (.inl (hok.deleteMask_eq ha' hma hmask))
        rw [← hae, ha.2] at hroot
        cases hroot
      refine iff_of_true ((hnone h).mp hno) ?_
      rintro ⟨a, ha, hka, -, hcase⟩
      have ha' := (hok.isEntry_iff.mp ha).1
      have hae : a = e := honly ha' hka (by
        rcases hcase with hall | ⟨m, M, rfl, hM, hsearch⟩
        · exact .inr hall
        · rw [deleteMask, hsearch] at hmask
          exact .inl (hM.trans (some.inj hmask)))
      rw [← hae, ha.2] at hroot
      cases hroot
    | false =>
      obtain ⟨st', g', hdel, hok', hd⟩ := hok.deleteFound_spec hL ht he hroot
      rw [hdel] at h
      have hentry : ∀ a, IsEntry st'.tree a ↔ IsEntry st.tree a ∧ a ≠ e := by
        intro a
        rw [hok'.isEntry_iff, hok.isEntry_iff, hd.routes, hd.leaves.leafRoot]
        constructor
        · rintro ⟨⟨h1, h2⟩, h3⟩
          exact ⟨⟨h1, h3⟩, h2⟩
        · rintro ⟨⟨h1, h3⟩, h2⟩
          exact ⟨⟨h1, h2⟩, h3⟩
      have hentrye : IsEntry st.tree e := hok.isEntry_iff.mpr ⟨her, hroot⟩
      constructor
      · rintro ⟨st'', r, h', -, ⟨hr, -⟩ | ⟨b, hr, hb, -⟩⟩ ⟨a, ha, hka, hma, hcase⟩
        · rw [h] at h'
          have hr' := congrArg Prod.snd (some.inj h')
          rw [hr] at hr'
          cases hr'
        · rw [h] at h'
          have hr' := congrArg Prod.snd (some.inj h')
          obtain rfl : e = b := some.inj (hr'.trans hr)
          have ha' := (hok.isEntry_iff.mp ha).1
          have hae : a = e := honly ha' hka (by
            rcases hcase with hall | ⟨m, M, rfl, hM, hsearch⟩
            · exact .inr hall
            · rw [deleteMask, hsearch] at hmask
              exact .inl (hM.trans (some.inj hmask)))
          exact hma (hae ▸ hb.2.2)
      · intro hno
        refine ⟨st', some e, h, fun a ha => ?_, .inr ⟨e, rfl, ⟨hentrye, hke, ?_⟩, hentry⟩⟩
        · exact ⟨congrFun hd.leaves.leafKey a, congrFun hd.leaves.leafMask a, fun M _ => by
            rw [hd.masks]⟩
        · by_contra hsm
          refine hno ⟨e, hentrye, hke, hsm, ?_⟩
          rcases hpick with hone | ⟨-, hMe⟩
          · refine .inl fun b hb hkb => ?_
            have hbt := (hmem ((reaches_iff hs hc).mp hb) hkb).1
            rw [hone, mem_singleton] at hbt he
            rw [hbt, he]
          cases netmask with
          | none =>
            obtain rfl := some.inj hmask
            rw [hMe] at hsm
            exact absurd trivial hsm
          | some m =>
            rw [deleteMask] at hmask
            cases hsearch : rnSearch st.masks m depthFuel (.node 0) with
            | none =>
              rw [hsearch] at hmask
              cases hmask
            | some M =>
              rw [hsearch] at hmask
              exact .inr ⟨m, M, rfl, hMe.trans (some.inj hmask).symm, hsearch⟩

end TreeOk

/-- **The tree as a map.** In every state of every run, for all arguments: there is at most one entry
with a key and a mask; `rn_addroute` does what it should except for a host route like one of the
leaves of `rn_inithead`; and `rn_delete` does except where an entry with another mask is taken for the
route. Kind: P. -/
theorem map_iff (hoff : off < L) (hL : L ≤ maxkeylen) (hops : ∀ op ∈ ops, LenOk L op) :
    ∃ st, run (initial off) ops = some st ∧ ∀ v netmask, vlen v = L →
      (∀ a e, IsRoute off L st v netmask a → IsRoute off L st v netmask e → a = e) ∧
      ((∀ m, netmask = some m → vlen m ≤ maxkeylen) →
        (AddOk off L st v netmask ↔ ¬ LikeRoot off L v netmask)) ∧
      (DeleteOk off L st v netmask ↔ ¬ Mistaken off L st v netmask) := by
  obtain ⟨st, g, hrun, hok⟩ := run_treeOk (treeOk_initial hoff) hL hops
  refine ⟨st, hrun, fun v netmask hlen => ⟨?_, hok.addOk_iff hL hlen, hok.deleteOk_iff hL hlen⟩⟩
  rintro a e ⟨ha, hka, hma⟩ ⟨he, hke, hme⟩
  exact hok.eq_of_sameMask (hok.isEntry_iff.mp ha).1 (hok.isEntry_iff.mp he).1 hka hke hma hme

/-- The condition of `map_iff` at a route to a network. Kind: C. -/
theorem map_iff_single :
    ∃ st, run (initial 4) [.add (inet 10 0 0 0) (some classA)] = some st ∧ ∀ v netmask, vlen v = 8 →
      (∀ a e, IsRoute 4 8 st v netmask a → IsRoute 4 8 st v netmask e → a = e) ∧
      ((∀ m, netmask = some m → vlen m ≤ maxkeylen) →
        (AddOk 4 8 st v netmask ↔ ¬ LikeRoot 4 8 v netmask)) ∧
      (DeleteOk 4 8 st v netmask ↔ ¬ Mistaken 4 8 st v netmask) := by
  refine map_iff (by decide) (by decide) (forall_mem_cons.mpr ⟨⟨by decide +kernel, ?_⟩, nofun⟩)
  intro m hm
  obtain rfl := some.inj hm
  decide +kernel

/-- **The wrong entry.** The route to 10.0.0.0 with the mask of one byte is the only entry, and a call
to delete the one with the mask of two bytes removes it.
Source: rn_delete Kind: C -/
theorem not_forall_map :
    ¬ ∀ (off L : ℕ) (ops : List Op), off < L → L ≤ maxkeylen → (∀ op ∈ ops, OpOk off L op) →
      ∀ st, run (initial off) ops = some st → ∀ v netmask, vlen v = L →
        (∀ m, netmask = some m → vlen m ≤ maxkeylen) →
        AddOk off L st v netmask ∧ DeleteOk off L st v netmask := by
  intro hall
  obtain ⟨ops, hops⟩ : ∃ ops, [Op.add (inet 10 0 0 0) (some classA)] = ops := ⟨_, rfl⟩
  obtain ⟨netmask, hnm⟩ : ∃ m : Key, (fun i => [6, 0, 0, 0, 0xff, 0xff].getD i 0) = m := ⟨_, rfl⟩
  have hopok : ∀ op ∈ ops, OpOk 4 8 op := by
    rw [← hops]
    exact forall_mem_cons.mpr ⟨safeRun_single.1, nofun⟩
  obtain ⟨st, hrun⟩ : ∃ st, run (initial 4) ops = some st :=
    isSome_iff_exists.mp (by rw [← hops]; decide +kernel)
  have hdel : ((run (initial 4) ops).bind fun st => (rnDelete st (inet 10 0 0 0) (some netmask)).map
      Prod.snd) = some (some 2) := by
    rw [← hops, ← hnm]
    decide +kernel
  have hmask : (run (initial 4) ops).map (fun st => (st.tree.leafMask 2, st.masks.leafKey 2 5)) =
      some (some 2, 0) := by
    rw [← hops]
    decide +kernel
  rw [hrun] at hdel hmask
  simp only [map_some, some.injEq, Prod.mk.injEq, bind_some] at hdel hmask
  obtain ⟨-, st', r, h, -, hcases⟩ := hall 4 8 ops (by decide) (by decide) hopok st hrun
    (inet 10 0 0 0) (some netmask) (by decide +kernel) fun m hm => by
      obtain rfl := some.inj hm
      rw [← hnm]
      decide +kernel
  rw [h] at hdel
  obtain rfl : r = some 2 := some.inj hdel
  rcases hcases with ⟨hr, -⟩ | ⟨e, he, ⟨-, -, hsm⟩, -⟩
  · exact absurd hr nofun
  obtain rfl := some.inj he
  rw [hmask.1] at hsm
  have hbyte := hsm 5 (by decide)
  rw [hmask.2, ← hnm] at hbyte
  exact absurd hbyte (by decide +kernel)

end Bsd386.Net.Radix
