import Bsd386.Kern.Proc.Fork

/-!
# The members of groups and the hash table of groups

`Groups k P mem chain`: the lists from `pg_mem` hold exactly the processes of `P`, each in the list
`mem g` of the group `g` that its `p_pgrp` names, and the chains from `pgrphash` hold exactly the
allocated groups.
-/

namespace Bsd386.Kern.Proc

open Function List Lib.Linked Kernel

/-- The lists of members and the hash chains.
Source: proc.h (pgrp) -/
structure Groups (k : Kernel) (P : Set Ptr) (mem : Ptr → List Ptr) (chain : ℤ → List Ptr) :
    Prop where
  mems : Family k.pPgrpnxt k.pgMem {g | g ∈ k.pgrps} P mem
  grp_eq {g p : Ptr} : g ∈ k.pgrps → p ∈ mem g → k.pPgrp p = g
  grp_mem {p : Ptr} : p ∈ P → k.pPgrp p ∈ k.pgrps ∧ p ∈ mem (k.pPgrp p)
  placed {p : Ptr} : p ∈ P → p ∈ k.procs
  chains : Family k.pgHforw k.pgrphash Set.univ {g | g ∈ k.pgrps} chain
  chain_mem {g : Ptr} : g ∈ k.pgrps → g ∈ chain (k.pidHash (k.pgId g))
  chain_hash {g : Ptr} {b : ℤ} : g ∈ chain b → k.pidHash (k.pgId g) = b

/-- Without a group, its place on the hash chain apart. Source: pgdelete -/
def Kernel.withoutPgrp (k : Kernel) (g : Ptr) : Kernel :=
  { k with
    sCount := update k.sCount (k.pgSession g) (k.sCount (k.pgSession g) - 1)
    sessions := if k.sCount (k.pgSession g) - 1 = 0 then k.sessions.erase (k.pgSession g)
      else k.sessions
    pgrps := k.pgrps.erase g }

/-- With other links of the lists of members and of the hash chains. -/
def Kernel.setLinks (k : Kernel) (n m f : Ptr → Option Ptr) (b : ℤ → Option Ptr) : Kernel :=
  { k with pPgrpnxt := n, pgMem := m, pgHforw := f, pgrphash := b }

/-- With `p` in the group `g`, and without its old group when `p` was the last of its members; the
links apart. Source: enterpgrp -/
def Kernel.regrouped (k : Kernel) (p g : Ptr) (last : Prop) [Decidable last] : Kernel :=
  { (if last then k.withoutPgrp (k.pPgrp p) else k) with
    pPgrp := update k.pPgrp p g }

theorem Kernel.regrouped_cases (k : Kernel) (p g : Ptr) (last : Prop) [Decidable last] :
    ∃ c ss gs, k.regrouped p g last = { k with
        sCount := c
        sessions := ss
        pgrps := gs
        pPgrp := update k.pPgrp p g } ∧
      (last ∧ gs = k.pgrps.erase (k.pPgrp p) ∧ ss = (k.withoutPgrp (k.pPgrp p)).sessions ∧
          c = (k.withoutPgrp (k.pPgrp p)).sCount ∨
        ¬ last ∧ gs = k.pgrps ∧ ss = k.sessions ∧ c = k.sCount) := by
  unfold regrouped
  by_cases hlast : last
  · rw [if_pos hlast]
    exact ⟨_, _, _, rfl, .inl ⟨hlast, rfl, rfl, rfl⟩⟩
  · rw [if_neg hlast]
    exact ⟨_, _, _, rfl, .inr ⟨hlast, rfl, rfl, rfl⟩⟩

namespace Groups

variable {k : Kernel} {P : Set Ptr} {mem : Ptr → List Ptr} {chain : ℤ → List Ptr} {p g a sa : Ptr}

section

variable (h : Groups k P mem chain)
include h

theorem length_lt (hg : g ∈ k.pgrps) : (mem g).length < k.bound := by
  have hsub : mem g ⊆ k.procs := fun p hp => h.placed (h.mems.mem hg hp)
  have hle := ((h.mems.linked hg).nodup.subperm hsub).length_le
  exact Nat.lt_succ_of_le hle

theorem chain_length_lt (b : ℤ) :
    (chain b).length < k.pgrps.card + 1 := by
  have hlinked := h.chains.linked (Set.mem_univ b)
  have hsub : (chain b).toFinset ⊆ k.pgrps := by
    intro g hg
    exact h.chains.mem (Set.mem_univ b) (mem_toFinset.mp hg)
  have hle := Finset.card_le_card hsub
  rw [toFinset_card_of_nodup hlinked.nodup] at hle
  exact Nat.lt_succ_of_le hle

theorem pgfind_eq (pgid : ℤ) :
    ∃ r, k.pgfind pgid = some r ∧ (∀ g, r = some g → g ∈ k.pgrps ∧ k.pgId g = pgid) ∧
      (r = none → ∀ g ∈ k.pgrps, k.pgId g ≠ pgid) := by
  have hlinked := h.chains.linked (Set.mem_univ (k.pidHash pgid))
  obtain ⟨pre, post, hsplit, hpre, hpost, hwalk⟩ :=
    walk_spec (k.pgId · == pgid) hlinked (h.chain_length_lt _) none
  refine ⟨post.head?, by rw [pgfind, hwalk, Option.map_some], ?_, ?_⟩
  · intro g hg
    have hmem : g ∈ chain (k.pidHash pgid) := by
      rw [hsplit]
      exact mem_append_right _ (mem_of_head? hg)
    exact ⟨h.chains.mem (Set.mem_univ _) hmem, by simpa using hpost g hg⟩
  · intro hnone g hg heq
    obtain rfl : post = [] := by simpa using hnone
    have hmem := h.chain_mem hg
    rw [heq, hsplit, append_nil] at hmem
    exact absurd (hpre g hmem) (by simp [heq])

theorem newPgrp (ha : a ∉ k.pgrps) (pgid : ℤ) (mksess : Bool) :
    Groups (k.newPgrp p pgid mksess a sa) P (update mem a [])
      (update chain (k.pidHash pgid) (a :: chain (k.pidHash pgid))) := by
  obtain ⟨k', hk', hpgrps, hid, hforw, hhash, hmem, hnxt, hgrp, hprocs, hmask⟩ :
      ∃ k', k.newPgrp p pgid mksess a sa = k' ∧ k'.pgrps = insert a k.pgrps ∧
        k'.pgId = update k.pgId a pgid ∧
        k'.pgHforw = update k.pgHforw a (k.pgrphash (k.pidHash pgid)) ∧
        k'.pgrphash = update k.pgrphash (k.pidHash pgid) (some a) ∧
        k'.pgMem = update k.pgMem a none ∧ k'.pPgrpnxt = k.pPgrpnxt ∧
        k'.pPgrp = k.pPgrp ∧ k'.procs = k.procs ∧ k'.pidhashmask = k.pidhashmask := by
    cases mksess <;> exact ⟨_, rfl, rfl, rfl, rfl, rfl, rfl, rfl, rfl, rfl, rfl⟩
  rw [hk']
  have hset : {g | g ∈ k'.pgrps} = Insert.insert a {g | g ∈ k.pgrps} := by
    ext g
    simp [hpgrps]
  have hpid : k'.pidHash = k.pidHash := by
    funext pid
    simp only [pidHash, hmask]
  have hne {g : Ptr} (hg : g ∈ k.pgrps) : g ≠ a := ne_of_mem_of_not_mem hg ha
  have hcases {g : Ptr} (hg : g ∈ k'.pgrps) : g = a ∨ g ∈ k.pgrps := by simpa [hpgrps] using hg
  constructor
  · rw [hset, hnxt, hmem]
    refine (h.mems.congr_head fun g hg => ?_).insert ha (update_self _ _ _)
    exact update_of_ne (hne hg) _ _
  · intro g q hg hq
    rw [hgrp]
    rcases hcases hg with rfl | hg
    · rw [update_self] at hq
      exact absurd hq not_mem_nil
    · rw [update_of_ne (hne hg)] at hq
      exact h.grp_eq hg hq
  · intro q hq
    obtain ⟨hg, hm⟩ := h.grp_mem hq
    rw [hgrp, hpgrps, update_of_ne (hne hg)]
    exact ⟨Finset.mem_insert_of_mem hg, hm⟩
  · intro q hq
    rw [hprocs]
    exact h.placed hq
  · rw [hset, hforw, hhash]
    exact h.chains.push ha (k.pidHash pgid)
  · intro g hg
    rw [hpid, hid]
    rcases hcases hg with rfl | hg
    · rw [update_self, update_self]
      exact mem_cons_self
    rw [update_of_ne (hne hg)]
    by_cases hb : k.pidHash (k.pgId g) = k.pidHash pgid
    · rw [hb, update_self, ← hb]
      exact mem_cons_of_mem _ (h.chain_mem hg)
    · rw [update_of_ne hb]
      exact h.chain_mem hg
  · intro g b hg
    rw [hpid, hid]
    have hold (hg : g ∈ chain b) : k.pidHash (update k.pgId a pgid g) = b := by
      rw [update_of_ne (hne (h.chains.mem (Set.mem_univ _) hg))]
      exact h.chain_hash hg
    by_cases hb : b = k.pidHash pgid
    · subst hb
      rw [update_self] at hg
      rcases mem_cons.mp hg with rfl | hg
      · rw [update_self]
      · exact hold hg
    · rw [update_of_ne hb] at hg
      exact hold hg

theorem unlinkMem (hp : p ∈ P) :
    ∃ n m, k.unlinkMem p = some { k with pPgrpnxt := n, pgMem := m } ∧
      Groups { k with pPgrpnxt := n, pgMem := m } (P \ {p})
        (update mem (k.pPgrp p) ((mem (k.pPgrp p)).erase p)) chain := by
  obtain ⟨hg, hmem⟩ := h.grp_mem hp
  have hlinked := h.mems.linked hg
  obtain ⟨pre, post, hsplit, hwalk⟩ := hlinked.walk_eq_of_mem (h.length_lt hg) hmem
  refine ⟨_, _, by rw [Kernel.unlinkMem, hwalk]; rfl, ?_⟩
  have hunlink := h.mems.unlink hg hsplit
  have hsub {i q : Ptr} (hi : i ∈ k.pgrps)
      (hq : q ∈ update mem (k.pPgrp p) ((mem (k.pPgrp p)).erase p) i) :
      q ∈ mem i ∧ q ≠ p := by
    by_cases hip : i = k.pPgrp p
    · subst hip
      rw [update_self, hlinked.nodup.mem_erase_iff] at hq
      exact ⟨hq.2, hq.1⟩
    rw [update_of_ne hip] at hq
    refine ⟨hq, ?_⟩
    rintro rfl
    exact hip (h.grp_eq hi hq).symm
  constructor
  · exact hunlink
  · exact fun hi hq => h.grp_eq hi (hsub hi hq).1
  · rintro q ⟨hq, hqp⟩
    obtain ⟨hgq, hmq⟩ := h.grp_mem hq
    refine ⟨hgq, ?_⟩
    by_cases hqg : k.pPgrp q = k.pPgrp p
    · rw [hqg, update_self, hlinked.nodup.mem_erase_iff, ← hqg]
      exact ⟨hqp, hmq⟩
    · rw [update_of_ne hqg]
      exact hmq
  · exact fun hq => h.placed hq.1
  · exact h.chains
  · exact h.chain_mem
  · exact h.chain_hash

theorem pgdelete (hg : g ∈ k.pgrps) (hempty : mem g = []) :
    ∃ f b chain', k.pgdelete g = some { k.withoutPgrp g with pgHforw := f, pgrphash := b } ∧
      Groups { k.withoutPgrp g with pgHforw := f, pgrphash := b } P mem chain' := by
  have hlinked := h.chains.linked (Set.mem_univ (k.pidHash (k.pgId g)))
  have hmem := h.chain_mem hg
  obtain ⟨pre, post, hsplit, hwalk⟩ := hlinked.walk_eq_of_mem (h.chain_length_lt _) hmem
  refine ⟨_, _, update chain (k.pidHash (k.pgId g)) ((chain (k.pidHash (k.pgId g))).erase g),
    by rw [Kernel.pgdelete, hwalk]; rfl, ?_⟩
  have hunlink := h.chains.unlink (Set.mem_univ (k.pidHash (k.pgId g))) hsplit
  have hsub {i : Ptr} {b : ℤ} (hi : i ∈ update chain (k.pidHash (k.pgId g))
      ((chain (k.pidHash (k.pgId g))).erase g) b) : i ∈ chain b ∧ i ≠ g := by
    by_cases hb : b = k.pidHash (k.pgId g)
    · subst hb
      rw [update_self, hlinked.nodup.mem_erase_iff] at hi
      exact ⟨hi.2, hi.1⟩
    rw [update_of_ne hb] at hi
    refine ⟨hi, ?_⟩
    rintro rfl
    exact hb (h.chain_hash hi).symm
  have herased {i : Ptr} (hi : i ∈ k.pgrps.erase g) : i ∈ k.pgrps := Finset.mem_of_mem_erase hi
  constructor
  · exact h.mems.mono (fun _ _ => rfl) (Set.Subset.refl _) fun i hi => herased hi
  · exact fun hi hq => h.grp_eq (herased hi) hq
  · intro q hq
    obtain ⟨hgq, hmq⟩ := h.grp_mem hq
    refine ⟨Finset.mem_erase.mpr ⟨fun (heq : k.pPgrp q = g) => ?_, hgq⟩, hmq⟩
    rw [heq, hempty] at hmq
    exact absurd hmq not_mem_nil
  · exact h.placed
  · refine ⟨hunlink.linked, hunlink.disjoint, fun hb hi => ?_⟩
    exact Finset.mem_erase.mpr ⟨(hsub hi).2, h.chains.mem hb (hsub hi).1⟩
  · intro i hi
    have hmi := h.chain_mem (herased hi)
    change i ∈ update chain _ _ (k.pidHash (k.pgId i))
    by_cases hb : k.pidHash (k.pgId i) = k.pidHash (k.pgId g)
    · rw [hb] at hmi ⊢
      rw [update_self, hlinked.nodup.mem_erase_iff]
      exact ⟨Finset.ne_of_mem_erase hi, hmi⟩
    · rw [update_of_ne hb]
      exact hmi
  · exact fun hi => h.chain_hash (hsub hi).1

theorem linkMem (hp : p ∉ P) (hproc : p ∈ k.procs) (hg : g ∈ k.pgrps) :
    Groups (k.linkMem p g) (insert p P) (update mem g (p :: mem g)) chain := by
  have hne {q : Ptr} (hq : q ∈ P) : q ≠ p := ne_of_mem_of_not_mem hq hp
  have hmono : Family (update k.pPgrpnxt p (k.pgMem g)) k.pgMem {i | i ∈ k.pgrps}
      (insert p P) mem :=
    h.mems.mono (fun q hq => update_of_ne (hne hq) _ _) (Set.subset_insert _ _)
      (Set.Subset.refl _)
  have hlinked : Linked (update k.pPgrpnxt p (k.pgMem g)) (some p) (p :: mem g) := by
    refine ⟨rfl, ?_⟩
    rw [update_self]
    exact hmono.linked hg
  have hstore := hmono.store hg (nil_append _).symm hlinked
    (by
      rintro q (_ | ⟨_, hq⟩)
      · exact .inl rfl
      · exact .inr (h.mems.mem hg hq))
    (by simp) (Set.Subset.refl _)
    (by
      rintro i hi hig q hq (_ | ⟨_, hq'⟩)
      · exact hp (h.mems.mem hi hq)
      · exact hig (h.mems.disjoint hi hg hq hq'))
  constructor
  · exact hstore
  · intro i q hi hq
    have hold (hq : q ∈ mem i) : update k.pPgrp p g q = i := by
      rw [update_of_ne (hne (h.mems.mem hi hq))]
      exact h.grp_eq hi hq
    by_cases hig : i = g
    · subst hig
      rw [update_self] at hq
      rcases mem_cons.mp hq with rfl | hq
      · exact update_self _ _ _
      · exact hold hq
    · rw [update_of_ne hig] at hq
      exact hold hq
  · rintro q (rfl | hq)
    · change update k.pPgrp q g q ∈ k.pgrps ∧
        q ∈ update mem g _ (update k.pPgrp q g q)
      rw [update_self, update_self]
      exact ⟨hg, mem_cons_self⟩
    · change update k.pPgrp p g q ∈ k.pgrps ∧
        q ∈ update mem g _ (update k.pPgrp p g q)
      rw [update_of_ne (hne hq)]
      obtain ⟨hgq, hmq⟩ := h.grp_mem hq
      refine ⟨hgq, ?_⟩
      by_cases hqg : k.pPgrp q = g
      · rw [hqg, update_self, ← hqg]
        exact mem_cons_of_mem _ hmq
      · rw [update_of_ne hqg]
        exact hmq
  · rintro q (rfl | hq)
    · exact hproc
    · exact h.placed hq
  · exact h.chains
  · exact h.chain_mem
  · exact h.chain_hash

/-- **Moving** a process into another group, which deletes the old one when it was its only member. -/
theorem relinkTo (hp : p ∈ P) (hg : g ∈ k.pgrps) (hne : g ≠ k.pPgrp p) :
    ∃ n m f b chain',
      k.relinkTo p g = some ((k.regrouped p g ((mem (k.pPgrp p)).erase p = [])).setLinks n m f b) ∧
      Groups ((k.regrouped p g ((mem (k.pPgrp p)).erase p = [])).setLinks n m f b) P
        (update (update mem (k.pPgrp p) ((mem (k.pPgrp p)).erase p)) g
          (p :: mem g)) chain' := by
  obtain ⟨n, m, hunlink, h1⟩ := h.unlinkMem hp
  have hold := (h.grp_mem hp).1
  have hhead : m (k.pPgrp p) = ((mem (k.pPgrp p)).erase p).head? := by
    have hlinked := (h1.mems.linked hold).head_eq
    rwa [update_self] at hlinked
  have hback : insert p (P \ {p}) = P := Set.insert_sdiff_self_of_mem hp
  have hnotin : p ∉ P \ {p} := fun hp' => hp'.2 rfl
  have hgm : update mem (k.pPgrp p) ((mem (k.pPgrp p)).erase p) g = mem g :=
    update_of_ne hne _ _
  by_cases hempty : (mem (k.pPgrp p)).erase p = []
  · have hself : update mem (k.pPgrp p) ((mem (k.pPgrp p)).erase p) (k.pPgrp p) = [] := by
      rw [update_self, hempty]
    obtain ⟨f, b, chain', hdel, h2⟩ := h1.pgdelete hold hself
    have h3 := h2.linkMem hnotin (h.placed hp) (Finset.mem_erase.mpr ⟨hne, hg⟩)
    rw [hback, hgm] at h3
    refine ⟨update n p (m g), update m g (some p), f, b, chain', ?_, ?_⟩
    · rw [Kernel.relinkTo, hunlink, Option.bind_some, Kernel.dropEmpty,
        if_pos (by simp [hhead, hempty]), hdel, regrouped, if_pos hempty]
      rfl
    · rw [regrouped, if_pos hempty]
      exact h3
  · have h3 := h1.linkMem hnotin (h.placed hp) hg
    rw [hback, hgm] at h3
    refine ⟨update n p (m g), update m g (some p), k.pgHforw, k.pgrphash, chain, ?_, ?_⟩
    · rw [Kernel.relinkTo, hunlink, Option.bind_some, Kernel.dropEmpty,
        if_neg (by simpa [hhead] using hempty), regrouped, if_neg hempty]
      rfl
    · rw [regrouped, if_neg hempty]
      exact h3

theorem forkLink {p1 p2 : Ptr} (h2 : p2 ∉ k.procs) (junk : Junk) :
    Groups (k.forkLink p1 p2 junk) P mem chain := by
  have hgrp {q : Ptr} (hq : q ∈ P) : (k.forkLink p1 p2 junk).pPgrp q = k.pPgrp q :=
    update_of_ne (ne_of_mem_of_not_mem (h.placed hq) h2) _ _
  refine ⟨h.mems, fun hg hq => ?_, fun hq => ?_, fun hq => ?_, h.chains, h.chain_mem, h.chain_hash⟩
  · rw [hgrp (h.mems.mem hg hq)]
    exact h.grp_eq hg hq
  · rw [hgrp hq]
    exact h.grp_mem hq
  · exact mem_cons_of_mem _ (h.placed hq)

theorem forkAssign {p1 p2 : Ptr} (h1 : p1 ∈ P) (h2 : p2 ∉ P) (hproc : p2 ∈ k.procs)
    (hgrp : k.pPgrp p2 = k.pPgrp p1) :
    ∃ mem', Groups (k.forkAssign p1 p2) (insert p2 P) mem' chain ∧
      ∀ g, mem' g = [] → mem g = [] := by
  obtain ⟨hg, hmem⟩ := h.grp_mem h1
  obtain ⟨pre, post, hsplit⟩ := append_of_mem hmem
  have hne {q : Ptr} (hq : q ∈ P) : q ≠ p2 := ne_of_mem_of_not_mem hq h2
  have hlinked := h.mems.linked hg
  have hnodup := hlinked.nodup
  have hpost : ∀ q ∈ post, q ∈ mem (k.pPgrp p1) := by
    intro q hq
    rw [hsplit]
    exact mem_append_right _ (mem_cons_of_mem _ hq)
  have hmono : Family (update k.pPgrpnxt p2 (k.pPgrpnxt p1)) k.pgMem {i | i ∈ k.pgrps}
      (insert p2 P) mem :=
    h.mems.mono (fun q hq => update_of_ne (hne hq) _ _) (Set.subset_insert _ _)
      (Set.Subset.refl _)
  have hnext : Linked (update k.pPgrpnxt p2 (k.pPgrpnxt p1)) (some p2) (p2 :: post) := by
    refine ⟨rfl, ?_⟩
    rw [update_self]
    have htail : Linked k.pPgrpnxt (k.pPgrpnxt p1) post := by
      rw [hsplit] at hlinked
      exact hlinked.next_eq
    exact htail.congr fun q hq => update_of_ne (hne (h.mems.mem hg (hpost q hq))) _ _
  have hsplit' : mem (k.pPgrp p1) = (pre ++ [p1]) ++ post := by
    rw [hsplit, append_assoc, singleton_append]
  rw [hsplit'] at hnodup
  have hstore := hmono.store hg hsplit' hnext
    (by
      rintro q (_ | ⟨_, hq⟩)
      · exact .inl rfl
      · exact .inr (h.mems.mem hg (hpost q hq)))
    (by
      rintro q hq (_ | ⟨_, hq'⟩)
      · refine hne (h.mems.mem hg ?_) rfl
        rw [hsplit']
        exact mem_append_left _ hq
      · exact (nodup_append.mp hnodup).2.2 q hq q hq' rfl)
    (Set.Subset.refl _)
    (by
      rintro i hi hig q hq (_ | ⟨_, hq'⟩)
      · exact h2 (h.mems.mem hi hq)
      · exact hig (h.mems.disjoint hi hg hq (hpost q hq')))
  rw [getLast?_concat, relinkNext, relinkHead, update_eq_self] at hstore
  have hcases {i q : Ptr} (hi : i ∈ k.pgrps)
      (hq : q ∈ update mem (k.pPgrp p1) (pre ++ [p1] ++ p2 :: post) i) :
      q ∈ mem i ∨ q = p2 ∧ i = k.pPgrp p1 := by
    by_cases hig : i = k.pPgrp p1
    · rw [hig, update_self] at hq
      rw [hig, hsplit']
      rcases mem_append.mp hq with hq | hq
      · exact .inl (mem_append_left _ hq)
      · rcases mem_cons.mp hq with hq | hq
        · exact .inr ⟨hq, rfl⟩
        · exact .inl (mem_append_right _ hq)
    · rw [update_of_ne hig] at hq
      exact .inl hq
  refine ⟨update mem (k.pPgrp p1) (pre ++ [p1] ++ p2 :: post), ⟨hstore, ?_, ?_, ?_,
    h.chains, h.chain_mem, h.chain_hash⟩, ?_⟩
  · intro i q hi hq
    rcases hcases hi hq with hq | ⟨rfl, rfl⟩
    · exact h.grp_eq hi hq
    · exact hgrp
  · rintro q (rfl | hq)
    · change k.pPgrp q ∈ k.pgrps ∧ q ∈ update mem (k.pPgrp p1) _ (k.pPgrp q)
      rw [hgrp, update_self]
      exact ⟨hg, by simp⟩
    · obtain ⟨hgq, hmq⟩ := h.grp_mem hq
      refine ⟨hgq, ?_⟩
      change q ∈ update mem (k.pPgrp p1) _ (k.pPgrp q)
      by_cases hqg : k.pPgrp q = k.pPgrp p1
      · rw [hqg, hsplit'] at hmq
        rw [hqg, update_self]
        rcases mem_append.mp hmq with hmq | hmq
        · exact mem_append_left _ hmq
        · exact mem_append_right _ (mem_cons_of_mem _ hmq)
      · rw [update_of_ne hqg]
        exact hmq
  · rintro q (rfl | hq)
    · exact hproc
    · exact h.placed hq
  · intro i hi
    by_cases hig : i = k.pPgrp p1
    · rw [hig, update_self] at hi
      simp at hi
    · rwa [update_of_ne hig] at hi

end

end Groups

/-! ## The initial process -/

/-- The process `p` is alone, in the group `g` and the session `s`.
Source: nprocs, nextpid, pidchecked, proc.h -/
structure Initial (k : Kernel) (p g s : Ptr) : Prop where
  allproc : k.allproc = [p]
  zombproc : k.zombproc = []
  pgrps : k.pgrps = {g}
  sessions : k.sessions = {s}
  pPid : k.pPid p = 0
  pStat : k.pStat p ≠ .szomb
  pPgrp : k.pPgrp p = g
  pPgrpnxt : k.pPgrpnxt p = none
  pPptr : k.pPptr p = none
  pCptr : k.pCptr p = none
  pHash : k.pHash p = none
  pgId : k.pgId g = 0
  pgMem : k.pgMem g = some p
  pgHforw : k.pgHforw g = none
  pgSession : k.pgSession g = s
  pgJobc : k.pgJobc g = 0
  sCount : k.sCount s = 1
  sLeader : k.sLeader s = p
  pidhash : ∀ b, k.pidhash b = none ∨ b = 0 ∧ k.pidhash b = some p
  pgrphash : ∀ b, k.pgrphash b = if b = 0 then some g else none
  nprocs : k.nprocs = 1
  nextpid : k.nextpid = 0
  pidchecked : k.pidchecked = 0
  orphaned : k.orphaned = []

theorem Initial.groups {k : Kernel} {p g s : Ptr} (h : Initial k p g s) :
    Groups k {q | q ∈ k.procs} (fun _ => [p]) (fun b => if b = 0 then [g] else []) := by
  have hprocs : k.procs = [p] := by rw [procs, h.allproc, h.zombproc]; rfl
  have hpgrps {i : Ptr} (hi : i ∈ k.pgrps) : i = g := by
    rw [h.pgrps] at hi
    exact Finset.mem_singleton.mp hi
  have hg : g ∈ k.pgrps := by
    rw [h.pgrps]
    exact Finset.mem_singleton_self g
  have hp {q : Ptr} (hq : q ∈ k.procs) : q = p := by
    rw [hprocs] at hq
    exact mem_singleton.mp hq
  have hzero : k.pidHash (k.pgId g) = 0 := by
    rw [h.pgId, pidHash, Int.zero_emod]
  have hchain {b : ℤ} {i : Ptr} (hi : i ∈ (if b = 0 then [g] else [])) : b = 0 ∧ i = g := by
    by_cases hb : b = 0
    · rw [if_pos hb] at hi
      exact ⟨hb, mem_singleton.mp hi⟩
    · rw [if_neg hb] at hi
      exact absurd hi not_mem_nil
  constructor
  · constructor
    · intro i hi
      rw [hpgrps hi, h.pgMem]
      exact ⟨rfl, h.pPgrpnxt⟩
    · intro i j m hi hj _ _
      rw [hpgrps hi, hpgrps hj]
    · intro i m _ hm
      rw [hprocs]
      exact hm
  · intro i q hi hq
    rw [mem_singleton.mp hq, hpgrps hi]
    exact h.pPgrp
  · intro q hq
    rw [hp hq, h.pPgrp]
    exact ⟨hg, mem_singleton_self p⟩
  · exact fun hq => hq
  · constructor
    · intro b _
      rw [h.pgrphash]
      by_cases hb : b = 0
      · rw [if_pos hb, if_pos hb]
        exact ⟨rfl, h.pgHforw⟩
      · rw [if_neg hb, if_neg hb]
        rfl
    · intro b c m _ _ hb hc
      rw [(hchain hb).1, (hchain hc).1]
    · intro b m _ hm
      rw [(hchain hm).2]
      exact hg
  · intro i hi
    rw [hpgrps hi, hzero, if_pos rfl]
    exact mem_singleton_self g
  · intro i b hi
    rw [(hchain hi).1, (hchain hi).2, hzero]

end Bsd386.Kern.Proc
