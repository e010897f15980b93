import Bsd386.Kern.Proc.Jobs

/-!
# What moves between groups leave alone

`enterpgrp` and `leavepgrp` of a process whose family may be anything: if they return, the lists of
members are as they should be, and the identifiers of processes and of the groups that stay are the
same (`Groups.enterpgrp_frame`, `Groups.leavepgrp_frame`).
-/

namespace Bsd386.Kern.Proc

open Function Lib.Linked Finset Option

variable {k k' : Kernel} {P : Set Ptr} {mem : Ptr → List Ptr} {chain : ℤ → List Ptr}
  {p g a sa : Ptr}

theorem fixjobc_frame {entering : Bool} (h : k.fixjobc p g entering = some k') :
    ∃ j o, k' = { k with pgJobc := j, orphaned := o } := by
  have hfold : ∀ (l : List Ptr) (k : Kernel), ∃ j o,
      l.foldl (Kernel.fixjobcChild g entering) k = { k with pgJobc := j, orphaned := o } := by
    intro l
    induction l with
    | nil => exact fun k => ⟨_, _, rfl⟩
    | cons c l ih =>
      intro k
      obtain ⟨j, o, hc⟩ : ∃ j o,
          Kernel.fixjobcChild g entering k c = { k with pgJobc := j, orphaned := o } := by
        unfold Kernel.fixjobcChild
        split_ifs
        · exact exists_adjustJobc_eq k _ entering
        · exact ⟨_, _, rfl⟩
      obtain ⟨j', o', hl⟩ := ih { k with pgJobc := j, orphaned := o }
      exact ⟨j', o', by rw [List.foldl_cons, hc, hl]⟩
  rw [Kernel.fixjobc, bind_eq_some_iff] at h
  obtain ⟨q, -, h⟩ := h
  obtain ⟨children, -, rfl⟩ := map_eq_some_iff.mp h
  obtain ⟨j, o, hfirst⟩ : ∃ j o, (if k.pPgrp q ≠ g ∧ k.pgSession (k.pPgrp q) = k.pgSession g then
      k.adjustJobc g entering else k) = { k with pgJobc := j, orphaned := o } := by
    split_ifs
    · exact exists_adjustJobc_eq k g entering
    · exact ⟨_, _, rfl⟩
  obtain ⟨j', o', hrest⟩ := hfold children { k with pgJobc := j, orphaned := o }
  exact ⟨j', o', by rw [hfirst, hrest]⟩

/-- What moving `p` leaves alone. Source: enterpgrp, leavepgrp -/
structure SameProcs (k k' : Kernel) (p : Ptr) : Prop where
  allproc : k'.allproc = k.allproc
  zombproc : k'.zombproc = k.zombproc
  pPid : k'.pPid = k.pPid
  pHash : k'.pHash = k.pHash
  pidhash : k'.pidhash = k.pidhash
  nextpid : k'.nextpid = k.nextpid
  pidchecked : k'.pidchecked = k.pidchecked
  pPgrp {q : Ptr} : q ≠ p → k'.pPgrp q = k.pPgrp q

theorem SameProcs.refl (k : Kernel) (p : Ptr) : SameProcs k k p :=
  ⟨rfl, rfl, rfl, rfl, rfl, rfl, rfl, fun _ => rfl⟩

namespace Groups

theorem setJobc (h : Groups k P mem chain) (j : Ptr → ℤ) (o : List Ptr) :
    Groups { k with pgJobc := j, orphaned := o } P mem chain :=
  ⟨h.mems, h.grp_eq, h.grp_mem, h.placed, h.chains, h.chain_mem, h.chain_hash⟩

theorem moveTo_frame (h : Groups k P mem chain)
    (hne : ∀ i ∈ k.pgrps, i ≠ g → mem i ≠ []) (hp : p ∈ P) (hg : g ∈ k.pgrps)
    (hgp : g ≠ k.pPgrp p) (hmove : k.moveTo p g = some k') :
    (∃ mem' chain', Groups k' P mem' chain' ∧ ∀ i ∈ k'.pgrps, mem' i ≠ []) ∧ SameProcs k k' p ∧
      ∀ i ∈ k'.pgrps, i ∈ k.pgrps ∧ k'.pgId i = k.pgId i := by
  rw [Kernel.moveTo, bind_eq_some_iff] at hmove
  obtain ⟨k1, hfix1, hmove⟩ := hmove
  rw [bind_eq_some_iff] at hmove
  obtain ⟨k2, hfix2, hmove⟩ := hmove
  obtain ⟨j1, o1, rfl⟩ := fixjobc_frame hfix1
  obtain ⟨j2, o2, hk2⟩ := fixjobc_frame hfix2
  have hk2' : k2 = { k with pgJobc := j2, orphaned := o2 } := hk2
  have h2 : Groups k2 P mem chain := by
    rw [hk2']
    exact h.setJobc j2 o2
  have hgrp : k2.pPgrp = k.pPgrp ∧ k2.pgrps = k.pgrps := by
    rw [hk2']
    exact ⟨rfl, rfl⟩
  obtain ⟨n, m, f, b, chain', hrelink, h3⟩ :=
    h2.relinkTo hp (by rw [hgrp.2]; exact hg) (by rw [hgrp.1]; exact hgp)
  obtain ⟨c, ss, gs, hregroup, hcases⟩ :=
    k2.regrouped_cases p g ((mem (k2.pPgrp p)).erase p = [])
  rw [hregroup] at hrelink h3
  rw [hmove] at hrelink
  obtain rfl := some.inj hrelink
  have hgs {i : Ptr} (hi : i ∈ gs) : i ∈ k.pgrps := by
    rw [← hgrp.2]
    rcases hcases with ⟨-, rfl, -⟩ | ⟨-, rfl, -⟩
    · exact mem_of_mem_erase hi
    · exact hi
  refine ⟨⟨_, chain', h3, fun i hi => ?_⟩, ?_, fun i hi => ⟨hgs hi, by rw [hk2']; rfl⟩⟩
  · have hi' : i ∈ gs := hi
    by_cases hig : i = g
    · subst hig
      rw [update_self]
      exact List.cons_ne_nil _ _
    rw [update_of_ne hig]
    by_cases hip : i = k2.pPgrp p
    · subst hip
      rw [update_self]
      rcases hcases with ⟨-, rfl, -⟩ | ⟨hlast, -⟩
      · exact absurd rfl (ne_of_mem_erase hi')
      · exact hlast
    · rw [update_of_ne hip]
      exact hne i (hgs hi') hig
  · subst hk2'
    exact ⟨rfl, rfl, rfl, rfl, rfl, rfl, rfl, fun hq => update_of_ne hq _ _⟩

theorem enterpgrp_frame {pgid : ℤ} {mksess : Bool} (h : Groups k P mem chain)
    (hne : ∀ i ∈ k.pgrps, mem i ≠ []) (hp : p ∈ P) (ha : a ∉ k.pgrps)
    (henter : k.enterpgrp p pgid mksess a sa = some k') :
    (∃ mem' chain', Groups k' P mem' chain' ∧ ∀ i ∈ k'.pgrps, mem' i ≠ []) ∧ SameProcs k k' p ∧
      ∀ i ∈ k'.pgrps, k'.pgId i = pgid ∨ ∃ i' ∈ k.pgrps, k.pgId i' = k'.pgId i := by
  obtain ⟨r, hfind, hsome, -⟩ := h.pgfind_eq pgid
  have hgrp := (h.grp_mem hp).1
  rw [Kernel.enterpgrp, hfind, bind_some] at henter
  cases r with
  | none =>
    have hsame : (k.newPgrp p pgid mksess a sa).pPgrp = k.pPgrp ∧
        (k.newPgrp p pgid mksess a sa).pgrps = insert a k.pgrps ∧
        (k.newPgrp p pgid mksess a sa).pgId = update k.pgId a pgid ∧
        SameProcs k (k.newPgrp p pgid mksess a sa) p := by
      cases mksess <;> exact ⟨rfl, rfl, rfl, rfl, rfl, rfl, rfl, rfl, rfl, rfl, fun _ => rfl⟩
    obtain ⟨hpgrp, hpgrps, hid, hsame⟩ := hsame
    obtain ⟨hlists, hsame', hids⟩ := (h.newPgrp ha pgid mksess).moveTo_frame
      (fun i hi hia => by
        rw [update_of_ne hia]
        rw [hpgrps] at hi
        exact hne i ((mem_insert.mp hi).resolve_left hia))
      hp (by rw [hpgrps]; exact mem_insert_self _ _)
      (by rw [hpgrp]; exact (ne_of_mem_of_not_mem hgrp ha).symm) henter
    refine ⟨hlists, ?_, fun i hi => ?_⟩
    · exact ⟨hsame'.allproc.trans hsame.allproc, hsame'.zombproc.trans hsame.zombproc,
        hsame'.pPid.trans hsame.pPid, hsame'.pHash.trans hsame.pHash,
        hsame'.pidhash.trans hsame.pidhash, hsame'.nextpid.trans hsame.nextpid,
        hsame'.pidchecked.trans hsame.pidchecked,
        fun hq => (hsame'.pPgrp hq).trans (hsame.pPgrp hq)⟩
    · obtain ⟨hi', heq⟩ := hids i hi
      rw [hid] at heq
      rw [hpgrps] at hi'
      rcases mem_insert.mp hi' with rfl | hold
      · rw [update_self] at heq
        exact .inl heq
      · rw [update_of_ne (ne_of_mem_of_not_mem hold ha)] at heq
        exact .inr ⟨i, hold, heq.symm⟩
  | some g =>
    dsimp only at henter
    by_cases hg : g = k.pPgrp p
    · rw [if_pos hg] at henter
      obtain rfl := some.inj henter
      exact ⟨⟨mem, chain, h, hne⟩, .refl k p, fun i hi => .inr ⟨i, hi, rfl⟩⟩
    rw [if_neg hg] at henter
    obtain ⟨hlists, hsame, hids⟩ :=
      h.moveTo_frame (fun i hi _ => hne i hi) hp (hsome g rfl).1 hg henter
    exact ⟨hlists, hsame, fun i hi => .inr ⟨i, (hids i hi).1, (hids i hi).2.symm⟩⟩

/-- **`leavepgrp`** takes the process out of the lists, and its group when this is then empty. -/
theorem leavepgrp_frame (h : Groups k P mem chain) (hne : ∀ i ∈ k.pgrps, mem i ≠ []) (hp : p ∈ P)
    (hleave : k.leavepgrp p = some k') :
    (∃ mem' chain', Groups k' (P \ {p}) mem' chain' ∧ ∀ i ∈ k'.pgrps, mem' i ≠ []) ∧
      SameProcs k k' p ∧ ∀ i ∈ k'.pgrps, i ∈ k.pgrps ∧ k'.pgId i = k.pgId i := by
  obtain ⟨n, m, hunlink, h1⟩ := h.unlinkMem hp
  have hold := (h.grp_mem hp).1
  have hhead : m (k.pPgrp p) = ((mem (k.pPgrp p)).erase p).head? := by
    have hlinked := (h1.mems.linked hold).head_eq
    rwa [update_self] at hlinked
  have hother {i : Ptr} (hi : i ∈ k.pgrps) (hip : i ≠ k.pPgrp p) :
      update mem (k.pPgrp p) ((mem (k.pPgrp p)).erase p) i ≠ [] := by
    rw [update_of_ne hip]
    exact hne i hi
  rw [Kernel.leavepgrp, hunlink, bind_some, Kernel.dropEmpty] at hleave
  by_cases hempty : (mem (k.pPgrp p)).erase p = []
  · rw [if_pos (by simp [hhead, hempty])] at hleave
    have hself : update mem (k.pPgrp p) ((mem (k.pPgrp p)).erase p) (k.pPgrp p) = [] := by
      rw [update_self, hempty]
    obtain ⟨f, b, chain', hdel, h2⟩ := h1.pgdelete hold hself
    rw [hdel] at hleave
    obtain rfl := some.inj hleave
    refine ⟨⟨_, chain', h2, fun i hi => ?_⟩, ⟨rfl, rfl, rfl, rfl, rfl, rfl, rfl, fun _ => rfl⟩,
      fun i hi => ⟨mem_of_mem_erase hi, rfl⟩⟩
    exact hother (mem_of_mem_erase hi) (ne_of_mem_erase hi)
  · rw [if_neg (by simpa [hhead] using hempty)] at hleave
    obtain rfl := some.inj hleave
    refine ⟨⟨_, chain, h1, fun i hi => ?_⟩, ⟨rfl, rfl, rfl, rfl, rfl, rfl, rfl, fun _ => rfl⟩,
      fun i hi => ⟨hi, rfl⟩⟩
    by_cases hip : i = k.pPgrp p
    · subst hip
      rw [update_self]
      exact hempty
    · exact hother hi hip

end Groups

end Bsd386.Kern.Proc
