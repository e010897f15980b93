import Bsd386.Kern.Proc.Groups
import Mathlib.Tactic.Ring

/-!
# What a move does to the counts for job control

A process qualifies its group for job control when it is no zombie and its parent is in another
group of the same session. `jobCount k g` is the number of members of `g` that do.

When `p` moves, only `p` and its children change. `affected k kids q g` are the groups that `p` and
its children `kids` qualify when `p`, whose parent is `q`, is in the group `g`.
-/

namespace Bsd386.Kern.Proc

open Function List Lib.Linked Kernel

/-- The process qualifies its group for job control: "those with a parent in a different process
group of the same session". Source: comment of fixjobc -/
def Kernel.qualifies (k : Kernel) (p : Ptr) : Bool :=
  k.pStat p != .szomb &&
    (k.pPptr p).any fun q => k.pPgrp q != k.pPgrp p && k.pSession q == k.pSession p

/-- The number of members of `g` that qualify it. Source: proc.h (pg_jobc) -/
def Kernel.jobCount (k : Kernel) (g : Ptr) : ℕ :=
  k.procs.countP fun p => k.pPgrp p == g && k.qualifies p

/-- The test of `fixjobc` on a child of a process in the group `g`.
Source: fixjobc -/
def Kernel.childCounts (k : Kernel) (g c : Ptr) : Bool :=
  k.pPgrp c != g && k.pgSession (k.pPgrp c) == k.pgSession g && k.pStat c != .szomb

/-- The groups whose counts `fixjobc` adjusts for the group `g`, a process with the parent `q` and
the children `kids`. Source: fixjobc -/
def Kernel.affected (k : Kernel) (kids : List Ptr) (q g : Ptr) : List Ptr :=
  (if k.pPgrp q ≠ g ∧ k.pgSession (k.pPgrp q) = k.pgSession g then [g] else []) ++
    (kids.filter (k.childCounts g)).map k.pPgrp

variable {k : Kernel} {p q g : Ptr} {kids : List Ptr}

theorem Kernel.childCounts_iff (k : Kernel) (g c : Ptr) : k.childCounts g c = true ↔
    k.pPgrp c ≠ g ∧ k.pgSession (k.pPgrp c) = k.pgSession g ∧ k.pStat c ≠ .szomb := by
  simp [childCounts, and_assoc]

/-! ## The adjustments -/

theorem adjustJobc_false (k : Kernel) (g : Ptr) :
    k.adjustJobc g false = { k with
      pgJobc := update k.pgJobc g (k.pgJobc g - 1)
      orphaned := if k.pgJobc g - 1 = 0 then g :: k.orphaned else k.orphaned } := by
  rw [adjustJobc, if_neg Bool.false_ne_true]
  by_cases hz : k.pgJobc g - 1 = 0
  · have hz' : update k.pgJobc g (k.pgJobc g - 1) g = 0 := by rw [update_self, hz]
    rw [if_pos hz]
    exact if_pos hz'
  · have hz' : update k.pgJobc g (k.pgJobc g - 1) g ≠ 0 := by rwa [update_self]
    rw [if_neg hz]
    exact if_neg hz'

theorem exists_adjustJobc_eq (k : Kernel) (g : Ptr) (entering : Bool) :
    ∃ j o, k.adjustJobc g entering = { k with pgJobc := j, orphaned := o } := by
  cases entering with
  | true => exact ⟨_, _, rfl⟩
  | false => exact ⟨_, _, adjustJobc_false k g⟩

theorem foldl_adjustJobc_true (gs : List Ptr) (k : Kernel) :
    gs.foldl (fun k g => k.adjustJobc g true) k =
      { k with pgJobc := fun g => k.pgJobc g + gs.count g } := by
  induction gs generalizing k with
  | nil =>
    simp
  | cons h gs ih =>
    rw [foldl_cons, ih, adjustJobc, if_pos rfl]
    congr 1
    funext g
    dsimp only
    by_cases hg : g = h
    · subst hg
      rw [update_self, count_cons_self]
      push_cast
      ring
    · rw [update_of_ne hg, count_cons_of_ne (Ne.symm hg)]

theorem foldl_adjustJobc_false (gs : List Ptr) (k : Kernel) :
    ∃ o, gs.foldl (fun k g => k.adjustJobc g false) k =
        { k with pgJobc := fun g => k.pgJobc g - gs.count g, orphaned := o } ∧
      (∀ g ∈ k.orphaned, g ∈ o) ∧
      (∀ g ∈ o, g ∈ k.orphaned ∨ g ∈ gs ∧ k.pgJobc g - gs.count g ≤ 0) ∧
      ∀ g ∈ gs, k.pgJobc g - gs.count g = 0 → g ∈ o := by
  induction gs generalizing k with
  | nil =>
    refine ⟨k.orphaned, ?_, fun g hg => hg, fun g hg => .inl hg, fun g hg => absurd hg not_mem_nil⟩
    simp
  | cons h gs ih =>
    obtain ⟨k', hk'⟩ : ∃ k', k.adjustJobc h false = k' := ⟨_, rfl⟩
    have hjobc := adjustJobc_false k h
    rw [hk'] at hjobc
    have horph : k'.orphaned = if k.pgJobc h - 1 = 0 then h :: k.orphaned else k.orphaned := by
      rw [hjobc]
    obtain ⟨o, heq, hsub, hcause, hzero⟩ := ih k'
    have hcount (g : Ptr) : k'.pgJobc g - gs.count g = k.pgJobc g - (h :: gs).count g := by
      rw [hjobc]
      by_cases hg : g = h
      · subst hg
        rw [count_cons_self]
        simp only [update_self]
        push_cast
        ring
      · rw [count_cons_of_ne (Ne.symm hg)]
        simp only [update_of_ne hg]
    refine ⟨o, ?_, ?_, ?_, ?_⟩
    · rw [foldl_cons, hk', heq]
      simp only [hcount]
      rw [hjobc]
    · intro g hg
      refine hsub g ?_
      rw [horph]
      by_cases hz : k.pgJobc h - 1 = 0
      · rw [if_pos hz]
        exact mem_cons_of_mem _ hg
      · rwa [if_neg hz]
    · intro g hg
      rcases hcause g hg with hg' | ⟨hg', hle⟩
      · rw [horph] at hg'
        by_cases hz : k.pgJobc h - 1 = 0
        · rw [if_pos hz] at hg'
          rcases mem_cons.mp hg' with rfl | hg'
          · refine .inr ⟨mem_cons_self, ?_⟩
            rw [count_cons_self]
            omega
          · exact .inl hg'
        · rw [if_neg hz] at hg'
          exact .inl hg'
      · rw [hcount] at hle
        exact .inr ⟨mem_cons_of_mem _ hg', hle⟩
    · intro g hg hz
      by_cases hgs : g ∈ gs
      · exact hzero g hgs (by rw [hcount, hz])
      obtain rfl : g = h := (mem_cons.mp hg).resolve_right hgs
      refine hsub g ?_
      rw [count_cons_self, count_eq_zero_of_not_mem hgs] at hz
      rw [horph, if_pos (by push_cast at hz; omega)]
      exact mem_cons_self

theorem fixjobc_eq (hq : k.pPptr p = some q) (hkids : Linked k.pOsptr (k.pCptr p) kids)
    (hlen : kids.length < k.bound) (entering : Bool) :
    k.fixjobc p g entering =
      some ((k.affected kids q g).foldl (fun k g => k.adjustJobc g entering) k) := by
  -- the loop reads only what the adjustments leave alone
  have hloop : ∀ (l : List Ptr) (k' : Kernel), k'.pPgrp = k.pPgrp → k'.pgSession = k.pgSession →
      k'.pStat = k.pStat → l.foldl (fixjobcChild g entering) k' =
        ((l.filter (k.childCounts g)).map k.pPgrp).foldl (fun k g => k.adjustJobc g entering) k' := by
    intro l
    induction l with
    | nil => exact fun _ _ _ _ => rfl
    | cons c l ih =>
      intro k' hgrp hsess hstat
      rw [foldl_cons, fixjobcChild, hgrp, hsess, hstat]
      by_cases hc : k.pPgrp c ≠ g ∧ k.pgSession (k.pPgrp c) = k.pgSession g ∧ k.pStat c ≠ .szomb
      · obtain ⟨j, o, hjo⟩ := exists_adjustJobc_eq k' (k.pPgrp c) entering
        rw [if_pos hc, filter_cons_of_pos ((k.childCounts_iff g c).mpr hc), map_cons,
          foldl_cons]
        exact ih _ (by rw [hjo]; exact hgrp) (by rw [hjo]; exact hsess) (by rw [hjo]; exact hstat)
      · rw [if_neg hc, filter_cons_of_neg fun hc' => hc ((k.childCounts_iff g c).mp hc')]
        exact ih k' hgrp hsess hstat
  rw [fixjobc, hq, Option.bind_some, hkids.collect_eq hlen, Option.map_some,
    affected, foldl_append]
  congr 1
  by_cases hpar : k.pPgrp q ≠ g ∧ k.pgSession (k.pPgrp q) = k.pgSession g
  · obtain ⟨j, o, hjo⟩ := exists_adjustJobc_eq k g entering
    rw [if_pos hpar, if_pos hpar, foldl_cons, foldl_nil]
    exact hloop kids _ (by rw [hjo]) (by rw [hjo]) (by rw [hjo])
  · rw [if_neg hpar, if_neg hpar, foldl_nil]
    exact hloop kids k rfl rfl rfl

/-! ## The count before and after -/

theorem countP_affected (hq : k.pPptr p = some q) (hkids : ∀ c ∈ kids, k.pPptr c = some p)
    (hp : k.pStat p ≠ .szomb) (h : Ptr) :
    (p :: kids).countP (fun x => k.pPgrp x == h && k.qualifies x) =
      (k.affected kids q (k.pPgrp p)).count h := by
  rw [affected, count_append, countP_cons, add_comm]
  congr 1
  · simp only [qualifies, hq, Option.any_some]
    by_cases hpar : k.pPgrp q ≠ k.pPgrp p ∧ k.pgSession (k.pPgrp q) = k.pgSession (k.pPgrp p)
    · have hpar' : k.pSession q = k.pSession p := hpar.2
      rw [if_pos hpar]
      by_cases hh : k.pPgrp p = h
      · simp [hh ▸ hpar.1, hpar', hp, hh]
      · simp [hh, count_cons_of_ne hh]
    rw [if_neg hpar, count_nil, if_neg]
    intro hcon
    simp only [Bool.and_eq_true, bne_iff_ne, beq_iff_eq] at hcon
    exact hpar ⟨hcon.2.2.1, hcon.2.2.2⟩
  · rw [count_eq_countP, countP_map, countP_filter]
    refine countP_congr fun c hc => ?_
    simp only [qualifies, hkids c hc, Option.any_some, Function.comp_apply, Bool.and_eq_true,
      bne_iff_ne, beq_iff_eq, k.childCounts_iff, pSession]
    constructor
    · intro h'
      exact ⟨h'.1, Ne.symm h'.2.2.1, h'.2.2.2.symm, h'.2.1⟩
    · intro h'
      exact ⟨h'.1, h'.2.2.2, Ne.symm h'.2.1, h'.2.2.1.symm⟩

/-- **A move changes the counts by the groups affected.** Only the process and its children count
differently when it is in another group. -/
theorem exists_jobCount_eq (hproc : p ∈ k.procs) (hnodup : k.procs.Nodup)
    (hq : k.pPptr p = some q) (hqp : q ≠ p) (hp : k.pStat p ≠ .szomb) (hkidsNodup : kids.Nodup)
    (hkids : ∀ c, c ∈ kids ↔ c ∈ k.procs ∧ k.pPptr c = some p) (h : Ptr) :
    ∃ r, k.jobCount h = (k.affected kids q (k.pPgrp p)).count h + r ∧
      Kernel.jobCount { k with pPgrp := update k.pPgrp p g } h =
        (k.affected kids q g).count h + r := by
  obtain ⟨k', hk'⟩ : ∃ k', { k with pPgrp := update k.pPgrp p g } = k' := ⟨_, rfl⟩
  have hpp : k.pPptr p ≠ some p := by
    rw [hq]
    simpa using hqp
  have hnotin : p ∉ kids := fun hp' => hpp ((hkids p).mp hp').2
  have hsubperm : List.Subperm (p :: kids) k.procs := by
    refine (nodup_cons.mpr ⟨hnotin, hkidsNodup⟩).subperm ?_
    rintro c (_ | ⟨_, hc⟩)
    · exact hproc
    · exact ((hkids c).mp hc).1
  obtain ⟨l, hperm, hsub⟩ := hsubperm
  obtain ⟨rest, hrest⟩ := hsub.exists_perm_append
  have hall : k.procs.Perm ((p :: kids) ++ rest) := hrest.trans (hperm.append_right rest)
  have hother : ∀ x ∈ rest, x ≠ p ∧ k.pPptr x ≠ some p := by
    intro x hx
    have hnd := nodup_append.mp (hall.nodup_iff.mp hnodup)
    refine ⟨fun hxp => hnd.2.2 p (by simp) x hx hxp.symm, fun hpar => ?_⟩
    have hmem : x ∈ k.procs := hall.mem_iff.mpr (mem_append_right _ hx)
    exact hnd.2.2 x (mem_cons_of_mem _ ((hkids x).mpr ⟨hmem, hpar⟩)) x hx rfl
  have hgrp (x : Ptr) (hx : x ≠ p) : k'.pPgrp x = k.pPgrp x := by
    rw [← hk']
    exact update_of_ne hx _ _
  have hpgrp : k'.pPgrp p = g := by
    rw [← hk']
    exact update_self _ _ _
  refine ⟨rest.countP fun x => k.pPgrp x == h && k.qualifies x, ?_, ?_⟩
  · rw [jobCount, hall.countP_eq, countP_append,
      countP_affected hq (fun c hc => ((hkids c).mp hc).2) hp]
  · have hsame : k'.procs = k.procs ∧ k'.pPptr = k.pPptr ∧ k'.pStat = k.pStat ∧
        k'.pgSession = k.pgSession := by
      rw [← hk']
      exact ⟨rfl, rfl, rfl, rfl⟩
    have haff : k'.affected kids q g = k.affected kids q g := by
      have hfilter : kids.filter (k'.childCounts g) = kids.filter (k.childCounts g) := by
        refine filter_congr fun c hc => ?_
        have hcp : c ≠ p := fun hcp => hnotin (hcp ▸ hc)
        simp only [childCounts, hgrp c hcp, hsame.2.2.1, hsame.2.2.2]
      rw [affected, affected, hfilter, hgrp q hqp, hsame.2.2.2]
      congr 1
      refine map_congr_left fun c hc => hgrp c fun hcp => ?_
      exact hnotin (hcp ▸ (mem_filter.mp hc).1)
    rw [hk', jobCount, hsame.1, hall.countP_eq, countP_append]
    have hmoved : (p :: kids).countP (fun x => k'.pPgrp x == h && k'.qualifies x) =
        (k'.affected kids q (k'.pPgrp p)).count h := countP_affected (by rw [hsame.2.1, hq])
      (fun c hc => by rw [hsame.2.1]; exact ((hkids c).mp hc).2)
      (by rw [hsame.2.2.1]; exact hp) h
    rw [hmoved, hpgrp, haff]
    congr 1
    refine countP_congr fun x hx => ?_
    obtain ⟨hxp, hpar⟩ := hother x hx
    have hqual : k'.qualifies x = k.qualifies x := by
      simp only [qualifies, pSession, hsame.2.1, hsame.2.2.1, hsame.2.2.2, hgrp x hxp]
      congr 1
      cases hx' : k.pPptr x with
      | none => rfl
      | some r =>
        have hrp : r ≠ p := fun hrp => hpar (by rw [hx', hrp])
        simp only [Option.any_some, hgrp r hrp]
    rw [hgrp x hxp, hqual]

end Bsd386.Kern.Proc
