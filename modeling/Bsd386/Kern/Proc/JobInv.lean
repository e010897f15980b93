import Bsd386.Kern.Proc.Jobs

/-!
# The invariant of job control

What holds of processes, groups and sessions between two calls: the lists of members and the hash
chains (`Groups`), the tree of processes (`Tree`), the numbers of groups of the sessions
(`Sessions`), and that `pg_jobc` of each group is the number of its members that qualify it.
-/

namespace Bsd386.Kern.Proc

open Function List Lib.Linked

/-! ## The invariant -/

/-- Each process comes before its parent, and the last is the initial one.
Source: fork1 -/
def Older (pPptr : Ptr → Option Ptr) (pPid : Ptr → ℤ) : List Ptr → Prop
  | [] => True
  | p :: l => (∀ q, pPptr p = some q → q ∈ l) ∧ (pPptr p = none → pPid p = 0) ∧ Older pPptr pPid l

/-- The tree of processes: `p_cptr` and `p_osptr` list the children.
Source: proc.h (proc) -/
structure Tree (procs : List Ptr) (pPptr pCptr pOsptr : Ptr → Option Ptr) (pPid : Ptr → ℤ)
    (kids : Ptr → List Ptr) : Prop where
  nodup : procs.Nodup
  older : Older pPptr pPid procs
  family : Family pOsptr pCptr {p | p ∈ procs} {p | p ∈ procs} kids
  kids_iff {p c : Ptr} : p ∈ procs → (c ∈ kids p ↔ c ∈ procs ∧ pPptr c = some p)

/-- `s_count` is the number of groups of the session. Source: proc.h (session) -/
structure Sessions (pgrps sessions : Finset Ptr) (pgSession : Ptr → Ptr) (sCount : Ptr → ℤ) :
    Prop where
  mem {g : Ptr} : g ∈ pgrps → pgSession g ∈ sessions
  count {s : Ptr} : s ∈ sessions →
    sCount s = (pgrps.filter (pgSession · = s)).card ∧ 0 < sCount s

/-- The invariant of a run. -/
structure JobInv (k : Kernel) (e : Option Ptr) (mem : Ptr → List Ptr) (chain : ℤ → List Ptr)
    (kids : Ptr → List Ptr) (bucket : ℤ → List Ptr) : Prop where
  groups : Groups k {p | p ∈ k.procs} mem chain
  nonempty {g : Ptr} : g ∈ k.pgrps → some g ≠ e → mem g ≠ []
  tree : Tree k.procs k.pPptr k.pCptr k.pOsptr k.pPid kids
  hashed : Family k.pHash k.pidhash Set.univ {p | p ∈ k.procs} bucket
  live {p : Ptr} : p ∈ k.procs → k.pStat p ≠ .szomb
  root {p : Ptr} : p ∈ k.procs → k.pPptr p = none →
    k.sessLeader p = true ∧ k.pPgid p = k.pPid p
  jobc {g : Ptr} : g ∈ k.pgrps → k.pgJobc g = k.jobCount g
  sessions : Sessions k.pgrps k.sessions k.pgSession k.sCount

/-! ## The tree -/

section tree

variable {procs : List Ptr} {pPptr pCptr pOsptr : Ptr → Option Ptr} {pPid : Ptr → ℤ}
  {kids : Ptr → List Ptr} {p q : Ptr}

theorem Older.parent (h : Older pPptr pPid procs) (hnodup : procs.Nodup) (hp : p ∈ procs)
    (hq : pPptr p = some q) : q ∈ procs ∧ q ≠ p := by
  induction procs with
  | nil => exact absurd hp not_mem_nil
  | cons x l ih =>
    obtain ⟨hx, hl⟩ := nodup_cons.mp hnodup
    rcases mem_cons.mp hp with rfl | hp
    · have hql := h.1 q hq
      exact ⟨mem_cons_of_mem _ hql, ne_of_mem_of_not_mem hql hx⟩
    · obtain ⟨hql, hne⟩ := ih h.2.2 hl hp
      exact ⟨mem_cons_of_mem _ hql, hne⟩

theorem Older.inferior_isSome {k : Kernel} (curp : Ptr) (h : Older k.pPptr k.pPid procs) {n : ℕ}
    (hn : procs.length < n) (hp : p ∈ procs) : ∃ b, k.inferior curp n p = some b := by
  induction procs generalizing p n with
  | nil => exact absurd hp not_mem_nil
  | cons x l ih =>
    obtain ⟨n, rfl⟩ : ∃ m, n = m + 1 := ⟨n - 1, by simp only [length_cons] at hn; omega⟩
    have hn' : l.length < n := by simpa using hn
    rcases mem_cons.mp hp with rfl | hp
    · rw [Kernel.inferior]
      by_cases hcur : p = curp
      · exact ⟨_, if_pos hcur⟩
      by_cases hz : k.pPid p = 0
      · exact ⟨_, by rw [if_neg hcur, if_pos hz]⟩
      rw [if_neg hcur, if_neg hz]
      cases hq : k.pPptr p with
      | none => exact absurd (h.2.1 hq) hz
      | some q => exact ih h.2.2 hn' (h.1 q hq)
    · exact ih h.2.2 (Nat.lt_succ_of_lt hn') hp

theorem Older.congr {pPptr' : Ptr → Option Ptr} {pPid' : Ptr → ℤ} (h : Older pPptr pPid procs)
    (hsame : ∀ p ∈ procs, pPptr' p = pPptr p ∧ pPid' p = pPid p) : Older pPptr' pPid' procs := by
  induction procs with
  | nil => trivial
  | cons x l ih =>
    obtain ⟨hpar, hpid⟩ := hsame x mem_cons_self
    refine ⟨?_, ?_, ih h.2.2 fun p hp => hsame p (mem_cons_of_mem _ hp)⟩
    · rw [hpar]
      exact h.1
    · rw [hpar, hpid]
      exact h.2.1

theorem Tree.fork {p2 : Ptr} {junk : ℤ} (h : Tree procs pPptr pCptr pOsptr pPid kids)
    (hp : p ∈ procs) (hp2 : p2 ∉ procs) (pid : ℤ) :
    Tree (p2 :: procs) (update pPptr p2 (some p))
      (update (update pCptr p2 none) p (some p2))
      (update pOsptr p2 (update pCptr p2 none p))
      (update (update pPid p2 junk) p2 pid)
      (update (update kids p2 []) p (p2 :: kids p)) := by
  have hne {q : Ptr} (hq : q ∈ procs) : q ≠ p2 := ne_of_mem_of_not_mem hq hp2
  have hset : {q | q ∈ p2 :: procs} = insert p2 {q | q ∈ procs} := by
    ext q
    simp
  rw [update_of_ne (hne hp)]
  constructor
  · exact nodup_cons.mpr ⟨hp2, h.nodup⟩
  · refine ⟨?_, ?_, h.older.congr fun q hq => ?_⟩
    · rw [update_self]
      rintro q ⟨⟩
      exact hp
    · rw [update_self]
      exact nofun
    · rw [update_of_ne (hne hq), update_of_ne (hne hq), update_of_ne (hne hq)]
      exact ⟨rfl, rfl⟩
  · have hmono : Family (update pOsptr p2 (pCptr p)) (update pCptr p2 none)
        {q | q ∈ procs} {q | q ∈ p2 :: procs} kids := by
      refine (h.family.mono (fun q hq => update_of_ne (hne hq) _ _) ?_
        (Set.Subset.refl _)).congr_head fun q hq => update_of_ne (hne hq) _ _
      rw [hset]
      exact Set.subset_insert _ _
    have hwide := hmono.insert hp2 (update_self _ _ _)
    rw [← hset] at hwide
    have hlinked : Linked (update pOsptr p2 (pCptr p)) (some p2) (p2 :: kids p) := by
      refine ⟨rfl, ?_⟩
      rw [update_self]
      refine (h.family.linked hp).congr fun q hq => update_of_ne (hne ?_) _ _
      exact h.family.mem hp hq
    have hkidsp : update kids p2 [] p = kids p := update_of_ne (hne hp) _ _
    refine hwide.store (mem_cons_of_mem _ hp) (nil_append _).symm hlinked ?_ (by simp)
      (Set.Subset.refl _) ?_
    · rintro q (_ | ⟨_, hq⟩)
      · exact mem_cons_self
      · exact mem_cons_of_mem _ (h.family.mem hp hq)
    · rintro i hi hip q hq (_ | ⟨_, hq'⟩)
      · -- the child is in no other list
        exact absurd (hwide.mem hi hq) (by
          by_cases hi2 : i = p2
          · subst hi2
            rw [update_self] at hq
            exact absurd hq not_mem_nil
          · rw [update_of_ne hi2] at hq
            exact absurd (h.family.mem ((mem_cons.mp hi).resolve_left hi2) hq) hp2)
      · refine hip (hwide.disjoint hi (mem_cons_of_mem _ hp) hq ?_)
        rw [hkidsp]
        exact hq'
  · intro i c hi
    by_cases hip : i = p
    · subst hip
      rw [update_self, mem_cons, mem_cons, h.kids_iff hp]
      constructor
      · rintro (rfl | ⟨hc, hpar⟩)
        · exact ⟨.inl rfl, update_self _ _ _⟩
        · exact ⟨.inr hc, by rw [update_of_ne (hne hc), hpar]⟩
      · rintro ⟨rfl | hc, hpar⟩
        · exact .inl rfl
        · rw [update_of_ne (hne hc)] at hpar
          exact .inr ⟨hc, hpar⟩
    · rw [update_of_ne hip]
      rcases mem_cons.mp hi with rfl | hi
      · rw [update_self]
        refine ⟨fun hc => absurd hc not_mem_nil, ?_⟩
        rintro ⟨hc, hpar⟩
        rcases mem_cons.mp hc with rfl | hc
        · rw [update_self] at hpar
          exact absurd (Option.some.inj hpar) (Ne.symm hip)
        · rw [update_of_ne (hne hc)] at hpar
          exact absurd (h.older.parent h.nodup hc hpar).1 hp2
      · rw [update_of_ne (hne hi), h.kids_iff hi, mem_cons]
        constructor
        · rintro ⟨hc, hpar⟩
          exact ⟨.inr hc, by rw [update_of_ne (hne hc), hpar]⟩
        · rintro ⟨rfl | hc, hpar⟩
          · rw [update_self] at hpar
            exact absurd (Option.some.inj hpar).symm hip
          · rw [update_of_ne (hne hc)] at hpar
            exact ⟨hc, hpar⟩

theorem Tree.length_lt (h : Tree procs pPptr pCptr pOsptr pPid kids) (hp : p ∈ procs) :
    (kids p).length < procs.length + 1 := by
  have hsub : kids p ⊆ procs := fun c hc => ((h.kids_iff hp).mp hc).1
  exact Nat.lt_succ_of_le ((h.family.linked hp).nodup.subperm hsub).length_le

end tree

/-! ## Sessions -/

section sessions

variable {pgrps sessions : Finset Ptr} {pgSession : Ptr → Ptr} {sCount : Ptr → ℤ} {g a s : Ptr}

theorem filter_insert_update (ha : a ∉ pgrps) (s t : Ptr) :
    (insert a pgrps).filter (update pgSession a s · = t) =
      if s = t then insert a (pgrps.filter (pgSession · = t)) else pgrps.filter (pgSession · = t) := by
  have hold : pgrps.filter (update pgSession a s · = t) = pgrps.filter (pgSession · = t) :=
    Finset.filter_congr fun g hg => by rw [update_of_ne (ne_of_mem_of_not_mem hg ha)]
  rw [Finset.filter_insert, hold]
  simp only [update_self]

section

variable (h : Sessions pgrps sessions pgSession sCount)
include h

theorem Sessions.insert (ha : a ∉ pgrps) (hs : s ∈ sessions) :
    Sessions (insert a pgrps) sessions (update pgSession a s)
      (update sCount s (sCount s + 1)) := by
  have hne {g : Ptr} (hg : g ∈ pgrps) : g ≠ a := ne_of_mem_of_not_mem hg ha
  constructor
  · intro g hg
    rcases Finset.mem_insert.mp hg with rfl | hg
    · rwa [update_self]
    · rw [update_of_ne (hne hg)]
      exact h.mem hg
  · intro t ht
    obtain ⟨hcount, hpos⟩ := h.count ht
    by_cases hts : t = s
    · subst hts
      rw [filter_insert_update ha, if_pos rfl, update_self,
        Finset.card_insert_of_notMem fun hmem => ha (Finset.mem_of_mem_filter _ hmem), hcount]
      exact ⟨by push_cast; rfl, by omega⟩
    · rw [filter_insert_update ha, if_neg (Ne.symm hts), update_of_ne hts]
      exact ⟨hcount, hpos⟩

theorem Sessions.insert_new (ha : a ∉ pgrps) (hs : s ∉ sessions) :
    Sessions (Insert.insert a pgrps) (Insert.insert s sessions) (update pgSession a s)
      (update sCount s 1) := by
  have hne {g : Ptr} (hg : g ∈ pgrps) : g ≠ a := ne_of_mem_of_not_mem hg ha
  constructor
  · intro g hg
    rcases Finset.mem_insert.mp hg with rfl | hg
    · rw [update_self]
      exact Finset.mem_insert_self _ _
    · rw [update_of_ne (hne hg)]
      exact Finset.mem_insert_of_mem (h.mem hg)
  · intro t ht
    by_cases hts : t = s
    · subst hts
      have hnone : pgrps.filter (pgSession · = t) = ∅ := by
        refine Finset.filter_eq_empty_iff.mpr fun g hg heq => hs ?_
        rw [← heq]
        exact h.mem hg
      rw [filter_insert_update ha, if_pos rfl, update_self, hnone]
      exact ⟨rfl, by decide⟩
    · obtain ⟨hcount, hpos⟩ := h.count ((Finset.mem_insert.mp ht).resolve_left hts)
      rw [filter_insert_update ha, if_neg (Ne.symm hts), update_of_ne hts]
      exact ⟨hcount, hpos⟩

theorem Sessions.erase (hg : g ∈ pgrps) :
    Sessions (pgrps.erase g)
      (if sCount (pgSession g) - 1 = 0 then sessions.erase (pgSession g) else sessions) pgSession
      (update sCount (pgSession g) (sCount (pgSession g) - 1)) := by
  obtain ⟨hcount, hpos⟩ := h.count (h.mem hg)
  have hmem : g ∈ pgrps.filter (pgSession · = pgSession g) := Finset.mem_filter.mpr ⟨hg, rfl⟩
  have hcard := Finset.card_erase_of_mem hmem
  have hself {t : Ptr} (ht : t ≠ pgSession g) :
      (pgrps.erase g).filter (pgSession · = t) = pgrps.filter (pgSession · = t) := by
    rw [Finset.filter_erase, Finset.erase_eq_of_notMem]
    exact fun hmem => ht (Finset.mem_filter.mp hmem).2.symm
  constructor
  · intro g' hg'
    obtain ⟨hne, hg'⟩ := Finset.mem_erase.mp hg'
    by_cases hz : sCount (pgSession g) - 1 = 0
    · rw [if_pos hz]
      refine Finset.mem_erase.mpr ⟨fun heq => ?_, h.mem hg'⟩
      -- the session of the deleted group has no other group
      have hone : (pgrps.filter (pgSession · = pgSession g)).card ≤ 1 := by omega
      exact hne (Finset.card_le_one.mp hone g' (Finset.mem_filter.mpr ⟨hg', heq⟩) g hmem)
    · rw [if_neg hz]
      exact h.mem hg'
  · intro t ht
    by_cases htg : t = pgSession g
    · subst htg
      by_cases hz : sCount (pgSession g) - 1 = 0
      · rw [if_pos hz] at ht
        exact absurd rfl (Finset.ne_of_mem_erase ht)
      · rw [update_self, Finset.filter_erase, hcard]
        exact ⟨by omega, by omega⟩
    · have ht' : t ∈ sessions := by
        by_cases hz : sCount (pgSession g) - 1 = 0
        · rw [if_pos hz] at ht
          exact Finset.mem_of_mem_erase ht
        · rwa [if_neg hz] at ht
      rw [update_of_ne htg, hself htg]
      exact h.count ht'

end

end sessions

/-! ## Counting -/

section count

variable {k k' : Kernel} {l : List Ptr} {S : Set Ptr}

theorem countP_qualifies_congr (hS : ∀ p ∈ l, p ∈ S ∧ ∀ q, k.pPptr p = some q → q ∈ S)
    (hgrp : ∀ p ∈ S, k'.pPgrp p = k.pPgrp p ∧ k'.pSession p = k.pSession p)
    (hsame : ∀ p ∈ l, k'.pStat p = k.pStat p ∧ k'.pPptr p = k.pPptr p) (g : Ptr) :
    l.countP (fun p => k'.pPgrp p == g && k'.qualifies p) =
      l.countP fun p => k.pPgrp p == g && k.qualifies p := by
  refine countP_congr fun p hp => ?_
  obtain ⟨hpS, hparent⟩ := hS p hp
  have hqual : k'.qualifies p = k.qualifies p := by
    rw [Kernel.qualifies, Kernel.qualifies, (hsame p hp).1, (hsame p hp).2, (hgrp p hpS).1,
      (hgrp p hpS).2]
    congr 1
    cases hq : k.pPptr p with
    | none => rfl
    | some q =>
      rw [Option.any_some, Option.any_some, (hgrp q (hparent q hq)).1, (hgrp q (hparent q hq)).2]
  rw [hqual, (hgrp p hpS).1]

theorem jobCount_eq_zero {g : Ptr} (h : ∀ p ∈ k.procs, k.pPgrp p ≠ g) : k.jobCount g = 0 := by
  refine countP_eq_zero.mpr fun p hp => ?_
  simp [h p hp]

end count

namespace JobInv

variable {k : Kernel} {e : Option Ptr} {mem : Ptr → List Ptr} {chain : ℤ → List Ptr}
  {kids : Ptr → List Ptr} {bucket : ℤ → List Ptr} {p q g a sa : Ptr}

theorem mem_parent (h : JobInv k e mem chain kids bucket) (hp : p ∈ k.procs) :
    p ∈ {p | p ∈ k.procs} ∧ ∀ q, k.pPptr p = some q → q ∈ {p | p ∈ k.procs} :=
  ⟨hp, fun _ hq => (h.tree.older.parent h.tree.nodup hp hq).1⟩

/-! ## New groups -/

theorem newPgrp (h : JobInv k none mem chain kids bucket) (hp : p ∈ k.procs) (ha : a ∉ k.pgrps)
    (hsa : sa ∉ k.sessions) (pgid : ℤ) (mksess : Bool) :
    ∃ chain', JobInv (k.newPgrp p pgid mksess a sa) (some a) (update mem a []) chain' kids
      bucket := by
  have hgrp {q : Ptr} (hq : q ∈ k.procs) : k.pPgrp q ∈ k.pgrps := (h.groups.grp_mem hq).1
  have hne {g : Ptr} (hg : g ∈ k.pgrps) : g ≠ a := ne_of_mem_of_not_mem hg ha
  have hsess {g : Ptr} (hg : g ∈ k.pgrps) :
      (k.newPgrp p pgid mksess a sa).pgSession g = k.pgSession g := by
    cases mksess <;> exact update_of_ne (hne hg) _ _
  have hproc : (k.newPgrp p pgid mksess a sa).procs = k.procs ∧
      (k.newPgrp p pgid mksess a sa).pPgrp = k.pPgrp ∧
      (k.newPgrp p pgid mksess a sa).pStat = k.pStat ∧
      (k.newPgrp p pgid mksess a sa).pPptr = k.pPptr := by
    cases mksess <;> exact ⟨rfl, rfl, rfl, rfl⟩
  have hpsess {q : Ptr} (hq : q ∈ k.procs) :
      (k.newPgrp p pgid mksess a sa).pSession q = k.pSession q := by
    rw [Kernel.pSession, hproc.2.1]
    exact hsess (hgrp hq)
  have hcount (g : Ptr) : (k.newPgrp p pgid mksess a sa).jobCount g = k.jobCount g := by
    rw [Kernel.jobCount, hproc.1]
    refine countP_qualifies_congr (fun q hq => h.mem_parent hq) (fun q hq => ?_) (fun q _ => ?_) g
    · exact ⟨by rw [hproc.2.1], hpsess hq⟩
    · exact ⟨by rw [hproc.2.2.1], by rw [hproc.2.2.2]⟩
  have hpgrps {g : Ptr} (hg : g ∈ (k.newPgrp p pgid mksess a sa).pgrps) : g = a ∨ g ∈ k.pgrps := by
    cases mksess <;> exact Finset.mem_insert.mp hg
  refine ⟨update chain (k.pidHash pgid) (a :: chain (k.pidHash pgid)), ?_⟩
  constructor
  · rw [hproc.1]
    exact h.groups.newPgrp ha pgid mksess
  · intro g hg hge
    have hga : g ≠ a := fun heq => hge (by rw [heq])
    rw [update_of_ne hga]
    exact h.nonempty ((hpgrps hg).resolve_left hga) (by rintro ⟨⟩)
  · cases mksess <;> exact h.tree
  · cases mksess <;> exact h.hashed
  · intro q hq
    rw [hproc.2.2.1]
    exact h.live (hproc.1 ▸ hq)
  · intro q hq hroot
    rw [hproc.1] at hq
    rw [hproc.2.2.2] at hroot
    obtain ⟨hlead, hid⟩ := h.root hq hroot
    rw [Kernel.sessLeader, hpsess hq, Kernel.pPgid, hproc.2.1]
    have hs : k.pSession q ≠ sa := ne_of_mem_of_not_mem (h.sessions.mem (hgrp hq)) hsa
    cases mksess with
    | true =>
      refine ⟨?_, (update_of_ne (hne (hgrp hq)) _ _).trans hid⟩
      have hleader : (k.newPgrp p pgid true a sa).sLeader (k.pSession q) = k.sLeader (k.pSession q) :=
        update_of_ne hs _ _
      rw [hleader]
      exact hlead
    | false => exact ⟨hlead, (update_of_ne (hne (hgrp hq)) _ _).trans hid⟩
  · intro g hg
    rw [hcount]
    have hupd : (k.newPgrp p pgid mksess a sa).pgJobc = update k.pgJobc a 0 := by
      cases mksess <;> rfl
    rw [hupd]
    rcases hpgrps hg with rfl | hold
    · rw [jobCount_eq_zero fun q hq => hne (hgrp hq), update_self]
      rfl
    · rw [← h.jobc hold, update_of_ne (hne hold)]
  · cases mksess with
    | true => exact h.sessions.insert_new ha hsa
    | false => exact h.sessions.insert ha (h.sessions.mem (hgrp hp))

/-! ## Moves -/

/-- **A move** keeps the counts, and calls `orphanpg` for the groups whose count has come down to
zero. -/
theorem moveTo (h : JobInv k e mem chain kids bucket) (hp : p ∈ k.procs) (hq : k.pPptr p = some q)
    (hg : g ∈ k.pgrps) (hne : g ≠ k.pPgrp p) (he : e = none ∨ e = some g) :
    ∃ k' mem' chain', k.moveTo p g = some k' ∧ JobInv k' none mem' chain' kids bucket ∧
      ∀ i ∈ k.pgrps, i ∈ k'.orphaned ↔ i ∈ k.orphaned ∨ 0 < k.pgJobc i ∧ k'.pgJobc i = 0 := by
  obtain ⟨hqproc, hqp⟩ := h.tree.older.parent h.tree.nodup hp hq
  have hkids := h.tree.family.linked hp
  have hlen : (kids p).length < k.bound := h.tree.length_lt hp
  obtain ⟨new, hnew⟩ : ∃ new, k.affected (kids p) q g = new := ⟨_, rfl⟩
  obtain ⟨old, hold⟩ : ∃ old, k.affected (kids p) q (k.pPgrp p) = old := ⟨_, rfl⟩
  have hcount := exists_jobCount_eq (g := g) hp h.tree.nodup hq hqp (h.live hp) hkids.nodup
    (fun c => h.tree.kids_iff hp)
  rw [hnew, hold] at hcount
  -- the two adjustments
  obtain ⟨k1, hk1⟩ : ∃ k1, { k with pgJobc := fun i => k.pgJobc i + new.count i } = k1 := ⟨_, rfl⟩
  have hfix1 : k.fixjobc p g true = some k1 := by
    rw [fixjobc_eq hq hkids hlen, foldl_adjustJobc_true, hnew, hk1]
  obtain ⟨o, hfold, hsub, hcause, hzero⟩ := foldl_adjustJobc_false old k1
  obtain ⟨k2, hk2⟩ : ∃ k2, { k with
      pgJobc := fun i => k.pgJobc i + new.count i - old.count i
      orphaned := o } = k2 := ⟨_, rfl⟩
  have hfix2 : k1.fixjobc p (k1.pPgrp p) false = some k2 := by
    have heq : k1.fixjobc p (k.pPgrp p) false =
        some ((k1.affected (kids p) q (k.pPgrp p)).foldl (fun k g => k.adjustJobc g false) k1) := by
      refine fixjobc_eq ?_ ?_ ?_ false
      · rw [← hk1]
        exact hq
      · rw [← hk1]
        exact hkids
      · rw [← hk1]
        exact hlen
    have haff : k1.affected (kids p) q (k.pPgrp p) = old := by
      subst hk1
      exact hold
    have hgrp : k1.pPgrp = k.pPgrp := by rw [← hk1]
    rw [hgrp, heq, haff, hfold, ← hk1, ← hk2]
  -- the new lists
  have hgroups : Groups k2 {p | p ∈ k.procs} mem chain := by
    subst hk2
    exact ⟨h.groups.mems, h.groups.grp_eq, h.groups.grp_mem, h.groups.placed, h.groups.chains,
      h.groups.chain_mem, h.groups.chain_hash⟩
  have hsame : k2.pPgrp = k.pPgrp ∧ k2.pgrps = k.pgrps := by
    rw [← hk2]
    exact ⟨rfl, rfl⟩
  obtain ⟨n, m, f, b, chain', hrelink, hgroups'⟩ :=
    hgroups.relinkTo hp (by rw [hsame.2]; exact hg) (by rw [hsame.1]; exact hne)
  rw [hsame.1] at hrelink hgroups'
  obtain ⟨c, ss, gs, hregroup, hcases⟩ :=
    k2.regrouped_cases p g ((mem (k.pPgrp p)).erase p = [])
  rw [hregroup] at hrelink hgroups'
  obtain ⟨k', hk'⟩ : ∃ k', Kernel.setLinks { k2 with
      sCount := c
      sessions := ss
      pgrps := gs
      pPgrp := update k2.pPgrp p g } n m f b = k' := ⟨_, rfl⟩
  rw [hk'] at hrelink hgroups'
  have hmove : k.moveTo p g = some k' := by
    rw [Kernel.moveTo, hfix1, Option.bind_some, hfix2, Option.bind_some, hrelink]
  have hjobs (i : Ptr) : k'.jobCount i =
      Kernel.jobCount { k with pPgrp := update k.pPgrp p g } i := by
    rw [← hk', ← hk2]
    rfl
  have hgs {i : Ptr} (hi : i ∈ gs) : i ∈ k.pgrps := by
    rw [← hsame.2]
    rcases hcases with ⟨-, hgs, -⟩ | ⟨-, hgs, -⟩
    · rw [hgs] at hi
      exact Finset.mem_of_mem_erase hi
    · rwa [hgs] at hi
  have hjobc {i : Ptr} (hi : i ∈ k.pgrps) : k'.pgJobc i = k'.jobCount i := by
    obtain ⟨r, hbefore, hafter⟩ := hcount i
    have hpg : k'.pgJobc i = k.pgJobc i + new.count i - old.count i := by rw [← hk', ← hk2]; rfl
    rw [hjobs, hpg, h.jobc hi]
    omega
  refine ⟨k', update (update mem (k.pPgrp p) ((mem (k.pPgrp p)).erase p)) g
    (p :: mem g), chain', hmove, ⟨?_, ?_, ?_, ?_, ?_, ?_, ?_, ?_⟩, ?_⟩
  · have hprocs : k'.procs = k.procs := by
      rw [← hk', ← hk2]
      rfl
    rw [hprocs]
    exact hgroups'
  · intro i hi _
    have hi' : i ∈ gs := by rwa [← hk'] at hi
    by_cases hig : i = g
    · subst hig
      rw [update_self]
      exact cons_ne_nil _ _
    rw [update_of_ne hig]
    by_cases hip : i = k.pPgrp p
    · subst hip
      rw [update_self]
      rcases hcases with ⟨-, hgs, -⟩ | ⟨hlast, -⟩
      · rw [hgs, hsame.1] at hi'
        exact absurd rfl (Finset.ne_of_mem_erase hi')
      · exact hlast
    · rw [update_of_ne hip]
      refine h.nonempty (hgs hi') ?_
      rcases he with rfl | rfl
      · exact nofun
      · exact fun heq => hig (Option.some.inj heq)
  · rw [← hk', ← hk2]
    exact h.tree
  · rw [← hk', ← hk2]
    exact h.hashed
  · rw [← hk', ← hk2]
    exact h.live
  · intro i hi hroot
    have hip : i ≠ p := by
      rintro rfl
      rw [← hk', ← hk2] at hroot
      exact absurd (hq.symm.trans hroot) nofun
    have hgrp : k'.pPgrp i = k.pPgrp i := by
      rw [← hk', ← hk2]
      exact update_of_ne hip _ _
    have hrest : k'.sLeader = k.sLeader ∧ k'.pgSession = k.pgSession ∧ k'.pgId = k.pgId ∧
        k'.pPid = k.pPid ∧ k'.procs = k.procs ∧ k'.pPptr = k.pPptr := by
      rw [← hk', ← hk2]
      exact ⟨rfl, rfl, rfl, rfl, rfl, rfl⟩
    rw [hrest.2.2.2.2.1] at hi
    rw [hrest.2.2.2.2.2] at hroot
    rw [Kernel.sessLeader, Kernel.pSession, Kernel.pPgid, hgrp, hrest.1, hrest.2.1, hrest.2.2.1,
      hrest.2.2.2.1]
    exact h.root hi hroot
  · intro i hi
    exact hjobc (hgs (by rwa [← hk'] at hi))
  · rw [← hk']
    have hold := h.sessions.erase (h.groups.grp_mem hp).1
    rcases hcases with ⟨-, rfl, rfl, rfl⟩ | ⟨-, rfl, rfl, rfl⟩
    · rw [← hk2]
      exact hold
    · rw [← hk2]
      exact h.sessions
  · intro i hi
    have horph : k'.orphaned = o := by rw [← hk', ← hk2]; rfl
    have hk₁o : k1.orphaned = k.orphaned := by rw [← hk1]
    have hpg : k1.pgJobc i - old.count i = k'.pgJobc i := by rw [← hk', ← hk2, ← hk1]; rfl
    obtain ⟨r, hbefore, hafter⟩ := hcount i
    have hcard := hjobc hi
    have hcard0 := h.jobc hi
    rw [hjobs, hafter] at hcard
    rw [hbefore] at hcard0
    rw [horph, ← hk₁o]
    constructor
    · intro hio
      rcases hcause i hio with hio | ⟨hmem, hle⟩
      · exact .inl hio
      · have hpos := count_pos_iff.mpr hmem
        rw [hpg] at hle
        exact .inr ⟨by omega, by omega⟩
    · rintro (hio | ⟨hpos, hz⟩)
      · exact hsub i hio
      · refine hzero i (count_pos_iff.mp ?_) (hpg.trans hz)
        omega

end JobInv

end Bsd386.Kern.Proc
