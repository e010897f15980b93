import Bsd386.Kern.Proc.JobInv
import Bsd386.Lib.Transition

/-!
# Job control counts in every run

The processes that grow from the initial process by `fork1`, `setsid` and `setpgid`. In every state
of a run, `pg_jobc` of each group is the number of its members that qualify it, `pg_mem` lists
exactly the members, `s_count` is the number of groups of the session, and the hash table holds
exactly the groups that have a member (`jobControl_of_reach`).
-/

namespace Bsd386.Kern.Proc

open Function List Lib.Linked Lib.Transition Option Kernel

/-- `orphanpg` was called exactly for the groups whose count has come down to zero.
Source: fixjobc -/
def OrphanedExactly (k k' : Kernel) : Prop :=
  ∀ g ∈ k.pgrps, g ∈ k'.orphaned ↔ 0 < k.pgJobc g ∧ k'.pgJobc g = 0

def HasJobInv (k : Kernel) : Prop := ∃ mem chain kids bucket, JobInv k none mem chain kids bucket

variable {k k' : Kernel} {p q g a sa : Ptr}

theorem orphanedExactly_of_eq (horph : k'.orphaned = []) (hjobc : k'.pgJobc = k.pgJobc) :
    OrphanedExactly k k' := by
  intro g _
  rw [horph, hjobc]
  constructor
  · exact fun h => absurd h not_mem_nil
  · rintro ⟨hpos, hz⟩
    omega

namespace JobInv

variable {mem : Ptr → List Ptr} {chain : ℤ → List Ptr} {kids : Ptr → List Ptr}
  {bucket : ℤ → List Ptr}

/-! ## The calls -/

section

variable (h : JobInv k none mem chain kids bucket)
include h

theorem enterpgrp (hp : p ∈ k.procs) (hq : k.pPptr p = some q) (ha : a ∉ k.pgrps)
    (hsa : sa ∉ k.sessions) (horph : k.orphaned = []) (pgid : ℤ) (mksess : Bool) :
    ∃ k', k.enterpgrp p pgid mksess a sa = some k' ∧ HasJobInv k' ∧ OrphanedExactly k k' := by
  obtain ⟨r, hfind, hsome, hnone⟩ := h.groups.pgfind_eq pgid
  have hgrp := (h.groups.grp_mem hp).1
  rw [Kernel.enterpgrp, hfind, bind_some]
  cases r with
  | none =>
    obtain ⟨chain', h'⟩ := h.newPgrp hp ha hsa pgid mksess
    have hsame : (k.newPgrp p pgid mksess a sa).procs = k.procs ∧
        (k.newPgrp p pgid mksess a sa).pPptr = k.pPptr ∧
        (k.newPgrp p pgid mksess a sa).pPgrp = k.pPgrp ∧
        (k.newPgrp p pgid mksess a sa).pgrps = insert a k.pgrps ∧
        (k.newPgrp p pgid mksess a sa).orphaned = [] ∧
        (k.newPgrp p pgid mksess a sa).pgJobc = update k.pgJobc a 0 := by
      cases mksess <;> exact ⟨rfl, rfl, rfl, rfl, horph, rfl⟩
    obtain ⟨hprocs, hpptr, hpgrp, hpgrps, horph', hjobc⟩ := hsame
    have hne : a ≠ (k.newPgrp p pgid mksess a sa).pPgrp p := by
      rw [hpgrp]
      exact (ne_of_mem_of_not_mem hgrp ha).symm
    obtain ⟨k', mem', chain'', hmove, hinv, hexact⟩ := h'.moveTo (hprocs ▸ hp) (by rw [hpptr, hq])
      (by rw [hpgrps]; exact Finset.mem_insert_self _ _) hne (.inr rfl)
    refine ⟨k', hmove, ⟨mem', chain'', kids, bucket, hinv⟩, fun g hg => ?_⟩
    have hiff := hexact g (by rw [hpgrps]; exact Finset.mem_insert_of_mem hg)
    rw [horph', hjobc, update_of_ne (ne_of_mem_of_not_mem hg ha)] at hiff
    simpa using hiff
  | some g =>
    dsimp only
    by_cases hg : g = k.pPgrp p
    · rw [if_pos hg]
      exact ⟨k, rfl, ⟨mem, chain, kids, bucket, h⟩, orphanedExactly_of_eq horph rfl⟩
    rw [if_neg hg]
    obtain ⟨k', mem', chain', hmove, hinv, hexact⟩ :=
      h.moveTo hp hq (hsome g rfl).1 hg (.inl rfl)
    refine ⟨k', hmove, ⟨mem', chain', kids, bucket, hinv⟩, fun i hi => ?_⟩
    have hiff := hexact i hi
    rw [horph] at hiff
    simpa using hiff

theorem pfind_eq (pid : ℤ) :
    ∃ r, k.pfind pid = some r ∧ ∀ p, r = some p → p ∈ k.procs := by
  have hlinked := h.hashed.linked (Set.mem_univ (k.pidHash pid))
  have hsub : bucket (k.pidHash pid) ⊆ k.procs := fun p hp => h.hashed.mem (Set.mem_univ _) hp
  have hlen : (bucket (k.pidHash pid)).length < k.bound :=
    Nat.lt_succ_of_le (hlinked.nodup.subperm hsub).length_le
  obtain ⟨pre, post, hsplit, -, -, hwalk⟩ := walk_spec (k.pPid · == pid) hlinked hlen none
  refine ⟨post.head?, by rw [pfind, hwalk, map_some], fun p hp => ?_⟩
  refine hsub ?_
  rw [hsplit]
  exact mem_append_right _ (mem_of_head? hp)

theorem setsid (hp : p ∈ k.procs) (ha : a ∉ k.pgrps) (hsa : sa ∉ k.sessions) (horph : k.orphaned = []) :
    ∃ r k', k.setsid p a sa = some (r, k') ∧ HasJobInv k' ∧ OrphanedExactly k k' := by
  have hstay : HasJobInv k ∧ OrphanedExactly k k :=
    ⟨⟨mem, chain, kids, bucket, h⟩, orphanedExactly_of_eq horph rfl⟩
  rw [Kernel.setsid]
  by_cases hlead : k.pPgid p = k.pPid p
  · rw [if_pos hlead]
    exact ⟨_, k, rfl, hstay⟩
  rw [if_neg hlead]
  obtain ⟨r, hfind, -⟩ := h.groups.pgfind_eq (k.pPid p)
  rw [hfind, bind_some]
  cases r with
  | some g => exact ⟨_, k, rfl, hstay⟩
  | none =>
    cases hq : k.pPptr p with
    | none => exact absurd (h.root hp hq).2 hlead
    | some q =>
      obtain ⟨k', henter, hk'⟩ := h.enterpgrp hp hq ha hsa horph (k.pPid p) true
      exact ⟨none, k', by dsimp only; rw [henter]; rfl, hk'⟩

theorem setpgid (hp : p ∈ k.procs) (ha : a ∉ k.pgrps) (hsa : sa ∉ k.sessions) (horph : k.orphaned = [])
    (pid pgid : ℤ) :
    ∃ r k', k.setpgid p pid pgid a sa = some (r, k') ∧ HasJobInv k' ∧ OrphanedExactly k k' := by
  have hstay : HasJobInv k ∧ OrphanedExactly k k :=
    ⟨⟨mem, chain, kids, bucket, h⟩, orphanedExactly_of_eq horph rfl⟩
  have htarget : ∃ t, k.setpgidTarget p pid = some t ∧ ∀ targp, t = .ok targp → targp ∈ k.procs := by
    rw [setpgidTarget]
    by_cases hpid : pid ≠ 0 ∧ pid ≠ k.pPid p
    · rw [if_pos hpid]
      obtain ⟨r, hfind, hproc⟩ := h.pfind_eq pid
      rw [hfind, bind_some]
      cases r with
      | none => exact ⟨_, rfl, nofun⟩
      | some targp =>
        obtain ⟨inf, hinf⟩ := h.tree.older.inferior_isSome p (Nat.lt_succ_self _) (hproc targp rfl)
        dsimp only
        rw [bound, hinf]
        refine ⟨_, rfl, fun t ht => ?_⟩
        have hok : ∀ {b1 b2 b3 : Prop} [Decidable b1] [Decidable b2] [Decidable b3],
            (if b1 then Except.error Errno.esrch else if b2 then .error .eperm
              else if b3 then .error .eacces else .ok targp) = Except.ok t → t = targp := by
          intro b1 b2 b3 _ _ _ heq
          split_ifs at heq
          exact (Except.ok.inj heq).symm
        rw [hok ht]
        exact hproc targp rfl
    · rw [if_neg hpid]
      refine ⟨_, rfl, fun targp ht => ?_⟩
      rw [← Except.ok.inj ht]
      exact hp
  obtain ⟨t, htarget, hproc⟩ := htarget
  rw [Kernel.setpgid, htarget, bind_some]
  cases t with
  | error e => exact ⟨_, k, rfl, hstay⟩
  | ok targp =>
    have htargp := hproc targp rfl
    dsimp only
    by_cases hlead : k.sessLeader targp = true
    · rw [if_pos hlead]
      exact ⟨_, k, rfl, hstay⟩
    rw [if_neg hlead]
    cases hq : k.pPptr targp with
    | none => exact absurd (h.root htargp hq).1 hlead
    | some q =>
      have henter (id : ℤ) : ∃ r k', (k.enterpgrp targp id false a sa).map
          (fun k => ((none : Option Errno), k)) = some (r, k') ∧ HasJobInv k' ∧
          OrphanedExactly k k' := by
        obtain ⟨k', henter, hk'⟩ := h.enterpgrp htargp hq ha hsa horph id false
        exact ⟨none, k', by rw [henter]; rfl, hk'⟩
      by_cases hid : pgid = 0 ∨ pgid = k.pPid targp
      · rw [if_pos hid]
        exact henter _
      rw [if_neg hid]
      obtain ⟨r, hfind, -⟩ := h.groups.pgfind_eq pgid
      rw [hfind, bind_some]
      cases r with
      | none => exact ⟨_, k, rfl, hstay⟩
      | some g =>
        dsimp only
        by_cases hsess : k.pgSession g ≠ k.pSession p
        · rw [if_pos hsess]
          exact ⟨_, k, rfl, hstay⟩
        · rw [if_neg hsess]
          exact henter _

theorem fork1 {p1 p2 : Ptr} {junk : Junk} {n : ℕ} {r : Option Errno} (hp1 : p1 ∈ k.procs)
    (hp2 : p2 ∉ k.procs) (horph : k.orphaned = []) (hfork : k.fork1 p1 p2 junk n = some (r, k')) :
    HasJobInv k' ∧ OrphanedExactly k k' := by
  have hkind : k' = k ∨ ∃ nextpid pidchecked, k' =
      (forkLink { k with nextpid := nextpid, pidchecked := pidchecked } p1 p2
        junk).forkAssign p1 p2 := by
    rw [Kernel.fork1, Kernel.forkFind] at hfork
    by_cases hlim : k.forkLimited p1 = true
    · rw [if_pos hlim] at hfork
      exact .inl (congrArg Prod.snd (some.inj hfork)).symm
    · rw [if_neg hlim, Option.map_map, Option.map_eq_some_iff] at hfork
      obtain ⟨⟨nextpid, pidchecked⟩, -, heq⟩ := hfork
      exact .inr ⟨nextpid, pidchecked, (congrArg Prod.snd heq).symm⟩
  rcases hkind with rfl | ⟨nextpid, pidchecked, hk'⟩
  · exact ⟨⟨mem, chain, kids, bucket, h⟩, orphanedExactly_of_eq horph rfl⟩
  have hne {q : Ptr} (hq : q ∈ k.procs) : q ≠ p2 := ne_of_mem_of_not_mem hq hp2
  have hprocs : k'.procs = p2 :: k.procs := by rw [hk']; rfl
  have hset : {q | q ∈ k'.procs} = insert p2 {q | q ∈ k.procs} := by
    ext q
    simp [hprocs]
  have hgrp (q : Ptr) : k'.pPgrp q = update k.pPgrp p2 (k.pPgrp p1) q := by rw [hk']; rfl
  have hpptr : k'.pPptr = update k.pPptr p2 (some p1) := by rw [hk']; rfl
  have hsess {q : Ptr} (hq : q ∈ k.procs) : k'.pSession q = k.pSession q := by
    rw [pSession, hgrp, update_of_ne (hne hq), hk']
    rfl
  have hgroups : Groups { k with nextpid := nextpid, pidchecked := pidchecked } {q | q ∈ k.procs} mem
      chain :=
    ⟨h.groups.mems, h.groups.grp_eq, h.groups.grp_mem, h.groups.placed, h.groups.chains,
      h.groups.chain_mem, h.groups.chain_hash⟩
  have hself : update k.pPgrp p2 (k.pPgrp p1) p2 =
      update k.pPgrp p2 (k.pPgrp p1) p1 := by
    rw [update_self, update_of_ne (hne hp1)]
  have hlinked : Groups (forkLink { k with nextpid := nextpid, pidchecked := pidchecked } p1 p2
      junk) {q | q ∈ k.procs} mem chain := hgroups.forkLink hp2 junk
  obtain ⟨mem', hgroups', hempty⟩ := hlinked.forkAssign hp1 hp2 mem_cons_self hself
  rw [← hk', ← hset] at hgroups'
  refine ⟨⟨mem', chain, update (update kids p2 []) p1 (p2 :: kids p1),
    update bucket (k.pidHash nextpid) (p2 :: bucket (k.pidHash nextpid)), ?_⟩,
    orphanedExactly_of_eq (by rw [hk']; exact horph) (by rw [hk']; rfl)⟩
  constructor
  · exact hgroups'
  · intro g hg hne' hnil
    exact h.nonempty (by rwa [hk'] at hg) hne' (hempty g hnil)
  · rw [hprocs, hk']
    exact h.tree.fork hp1 hp2 nextpid
  · rw [hset, hk']
    exact h.hashed.push hp2 (k.pidHash nextpid)
  · intro q hq
    have hstat : k'.pStat = update k.pStat p2 .sidl := by rw [hk']; rfl
    rw [hstat]
    rw [hprocs] at hq
    rcases mem_cons.mp hq with rfl | hq
    · rw [update_self]
      rintro ⟨⟩
    · rw [update_of_ne (hne hq)]
      exact h.live hq
  · intro q hq hroot
    rw [hprocs] at hq
    rw [hpptr] at hroot
    rcases mem_cons.mp hq with rfl | hq
    · rw [update_self] at hroot
      cases hroot
    rw [update_of_ne (hne hq)] at hroot
    have hpid : k'.pPid q = k.pPid q := by
      rw [hk']
      exact (update_of_ne (hne hq) _ _).trans (update_of_ne (hne hq) _ _)
    rw [sessLeader, hsess hq, pPgid, hgrp, update_of_ne (hne hq), hpid, hk']
    exact h.root hq hroot
  · intro g hg
    have hjobc : k'.pgJobc = k.pgJobc := by rw [hk']; rfl
    rw [hjobc, h.jobc (by rwa [hk'] at hg), jobCount, jobCount, hprocs, countP_cons]
    -- the child is in the group of its parent
    have hchild : k'.qualifies p2 = false := by
      rw [qualifies, hpptr, update_self, any_some, hgrp, hgrp, hself]
      simp
    rw [hchild, Bool.and_false, if_neg Bool.false_ne_true, add_zero]
    refine congrArg _ (countP_qualifies_congr (fun q hq => h.mem_parent hq) (fun q hq => ?_)
      (fun q hq => ?_) g).symm
    · exact ⟨by rw [hgrp, update_of_ne (hne hq)], hsess hq⟩
    · refine ⟨?_, by rw [hpptr, update_of_ne (hne hq)]⟩
      rw [hk']
      exact update_of_ne (hne hq) _ _
  · rw [hk']
    exact h.sessions

end

end JobInv

/-! ## Runs -/

theorem Initial.jobInv {s : Ptr} (h : Initial k p g s) : HasJobInv k := by
  have hprocs : k.procs = [p] := by rw [procs, h.allproc, h.zombproc]; rfl
  have hp {q : Ptr} (hq : q ∈ k.procs) : q = p := by
    rw [hprocs] at hq
    exact mem_singleton.mp hq
  have hpgrps {i : Ptr} (hi : i ∈ k.pgrps) : i = g := by
    rw [h.pgrps] at hi
    exact Finset.mem_singleton.mp hi
  refine ⟨fun _ => [p], fun b => if b = 0 then [g] else [], fun _ => [],
    fun b => if k.pidhash b = none then [] else [p], ?_⟩
  constructor
  · exact h.groups
  · exact fun _ _ => cons_ne_nil _ _
  · rw [hprocs]
    constructor
    · exact nodup_singleton p
    · exact ⟨fun q hq => absurd (h.pPptr.symm.trans hq) (some_ne_none q).symm, fun _ => h.pPid, trivial⟩
    · constructor
      · intro q hq
        rw [mem_singleton.mp hq]
        exact h.pCptr
      · exact fun _ _ hm _ => absurd hm not_mem_nil
      · exact fun _ hm => absurd hm not_mem_nil
    · intro q c _
      refine ⟨fun hc => absurd hc not_mem_nil, ?_⟩
      rintro ⟨hc, hpar⟩
      rw [mem_singleton.mp hc, h.pPptr] at hpar
      exact absurd hpar (some_ne_none q).symm
  · have hbucket {b : ℤ} {m : Ptr} (hm : m ∈ (if k.pidhash b = none then [] else [p])) :
        b = 0 ∧ m = p := by
      rcases h.pidhash b with hb | ⟨hb, hhd⟩
      · rw [if_pos hb] at hm
        exact absurd hm not_mem_nil
      · rw [if_neg (by rw [hhd]; exact some_ne_none p)] at hm
        exact ⟨hb, mem_singleton.mp hm⟩
    constructor
    · intro b _
      rcases h.pidhash b with hb | ⟨-, hhd⟩
      · rw [if_pos hb]
        exact hb
      · rw [if_neg (by rw [hhd]; exact some_ne_none p)]
        exact ⟨hhd, h.pHash⟩
    · intro b c m _ _ hb hc
      rw [(hbucket hb).1, (hbucket hc).1]
    · intro b m _ hm
      rw [hprocs, (hbucket hm).2]
      exact mem_singleton_self p
  · intro q hq
    rw [hp hq]
    exact h.pStat
  · intro q hq _
    rw [hp hq, sessLeader, pSession, pPgid, h.pPgrp, h.pgSession, h.sLeader,
      h.pgId, h.pPid]
    exact ⟨beq_self_eq_true p, rfl⟩
  · intro i hi
    rw [hpgrps hi, h.pgJobc, jobCount, hprocs, countP_singleton, qualifies, h.pPptr]
    simp
  · rw [h.pgrps, h.sessions]
    constructor
    · intro i hi
      rw [Finset.mem_singleton.mp hi, h.pgSession]
      exact Finset.mem_singleton_self s
    · intro t ht
      rw [Finset.mem_singleton.mp ht, h.sCount, Finset.filter_singleton, if_pos h.pgSession]
      exact ⟨rfl, by decide⟩

/-- A system call, or what else happens to a process between calls: it becomes runnable, sleeps or is
stopped, or it executes another program.
Source: fork1, setsid, setpgid -/
inductive Call (k : Kernel) : Kernel → Prop where
  | fork1 {p₁ p₂ : Ptr} {junk : Junk} {n : ℕ} {r : Option Errno} {k' : Kernel} : p₁ ∈ k.procs →
      p₂ ∉ k.procs → k.fork1 p₁ p₂ junk n = some (r, k') → Call k k'
  | setsid {p a sa : Ptr} {r : Option Errno} {k' : Kernel} : p ∈ k.procs → a ∉ k.pgrps →
      sa ∉ k.sessions → k.setsid p a sa = some (r, k') → Call k k'
  | setpgid {p a sa : Ptr} {pid pgid : ℤ} {r : Option Errno} {k' : Kernel} : p ∈ k.procs →
      a ∉ k.pgrps → sa ∉ k.sessions → k.setpgid p pid pgid a sa = some (r, k') → Call k k'
  | sched {p : Ptr} {s : Stat} : s ≠ .szomb → Call k { k with pStat := update k.pStat p s }
  | exec {p : Ptr} : Call k { k with sexec := update k.sexec p true }

/-- A call, from where on the groups are noted for which it calls `orphanpg`. -/
def Step (k k' : Kernel) : Prop := Call { k with orphaned := [] } k'

/-- The initial state, the addresses whatever they are. -/
def IsInitial (k : Kernel) : Prop := ∃ p g s, Initial k p g s

theorem HasJobInv.step (h : HasJobInv k) (hstep : Step k k') : HasJobInv k' ∧ OrphanedExactly k k' := by
  obtain ⟨mem, chain, kids, bucket, h⟩ := h
  have h0 : JobInv { k with orphaned := [] } none mem chain kids bucket :=
    ⟨⟨h.groups.mems, h.groups.grp_eq, h.groups.grp_mem, h.groups.placed, h.groups.chains,
      h.groups.chain_mem, h.groups.chain_hash⟩, h.nonempty, h.tree, h.hashed, h.live, h.root, h.jobc,
      h.sessions⟩
  cases hstep with
  | fork1 hp1 hp2 hfork => exact h0.fork1 hp1 hp2 rfl hfork
  | setsid hp ha hsa hcall =>
    obtain ⟨r, k1, hcall', hk1⟩ := h0.setsid hp ha hsa rfl
    rw [hcall] at hcall'
    obtain rfl := congrArg Prod.snd (some.inj hcall')
    exact hk1
  | setpgid hp ha hsa hcall =>
    obtain ⟨r, k1, hcall', hk1⟩ := h0.setpgid hp ha hsa rfl _ _
    rw [hcall] at hcall'
    obtain rfl := congrArg Prod.snd (some.inj hcall')
    exact hk1
  | @sched p s hs =>
    refine ⟨⟨mem, chain, kids, bucket, ?_⟩, orphanedExactly_of_eq rfl rfl⟩
    have hlive {q : Ptr} (hq : q ∈ k.procs) : update k.pStat p s q ≠ .szomb := by
      by_cases hqp : q = p
      · subst hqp
        rwa [update_self]
      · rw [update_of_ne hqp]
        exact h.live hq
    refine ⟨⟨h.groups.mems, h.groups.grp_eq, h.groups.grp_mem, h.groups.placed, h.groups.chains,
      h.groups.chain_mem, h.groups.chain_hash⟩, h.nonempty, h.tree, h.hashed, hlive, h.root,
      fun {g} hg => (h.jobc hg).trans (congrArg _ ?_), h.sessions⟩
    refine countP_congr fun q hq => ?_
    rw [qualifies, qualifies, bne_iff_ne.mpr (h.live hq), bne_iff_ne.mpr (hlive hq)]
    rfl
  | exec =>
    refine ⟨⟨mem, chain, kids, bucket, ?_⟩, orphanedExactly_of_eq rfl rfl⟩
    exact ⟨⟨h.groups.mems, h.groups.grp_eq, h.groups.grp_mem, h.groups.placed, h.groups.chains,
      h.groups.chain_mem, h.groups.chain_hash⟩, h.nonempty, h.tree, h.hashed, h.live, h.root, h.jobc,
      h.sessions⟩

theorem hasJobInv_of_reach (h : Reach IsInitial Step k) : HasJobInv k := by
  refine h.invariant ?_ fun k k' _ hk hstep => (hk.step hstep).1
  rintro k ⟨p, g, s, hinit⟩
  exact hinit.jobInv

/-- What holds of the groups and sessions.
Source: proc.h (pgrp, session), comment of fixjobc -/
structure JobControl (k : Kernel) : Prop where
  /-- `pg_mem` lists exactly the members, and there are some. -/
  members {g : Ptr} : g ∈ k.pgrps → ∃ l, Linked k.pPgrpnxt (k.pgMem g) l ∧ l ≠ [] ∧
    ∀ p, p ∈ l ↔ p ∈ k.procs ∧ k.pPgrp p = g
  /-- each process is in a group, and in the session of it. -/
  grouped {p : Ptr} : p ∈ k.procs → k.pPgrp p ∈ k.pgrps
  session {g p : Ptr} : g ∈ k.pgrps → p ∈ k.procs → k.pPgrp p = g → k.pSession p = k.pgSession g
  /-- `pgrphash` holds exactly the groups. -/
  hashed (b : ℤ) : ∃ l, Linked k.pgHforw (k.pgrphash b) l ∧
    ∀ g, g ∈ l ↔ g ∈ k.pgrps ∧ k.pidHash (k.pgId g) = b
  /-- `pg_jobc` counts the members that qualify, and is zero exactly when there is none. -/
  jobc {g : Ptr} : g ∈ k.pgrps → k.pgJobc g = k.jobCount g
  jobc_nonneg {g : Ptr} : g ∈ k.pgrps → 0 ≤ k.pgJobc g
  orphaned_iff {g : Ptr} : g ∈ k.pgrps →
    (k.pgJobc g = 0 ↔ ∀ p ∈ k.procs, k.pPgrp p = g → k.qualifies p = false)
  /-- `s_count` is the number of groups of the session. -/
  inSession {g : Ptr} : g ∈ k.pgrps → k.pgSession g ∈ k.sessions
  count {s : Ptr} : s ∈ k.sessions →
    k.sCount s = (k.pgrps.filter (k.pgSession · = s)).card ∧ 0 < k.sCount s

theorem HasJobInv.jobControl (h : HasJobInv k) : JobControl k := by
  obtain ⟨mem, chain, kids, bucket, h⟩ := h
  constructor
  · intro g hg
    refine ⟨mem g, h.groups.mems.linked hg, h.nonempty hg nofun, fun p => ⟨fun hp => ?_, ?_⟩⟩
    · exact ⟨h.groups.placed (h.groups.mems.mem hg hp), h.groups.grp_eq hg hp⟩
    · rintro ⟨hp, rfl⟩
      exact (h.groups.grp_mem hp).2
  · exact fun hp => (h.groups.grp_mem hp).1
  · rintro g p - - rfl
    rfl
  · intro b
    refine ⟨chain b, h.groups.chains.linked (Set.mem_univ b), fun g => ⟨fun hg => ?_, ?_⟩⟩
    · exact ⟨h.groups.chains.mem (Set.mem_univ b) hg, h.groups.chain_hash hg⟩
    · rintro ⟨hg, rfl⟩
      exact h.groups.chain_mem hg
  · exact h.jobc
  · intro g hg
    rw [h.jobc hg]
    exact Int.natCast_nonneg _
  · intro g hg
    rw [h.jobc hg, jobCount, Int.natCast_eq_zero, countP_eq_zero]
    refine forall_congr' fun p => forall_congr' fun _ => ?_
    by_cases hp : k.pPgrp p = g
    · simp [hp]
    · simp [hp]
  · exact h.sessions.mem
  · exact h.sessions.count

/-- **Job control counts.** In every state that `fork1`, `setsid` and `setpgid` reach from the initial
process, the counts are those of the members, and every call treats as orphaned, by `orphanpg`, exactly
the groups whose last qualifying member it takes away. Kind: P. -/
theorem jobControl_of_reach (h : Reach IsInitial Step k) :
    JobControl k ∧ ∀ k', Step k k' → OrphanedExactly k k' :=
  ⟨(hasJobInv_of_reach h).jobControl, fun _ hstep => ((hasJobInv_of_reach h).step hstep).2⟩

/-- The initial state with one process at the address 0, alone in its group and session. -/
def boot : Kernel where
  pPid _ := 0
  pUid _ := 0
  rlimNproc _ := 40
  pStat _ := .srun
  sexec _ := false
  pHash _ := none
  pPgrpnxt _ := none
  pPptr _ := none
  pOsptr _ := none
  pCptr _ := none
  pPgrp _ := 0
  pgHforw _ := none
  pgMem _ := some 0
  pgSession _ := 0
  pgId _ := 0
  pgJobc _ := 0
  sCount _ := 1
  sLeader _ := 0
  allproc := [0]
  zombproc := []
  pgrps := {0}
  sessions := {0}
  pidhash _ := none
  pgrphash b := if b = 0 then some 0 else none
  pidhashmask := 63
  nprocs := 1
  maxproc := 20
  nextpid := 0
  pidchecked := 0
  orphaned := []

theorem boot_initial : Initial boot 0 0 0 := by
  constructor
  case pStat => exact nofun
  case pidhash => exact fun _ => .inl rfl
  case pgrphash => exact fun _ => rfl
  all_goals rfl

/-- The initial process forks, and its child makes a group of its own: it qualifies this group.
Source: fork1, setpgid. Kind: C -/
theorem jobControl_shell :
    ∃ k, (JobControl k ∧ ∀ k', Step k k' → OrphanedExactly k k') ∧ 1 ∈ k.pgrps ∧ k.pgJobc 1 = 1 := by
  obtain ⟨k1, hk1⟩ : ∃ k1, k1 = ((boot.fork1 0 1 ⟨0, 0⟩ 2).get (by decide)).2 := ⟨_, rfl⟩
  have hfork : boot.fork1 0 1 ⟨0, 0⟩ 2 = some (none, k1) := by
    rw [hk1]
    rfl
  obtain ⟨k2, hk2⟩ : ∃ k2, k2 = ((k1.setpgid 1 0 0 1 1).get (by rw [hk1]; decide)).2 := ⟨_, rfl⟩
  have hpgid : setpgid { k1 with orphaned := [] } 1 0 0 1 1 = some (none, k2) := by
    subst hk1 hk2
    rfl
  have hreach : Reach IsInitial Step k2 := by
    refine .step (.step (.start ⟨0, 0, 0, boot_initial⟩) (.fork1 ?_ ?_ hfork)) (.setpgid ?_ ?_ ?_ hpgid)
    · decide
    · decide
    all_goals
      rw [hk1]
      decide
  refine ⟨k2, jobControl_of_reach hreach, ?_⟩
  subst hk1 hk2
  decide

end Bsd386.Kern.Proc
