import Bsd386.Kern.Proc.Interleave
import Bsd386.Kern.Proc.JobControl

/-!
# Process identifiers are unique

In every run whose actions meet `State.Meets`, no two processes have the same identifier, the
identifier that a `fork1` assigns is not that of a group, and the search for it ends when there is an
unused one (`unique_of_reach`). Each action keeps `PidInv`: one lemma for each.

Without the condition two processes that fork at the same time get the same identifier, and a search
from 100 where the processes 100 and 101 are in the group 100 finds 101 (`not_unique`).
-/

namespace Bsd386.Kern.Proc

open Function List Lib.Linked Lib.Transition

variable {s s' : State} {mem : Ptr → List Ptr} {chain bucket : ℤ → List Ptr} {p q p₁ p₂ a sa : Ptr}

def HasPidInv (s : State) : Prop := ∃ mem chain bucket, PidInv s mem chain bucket

theorem State.mem_of_running (h : s.running p = true) :
    p ∈ s.kernel.allproc ∧ p ∈ s.named ∧ ∀ f ∈ s.forks, f.1 ≠ p := by
  simp only [State.running, Bool.and_eq_true, contains_iff_mem, all_eq_true, bne_iff_ne] at h
  exact ⟨h.1, ⟨mem_append_left _ h.1, fun f hf => (h.2 f hf).2⟩, fun f hf => (h.2 f hf).1⟩

namespace PidInv

section

variable (h : PidInv s mem chain bucket)
include h

theorem forks_eq {f : Ptr × Option Ptr} (hf : f ∈ s.forks) :
    s.forks = [f] := by
  have hfew := h.few
  rcases hforks : s.forks with _ | ⟨f', _ | ⟨f'', l⟩⟩
  · rw [hforks] at hf
    exact absurd hf not_mem_nil
  · rw [hforks] at hf
    rw [mem_singleton.mp hf]
  · rw [hforks] at hfew
    simp at hfew

theorem free_of_unused {i : ℤ} (hi : ∀ p ∈ s.named, s.kernel.pPid p ≠ i ∧ s.kernel.pPgid p ≠ i) :
    Free s.kernel s.named i := by
  refine ⟨fun p hp => (hi p hp).1, fun g hg => ?_⟩
  obtain ⟨p, hp⟩ := exists_mem_of_ne_nil _ (h.nonempty g hg)
  have hgrp := h.groups.grp_eq hg hp
  rw [← hgrp]
  exact (hi p (h.groups.mems.mem hg hp)).2

theorem bucket_length_lt (b : ℤ) :
    (bucket b).length < s.kernel.bound := by
  have hsub : bucket b ⊆ s.kernel.procs := fun p hp => (h.hashed.mem (Set.mem_univ b) hp).1
  have hle := ((h.hashed.linked (Set.mem_univ b)).nodup.subperm hsub).length_le
  exact Nat.lt_succ_of_le hle

/-! ## The parts of `fork1` -/

theorem find {n : ℕ} (hmeets : s.Meets (.find p₁ n)) (hstep : s.step (.find p₁ n) = some s') :
    PidInv s' mem chain bucket := by
  rw [State.step] at hstep
  by_cases hrun : s.running p₁ = true
  swap
  · rw [if_neg hrun] at hstep
    cases hstep
  rw [if_pos hrun, Kernel.forkFind] at hstep
  by_cases hlim : s.kernel.forkLimited p₁ = true
  · rw [if_pos hlim] at hstep
    obtain rfl := Option.some.inj hstep
    exact h
  rw [if_neg hlim, Option.map_map, Option.map_eq_some_iff] at hstep
  obtain ⟨⟨n', c'⟩, hfind, heq⟩ := hstep
  have hs' : s' = ⟨{ s.kernel with nextpid := n', pidchecked := c' }, (p₁, none) :: s.forks⟩ := heq.symm
  subst hs'
  obtain ⟨hforks, hclean⟩ := hmeets.resolve_left hlim
  have hnamed : s.named = {p | p ∈ s.kernel.procs} := by
    ext p
    simp [State.named, hforks]
  have hrange : Unused s.kernel.ids (s.kernel.nextpid + 1) s.kernel.pidchecked := by
    intro e he i hi hi'
    obtain ⟨p, hp, rfl⟩ := mem_map.mp he
    have hp' : p ∈ s.named := by rw [hnamed]; exact hp
    obtain ⟨hpid, hgid⟩ := h.range i (by omega) hi'
    exact ⟨hpid p hp', hgid _ (h.groups.grp_mem hp').1⟩
  obtain ⟨hunused, hlt⟩ := findPid_unused hrange hfind hclean
  have hfree : ∀ i, n' ≤ i → i < c' → Free s.kernel s.named i := by
    intro i hi hi'
    refine h.free_of_unused fun p hp => ?_
    exact hunused _ (mem_map.mpr ⟨p, hp.1, rfl⟩) i hi hi'
  obtain ⟨hall, hp1, -⟩ := State.mem_of_running hrun
  have hsame : State.named ⟨{ s.kernel with nextpid := n', pidchecked := c' }, (p₁, none) :: s.forks⟩ =
      s.named := by
    rw [hnamed]
    ext p
    simp [State.named, hforks, Kernel.procs]
  have hgroups : Groups { s.kernel with nextpid := n', pidchecked := c' } s.named mem chain :=
    ⟨h.groups.mems, h.groups.grp_eq, h.groups.grp_mem, h.groups.placed, h.groups.chains,
      h.groups.chain_mem, h.groups.chain_hash⟩
  constructor
  · rw [hsame]
    exact hgroups
  · exact h.nonempty
  · exact h.nodup
  · rw [hsame]
    exact h.hashed
  · rw [hsame]
    exact h.distinct
  · rw [hsame]
    exact fun i hi hi' => hfree i (Int.le_of_lt hi) hi'
  · dsimp only
    rw [hforks]
    exact Nat.le_refl 1
  · intro f hf
    rw [hsame]
    rw [hforks] at hf
    obtain rfl := mem_singleton.mp hf
    exact ⟨hall, hp1, hfree n' (Int.le_refl n') hlt⟩
  · intro q1 q2 hf
    rw [hforks] at hf
    cases mem_singleton.mp hf

theorem link {junk : Junk} (hmeets : s.Meets (.link p₁ p₂ junk))
    (hstep : s.step (.link p₁ p₂ junk) = some s') : PidInv s' mem chain bucket := by
  rw [State.step] at hstep
  by_cases hcan : (p₁, none) ∈ s.forks ∧ p₂ ∉ s.kernel.procs
  swap
  · rw [if_neg hcan] at hstep
    exact absurd hstep nofun
  rw [if_pos hcan] at hstep
  obtain rfl := Option.some.inj hstep
  obtain ⟨hmem, hnew⟩ := hcan
  have hforks := h.forks_eq hmem
  obtain ⟨hall, hp1, hfree⟩ := h.fork hmem
  have herase : (p₁, some p₂) :: s.forks.erase (p₁, none) = [(p₁, some p₂)] := by
    rw [hforks, erase_cons_head]
  rw [herase]
  have hne {q : Ptr} (hq : q ∈ s.kernel.procs) : q ≠ p₂ := ne_of_mem_of_not_mem hq hnew
  have hsame : State.named ⟨s.kernel.forkLink p₁ p₂ junk, [(p₁, some p₂)]⟩ = s.named := by
    ext q
    constructor
    · rintro ⟨hq, hf⟩
      have hqp : q ≠ p₂ := fun hqp => hf _ (mem_singleton_self _) (congrArg some hqp.symm)
      refine ⟨(mem_cons.mp hq).resolve_left hqp, ?_⟩
      rw [hforks]
      simp
    · rintro ⟨hq, -⟩
      refine ⟨mem_cons_of_mem _ hq, fun f hf => ?_⟩
      rw [mem_singleton.mp hf]
      exact fun heq => hne hq (Option.some.inj heq).symm
  have hpid {q : Ptr} (hq : q ∈ s.named) : (s.kernel.forkLink p₁ p₂ junk).pPid q = s.kernel.pPid q :=
    update_of_ne (hne hq.1) _ _
  have hkeep {i : ℤ} (hi : Free s.kernel s.named i) :
      Free (s.kernel.forkLink p₁ p₂ junk) s.named i :=
    ⟨fun q hq => by rw [hpid hq]; exact hi.1 q hq, hi.2⟩
  constructor
  · rw [hsame]
    exact h.groups.forkLink hnew junk
  · exact h.nonempty
  · exact nodup_cons.mpr ⟨hnew, h.nodup⟩
  · rw [hsame]
    exact h.hashed
  · rw [hsame]
    intro q hq q' hq' hqq
    rw [hpid hq, hpid hq']
    exact h.distinct q hq q' hq' hqq
  · rw [hsame]
    exact fun i hi hi' => hkeep (h.range i hi hi')
  · exact Nat.le_refl 1
  · intro f hf
    rw [hsame]
    obtain rfl := mem_singleton.mp hf
    exact ⟨mem_cons_of_mem _ hall, hp1, hkeep hfree⟩
  · intro q1 q2 hf
    rw [hsame]
    obtain ⟨rfl, hq2⟩ := Prod.mk.inj (mem_singleton.mp hf)
    obtain rfl := Option.some.inj hq2
    refine ⟨mem_cons_self, ?_, fun q hq => ?_⟩
    · exact (update_self _ _ _).trans (update_of_ne (hne hp1.1) _ _).symm
    · dsimp only
      rw [hpid hq]
      refine fun heq => hmeets q hq.1 (heq.trans ?_)
      exact update_self _ _ _

theorem assign (hstep : s.step (.assign p₁ p₂) = some s') :
    HasPidInv s' ∧ ∀ g ∈ s'.kernel.pgrps, s'.kernel.pgId g ≠ s'.kernel.pPid p₂ := by
  rw [State.step] at hstep
  by_cases hmem : (p₁, some p₂) ∈ s.forks
  swap
  · rw [if_neg hmem] at hstep
    exact absurd hstep nofun
  rw [if_pos hmem] at hstep
  obtain rfl := Option.some.inj hstep
  have hforks := h.forks_eq hmem
  obtain ⟨-, hp1, hfree⟩ := h.fork hmem
  obtain ⟨hall, hgrp, -⟩ := h.child hmem
  have hproc : p₂ ∈ s.kernel.procs := mem_append_left _ hall
  have hnew : p₂ ∉ s.named := fun hp => hp.2 _ hmem rfl
  have hne {q : Ptr} (hq : q ∈ s.named) : q ≠ p₂ := ne_of_mem_of_not_mem hq hnew
  rw [hforks, erase_cons_head]
  have hnamed : State.named ⟨s.kernel.forkAssign p₁ p₂, []⟩ = insert p₂ s.named := by
    ext q
    constructor
    · rintro ⟨hq, -⟩
      by_cases hqp : q = p₂
      · exact .inl hqp
      refine .inr ⟨hq, fun f hf => ?_⟩
      rw [hforks] at hf
      rw [mem_singleton.mp hf]
      exact fun heq => hqp (Option.some.inj heq).symm
    · rintro (rfl | hq)
      · exact ⟨hproc, nofun⟩
      · exact ⟨hq.1, nofun⟩
  have hself : (s.kernel.forkAssign p₁ p₂).pPid p₂ = s.kernel.nextpid := update_self _ _ _
  have hpid {q : Ptr} (hq : q ∈ s.named) : (s.kernel.forkAssign p₁ p₂).pPid q = s.kernel.pPid q :=
    update_of_ne (hne hq) _ _
  obtain ⟨mem', hgroups, hempty⟩ := h.groups.forkAssign hp1 hnew hproc hgrp
  refine ⟨⟨mem', chain, update bucket (s.kernel.pidHash s.kernel.nextpid)
    (p₂ :: bucket (s.kernel.pidHash s.kernel.nextpid)), ?_⟩, ?_⟩
  · constructor
    · rw [hnamed]
      exact hgroups
    · exact fun g hg hnil => h.nonempty g hg (hempty g hnil)
    · exact h.nodup
    · rw [hnamed]
      exact h.hashed.push hnew (s.kernel.pidHash s.kernel.nextpid)
    · rw [hnamed]
      rintro q (rfl | hq) q' (rfl | hq') hqq
      · exact absurd rfl hqq
      · dsimp only
        rw [hself, hpid hq']
        exact (hfree.1 q' hq').symm
      · dsimp only
        rw [hself, hpid hq]
        exact hfree.1 q hq
      · dsimp only
        rw [hpid hq, hpid hq']
        exact h.distinct q hq q' hq' hqq
    · rw [hnamed]
      intro i hi hi'
      obtain ⟨hpids, hgids⟩ := h.range i hi hi'
      refine ⟨?_, hgids⟩
      rintro q (rfl | hq)
      · dsimp only
        rw [hself]
        exact ne_of_lt hi
      · dsimp only
        rw [hpid hq]
        exact hpids q hq
    · exact Nat.zero_le 1
    · exact fun hf => absurd hf not_mem_nil
    · exact fun hf => absurd hf not_mem_nil
  · intro g hg
    rw [hself]
    exact hfree.2 g hg

/-! ## `setsid` and `setpgid` -/

theorem regroup {k' : Kernel} {mem' : Ptr → List Ptr} {chain' : ℤ → List Ptr}
    (hsame : SameProcs s.kernel k' p) (hp : p ∈ s.named) (hchild : ∀ p₂, (p, some p₂) ∉ s.forks)
    (hgroups : Groups k' s.named mem' chain') (hnonempty : ∀ g ∈ k'.pgrps, mem' g ≠ [])
    (hids : ∀ g ∈ k'.pgrps, (∃ q ∈ s.named, s.kernel.pPid q = k'.pgId g) ∨ ∃ g' ∈ s.kernel.pgrps,
      s.kernel.pgId g' = k'.pgId g) :
    PidInv { s with kernel := k' } mem' chain' bucket := by
  have hprocs : k'.procs = s.kernel.procs := by
    rw [Kernel.procs, Kernel.procs, hsame.allproc, hsame.zombproc]
  have hnamed : State.named { s with kernel := k' } = s.named := by
    ext q
    simp only [State.named, hprocs]
  have hkeep {i : ℤ} (hi : Free s.kernel s.named i) : Free k' s.named i := by
    refine ⟨fun q hq => by rw [hsame.pPid]; exact hi.1 q hq, fun g hg => ?_⟩
    rcases hids g hg with ⟨q, hq, heq⟩ | ⟨g', hg', heq⟩
    · rw [← heq]
      exact hi.1 q hq
    · rw [← heq]
      exact hi.2 g' hg'
  constructor
  · rw [hnamed]
    exact hgroups
  · exact hnonempty
  · rw [hprocs]
    exact h.nodup
  · rw [hnamed, hsame.pHash, hsame.pidhash]
    exact h.hashed
  · rw [hnamed, hsame.pPid]
    exact h.distinct
  · rw [hnamed, hsame.nextpid, hsame.pidchecked]
    exact fun i hi hi' => hkeep (h.range i hi hi')
  · exact h.few
  · intro f hf
    rw [hnamed, hsame.nextpid, hsame.allproc]
    obtain ⟨hall, hf1, hfree⟩ := h.fork hf
    exact ⟨hall, hf1, hkeep hfree⟩
  · intro p₁ p₂ hf
    obtain ⟨hall, hgrp, hpid⟩ := h.child hf
    have hp1 : p₁ ≠ p := fun heq => hchild p₂ (heq ▸ hf)
    have hp2 : p₂ ≠ p := fun heq => hp.2 _ hf (congrArg some heq)
    rw [hnamed, hsame.allproc, hsame.pPid, hsame.pPgrp hp1, hsame.pPgrp hp2]
    exact ⟨hall, hgrp, hpid⟩

theorem enterpgrp {k' : Kernel} {pgid : ℤ} {mksess : Bool} (hp : p ∈ s.named)
    (hchild : ∀ p₂, (p, some p₂) ∉ s.forks) (ha : a ∉ s.kernel.pgrps)
    (hpgid : (∃ q ∈ s.named, s.kernel.pPid q = pgid) ∨ ∃ g ∈ s.kernel.pgrps, s.kernel.pgId g = pgid)
    (henter : s.kernel.enterpgrp p pgid mksess a sa = some k') :
    HasPidInv { s with kernel := k' } := by
  obtain ⟨⟨mem', chain', hgroups, hnonempty⟩, hsame, hids⟩ :=
    h.groups.enterpgrp_frame h.nonempty hp ha henter
  refine ⟨mem', chain', bucket, h.regroup hsame hp hchild hgroups hnonempty fun g hg => ?_⟩
  rcases hids g hg with heq | hold
  · rw [heq]
    exact hpgid
  · exact .inr hold

theorem setsid (hstep : s.step (.setsid p a sa) = some s') :
    HasPidInv s' := by
  rw [State.step] at hstep
  by_cases hcan : s.running p = true ∧ a ∉ s.kernel.pgrps ∧ sa ∉ s.kernel.sessions
  swap
  · rw [if_neg hcan] at hstep
    exact absurd hstep nofun
  rw [if_pos hcan, Option.map_eq_some_iff] at hstep
  obtain ⟨⟨r, k'⟩, hset, rfl⟩ := hstep
  obtain ⟨hrun, ha, -⟩ := hcan
  obtain ⟨-, hp, hforks⟩ := State.mem_of_running hrun
  rw [Kernel.setsid] at hset
  by_cases heq : s.kernel.pPgid p = s.kernel.pPid p
  · rw [if_pos heq] at hset
    obtain ⟨-, rfl⟩ := Prod.mk.inj (Option.some.inj hset)
    exact ⟨mem, chain, bucket, h⟩
  rw [if_neg heq] at hset
  obtain ⟨g, hfind, -, -⟩ := h.groups.pgfind_eq (s.kernel.pPid p)
  rw [hfind, Option.bind_some] at hset
  cases g with
  | some g =>
    obtain ⟨-, rfl⟩ := Prod.mk.inj (Option.some.inj hset)
    exact ⟨mem, chain, bucket, h⟩
  | none =>
    obtain ⟨k'', henter, heq⟩ := Option.map_eq_some_iff.mp hset
    obtain ⟨-, rfl⟩ := Prod.mk.inj heq
    exact h.enterpgrp hp (fun p₂ hf => hforks _ hf rfl) ha (.inl ⟨p, hp, rfl⟩) henter

theorem named_of_pfind {pid : ℤ} (hfind : s.kernel.pfind pid = some (some p)) : p ∈ s.named := by
  obtain ⟨pre, post, hsplit, -, -, hwalk⟩ := walk_spec (s.kernel.pPid · == pid)
    (h.hashed.linked (Set.mem_univ (s.kernel.pidHash pid))) (h.bucket_length_lt _) none
  rw [Kernel.pfind, hwalk, Option.map_some] at hfind
  have hmem : p ∈ bucket (s.kernel.pidHash pid) := by
    rw [hsplit]
    exact mem_append_right _ (mem_of_head? (Option.some.inj hfind))
  exact h.hashed.mem (Set.mem_univ _) hmem

theorem named_of_target {t : Ptr} {pid pgid : ℤ} (hmeets : s.Meets (.setpgid p pid pgid a sa))
    (hrun : s.running p = true) (ht : s.kernel.setpgidTarget p pid = some (.ok t)) :
    t ∈ s.named ∧ ∀ p₂, (t, some p₂) ∉ s.forks := by
  refine ⟨?_, fun p₂ hf => by cases hmeets t ht _ hf rfl⟩
  rw [Kernel.setpgidTarget] at ht
  by_cases hpid : pid ≠ 0 ∧ pid ≠ s.kernel.pPid p
  · rw [if_pos hpid, Option.bind_eq_some_iff] at ht
    obtain ⟨r, hfind, ht⟩ := ht
    cases r with
    | none => cases Option.some.inj ht
    | some t' =>
      obtain ⟨inf, -, ht⟩ := Option.map_eq_some_iff.mp ht
      split_ifs at ht
      obtain rfl := Except.ok.inj ht
      exact h.named_of_pfind hfind
  · rw [if_neg hpid] at ht
    obtain rfl := Except.ok.inj (Option.some.inj ht)
    exact (State.mem_of_running hrun).2.1

theorem setpgid {pid pgid : ℤ} (hmeets : s.Meets (.setpgid p pid pgid a sa))
    (hstep : s.step (.setpgid p pid pgid a sa) = some s') : HasPidInv s' := by
  rw [State.step] at hstep
  by_cases hcan : s.running p = true ∧ a ∉ s.kernel.pgrps ∧ sa ∉ s.kernel.sessions
  swap
  · rw [if_neg hcan] at hstep
    exact absurd hstep nofun
  rw [if_pos hcan, Option.map_eq_some_iff] at hstep
  obtain ⟨⟨r, k'⟩, hset, rfl⟩ := hstep
  obtain ⟨hrun, ha, -⟩ := hcan
  have hstay : ∀ {e : Errno}, some (some e, s.kernel) = some (r, k') →
      HasPidInv { s with kernel := k' } := by
    intro e heq
    obtain ⟨-, rfl⟩ := Prod.mk.inj (Option.some.inj heq)
    exact ⟨mem, chain, bucket, h⟩
  rw [Kernel.setpgid, Option.bind_eq_some_iff] at hset
  obtain ⟨t, ht, hset⟩ := hset
  cases t with
  | error e => exact hstay hset
  | ok t =>
    obtain ⟨hnamed, hchild⟩ := h.named_of_target hmeets hrun ht
    have henters : ∀ {i : ℤ}, ((∃ q ∈ s.named, s.kernel.pPid q = i) ∨
        ∃ g ∈ s.kernel.pgrps, s.kernel.pgId g = i) →
        (s.kernel.enterpgrp t i false a sa).map (fun k => ((none : Option Errno), k)) = some (r, k') →
          HasPidInv { s with kernel := k' } := by
      intro i hi henter
      obtain ⟨k'', henter', heq⟩ := Option.map_eq_some_iff.mp henter
      obtain ⟨-, rfl⟩ := Prod.mk.inj heq
      exact h.enterpgrp hnamed hchild ha hi henter'
    dsimp only at hset
    by_cases hlead : s.kernel.sessLeader t = true
    · rw [if_pos hlead] at hset
      exact hstay hset
    rw [if_neg hlead] at hset
    by_cases hown : pgid = 0 ∨ pgid = s.kernel.pPid t
    · rw [if_pos hown] at hset
      exact henters (.inl ⟨t, hnamed, rfl⟩) hset
    rw [if_neg hown] at hset
    obtain ⟨g, hfind, hfound, -⟩ := h.groups.pgfind_eq pgid
    rw [hfind, Option.bind_some] at hset
    cases g with
    | none => exact hstay hset
    | some g =>
      dsimp only at hset
      by_cases hsess : s.kernel.pgSession g ≠ s.kernel.pSession p
      · rw [if_pos hsess] at hset
        exact hstay hset
      · rw [if_neg hsess] at hset
        exact henters (.inr ⟨g, hfound g rfl⟩) hset

/-! ## The end of a process -/

theorem exit {kin : Kin} (hstep : s.step (.exit p kin) = some s') : PidInv s' mem chain bucket := by
  rw [State.step] at hstep
  by_cases hrun : s.running p = true
  swap
  · rw [if_neg hrun] at hstep
    exact absurd hstep nofun
  rw [if_pos hrun] at hstep
  obtain rfl := Option.some.inj hstep
  obtain ⟨hall, -, hforks⟩ := State.mem_of_running hrun
  obtain ⟨k', hk'⟩ : ∃ k' : Kernel, k' = { s.kernel with
      allproc := s.kernel.allproc.erase p
      zombproc := p :: s.kernel.zombproc
      pStat := update s.kernel.pStat p .szomb
      pPptr := kin.pPptr
      pCptr := kin.pCptr
      pOsptr := kin.pOsptr } := ⟨_, rfl⟩
  rw [← hk']
  have hperm : k'.procs.Perm s.kernel.procs := by
    rw [hk']
    exact perm_middle.trans ((perm_cons_erase hall).symm.append_right _)
  have hnamed : State.named { s with kernel := k' } = s.named := by
    ext q
    simp only [State.named, hperm.mem_iff]
  have hstays {q : Ptr} (hq : q ∈ s.kernel.allproc) (hqp : q ≠ p) : q ∈ k'.allproc := by
    rw [hk']
    exact (mem_erase_of_ne hqp).mpr hq
  constructor
  · rw [hnamed]
    have hplaced : ∀ q ∈ s.named, q ∈ k'.procs := fun q hq => hperm.mem_iff.mpr hq.1
    subst hk'
    exact ⟨h.groups.mems, h.groups.grp_eq, h.groups.grp_mem, fun hq => hplaced _ hq, h.groups.chains,
      h.groups.chain_mem, h.groups.chain_hash⟩
  · subst hk'
    exact h.nonempty
  · exact hperm.nodup_iff.mpr h.nodup
  · rw [hnamed]
    subst hk'
    exact h.hashed
  · rw [hnamed]
    subst hk'
    exact h.distinct
  · rw [hnamed]
    subst hk'
    exact h.range
  · exact h.few
  · intro f hf
    rw [hnamed]
    obtain ⟨hf1, hnamed1, hfree⟩ := h.fork hf
    refine ⟨hstays hf1 (hforks f hf), hnamed1, ?_⟩
    subst hk'
    exact hfree
  · intro p₁ p₂ hf
    rw [hnamed]
    obtain ⟨hf2, hgrp, hpid⟩ := h.child hf
    refine ⟨hstays hf2 ?_, ?_⟩
    · rintro rfl
      simp only [State.running, Bool.and_eq_true, all_eq_true, bne_iff_ne] at hrun
      exact (hrun.2 _ hf).2 rfl
    · subst hk'
      exact ⟨hgrp, hpid⟩

theorem wait (hstep : s.step (.wait p) = some s') :
    HasPidInv s' := by
  rw [State.step] at hstep
  by_cases hzomb : p ∈ s.kernel.zombproc
  swap
  · rw [if_neg hzomb] at hstep
    exact absurd hstep nofun
  rw [if_pos hzomb, Option.bind_eq_some_iff] at hstep
  obtain ⟨k1, hunhash, hstep⟩ := hstep
  obtain ⟨k2, hleave, rfl⟩ := Option.map_eq_some_iff.mp hstep
  -- the search on the hash chain shows that the process has an identifier
  obtain ⟨pre, post, hsplit, -, hpost, hwalk⟩ := walk_spec (· == p)
    (h.hashed.linked (Set.mem_univ (s.kernel.pidHash (s.kernel.pPid p)))) (h.bucket_length_lt _) none
  rw [Kernel.unhash, hwalk, Option.bind_some] at hunhash
  obtain ⟨q, hq, hk1⟩ := Option.map_eq_some_iff.mp hunhash
  obtain rfl : q = p := by simpa using hpost q hq
  obtain ⟨post', rfl⟩ : ∃ post', post = q :: post' := by
    rcases post with _ | ⟨x, post'⟩
    · exact absurd hq nofun
    · exact ⟨post', by rw [Option.some.inj hq]⟩
  have hnamed : q ∈ s.named := by
    refine h.hashed.mem (Set.mem_univ (s.kernel.pidHash (s.kernel.pPid q))) ?_
    rw [hsplit]
    simp
  have hhashed := h.hashed.unlink (Set.mem_univ (s.kernel.pidHash (s.kernel.pPid q))) hsplit
  rw [Option.or_none] at hk1
  obtain ⟨nh, ph, bucket', hk1', hhashed⟩ : ∃ nh ph bucket',
      k1 = { s.kernel with pHash := nh, pidhash := ph } ∧
        Family nh ph Set.univ (s.named \ {q}) bucket' := ⟨_, _, _, hk1.symm, hhashed⟩
  have hgroups1 : Groups k1 s.named mem chain := by
    rw [hk1']
    exact ⟨h.groups.mems, h.groups.grp_eq, h.groups.grp_mem, h.groups.placed, h.groups.chains,
      h.groups.chain_mem, h.groups.chain_hash⟩
  obtain ⟨⟨mem', chain', hgroups2, hnonempty⟩, hsame, hids⟩ :=
    hgroups1.leavepgrp_frame (by rw [hk1']; exact h.nonempty) hnamed hleave
  obtain ⟨k', hk'⟩ : ∃ k' : Kernel, k' =
    { k2 with zombproc := k2.zombproc.erase q, nprocs := k2.nprocs - 1 } := ⟨_, rfl⟩
  rw [← hk']
  have hall : k'.allproc = s.kernel.allproc := by
    rw [hk', hsame.allproc, hk1']
  have hzombs : k'.zombproc = s.kernel.zombproc.erase q := by
    rw [hk', hsame.zombproc, hk1']
  have hpid : k'.pPid = s.kernel.pPid := by
    rw [hk', hsame.pPid, hk1']
  have hnotall : q ∉ s.kernel.allproc := fun hq' =>
    (nodup_append.mp h.nodup).2.2 q hq' q hzomb rfl
  have hprocs : k'.procs = s.kernel.procs.erase q := by
    rw [Kernel.procs, hall, hzombs, Kernel.procs, erase_append_right _ hnotall]
  have hnamed' : State.named { s with kernel := k' } = s.named \ {q} := by
    ext x
    simp only [State.named, hprocs, h.nodup.mem_erase_iff]
    constructor
    · rintro ⟨⟨hne, hx⟩, hf⟩
      exact ⟨⟨hx, hf⟩, hne⟩
    · rintro ⟨⟨hx, hf⟩, hne⟩
      exact ⟨⟨hne, hx⟩, hf⟩
  have hkeep {i : ℤ} (hi : Free s.kernel s.named i) : Free k' (s.named \ {q}) i := by
    refine ⟨fun x hx => by rw [hpid]; exact hi.1 x hx.1, fun g hg => ?_⟩
    rw [hk'] at hg ⊢
    obtain ⟨hg', heq⟩ := hids g hg
    rw [hk1'] at hg' heq
    exact ne_of_eq_of_ne heq (hi.2 g hg')
  refine ⟨mem', chain', bucket', ?_⟩
  constructor
  · rw [hnamed']
    have hplaced : ∀ x ∈ s.named \ {q}, x ∈ k'.procs := by
      intro x hx
      rw [hprocs]
      exact (mem_erase_of_ne hx.2).mpr hx.1.1
    subst hk'
    exact ⟨hgroups2.mems, hgroups2.grp_eq, hgroups2.grp_mem, fun hx => hplaced _ hx,
      hgroups2.chains, hgroups2.chain_mem, hgroups2.chain_hash⟩
  · rw [hk']
    exact hnonempty
  · rw [hprocs]
    exact h.nodup.erase q
  · rw [hnamed', hk']
    rw [hsame.pHash, hsame.pidhash, hk1']
    exact hhashed
  · rw [hnamed', hpid]
    exact fun x hx y hy => h.distinct x hx.1 y hy.1
  · rw [hnamed', hk']
    dsimp only
    rw [← hk', hsame.nextpid, hsame.pidchecked, hk1']
    exact fun i hi hi' => hkeep (h.range i hi hi')
  · exact h.few
  · intro f hf
    obtain ⟨hf1, hnamed1, hfree⟩ := h.fork hf
    have hnext : k'.nextpid = s.kernel.nextpid := by
      rw [hk', hsame.nextpid, hk1']
    rw [hnamed', hall, hnext]
    exact ⟨hf1, ⟨hnamed1, ne_of_mem_of_not_mem hf1 hnotall⟩, hkeep hfree⟩
  · intro p₁ p₂ hf
    obtain ⟨hf2, hgrp, hdiff⟩ := h.child hf
    have hgrps {x : Ptr} (hx : x ∈ s.kernel.allproc) : k'.pPgrp x = s.kernel.pPgrp x := by
      rw [hk']
      rw [hsame.pPgrp (ne_of_mem_of_not_mem hx hnotall), hk1']
    rw [hnamed', hall, hpid, hgrps hf2, hgrps (h.fork hf).1]
    exact ⟨hf2, hgrp, fun x hx => hdiff x hx.1⟩

end

/-! ## The initial state -/

theorem initial (h : s.IsInitial) : HasPidInv s := by
  obtain ⟨⟨p, g, t, hinit⟩, hforks⟩ := h
  have hprocs : s.kernel.procs = [p] := by rw [Kernel.procs, hinit.allproc, hinit.zombproc]; rfl
  have hnamed : s.named = {q | q ∈ s.kernel.procs} := by
    ext q
    simp [State.named, hforks]
  have hmem {q : Ptr} (hq : q ∈ s.named) : q = p := by
    rw [hnamed, hprocs] at hq
    exact mem_singleton.mp hq
  have hp : p ∈ s.named := by
    rw [hnamed, hprocs]
    exact mem_singleton_self p
  refine ⟨fun _ => [p], fun b => if b = 0 then [g] else [], fun b => (s.kernel.pidhash b).toList, ?_⟩
  constructor
  · rw [hnamed]
    exact hinit.groups
  · exact fun _ _ => cons_ne_nil _ _
  · rw [hprocs]
    exact nodup_singleton p
  · have hbucket {b : ℤ} {q : Ptr} (hq : q ∈ (s.kernel.pidhash b).toList) : b = 0 ∧ q = p := by
      rcases hinit.pidhash b with hb | ⟨rfl, hb⟩
      · rw [hb] at hq
        exact absurd hq not_mem_nil
      · rw [hb] at hq
        exact ⟨rfl, mem_singleton.mp hq⟩
    constructor
    · intro b _
      rcases hinit.pidhash b with hb | ⟨-, hb⟩
      · rw [hb]
        rfl
      · rw [hb]
        exact ⟨rfl, hinit.pHash⟩
    · intro b c q _ _ hb hc
      rw [(hbucket hb).1, (hbucket hc).1]
    · intro b q _ hq
      rw [(hbucket hq).2]
      exact hp
  · intro q hq q' hq' hne
    exact absurd ((hmem hq).trans (hmem hq').symm) hne
  · intro i hi hi'
    rw [hinit.nextpid] at hi
    rw [hinit.pidchecked] at hi'
    omega
  · rw [hforks]
    exact Nat.zero_le 1
  · intro f hf
    rw [hforks] at hf
    exact absurd hf not_mem_nil
  · intro p₁ p₂ hf
    rw [hforks] at hf
    exact absurd hf not_mem_nil

end PidInv

/-! ## Runs -/

theorem HasPidInv.next (h : HasPidInv s) (hnext : s.Next s') : HasPidInv s' := by
  obtain ⟨mem, chain, bucket, h⟩ := h
  obtain ⟨act, hmeets, hstep⟩ := hnext
  cases act with
  | find p₁ n => exact ⟨mem, chain, bucket, h.find hmeets hstep⟩
  | link p₁ p₂ junk => exact ⟨mem, chain, bucket, h.link hmeets hstep⟩
  | assign p₁ p₂ => exact (h.assign hstep).1
  | setsid p a sa => exact h.setsid hstep
  | setpgid p pid pgid a sa => exact h.setpgid hmeets hstep
  | exit p kin => exact ⟨mem, chain, bucket, h.exit hstep⟩
  | wait p => exact h.wait hstep

/-- Identifiers are unique. Source: comments of fork1 -/
structure Unique (s : State) : Prop where
  distinct : ∀ p ∈ s.kernel.procs, ∀ q ∈ s.kernel.procs, p ≠ q → s.kernel.pPid p ≠ s.kernel.pPid q
  fresh : ∀ p₁ p₂ s', s.step (.assign p₁ p₂) = some s' →
    ∀ g ∈ s'.kernel.pgrps, s'.kernel.pgId g ≠ s'.kernel.pPid p₂
  ends : ∀ (p₁ : Ptr) (i : ℤ), 100 ≤ i → i < pidMax →
    (∀ p ∈ s.kernel.procs, s.kernel.pPid p ≠ i ∧ s.kernel.pPgid p ≠ i) →
      ∃ n, (s.kernel.forkFind p₁ n).isSome = true

theorem PidInv.distinct_procs (h : PidInv s mem chain bucket) (hp : p ∈ s.kernel.procs)
    (hq : q ∈ s.kernel.procs) (hne : p ≠ q) : s.kernel.pPid p ≠ s.kernel.pPid q := by
  have hcases {x : Ptr} (hx : x ∈ s.kernel.procs) :
      x ∈ s.named ∨ ∃ p₁, (p₁, some x) ∈ s.forks := by
    by_cases hnamed : x ∈ s.named
    · exact .inl hnamed
    have hfork : ¬ ∀ f ∈ s.forks, f.2 ≠ some x := fun hf => hnamed ⟨hx, hf⟩
    simp only [not_forall, not_not] at hfork
    obtain ⟨⟨p₁, c⟩, hf, rfl⟩ := hfork
    exact .inr ⟨p₁, hf⟩
  rcases hcases hp with hp | ⟨p₁, hp⟩
  · rcases hcases hq with hq | ⟨q1, hq⟩
    · exact h.distinct p hp q hq hne
    · exact (h.child hq).2.2 p hp
  rcases hcases hq with hq | ⟨q1, hq⟩
  · exact ((h.child hp).2.2 q hq).symm
  -- there is one `fork1` only
  have hf := h.forks_eq hp
  rw [hf, mem_singleton] at hq
  exact absurd (Option.some.inj (Prod.mk.inj hq).2).symm hne

/-- **Unique identifiers.** In every run of concurrent `fork1`, `setsid`, `setpgid`, exits and waits
whose actions meet `State.Meets`, no two processes have the same identifier, none that `fork1` assigns
is that of a group, and the search ends when an identifier is left. Kind: P. -/
theorem unique_of_reach (h : Reach State.IsInitial State.Next s) : Unique s := by
  obtain ⟨mem, chain, bucket, hinv⟩ :=
    h.invariant (I := HasPidInv) (fun _ => PidInv.initial) fun _ _ _ hi hn => hi.next hn
  constructor
  · exact fun p hp q hq hne => hinv.distinct_procs hp hq hne
  · exact fun p₁ p₂ s' hstep => (hinv.assign hstep).2
  · intro p₁ i hmin hmax hi
    obtain ⟨n, hn⟩ := exists_findPid_isSome (l := s.kernel.ids) (fun e he => by
      obtain ⟨p, hp, rfl⟩ := mem_map.mp he
      exact hi p hp) hmin hmax (s.kernel.nextpid + 1) s.kernel.pidchecked
    refine ⟨n, ?_⟩
    rw [Kernel.forkFind]
    by_cases hlim : s.kernel.forkLimited p₁ = true
    · rw [if_pos hlim]
      rfl
    · rw [if_neg hlim, Option.isSome_map]
      exact hn

/-- The initial process forks. Source: fork1. Kind: C -/
theorem unique_fork : ∃ s, Unique s ∧ s.kernel.procs = [1, 0] ∧ s.kernel.pPid 1 = 1 := by
  obtain ⟨s1, hs1⟩ : ∃ s1, s1 = (State.step ⟨boot, []⟩ (.find 0 1)).get (by decide) := ⟨_, rfl⟩
  obtain ⟨s2, hs2⟩ : ∃ s2, s2 = (s1.step (.link 0 1 ⟨7, 0⟩)).get (by rw [hs1]; decide) := ⟨_, rfl⟩
  obtain ⟨s3, hs3⟩ : ∃ s3, s3 = (s2.step (.assign 0 1)).get (by subst hs2 hs1; decide) := ⟨_, rfl⟩
  have hfind : State.Next ⟨boot, []⟩ s1 :=
    ⟨.find 0 1, .inr ⟨rfl, by decide⟩, by rw [hs1, Option.some_get]⟩
  have hlink : s1.Next s2 := by
    refine ⟨.link 0 1 ⟨7, 0⟩, fun q hq => ?_, by rw [hs2, Option.some_get]⟩
    subst hs1
    obtain rfl : q = 0 := mem_singleton.mp hq
    decide
  have hassign : s2.Next s3 := ⟨.assign 0 1, trivial, by rw [hs3, Option.some_get]⟩
  have hreach : Reach State.IsInitial State.Next s3 :=
    .step (.step (.step (.start ⟨⟨0, 0, 0, boot_initial⟩, rfl⟩) hfind) hlink) hassign
  refine ⟨s3, unique_of_reach hreach, ?_⟩
  subst hs3 hs2 hs1
  decide

/-- Two processes fork at the same time: both read the `nextpid` of the later search. And a search
from 100, where the process 101 is in the group of the process 100, finds 101.
Source: fork1. Kind: C -/
theorem not_unique :
    (¬ ∀ (acts : List Act) (s₀ s : State), s₀.IsInitial → acts.foldlM State.step s₀ = some s →
      ∀ p ∈ s.kernel.procs, ∀ q ∈ s.kernel.procs, p ≠ q → s.kernel.pPid p ≠ s.kernel.pPid q) ∧
    findPid [(101, 100), (100, 100), (1, 1), (0, 0)] 2 100 0 = some (101, pidMax) := by
  refine ⟨fun h => ?_, by decide⟩
  have hrun := h [.find 0 1, .link 0 1 ⟨7, 0⟩, .assign 0 1, .find 0 1, .find 1 1, .link 0 2 ⟨8, 0⟩,
    .link 1 3 ⟨9, 0⟩, .assign 0 2, .assign 1 3] ⟨boot, []⟩ (Option.get _ (by decide))
    ⟨⟨0, 0, 0, boot_initial⟩, rfl⟩ (Option.some_get _).symm
  exact hrun 2 (by decide) 3 (by decide) (by decide) (by decide)

end Bsd386.Kern.Proc
