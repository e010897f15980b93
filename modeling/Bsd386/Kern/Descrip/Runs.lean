import Bsd386.Kern.Descrip.Calls
import Bsd386.Lib.Transition

/-!
# Descriptor tables over whole runs

In every state that calls meeting `Kernel.Meets` reach from the initial process, the tables and the
counts are as `Descriptors` says (`descriptors_of_reach`), and the next such call does not `panic`
(`step_isSome`).

`pipe` and `socketpair` that fail after they have found their second descriptor clear the two slots,
but `fd_freefile` stays at the second: `fdalloc` then overlooks the first (`not_descriptors`).
-/

namespace Bsd386.Kern.Descrip

open Lib.Bytes Lib.Transition List

/-- A system call, or a part of one, with what it gets from elsewhere. -/
inductive Act where
  | falloc (p : Pid) (lim : ℤ) (fp : Ptr)
  | dup (p : Pid) (i new : ℕ) (lim : ℤ)
  | dup2 (p : Pid) (old new : ℕ) (lim : ℤ)
  | dupfd (p : Pid) (fd arg : ℕ) (lim : ℤ) (junk : Byte)
  | close (p : Pid) (fd : ℕ)
  | pipe (p : Pid) (lim : ℤ) (rf wf : Ptr) (rso wso connected : Bool)
  | socketpair (p : Pid) (lim : ℤ) (fp₁ fp₂ : Ptr) (so₁ so₂ connected dgram again copied : Bool)
  | fork (p₁ p₂ : Pid)
  | exit (p : Pid)

namespace Kernel

/-- One call; `none` is a `panic`. -/
def step (k : Kernel) : Act → Option (Result × Kernel)
  | .falloc p lim fp => let r := k.falloc p lim fp; some (r.1.map fun fd => [fd], r.2)
  | .dup p i new lim => k.dup p i new lim
  | .dup2 p old new lim => k.dup2 p old new lim
  | .dupfd p fd arg lim junk => k.dupfd p fd arg lim junk
  | .close p fd => k.close p fd
  | .pipe p lim rf wf rso wso connected => some (k.pipe p lim rf wf rso wso connected)
  | .socketpair p lim fp₁ fp₂ so₁ so₂ connected dgram again copied =>
    some (k.socketpair p lim fp₁ fp₂ so₁ so₂ connected dgram again copied)
  | .fork p₁ p₂ => some (.ok [], k.fdcopy p₁ p₂)
  | .exit p => (k.fdfree p).map fun k => (.ok [], k)

/-- The process is there, and `MALLOC` returns what is not allocated.
Source: falloc, fdcopy -/
def Possible (k : Kernel) : Act → Prop
  | .falloc p _ fp => p ∈ k.procs ∧ fp ∉ k.files
  | .dup p _ _ _ => p ∈ k.procs
  | .dup2 p _ _ _ => p ∈ k.procs
  | .dupfd p _ _ _ _ => p ∈ k.procs
  | .close p _ => p ∈ k.procs
  | .pipe p _ rf wf _ _ _ => p ∈ k.procs ∧ rf ∉ k.files ∧ wf ∉ insert rf k.files
  | .socketpair p _ fp₁ fp₂ _ _ _ _ _ _ => p ∈ k.procs ∧ fp₁ ∉ k.files ∧ fp₂ ∉ insert fp₁ k.files
  | .fork p₁ p₂ => p₁ ∈ k.procs ∧ p₂ ∉ k.procs
  | .exit p => p ∈ k.procs

/-- When a call keeps the tables as they should be: limits that fit in a `u_short`, counts that stay in a
`short`, and no `pipe` or `socketpair` that fails with its second descriptor found.
Source: filedesc.h, file.h, pipe, socketpair -/
def Meets (k : Kernel) : Act → Prop
  | .falloc _ lim _ => LimitOk lim
  | .dup p i _ lim =>
    LimitOk lim ∧ ∀ fp, (k.fd p).file (if i ≥ 64 then i % 64 else i) = some fp → CountOk k fp
  | .dup2 p old _ lim => LimitOk lim ∧ ∀ fp, (k.fd p).file old = some fp → CountOk k fp
  | .dupfd p fd _ lim _ => LimitOk lim ∧ ∀ fp, (k.fd p).file fd = some fp → CountOk k fp
  | .close _ _ => True
  | .pipe p lim _ _ rso wso connected => LimitOk lim ∧ PairMeets k p lim (rso && wso) connected
  | .socketpair p lim _ _ so₁ so₂ connected dgram again _ =>
    LimitOk lim ∧ PairMeets k p lim (so₁ && so₂) (connected && (!dgram || again))
  | .fork p₁ _ => CopyOk k p₁
  | .exit _ => True

/-- A call that meets the condition. -/
def Next (k k' : Kernel) : Prop := ∃ act r, k.Possible act ∧ k.Meets act ∧ k.step act = some (r, k')

/-- One process, with no open descriptor. Source: filedesc.h (filedesc0) -/
def IsInitial (k : Kernel) : Prop :=
  ∃ p, k.procs = {p} ∧ k.files = ∅ ∧
    k.fd p = ⟨List.replicate ndfile none, List.replicate ndfile 0, 0, 0⟩

end Kernel

variable {k k' : Kernel} {act : Act}

/-- Tables and counts as they should be. -/
structure Descriptors (k : Kernel) : Prop where
  /-- `f_count` of a file is the number of slots that refer to it. -/
  count : ∀ fp ∈ k.files, (k.fCount fp).toInt = k.refs fp
  /-- an open slot refers to an allocated file. -/
  allocated : ∀ p ∈ k.procs, ∀ i fp, (k.fd p).file i = some fp → fp ∈ k.files
  /-- no slot above `fd_lastfile` is open. -/
  last : ∀ p ∈ k.procs, ∀ i, (k.fd p).lastfile < i → (k.fd p).file i = none
  /-- `fdcopy` gives the same open slots with their flags. -/
  copy : ∀ p ∈ k.procs, ∀ p₂ ∉ k.procs, ∀ i, ((k.fdcopy p p₂).fd p₂).file i = (k.fd p).file i ∧
    ((k.fd p).file i ≠ none → ((k.fdcopy p p₂).fd p₂).flags i = (k.fd p).flags i)
  /-- `fdalloc` gives the lowest free descriptor from `want` on. -/
  lowest : ∀ p ∈ k.procs, ∀ want lim : ℤ, 0 ≤ want → LimitOk lim → ∀ i,
    ((k.fd p).fdalloc want lim).1 = some i → want ≤ i ∧ i < lim ∧ (k.fd p).file i = none ∧
      ∀ j : ℕ, want ≤ j → j < i → (k.fd p).file j ≠ none
  /-- `fdalloc` fails exactly when all descriptors from `want` up to the limit are open. -/
  emfile : ∀ p ∈ k.procs, ∀ want lim : ℤ, 0 ≤ want → LimitOk lim →
    (((k.fd p).fdalloc want lim).1 = none ↔
      ∀ j : ℕ, want ≤ j → j < lim → (k.fd p).file j ≠ none)

theorem incrAll_fd (k : Kernel) (l : List (Option Ptr)) : (k.incrAll l).fd = k.fd := by
  induction l generalizing k with
  | nil => rfl
  | cons f l ih =>
    cases f with
    | none => exact ih k
    | some fp => exact ih (k.incr fp)

theorem Inv.descriptors (h : Inv k) : Descriptors k := by
  have halloc {p : Pid} (hp : p ∈ k.procs) {want lim : ℤ} (hwant : 0 ≤ want) (hlim : LimitOk lim) :=
    Filedesc.fdalloc_spec (h.table hp) hwant hlim.1 hlim.2
  constructor
  · exact fun fp hfp => h.counted.count hfp
  · exact fun p hp i fp hfile => h.counted.mem.mpr (refs_pos hp hfile)
  · exact fun p hp i hi => (h.table hp).above hi
  · intro p hp p2 hp2 i
    obtain ⟨-, hsame, hflags⟩ := (h.table hp).copy
    have hfd : (k.fdcopy p p2).fd p2 = (k.fd p).copy := by
      rw [Kernel.fdcopy, incrAll_fd]
      exact Kernel.setFd_fd_self k p2 _
    rw [hfd]
    exact ⟨hsame.file i, hflags i⟩
  · intro p hp want lim hwant hlim i hi
    obtain ⟨r, fdp', heq, -, -, hspec⟩ := halloc hp hwant hlim
    rw [heq] at hi
    subst hi
    exact ⟨hspec.1, hspec.2.1, hspec.2.2.2.2.2⟩
  · intro p hp want lim hwant hlim
    obtain ⟨r, fdp', heq, -, -, hspec⟩ := halloc hp hwant hlim
    rw [heq]
    cases r with
    | none => exact ⟨fun _ => hspec.2, fun _ => rfl⟩
    | some i =>
      obtain ⟨hw, hl, -, -, -, hnone, -⟩ := hspec
      exact ⟨nofun, fun hall => absurd hnone (hall i hw hl)⟩

theorem Inv.step (h : Inv k) (hposs : k.Possible act) (hmeets : k.Meets act) :
    ∃ r k', k.step act = some (r, k') ∧ Inv k' := by
  cases act with
  | falloc p lim fp =>
    refine ⟨_, _, rfl, ?_⟩
    rcases h.falloc hposs.1 hmeets hposs.2 with ⟨t, heq, ht, hsame, -⟩ |
      ⟨i, t, -, -, ht, hsame, -, -, ⟨-, heq⟩ | ⟨-, k', heq, hk', -⟩⟩
    · rw [heq]
      exact h.setFd hposs.1 ht hsame
    · rw [heq]
      exact h.setFd hposs.1 ht hsame
    · rw [heq]
      exact hk'
  | dup p i new lim => exact h.dup hposs hmeets.1 hmeets.2
  | dup2 p old new lim => exact h.dup2 hposs hmeets.1 hmeets.2
  | dupfd p fd arg lim junk => exact h.dupfd hposs hmeets.1 junk hmeets.2
  | close p fd => exact h.close hposs fd
  | pipe p lim rf wf rso wso connected =>
    exact ⟨_, _, rfl, h.pair hposs.1 hmeets.1 hposs.2.1 hposs.2.2 hmeets.2⟩
  | socketpair p lim fp1 fp2 so1 so2 connected dgram again copied =>
    exact ⟨_, _, rfl, h.pair hposs.1 hmeets.1 hposs.2.1 hposs.2.2 hmeets.2⟩
  | fork p1 p2 => exact ⟨_, _, rfl, h.fdcopy hposs.1 hposs.2 hmeets⟩
  | exit p =>
    obtain ⟨k', heq, hk'⟩ := h.fdfree hposs
    refine ⟨.ok [], k', ?_, hk'⟩
    rw [Kernel.step, heq]
    rfl

theorem Kernel.IsInitial.inv (h : k.IsInitial) : Inv k := by
  obtain ⟨p, hprocs, hfiles, hfd⟩ := h
  have hfile (i : ℕ) : (k.fd p).file i = none := by
    rw [hfd, Filedesc.file]
    rw [getElem?_replicate]
    split_ifs <;> rfl
  have hrefs (fp : Ptr) : k.refs fp = 0 := by
    rw [Kernel.refs, hprocs, Finset.sum_singleton, hfd]
    rw [count_replicate]
    rfl
  constructor
  · intro q hq
    rw [hprocs, Finset.mem_singleton] at hq
    subst hq
    refine ⟨?_, .inl ?_, ?_, ?_, fun _ => hfile _, fun hi => ?_⟩
    · rw [hfd, length_replicate, length_replicate]
    · rw [hfd]
      exact length_replicate
    · rw [hfd]
      decide
    · rw [hfd]
      decide
    · rw [hfd] at hi
      exact absurd hi (Nat.not_lt_zero _)
  · constructor
    · intro fp hfp
      rw [hfiles] at hfp
      exact absurd hfp (Finset.notMem_empty fp)
    · intro fp
      rw [hfiles, hrefs]
      simp

theorem inv_of_reach (h : Reach Kernel.IsInitial Kernel.Next k) : Inv k := by
  refine h.invariant (fun _ hk => hk.inv) fun k k' _ hk hnext => ?_
  obtain ⟨act, r, hposs, hmeets, hstep⟩ := hnext
  obtain ⟨r', k'', hstep', hk''⟩ := hk.step hposs hmeets
  rw [hstep] at hstep'
  obtain ⟨-, rfl⟩ := Prod.mk.inj (Option.some.inj hstep')
  exact hk''

/-- **Descriptor tables.** In every state reached by calls that meet the condition, counts and tables are
as they should be. Kind: P. -/
theorem descriptors_of_reach (h : Reach Kernel.IsInitial Kernel.Next k) : Descriptors k :=
  (inv_of_reach h).descriptors

/-- One process without open descriptors. Source: filedesc.h (filedesc0) -/
def boot : Kernel where
  procs := {0}
  fd _ := ⟨List.replicate ndfile none, List.replicate ndfile 0, 0, 0⟩
  files := ∅
  fCount _ := 0
  nfiles := 0
  maxfiles := 100

/-- A file opened and duplicated. Source: falloc, dup. Kind: C -/
theorem descriptors_dup : ∃ k, Descriptors k ∧ (k.fd 0).file 1 = some 7 ∧ (k.fCount 7).toInt = 2 := by
  obtain ⟨k1, hk1⟩ : ∃ k1, k1 = ((boot.step (.falloc 0 64 7)).get (by decide)).2 := ⟨_, rfl⟩
  obtain ⟨k2, hk2⟩ : ∃ k2, k2 = ((k1.step (.dup 0 0 0 64)).get (by rw [hk1]; decide)).2 := ⟨_, rfl⟩
  have hopen : boot.Next k1 := by
    refine ⟨.falloc 0 64 7, .ok [0], ⟨Finset.mem_singleton_self 0, Finset.notMem_empty 7⟩, ?_, ?_⟩
    · exact ⟨by decide, by decide⟩
    · rw [hk1]
      rfl
  have hdup : k1.Next k2 := by
    refine ⟨.dup 0 0 0 64, .ok [1], ?_, ⟨⟨by decide, by decide⟩, fun fp hfp => ?_⟩, ?_⟩
    · subst hk1
      exact Finset.mem_singleton_self 0
    · subst hk1
      obtain rfl : 7 = fp := Option.some.inj hfp
      rw [CountOk]
      decide
    · subst hk2 hk1
      rfl
  have hreach : Reach Kernel.IsInitial Kernel.Next k2 :=
    .step (.step (.start ⟨0, rfl, rfl, rfl⟩) hopen) hdup
  refine ⟨k2, descriptors_of_reach hreach, ?_⟩
  subst hk2 hk1
  decide

/-- A `socketpair` of a domain that cannot connect sockets: afterwards 0 and 1 are free, and `fdalloc`
gives 1. Source: socketpair. Kind: C -/
theorem not_descriptors :
    ¬ ∀ (k k' : Kernel) (act : Act) (r : Result), k.IsInitial → k.Possible act →
      k.step act = some (r, k') → ∀ p ∈ k'.procs, ∀ i, ((k'.fd p).fdalloc 0 64).1 = some i →
        ∀ j < i, (k'.fd p).file j ≠ none := by
  intro h
  exact h boot (boot.socketpair 0 64 7 8 true true false false false true).2
    (.socketpair 0 64 7 8 true true false false false true) (.error .other) ⟨0, rfl, rfl, rfl⟩
    ⟨Finset.mem_singleton_self 0, Finset.notMem_empty 7, by decide⟩ rfl 0 (by decide) 1 (by decide) 0
    (by decide) (by decide)

end Bsd386.Kern.Descrip
