import Mathlib.Tactic.Common

/-!
# Machines: one deterministic step at a time

A machine is a step function into `Outcome`: another state, a result, or a fault (an access
the language leaves undefined). `run step n s` executes at most `n` steps from `s`;
`Steps step n s t` is the graph of `n` completed steps.
-/

namespace Bsd386.Lib.Machine

/-- What one step does: go on in a state, return a result, or fault. -/
inductive Outcome (σ ρ ε : Type) where
  | next (s : σ)
  | ret (r : ρ)
  | fault (e : ε)
deriving DecidableEq

variable {σ ρ ε : Type} (step : σ → Outcome σ ρ ε)

/-- Run at most `n` steps; `none` when they did not suffice. -/
def run : ℕ → σ → Option (Except ε ρ)
  | 0, _ => none
  | n + 1, s =>
    match step s with
    | .next s' => run n s'
    | .ret r => some (.ok r)
    | .fault e => some (.error e)

theorem run_succ (n : ℕ) (s : σ) :
    run step (n + 1) s = match step s with
      | .next s' => run step n s'
      | .ret r => some (.ok r)
      | .fault e => some (.error e) := rfl

/-- `Steps step n s t`: `n` steps lead from `s` to `t`. -/
inductive Steps : ℕ → σ → σ → Prop where
  | refl (s : σ) : Steps 0 s s
  | tail {n : ℕ} {s t u : σ} : Steps n s t → step t = .next u → Steps (n + 1) s u

variable {step}

theorem Steps.head {n : ℕ} {s t u : σ} (h : step s = .next t) (ht : Steps step n t u) :
    Steps step (n + 1) s u := by
  induction ht with
  | refl t => exact .tail (.refl s) h
  | tail _ hstep ih => exact .tail (ih h) hstep

theorem Steps.invariant {I : σ → Prop} {n : ℕ} {s t : σ} (h : Steps step n s t) (hs : I s)
    (hstep : ∀ m t u, Steps step m s t → I t → step t = .next u → I u) : I t := by
  induction h with
  | refl s => exact hs
  | @tail n s t u ht hu ih => exact hstep n t u ht (ih hs hstep) hu

theorem run_add_of_steps {n : ℕ} {s t : σ} (h : Steps step n s t) (m : ℕ) :
    run step (n + m) s = run step m t := by
  induction h generalizing m with
  | refl s => rw [Nat.zero_add]
  | @tail n s t u _ hu ih =>
    rw [Nat.add_assoc, Nat.add_comm 1 m, ih (m + 1)]
    simp only [run_succ, hu]

theorem run_mono {n m : ℕ} (hnm : n ≤ m) {s : σ} {r : Except ε ρ} (h : run step n s = some r) :
    run step m s = some r := by
  induction n generalizing m s with
  | zero => cases h
  | succ n ih =>
    obtain ⟨m, rfl⟩ : ∃ m', m = m' + 1 := ⟨m - 1, by omega⟩
    simp only [run_succ] at h ⊢
    cases hstep : step s with
    | next s' =>
      simp only [hstep] at h ⊢
      exact ih (by omega) h
    | ret r' => simpa only [hstep] using h
    | fault e => simpa only [hstep] using h

theorem step_ne_fault_of_run {n k : ℕ} {s t : σ} {r : ρ} (h : run step n s = some (.ok r))
    (ht : Steps step k s t) (e : ε) : step t ≠ .fault e := by
  intro hf
  have h1 : run step (k + (n + 1)) s = some (.ok r) := run_mono (by omega) h
  rw [run_add_of_steps ht] at h1
  simp only [run_succ, hf] at h1
  cases h1

/-- **Termination by a measure.** If every state of `I` either returns or steps to a state of
`I` with a smaller measure, then a run with more fuel than the measure returns. -/
theorem exists_run_ret {I : σ → Prop} {μ : σ → ℕ}
    (hstep : ∀ s, I s → (∃ r, step s = .ret r) ∨ ∃ s', step s = .next s' ∧ I s' ∧ μ s' < μ s) :
    ∀ (n : ℕ) (s : σ), I s → μ s < n → ∃ r, run step n s = some (.ok r) := by
  intro n
  induction n with
  | zero => intro s _ h; omega
  | succ n ih =>
    intro s hs hμ
    rcases hstep s hs with ⟨r, hr⟩ | ⟨s', hs', hI, hlt⟩
    · exact ⟨r, by simp only [run_succ, hr]⟩
    · obtain ⟨r, hr⟩ := ih s' hI (by omega)
      exact ⟨r, by simp only [run_succ, hs', hr]⟩

/-- **Lockstep.** Machines whose steps agree on every state the first one reaches from `s` run
alike from `s`. -/
theorem run_eq_of_step_eq {step' : σ → Outcome σ ρ ε} :
    ∀ (n : ℕ) (s : σ), (∀ m t, Steps step m s t → step t = step' t) →
      run step n s = run step' n s := by
  intro n
  induction n with
  | zero => intro s _; rfl
  | succ n ih =>
    intro s h
    have hs : step s = step' s := h 0 s (.refl s)
    simp only [run_succ, ← hs]
    cases hstep : step s with
    | next s' => exact ih s' fun m t ht => h (m + 1) t (.head hstep ht)
    | ret r => rfl
    | fault e => rfl

end Bsd386.Lib.Machine
