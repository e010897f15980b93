import Mathlib.Data.Nat.Notation
import Mathlib.Logic.Relation

/-!
# Transition systems: reachable states and invariants

`Reach init next s`: the state `s` is reached from a state of `init` by transitions `next`.
`Reach.invariant` is the induction rule every safety theorem of the project uses.

`foldl_forall_iff`: when each step of a machine keeps a property exactly under a condition, a run
keeps it in every state exactly when all its steps meet the condition.

For wait-for graphs: `Acyclic r` says that no element reaches itself by `r`, and
`Acyclic.insert` that an edge `a → b` may be added when `b` does not already reach `a`.
`Chain r n a b` is a path of `n` edges.
-/

namespace Bsd386.Lib.Transition

open List

/-- The states reached from `init` by `next`. -/
inductive Reach {σ : Type} (init : σ → Prop) (next : σ → σ → Prop) : σ → Prop where
  | start {s : σ} : init s → Reach init next s
  | step {s t : σ} : Reach init next s → next s t → Reach init next t

section reach

variable {σ : Type} {init : σ → Prop} {next next' : σ → σ → Prop}

/-- **Invariants.** What holds initially and is kept by every transition from a reachable state
holds in every reachable state. -/
theorem Reach.invariant {I : σ → Prop} (hinit : ∀ s, init s → I s)
    (hnext : ∀ s t, Reach init next s → I s → next s t → I t) {s : σ} (h : Reach init next s) :
    I s := by
  induction h with
  | start hs => exact hinit _ hs
  | step hr ht ih => exact hnext _ _ hr ih ht

theorem Reach.mono (hsub : ∀ s t, next s t → next' s t) {s : σ} (h : Reach init next s) :
    Reach init next' s := by
  induction h with
  | start hs => exact .start hs
  | step _ ht ih => exact .step ih (hsub _ _ ht)

end reach

/-! ## Runs of a machine -/

/-- **Exact conditions.** If from a state with `P` a step leads to a state with `P` exactly under `C`,
then `P` holds in every state of a run exactly when every step of it meets `C`. -/
theorem foldl_forall_iff {σ ε : Type} {step : σ → ε → σ} {P : σ → Prop} {C : σ → ε → Prop}
    (hstep : ∀ s e, P s → (P (step s e) ↔ C s e)) {s : σ} (hs : P s) (es : List ε) :
    (∀ pre post, es = pre ++ post → P (pre.foldl step s)) ↔
      ∀ pre e post, es = pre ++ e :: post → C (pre.foldl step s) e := by
  constructor
  · intro h pre e post heq
    have hnext := h (pre ++ [e]) post (by rw [heq, append_assoc]; rfl)
    rw [foldl_append, foldl_cons, foldl_nil] at hnext
    exact (hstep _ e (h pre (e :: post) heq)).mp hnext
  · intro h
    induction es generalizing s with
    | nil =>
      intro pre post heq
      rw [(append_eq_nil_iff.mp heq.symm).1]
      exact hs
    | cons e es ih =>
      intro pre post heq
      cases pre with
      | nil => exact hs
      | cons e' pre =>
        obtain ⟨rfl, rfl⟩ := cons.inj heq
        exact ih ((hstep s e hs).mpr (h [] e _ rfl))
          (fun pre' e' post' heq' => h (e :: pre') e' post' (by rw [heq']; rfl)) pre post rfl

/-! ## Acyclic relations -/

def Acyclic {α : Type} (r : α → α → Prop) : Prop := ∀ a, ¬ Relation.TransGen r a a

section acyclic

variable {α : Type} {r r' : α → α → Prop}

theorem Acyclic.mono (h : Acyclic r) (hsub : ∀ a b, r' a b → r a b) : Acyclic r' :=
  fun a ha => h a (Relation.TransGen.mono hsub a a ha)

theorem transGen_insert {a b x y : α}
    (h : Relation.TransGen (fun u v => r u v ∨ u = a ∧ v = b) x y) :
    Relation.TransGen r x y ∨
      Relation.ReflTransGen (fun u v => r u v ∨ u = a ∧ v = b) x a ∧
        Relation.ReflTransGen r b y := by
  induction h with
  | single h =>
    rcases h with h | ⟨rfl, rfl⟩
    · exact .inl (.single h)
    · exact .inr ⟨.refl, .refl⟩
  | tail hxy h ih =>
    rcases h with h | ⟨rfl, rfl⟩
    · rcases ih with ih | ⟨hxa, hby⟩
      · exact .inl (ih.tail h)
      · exact .inr ⟨hxa, hby.tail h⟩
    · exact .inr ⟨hxy.to_reflTransGen, .refl⟩

theorem reflTransGen_of_insert {a b x y : α}
    (h : Relation.ReflTransGen (fun u v => r u v ∨ u = a ∧ v = b) x y) :
    Relation.ReflTransGen r x y ∨ Relation.ReflTransGen r x a := by
  induction h with
  | refl => exact .inl .refl
  | tail _ h ih =>
    rcases ih with ih | ih
    · rcases h with h | ⟨rfl, -⟩
      · exact .inl (ih.tail h)
      · exact .inr ih
    · exact .inr ih

theorem Acyclic.insert {a b : α} (h : Acyclic r) (hba : ¬ Relation.ReflTransGen r b a) :
    Acyclic fun u v => r u v ∨ u = a ∧ v = b := by
  intro x hx
  rcases transGen_insert hx with hx | ⟨hxa, hbx⟩
  · exact h x hx
  · rcases reflTransGen_of_insert hxa with hxa | hxa
    · exact hba (hbx.trans hxa)
    · exact hba (hbx.trans hxa)

/-! ## Chains -/

/-- A chain of `n` edges. -/
inductive Chain (r : α → α → Prop) : ℕ → α → α → Prop where
  | refl (a : α) : Chain r 0 a a
  | head {n : ℕ} {a b c : α} : r a b → Chain r n b c → Chain r (n + 1) a c

theorem Chain.mono (hsub : ∀ a b, r' a b → r a b) {n : ℕ} {a b : α} (h : Chain r' n a b) :
    Chain r n a b := by
  induction h with
  | refl a => exact .refl a
  | head hab _ ih => exact .head (hsub _ _ hab) ih

theorem exists_chain {a b : α} (h : Relation.ReflTransGen r a b) : ∃ n, Chain r n a b := by
  induction h using Relation.ReflTransGen.head_induction_on with
  | refl => exact ⟨0, .refl b⟩
  | head hac _ ih =>
    obtain ⟨n, hn⟩ := ih
    exact ⟨n + 1, .head hac hn⟩

end acyclic

end Bsd386.Lib.Transition
