import Mathlib.Tactic.Common

/-!
# The cylinder overflow algorithm

`hashalloc` for any allocator, which may change the state it works on. The calls are recorded for the
proofs. The sums stay far below 2^31: a group has more than one fragment.
-/

namespace Bsd386.Ufs.Alloc

open List

/-- A call of the allocator, and what it returned. -/
structure Call where
  cg : ℕ
  pref : ℕ
  result : ℕ
deriving DecidableEq

/-- What the allocator works on, and the calls so far. -/
structure Tried (σ : Type) where
  st : σ
  calls : List Call

section hashalloc

variable {σ : Type} (ncg : ℕ) (allocator : ℕ → ℕ → σ → ℕ × σ)

/-- Call the allocator; inode and size are its own.
Source: hashalloc -/
def call (cg pref : ℕ) (t : Tried σ) : ℕ × Tried σ :=
  let (result, st) := allocator cg pref t.st
  (result, ⟨st, t.calls ++ [⟨cg, pref, result⟩]⟩)

/-- Quadratic rehash; 0 when every call of it returned 0.
Source: hashalloc -/
def rehash (i : ℕ) (hi : 0 < i) (cg : ℕ) (t : Tried σ) : ℕ × Tried σ :=
  if i < ncg then
    let cg := if ncg ≤ cg + i then cg + i - ncg else cg + i
    let (result, t) := call allocator cg 0 t
    if result ≠ 0 then (result, t) else rehash (i * 2) (Nat.mul_pos hi (by decide)) cg t
  else (0, t)
termination_by ncg - i

/-- Brute force search, of `n` groups; 0 when every call of it returned 0.
Source: hashalloc -/
def sweep : ℕ → ℕ → Tried σ → ℕ × Tried σ
  | 0, _, t => (0, t)
  | n + 1, cg, t =>
    let (result, t) := call allocator cg 0 t
    if result ≠ 0 then (result, t) else sweep n (if cg + 1 = ncg then 0 else cg + 1) t

/-- `hashalloc`. -/
def hashalloc (cg pref : ℕ) (st : σ) : ℕ × Tried σ :=
  let icg := cg
  let (result, t) := call allocator cg pref ⟨st, []⟩
  if result ≠ 0 then (result, t)
  else
    let (result, t) := rehash ncg allocator 1 Nat.one_pos cg t
    if result ≠ 0 then (result, t)
    else sweep ncg allocator (ncg - 2) ((icg + 2) % ncg) t

end hashalloc

/-! ## Every group is tried -/

section tried

variable {σ : Type} {ncg : ℕ} {allocator : ℕ → ℕ → σ → ℕ × σ}

/-- The calls that a part of the search has made, all of them without `pref` and without result. -/
def Adds (t t' : Tried σ) (groups : List ℕ) : Prop :=
  t'.calls = t.calls ++ groups.map fun cg => ⟨cg, 0, 0⟩

theorem Adds.cons {t t1 t' : Tried σ} {cg : ℕ} {groups : List ℕ}
    (h : t1.calls = t.calls ++ [⟨cg, 0, 0⟩]) (h' : Adds t1 t' groups) : Adds t t' (cg :: groups) := by
  unfold Adds at *
  rw [h', h, append_assoc]
  rfl

theorem calls_of_zero {cg pref : ℕ} {t : Tried σ} (h : (call allocator cg pref t).1 = 0) :
    (call allocator cg pref t).2.calls = t.calls ++ [⟨cg, pref, 0⟩] := by
  change t.calls ++ [⟨cg, pref, (call allocator cg pref t).1⟩] = _
  rw [h]

/-- **The rehash**, when nothing was found: the group behind the first is among those tried. -/
theorem rehash_spec {i : ℕ} (hi : 0 < i) {cg : ℕ} (hcg : cg < ncg) {t : Tried σ}
    (h : (rehash ncg allocator i hi cg t).1 = 0) :
    ∃ groups, Adds t (rehash ncg allocator i hi cg t).2 groups ∧
      (i < ncg → (cg + i) % ncg ∈ groups) := by
  fun_induction rehash ncg allocator i hi cg t with
  | case1 i hi cg t hlt cg' result t' hcall hne => exact absurd h hne
  | case2 i hi cg t hlt cg' result t' hcall hzero ih =>
    have hmod : (cg + i) % ncg = cg' := by
      change _ = if ncg ≤ cg + i then cg + i - ncg else cg + i
      split_ifs with hge
      · rw [Nat.mod_eq_sub_mod hge, Nat.mod_eq_of_lt (by omega)]
      · exact Nat.mod_eq_of_lt (by omega)
    have hcalls : t'.calls = t.calls ++ [⟨cg', 0, 0⟩] := by
      have hres : (call allocator cg' 0 t).1 = 0 := by
        rw [hcall]
        exact not_not.mp hzero
      have := calls_of_zero hres
      rwa [hcall] at this
    obtain ⟨groups, hadds, -⟩ := ih (by rw [← hmod]; exact Nat.mod_lt _ (by omega)) h
    refine ⟨cg' :: groups, .cons hcalls hadds, fun _ => ?_⟩
    rw [hmod]
    exact mem_cons_self
  | case3 i hi cg t hge => exact ⟨[], by simp [Adds], fun hlt => absurd hlt hge⟩

theorem sweep_spec {n cg : ℕ} (hcg : cg < ncg) {t : Tried σ} (h : (sweep ncg allocator n cg t).1 = 0) :
    Adds t (sweep ncg allocator n cg t).2 ((List.range n).map fun k => (cg + k) % ncg) := by
  induction n generalizing cg t with
  | zero => exact (append_nil _).symm
  | succ n ih =>
    unfold sweep at h ⊢
    dsimp only at h ⊢
    by_cases hres : (call allocator cg 0 t).1 = 0
    · rw [if_neg (not_not.mpr hres)] at h ⊢
      have hnext : (if cg + 1 = ncg then 0 else cg + 1) = (cg + 1) % ncg := by
        split_ifs with hend
        · rw [hend, Nat.mod_self]
        · exact (Nat.mod_eq_of_lt (by omega)).symm
      rw [hnext] at h ⊢
      have hadds := Adds.cons (calls_of_zero hres) (ih (Nat.mod_lt _ (by omega)) h)
      have hgroups : (range (n + 1)).map (fun k => (cg + k) % ncg) =
          cg :: (range n).map fun k => ((cg + 1) % ncg + k) % ncg := by
        rw [range_succ_eq_map, map_cons, map_map, Nat.add_zero, Nat.mod_eq_of_lt hcg]
        congr 1
        refine map_congr_left fun k _ => ?_
        rw [Nat.mod_add_mod, Nat.add_assoc, Nat.add_comm 1 k]
        rfl
      rw [hgroups]
      exact hadds
    · rw [if_pos hres] at h
      exact absurd h hres

/-- **When 0 is returned, every group has been tried**: the first with the preference, each of the others
without, and the allocator returned 0 every time. Kind: P. -/
theorem hashalloc_exhaustive {cg : ℕ} (hcg : cg < ncg) (pref : ℕ) (st : σ)
    (h : (hashalloc ncg allocator cg pref st).1 = 0) :
    ∃ groups : List ℕ, (hashalloc ncg allocator cg pref st).2.calls =
        ⟨cg, pref, 0⟩ :: groups.map (fun g => ⟨g, 0, 0⟩) ∧
      ∀ g < ncg, g = cg ∨ g ∈ groups := by
  unfold hashalloc at h ⊢
  dsimp only at h ⊢
  by_cases hfst : (call allocator cg pref ⟨st, []⟩).1 = 0
  · rw [if_neg (not_not.mpr hfst)] at h ⊢
    obtain ⟨t, ht⟩ : ∃ t, t = (call allocator cg pref ⟨st, []⟩).2 := ⟨_, rfl⟩
    have hcalls : t.calls = [⟨cg, pref, 0⟩] := by
      rw [ht]
      exact calls_of_zero hfst
    rw [← ht] at h ⊢
    by_cases hsnd : (rehash ncg allocator 1 Nat.one_pos cg t).1 = 0
    · rw [if_neg (not_not.mpr hsnd)] at h ⊢
      obtain ⟨groups, hadds, hone⟩ := rehash_spec Nat.one_pos hcg hsnd
      have hsweep := sweep_spec (Nat.mod_lt _ (by omega)) h
      refine ⟨groups ++ (range (ncg - 2)).map fun k => ((cg + 2) % ncg + k) % ncg, ?_, fun g hg => ?_⟩
      · rw [hsweep, hadds, hcalls, map_append]
        rfl
      · -- the distance from the first group: 0, 1, or one that the sweep goes
        obtain ⟨d, hd, rfl⟩ : ∃ d < ncg, g = (cg + d) % ncg := by
          rcases Nat.lt_or_ge g cg with hlt | hge
          · refine ⟨g + ncg - cg, by omega, ?_⟩
            rw [show cg + (g + ncg - cg) = g + ncg by omega, Nat.add_mod_right, Nat.mod_eq_of_lt hg]
          · exact ⟨g - cg, by omega, by rw [Nat.add_sub_cancel' hge, Nat.mod_eq_of_lt hg]⟩
        match d, hd with
        | 0, _ => exact .inl (by rw [Nat.add_zero, Nat.mod_eq_of_lt hcg])
        | 1, hd => exact .inr (mem_append_left _ (hone hd))
        | d + 2, hd =>
          refine .inr (mem_append_right _ (mem_map.mpr ⟨d, mem_range.mpr (by omega), ?_⟩))
          rw [Nat.mod_add_mod, Nat.add_assoc, Nat.add_comm 2 d]
    · rw [if_pos hsnd] at h
      exact absurd h hsnd
  · rw [if_pos hfst] at h
    exact absurd h hfst

end tried

/-- Three groups, and nothing to be had. Source: hashalloc. Kind: C -/
theorem hashalloc_exhaustive_three :
    ∃ groups : List ℕ, (hashalloc 3 (fun _ _ (n : ℕ) => (0, n + 1)) 1 7 0).2.calls =
        ⟨1, 7, 0⟩ :: groups.map (fun g => ⟨g, 0, 0⟩) ∧
      ∀ g < 3, g = 1 ∨ g ∈ groups :=
  hashalloc_exhaustive (by decide) 7 0 (by simp [hashalloc, rehash, sweep, call])

end Bsd386.Ufs.Alloc
