import Bsd386.Kern.Proc.Fork

/-!
# The search for an unused identifier

`fork1` looks for a number that is neither a process identifier nor the identifier of a group. A
pass over the processes moves to the next number where it meets the present one, and lowers
`pidchecked` to the smallest identifier above it; but at the entry at which it moves it does not look
again. When the other identifier of that entry is the next number, it is overlooked
(`scanOverlooks`).
-/

namespace Bsd386.Kern.Proc

open List

/-- The last move of the pass is at an entry that has the next number too. `overlooked` says so of the
moves before. Source: fork1 -/
def scanOverlooks : List (ℤ × ℤ) → ℤ → ℤ → Bool → Bool
  | [], _, _, overlooked => overlooked
  | e :: l, nextpid, pidchecked, overlooked =>
    if e.1 = nextpid ∨ e.2 = nextpid then
      if nextpid + 1 ≥ pidchecked then false
      else scanOverlooks l (nextpid + 1) (lowerChecked (nextpid + 1) pidchecked e)
        (e.1 == nextpid + 1 || e.2 == nextpid + 1)
    else scanOverlooks l nextpid (lowerChecked nextpid pidchecked e) overlooked

/-- The last pass of the search overlooks a number. Source: fork1 -/
def findOverlooks (l : List (ℤ × ℤ)) : ℕ → ℤ → ℤ → Bool
  | 0, _, _ => false
  | n + 1, nextpid₀, pidchecked₀ =>
    let nextpid := if nextpid₀ ≥ pidMax then 100 else nextpid₀
    let pidchecked := if nextpid₀ ≥ pidMax then 0 else pidchecked₀
    if nextpid ≥ pidchecked then
      match scanLists l nextpid pidMax with
      | (true, nextpid, pidchecked) => findOverlooks l n nextpid pidchecked
      | (false, _) => scanOverlooks l nextpid pidMax false
    else false

/-- The numbers from `n` up to `c` are not in use. Source: comment of fork1. -/
def Unused (l : List (ℤ × ℤ)) (n c : ℤ) : Prop :=
  ∀ e ∈ l, ∀ i, n ≤ i → i < c → e.1 ≠ i ∧ e.2 ≠ i

variable {l : List (ℤ × ℤ)} {e : ℤ × ℤ} {n c n' c' : ℤ}

/-! ## One entry -/

theorem lowerChecked_spec (h : n < c) (e : ℤ × ℤ) :
    n < lowerChecked n c e ∧ lowerChecked n c e ≤ c ∧ (n < e.1 → lowerChecked n c e ≤ e.1) ∧
      (n < e.2 → lowerChecked n c e ≤ e.2) := by
  unfold lowerChecked
  dsimp only
  split_ifs <;> omega

/-! ## One pass -/

theorem scanLists_used (h : n < c) :
    n ≤ (scanLists l n c).2.1 ∧
      (∀ i, n ≤ i → i < (scanLists l n c).2.1 → ∃ e ∈ l, e.1 = i ∨ e.2 = i) ∧
      ((scanLists l n c).1 = true →
        n < (scanLists l n c).2.1 ∧ (scanLists l n c).2.2 ≤ (scanLists l n c).2.1) ∧
      ((scanLists l n c).1 = false → (scanLists l n c).2.1 < (scanLists l n c).2.2) ∧
      (scanLists l n c).2.2 ≤ c := by
  induction l generalizing n c with
  | nil =>
    refine ⟨Int.le_refl n, fun i hi hi' => ?_, nofun, fun _ => h, Int.le_refl c⟩
    exact absurd (Int.lt_of_le_of_lt hi hi') (Int.lt_irrefl n)
  | cons e l ih =>
    have hwider : ∀ {a b : ℤ}, (∀ i, a ≤ i → i < b → ∃ e ∈ l, e.1 = i ∨ e.2 = i) →
        ∀ i, a ≤ i → i < b → ∃ e' ∈ e :: l, e'.1 = i ∨ e'.2 = i := by
      intro a b hu i hi hi'
      obtain ⟨e', he', hor⟩ := hu i hi hi'
      exact ⟨e', mem_cons_of_mem _ he', hor⟩
    rw [scanLists]
    by_cases he : e.1 = n ∨ e.2 = n
    · rw [if_pos he]
      by_cases hc : n + 1 ≥ c
      · rw [if_pos hc]
        refine ⟨by dsimp only; omega, fun i hi hi' => ?_, fun _ => ⟨by dsimp only; omega, hc⟩,
          nofun, Int.le_refl c⟩
        obtain rfl : i = n := by dsimp only at hi'; omega
        exact ⟨e, mem_cons_self, he⟩
      rw [if_neg hc]
      have hlt : n + 1 < c := by omega
      obtain ⟨h1, h2, -, -⟩ := lowerChecked_spec hlt e
      obtain ⟨hle, hused, hretry, hend, hcle⟩ := ih h1
      refine ⟨by omega, fun i hi hi' => ?_, fun hr => ⟨?_, (hretry hr).2⟩, hend,
        Int.le_trans hcle h2⟩
      · by_cases hin : i = n
        · subst hin
          exact ⟨e, mem_cons_self, he⟩
        · exact hwider hused i (by omega) hi'
      · have hgt := (hretry hr).1
        omega
    · rw [if_neg he]
      obtain ⟨h1, h2, -, -⟩ := lowerChecked_spec h e
      obtain ⟨hle, hused, hretry, hend, hcle⟩ := ih h1
      exact ⟨hle, hwider hused, hretry, hend, Int.le_trans hcle h2⟩

/-- **A pass that ends** leaves unused numbers, when its last move overlooks none. The entries `pre`
are those it has met: they have no number from `n` on below `c`, but that of the present number when
this was overlooked. -/
theorem scanLists_unused {pre : List (ℤ × ℤ)} {overlooked : Bool} (h : n < c)
    (hpre : ∀ e ∈ pre, ∀ i, n ≤ i → i < c → (overlooked = true → i ≠ n) → e.1 ≠ i ∧ e.2 ≠ i)
    (hscan : scanLists l n c = (false, n', c')) (hclean : scanOverlooks l n c overlooked = false) :
    Unused (pre ++ l) n' c' := by
  induction l generalizing n c pre overlooked with
  | nil =>
    rw [scanLists] at hscan
    obtain ⟨-, heq⟩ := Prod.mk.inj hscan
    obtain ⟨rfl, rfl⟩ := Prod.mk.inj heq
    rw [scanOverlooks] at hclean
    rw [append_nil]
    intro e he i hi hi'
    exact hpre e he i hi hi' fun ho => absurd (hclean.symm.trans ho) Bool.false_ne_true
  | cons e l ih =>
    rw [scanLists] at hscan
    rw [scanOverlooks] at hclean
    have happ : pre ++ e :: l = (pre ++ [e]) ++ l := by rw [append_assoc, singleton_append]
    rw [happ]
    by_cases he : e.1 = n ∨ e.2 = n
    · rw [if_pos he] at hscan hclean
      by_cases hc : n + 1 ≥ c
      · rw [if_pos hc] at hscan
        exact absurd (congrArg Prod.fst hscan) nofun
      rw [if_neg hc] at hscan hclean
      have hlt : n + 1 < c := by omega
      obtain ⟨h1, h2, h3, h4⟩ := lowerChecked_spec hlt e
      refine ih h1 (fun e' he' i hi hi' ho => ?_) hscan hclean
      rcases mem_append.mp he' with he' | he'
      · exact hpre e' he' i (by omega) (by omega) fun _ => by omega
      obtain rfl := mem_singleton.mp he'
      -- the entry itself: the next number is overlooked or not one of its identifiers
      by_cases hin : i = n + 1
      · subst hin
        by_contra hcon
        refine ho ?_ rfl
        simp only [Bool.or_eq_true, beq_iff_eq]
        by_contra hcon'
        exact hcon ⟨fun h => hcon' (.inl h), fun h => hcon' (.inr h)⟩
      · constructor
        · intro heq
          omega
        · intro heq
          omega
    · rw [if_neg he] at hscan hclean
      obtain ⟨h1, h2, h3, h4⟩ := lowerChecked_spec h e
      refine ih h1 (fun e' he' i hi hi' ho => ?_) hscan hclean
      rcases mem_append.mp he' with he' | he'
      · exact hpre e' he' i hi (by omega) ho
      obtain rfl := mem_singleton.mp he'
      constructor
      · intro heq
        omega
      · intro heq
        omega

/-! ## The search -/

/-- **The search** finds an unused number, and a range of them, when its last pass overlooks none. -/
theorem findPid_unused {f : ℕ} (hrange : Unused l n c) (hfind : findPid l f n c = some (n', c'))
    (hclean : findOverlooks l f n c = false) : Unused l n' c' ∧ n' < c' := by
  induction f generalizing n c with
  | zero => exact absurd hfind nofun
  | succ f ih =>
    rw [findPid] at hfind
    rw [findOverlooks] at hclean
    obtain ⟨m, hm⟩ : ∃ m, (if n ≥ pidMax then 100 else n) = m := ⟨_, rfl⟩
    obtain ⟨d, hd⟩ : ∃ d, (if n ≥ pidMax then 0 else c) = d := ⟨_, rfl⟩
    rw [hm, hd] at hfind hclean
    have hlt : m < pidMax := by
      rw [← hm]
      unfold pidMax
      split_ifs <;> omega
    by_cases hmd : m ≥ d
    · rw [if_pos hmd] at hfind hclean
      obtain ⟨-, -, hretry, hend, -⟩ := scanLists_used (l := l) hlt
      rcases hscan : scanLists l m pidMax with ⟨retry, n1, c1⟩
      rw [hscan] at hfind hclean hretry hend
      cases retry with
      | true =>
        have hge : c1 ≤ n1 := (hretry rfl).2
        exact ih (fun _ _ i hi hi' => absurd hi' (by omega)) hfind hclean
      | false =>
        obtain ⟨rfl, rfl⟩ := Prod.mk.inj (Option.some.inj hfind)
        refine ⟨?_, hend rfl⟩
        have hun : Unused ([] ++ l) n1 c1 := scanLists_unused hlt (by simp) hscan hclean
        rwa [nil_append] at hun
    · rw [if_neg hmd] at hfind
      obtain ⟨rfl, rfl⟩ := Prod.mk.inj (Option.some.inj hfind)
      have hn : ¬ n ≥ pidMax := by
        intro hn
        rw [if_pos hn] at hm hd
        omega
      rw [if_neg hn] at hm hd
      subst hm hd
      exact ⟨hrange, by omega⟩

theorem findPid_isSome_of_le {i : ℤ} (hi : ∀ e ∈ l, e.1 ≠ i ∧ e.2 ≠ i) (hmax : i < pidMax) {f : ℕ}
    (hni : n ≤ i) (hf : (i - n).toNat < f) : (findPid l f n c).isSome = true := by
  induction f generalizing n c with
  | zero => exact absurd hf (Nat.not_lt_zero _)
  | succ f ih =>
    have hn : ¬ n ≥ pidMax := by omega
    rw [findPid, if_neg hn, if_neg hn]
    by_cases hnc : n ≥ c
    · rw [if_pos hnc]
      obtain ⟨hle, hused, hretry, -, -⟩ := scanLists_used (l := l) (show n < pidMax by omega)
      rcases hscan : scanLists l n pidMax with ⟨retry, n1, c1⟩
      rw [hscan] at hle hused hretry
      cases retry with
      | true =>
        -- the pass has gone over numbers in use only
        have hle' : n1 ≤ i := by
          by_contra hlt
          obtain ⟨e, he, hor⟩ := hused i hni (by dsimp only; omega)
          rcases hor with hor | hor
          · exact (hi e he).1 hor
          · exact (hi e he).2 hor
        have hgt := (hretry rfl).1
        exact ih hle' (by dsimp only at hgt; omega)
      | false => rfl
    · rw [if_neg hnc]
      rfl

/-- **The search ends** when a number from 100 to `PID_MAX - 1` is unused: it comes to this number
from below, if need be after starting again at 100. -/
theorem exists_findPid_isSome {i : ℤ} (hi : ∀ e ∈ l, e.1 ≠ i ∧ e.2 ≠ i) (hmin : 100 ≤ i)
    (hmax : i < pidMax) (n c : ℤ) : ∃ f, (findPid l f n c).isSome = true := by
  have habove : ∀ (m : ℕ) (n c : ℤ), (pidMax - n).toNat = m → ∃ f, (findPid l f n c).isSome = true := by
    intro m
    induction m using Nat.strong_induction_on with
    | _ m ih =>
      intro n c hm
      by_cases hni : n ≤ i
      · exact ⟨_, findPid_isSome_of_le hi hmax hni (Nat.lt_succ_self _)⟩
      by_cases hn : n ≥ pidMax
      · -- the prototype wraps around
        refine ⟨(i - 100).toNat + 1, ?_⟩
        have hwrap : findPid l ((i - 100).toNat + 1) n c = findPid l ((i - 100).toNat + 1) 100 0 := by
          simp only [findPid, if_pos hn]
          rfl
        rw [hwrap]
        exact findPid_isSome_of_le hi hmax hmin (Nat.lt_succ_self _)
      · by_cases hnc : n ≥ c
        · obtain ⟨-, -, hretry, -, -⟩ := scanLists_used (l := l) (show n < pidMax by omega)
          rcases hscan : scanLists l n pidMax with ⟨retry, n1, c1⟩
          rw [hscan] at hretry
          cases retry with
          | true =>
            have hgt := (hretry rfl).1
            obtain ⟨f, hf⟩ := ih (pidMax - n1).toNat (by dsimp only at hgt; omega) n1 c1 rfl
            refine ⟨f + 1, ?_⟩
            rw [findPid, if_neg hn, if_neg hn, if_pos hnc, hscan]
            exact hf
          | false =>
            refine ⟨1, ?_⟩
            rw [findPid, if_neg hn, if_neg hn, if_pos hnc, hscan]
            rfl
        · refine ⟨1, ?_⟩
          rw [findPid, if_neg hn, if_neg hn, if_neg hnc]
          rfl
  exact habove _ n c rfl

end Bsd386.Kern.Proc
