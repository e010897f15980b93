import Mathlib.Data.List.TakeWhile
import Mathlib.Tactic.Common

/-!
# Reassembly queues

A reassembly queue is a list of pieces of one sequence of bytes, in order and without overlap. A
new piece is put behind those that do not begin after it; what its predecessor has already is cut
off its front, and what it has is cut off the front of its successors, or they are removed. The
arithmetic on positions is a parameter (`Ops`), since protocols do it in machine words.
-/

namespace Bsd386.Lib.Reassembly

open List

variable {α : Type}

/-- How a protocol computes with the positions of its pieces: `after q p` when `q` begins after
`p`, `beyond p q` is the end of `p` less the beginning of `q`, `size p` is the length of `p` and
`trim p i` is `p` without its first `i` bytes. -/
structure Ops (α : Type) where
  after : α → α → Bool
  beyond : α → α → ℤ
  size : α → ℤ
  trim : α → ℤ → α

/-- While the piece `p` overlaps succeeding pieces trim them or, if they are completely covered,
remove them. -/
def trimNext (F : Ops α) (p : α) : List α → List α
  | [] => []
  | q :: qs =>
    if F.beyond p q ≤ 0 then q :: qs
    else if F.beyond p q < F.size q then F.trim q (F.beyond p q) :: qs
    else trimNext F p qs

/-- Put the piece `p` into the queue; `none` when its predecessor provides all of it. -/
def insert (F : Ops α) (p : α) (qs : List α) : Option (List α) :=
  let pre := qs.takeWhile (fun q => !F.after q p)
  let post := qs.dropWhile (fun q => !F.after q p)
  match pre.getLast? with
  | none => some (pre ++ p :: trimNext F p post)
  | some l =>
    if 0 < F.beyond l p then
      if F.size p ≤ F.beyond l p then none
      else some (pre ++ F.trim p (F.beyond l p) :: trimNext F (F.trim p (F.beyond l p)) post)
    else some (pre ++ p :: trimNext F p post)

theorem insert_cases (F : Ops α) (p : α) (qs : List α) :
    ∃ pre post, qs = pre ++ post ∧ (∀ q ∈ pre, F.after q p = false) ∧
      (∀ q qs', post = q :: qs' → F.after q p = true) ∧
      ((∃ l, pre.getLast? = some l ∧ 0 < F.beyond l p ∧ F.size p ≤ F.beyond l p ∧
          insert F p qs = none) ∨
       (∃ l, pre.getLast? = some l ∧ 0 < F.beyond l p ∧ F.beyond l p < F.size p ∧
          insert F p qs = some (pre ++ F.trim p (F.beyond l p) ::
            trimNext F (F.trim p (F.beyond l p)) post)) ∨
       ((∀ l, pre.getLast? = some l → F.beyond l p ≤ 0) ∧
          insert F p qs = some (pre ++ p :: trimNext F p post))) := by
  refine ⟨qs.takeWhile (fun q => !F.after q p), qs.dropWhile (fun q => !F.after q p),
    takeWhile_append_dropWhile.symm, fun q hq => ?_, fun q qs' hpost => ?_, ?_⟩
  · simpa using mem_takeWhile_imp hq
  · have hhead := head?_dropWhile_not (fun q => !F.after q p) qs
    rw [hpost, head?_cons] at hhead
    simpa using hhead
  · obtain ⟨pre, hpre⟩ : ∃ pre, qs.takeWhile (fun q => !F.after q p) = pre := ⟨_, rfl⟩
    obtain ⟨post, hpost⟩ : ∃ post, qs.dropWhile (fun q => !F.after q p) = post := ⟨_, rfl⟩
    simp only [insert, hpre, hpost]
    cases hl : pre.getLast? with
    | none => exact .inr (.inr ⟨fun l h => absurd h (by simp), rfl⟩)
    | some l =>
      simp only
      by_cases hpos : 0 < F.beyond l p
      · by_cases hsize : F.size p ≤ F.beyond l p
        · exact .inl ⟨l, rfl, hpos, hsize, by rw [if_pos hpos, if_pos hsize]⟩
        · exact .inr (.inl ⟨l, rfl, hpos, Int.lt_of_not_ge hsize,
            by rw [if_pos hpos, if_neg hsize]⟩)
      · refine .inr (.inr ⟨fun l' h => ?_, by rw [if_neg hpos]⟩)
        rw [Option.some.inj h] at hpos
        exact Int.not_lt.mp hpos

theorem trimNext_cases (F : Ops α) (p : α) (qs : List α) :
    ∃ mid suf, qs = mid ++ suf ∧ (∀ q ∈ mid, 0 < F.beyond p q ∧ F.size q ≤ F.beyond p q) ∧
      ((∀ q rest, suf = q :: rest → F.beyond p q ≤ 0) ∧ trimNext F p qs = suf ∨
       ∃ q rest, suf = q :: rest ∧ 0 < F.beyond p q ∧ F.beyond p q < F.size q ∧
         trimNext F p qs = F.trim q (F.beyond p q) :: rest) := by
  induction qs with
  | nil => exact ⟨[], [], rfl, fun q hq => absurd hq not_mem_nil, .inl ⟨nofun, rfl⟩⟩
  | cons q qs ih =>
    rw [trimNext]
    by_cases hle : F.beyond p q ≤ 0
    · rw [if_pos hle]
      refine ⟨[], q :: qs, rfl, fun q hq => absurd hq not_mem_nil, .inl ⟨?_, rfl⟩⟩
      intro q' rest heq
      obtain ⟨rfl, -⟩ := cons.inj heq
      exact hle
    rw [if_neg hle]
    by_cases hlt : F.beyond p q < F.size q
    · rw [if_pos hlt]
      exact ⟨[], q :: qs, rfl, fun q hq => absurd hq not_mem_nil,
        .inr ⟨q, qs, rfl, Int.not_le.mp hle, hlt, rfl⟩⟩
    rw [if_neg hlt]
    obtain ⟨mid, suf, heq, hmid, hcases⟩ := ih
    refine ⟨q :: mid, suf, by rw [heq, cons_append], ?_, hcases⟩
    intro q' hq'
    rcases mem_cons.mp hq' with rfl | hq'
    · exact ⟨Int.not_le.mp hle, Int.not_lt.mp hlt⟩
    · exact hmid q' hq'

theorem insert_ne_nil {F : Ops α} {p : α} {qs r : List α} (h : insert F p qs = some r) :
    r ≠ [] := by
  obtain ⟨pre, post, -, -, -, hcases⟩ := insert_cases F p qs
  rcases hcases with ⟨l, -, -, -, hins⟩ | ⟨l, -, -, -, hins⟩ | ⟨-, hins⟩
  · rw [hins] at h
    exact absurd h (by simp)
  · rw [hins] at h
    rw [← Option.some.inj h]
    exact append_ne_nil_of_right_ne_nil pre (cons_ne_nil _ _)
  · rw [hins] at h
    rw [← Option.some.inj h]
    exact append_ne_nil_of_right_ne_nil pre (cons_ne_nil _ _)

/-- **Inserting a piece that overlaps none**: it is put between the pieces that do not begin after it
and the rest, and nothing is trimmed. -/
theorem insert_disjoint {F : Ops α} {p : α} {qs : List α}
    (hbefore : ∀ q ∈ qs, F.after q p = false → F.beyond q p ≤ 0)
    (hafter : ∀ q ∈ qs, F.after q p = true → F.beyond p q ≤ 0) :
    ∃ pre post, qs = pre ++ post ∧ (∀ q ∈ pre, F.after q p = false) ∧
      (∀ q qs', post = q :: qs' → F.after q p = true) ∧ insert F p qs = some (pre ++ p :: post) := by
  obtain ⟨pre, post, heq, hpre, hhead, hcases⟩ := insert_cases F p qs
  have hno : ∀ l, pre.getLast? = some l → F.beyond l p ≤ 0 := by
    intro l hl
    have hmem := mem_of_getLast? hl
    exact hbefore l (by rw [heq]; exact mem_append_left _ hmem) (hpre l hmem)
  have htrim : trimNext F p post = post := by
    cases post with
    | nil => rfl
    | cons q post =>
      rw [trimNext, if_pos]
      exact hafter q (by rw [heq]; simp) (hhead q post rfl)
  refine ⟨pre, post, heq, hpre, hhead, ?_⟩
  rcases hcases with ⟨l, hl, hpos, -⟩ | ⟨l, hl, hpos, -⟩ | ⟨-, hins⟩
  · exact absurd hpos (Int.not_lt.mpr (hno l hl))
  · exact absurd hpos (Int.not_lt.mpr (hno l hl))
  · rw [hins, htrim]

/-! ## Properties that the trims keep -/

section forall_

variable {F : Ops α} {Good : α → Prop}
  (htrim : ∀ p q, Good p → Good q → 0 < F.beyond p q → F.beyond p q < F.size q →
    Good (F.trim q (F.beyond p q)))

include htrim

theorem trimNext_forall {p : α} (hp : Good p) {qs : List α} (hqs : ∀ q ∈ qs, Good q) :
    ∀ e ∈ trimNext F p qs, Good e := by
  induction qs with
  | nil => exact fun e he => absurd he not_mem_nil
  | cons q qs ih =>
    have hq := hqs q mem_cons_self
    have hrest : ∀ e ∈ qs, Good e := fun e he => hqs e (mem_cons_of_mem q he)
    intro e he
    rw [trimNext] at he
    split at he
    · exact hqs e he
    next hpos =>
      split at he
      · next hlt =>
          rcases mem_cons.mp he with rfl | he
          · exact htrim p q hp hq (Int.not_le.mp hpos) hlt
          · exact hrest e he
      · exact ih hrest e he

theorem insert_forall {p : α} (hp : Good p) {qs r : List α} (hqs : ∀ q ∈ qs, Good q)
    (h : insert F p qs = some r) : ∀ e ∈ r, Good e := by
  obtain ⟨pre, post, rfl, -, -, hcases⟩ := insert_cases F p qs
  have hl : ∀ l, pre.getLast? = some l → l ∈ pre := fun l hl => mem_of_getLast? hl
  have hput : ∀ p', Good p' → ∀ e ∈ pre ++ p' :: trimNext F p' post, Good e := by
    intro p' hp' e he
    rcases mem_append.mp he with he | he
    · exact hqs e (mem_append_left _ he)
    · rcases mem_cons.mp he with rfl | he
      · exact hp'
      · exact trimNext_forall htrim hp' (fun q hq => hqs q (mem_append_right _ hq)) e he
  rcases hcases with ⟨-, -, -, -, hins⟩ | ⟨l, hlast, hpos, hlt, hins⟩ | ⟨-, hins⟩
  · rw [hins] at h
    exact absurd h (by simp)
  · rw [hins] at h
    have hgl := hqs l (mem_append_left _ (hl l hlast))
    rw [← Option.some.inj h]
    exact hput _ (htrim l p hgl hp hpos hlt)
  · rw [hins] at h
    rw [← Option.some.inj h]
    exact hput p hp

end forall_

/-! ## Faithful arithmetic -/

/-- The pieces `e` with `Ok e` have a beginning and a length, and the arithmetic is that of these
numbers. -/
structure Faithful (F : Ops α) (Ok : α → Prop) (start len : α → ℕ) : Prop where
  after_iff : ∀ p q, Ok p → Ok q → (F.after q p = true ↔ start p < start q)
  beyond_eq : ∀ p q, Ok p → Ok q → F.beyond p q = (start p + len p : ℤ) - start q
  size_eq : ∀ p, Ok p → F.size p = len p
  trim_ok : ∀ p (i : ℕ), Ok p → 0 < i → i < len p →
    Ok (F.trim p i) ∧ start (F.trim p i) = start p + i ∧ len (F.trim p i) = len p - i

def Sorted (start len : α → ℕ) (qs : List α) : Prop :=
  qs.Pairwise fun e e' => start e + len e ≤ start e'

/-- The position `x` is in one of the pieces. -/
def Covered (start len : α → ℕ) (qs : List α) (x : ℕ) : Prop :=
  ∃ e ∈ qs, start e ≤ x ∧ x < start e + len e

theorem Sorted.stop_le {start len : α → ℕ} {pre : List α} (hsort : Sorted start len pre) {b m : ℕ}
    (hle : ∀ q ∈ pre, start q ≤ b) (hbm : b ≤ m)
    (hlast : ∀ l, pre.getLast? = some l → start l + len l ≤ m) :
    ∀ q ∈ pre, start q + len q ≤ m := by
  intro q hq
  rcases eq_nil_or_concat pre with rfl | ⟨init, l, rfl⟩
  · exact absurd hq not_mem_nil
  rw [concat_eq_append] at hq hsort hlast hle
  rcases mem_append.mp hq with hq | hq
  · have hql := (pairwise_append.mp hsort).2.2 q hq l (by simp)
    exact hql.trans ((hle l (mem_append_right _ (by simp))).trans hbm)
  · rw [mem_singleton.mp hq]
    exact hlast l getLast?_concat

section faithful

variable {F : Ops α} {Ok : α → Prop} {start len : α → ℕ} (hF : Faithful F Ok start len)
include hF

theorem Faithful.trimNext_spec {p : α} (hp : Ok p) {qs : List α} (hqs : ∀ q ∈ qs, Ok q)
    (hsort : Sorted start len qs) (hafter : ∀ q ∈ qs, start p ≤ start q) :
    (∀ e ∈ trimNext F p qs, Ok e) ∧ Sorted start len (trimNext F p qs) ∧
      (∀ e ∈ trimNext F p qs, start p + len p ≤ start e) ∧
      ∀ x, start p + len p ≤ x →
        (Covered start len (trimNext F p qs) x ↔ Covered start len qs x) := by
  induction qs with
  | nil =>
    exact ⟨fun e he => absurd he not_mem_nil, List.Pairwise.nil,
      fun e he => absurd he not_mem_nil, fun x _ => Iff.rfl⟩
  | cons q qs ih =>
    obtain ⟨hq, hrest⟩ : Ok q ∧ ∀ e ∈ qs, Ok e :=
      ⟨hqs q mem_cons_self, fun e he => hqs e (mem_cons_of_mem q he)⟩
    obtain ⟨hhead, htail⟩ := pairwise_cons.mp hsort
    have hover := hF.beyond_eq p q hp hq
    have hsize := hF.size_eq q hq
    rw [trimNext]
    split
    · next hle =>
        refine ⟨hqs, hsort, fun e he => ?_, fun x _ => Iff.rfl⟩
        rcases mem_cons.mp he with rfl | he
        · omega
        · have hqe := hhead e he
          omega
    · next hpos =>
        split
        · next hlt =>
            obtain ⟨i, hi⟩ : ∃ i : ℕ, F.beyond p q = i := ⟨(F.beyond p q).toNat, by omega⟩
            rw [hi] at hover hpos hlt
            obtain ⟨htok, htstart, htlen⟩ := hF.trim_ok q i hq (by omega) (by omega)
            rw [hi]
            refine ⟨?_, ?_, ?_, ?_⟩
            · intro e he
              rcases mem_cons.mp he with rfl | he
              · exact htok
              · exact hrest e he
            · refine pairwise_cons.mpr ⟨fun e he => ?_, htail⟩
              have hqe := hhead e he
              omega
            · intro e he
              rcases mem_cons.mp he with rfl | he
              · omega
              · have hqe := hhead e he
                omega
            · intro x hx
              constructor
              · rintro ⟨e, he, hxe⟩
                rcases mem_cons.mp he with rfl | he
                · exact ⟨q, mem_cons_self, by omega⟩
                · exact ⟨e, mem_cons_of_mem q he, hxe⟩
              · rintro ⟨e, he, hxe⟩
                rcases mem_cons.mp he with rfl | he
                · exact ⟨_, mem_cons_self, by omega⟩
                · exact ⟨e, mem_cons_of_mem _ he, hxe⟩
        · next hge =>
            obtain ⟨h1, h2, h3, h4⟩ := ih hrest htail
              fun e he => hafter e (mem_cons_of_mem q he)
            refine ⟨h1, h2, h3, fun x hx => (h4 x hx).trans ⟨?_, ?_⟩⟩
            · rintro ⟨e, he, hxe⟩
              exact ⟨e, mem_cons_of_mem q he, hxe⟩
            · rintro ⟨e, he, hxe⟩
              rcases mem_cons.mp he with rfl | he
              · omega
              · exact ⟨e, he, hxe⟩

theorem Faithful.put_spec {p : α} (hp : Ok p) {pre post : List α} (hok : ∀ q ∈ pre ++ post, Ok q)
    (hsort : Sorted start len (pre ++ post)) (hpre : ∀ q ∈ pre, start q + len q ≤ start p)
    (hpost : ∀ q ∈ post, start p ≤ start q) :
    (∀ e ∈ pre ++ p :: trimNext F p post, Ok e) ∧
      Sorted start len (pre ++ p :: trimNext F p post) ∧
      ∀ x, Covered start len (pre ++ p :: trimNext F p post) x ↔
        Covered start len (pre ++ post) x ∨ (start p ≤ x ∧ x < start p + len p) := by
  obtain ⟨hsp, hsq, hpq⟩ := pairwise_append.mp hsort
  obtain ⟨h1, h2, h3, h4⟩ := hF.trimNext_spec hp
    (fun q hq => hok q (mem_append_right _ hq)) hsq hpost
  refine ⟨?_, ?_, ?_⟩
  · intro e he
    rcases mem_append.mp he with he | he
    · exact hok e (mem_append_left _ he)
    · rcases mem_cons.mp he with rfl | he
      · exact hp
      · exact h1 e he
  · refine pairwise_append.mpr ⟨hsp, pairwise_cons.mpr ⟨h3, h2⟩, fun q hq e he => ?_⟩
    have hqp := hpre q hq
    rcases mem_cons.mp he with rfl | he
    · exact hqp
    · have hpe := h3 e he
      omega
  · intro x
    constructor
    · rintro ⟨e, he, hxe⟩
      rcases mem_append.mp he with he | he
      · exact .inl ⟨e, mem_append_left _ he, hxe⟩
      rcases mem_cons.mp he with rfl | he
      · exact .inr hxe
      · have hpe := h3 e he
        obtain ⟨e', he', hxe'⟩ := (h4 x (by omega)).mp ⟨e, he, hxe⟩
        exact .inl ⟨e', mem_append_right _ he', hxe'⟩
    · rintro (⟨e, he, hxe⟩ | hx)
      · rcases mem_append.mp he with he | he
        · exact ⟨e, mem_append_left _ he, hxe⟩
        · by_cases hx : x < start p + len p
          · have hpe := hpost e he
            exact ⟨p, mem_append_cons_self, by omega⟩
          · obtain ⟨e', he', hxe'⟩ := (h4 x (by omega)).mpr ⟨e, he, hxe⟩
            exact ⟨e', mem_append_right _ (mem_cons_of_mem p he'), hxe'⟩
      · exact ⟨p, mem_append_cons_self, hx⟩

/-- **Inserting a piece** into a queue in order: it is dropped only when the queue covers it;
otherwise the new queue is in order and covers what the old one and the piece cover. -/
theorem Faithful.insert_spec {p : α} (hp : Ok p) {qs : List α} (hok : ∀ q ∈ qs, Ok q)
    (hsort : Sorted start len qs) :
    match insert F p qs with
    | none => ∀ x, start p ≤ x → x < start p + len p → Covered start len qs x
    | some r => (∀ e ∈ r, Ok e) ∧ Sorted start len r ∧
        ∀ x, Covered start len r x ↔
          Covered start len qs x ∨ (start p ≤ x ∧ x < start p + len p) := by
  obtain ⟨pre, post, rfl, hpre, hhead, hcases⟩ := insert_cases F p qs
  have hokpre : ∀ q ∈ pre, Ok q := fun q hq => hok q (mem_append_left _ hq)
  have hle : ∀ q ∈ pre, start q ≤ start p := by
    intro q hq
    have hq' := hpre q hq
    by_contra hlt
    rw [(hF.after_iff p q hp (hokpre q hq)).mpr (Nat.lt_of_not_le hlt)] at hq'
    exact absurd hq' (by simp)
  obtain ⟨(hsp : Sorted start len pre), hsq, hpq⟩ := pairwise_append.mp hsort
  have hgt : ∀ q ∈ post, start p < start q := by
    rcases post with _ | ⟨q0, post⟩
    · exact fun q hq => absurd hq not_mem_nil
    have hq0 := (hF.after_iff p q0 hp (hok q0 (by simp))).mp (hhead q0 post rfl)
    intro q hq
    rcases mem_cons.mp hq with rfl | hq
    · exact hq0
    · have hqq := (pairwise_cons.mp hsq).1 q hq
      omega
  rcases hcases with ⟨l, hlast, hpos, hsize, hins⟩ | ⟨l, hlast, hpos, hlt, hins⟩ | ⟨hno, hins⟩
  · rw [hins]
    have hl := mem_of_getLast? hlast
    rw [hF.beyond_eq l p (hokpre l hl) hp] at hpos hsize
    rw [hF.size_eq p hp] at hsize
    have hlp := hle l hl
    exact fun x hx hx' => ⟨l, mem_append_left _ hl, by omega⟩
  · rw [hins]
    have hl := mem_of_getLast? hlast
    have hover := hF.beyond_eq l p (hokpre l hl) hp
    have hsize := hF.size_eq p hp
    obtain ⟨i, hi⟩ : ∃ i : ℕ, F.beyond l p = i := ⟨(F.beyond l p).toNat, by omega⟩
    rw [hi] at hover hpos hlt ⊢
    obtain ⟨htok, htstart, htlen⟩ := hF.trim_ok p i hp (by omega) (by omega)
    have hlp := hle l hl
    obtain ⟨h1, h2, h3⟩ := hF.put_spec htok hok hsort
      (hsp.stop_le hle (by omega) fun l' hl' => by
        obtain rfl := Option.some.inj (hlast.symm.trans hl')
        omega)
      (fun q hq => by
        have hlq := hpq l hl q hq
        omega)
    refine ⟨h1, h2, fun x => (h3 x).trans ⟨?_, ?_⟩⟩
    · rintro (hx | hx)
      · exact .inl hx
      · exact .inr (by omega)
    · rintro (hx | hx)
      · exact .inl hx
      · by_cases hxl : x < start l + len l
        · exact .inl ⟨l, mem_append_left _ hl, by omega⟩
        · exact .inr (by omega)
  · rw [hins]
    exact hF.put_spec hp hok hsort
      (hsp.stop_le hle le_rfl fun l hl => by
        have hmem := mem_of_getLast? hl
        have hover := hno l hl
        rw [hF.beyond_eq l p (hokpre l hmem) hp] at hover
        omega)
      (fun q hq => (hgt q hq).le)

end faithful

end Bsd386.Lib.Reassembly
