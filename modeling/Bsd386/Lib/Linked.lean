import Mathlib.Data.List.Nodup
import Mathlib.Data.List.Perm.Subperm
import Mathlib.Data.Set.Insert

/-!
# Singly linked lists in memory

`Linked next p l`: following `next` from the pointer `p` visits exactly the elements of `l`. The
loop `for (mp = &head; m = *mp; mp = &next(m))` is `walk`: it stops at an element or at the end
and returns the place of the pointer that led there (`none` for the head itself, `some m` for the
link of `m`) with the pointer found.
-/

namespace Bsd386.Lib.Linked

open Function List

variable {α : Type}

/-- The list in memory from the pointer on. -/
def Linked (next : α → Option α) : Option α → List α → Prop
  | p, [] => p = none
  | p, x :: l => p = some x ∧ Linked next (next x) l

/-- `for (mp = &head; m = *mp; mp = &next(m)) if (stop(m)) break;`, from the place `prev`. -/
def walk (next : α → Option α) (stop : α → Bool) : ℕ → Option α → Option α →
    Option (Option α × Option α)
  | 0, _, _ => none
  | _ + 1, prev, none => some (prev, none)
  | n + 1, prev, some m => if stop m then some (prev, some m) else walk next stop n (some m) (next m)

/-- `*mp = q` when `mp` is the head. -/
def relinkHead (prev head q : Option α) : Option α :=
  match prev with
  | none => q
  | some _ => head

/-- `*mp = q` when `mp` is the link of an element. -/
def relinkNext [DecidableEq α] (prev : Option α) (next : α → Option α) (q : Option α) :
    α → Option α :=
  match prev with
  | none => next
  | some m => update next m q

variable {next next' : α → Option α} {p q : Option α} {l pre post : List α}

theorem Linked.congr (h : Linked next p l) (hn : ∀ x ∈ l, next' x = next x) :
    Linked next' p l := by
  induction l generalizing p with
  | nil => exact h
  | cons x l ih =>
    refine ⟨h.1, ?_⟩
    rw [hn x (by simp)]
    exact ih h.2 fun y hy => hn y (by simp [hy])

theorem Linked.head_eq (h : Linked next p l) : p = l.head? := by
  cases l with
  | nil => exact h
  | cons x l => exact h.1

theorem Linked.append_right (h : Linked next p (pre ++ post)) : ∃ q, Linked next q post := by
  induction pre generalizing p with
  | nil => exact ⟨p, h⟩
  | cons x pre ih => exact ih h.2

theorem Linked.next_eq {x : α} (h : Linked next p (pre ++ x :: post)) : Linked next (next x) post := by
  induction pre generalizing p with
  | nil => exact h.2
  | cons y pre ih => exact ih h.2

theorem Linked.unique {l' : List α} (h : Linked next p l) (h' : Linked next p l') : l = l' := by
  induction l generalizing p l' with
  | nil =>
    obtain rfl : p = none := h
    cases l' with
    | nil => rfl
    | cons y l' => exact absurd h'.1 nofun
  | cons x l ih =>
    obtain ⟨rfl, hl⟩ := h
    cases l' with
    | nil => exact absurd h' nofun
    | cons y l' =>
      obtain ⟨hxy, hl'⟩ := h'
      obtain rfl := Option.some.inj hxy
      rw [ih hl hl']

theorem Linked.nodup (h : Linked next p l) : l.Nodup := by
  induction l generalizing p with
  | nil => exact nodup_nil
  | cons x l ih =>
    refine nodup_cons.mpr ⟨fun hx => ?_, ih h.2⟩
    -- the rest of the list would come again behind the second occurrence
    obtain ⟨a, b, rfl⟩ := append_of_mem hx
    have heq := h.2.next_eq.unique h.2
    have hlen := congrArg length heq
    simp only [length_append, length_cons] at hlen
    omega

theorem Linked.length_le {next : ℕ → Option ℕ} {p : Option ℕ} {l : List ℕ} {n : ℕ}
    (h : Linked next p l) (hn : ∀ x ∈ l, x < n) : l.length ≤ n := by
  have hsub : l ⊆ range n := fun x hx => mem_range.mpr (hn x hx)
  have hle := (h.nodup.subperm hsub).length_le
  rwa [length_range] at hle

/-- **The loop** stops within the length of the list, at its first element with the property or at
its end. -/
theorem walk_spec (stop : α → Bool) {n : ℕ} (h : Linked next p l) (hn : l.length < n)
    (prev : Option α) :
    ∃ pre post, l = pre ++ post ∧ (∀ x ∈ pre, stop x = false) ∧
      (∀ x, post.head? = some x → stop x = true) ∧
      walk next stop n prev p = some (pre.getLast?.or prev, post.head?) := by
  induction l generalizing p n prev with
  | nil =>
    obtain ⟨n, rfl⟩ : ∃ m, n = m + 1 := ⟨n - 1, by simp only [length_nil] at hn; omega⟩
    obtain rfl : p = none := h
    exact ⟨[], [], rfl, by simp, by simp, by simp [walk]⟩
  | cons x l ih =>
    obtain ⟨n, rfl⟩ : ∃ m, n = m + 1 := ⟨n - 1, by simp only [length_cons] at hn; omega⟩
    obtain ⟨rfl, hl⟩ := h
    by_cases hx : stop x = true
    · exact ⟨[], x :: l, rfl, by simp, by simpa using hx, by simp [walk, hx]⟩
    obtain ⟨pre, post, rfl, h1, h2, h3⟩ := ih hl (by simpa using hn) (some x)
    refine ⟨x :: pre, post, rfl, ?_, h2, ?_⟩
    · exact forall_mem_cons.mpr ⟨by simpa using hx, h1⟩
    · rw [walk, if_neg hx, h3]
      cases hpre : pre.getLast? with
      | none => simp [getLast?_eq_none_iff.mp hpre]
      | some y => simp [getLast?_cons, hpre]

theorem Linked.walk_eq_of_mem [DecidableEq α] {n : ℕ} {x : α} (h : Linked next p l)
    (hn : l.length < n) (hx : x ∈ l) :
    ∃ pre post, l = pre ++ x :: post ∧ walk next (· == x) n none p = some (pre.getLast?, some x) := by
  obtain ⟨pre, post, rfl, hpre, hpost, hwalk⟩ := walk_spec (· == x) h hn none
  cases post with
  | nil =>
    rw [append_nil] at hx
    exact absurd (hpre x hx) (by simp)
  | cons y post =>
    obtain rfl : y = x := by simpa using hpost y rfl
    refine ⟨pre, post, rfl, ?_⟩
    rw [hwalk, Option.or_none]
    rfl

/-- **Relinking.** Storing `q` behind a prefix makes the list the prefix followed by the list at
`q`. -/
theorem Linked.relink [DecidableEq α] {post' : List α} (h : Linked next p (pre ++ post))
    (hq : Linked next q post') (hpre : pre.Nodup) (hdisj : ∀ x ∈ pre, x ∉ post') :
    Linked (relinkNext pre.getLast? next q) (relinkHead pre.getLast? p q) (pre ++ post') := by
  induction pre generalizing p with
  | nil => exact hq
  | cons x pre ih =>
    obtain ⟨rfl, h⟩ := h
    obtain ⟨hx, hpre⟩ := nodup_cons.mp hpre
    rcases eq_nil_or_concat pre with rfl | ⟨pre', y, rfl⟩
    · -- the link of `x` itself is stored
      refine ⟨rfl, ?_⟩
      simp only [getLast?_singleton, relinkNext, update_self]
      refine hq.congr fun z hz => update_of_ne ?_ _ _
      rintro rfl
      exact hdisj z (by simp) hz
    · have hlast : (x :: (pre' ++ [y])).getLast? = some y := by simp [getLast?_cons]
      have hlast' : (pre' ++ [y]).getLast? = some y := by simp
      have ih' := ih h hpre fun z hz => hdisj z (by simp only [mem_cons]; exact .inr hz)
      rw [concat_eq_append] at *
      rw [hlast'] at ih'
      rw [hlast]
      refine ⟨rfl, ?_⟩
      have hxy : x ≠ y := by
        rintro rfl
        exact hx (by simp)
      simp only [relinkNext, relinkHead] at ih' ⊢
      rw [update_of_ne hxy]
      exact ih'

theorem relinkNext_of_notMem [DecidableEq α] {x : α} (hx : x ∉ pre) :
    relinkNext pre.getLast? next q x = next x := by
  cases hpre : pre.getLast? with
  | none => rfl
  | some y =>
    refine update_of_ne ?_ _ _
    rintro rfl
    exact hx (mem_of_getLast? hpre)

/-- **Relinking one of several lists.** The lists are those of the heads `hd i`, and the one of `x`
is changed behind a prefix that the others do not touch. -/
theorem Linked.store {ι : Type} [DecidableEq ι] [DecidableEq α] {hd : ι → Option α}
    {list : ι → List α} {x : ι} {post' : List α} (hx : list x = pre ++ post)
    (hlx : Linked next (hd x) (list x)) (hq : Linked next q post')
    (hdisj : ∀ m ∈ pre, m ∉ post') {i : ι} (hi : Linked next (hd i) (list i))
    (hother : i ≠ x → ∀ m ∈ list i, m ∉ pre) :
    Linked (relinkNext pre.getLast? next q)
      (update hd x (relinkHead pre.getLast? (hd x) q) i)
      (update list x (pre ++ post') i) := by
  by_cases hix : i = x
  · subst hix
    rw [update_self, update_self]
    rw [hx] at hlx
    exact hlx.relink hq (nodup_append.mp hlx.nodup).1 hdisj
  · rw [update_of_ne hix, update_of_ne hix]
    exact hi.congr fun m hm => relinkNext_of_notMem (hother hix m hm)

theorem Linked.store_self [DecidableEq α] {list : α → List α} {x i y : α} {post' : List α}
    (hx : list x = pre ++ post) (hy : pre.getLast? = some y) (hlx : Linked next (some x) (list x))
    (hq : Linked next q post') (hdisj : ∀ m ∈ pre, m ∉ post') (hi : Linked next (some i) (list i))
    (hother : i ≠ x → ∀ m ∈ list i, m ∉ pre) :
    Linked (update next y q) (some i) (update list x (pre ++ post') i) := by
  have hstore : Linked (relinkNext pre.getLast? next q)
      (update some x (relinkHead pre.getLast? (some x) q) i)
      (update list x (pre ++ post') i) := Linked.store hx hlx hq hdisj hi hother
  rw [hy] at hstore
  have hhead : update some x (relinkHead (some y) (some x) q) i = some i := by
    by_cases hix : i = x
    · subst hix
      exact update_self _ _ _
    · exact update_of_ne hix _ _
  rwa [hhead] at hstore

/-! ## Loops that change no link -/

/-- The elements that `for (m = p; m; m = next(m))` visits. -/
def collect (next : α → Option α) : ℕ → Option α → Option (List α)
  | 0, _ => none
  | _ + 1, none => some []
  | n + 1, some m => (collect next n (next m)).map (m :: ·)

theorem Linked.collect_eq {n : ℕ} (h : Linked next p l) (hn : l.length < n) :
    collect next n p = some l := by
  induction l generalizing p n with
  | nil =>
    obtain ⟨n, rfl⟩ : ∃ m, n = m + 1 := ⟨n - 1, by simp only [length_nil] at hn; omega⟩
    obtain rfl : p = none := h
    rfl
  | cons x l ih =>
    obtain ⟨n, rfl⟩ : ∃ m, n = m + 1 := ⟨n - 1, by simp only [length_cons] at hn; omega⟩
    obtain ⟨rfl, hl⟩ := h
    rw [collect, ih hl (by simpa using hn)]
    rfl

/-! ## Lists under construction -/

/-- The links lead through the list up to its last element, whose own link is still to be stored. -/
def Open (next : α → Option α) : Option α → List α → Prop
  | _, [] => True
  | p, [x] => p = some x
  | p, x :: y :: l => p = some x ∧ Open next (next x) (y :: l)

/-- The link that is still to be stored: that of the last element, or the head. -/
def lastLink (next : α → Option α) (p : Option α) (l : List α) : Option α :=
  match l.getLast? with
  | none => p
  | some y => next y

theorem Open.congr (h : Open next p l) (hn : ∀ x ∈ l, l.getLast? ≠ some x → next' x = next x)
    (hl : l.Nodup) : Open next' p l := by
  induction l generalizing p with
  | nil => trivial
  | cons x l ih =>
    cases l with
    | nil => exact h
    | cons y l =>
      obtain ⟨hx, hl⟩ := nodup_cons.mp hl
      refine ⟨h.1, ?_⟩
      rw [hn x mem_cons_self fun hlast => hx (mem_of_getLast? hlast)]
      exact ih h.2 (fun z hz => hn z (mem_cons_of_mem x hz)) hl

theorem Open.linked (h : Open next p l) (hq : Linked next (lastLink next p l) post) :
    Linked next p (l ++ post) := by
  induction l generalizing p with
  | nil => exact hq
  | cons x l ih =>
    cases l with
    | nil => exact ⟨h, hq⟩
    | cons y l => exact ⟨h.1, ih h.2 hq⟩

theorem Open.snoc {x : α} (h : Open next p l) (hx : lastLink next p l = some x) : Open next p (l ++ [x]) := by
  induction l generalizing p with
  | nil => exact hx
  | cons z l ih =>
    cases l with
    | nil => exact ⟨h, hx⟩
    | cons y l => exact ⟨h.1, ih h.2 hx⟩

theorem Open.store [DecidableEq α] (h : Open next p l) (hl : l.Nodup) (q : Option α) :
    Open (relinkNext l.getLast? next q) (relinkHead l.getLast? p q) l ∧
      lastLink (relinkNext l.getLast? next q) (relinkHead l.getLast? p q) l = q := by
  rw [lastLink]
  cases hlast : l.getLast? with
  | none =>
    rw [getLast?_eq_none_iff.mp hlast]
    exact ⟨trivial, rfl⟩
  | some y =>
    refine ⟨h.congr (fun x _ hx => ?_) hl, ?_⟩
    · have hne : x ≠ y := by
        rintro rfl
        exact hx hlast
      exact update_of_ne hne q next
    · exact update_self y q next

/-! ## Families of lists -/

/-- Lists in one memory that have no element in common: the list of `i` begins at `hd i`, and all
elements are in `U`. -/
structure Family {ι : Type} (next : α → Option α) (hd : ι → Option α) (S : Set ι) (U : Set α)
    (list : ι → List α) : Prop where
  linked {i : ι} : i ∈ S → Linked next (hd i) (list i)
  disjoint {i j : ι} {m : α} : i ∈ S → j ∈ S → m ∈ list i → m ∈ list j → i = j
  mem {i : ι} {m : α} : i ∈ S → m ∈ list i → m ∈ U

namespace Family

variable {ι κ : Type} {hd : ι → Option α} {S S' : Set ι} {U U' : Set α} {list : ι → List α} {x : ι}
  {post' : List α}

section

variable (hf : Family next hd S U list)
include hf

theorem mono (hn : ∀ m ∈ U, next' m = next m) (hU : U ⊆ U') (hS : S' ⊆ S) :
    Family next' hd S' U' list where
  linked hi := (hf.linked (hS hi)).congr fun m hm => hn m (hf.mem (hS hi) hm)
  disjoint hi hj := hf.disjoint (hS hi) (hS hj)
  mem hi hm := hU (hf.mem (hS hi) hm)

theorem congr_head {hd' : ι → Option α} (hh : ∀ i ∈ S, hd' i = hd i) : Family next hd' S U list where
  linked hi := by
    rw [hh _ hi]
    exact hf.linked hi
  disjoint := hf.disjoint
  mem := hf.mem

theorem rename {hd' : κ → Option α} {T : Set κ} {σ : κ → ι} (hmem : ∀ j ∈ T, σ j ∈ S)
    (hinj : ∀ j ∈ T, ∀ k ∈ T, σ j = σ k → j = k) (hh : ∀ j ∈ T, hd' j = hd (σ j)) :
    Family next hd' T U (list ∘ σ) where
  linked hj := by
    rw [hh _ hj]
    exact hf.linked (hmem _ hj)
  disjoint hi hj hmi hmj := hinj _ hi _ hj (hf.disjoint (hmem _ hi) (hmem _ hj) hmi hmj)
  mem hj := hf.mem (hmem _ hj)

theorem insert [DecidableEq ι] (hx : x ∉ S) (hhd : hd x = none) :
    Family next hd (Insert.insert x S) U (update list x []) := by
  have hcases : ∀ {i}, i ∈ Insert.insert x S → i = x ∧ update list x [] i = [] ∨
      i ∈ S ∧ update list x [] i = list i := by
    rintro i (rfl | hi)
    · exact .inl ⟨rfl, update_self _ _ _⟩
    · exact .inr ⟨hi, update_of_ne (ne_of_mem_of_not_mem hi hx) _ _⟩
  constructor
  · intro i hi
    rcases hcases hi with ⟨rfl, h⟩ | ⟨hi, h⟩
    · rw [h]
      exact hhd
    · rw [h]
      exact hf.linked hi
  · intro i j m hi hj hmi hmj
    rcases hcases hi with ⟨rfl, h⟩ | ⟨hi, h⟩ <;> rw [h] at hmi
    · exact absurd hmi not_mem_nil
    · rcases hcases hj with ⟨rfl, h⟩ | ⟨hj, h⟩ <;> rw [h] at hmj
      · exact absurd hmj not_mem_nil
      · exact hf.disjoint hi hj hmi hmj
  · intro i m hi hm
    rcases hcases hi with ⟨rfl, h⟩ | ⟨hi, h⟩ <;> rw [h] at hm
    · exact absurd hm not_mem_nil
    · exact hf.mem hi hm

/-- **Relinking in a family.** The list of `x` is changed behind a prefix, and some of the other lists
may be given up; what comes behind the prefix is in none of those that stay. -/
theorem store [DecidableEq ι] [DecidableEq α] (hx : x ∈ S) (hsplit : list x = pre ++ post)
    (hq : Linked next q post') (hU : ∀ m ∈ post', m ∈ U) (hdisj : ∀ m ∈ pre, m ∉ post') (hS : S' ⊆ S)
    (hother : ∀ i ∈ S', i ≠ x → ∀ m ∈ list i, m ∉ post') :
    Family (relinkNext pre.getLast? next q)
      (update hd x (relinkHead pre.getLast? (hd x) q)) S' U
      (update list x (pre ++ post')) := by
  have hpre : ∀ {m}, m ∈ pre → m ∈ list x := fun hm => hsplit ▸ mem_append_left _ hm
  have hcases : ∀ {i m}, m ∈ update list x (pre ++ post') i →
      i = x ∧ (m ∈ pre ∨ m ∈ post') ∨ i ≠ x ∧ m ∈ list i := by
    intro i m hm
    by_cases hix : i = x
    · subst hix
      rw [update_self] at hm
      exact .inl ⟨rfl, mem_append.mp hm⟩
    · rw [update_of_ne hix] at hm
      exact .inr ⟨hix, hm⟩
  -- an element of the new list is in no other one
  have hnew : ∀ {i m}, i ∈ S' → i ≠ x → m ∈ list i → ¬ (m ∈ pre ∨ m ∈ post') := by
    rintro i m hi hix hm (hm' | hm')
    · exact hix (hf.disjoint (hS hi) hx hm (hpre hm'))
    · exact hother i hi hix m hm hm'
  constructor
  · intro i hi
    exact Linked.store hsplit (hf.linked hx) hq hdisj (hf.linked (hS hi)) fun hix m hm hm' =>
      hnew hi hix hm (.inl hm')
  · intro i j m hi hj hmi hmj
    rcases hcases hmi with ⟨hix, hmi⟩ | ⟨hix, hmi⟩
    · rcases hcases hmj with ⟨hjx, -⟩ | ⟨hjx, hmj⟩
      · rw [hix, hjx]
      · exact absurd hmi (hnew hj hjx hmj)
    · rcases hcases hmj with ⟨-, hmj⟩ | ⟨-, hmj⟩
      · exact absurd hmj (hnew hi hix hmi)
      · exact hf.disjoint (hS hi) (hS hj) hmi hmj
  · intro i m hi hm
    rcases hcases hm with ⟨-, hm | hm⟩ | ⟨-, hm⟩
    · exact hf.mem hx (hpre hm)
    · exact hU m hm
    · exact hf.mem (hS hi) hm

end

theorem push [DecidableEq ι] [DecidableEq α] {y : α} (hf : Family next hd Set.univ U list)
    (hy : y ∉ U) (x : ι) :
    Family (update next y (hd x)) (update hd x (some y)) Set.univ
      (Insert.insert y U) (update list x (y :: list x)) := by
  have hne {m : α} (hm : m ∈ U) : m ≠ y := ne_of_mem_of_not_mem hm hy
  have hmono : Family (update next y (hd x)) hd Set.univ (Insert.insert y U) list :=
    hf.mono (fun m hm => update_of_ne (hne hm) _ _) (Set.subset_insert _ _)
      (Set.Subset.refl _)
  have hlinked : Linked (update next y (hd x)) (some y) (y :: list x) := by
    refine ⟨rfl, ?_⟩
    rw [update_self]
    exact hmono.linked (Set.mem_univ x)
  refine hmono.store (Set.mem_univ x) (nil_append _).symm hlinked ?_ (by simp)
    (Set.Subset.refl _) ?_
  · rintro m (_ | ⟨_, hm⟩)
    · exact .inl rfl
    · exact .inr (hf.mem (Set.mem_univ x) hm)
  · rintro i - hix m hm (_ | ⟨_, hm'⟩)
    · exact hy (hf.mem (Set.mem_univ i) hm)
    · exact hix (hf.disjoint (Set.mem_univ i) (Set.mem_univ x) hm hm')

theorem unlink [DecidableEq ι] [DecidableEq α] {y : α} (hf : Family next hd S U list) (hx : x ∈ S)
    (hsplit : list x = pre ++ y :: post) :
    Family (relinkNext pre.getLast? next (next y))
      (update hd x (relinkHead pre.getLast? (hd x) (next y))) S (U \ {y})
      (update list x ((list x).erase y)) := by
  have hlinked := hf.linked hx
  have hnodup := hlinked.nodup
  rw [hsplit] at hlinked hnodup
  have hapart := (nodup_append.mp hnodup).2.2
  have hpre : y ∉ pre := fun hy => hapart y hy y mem_cons_self rfl
  have herase : (list x).erase y = pre ++ post := by
    rw [hsplit, erase_append_right _ hpre, erase_cons_head]
  have hpost : ∀ m ∈ post, m ∈ list x := by
    intro m hm
    rw [hsplit]
    exact mem_append_right _ (mem_cons_of_mem _ hm)
  have hstore : Family (relinkNext pre.getLast? next (next y))
      (update hd x (relinkHead pre.getLast? (hd x) (next y))) S U
      (update list x (pre ++ post)) :=
    hf.store hx hsplit hlinked.next_eq (fun m hm => hf.mem hx (hpost m hm))
      (fun m hm hm' => hapart m hm m (mem_cons_of_mem _ hm') rfl) (fun _ hi => hi)
      (fun i hi hne m hm hm' => hne (hf.disjoint hi hx hm (hpost m hm')))
  rw [herase]
  refine ⟨hstore.linked, hstore.disjoint, fun {i m} hi hm => ⟨hstore.mem hi hm, ?_⟩⟩
  rintro rfl
  by_cases hix : i = x
  · rw [hix, update_self, ← herase, hsplit] at hm
    exact (hnodup.mem_erase_iff.mp hm).1 rfl
  rw [update_of_ne hix] at hm
  refine hix (hf.disjoint hi hx hm ?_)
  rw [hsplit]
  exact mem_append_cons_self

theorem walk_eq {next : ℕ → Option ℕ} {hd : ι → Option ℕ} {list : ι → List ℕ} {n : ℕ}
    (hf : Family next hd S {m | m < n} list) (hx : x ∈ S) (stop : ℕ → Bool) :
    ∃ pre post, list x = pre ++ post ∧ (∀ m ∈ pre, stop m = false) ∧
      (∀ m, post.head? = some m → stop m = true) ∧
      walk next stop (n + 1) none (hd x) = some (pre.getLast?, post.head?) := by
  have hlen := (hf.linked hx).length_le fun m hm => hf.mem hx hm
  obtain ⟨pre, post, h1, h2, h3, h4⟩ := walk_spec stop (hf.linked hx) (Nat.lt_succ_of_le hlen) none
  rw [Option.or_none] at h4
  exact ⟨pre, post, h1, h2, h3, h4⟩

end Family

end Bsd386.Lib.Linked
