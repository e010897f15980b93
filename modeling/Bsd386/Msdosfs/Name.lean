import Bsd386.Lib.Bytes
import Mathlib.Data.List.Basic
import Mathlib.Data.List.GetD
import Mathlib.Data.List.TakeWhile

/-!
# DOS file names

`dos2unixfn` and `unix2dosfn`. A buffer is a list of bytes from a pointer on, and 0 behind its end; the name
is the first `unlen` bytes of it.

Source: `sys/msdosfs/msdosfs_conv.c`.
-/

namespace Bsd386.Msdosfs

open List Lib.Bytes

/-! ## The conversions -/

/-- An 11-byte name: the indices below 11. -/
abbrev DosName := ℕ → Byte

def blank : Byte := 0x20

/-- The character `.`. -/
def dot : Byte := 0x2e

/-- `isupper`. -/
def isupper (c : Byte) : Bool := 0x41#8 ≤ c ∧ c ≤ 0x5a#8

/-- `islower`. -/
def islower (c : Byte) : Bool := 0x61#8 ≤ c ∧ c ≤ 0x7a#8

/-- Lower case. Source: dos2unixfn -/
def lower (c : Byte) : Byte := if isupper c then c ||| 0x20 else c

/-- Upper case. Source: unix2dosfn -/
def upper (c : Byte) : Byte := if islower c then c &&& ~~~0x20 else c

/-- `SLOT_E5`. -/
def SLOT_E5 : Byte := 0x05

/-- `SLOT_DELETED`. -/
def SLOT_DELETED : Byte := 0xe5

/-- How many of the `n` bytes from `lo` on there are up to the last that is not blank.
Source: dos2unixfn -/
def trimmed (dn : DosName) (lo : ℕ) : ℕ → ℕ
  | 0 => 0
  | n + 1 => if dn (lo + n) ≠ blank then n + 1 else trimmed dn lo n

/-- The first byte may stand for 0xe5. Source: dos2unixfn -/
def fixE5 : List Byte → List Byte
  | c :: un => (if c = SLOT_E5 then 0xe5 else c) :: un
  | [] => []

/-- Convert a DOS filename to a unix filename, without the terminating null: the return value is its
length.
Source: dos2unixfn -/
def dos2unixfn (dn : DosName) : List Byte :=
  let name := (List.range (trimmed dn 0 8)).map fun i => lower (dn i)
  let ext := (List.range (trimmed dn 8 3)).map fun i => lower (dn (8 + i))
  fixE5 (name ++ if ext.length = 0 then [] else dot :: ext)

/-- Where `unix2dosfn` is: the pointer, the length that it counts down, its `c`, and the name so far.
Source: unix2dosfn -/
structure Scan where
  un : List Byte
  unlen : ℕ
  c : Byte
  dn : DosName

/-- Store a byte of the name. Source: unix2dosfn -/
def put (dn : DosName) (i : ℕ) (c : Byte) : DosName := fun k => if k = i then c else dn k

/-- The loop over the name portion, with `n` bytes of it left.
Source: unix2dosfn -/
def copyName : ℕ → Scan → Scan
  | 0, s => s
  | n + 1, s =>
    if s.unlen = 0 then s
    else
      let c := s.un.headD 0
      if c = 0 ∨ c = dot then { s with c := c }
      else copyName n ⟨s.un.tail, s.unlen - 1, c, put s.dn (7 - n) (upper c)⟩

/-- Strip any further characters; `n` is `unlen`. Source: unix2dosfn -/
def skipName : ℕ → Scan → Scan
  | 0, s => s
  | n + 1, s =>
    let c := s.un.headD 0
    if c = 0 ∨ c = dot then { s with c := c }
    else skipName n { s with un := s.un.tail, unlen := n, c := c }

/-- The loop over the extension, with `n` bytes of it left.
Source: unix2dosfn -/
def copyExt : ℕ → Scan → Scan
  | 0, s => s
  | n + 1, s =>
    if s.unlen = 0 then s
    else
      let c := s.un.headD 0
      if c = 0 then { s with c := c }
      else copyExt n ⟨s.un.tail, s.unlen - 1, c, put s.dn (10 - n) (upper c)⟩

/-- Convert a unix filename to a DOS filename; `c₀` is what `c` holds at first.
Source: unix2dosfn -/
def unix2dosfn (c₀ : Byte) (un : List Byte) (unlen : ℕ) : DosName :=
  let dn : DosName := fun _ => blank
  if un.getD 0 0 = dot ∧ un.getD 1 0 = 0 then put dn 0 dot
  else if un.getD 0 0 = dot ∧ un.getD 1 0 = dot ∧ un.getD 2 0 = 0 then put (put dn 0 dot) 1 dot
  else
    let s := copyName 8 ⟨un, unlen, c₀, dn⟩
    let s := { s with dn := if s.dn 0 = SLOT_DELETED then put s.dn 0 SLOT_E5 else s.dn }
    let s := skipName s.unlen s
    -- get past the dot; `unlen` still counts it
    let s := if s.c = dot then { s with un := s.un.tail } else s
    (copyExt 3 s).dn

/-! ## What `unix2dosfn` reads -/

/-- `dn` with the bytes `l` from `k` on. -/
def place (dn : DosName) (k : ℕ) (l : List Byte) : DosName :=
  fun i => if k ≤ i ∧ i < k + l.length then l.getD (i - k) 0 else dn i

/-- What is in front of the first dot. -/
def base (l : List Byte) : List Byte := l.takeWhile (· ≠ dot)

def fromDot (l : List Byte) : List Byte := l.dropWhile (· ≠ dot)

/-- What `unix2dosfn` takes for the extension: one byte more than there is behind the first dot.
Source: unix2dosfn -/
def extension (l rest : List Byte) : List Byte :=
  match fromDot l with
  | [] => []
  | _ :: e => (((e ++ rest).take (min 3 (e.length + 1))).takeWhile (· ≠ 0)).map upper

section scan

variable {l rest : List Byte} {c : Byte} {dn : DosName}

@[simp] theorem place_nil (dn : DosName) (k : ℕ) : place dn k [] = dn := by
  funext i
  exact if_neg fun h => by
    rw [length_nil] at h
    omega

theorem place_cons (dn : DosName) (k : ℕ) (c : Byte) (l : List Byte) :
    place (put dn k c) (k + 1) l = place dn k (c :: l) := by
  funext i
  unfold place put
  rw [length_cons]
  by_cases hi : i = k
  · subst hi
    rw [if_neg (by omega), if_pos rfl, if_pos (by omega), Nat.sub_self]
    rfl
  · by_cases hr : k + 1 ≤ i ∧ i < k + 1 + l.length
    · rw [if_pos hr, if_pos (by omega), show i - k = i - (k + 1) + 1 by omega, getD_cons_succ]
    · rw [if_neg hr, if_neg hi, if_neg (by omega)]

theorem base_cons {a : Byte} (ha : a ≠ dot) (l : List Byte) : base (a :: l) = a :: base l :=
  takeWhile_cons_of_pos (by simpa using ha)

theorem fromDot_cons {a : Byte} (ha : a ≠ dot) (l : List Byte) : fromDot (a :: l) = fromDot l :=
  dropWhile_cons_of_pos (by simpa using ha)

theorem fromDot_drop {k : ℕ} (hk : k ≤ (base l).length) : fromDot (l.drop k) = fromDot l := by
  induction k generalizing l with
  | zero => rw [drop_zero]
  | succ k ih =>
    cases l with
    | nil => rw [drop_nil]
    | cons a l =>
      by_cases ha : a = dot
      · simp [base, ha] at hk
      · rw [base_cons ha, length_cons] at hk
        rw [drop_succ_cons, fromDot_cons ha]
        exact ih (by omega)

theorem copyName_spec (n : ℕ) (hn : n ≤ 8) (hl : ∀ a ∈ l, a ≠ 0) :
    ∃ c', copyName n ⟨l ++ rest, l.length, c, dn⟩ =
        ⟨l.drop (min n (base l).length) ++ rest, l.length - min n (base l).length, c',
          place dn (8 - n) (((base l).take n).map upper)⟩ ∧
      ((l ≠ [] ∨ c ≠ dot) → l.length ≤ min n (base l).length → c' ≠ dot) := by
  induction n generalizing l c dn with
  | zero =>
    refine ⟨c, ?_, fun h hle => h.elim (fun hne => ?_) id⟩
    · rw [Nat.zero_min, take_zero, map_nil, place_nil]
      rfl
    · rw [Nat.zero_min] at hle
      exact absurd (eq_nil_of_length_eq_zero (Nat.le_zero.mp hle)) hne
  | succ n ih =>
    cases l with
    | nil => exact ⟨c, by simp [copyName, base], fun h _ => h.resolve_left (fun h => h rfl)⟩
    | cons a l =>
      by_cases ha : a = dot
      · refine ⟨a, ?_, fun _ hle => ?_⟩
        · simp [copyName, base, ha]
        · simp [base, ha] at hle
      obtain ⟨c', heq, hc⟩ := @ih l a (put dn (8 - (n + 1)) (upper a)) (by omega)
        fun x hx => hl x (mem_cons_of_mem a hx)
      refine ⟨c', ?_, fun _ hle => hc (.inr ha) ?_⟩
      · have hput : place (put dn (8 - (n + 1)) (upper a)) (8 - n) (((base l).take n).map upper) =
            place dn (8 - (n + 1)) (((base (a :: l)).take (n + 1)).map upper) := by
          rw [base_cons ha, take_succ_cons, map_cons, ← place_cons]
          congr 1
          omega
        have hstep : copyName (n + 1) ⟨a :: l ++ rest, (a :: l).length, c, dn⟩ =
            copyName n ⟨l ++ rest, l.length, a, put dn (8 - (n + 1)) (upper a)⟩ := by
          rw [copyName, if_neg (by simp)]
          dsimp only [cons_append, headD_cons, tail_cons]
          rw [if_neg (not_or.mpr ⟨hl a mem_cons_self, ha⟩), length_cons, Nat.add_sub_cancel,
            show 8 - (n + 1) = 7 - n by omega]
        rw [hstep, heq, hput, base_cons ha, length_cons, length_cons, Nat.add_min_add_right,
          drop_succ_cons, Nat.add_sub_add_right]
      · rw [base_cons ha, length_cons, length_cons, Nat.add_min_add_right] at hle
        omega

theorem skipName_spec (hl : ∀ a ∈ l, a ≠ 0) (hc : l = [] → c ≠ dot) :
    ∃ c', skipName l.length ⟨l ++ rest, l.length, c, dn⟩ =
        ⟨fromDot l ++ rest, (fromDot l).length, c', dn⟩ ∧ (c' = dot ↔ fromDot l ≠ []) := by
  induction l generalizing c with
  | nil => exact ⟨c, rfl, fun h => absurd h (hc rfl), fun h => absurd rfl h⟩
  | cons a l ih =>
    by_cases ha : a = dot
    · refine ⟨a, ?_, fun _ => ?_, fun _ => ha⟩
      · simp [skipName, fromDot, ha]
      · simp [fromDot, ha]
    obtain ⟨c', heq, hiff⟩ := @ih a (fun x hx => hl x (mem_cons_of_mem a hx)) fun _ => ha
    refine ⟨c', ?_, by rwa [fromDot_cons ha]⟩
    have hstep : skipName (a :: l).length ⟨a :: l ++ rest, (a :: l).length, c, dn⟩ =
        skipName l.length ⟨l ++ rest, l.length, a, dn⟩ := by
      rw [length_cons, skipName]
      exact if_neg (not_or.mpr ⟨hl a mem_cons_self, ha⟩)
    rw [hstep, heq, fromDot_cons ha]

theorem copyExt_spec (n : ℕ) (hn : n ≤ 3) (un : List Byte) (unlen : ℕ) :
    (copyExt n ⟨un, unlen, c, dn⟩).dn =
      place dn (11 - n) (((un.take (min n unlen)).takeWhile (· ≠ 0)).map upper) := by
  induction n generalizing un unlen c dn with
  | zero =>
    rw [Nat.zero_min, take_zero]
    exact (place_nil dn _).symm
  | succ n ih =>
    unfold copyExt
    cases unlen with
    | zero =>
      rw [if_pos rfl, Nat.min_zero, take_zero]
      exact (place_nil dn _).symm
    | succ unlen =>
      rw [if_neg (Nat.succ_ne_zero _)]
      cases un with
      | nil =>
        rw [headD_nil, if_pos rfl, take_nil]
        exact (place_nil dn _).symm
      | cons a un =>
        rw [headD_cons, tail_cons, Nat.add_min_add_right, take_succ_cons]
        by_cases ha : a = 0
        · rw [if_pos ha, takeWhile_cons_of_neg (by simpa using ha)]
          exact (place_nil dn _).symm
        rw [if_neg ha, ih (by omega), takeWhile_cons_of_pos (by simpa using ha), map_cons,
          ← place_cons, Nat.add_sub_cancel]
        congr 1
        · congr 1
          omega
        · omega

/-- `.` and `..`, with a null behind. Source: unix2dosfn -/
def Special (un : List Byte) : Prop :=
  (un.getD 0 0 = dot ∧ un.getD 1 0 = 0) ∨ (un.getD 0 0 = dot ∧ un.getD 1 0 = dot ∧ un.getD 2 0 = 0)

/-- The name portion, with 0x05 for 0xe5. Source: unix2dosfn -/
def nameOf (l : List Byte) : DosName :=
  let dn := place (fun _ => blank) 0 (((base l).take 8).map upper)
  if dn 0 = SLOT_DELETED then put dn 0 SLOT_E5 else dn

theorem unix2dosfn_eq (hne : l ≠ []) (hl : ∀ a ∈ l, a ≠ 0) (hs : ¬ Special (l ++ rest)) :
    unix2dosfn c (l ++ rest) l.length = place (nameOf l) 8 (extension l rest) := by
  unfold unix2dosfn
  rw [if_neg fun h => hs (.inl h), if_neg fun h => hs (.inr h)]
  obtain ⟨c1, hname, hc1⟩ := @copyName_spec l rest c (fun _ => blank) 8 (Nat.le_refl 8) hl
  obtain ⟨k, hk⟩ : ∃ k, k = min 8 (base l).length := ⟨_, rfl⟩
  rw [← hk] at hname hc1
  have hkb : k ≤ (base l).length := by omega
  obtain ⟨c2, hskip, hdot⟩ := @skipName_spec (l.drop k) rest c1 (nameOf l)
    (fun a ha => hl a (mem_of_mem_drop ha))
    fun hnil => hc1 (.inl hne) (drop_eq_nil_iff.mp hnil)
  rw [fromDot_drop hkb, length_drop] at hskip
  rw [fromDot_drop hkb] at hdot
  rw [hname]
  change (let s := skipName (l.length - k) ⟨l.drop k ++ rest, l.length - k, c1, nameOf l⟩
    (copyExt 3 (if s.c = dot then { s with un := s.un.tail } else s)).dn) = _
  rw [hskip]
  dsimp only
  unfold extension
  cases hfrom : fromDot l with
  | nil =>
    rw [hfrom] at hdot
    rw [if_neg fun h => hdot.mp h rfl, copyExt_spec 3 (Nat.le_refl 3)]
    rfl
  | cons a e =>
    rw [hfrom] at hdot
    rw [if_pos (hdot.mpr (cons_ne_nil a e)), copyExt_spec 3 (Nat.le_refl 3)]
    rfl

/-! ## Only the name -/

/-- What is read behind the name makes no difference: two buffers that begin with the name, and whatever
`c` holds.
Source: unix2dosfn -/
def NameOnly (l : List Byte) : Prop :=
  ∀ c c' rest rest', unix2dosfn c (l ++ rest) l.length = unix2dosfn c' (l ++ rest') l.length

/-- The extension is not cut short by the end of the name: there is none, or three bytes of it.
Source: unix2dosfn -/
def ExtensionFull (l : List Byte) : Prop := fromDot l = [] ∨ 4 ≤ (fromDot l).length

theorem getD_append_ne_zero (hl : ∀ a ∈ l, a ≠ 0) (hr : ∀ a ∈ rest, a ≠ 0) {i : ℕ}
    (hi : i < (l ++ rest).length) : (l ++ rest).getD i 0 ≠ 0 := by
  rw [getD_eq_getElem?_getD, getElem?_eq_getElem hi, Option.getD_some]
  rcases mem_append.mp (getElem_mem hi) with h | h
  · exact hl _ h
  · exact hr _ h

theorem not_special_of_full (hne : l ≠ []) (hl : ∀ a ∈ l, a ≠ 0) (h : ExtensionFull l) (rest : List Byte) :
    ¬ Special (l ++ rest) := by
  cases l with
  | nil => exact absurd rfl hne
  | cons a l =>
    intro hs
    have ha : a = dot := hs.elim (fun h => h.1) (fun h => h.1)
    have hfrom : fromDot (a :: l) = a :: l := dropWhile_cons_of_neg (by simpa using ha)
    rw [ExtensionFull, hfrom] at h
    have hlen := h.resolve_left (cons_ne_nil a l)
    have hval : ∀ i < (a :: l).length, (a :: l ++ rest).getD i 0 ≠ 0 := by
      intro i hi
      rw [getD_eq_getElem?_getD, getElem?_append_left hi, ← getD_eq_getElem?_getD,
        ← append_nil (a :: l)]
      exact getD_append_ne_zero hl (by simp) (by simpa using hi)
    rcases hs with ⟨-, h0⟩ | ⟨-, -, h0⟩
    · exact hval 1 (by omega) h0
    · exact hval 2 (by omega) h0

theorem extension_of_full (h : ExtensionFull l) (rest rest' : List Byte) :
    extension l rest = extension l rest' := by
  unfold extension
  unfold ExtensionFull at h
  cases hfrom : fromDot l with
  | nil => rfl
  | cons a e =>
    rw [hfrom] at h
    have hlen := h.resolve_left (cons_ne_nil a e)
    rw [length_cons] at hlen
    dsimp only
    rw [Nat.min_eq_left (by omega), take_append_of_le_length (by omega),
      take_append_of_le_length (by omega)]

theorem nameOf_apply_of_ge {i : ℕ} (hi : 8 ≤ i) : nameOf l i = blank := by
  have hplace : place (fun _ => blank) 0 (((base l).take 8).map upper) i = blank := by
    refine if_neg fun h => ?_
    rw [length_map, length_take] at h
    omega
  unfold nameOf put
  split
  · exact (if_neg (by omega)).trans hplace
  · exact hplace

section

variable {a : Byte} (hne : l ≠ []) (hl : ∀ a ∈ l, a ≠ 0)
include hne hl

theorem apply_of_null {e : List Byte} (hfrom : fromDot l = a :: e) :
    unix2dosfn c (l ++ []) l.length (8 + e.length) = blank := by
  by_cases hs : Special (l ++ [])
  · unfold unix2dosfn
    by_cases hone : (l ++ []).getD 0 0 = dot ∧ (l ++ []).getD 1 0 = 0
    · rw [if_pos hone, put, if_neg (by omega)]
    · rw [if_neg hone, if_pos (hs.resolve_left hone), put, put, if_neg (by omega), if_neg (by omega)]
  rw [unix2dosfn_eq hne hl hs, extension, hfrom]
  refine (if_neg fun h => ?_).trans (nameOf_apply_of_ge (by omega))
  have hlen := List.Sublist.length_le (takeWhile_sublist (fun x : Byte => decide (x ≠ 0))
    (l := (e ++ []).take (min 3 (e.length + 1))))
  rw [length_take, append_nil] at hlen
  rw [length_map, append_nil] at h
  omega

theorem apply_of_slash {e : List Byte} (hfrom : fromDot l = a :: e) (he : e.length < 3) :
    unix2dosfn c (l ++ [0x2f]) l.length (8 + e.length) = 0x2f := by
  have hr : ∀ b ∈ [(0x2f : Byte)], b ≠ 0 := by decide
  have hs : ¬ Special (l ++ [0x2f]) := by
    have hpos : 0 < l.length := length_pos_of_ne_nil hne
    rintro (⟨-, h0⟩ | ⟨-, h1, h0⟩)
    · exact getD_append_ne_zero hl hr (by rw [length_append, length_singleton]; omega) h0
    · by_cases hlen : l.length = 1
      · obtain ⟨b, rfl⟩ := length_eq_one_iff.mp hlen
        exact absurd h1 (show ¬ (0x2f : Byte) = dot by decide)
      · exact getD_append_ne_zero hl hr (by rw [length_append, length_singleton]; omega) h0
  have hel : ∀ b ∈ e, b ≠ 0 := fun b hb =>
    hl b ((dropWhile_sublist _).subset (hfrom ▸ mem_cons_of_mem a hb))
  have hall : ((e ++ [0x2f]).take (min 3 (e.length + 1))).takeWhile (fun x : Byte => decide (x ≠ 0)) =
      e ++ [0x2f] := by
    rw [take_of_length_le (by rw [length_append, length_singleton]; omega)]
    refine takeWhile_eq_self_iff.mpr fun b hb => ?_
    rcases mem_append.mp hb with h | h
    · exact decide_eq_true (hel b h)
    · exact decide_eq_true (hr b h)
  rw [unix2dosfn_eq hne hl hs, extension, hfrom]
  dsimp only
  rw [hall, map_append]
  unfold place
  rw [if_pos (by simp), Nat.add_sub_cancel_left, getD_append_right _ _ _ _ (by simp), length_map,
    Nat.sub_self]
  decide

theorem nameOnly_iff_full : NameOnly l ↔ ExtensionFull l := by
  constructor
  · intro h
    by_contra hfull
    obtain ⟨hdot, hshort⟩ := not_or.mp hfull
    obtain ⟨a, e, hfrom⟩ := exists_cons_of_ne_nil hdot
    rw [hfrom, length_cons] at hshort
    have hat := congrFun (h 0 0 [] [0x2f]) (8 + e.length)
    rw [apply_of_null hne hl hfrom, apply_of_slash hne hl hfrom (by omega)] at hat
    exact absurd hat (by decide)
  · intro h c c' rest rest'
    rw [unix2dosfn_eq hne hl (not_special_of_full hne hl h rest),
      unix2dosfn_eq hne hl (not_special_of_full hne hl h rest'), extension_of_full h rest rest']

end

end scan

/-! ## Canonical names -/

/-- A character of a canonical name. -/
def Permitted (c : Byte) : Prop := c ≠ 0 ∧ c ≠ blank ∧ c ≠ dot ∧ islower c = false

/-- A canonical name: a base and perhaps an extension of permitted characters, padded with blanks. 0xe5 in
front would be a deleted slot. -/
structure Canonical (dn : DosName) : Prop where
  base : dn 0 ≠ blank
  first : dn 0 ≠ SLOT_DELETED
  chars : ∀ i < 11, dn i ≠ blank → Permitted (dn i)
  name : ∀ i j, i < j → j < 8 → dn i = blank → dn j = blank
  ext : ∀ i j, 8 ≤ i → i < j → j < 11 → dn i = blank → dn j = blank

theorem upper_lower : ∀ c : Byte, islower c = false → upper (lower c) = c := by decide

theorem lower_ne : ∀ c : Byte, c ≠ 0 → c ≠ dot → islower c = false → lower c ≠ 0 ∧ lower c ≠ dot := by decide

theorem lower_eq_slot_iff : ∀ c : Byte, lower c = SLOT_E5 ↔ c = SLOT_E5 := by decide

section canonical

variable {dn : DosName} {b t : List Byte}

theorem trimmed_spec (dn : DosName) (lo n : ℕ) : trimmed dn lo n ≤ n ∧
    (∀ i, trimmed dn lo n ≤ i → i < n → dn (lo + i) = blank) ∧
      (∀ k, trimmed dn lo n = k + 1 → dn (lo + k) ≠ blank) := by
  induction n with
  | zero => exact ⟨Nat.le_refl 0, fun i _ hi => absurd hi (Nat.not_lt_zero i), fun k hk => absurd hk nofun⟩
  | succ n ih =>
    unfold trimmed
    by_cases hb : dn (lo + n) ≠ blank
    · rw [if_pos hb]
      exact ⟨Nat.le_refl _, fun i h1 h2 => by omega, fun k hk => by rwa [← Nat.succ.inj hk]⟩
    rw [if_neg hb]
    refine ⟨Nat.le_succ_of_le ih.1, fun i h1 h2 => ?_, ih.2.2⟩
    rcases Nat.lt_succ_iff_lt_or_eq.mp h2 with hlt | rfl
    · exact ih.2.1 i h1 hlt
    · exact not_not.mp hb

theorem base_append (hb : ∀ a ∈ b, a ≠ dot) (ht : t = [] ∨ ∃ e, t = dot :: e) :
    base (b ++ t) = b ∧ fromDot (b ++ t) = t := by
  induction b with
  | nil =>
    rcases ht with rfl | ⟨e, rfl⟩
    · exact ⟨rfl, rfl⟩
    · exact ⟨takeWhile_cons_of_neg (by simp), dropWhile_cons_of_neg (by simp)⟩
  | cons a b ih =>
    have ha := hb a mem_cons_self
    obtain ⟨h1, h2⟩ := ih fun x hx => hb x (mem_cons_of_mem a hx)
    rw [cons_append, base_cons ha, fromDot_cons ha, h1, h2]
    exact ⟨rfl, rfl⟩

theorem Canonical.permitted (h : Canonical dn) :
    (∀ i < trimmed dn 0 8, Permitted (dn i)) ∧ ∀ i < trimmed dn 8 3, Permitted (dn (8 + i)) := by
  obtain ⟨hle, -, hlast⟩ := trimmed_spec dn 0 8
  obtain ⟨hle', -, hlast'⟩ := trimmed_spec dn 8 3
  constructor
  · intro i hi
    refine h.chars i (by omega) fun hblank => ?_
    obtain ⟨k, hk⟩ : ∃ k, trimmed dn 0 8 = k + 1 := ⟨trimmed dn 0 8 - 1, by omega⟩
    have hne := hlast k hk
    rw [Nat.zero_add] at hne
    by_cases hik : i = k
    · exact hne (hik ▸ hblank)
    · exact hne (h.name i k (by omega) (by omega) hblank)
  · intro i hi
    refine h.chars (8 + i) (by omega) fun hblank => ?_
    obtain ⟨k, hk⟩ : ∃ k, trimmed dn 8 3 = k + 1 := ⟨trimmed dn 8 3 - 1, by omega⟩
    have hne := hlast' k hk
    by_cases hik : i = k
    · exact hne (hik ▸ hblank)
    · exact hne (h.ext (8 + i) (8 + k) (by omega) (by omega) (by omega) hblank)

/-- The first byte of the unix name. Source: dos2unixfn -/
def firstOf (c : Byte) : Byte := if lower c = SLOT_E5 then 0xe5 else lower c

theorem dos2unixfn_eq (h : Canonical dn) : ∃ n b t, trimmed dn 0 8 = n + 1 ∧
    b = firstOf (dn 0) :: (List.range n).map (fun i => lower (dn (i + 1))) ∧
    t = (if trimmed dn 8 3 = 0 then [] else dot :: (List.range (trimmed dn 8 3)).map fun i => lower (dn (8 + i))) ∧
    dos2unixfn dn = b ++ t := by
  obtain ⟨-, hblank, -⟩ := trimmed_spec dn 0 8
  obtain ⟨n, hn⟩ : ∃ n, trimmed dn 0 8 = n + 1 := by
    refine ⟨trimmed dn 0 8 - 1, ?_⟩
    have hpos : trimmed dn 0 8 ≠ 0 := fun h0 => h.base (hblank 0 (by omega) (by decide))
    omega
  refine ⟨n, _, _, hn, rfl, rfl, ?_⟩
  unfold dos2unixfn
  dsimp only
  rw [hn, range_succ_eq_map, map_cons, map_map, length_map, length_range]
  rfl

theorem extension_null {l e rest : List Byte} {a : Byte} (hfrom : fromDot l = a :: e) (he : e.length ≤ 3)
    (hne : ∀ x ∈ e, x ≠ 0) : extension l (0 :: rest) = e.map upper := by
  have htake : ((e ++ 0 :: rest).take (min 3 (e.length + 1))).takeWhile (fun x : Byte => decide (x ≠ 0)) = e := by
    have hall : e.takeWhile (fun x : Byte => decide (x ≠ 0)) = e :=
      takeWhile_eq_self_iff.mpr fun x hx => decide_eq_true (hne x hx)
    rcases Nat.lt_or_eq_of_le he with hlt | heq
    · rw [Nat.min_eq_right (by omega), take_length_add_append, takeWhile_append_of_pos
        fun x hx => decide_eq_true (hne x hx)]
      simp
    · rw [Nat.min_eq_left (by omega), ← heq, take_left, hall]
  unfold extension
  rw [hfrom]
  dsimp only
  rw [htake]

theorem firstOf_ne {c : Byte} (hp : Permitted c) : firstOf c ≠ 0 ∧ firstOf c ≠ dot := by
  unfold firstOf
  split
  · decide
  · exact lower_ne c hp.1 hp.2.2.1 hp.2.2.2

theorem nameOf_first {l b : List Byte} (hbase : base l = firstOf (dn 0) :: b) (hp : Permitted (dn 0))
    (hd : dn 0 ≠ SLOT_DELETED) : nameOf l 0 = dn 0 := by
  unfold nameOf
  rw [hbase]
  have hplace : place (fun _ => blank) 0 (((firstOf (dn 0) :: b).take 8).map upper) 0 = upper (firstOf (dn 0)) := rfl
  rw [hplace]
  unfold firstOf
  by_cases h5 : lower (dn 0) = SLOT_E5
  · rw [if_pos h5, if_pos (by decide), (lower_eq_slot_iff _).mp h5]
    rfl
  · rw [if_neg h5, upper_lower _ hp.2.2.2, if_neg hd]
    exact upper_lower _ hp.2.2.2

theorem nameOf_apply {l : List Byte} {i : ℕ} (hi : 0 < i) :
    nameOf l i = place (fun _ => blank) 0 (((base l).take 8).map upper) i := by
  unfold nameOf
  split
  · exact if_neg (by omega)
  · rfl

theorem getD_map_range (f : ℕ → Byte) {n i : ℕ} (hi : i < n) : ((List.range n).map f).getD i 0 = f i := by
  rw [getD_eq_getElem?_getD, getElem?_map, getElem?_range hi]
  rfl

theorem unix2dosfn_dos2unixfn (h : Canonical dn) (c : Byte) (rest : List Byte) :
    ∀ i < 11, unix2dosfn c (dos2unixfn dn ++ 0 :: rest) (dos2unixfn dn).length i = dn i := by
  obtain ⟨n, b, t, hn, hb, ht, hl⟩ := dos2unixfn_eq h
  obtain ⟨hle, hpad, -⟩ := trimmed_spec dn 0 8
  obtain ⟨hle', hpad', -⟩ := trimmed_spec dn 8 3
  obtain ⟨hchars, hchars'⟩ := h.permitted
  have hlow : ∀ i < trimmed dn 8 3, lower (dn (8 + i)) ≠ 0 := fun i hi =>
    (lower_ne _ (hchars' i hi).1 (hchars' i hi).2.2.1 (hchars' i hi).2.2.2).1
  have hbne : ∀ a ∈ b, a ≠ 0 ∧ a ≠ dot := by
    intro a ha
    rw [hb] at ha
    rcases mem_cons.mp ha with rfl | ha
    · exact firstOf_ne (hchars 0 (by omega))
    · obtain ⟨i, hi, rfl⟩ := mem_map.mp ha
      have hp := hchars (i + 1) (by rw [hn]; exact Nat.succ_lt_succ (mem_range.mp hi))
      exact lower_ne _ hp.1 hp.2.2.1 hp.2.2.2
  have htne : ∀ a ∈ t, a ≠ 0 := by
    intro a ha
    rw [ht] at ha
    split at ha
    · exact absurd ha not_mem_nil
    rcases mem_cons.mp ha with rfl | ha
    · decide
    · obtain ⟨i, hi, rfl⟩ := mem_map.mp ha
      exact hlow i (mem_range.mp hi)
  have htdot : t = [] ∨ ∃ e, t = dot :: e := by
    rw [ht]
    split
    · exact .inl rfl
    · exact .inr ⟨_, rfl⟩
  obtain ⟨hbase, hfrom⟩ := base_append (fun a ha => (hbne a ha).2) htdot
  rw [← hl] at hbase hfrom
  have hne : dos2unixfn dn ≠ [] := by
    rw [hl, hb]
    exact cons_ne_nil _ _
  have hnull : ∀ a ∈ dos2unixfn dn, a ≠ 0 := by
    intro a ha
    rw [hl] at ha
    exact (mem_append.mp ha).elim (fun ha => (hbne a ha).1) (htne a)
  have hs : ¬ Special (dos2unixfn dn ++ 0 :: rest) := by
    have hhead : (dos2unixfn dn ++ 0 :: rest).getD 0 0 ≠ dot := by
      rw [hl, hb]
      exact (firstOf_ne (hchars 0 (by omega))).2
    exact fun hs => hs.elim (fun h => hhead h.1) (fun h => hhead h.1)
  have hext : extension (dos2unixfn dn) (0 :: rest) = (range (trimmed dn 8 3)).map fun i => dn (8 + i) := by
    by_cases h0 : trimmed dn 8 3 = 0
    · rw [if_pos h0] at ht
      rw [extension, hfrom, ht, h0]
      rfl
    rw [if_neg h0] at ht
    rw [ht] at hfrom htne
    rw [extension_null hfrom (by rw [length_map, length_range]; exact hle')
      fun x hx => htne x (mem_cons_of_mem _ hx), map_map]
    exact map_congr_left fun i hi =>
      upper_lower _ (hchars' i (mem_range.mp hi)).2.2.2
  intro i hi
  rw [unix2dosfn_eq hne hnull hs, hext, place, length_map, length_range]
  by_cases hmem : 8 ≤ i ∧ i < 8 + trimmed dn 8 3
  · rw [if_pos hmem, getD_map_range _ (by omega), Nat.add_sub_cancel' hmem.1]
  rw [if_neg hmem]
  by_cases h8 : 8 ≤ i
  · have hblank := hpad' (i - 8) (by omega) (by omega)
    rw [Nat.add_sub_cancel' h8] at hblank
    rw [nameOf_apply_of_ge h8, hblank]
  rcases Nat.eq_zero_or_pos i with rfl | hpos
  · rw [hb] at hbase
    exact nameOf_first hbase (hchars 0 (by omega)) h.first
  have hlen : b.length = n + 1 := by rw [hb, length_cons, length_map, length_range]
  rw [nameOf_apply hpos, hbase, take_of_length_le (by omega), place, length_map, hlen]
  by_cases hin : 0 ≤ i ∧ i < 0 + (n + 1)
  · obtain ⟨j, rfl⟩ : ∃ j, i = j + 1 := ⟨i - 1, by omega⟩
    rw [if_pos hin, hb, map_cons, Nat.sub_zero, getD_cons_succ, map_map,
      getD_map_range _ (by omega)]
    exact upper_lower _ (hchars (j + 1) (by omega)).2.2.2
  · have hblank := hpad i (by omega) (by omega)
    rw [Nat.zero_add] at hblank
    rw [if_neg hin, hblank]

end canonical

/-! ## The converters -/

/-- A component name: not empty, and no null in it. -/
structure Component where
  name : List Byte
  ne_nil : name ≠ []
  no_null : ∀ a ∈ name, a ≠ 0

/-- **The name conversion.** A component name is read alone if and only if it has no dot, or three bytes
behind its first one; a canonical DOS name comes back from its unix name. Kind: P. -/
theorem dosName_spec (n : Component) {dn : DosName} (h : Canonical dn) :
    (NameOnly n.name ↔ ExtensionFull n.name) ∧
    ∀ c rest, ∀ i < 11, unix2dosfn c (dos2unixfn dn ++ 0 :: rest) (dos2unixfn dn).length i = dn i :=
  ⟨nameOnly_iff_full n.ne_nil n.no_null, unix2dosfn_dos2unixfn h⟩

/-- The name `A`. -/
def letter : DosName := put (fun _ => blank) 0 0x41

/-- Source: msdosfs_conv.c. -/
theorem canonical_letter : Canonical letter where
  base := by decide
  first := by decide
  chars i _ hne := by
    by_cases hi : i = 0
    · subst hi
      unfold Permitted
      decide
    · exact absurd (if_neg hi) hne
  name i j hij _ _ := if_neg (by omega)
  ext i j _ hij _ _ := if_neg (by omega)

/-- It comes back, and it is read alone. Kind: C -/
theorem dosName_spec_letter : NameOnly [0x61] ∧
    unix2dosfn 0 (dos2unixfn letter ++ [0]) (dos2unixfn letter).length 0 = letter 0 :=
  have hspec := dosName_spec ⟨[0x61], by decide, by decide⟩ canonical_letter
  ⟨hspec.1.mpr (.inl (by decide)), hspec.2 0 [] 0 (by decide)⟩

/-- The name `.` is another one when a slash follows. Source: unix2dosfn. Kind: C -/
theorem not_forall_dosName : ¬ ((∀ n : Component, NameOnly n.name) ∧
    ∀ dn, Canonical dn → ∀ c rest, ∀ i < 11,
      unix2dosfn c (dos2unixfn dn ++ 0 :: rest) (dos2unixfn dn).length i = dn i) := by
  intro h
  have hat := congrFun (h.1 ⟨[dot], by decide, by decide⟩ 0 0 [0] [0x2f, 0x78]) 0
  exact absurd hat (by decide)

end Bsd386.Msdosfs
