import Mathlib.Data.Nat.Basic
import Mathlib.Data.List.Basic
import Mathlib.Order.Basic

/-!
# The directory search

The search of `ufs_lookup` (`sys/ufs/ufs_lookup.c`) for a `LOOKUP`: no slot is looked for, `dirchk` is 0 and
no read fails. A directory is the record that begins at each offset of it.
-/

namespace Bsd386.Ufs

open List

/-! ## The code -/

/-- Source: dir.h (DIRBLKSIZ) -/
def dirblksiz : ℕ := 512

/-- `name` is `d_name` up to `d_namlen`. Source: dir.h (struct direct) -/
structure Direct where
  ino : ℕ
  reclen : ℕ
  name : List ℕ
  deriving DecidableEq

/-- Source: dir.h (DIRSIZ) -/
def Direct.dirsiz (ep : Direct) : ℕ := 8 + (ep.name.length + 1 + 3) / 4 * 4

/-- The contents, `i_size` and `i_diroff` of a directory, `fs_bsize` and `fs_ronly`. -/
structure Dir where
  direct : ℕ → Direct
  size : ℕ
  diroff : ℕ
  bsize : ℕ
  ronly : Bool
  /-- A block is some blocks of `DIRBLKSIZ`. -/
  bsize_pos : 0 < bsize
  dvd_bsize : dirblksiz ∣ bsize

/-- `ufs_offset`, `entryoffsetinblock` and the block that is in `bp`. Source: ufs_lookup -/
structure Search where
  offset : ℕ
  entryoffsetinblock : ℕ
  bp : Option ℕ

/-- How a pass of the search ends. -/
inductive Pass where
  | found (s : Search) (ep : Direct)
  | notfound (s : Search)
  | panic
  | fault

/-- What the call gives: `ufs_offset`, `ufs_ino` and `ufs_reclen`, `i_size`, and `i_diroff` if it is set. -/
inductive Outcome where
  | found (offset ino reclen size : ℕ) (diroff : Option ℕ)
  | enoent
  | panic
  | fault
  deriving DecidableEq

namespace Dir

variable (d : Dir) (name : List ℕ)

/-- The loop at `searchloop`; a `fault` is no block in `bp` or a loop without an end. Source: ufs_lookup -/
def searchloop (endsearch : ℕ) : ℕ → Search → Pass
  | 0, _ => .fault
  | n + 1, s =>
    if endsearch ≤ s.offset then .notfound s
    else
      let s := if s.offset % d.bsize = 0 then ⟨s.offset, 0, some (s.offset / d.bsize)⟩ else s
      match s.bp with
      | none => .fault
      | some lbn =>
        let ep := d.direct (lbn * d.bsize + s.entryoffsetinblock)
        if ep.reclen = 0 then
          let i := dirblksiz - s.entryoffsetinblock % dirblksiz
          if d.ronly then searchloop endsearch n ⟨s.offset + i, s.entryoffsetinblock + i, s.bp⟩ else .panic
        else if ep.ino ≠ 0 ∧ ep.name = name then .found s ep
        else searchloop endsearch n ⟨s.offset + ep.reclen, s.entryoffsetinblock + ep.reclen, s.bp⟩

/-- What follows the label `found`; `last` is the last component of the path. Source: ufs_lookup -/
def found (last : Bool) (s : Search) (ep : Direct) : Outcome :=
  let small := d.size < s.entryoffsetinblock + ep.dirsiz
  if small ∧ ¬d.ronly then .panic
  else .found s.offset ep.ino ep.reclen (if small then s.entryoffsetinblock + ep.dirsiz else d.size)
    (if last then some (s.offset / dirblksiz * dirblksiz) else none)

/-- The end of the directory: `roundup(i_size, DIRBLKSIZ)`. Source: ufs_lookup -/
def endsearch : ℕ := (d.size + (dirblksiz - 1)) / dirblksiz * dirblksiz

/-- There is cached information on a previous search. Source: ufs_lookup -/
def Hinted : Prop := ¬(d.diroff = 0 ∨ d.size < d.diroff)

instance : Decidable d.Hinted := inferInstanceAs (Decidable (¬_))

/-- What follows a pass, which is `next` when nothing was found. Source: ufs_lookup -/
def after (last : Bool) (next : Search → Outcome) : Pass → Outcome
  | .found s ep => d.found last s ep
  | .notfound s => next s
  | .panic => .panic
  | .fault => .fault

/-- Source: ufs_lookup -/
def lookup (last : Bool) : Outcome :=
  let s : Search :=
    if d.Hinted then
      ⟨d.diroff, d.diroff % d.bsize, if d.diroff % d.bsize ≠ 0 then some (d.diroff / d.bsize) else none⟩
    else ⟨0, 0, none⟩
  let next (s : Search) : Outcome :=
    if d.Hinted then
      d.after last (fun _ => .enoent) (d.searchloop name d.diroff (d.endsearch + 1) { s with offset := 0 })
    else .enoent
  d.after last next (d.searchloop name d.endsearch (d.endsearch + 1) s)

/-! ## The records -/

/-- The records from `a` to `b` tile the blocks. Source: none: what is claimed. Kind: C -/
inductive Records (direct : ℕ → Direct) : ℕ → ℕ → List ℕ → Prop where
  | nil (a : ℕ) : Records direct a a []
  | cons {a b : ℕ} {l : List ℕ} (hpos : 0 < (direct a).reclen)
      (hin : (a + (direct a).reclen - 1) / dirblksiz = a / dirblksiz)
      (htail : Records direct (a + (direct a).reclen) b l) : Records direct a b (a :: l)

/-- The record at `a` has the name and is in use. -/
def Hit (a : ℕ) : Bool := (d.direct a).ino ≠ 0 ∧ (d.direct a).name = name

variable {d : Dir} {name : List ℕ} {a b h : ℕ} {l : List ℕ}

theorem Records.le (hrec : Records d.direct a b l) : a + l.length ≤ b ∧ ∀ o ∈ l, a ≤ o ∧ o < b := by
  induction hrec with
  | nil a => exact ⟨le_rfl, nofun⟩
  | @cons a b l hpos hin _ ih =>
    refine ⟨by rw [length_cons]; omega, fun o ho => ?_⟩
    rcases mem_cons.mp ho with rfl | ho
    · omega
    · have := ih.2 o ho
      omega

theorem Records.split (hrec : Records d.direct a b l) (hh : dirblksiz ∣ h) (ha : a ≤ h) (hb : h ≤ b) :
    ∃ l₁ l₂, l = l₁ ++ l₂ ∧ Records d.direct a h l₁ ∧ Records d.direct h b l₂ := by
  induction hrec with
  | nil a =>
    obtain rfl := Nat.le_antisymm ha hb
    exact ⟨[], [], rfl, .nil _, .nil _⟩
  | @cons a b l hpos hin htail ih =>
    rcases Nat.eq_or_lt_of_le ha with rfl | hlt
    · exact ⟨[], a :: l, rfl, .nil _, .cons hpos hin htail⟩
    obtain ⟨k, rfl⟩ := hh
    have hnext : a + (d.direct a).reclen ≤ dirblksiz * k := by
      rw [Nat.mul_comm] at hlt ⊢
      have hk : a / dirblksiz < k := (Nat.div_lt_iff_lt_mul (by decide)).mpr hlt
      have := (Nat.div_lt_iff_lt_mul (by decide)).mp (hin.trans_lt hk)
      omega
    obtain ⟨l₁, l₂, rfl, hl₁, hl₂⟩ := ih hnext hb
    exact ⟨a :: l₁, l₂, rfl, .cons hpos hin hl₁, hl₂⟩

/-! ## The search -/

/-- The block in `bp` is the one of the offset, or is read next. -/
def Synced (d : Dir) (s : Search) : Prop :=
  s.offset % d.bsize = 0 ∨ s.entryoffsetinblock = s.offset % d.bsize ∧ s.bp = some (s.offset / d.bsize)

theorem synced_next (d : Dir) {r : ℕ} (hpos : 0 < r) (hin : (a + r - 1) / dirblksiz = a / dirblksiz) :
    Synced d ⟨a + r, a % d.bsize + r, some (a / d.bsize)⟩ := by
  obtain ⟨k, hk⟩ := d.dvd_bsize
  have hsame : (a + r - 1) / d.bsize = a / d.bsize := by
    rw [hk, ← Nat.div_div_eq_div_mul, hin, Nat.div_div_eq_div_mul]
  have hlast := Nat.div_add_mod (a + r - 1) d.bsize
  have hfirst := Nat.div_add_mod a d.bsize
  have hlt := Nat.mod_lt (a + r - 1) d.bsize_pos
  rw [hsame] at hlast
  rcases Nat.eq_or_lt_of_le hlt with hend | hmid
  · left
    have hmul : a + r = d.bsize * (a / d.bsize + 1) := by
      rw [Nat.mul_succ]
      omega
    exact hmul ▸ Nat.mul_mod_right _ _
  · right
    have hsum : a + r = d.bsize * (a / d.bsize) + (a % d.bsize + r) := by omega
    have hsmall : a % d.bsize + r < d.bsize := by omega
    refine ⟨?_, congrArg some ?_⟩
    · show a % d.bsize + r = (a + r) % d.bsize
      rw [hsum, Nat.mul_add_mod, Nat.mod_eq_of_lt hsmall]
    · show a / d.bsize = (a + r) / d.bsize
      rw [hsum, Nat.mul_add_div d.bsize_pos, Nat.div_eq_of_lt hsmall, Nat.add_zero]

theorem searchloop_spec (name : List ℕ) {n : ℕ} {s : Search} (hrec : Records d.direct a b l) (ha : s.offset = a) (hs : Synced d s)
    (hn : l.length < n) :
    match l.find? (d.Hit name) with
    | some o => d.searchloop name b n s = .found ⟨o, o % d.bsize, some (o / d.bsize)⟩ (d.direct o)
    | none => ∃ t, d.searchloop name b n s = .notfound t := by
  induction hrec generalizing n s with
  | nil a =>
    obtain ⟨n, rfl⟩ : ∃ m, n = m + 1 := ⟨n - 1, by omega⟩
    exact ⟨s, if_pos ha.ge⟩
  | @cons a b l hpos hin htail ih =>
    obtain ⟨n, rfl⟩ : ∃ m, n = m + 1 := ⟨n - 1, by omega⟩
    have hread : (if s.offset % d.bsize = 0 then ⟨s.offset, 0, some (s.offset / d.bsize)⟩ else s) =
        (⟨a, a % d.bsize, some (a / d.bsize)⟩ : Search) := by
      subst ha
      by_cases hzero : s.offset % d.bsize = 0
      · rw [if_pos hzero, hzero]
      · obtain ⟨heoib, hbp⟩ := hs.resolve_left hzero
        rw [if_neg hzero, ← heoib, ← hbp]
    have hend : ¬b ≤ s.offset := by
      have := (Records.cons hpos hin htail).le.2 a mem_cons_self
      omega
    have hloc : a / d.bsize * d.bsize + a % d.bsize = a := Nat.div_add_mod' a d.bsize
    rw [searchloop, if_neg hend, hread, find?_cons]
    simp only [hloc, if_neg hpos.ne']
    by_cases hhit : (d.direct a).ino ≠ 0 ∧ (d.direct a).name = name
    · rw [show d.Hit name a = true from decide_eq_true hhit]
      exact if_pos hhit
    · rw [if_neg hhit, show d.Hit name a = false from decide_eq_false hhit]
      exact ih rfl (synced_next d hpos hin) (by rw [length_cons] at hn; omega)

theorem hint_le (d : Dir) : (if d.Hinted then d.diroff else 0) ≤ d.endsearch := by
  split
  · next hint =>
    have hsize : d.size ≤ d.endsearch := by
      unfold endsearch dirblksiz
      omega
    exact (not_lt.mp fun hlt => hint (.inr hlt)).trans hsize
  · exact Nat.zero_le _

/-- The outcome of a search that ends at `o`. -/
def outcome (d : Dir) (last : Bool) : Option ℕ → Outcome
  | some o => d.found last ⟨o, o % d.bsize, some (o / d.bsize)⟩ (d.direct o)
  | none => .enoent

/-- **The call**: two passes when there is a hint, over the records behind it and before it. -/
theorem lookup_spec (name : List ℕ) (last : Bool) {l₁ l₂ : List ℕ}
    (hfst : Records d.direct 0 (if d.Hinted then d.diroff else 0) l₁)
    (hsnd : Records d.direct (if d.Hinted then d.diroff else 0) d.endsearch l₂) :
    d.lookup name last = d.outcome last ((l₂.find? (d.Hit name)).or (l₁.find? (d.Hit name))) := by
  have hlen₁ := hfst.le.1
  have hlen₂ := hsnd.le.1
  have hle : (if d.Hinted then d.diroff else 0) ≤ d.endsearch := by omega
  have hpass₁ (s : Search) (hs : s.offset = 0) := searchloop_spec name (n := d.endsearch + 1) (s := s)
    hfst hs (.inl (by rw [hs, Nat.zero_mod])) (by omega)
  by_cases hint : d.Hinted
  · simp only [if_pos hint] at hfst hsnd hpass₁ hle
    have hpass₂ := searchloop_spec name (n := d.endsearch + 1)
      (s := ⟨d.diroff, d.diroff % d.bsize, if d.diroff % d.bsize ≠ 0 then some (d.diroff / d.bsize) else none⟩)
      hsnd rfl (by
        by_cases hzero : d.diroff % d.bsize = 0
        · exact .inl hzero
        · exact .inr ⟨rfl, if_pos hzero⟩) (by omega)
    unfold lookup
    simp only [if_pos hint]
    cases hfind₂ : l₂.find? (d.Hit name) with
    | some o =>
      rw [hfind₂] at hpass₂
      rw [hpass₂]
      rfl
    | none =>
      rw [hfind₂] at hpass₂
      obtain ⟨t, ht⟩ := hpass₂
      rw [ht]
      have hpass₁ := hpass₁ { t with offset := 0 } rfl
      cases hfind₁ : l₁.find? (d.Hit name) with
      | some o =>
        rw [hfind₁] at hpass₁
        exact congrArg (d.after last _) hpass₁
      | none =>
        rw [hfind₁] at hpass₁
        obtain ⟨u, hu⟩ := hpass₁
        exact congrArg (d.after last _) hu
  · simp only [if_neg hint] at hfst hsnd
    obtain rfl : l₁ = [] := length_eq_zero_iff.mp (by have := hfst.le.1; omega)
    have hpass₂ := searchloop_spec name (n := d.endsearch + 1) (s := ⟨0, 0, none⟩) hsnd rfl
      (.inl (Nat.zero_mod _)) (by omega)
    unfold lookup
    simp only [if_neg hint]
    rw [find?_nil, Option.or_none]
    cases hfind₂ : l₂.find? (d.Hit name) with
    | some o =>
      rw [hfind₂] at hpass₂
      rw [hpass₂]
      rfl
    | none =>
      rw [hfind₂] at hpass₂
      obtain ⟨t, ht⟩ := hpass₂
      rw [ht]
      rfl

/-- Lookups, and creations, deletions and truncations between them. Source: none: what is claimed. Kind: C -/
inductive Reach : Dir → Prop where
  | start {d : Dir} (hoff : d.diroff = 0) : Reach d
  | lookup {d : Dir} {name : List ℕ} {last : Bool} {offset ino reclen size : ℕ} {diroff : Option ℕ} (h : Reach d)
      (hfound : d.lookup name last = .found offset ino reclen size diroff) :
      Reach { d with size := size, diroff := diroff.getD d.diroff }
  | change {d : Dir} (direct : ℕ → Direct) (size : ℕ) (h : Reach d) : Reach { d with direct := direct, size := size }

/-- A hint that the search sets is the offset of a block. -/
def HintOk (d : Dir) (r : Outcome) : Prop :=
  ∀ offset ino reclen size diroff, r = .found offset ino reclen size diroff → dirblksiz ∣ diroff.getD d.diroff

theorem after_hintOk (hdvd : dirblksiz ∣ d.diroff) (last : Bool) {next : Search → Outcome}
    (hnext : ∀ s, d.HintOk (next s)) (r : Pass) : d.HintOk (d.after last next r) := by
  intro offset ino reclen size diroff hout
  cases r with
  | found s ep =>
    simp only [after, found] at hout
    split at hout
    · exact absurd hout nofun
    obtain ⟨-, -, -, -, rfl⟩ := Outcome.found.inj hout
    cases last
    · exact hdvd
    · exact Nat.dvd_mul_left _ _
  | notfound s => exact hnext s _ _ _ _ _ hout
  | panic => exact absurd hout nofun
  | fault => exact absurd hout nofun

theorem Reach.dvd (h : Reach d) : dirblksiz ∣ d.diroff := by
  induction h with
  | start hoff => exact hoff ▸ Nat.dvd_zero _
  | lookup _ hfound ih =>
    refine after_hintOk ih _ (fun s => ?_) _ _ _ _ _ _ hfound
    split
    · exact after_hintOk ih _ (fun _ _ _ _ _ _ hout => Outcome.noConfusion hout) _
    · exact fun _ _ _ _ _ hout => absurd hout nofun
  | change _ _ _ ih => exact ih

/-- **The hint is invisible**, when the name is in one record in use at most. Kind: D -/
theorem lookup_hint (h : Reach d) (hrec : Records d.direct 0 d.endsearch l) (honce : l.countP (d.Hit name) ≤ 1)
    (last : Bool) :
    d.lookup name last = { d with diroff := 0 }.lookup name last ∧ d.lookup name last ≠ .fault := by
  have hscan : { d with diroff := 0 }.lookup name last = d.outcome last (l.find? (d.Hit name)) := by
    have hno : ¬{ d with diroff := 0 }.Hinted := fun hint => hint (.inl rfl)
    have hspec := lookup_spec (d := { d with diroff := 0 }) name last (by rw [if_neg hno]; exact .nil 0)
      (by rw [if_neg hno]; exact hrec)
    rwa [find?_nil, Option.or_none] at hspec
  obtain ⟨l₁, l₂, rfl, hfst, hsnd⟩ := hrec.split (h := if d.Hinted then d.diroff else 0)
    (by
      split
      · exact h.dvd
      · exact Nat.dvd_zero _) (Nat.zero_le _) d.hint_le
  have hall : (l₂.find? (d.Hit name)).or (l₁.find? (d.Hit name)) = (l₁ ++ l₂).find? (d.Hit name) := by
    rw [find?_append]
    cases hfind : l₂.find? (d.Hit name) with
    | none => rw [Option.none_or, Option.or_none]
    | some o =>
      have hnone : l₁.find? (d.Hit name) = none := by
        rw [countP_append] at honce
        have hpos : 0 < l₂.countP (d.Hit name) :=
          countP_pos_iff.mpr ⟨o, mem_of_find?_eq_some hfind, find?_some hfind⟩
        have hzero := countP_eq_zero.mp (show l₁.countP (d.Hit name) = 0 by omega)
        exact find?_eq_none.mpr hzero
      rw [hnone, Option.none_or, Option.or_none]
  have hspec := lookup_spec name last hfst hsnd
  rw [hall] at hspec
  refine ⟨hspec.trans hscan.symm, fun hfault => ?_⟩
  rw [hspec] at hfault
  cases hfind : (l₁ ++ l₂).find? (d.Hit name) with
  | none =>
    rw [hfind] at hfault
    exact absurd hfault nofun
  | some o =>
    rw [hfind, outcome, found] at hfault
    dsimp only at hfault
    split at hfault
    all_goals exact absurd hfault nofun

/-- Two blocks with a record each; `a` is 97 and `b` 98. -/
def twoBlocks (fst snd : List ℕ) : Dir where
  direct o := if o = 0 then ⟨5, 512, fst⟩ else ⟨6, 512, snd⟩
  size := 1024
  diroff := 0
  bsize := 8192
  ronly := false
  bsize_pos := by decide
  dvd_bsize := by decide

theorem twoBlocks_records (fst snd : List ℕ) : Records (twoBlocks fst snd).direct 0 1024 [0, 512] :=
  .cons (b := 1024) (Nat.succ_pos 511) (by simp [twoBlocks, dirblksiz]) (.cons (a := 512) (Nat.succ_pos 511)
    (by simp [twoBlocks, dirblksiz]) (.nil 1024))

/-- The directory after a search for `b`. -/
def hintedBlocks : Dir := { twoBlocks [97] [98] with size := 1024, diroff := 512 }

theorem reach_hintedBlocks : Reach hintedBlocks :=
  @Reach.lookup (twoBlocks [97] [98]) [98] true 512 6 512 1024 (some 512) (.start rfl) (by decide)

/-- Witness of `lookup_hint`. -/
theorem hintedBlocks_hint : hintedBlocks.lookup [97] true = { hintedBlocks with diroff := 0 }.lookup [97] true ∧
    hintedBlocks.lookup [97] true ≠ .fault :=
  lookup_hint reach_hintedBlocks (twoBlocks_records _ _) (by decide) true

/-- **A name that is in two records**: the hint leads to the second one. Kind: D -/
theorem not_hint : ¬∀ (d : Dir) (l name : List ℕ) (last : Bool), Reach d → Records d.direct 0 d.endsearch l →
    d.lookup name last = { d with diroff := 0 }.lookup name last := by
  intro hall
  have hreach := Reach.change (twoBlocks [97] [97]).direct 1024 reach_hintedBlocks
  exact absurd (hall _ [0, 512] [97] true hreach (twoBlocks_records _ _)) (by decide +kernel)

end Dir

end Bsd386.Ufs
