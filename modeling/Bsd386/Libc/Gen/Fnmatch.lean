import Bsd386.Libc.Vis.Basic
import Mathlib.Data.List.TakeWhile

/-!
# `fnmatch`

The matcher of file names, `lib/libc/gen/fnmatch.c`. A string is the list of the characters before its
NUL. What `rangematch` and the loop over the stars leave of a pattern is told by how much of it they
pass (`past`).
-/

namespace Bsd386.Libc.Gen

open Lib.Bytes Vis List

/-! ## The code -/

/-- Source: FNM_NOMATCH -/
def fnmNomatch : Int := 1

/-- `flags & FNM_NOESCAPE`. Source: FNM_NOESCAPE -/
def noescape (flags : BitVec 32) : Bool := flags &&& 0x01 != 0

/-- `flags & FNM_PATHNAME`. Source: FNM_PATHNAME -/
def pathname (flags : BitVec 32) : Bool := flags &&& 0x02 != 0

/-- How much of a pattern is passed where `rest` is left. -/
def past {γ : Type} (pattern rest : List γ) : ℕ := pattern.length - rest.length

/-- `*pattern == '-' && (c2 = pattern[1]) != EOS && c2 != ']'`, with `c2`, for characters of which
some may be quoted. Source: rangematch -/
def rangeEnd {γ : Type} (is : γ → Byte → Bool) (pattern : List γ) : Option γ :=
  if pattern[0]?.any (is · (ch '-')) then pattern[1]?.filter (!is · (ch ']')) else none

/-- The loop of `rangematch`: `ok` and what follows the `]`. The number is what `pattern += 2` still
has to pass. Source: rangematch -/
def rangeLoop (test : Byte) : ℕ → Bool → List Byte → Option (Bool × List Byte)
  | _, _, [] => none
  | skip + 1, ok, _ :: pattern => rangeLoop test skip ok pattern
  | 0, ok, c :: pattern =>
    if c = ch ']' then
      some (ok, pattern)
    else
      match rangeEnd (· == ·) pattern with
      | some c2 => rangeLoop test 2 (ok || c.sle test && test.sle c2) pattern
      | none => rangeLoop test 0 (ok || c == test) pattern

/-- Source: rangematch -/
def rangematch (pattern : List Byte) (test : Byte) : Option (List Byte) :=
  let negate := pattern.head?.any (· == ch '!')
  match rangeLoop test 0 false (if negate then pattern.tail else pattern) with
  | none => none
  | some (ok, pattern) => if ok = negate then none else some pattern

/-- The loop of the general case of `*`, with the recursive call. Source: fnmatch -/
def starLoop (path : Bool) (call : List Byte → Int) : List Byte → Int
  | [] => fnmNomatch
  | test :: string =>
    if call (test :: string) = 0 then
      0
    else if test = ch '/' ∧ path then
      fnmNomatch
    else
      starLoop path call string

/-- `fnmatch` behind the first characters of the pattern. Source: fnmatch -/
def fnmatch (flags : BitVec 32) : ℕ → List Byte → List Byte → Int
  | _, [], string => if string = [] then 0 else fnmNomatch
  | skip + 1, _ :: pattern, string => fnmatch flags skip pattern string
  | 0, c :: pattern, string =>
    if c = ch '?' then
      match string with
      | [] => fnmNomatch
      | test :: string =>
        if test = ch '/' ∧ pathname flags then fnmNomatch else fnmatch flags 0 pattern string
    else if c = ch '*' then
      -- collapse multiple stars
      let rest := pattern.dropWhile (· == ch '*')
      if rest = [] then
        if pathname flags ∧ ch '/' ∈ string then fnmNomatch else 0
      else if rest.head? = some (ch '/') ∧ pathname flags then
        let string := string.dropWhile (· != ch '/')
        if string = [] then fnmNomatch else fnmatch flags (past pattern rest) pattern string
      else
        starLoop (pathname flags)
          (fun string => fnmatch flags (past pattern rest) pattern string) string
    else if c = ch '[' then
      match string with
      | [] => fnmNomatch
      | test :: string =>
        if test = ch '/' ∧ pathname flags then
          fnmNomatch
        else
          match rangematch pattern test with
          | none => fnmNomatch
          | some rest => fnmatch flags (past pattern rest) pattern string
    else if c = ch '\\' ∧ !noescape flags then
      let c := pattern.head?.getD (ch '\\')
      if string.head? = some c then fnmatch flags 1 pattern string.tail else fnmNomatch
    else
      if string.head? = some c then fnmatch flags 0 pattern string.tail else fnmNomatch

/-! ## Patterns -/

/-- What one part of a pattern matches: a character, any character, any string, or a character that is,
or is not, in one of the ranges. -/
inductive Tok where
  | lit (c : Byte)
  | one
  | star
  | set (negate : Bool) (ranges : List (Byte × Byte))
  deriving DecidableEq

/-- The character is in one of the ranges. -/
def member (le : Byte → Byte → Bool) (test : Byte) (ranges : List (Byte × Byte)) : Bool :=
  ranges.any fun r => le r.1 test && le test r.2

/-- The strings that the tokens match. With `path` a slash is matched by a slash only. -/
def Lang (le : Byte → Byte → Bool) (path : Bool) : List Tok → List Byte → Prop
  | [], s => s = []
  | .lit c :: t, s => ∃ b, s = c :: b ∧ Lang le path t b
  | .one :: t, s => ∃ x b, s = x :: b ∧ ¬(x = ch '/' ∧ path) ∧ Lang le path t b
  | .star :: t, s => ∃ a b, s = a ++ b ∧ ¬(ch '/' ∈ a ∧ path) ∧ Lang le path t b
  | .set negate ranges :: t, s =>
    ∃ x b, s = x :: b ∧ ¬(x = ch '/' ∧ path) ∧ member le x ranges ≠ negate ∧ Lang le path t b

section

variable {γ : Type} (is : γ → Byte → Bool) (val : γ → Byte)

/-- The members of a bracket expression and what follows its `]`, where a `]` that is the `first` of
them may be one of them. The number is what is still to be passed. -/
def items : ℕ → Bool → List γ → Option (List (Byte × Byte) × List γ)
  | _, _, [] => none
  | skip + 1, first, _ :: p => items skip first p
  | 0, first, c :: p =>
    if is c (ch ']') ∧ !first then
      some ([], p)
    else
      match rangeEnd is p with
      | some c2 => (items 2 false p).map fun r => ((val c, val c2) :: r.1, r.2)
      | none => (items 0 false p).map fun r => ((val c, val c) :: r.1, r.2)

/-- What follows a `[`: the token and the rest. -/
def bracket (first : Bool) (p : List γ) : Option (Tok × List γ) :=
  let negate := p.head?.any (is · (ch '!'))
  (items is val 0 first (if negate then p.tail else p)).map fun r => (.set negate r.1, r.2)

/-- The tokens of a pattern behind its first characters, if it is one. A bracket expression that is not
closed is none, or its `[` is `lone`, an ordinary character. -/
def parse (first lone esc : Bool) : ℕ → List γ → Option (List Tok)
  | _, [] => some []
  | skip + 1, _ :: p => parse first lone esc skip p
  | 0, c :: p =>
    if is c (ch '?') then
      (parse first lone esc 0 p).map (.one :: ·)
    else if is c (ch '*') then
      (parse first lone esc 0 p).map (.star :: ·)
    else if is c (ch '[') then
      match bracket is val first p with
      | some r => (parse first lone esc (past p r.2) p).map (r.1 :: ·)
      | none => if lone then (parse first lone esc 0 p).map (.lit (val c) :: ·) else none
    else if is c (ch '\\') ∧ esc then
      (parse first lone esc 1 p).map (.lit (val (p.head?.getD c)) :: ·)
    else
      (parse first lone esc 0 p).map (.lit (val c) :: ·)

end

/-- The pattern as `fnmatch` reads it: a `]` ends a bracket expression and nothing in one is quoted.
Source: fnmatch, rangematch -/
def tokens (esc : Bool) : ℕ → List Byte → Option (List Tok) := parse (· == ·) id false false esc

/-- The characters of a pattern, each with whether it is quoted. -/
def quote (esc : Bool) : List Byte → List (Byte × Bool)
  | [] => []
  | [c] => [(c, esc && c == ch '\\')]
  | c :: d :: p =>
    if c = ch '\\' ∧ esc then (d, true) :: quote esc p else (c, false) :: quote esc (d :: p)

/-- The pattern by the rules of the shell. Source: none: what is claimed. -/
def shellTokens (esc : Bool) (p : List Byte) : Option (List Tok) :=
  parse (fun c b => c == (b, false)) Prod.fst true false false 0 (quote esc p)

/-- The string is matched by the pattern. Source: none: what is claimed. -/
def Matches (flags : BitVec 32) (pattern string : List Byte) : Prop :=
  ∃ t, shellTokens (!noescape flags) pattern = some t ∧ Lang BitVec.sle (pathname flags) t string

/-! ## The parts of a pattern -/

theorem sle_self_iff (c x : Byte) : (c.sle x && x.sle c) = (c == x) := by
  rw [Bool.eq_iff_iff, Bool.and_eq_true, BitVec.sle_iff_toInt_le, BitVec.sle_iff_toInt_le, beq_iff_eq,
    ← Int.le_antisymm_iff, BitVec.toInt_inj]

theorem rangeLoop_eq (test : Byte) (skip : ℕ) (ok : Bool) (p : List Byte) :
    rangeLoop test skip ok p =
      (items (· == ·) id skip false p).map fun r => (ok || member BitVec.sle test r.1, r.2) := by
  induction p generalizing skip ok with
  | nil => cases skip <;> rfl
  | cons c p ih =>
    obtain _ | skip := skip
    · unfold rangeLoop items
      by_cases hc : c = ch ']'
      · rw [if_pos hc, if_pos ⟨beq_iff_eq.mpr hc, rfl⟩]
        simp [member]
      · rw [if_neg hc, if_neg fun h => hc (beq_iff_eq.mp h.1)]
        obtain _ | c2 := rangeEnd (· == ·) p <;> dsimp only <;> rw [ih, Option.map_map] <;> congr 1 <;>
          funext r <;> simp only [Function.comp_apply, member, any_cons, id, sle_self_iff,
            Bool.or_assoc]
    · exact ih skip ok

theorem rangematch_eq (p : List Byte) (test : Byte) :
    rangematch p test = (bracket (· == ·) id false p).bind fun r =>
      match r.1 with
      | .set negate ranges => if member BitVec.sle test ranges = negate then none else some r.2
      | _ => none := by
  unfold rangematch bracket
  dsimp only
  rw [rangeLoop_eq]
  generalize items (· == ·) id 0 false _ = o
  obtain _ | r := o <;> rfl

theorem tokens_cons (esc : Bool) (c : Byte) (p : List Byte) :
    tokens esc 0 (c :: p) =
      if c = ch '?' then (tokens esc 0 p).map (.one :: ·)
      else if c = ch '*' then (tokens esc 0 p).map (.star :: ·)
      else if c = ch '[' then
        (bracket (· == ·) id false p).bind fun r => (tokens esc (past p r.2) p).map (r.1 :: ·)
      else if c = ch '\\' ∧ esc then (tokens esc 1 p).map (.lit (p.head?.getD c) :: ·)
      else (tokens esc 0 p).map (.lit c :: ·) := by
  rw [tokens, parse]
  simp only [beq_iff_eq]
  cases bracket (· == ·) id false p <;> rfl

theorem tokens_drop (esc : Bool) (k : ℕ) (p : List Byte) :
    tokens esc k p = tokens esc 0 (p.drop k) := by
  induction p generalizing k with
  | nil => cases k <;> rfl
  | cons c p ih =>
    obtain _ | k := k
    · rfl
    · exact ih k

theorem exists_map_cons {o : Option (List Tok)} {k : Tok} {P : List Tok → Prop} :
    (∃ t, o.map (k :: ·) = some t ∧ P t) ↔ ∃ t, o = some t ∧ P (k :: t) := by
  cases o <;> simp

theorem lang_star_star {le : Byte → Byte → Bool} {path : Bool} {t : List Tok} {s : List Byte} :
    Lang le path (.star :: .star :: t) s ↔ Lang le path (.star :: t) s := by
  constructor
  · rintro ⟨a, b, rfl, ha, a2, b2, rfl, ha2, h⟩
    refine ⟨a ++ a2, b2, (append_assoc a a2 b2).symm, fun hx => ?_, h⟩
    exact (mem_append.mp hx.1).elim (fun hm => ha ⟨hm, hx.2⟩) fun hm => ha2 ⟨hm, hx.2⟩
  · exact fun h => ⟨[], s, rfl, fun hx => not_mem_nil hx.1, h⟩

theorem lang_stars (le : Byte → Byte → Bool) (path esc : Bool) (p s : List Byte) :
    (∃ t, tokens esc 0 p = some t ∧ Lang le path (.star :: t) s) ↔
      ∃ t, tokens esc 0 (p.dropWhile (· == ch '*')) = some t ∧ Lang le path (.star :: t) s := by
  induction p with
  | nil => rfl
  | cons c p ih =>
    by_cases hc : c = ch '*'
    · rw [dropWhile_cons, if_pos (beq_iff_eq.mpr hc), ← ih, tokens_cons, if_neg (hc ▸ by decide),
        if_pos hc, exists_map_cons]
      simp only [lang_star_star]
    · rw [dropWhile_cons, if_neg fun h => hc (beq_iff_eq.mp h)]

theorem eq_star_of_lang {le : Byte → Byte → Bool} {path : Bool} {k : Tok} {t : List Tok}
    (h : Lang le path (k :: t) []) :
    k = .star := by
  cases k with
  | star => rfl
  | lit c => obtain ⟨b, hb, _⟩ := h; cases hb
  | one => obtain ⟨x, b, hb, _⟩ := h; cases hb
  | set negate ranges => obtain ⟨x, b, hb, _⟩ := h; cases hb

theorem tokens_head {esc : Bool} {c : Byte} {p : List Byte} {t : List Tok} (hc : c ≠ ch '*')
    (h : tokens esc 0 (c :: p) = some t) : ∃ k t2, t = k :: t2 ∧ k ≠ .star := by
  rw [tokens_cons, if_neg hc] at h
  split_ifs at h
  · obtain ⟨t2, -, rfl⟩ := Option.map_eq_some_iff.mp h
    exact ⟨_, _, rfl, nofun⟩
  · obtain ⟨r, hr, h⟩ := Option.bind_eq_some_iff.mp h
    obtain ⟨t2, -, rfl⟩ := Option.map_eq_some_iff.mp h
    obtain ⟨r2, -, rfl⟩ := Option.map_eq_some_iff.mp hr
    exact ⟨_, _, rfl, nofun⟩
  all_goals
    obtain ⟨t2, -, rfl⟩ := Option.map_eq_some_iff.mp h
    exact ⟨_, _, rfl, nofun⟩

theorem lang_star_slash {le : Byte → Byte → Bool} {path : Bool} (hp : path = true) {t : List Tok}
    {s : List Byte} :
    Lang le path (.star :: .lit (ch '/') :: t) s ↔
      Lang le path (.lit (ch '/') :: t) (s.dropWhile (· != ch '/')) := by
  constructor
  · rintro ⟨a, b, rfl, ha, b2, rfl, h⟩
    have hne : ∀ x ∈ a, (x != ch '/') = true := fun x hx =>
      bne_iff_ne.mpr fun heq => ha ⟨heq ▸ hx, hp⟩
    rw [dropWhile_append_of_pos hne]
    exact ⟨b2, rfl, h⟩
  · rintro ⟨b, hs, h⟩
    refine ⟨s.takeWhile (· != ch '/'), _, takeWhile_append_dropWhile.symm, fun hx => ?_, b, hs, h⟩
    exact absurd rfl (bne_iff_ne.mp (mem_takeWhile_imp (p := (· != ch '/')) hx.1))

/-! ## The matcher -/

theorem starLoop_eq_zero_iff {path : Bool} {call : List Byte → Int} {s : List Byte} :
    starLoop path call s = 0 ↔
      ∃ a x b, s = a ++ x :: b ∧ ¬(ch '/' ∈ a ∧ path) ∧ call (x :: b) = 0 := by
  induction s with
  | nil => exact ⟨nofun, fun ⟨a, x, b, h, _⟩ => absurd h.symm (append_ne_nil_of_right_ne_nil _ nofun)⟩
  | cons test s ih =>
    have hcons {a : List Byte} (ha : ¬(ch '/' ∈ a ∧ path)) (ht : ¬(test = ch '/' ∧ path)) :
        ¬(ch '/' ∈ test :: a ∧ path) := fun hx =>
      (mem_cons.mp hx.1).elim (fun heq => ht ⟨heq.symm, hx.2⟩) fun hm => ha ⟨hm, hx.2⟩
    unfold starLoop
    by_cases hcall : call (test :: s) = 0
    · rw [if_pos hcall]
      exact ⟨fun _ => ⟨[], test, s, rfl, fun hx => not_mem_nil hx.1, hcall⟩, fun _ => rfl⟩
    rw [if_neg hcall]
    by_cases hslash : test = ch '/' ∧ path
    · rw [if_pos hslash]
      refine ⟨nofun, ?_⟩
      rintro ⟨_ | ⟨y, a⟩, x, b, hs, ha, h⟩
      · exact absurd (hs ▸ h) hcall
      · obtain ⟨rfl, -⟩ := cons.inj hs
        exact absurd ⟨mem_cons.mpr (.inl hslash.1.symm), hslash.2⟩ ha
    · rw [if_neg hslash, ih]
      constructor
      · rintro ⟨a, x, b, rfl, ha, h⟩
        exact ⟨test :: a, x, b, rfl, hcons ha hslash, h⟩
      · rintro ⟨_ | ⟨y, a⟩, x, b, hs, ha, h⟩
        · exact absurd (hs ▸ h) hcall
        · obtain ⟨rfl, rfl⟩ := cons.inj hs
          exact ⟨a, x, b, rfl, fun hx => ha ⟨mem_cons_of_mem _ hx.1, hx.2⟩, h⟩

theorem star_eq_zero_iff {path esc : Bool} {call : List Byte → Int} {p rest s : List Byte}
    (hrest : p.dropWhile (· == ch '*') = rest)
    (hcall : ∀ s, call s = 0 ↔ ∃ t, tokens esc 0 rest = some t ∧ Lang BitVec.sle path t s) :
    (if rest = [] then if path ∧ ch '/' ∈ s then fnmNomatch else 0
      else if rest.head? = some (ch '/') ∧ path then
        if s.dropWhile (· != ch '/') = [] then fnmNomatch else call (s.dropWhile (· != ch '/'))
      else starLoop path call s) = 0 ↔
      ∃ t, tokens esc 0 rest = some t ∧ Lang BitVec.sle path (.star :: t) s := by
  have hhead := head?_dropWhile_not (· == ch '*') p
  rw [hrest] at hhead
  obtain _ | ⟨c2, rest⟩ := rest
  · rw [if_pos rfl]
    by_cases hs : path ∧ ch '/' ∈ s
    · rw [if_pos hs]
      refine ⟨nofun, fun ⟨t, ht, a, b, hab, ha, hb⟩ => ?_⟩
      obtain rfl := Option.some.inj ht
      obtain rfl : b = [] := hb
      exact absurd ⟨append_nil a ▸ hab ▸ hs.2, hs.1⟩ ha
    · rw [if_neg hs]
      exact ⟨fun _ => ⟨[], rfl, s, [], (append_nil s).symm, fun h => hs h.symm, rfl⟩, fun _ => rfl⟩
  rw [if_neg (cons_ne_nil c2 rest), head?_cons]
  by_cases hslash : some c2 = some (ch '/') ∧ path
  · have hlits : tokens esc 0 (c2 :: rest) = (tokens esc 0 rest).map (.lit (ch '/') :: ·) := by
      rw [tokens_cons, Option.some.inj hslash.1, if_neg (by decide), if_neg (by decide),
        if_neg (by decide), if_neg fun h => absurd h.1 (by decide)]
    rw [if_pos hslash, hlits, exists_map_cons]
    simp only [lang_star_slash hslash.2]
    split_ifs with hs
    · rw [hs]
      exact ⟨nofun, fun ⟨t, _, h⟩ => nomatch eq_star_of_lang h⟩
    · exact (hcall _).trans (by rw [hlits, exists_map_cons])
  rw [if_neg hslash, starLoop_eq_zero_iff]
  constructor
  · rintro ⟨a, x, b, hs, ha, h⟩
    obtain ⟨t, ht, hl⟩ := (hcall _).mp h
    exact ⟨t, ht, a, x :: b, hs, ha, hl⟩
  · rintro ⟨t, ht, a, _ | ⟨x, b⟩, hs, ha, hl⟩
    · obtain ⟨k, t2, rfl, hk⟩ := tokens_head (beq_eq_false_iff_ne.mp hhead) ht
      exact absurd (eq_star_of_lang hl) hk
    · exact ⟨a, x, b, hs, ha, (hcall _).mpr ⟨t, ht, hl⟩⟩

theorem fnmatch_eq_zero_iff (flags : BitVec 32) (skip : ℕ) (p s : List Byte) :
    fnmatch flags skip p s = 0 ↔
      ∃ t, tokens (!noescape flags) skip p = some t ∧ Lang BitVec.sle (pathname flags) t s := by
  have hone : fnmNomatch ≠ 0 := by decide
  induction p generalizing skip s with
  | nil =>
    have hnil : tokens (!noescape flags) skip [] = some [] := by cases skip <;> rfl
    have hrun : fnmatch flags skip [] s = if s = [] then 0 else fnmNomatch := by cases skip <;> rfl
    rw [hnil, hrun]
    by_cases hs : s = []
    · exact ⟨fun _ => ⟨[], rfl, hs⟩, fun _ => if_pos hs⟩
    · rw [if_neg hs]
      exact ⟨nofun, fun ⟨t, ht, h⟩ => absurd (Option.some.inj ht ▸ h : Lang _ _ [] s) hs⟩
  | cons c p ih =>
    obtain _ | skip := skip
    · have hlit (c : Byte) (k : ℕ) :
          (if s.head? = some c then fnmatch flags k p s.tail else fnmNomatch) = 0 ↔
            ∃ t, tokens (!noescape flags) k p = some t ∧ Lang BitVec.sle (pathname flags)
              (.lit c :: t) s := by
        obtain _ | ⟨x, s⟩ := s
        · exact ⟨nofun, fun ⟨t, _, h⟩ => nomatch eq_star_of_lang h⟩
        by_cases hx : x = c
        · rw [head?_cons, if_pos (congrArg some hx), tail_cons]
          exact (ih k s).trans <| exists_congr fun t => and_congr_right fun _ =>
            ⟨fun h => ⟨s, hx ▸ rfl, h⟩, fun ⟨b, hb, h⟩ => (cons.inj hb).2 ▸ h⟩
        · rw [head?_cons, if_neg fun h => hx (Option.some.inj h)]
          exact ⟨nofun, fun ⟨t, _, b, hb, _⟩ => absurd (cons.inj hb).1 hx⟩
      rw [fnmatch.eq_def, tokens_cons]
      dsimp only
      by_cases h1 : c = ch '?'
      · rw [if_pos h1, if_pos h1, exists_map_cons]
        obtain _ | ⟨x, s⟩ := s
        · exact ⟨nofun, fun ⟨t, _, h⟩ => nomatch eq_star_of_lang h⟩
        dsimp only
        by_cases hx : x = ch '/' ∧ pathname flags
        · rw [if_pos hx]
          exact ⟨nofun, fun ⟨t, _, y, b, hb, hy, _⟩ => absurd ((cons.inj hb).1 ▸ hx) hy⟩
        · rw [if_neg hx]
          exact (ih 0 s).trans <| exists_congr fun t => and_congr_right fun _ =>
            ⟨fun h => ⟨x, s, rfl, hx, h⟩, fun ⟨y, b, hb, _, h⟩ => (cons.inj hb).2 ▸ h⟩
      rw [if_neg h1, if_neg h1]
      by_cases h2 : c = ch '*'
      · rw [if_pos h2, if_pos h2, exists_map_cons, lang_stars]
        refine star_eq_zero_iff rfl fun s => ?_
        have htok := tokens_drop (!noescape flags) (past p (p.dropWhile (· == ch '*'))) p
        rw [past, ← suffix_iff_eq_drop.mp (dropWhile_suffix (· == ch '*'))] at htok
        exact htok ▸ ih _ s
      rw [if_neg h2, if_neg h2]
      by_cases h3 : c = ch '['
      · rw [if_pos h3, if_pos h3]
        obtain _ | ⟨x, s⟩ := s
        · refine ⟨nofun, fun ⟨t, ht, h⟩ => ?_⟩
          obtain ⟨r, hr, ht⟩ := Option.bind_eq_some_iff.mp ht
          obtain ⟨t2, -, rfl⟩ := Option.map_eq_some_iff.mp ht
          obtain ⟨r2, -, rfl⟩ := Option.map_eq_some_iff.mp hr
          exact nomatch eq_star_of_lang h
        dsimp only
        rw [rangematch_eq]
        obtain hb | ⟨r, hb⟩ := Option.eq_none_or_eq_some (bracket (· == ·) id false p)
        · rw [hb]
          exact ⟨fun h => absurd ((ite_self fnmNomatch).symm.trans h) hone,
            fun ⟨t, ht, _⟩ => nomatch ht⟩
        obtain ⟨r2, -, rfl⟩ := Option.map_eq_some_iff.mp hb
        rw [hb, Option.bind_some, Option.bind_some, exists_map_cons]
        dsimp only
        by_cases hx : x = ch '/' ∧ pathname flags
        · rw [if_pos hx]
          exact ⟨nofun, fun ⟨t, _, y, b, hb, hy, _⟩ => absurd ((cons.inj hb).1 ▸ hx) hy⟩
        rw [if_neg hx]
        by_cases hm : member BitVec.sle x r2.1 = p.head?.any (· == ch '!')
        · rw [if_pos hm]
          exact ⟨nofun, fun ⟨t, _, y, b, hb, _, hy, _⟩ => absurd ((cons.inj hb).1 ▸ hm) hy⟩
        · rw [if_neg hm]
          exact (ih _ s).trans <| exists_congr fun t => and_congr_right fun _ =>
            ⟨fun h => ⟨x, s, rfl, hx, hm, h⟩, fun ⟨y, b, hb, _, _, h⟩ => (cons.inj hb).2 ▸ h⟩
      rw [if_neg h3, if_neg h3]
      by_cases h4 : c = ch '\\' ∧ !noescape flags
      · rw [if_pos h4, if_pos h4, exists_map_cons, h4.1]
        exact hlit _ 1
      · rw [if_neg h4, if_neg h4, exists_map_cons]
        exact hlit c 0
    · exact ih skip s

end Bsd386.Libc.Gen
