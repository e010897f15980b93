import Bsd386.Libc.Gen.Fnmatch
import Mathlib.Data.List.Infix

/-!
# A component of a pattern in `glob`

`lib/libc/gen/glob.c`: `glob` marks the quoted characters of a pattern, `glob0` compiles it to 16-bit
codes, and `match` matches a name with the codes of a component. It is compared with `fnmatch`, through
the tokens of both.
-/

namespace Bsd386.Libc.Gen

open Lib.Bytes Vis List

/-- Source: Char in glob.c -/
abbrev Chr := BitVec 16

/-- A character as a `Char`. -/
def chr (c : Byte) : Chr := c.setWidth 16

def val (c : Chr) : Byte := c.setWidth 8

/-- Source: CHAR -/
def char (c : Chr) : Chr := c &&& 0x00ff

/-- Source: META -/
def metaChr (c : Char) : Chr := chr (ch c) ||| 0x8000

/-- The character is not quoted and is `b`. -/
def isChr (c : Chr) (b : Byte) : Bool := c == chr b

/-- The first loop of `glob`, with `GLOB_QUOTE`. Source: glob -/
def protect : List Byte → List Chr
  | [] => []
  | [c] => [if c = ch '\\' then chr c ||| 0x4000 else chr c]
  | c :: d :: p =>
    if c = ch '\\' then (chr d ||| 0x4000) :: protect p else chr c :: protect (d :: p)

/-- Source: MAXPATHLEN -/
def maxpathlen : ℕ := 1024

/-- The loop over a bracket expression: the codes of the members and what follows its `]`, which
`g_strchr` has found. The number is what `qpatnext += 2` still has to pass. Source: glob0 -/
def memberLoop : ℕ → Bool → List Chr → List Chr × List Chr
  | _, _, [] => ([], [])
  | skip + 1, first, _ :: p => memberLoop skip first p
  | 0, first, c :: p =>
    if isChr c (ch ']') ∧ !first then
      ([], p)
    else
      match rangeEnd isChr p with
      | some c2 =>
        let r := memberLoop 2 false p
        (char c :: metaChr '-' :: char c2 :: r.1, r.2)
      | none =>
        let r := memberLoop 0 false p
        (char c :: r.1, r.2)

/-- The codes of a pattern behind its first characters, where `last` is `bufnext[-1]`. Source: glob0 -/
def glob0 : ℕ → Option Chr → List Chr → List Chr
  | _, _, [] => []
  | skip + 1, last, _ :: p => glob0 skip last p
  | 0, last, c :: p =>
    if isChr c (ch '[') then
      let negate := p.head?.any (isChr · (ch '!'))
      let q := if negate then p.tail else p
      if q = [] ∨ chr (ch ']') ∉ q.tail then
        chr (ch '[') :: glob0 0 (some (chr (ch '['))) p
      else
        let r := memberLoop 0 true q
        metaChr '[' :: ((if negate then [metaChr '!'] else []) ++ (r.1 ++ metaChr ']' ::
          glob0 (past p r.2) (some (metaChr ']')) p))
    else if isChr c (ch '?') then
      metaChr '?' :: glob0 0 (some (metaChr '?')) p
    else if isChr c (ch '*') then
      -- collapse adjacent stars to one
      if last = some (metaChr '*') then
        glob0 0 last p
      else
        metaChr '*' :: glob0 0 (some (metaChr '*')) p
    else
      char c :: glob0 0 (some (char c)) p

/-- The loop over the codes of a bracket expression: `ok` and what follows `M_END`. Source: match -/
def setLoop (k : Chr) : ℕ → Bool → List Chr → Bool × List Chr
  | _, ok, [] => (ok, [])
  | skip + 1, ok, _ :: pat => setLoop k skip ok pat
  | 0, ok, c :: pat =>
    if c = metaChr ']' then
      (ok, pat)
    else if pat[0]? = some (metaChr '-') then
      setLoop k 2 (ok || c.ule k && k.ule (pat[1]?.getD 0)) pat
    else
      setLoop k 0 (ok || c == k) pat

/-- `match` behind the first codes of a component. Source: match -/
def gmatch : ℕ → List Chr → List Chr → Bool
  | _, [], name => name.isEmpty
  | skip + 1, _ :: pat, name => gmatch skip pat name
  | 0, c :: pat, name =>
    if c = metaChr '*' then
      if pat = [] then true else name.tails.any fun name => gmatch 0 pat name
    else if c = metaChr '?' then
      match name with
      | [] => false
      | _ :: name => gmatch 0 pat name
    else if c = metaChr '[' then
      match name with
      | [] => false
      | k :: name =>
        let negate := pat.head? == some (metaChr '!')
        let r := setLoop k 0 false (if negate then pat.tail else pat)
        if r.1 = negate then false else gmatch (past pat r.2) pat name
    else
      match name with
      | [] => false
      | k :: name => if k ≠ c then false else gmatch 0 pat name

/-- The pattern as `glob` reads it. Source: glob, glob0 -/
def globTokens (k : ℕ) (p : List Chr) : Option (List Tok) := parse isChr val true true false k p

/-! ## Codes -/

theorem toNat_chr (b : Byte) : (chr b).toNat = b.toNat := by
  have := b.isLt
  rw [chr, BitVec.toNat_setWidth]
  omega

theorem chr_ne_meta (b : Byte) {c : Chr} (hc : 256 ≤ c.toNat) : chr b ≠ c := by
  rintro rfl
  rw [toNat_chr] at hc
  have := b.isLt
  omega

theorem char_eq (c : Chr) : char c = chr (val c) := by
  apply BitVec.eq_of_toNat_eq
  rw [toNat_chr, val, BitVec.toNat_setWidth, char, BitVec.toNat_and]
  exact Nat.and_two_pow_sub_one_eq_mod c.toNat 8

theorem ule_chr (a b : Byte) : (chr a).ule (chr b) = a.ule b := by
  rw [Bool.eq_iff_iff, BitVec.ule_iff_toNat_le, BitVec.ule_iff_toNat_le, toNat_chr, toNat_chr]

theorem beq_chr (a b : Byte) : (chr a == chr b) = (a == b) := by
  rw [Bool.eq_iff_iff, beq_iff_eq, beq_iff_eq, ← BitVec.toNat_inj, toNat_chr, toNat_chr,
    BitVec.toNat_inj]

theorem ule_self_iff (c x : Byte) : (c.ule x && x.ule c) = (c == x) := by
  rw [Bool.eq_iff_iff, Bool.and_eq_true, BitVec.ule_iff_toNat_le, BitVec.ule_iff_toNat_le, beq_iff_eq,
    ← Nat.le_antisymm_iff, BitVec.toNat_inj]

theorem memberLoop_head {c : Chr} (hc : 256 ≤ c.toNat) (hne : metaChr ']' ≠ c) (skip : ℕ) (first : Bool)
    (q tail : List Chr) : ((memberLoop skip first q).1 ++ metaChr ']' :: tail)[0]? ≠ some c := by
  have hend (l : List Chr) : (metaChr ']' :: l)[0]? ≠ some c := fun h => hne (Option.some.inj h)
  induction q generalizing skip first with
  | nil => cases skip <;> exact hend _
  | cons d q ih =>
    obtain _ | skip := skip
    · have hd (l : List Chr) : (char d :: l)[0]? ≠ some c := fun h =>
        chr_ne_meta (val d) hc (char_eq d ▸ Option.some.inj h)
      unfold memberLoop
      split_ifs
      · exact hend _
      · split <;> exact hd _
    · exact ih skip first

theorem setLoop_memberLoop (x : Byte) (tail : List Chr) {skip : ℕ} {first : Bool} {q : List Chr}
    {r : List (Byte × Byte) × List Chr} (h : items isChr val skip first q = some r) (ok : Bool) :
    setLoop (chr x) 0 ok ((memberLoop skip first q).1 ++ metaChr ']' :: tail) =
      (ok || member BitVec.ule x r.1, tail) ∧ (memberLoop skip first q).2 = r.2 := by
  induction q generalizing skip first r ok with
  | nil => cases skip <;> cases h
  | cons c q ih =>
    obtain _ | skip := skip
    · unfold items at h
      unfold memberLoop
      by_cases hc : isChr c (ch ']') ∧ !first
      · rw [if_pos hc] at h ⊢
        obtain rfl := Option.some.inj h
        exact ⟨by rw [member, any_nil, Bool.or_false]; rfl, rfl⟩
      rw [if_neg hc] at h ⊢
      have hne : char c ≠ metaChr ']' := char_eq c ▸ chr_ne_meta (val c) (by decide)
      obtain hr | ⟨c2, hr⟩ := Option.eq_none_or_eq_some (rangeEnd isChr q)
      · rw [hr] at h ⊢
        obtain ⟨r2, hr2, rfl⟩ := Option.map_eq_some_iff.mp h
        obtain ⟨h1, h2⟩ := ih hr2 (ok || char c == chr x)
        refine ⟨?_, h2⟩
        have hhead := memberLoop_head (c := metaChr '-') (by decide) (by decide) 0 false q tail
        dsimp only
        rw [cons_append, setLoop, if_neg hne, if_neg hhead, h1, member, member, any_cons, ule_self_iff,
          Bool.or_assoc, char_eq, beq_chr]
      · rw [hr] at h ⊢
        obtain ⟨r2, hr2, rfl⟩ := Option.map_eq_some_iff.mp h
        obtain ⟨h1, h2⟩ := ih hr2 (ok || (char c).ule (chr x) && (chr x).ule (char c2))
        refine ⟨?_, h2⟩
        dsimp only
        rw [cons_append, cons_append, cons_append, setLoop, if_neg hne,
          if_pos (show (metaChr '-' :: _)[0]? = some (metaChr '-') from rfl)]
        refine h1.trans ?_
        rw [char_eq, char_eq, ule_chr, ule_chr, member, member, any_cons, Bool.or_assoc]
    · exact ih h ok

theorem not_mem_of_rangeEnd {q : List Chr} {c2 : Chr} (h : rangeEnd isChr q = some c2) :
    ∀ c ∈ q.take 2, c ≠ chr (ch ']') := by
  unfold rangeEnd at h
  obtain ⟨h1, h2⟩ | ⟨-, h2⟩ := ite_eq_iff.mp h
  · obtain _ | ⟨c, _ | ⟨d, q⟩⟩ := q
    · cases h1
    · cases h2
    · obtain ⟨hd2, hd⟩ := Option.filter_eq_some_iff.mp h2
      obtain rfl := Option.some.inj hd2
      have hc : c = chr (ch '-') := beq_iff_eq.mp h1
      rintro x hx rfl
      obtain rfl | hx := mem_cons.mp hx
      · exact absurd hc (by decide)
      · obtain rfl := mem_singleton.mp hx
        cases hd
  · cases h2

theorem items_eq_none_iff (q : List Chr) :
    items isChr val 0 true q = none ↔ q = [] ∨ chr (ch ']') ∉ q.tail := by
  have hstep {first : Bool} {c : Chr} {q : List Chr} (hc : ¬(isChr c (ch ']') ∧ !first))
      (ih : ∀ skip, (∀ c ∈ q.take skip, c ≠ chr (ch ']')) →
        (items isChr val skip false q = none ↔ chr (ch ']') ∉ q)) :
      items isChr val 0 first (c :: q) = none ↔ chr (ch ']') ∉ q := by
    rw [items, if_neg hc]
    obtain hr | ⟨c2, hr⟩ := Option.eq_none_or_eq_some (rangeEnd isChr q) <;> rw [hr]
    · exact Option.map_eq_none_iff.trans (ih 0 nofun)
    · exact Option.map_eq_none_iff.trans (ih 2 (not_mem_of_rangeEnd hr))
  have key (q : List Chr) : ∀ skip, (∀ c ∈ q.take skip, c ≠ chr (ch ']')) →
      (items isChr val skip false q = none ↔ chr (ch ']') ∉ q) := by
    induction q with
    | nil => exact fun skip _ => ⟨fun _ => not_mem_nil, fun _ => by cases skip <;> rfl⟩
    | cons c q ih =>
      intro skip hskip
      obtain _ | skip := skip
      · by_cases hc : c = chr (ch ']')
        · rw [items, if_pos ⟨beq_iff_eq.mpr hc, rfl⟩]
          exact ⟨nofun, fun h => absurd (mem_cons.mpr (.inl hc.symm)) h⟩
        · rw [hstep (fun h => hc (beq_iff_eq.mp h.1)) ih, mem_cons, not_or]
          exact ⟨fun h => ⟨Ne.symm hc, h⟩, And.right⟩
      · rw [take_succ_cons] at hskip
        rw [items, ih skip fun x hx => hskip x (mem_cons_of_mem _ hx), mem_cons, not_or]
        exact ⟨fun h => ⟨(hskip c mem_cons_self).symm, h⟩, And.right⟩
  obtain _ | ⟨c, q⟩ := q
  · exact ⟨fun _ => .inl rfl, fun _ => rfl⟩
  · rw [hstep (fun h => Bool.noConfusion h.2) (key q)]
    exact ⟨.inr, fun h => h.resolve_left nofun⟩

theorem drop_past {γ : Type} (a b : List γ) : (a ++ b).drop (past (a ++ b) b) = b := by
  rw [past, length_append, Nat.add_sub_cancel, drop_left]

theorem gmatch_drop (k : ℕ) (pat name : List Chr) : gmatch k pat name = gmatch 0 (pat.drop k) name := by
  induction pat generalizing k with
  | nil => cases k <;> rfl
  | cons c pat ih =>
    obtain _ | k := k
    · rfl
    · exact ih k

/-! ## The matcher -/

theorem gmatch_lit (b : Byte) (pat : List Chr) (s : List Byte) :
    gmatch 0 (chr b :: pat) (s.map chr) = true ↔
      ∃ b2, s = b :: b2 ∧ gmatch 0 pat (b2.map chr) = true := by
  have hb (c : Chr) (hc : 256 ≤ c.toNat) : chr b ≠ c := chr_ne_meta b hc
  rw [gmatch.eq_def]
  dsimp only
  rw [if_neg (hb _ (by decide)), if_neg (hb _ (by decide)), if_neg (hb _ (by decide))]
  obtain _ | ⟨x, s⟩ := s
  · exact ⟨nofun, fun ⟨_, h, _⟩ => nomatch h⟩
  by_cases hx : x = b
  · subst hx
    exact (iff_of_eq (congrArg (· = true) (if_neg fun h => h rfl))).trans
      ⟨fun h => ⟨s, rfl, h⟩, fun ⟨_, h, h2⟩ => (cons.inj h).2 ▸ h2⟩
  refine iff_of_false (fun h => ?_) fun ⟨_, h, _⟩ => hx (cons.inj h).1
  have hne : chr x ≠ chr b := fun h =>
    hx (BitVec.toNat_inj.mp (toNat_chr b ▸ toNat_chr x ▸ congrArg _ h))
  rw [map_cons] at h
  exact Bool.noConfusion ((if_pos hne).symm.trans h)

theorem gmatch_star (pat : List Chr) (s : List Byte) :
    gmatch 0 (metaChr '*' :: pat) (s.map chr) = true ↔
      ∃ a b, s = a ++ b ∧ gmatch 0 pat (b.map chr) = true := by
  have hrun := (gmatch.eq_def 0 (metaChr '*' :: pat) (s.map chr)).trans (if_pos rfl)
  rw [hrun]
  by_cases hp : pat = []
  · rw [if_pos hp, hp]
    exact iff_of_true rfl ⟨s, [], (append_nil s).symm, rfl⟩
  rw [if_neg hp, any_eq_true]
  constructor
  · rintro ⟨x, hx, h⟩
    obtain ⟨a, ha⟩ := (mem_tails ..).mp hx
    obtain ⟨a2, b, hs, -, rfl⟩ := map_eq_append_iff.mp ha.symm
    exact ⟨a2, b, hs, h⟩
  · rintro ⟨a, b, rfl, h⟩
    exact ⟨b.map chr, (mem_tails ..).mpr (map_append ▸ suffix_append ..), h⟩

theorem gmatch_set (negate : Bool) (pat : List Chr) {q : List Chr} {r : List (Byte × Byte) × List Chr}
    (h : items isChr val 0 true q = some r) (s : List Byte) :
    gmatch 0 (metaChr '[' :: ((if negate then [metaChr '!'] else []) ++
        ((memberLoop 0 true q).1 ++ metaChr ']' :: pat))) (s.map chr) = true ↔
      ∃ x b, s = x :: b ∧ member BitVec.ule x r.1 ≠ negate ∧ gmatch 0 pat (b.map chr) = true := by
  have hhead := memberLoop_head (c := metaChr '!') (by decide) (by decide) 0 true q pat
  have hset (x : Byte) := (setLoop_memberLoop x pat h false).1
  have hpast (a : List Chr) : (a ++ ((memberLoop 0 true q).1 ++ metaChr ']' :: pat)).drop
      (past (a ++ ((memberLoop 0 true q).1 ++ metaChr ']' :: pat)) pat) = pat := by
    rw [append_cons, ← append_assoc, ← append_assoc, drop_past]
  generalize (memberLoop 0 true q).1 ++ metaChr ']' :: pat = l at *
  have hneg : (((if negate then [metaChr '!'] else []) ++ l).head? == some (metaChr '!')) = negate := by
    cases negate
    · exact beq_eq_false_iff_ne.mpr (head?_eq_getElem? ▸ hhead)
    · rfl
  have hrest : (if negate then ((if negate then [metaChr '!'] else []) ++ l).tail
      else (if negate then [metaChr '!'] else []) ++ l) = l := by cases negate <;> rfl
  have hpast := hpast (if negate then [metaChr '!'] else [])
  generalize (if negate then [metaChr '!'] else []) ++ l = pattern at *
  rw [gmatch.eq_def]
  dsimp only
  rw [if_neg (by decide), if_neg (by decide), if_pos rfl, hneg, hrest]
  obtain _ | ⟨x, s⟩ := s
  · exact iff_of_false nofun fun ⟨_, _, h, _⟩ => nomatch h
  rw [map_cons]
  dsimp only
  rw [hset, gmatch_drop, hpast, Bool.false_or]
  by_cases hx : member BitVec.ule x r.1 = negate
  · rw [if_pos hx]
    exact iff_of_false nofun fun ⟨_, _, h, hne, _⟩ => hne ((cons.inj h).1 ▸ hx)
  · rw [if_neg hx]
    exact ⟨fun h => ⟨x, s, rfl, hx, h⟩, fun ⟨_, _, h, _, h2⟩ => (cons.inj h).2 ▸ h2⟩

theorem glob0_star {c : Chr} (hc : c ≠ chr (ch '*')) (p : List Chr) (last : Option Chr) :
    glob0 0 last (c :: p) = glob0 0 none (c :: p) := by
  have hstar : ¬isChr c (ch '*') := fun h => hc (beq_iff_eq.mp h)
  rw [glob0, if_neg hstar, glob0, if_neg hstar]

theorem gmatch_glob0 (p : List Chr) (k : ℕ) (s : List Byte) :
    (∀ last, last ≠ some (metaChr '*') → (gmatch 0 (glob0 k last p) (s.map chr) = true ↔
      ∃ t, globTokens k p = some t ∧ Lang BitVec.ule false t s)) ∧
    (gmatch 0 (metaChr '*' :: glob0 k (some (metaChr '*')) p) (s.map chr) = true ↔
      ∃ t, globTokens k p = some t ∧ Lang BitVec.ule false (.star :: t) s) := by
  have hslash (x : Prop) : ¬(x ∧ false) := fun h => Bool.noConfusion h.2
  induction p generalizing k s with
  | nil =>
    have hnil : globTokens k [] = some [] := by cases k <;> rfl
    have hcodes (last : Option Chr) : glob0 k last [] = [] := by cases k <;> rfl
    rw [hnil, hcodes]
    refine ⟨fun last _ => ?_, iff_of_true ?_ ⟨[], rfl, s, [], (append_nil s).symm, hslash _, rfl⟩⟩
    · rw [hcodes, gmatch, isEmpty_map, List.isEmpty_iff]
      refine ⟨fun h => ⟨[], rfl, h⟩, ?_⟩
      rintro ⟨t, ht, h⟩
      rwa [← Option.some.inj ht] at h
    · exact (gmatch_star [] s).mpr ⟨s, [], (append_nil s).symm, rfl⟩
  | cons c p ih =>
    obtain _ | k := k
    · have hlit (b : Byte) (last : Option Chr) (hlast : last ≠ some (metaChr '*')) (s : List Byte) :
          gmatch 0 (chr b :: glob0 0 last p) (s.map chr) = true ↔
            ∃ t, (globTokens 0 p).map (.lit b :: ·) = some t ∧ Lang BitVec.ule false t s := by
        rw [gmatch_lit, exists_map_cons]
        constructor
        · rintro ⟨a, rfl, h⟩
          obtain ⟨t, ht, h⟩ := ((ih 0 a).1 last hlast).mp h
          exact ⟨t, ht, a, rfl, h⟩
        · rintro ⟨t, ht, a, rfl, h⟩
          exact ⟨a, rfl, ((ih 0 a).1 last hlast).mpr ⟨t, ht, h⟩⟩
      have hplain (s : List Byte) (last : Option Chr) (hlast : last ≠ some (metaChr '*')) :
          gmatch 0 (glob0 0 last (c :: p)) (s.map chr) = true ↔
            ∃ t, globTokens 0 (c :: p) = some t ∧ Lang BitVec.ule false t s := by
        rw [globTokens, parse, glob0]
        by_cases hopen : isChr c (ch '[')
        · obtain rfl : c = chr (ch '[') := beq_iff_eq.mp hopen
          have hone : ¬isChr (chr (ch '[')) (ch '?') := by decide
          have hstar : ¬isChr (chr (ch '[')) (ch '*') := by decide
          rw [if_pos hopen, if_neg hone, if_neg hstar, if_pos hopen, bracket]
          dsimp only
          generalize p.head?.any (isChr · (ch '!')) = negate
          by_cases hq : (if negate then p.tail else p) = [] ∨
              chr (ch ']') ∉ (if negate then p.tail else p).tail
          · rw [if_pos hq, (items_eq_none_iff _).mpr hq]
            exact hlit (ch '[') _ (by decide) s
          obtain ⟨r, hr⟩ := Option.ne_none_iff_exists'.mp (mt (items_eq_none_iff _).mp hq)
          rw [if_neg hq, hr, gmatch_set negate _ hr, (setLoop_memberLoop 0 [] hr false).2]
          refine Iff.trans ?_ exists_map_cons.symm
          constructor
          · rintro ⟨x, a, rfl, hx, h⟩
            obtain ⟨t, ht, h⟩ := ((ih _ a).1 _ (by decide)).mp h
            exact ⟨t, ht, x, a, rfl, hslash _, hx, h⟩
          · rintro ⟨t, ht, x, a, rfl, -, hx, h⟩
            exact ⟨x, a, rfl, hx, ((ih _ a).1 _ (by decide)).mpr ⟨t, ht, h⟩⟩
        · rw [if_neg hopen]
          by_cases hone : isChr c (ch '?')
          · rw [if_pos hone, if_pos hone, exists_map_cons]
            obtain _ | ⟨x, s⟩ := s
            · refine iff_of_false (by rintro ⟨_, _, ⟨⟩, _⟩) ?_
              rintro ⟨_, _, h⟩
              cases eq_star_of_lang h
            · refine ((ih 0 s).1 _ (by decide)).trans <| exists_congr fun t => and_congr_right fun _ =>
                ⟨fun h => ⟨x, s, rfl, hslash _, h⟩, ?_⟩
              rintro ⟨_, _, h, _, h2⟩
              exact (cons.inj h).2 ▸ h2
          rw [if_neg hone, if_neg hone]
          by_cases hstar : isChr c (ch '*')
          · rw [if_pos hstar, if_pos hstar, if_neg hlast, exists_map_cons]
            exact (ih 0 s).2
          · rw [if_neg hstar, if_neg hstar, if_neg hopen, if_neg (hslash _), char_eq]
            exact hlit (val c) _ (fun h => chr_ne_meta (val c) (by decide) (Option.some.inj h)) s
      refine ⟨hplain s, ?_⟩
      by_cases hc : c = chr (ch '*')
      · subst hc
        have hcons : globTokens 0 (chr (ch '*') :: p) = (globTokens 0 p).map (.star :: ·) := rfl
        rw [hcons, exists_map_cons]
        exact (ih 0 s).2.trans <| exists_congr fun t => and_congr_right fun _ => lang_star_star.symm
      rw [glob0_star hc, gmatch_star]
      constructor
      · rintro ⟨a, b, rfl, h⟩
        obtain ⟨t, ht, h⟩ := (hplain b none (by rintro ⟨⟩)).mp h
        exact ⟨t, ht, a, b, rfl, hslash _, h⟩
      · rintro ⟨t, ht, a, b, rfl, -, h⟩
        exact ⟨a, b, rfl, (hplain b none (by rintro ⟨⟩)).mpr ⟨t, ht, h⟩⟩
    · exact ih k s

/-! ## The two matchers -/

/-- What `glob` finds of a name: whether the codes of the pattern match it. Source: glob, glob0, match -/
def globMatch (p name : List Byte) : Bool :=
  gmatch 0 (glob0 0 none ((protect p).take maxpathlen)) (name.map chr)

/-- The ends of the ranges are both ASCII or both not, so that a signed `char` keeps their order. -/
def Tok.Plain : Tok → Prop
  | .set _ ranges => ∀ r ∈ ranges, r.1.msb = r.2.msb
  | _ => True

/-- `glob` and `fnmatch` read the pattern in the same way. -/
def SameReading (p : List Byte) : Prop :=
  globTokens 0 ((protect p).take maxpathlen) = tokens true 0 p ∧
    ∀ t, tokens true 0 p = some t → ∀ k ∈ t, k.Plain

/-- `glob` and `fnmatch` with `FNM_PATHNAME` accept the same names. Source: none: what is claimed. -/
def SameNames (p : List Byte) : Prop :=
  ∀ name, name ≠ [] → ch '/' ∉ name → name.head? ≠ some (ch '.') →
    (globMatch p name = true ↔ fnmatch 0x02 0 p name = 0)

theorem ule_range_eq {a b : Byte} (h : a.msb = b.msb) (x : Byte) :
    (a.ule x && x.ule b) = (a.sle x && x.sle b) := by
  have ha := BitVec.toInt_eq_toNat_cond a
  have hb := BitVec.toInt_eq_toNat_cond b
  have hx := BitVec.toInt_eq_toNat_cond x
  rw [BitVec.msb_eq_decide, BitVec.msb_eq_decide, decide_eq_decide] at h
  rw [Bool.eq_iff_iff, Bool.and_eq_true, Bool.and_eq_true, BitVec.ule_iff_toNat_le,
    BitVec.ule_iff_toNat_le, BitVec.sle_iff_toInt_le, BitVec.sle_iff_toInt_le]
  have := a.isLt
  have := b.isLt
  have := x.isLt
  omega

theorem lang_congr {t : List Tok} (ht : ∀ k ∈ t, k.Plain) {s : List Byte} (hs : ch '/' ∉ s) :
    Lang BitVec.ule false t s ↔ Lang BitVec.sle true t s := by
  have hfalse (x : Prop) : ¬(x ∧ false) := fun h => Bool.noConfusion h.2
  induction t generalizing s with
  | nil => rfl
  | cons k t ih =>
    have ht2 : ∀ k ∈ t, k.Plain := fun k hk => ht k (mem_cons_of_mem _ hk)
    have hstep {x : Byte} {b : List Byte} (h : s = x :: b) :
        (Lang BitVec.ule false t b ↔ Lang BitVec.sle true t b) ∧ ¬(x = ch '/' ∧ true) := by
      rw [h, mem_cons, not_or] at hs
      exact ⟨ih ht2 hs.2, fun hx => hs.1 hx.1.symm⟩
    cases k with
    | lit c => exact exists_congr fun b => and_congr_right fun h => (hstep h).1
    | one =>
      refine exists_congr fun x => exists_congr fun b => and_congr_right fun h => ?_
      exact and_congr (iff_of_true (hfalse _) (hstep h).2) (hstep h).1
    | star =>
      refine exists_congr fun a => exists_congr fun b => and_congr_right fun h => ?_
      rw [h, mem_append, not_or] at hs
      exact and_congr (iff_of_true (hfalse _) fun hx => hs.1 hx.1) (ih ht2 hs.2)
    | set negate ranges =>
      refine exists_congr fun x => exists_congr fun b => and_congr_right fun h => ?_
      have hmem : member BitVec.ule x ranges = member BitVec.sle x ranges := by
        rw [member, member, Bool.eq_iff_iff, any_eq_true, any_eq_true]
        exact exists_congr fun r => and_congr_right fun hr => by
          rw [ule_range_eq (ht _ mem_cons_self r hr) x]
      rw [hmem]
      exact and_congr (iff_of_true (hfalse _) (hstep h).2) (and_congr_right fun _ => (hstep h).1)

end Bsd386.Libc.Gen
