import Bsd386.Libc.Vis.Basic
import Mathlib.Data.List.TakeWhile

/-!
# `unvis` undoes `vis`

`strunvis` gives back the bytes that `strvisx` or `strvis` encoded, and the encoding of `n` bytes has
at most `4 * n` (`strunvis_strvis`), for all flags but `VIS_NOSLASH`.

The route: the encoding of a byte has one of a few shapes (`Shape`, `shape_vis`). Each is decoded to
the byte, but for `\0` in front of a character that is no octal digit: there the decoder still waits
for a digit, and the next character is pushed back (`Decoded`, `Shape.decode`).
-/

namespace Bsd386.Libc.Vis

open List Lib.Bytes

variable {L : Locale} {flag : BitVec 32} {b n x : Byte} {s : List Byte} {junk : Mem} {d : Decoder}

/-! ## The shapes of an encoding -/

/-- The encoding of `b` in front of `n`, each escape by what the decoder makes of it.
Source: vis -/
inductive Shape : Byte → Byte → List Byte → Prop where
  | plain {b n : Byte} : b ≠ ch '\\' → b ≠ 0 → Shape b n [b]
  | letter {b n x : Byte} : x ≠ 0 → unvisStart 0 x = (.valid, b, .sGround) → Shape b n [ch '\\', x]
  | nul {n : Byte} : isoctal n = false → Shape 0 n [ch '\\', ch '0']
  | octal {b n : Byte} : Shape b n (octal b)
  | ctrl {b n x : Byte} : x ≠ 0 → unvis 0 x .sCtrl = (.valid, b, .sGround) →
      Shape b n [ch '\\', ch '^', x]
  | metaCtrl {b n x : Byte} : x ≠ 0 → unvis 0x80 x .sCtrl = (.valid, b, .sGround) →
      Shape b n [ch '\\', ch 'M', ch '^', x]
  | metaChar {b n x : Byte} : x ≠ 0 → 0x80 ||| x = b → Shape b n [ch '\\', ch 'M', ch '-', x]

theorem setWidth_signExtend (b : Byte) : (b.signExtend 32).setWidth 8 = b := by
  revert b
  decide

theorem eq_of_signExtend_eq {c : BitVec 32} (h : b.signExtend 32 = c) : b = c.setWidth 8 := by
  rw [← h, setWidth_signExtend]

theorem ne_zero_of_plain (h : plain L (b.signExtend 32) flag) : b ≠ 0 := by
  rintro rfl
  rcases h with ⟨-, hgraph⟩ | ⟨-, hc⟩ | ⟨-, hc⟩ | ⟨-, hc⟩ | ⟨-, hc | hc | hc⟩
  · rw [L.isgraph_ascii (by decide)] at hgraph
    exact absurd hgraph (by decide)
  all_goals exact absurd hc (by decide)

theorem shape_cstyle (h : cstyle (b.signExtend 32) (n.signExtend 32) = some s) : Shape b n s := by
  rw [cstyle, setWidth_signExtend] at h
  split_ifs at h with h1 h2 h3 h4 h5 h6 h7 h8 h9 h10 <;> obtain rfl := Option.some.inj h
  case pos => exact eq_of_signExtend_eq h1 ▸ .letter (by decide) (by decide)
  case pos => exact eq_of_signExtend_eq h2 ▸ .letter (by decide) (by decide)
  case pos => exact eq_of_signExtend_eq h3 ▸ .letter (by decide) (by decide)
  case pos => exact eq_of_signExtend_eq h4 ▸ .letter (by decide) (by decide)
  case pos => exact eq_of_signExtend_eq h5 ▸ .letter (by decide) (by decide)
  case pos => exact eq_of_signExtend_eq h6 ▸ .letter (by decide) (by decide)
  case pos => exact eq_of_signExtend_eq h7 ▸ .letter (by decide) (by decide)
  case pos => exact eq_of_signExtend_eq h8 ▸ .letter (by decide) (by decide)
  case pos =>
    obtain rfl := eq_of_signExtend_eq h9
    exact .octal
  case neg =>
    obtain rfl := eq_of_signExtend_eq h9
    exact .nul (Bool.eq_false_iff.mpr h10)

theorem unvis_metaCtrl : ∀ b : Byte, b.signExtend 32 &&& 0x80 ≠ 0 →
    (b.signExtend 32 &&& 0x7f ≤ 0x1f ∨ b.signExtend 32 &&& 0x7f = 0x7f) →
      unvis 0x80 (if b.signExtend 32 &&& 0x7f = 0x7f then ch '?'
        else ((b.signExtend 32 &&& 0x7f) + int '@').setWidth 8) .sCtrl = (.valid, b, .sGround) := by
  decide

theorem unvis_ctrl : ∀ b : Byte, b.signExtend 32 &&& 0x80 = 0 →
    (b.signExtend 32 ≤ 0x1f ∨ b.signExtend 32 = 0x7f) →
      unvis 0 (if b.signExtend 32 = 0x7f then ch '?'
        else (b.signExtend 32 + int '@').setWidth 8) .sCtrl = (.valid, b, .sGround) := by
  decide

theorem metaChar_spec : ∀ b : Byte, b.signExtend 32 &&& 0x80 ≠ 0 →
    0x80 ||| (b.signExtend 32 &&& 0x7f).setWidth 8 = b := by
  decide

theorem ascii_of_and (b : Byte) : b.signExtend 32 &&& 0x7f < 128 := by
  revert b
  decide

theorem ascii_of_not_meta : ∀ b : Byte, b.signExtend 32 &&& 0x80 = 0 →
    b.signExtend 32 < 128 ∧ b.signExtend 32 &&& 0x7f = b.signExtend 32 := by
  decide

theorem ctrl_ne_zero {c : BitVec 32} (hc : c ≤ 0x1f ∨ c = 0x7f) :
    (if c = 0x7f then ch '?' else (c + int '@').setWidth 8) ≠ 0 := by
  by_cases h : c = 0x7f
  · rw [if_pos h]
    decide
  rw [if_neg h]
  have hle : c ≤ 0x1f := hc.resolve_right h
  intro hzero
  have hnat := congrArg BitVec.toNat hzero
  have hint : (int '@').toNat = 64 := rfl
  have hz : (0 : Byte).toNat = 0 := rfl
  rw [BitVec.toNat_setWidth, BitVec.toNat_add, hint, hz] at hnat
  have hc' : c.toNat ≤ 31 := hle
  omega

/-- **The other escapes.** A character that comes here without its high bit is a control character. -/
theorem shape_metaChar (hslash : flag &&& visNoslash = 0) (hplain : ¬ plain L (b.signExtend 32) flag)
    (hspace : b.signExtend 32 &&& 0x7f ≠ int ' ') : Shape b n (metaChar L (b.signExtend 32) flag) := by
  rw [metaChar, if_pos hslash]
  have hascii := ascii_of_and b
  by_cases hmeta : b.signExtend 32 &&& 0x80 ≠ 0
  · rw [if_pos hmeta, if_pos hmeta]
    by_cases hctrl : L.iscntrl (b.signExtend 32 &&& 0x7f) = true
    · rw [if_pos hctrl]
      rw [L.iscntrl_ascii hascii, decide_eq_true_eq] at hctrl
      exact .metaCtrl (ctrl_ne_zero hctrl) (unvis_metaCtrl b hmeta hctrl)
    rw [if_neg hctrl]
    rw [L.iscntrl_ascii hascii, decide_eq_true_eq, not_or] at hctrl
    refine .metaChar ?_ (metaChar_spec b hmeta)
    generalize b.signExtend 32 &&& 0x7f = c at hascii hctrl
    intro hzero
    have hnat := congrArg BitVec.toNat hzero
    rw [BitVec.toNat_setWidth] at hnat
    bv_omega
  · rw [if_neg hmeta, if_neg hmeta]
    rw [not_not] at hmeta
    obtain ⟨hlt, hand⟩ := ascii_of_not_meta b hmeta
    have hctrl : b.signExtend 32 ≤ 0x1f ∨ b.signExtend 32 = 0x7f := by
      by_contra hctrl
      refine hplain (.inl ⟨?_, ?_⟩)
      · bv_omega
      · rw [L.isgraph_ascii hlt, decide_eq_true_eq]
        rw [hand] at hspace
        have hint : int ' ' = 0x20 := rfl
        rw [hint] at hspace
        bv_omega
    rw [if_pos (by rw [L.iscntrl_ascii hlt, decide_eq_true_eq]; exact hctrl)]
    exact .ctrl (ctrl_ne_zero hctrl) (unvis_ctrl b hmeta hctrl)

theorem shape_vis (hslash : flag &&& visNoslash = 0) :
    Shape b n (vis L (b.signExtend 32) flag (n.signExtend 32)) := by
  rw [vis]
  by_cases hplain : plain L (b.signExtend 32) flag
  · rw [if_pos hplain, setWidth_signExtend]
    by_cases hback : b.signExtend 32 = int '\\'
    · rw [if_pos ⟨hback, hslash⟩]
      obtain rfl := eq_of_signExtend_eq hback
      exact .letter (by decide) (by decide)
    rw [if_neg fun h => hback h.1]
    refine .plain ?_ (ne_zero_of_plain hplain)
    rintro rfl
    exact hback (by decide)
  rw [if_neg hplain]
  have hother : Shape b n (if b.signExtend 32 &&& 0x7f = int ' ' ∨ flag &&& visOctal ≠ 0 then
      octal ((b.signExtend 32).setWidth 8) else metaChar L (b.signExtend 32) flag) := by
    by_cases hoctal : b.signExtend 32 &&& 0x7f = int ' ' ∨ flag &&& visOctal ≠ 0
    · rw [if_pos hoctal, setWidth_signExtend]
      exact .octal
    · rw [if_neg hoctal]
      exact shape_metaChar hslash hplain fun h => hoctal (.inl h)
  by_cases hc : flag &&& visCstyle ≠ 0
  · rw [if_pos hc]
    cases hs : cstyle (b.signExtend 32) (n.signExtend 32) with
    | some s => exact shape_cstyle hs
    | none => exact hother
  · rw [if_neg hc]
    exact hother

namespace Shape

theorem length_le (h : Shape b n s) : s.length ≤ 4 := by
  cases h <;> simp [Vis.octal]

theorem notMem_zero (h : Shape b n s) : (0 : Byte) ∉ s := by
  have hdigit : ∀ c : Byte, (c &&& 7) + ch '0' ≠ 0 := by decide
  cases h with
  | plain _ h0 => simpa using h0.symm
  | letter h0 _ => simpa [ch] using h0.symm
  | nul _ => decide
  | octal =>
    simp only [Vis.octal, mem_cons, not_or]
    exact ⟨by decide, (hdigit _).symm, (hdigit _).symm, (hdigit _).symm, not_mem_nil⟩
  | ctrl h0 _ => simpa [ch] using h0.symm
  | metaCtrl h0 _ => simpa [ch] using h0.symm
  | metaChar h0 _ => simpa [ch] using h0.symm

theorem exists_cons (h : Shape b n s) : ∃ x l, s = x :: l ∧ (x = b ∨ x = ch '\\') := by
  cases h <;> first | exact ⟨_, _, rfl, .inl rfl⟩ | exact ⟨_, _, rfl, .inr rfl⟩

end Shape

/-! ## Decoding -/

/-- The decoder after the encoding of `done` in front of `n`: all of it is decoded, or the last byte, a
NUL, waits for a digit that does not come. Source: strunvis -/
inductive Decoded (junk : Mem) : List Byte → Byte → Decoder → Prop where
  | all {done : List Byte} {n : Byte} : Decoded junk done n ⟨done, junk done.length, .sGround⟩
  | waits {done : List Byte} {n : Byte} : isoctal n = false →
      Decoded junk (done ++ [0]) n ⟨done, 0, .sOctal2⟩

section feed

variable {m : ℕ} {c cp : Byte} {st : Astate}

theorem feed_valid (h : unvis d.cell c d.state = (.valid, cp, st)) :
    Decoder.feed junk (m + 1) d c = some ⟨d.out ++ [cp], junk (d.out.length + 1), st⟩ := by
  rw [Decoder.feed, h]
  rfl

theorem feed_more (h : unvis d.cell c d.state = (.more, cp, st)) :
    Decoder.feed junk (m + 1) d c = some ⟨d.out, cp, st⟩ := by
  rw [Decoder.feed, h]

theorem feed_validpush (h : unvis d.cell c d.state = (.validpush, cp, st)) :
    Decoder.feed junk (m + 1) d c =
      Decoder.feed junk m ⟨d.out ++ [cp], junk (d.out.length + 1), st⟩ c := by
  rw [Decoder.feed, h]
  rfl

theorem feed_ground (out : List Byte) (cell : Byte) :
    Decoder.feed junk (m + 1) ⟨out, cell, .sGround⟩ c = Decoder.feed junk 1 ⟨out, cell, .sGround⟩ c := by
  by_cases hc : c = ch '\\'
  · have hmore : unvis cell c .sGround = (.more, 0, .sStart) := if_pos hc
    rw [feed_more hmore, feed_more (m := 0) hmore]
  · have hvalid : unvis cell c .sGround = (.valid, c, .sGround) := if_neg hc
    rw [feed_valid hvalid, feed_valid (m := 0) hvalid]

theorem foldlM_feed {d' : Decoder} {l : List Byte} (h : Decoder.feed junk 2 d c = some d') :
    (c :: l).foldlM (Decoder.feed junk 2) d = l.foldlM (Decoder.feed junk 2) d' := by
  rw [foldlM_cons, h]
  rfl

theorem foldlM_backslash {out l : List Byte} {cell : Byte} :
    (ch '\\' :: l).foldlM (Decoder.feed junk 2) ⟨out, cell, .sGround⟩ =
      l.foldlM (Decoder.feed junk 2) ⟨out, 0, .sStart⟩ :=
  foldlM_feed (feed_more rfl)

end feed

theorem octal_digits : ∀ b : Byte,
    unvis 0 ((b >>> 6 &&& 7) + ch '0') .sStart = (.more, b >>> 6, .sOctal2) ∧
      unvis (b >>> 6) ((b >>> 3 &&& 7) + ch '0') .sOctal2 = (.more, b >>> 3, .sOctal3) ∧
      unvis (b >>> 3) ((b &&& 7) + ch '0') .sOctal3 = (.valid, b, .sGround) := by
  decide

theorem Shape.decode (junk : Mem) (h : Shape b n s) (done : List Byte) (cell : Byte) :
    ∃ d, s.foldlM (Decoder.feed junk 2) ⟨done, cell, .sGround⟩ = some d ∧
      Decoded junk (done ++ [b]) n d := by
  have hall : Decoded junk (done ++ [b]) n ⟨done ++ [b], junk (done.length + 1), .sGround⟩ := by
    have hlen : done.length + 1 = (done ++ [b]).length := by rw [length_append]; rfl
    rw [hlen]
    exact .all
  cases h with
  | plain hback _ =>
    have hb : unvis cell b .sGround = (.valid, b, .sGround) := if_neg hback
    exact ⟨_, foldlM_feed (feed_valid hb), hall⟩
  | @letter _ _ x _ hx =>
    have hx' : unvis 0 x .sStart = (.valid, b, .sGround) := hx
    refine ⟨_, ?_, hall⟩
    rw [foldlM_backslash, foldlM_feed (feed_valid hx')]
    rfl
  | nul hn =>
    refine ⟨⟨done, 0, .sOctal2⟩, ?_, .waits hn⟩
    rw [foldlM_backslash]
    rfl
  | octal =>
    obtain ⟨h1, h2, h3⟩ := octal_digits b
    refine ⟨_, ?_, hall⟩
    rw [Vis.octal, foldlM_backslash, foldlM_feed (feed_more h1), foldlM_feed (feed_more h2),
      foldlM_feed (feed_valid h3)]
    rfl
  | ctrl _ hx =>
    refine ⟨_, ?_, hall⟩
    rw [foldlM_backslash, foldlM_feed (feed_more rfl), foldlM_feed (feed_valid hx)]
    rfl
  | metaCtrl _ hx =>
    refine ⟨_, ?_, hall⟩
    rw [foldlM_backslash, foldlM_feed (feed_more rfl), foldlM_feed (feed_more rfl),
      foldlM_feed (feed_valid hx)]
    rfl
  | @metaChar _ _ x _ hx =>
    have hx' : unvis 0x80 x .sMeta1 = (.valid, b, .sGround) := by rw [← hx]; rfl
    refine ⟨_, ?_, hall⟩
    rw [foldlM_backslash, foldlM_feed (feed_more rfl), foldlM_feed (feed_more rfl),
      foldlM_feed (feed_valid hx')]
    rfl

/-- **The encoding of a byte** after that of others: where the decoder waits, the first character is
pushed back. -/
theorem Decoded.next {done : List Byte} (hd : Decoded junk done b d) (h : Shape b n s) :
    ∃ d', s.foldlM (Decoder.feed junk 2) d = some d' ∧ Decoded junk (done ++ [b]) n d' := by
  cases hd with
  | all => exact h.decode junk done _
  | @waits done _ hb =>
    obtain ⟨x, l, rfl, hx⟩ := h.exists_cons
    have hoctal : isoctal x = false := by
      rcases hx with rfl | rfl
      · exact hb
      · decide
    have hpush : unvis 0 x .sOctal2 = (.validpush, 0, .sGround) := by
      rw [unvis, if_neg (Bool.eq_false_iff.mp hoctal)]
    obtain ⟨d', hrun, hdone⟩ := h.decode junk (done ++ [0]) (junk (done.length + 1))
    refine ⟨d', ?_, hdone⟩
    rw [← hrun, foldlM_cons, foldlM_cons, feed_validpush hpush, feed_ground (m := 1)]

/-! ## Strings -/

theorem strvisx_cons (src : List Byte) : strvisx L (b :: src) flag =
    vis L (b.signExtend 32) flag ((src.headD 0).signExtend 32) ++ strvisx L src flag := by
  cases src with
  | nil =>
    rw [strvisx, strvisx, append_nil]
    rfl
  | cons next src => rfl

theorem strvis_eq {src : List Byte} (h : (0 : Byte) ∉ src) :
    strvis L src flag = strvisx L src flag := by
  induction src with
  | nil => rfl
  | cons c src ih =>
    obtain ⟨hc, hsrc⟩ := ne_and_not_mem_of_not_mem_cons h
    rw [strvis, if_neg (Ne.symm hc), strvisx_cons, ih hsrc]

theorem strvisx_bounds (hslash : flag &&& visNoslash = 0) (src : List Byte) :
    (0 : Byte) ∉ strvisx L src flag ∧ (strvisx L src flag).length ≤ 4 * src.length := by
  induction src with
  | nil => exact ⟨not_mem_nil, Nat.le_refl 0⟩
  | cons c src ih =>
    have hshape : Shape c (src.headD 0) _ := shape_vis (L := L) hslash
    have hlen := hshape.length_le
    rw [strvisx_cons]
    constructor
    · rw [mem_append, not_or]
      exact ⟨hshape.notMem_zero, ih.1⟩
    · rw [length_append, length_cons]
      omega

theorem Decoded.run (hslash : flag &&& visNoslash = 0) {src done : List Byte}
    (hd : Decoded junk done (src.headD 0) d) :
    ∃ d', (strvisx L src flag).foldlM (Decoder.feed junk 2) d = some d' ∧
      Decoded junk (done ++ src) 0 d' := by
  induction src generalizing done d with
  | nil => exact ⟨d, rfl, by rw [append_nil]; exact hd⟩
  | cons c src ih =>
    obtain ⟨d1, hrun1, hd1⟩ := hd.next (shape_vis (L := L) (n := src.headD 0) hslash)
    obtain ⟨d', hrun, hd'⟩ := ih hd1
    refine ⟨d', ?_, ?_⟩
    · rw [strvisx_cons, foldlM_append]
      dsimp only [headD_cons] at hrun1
      rw [hrun1]
      exact hrun
    · rwa [append_assoc] at hd'

theorem Decoded.finish {done : List Byte} (hd : Decoded junk done n d) :
    (if unvisEnd d.state = .valid then d.out ++ [d.cell] else d.out) = done := by
  cases hd with
  | all => exact if_neg nofun
  | waits _ => exact if_pos rfl

theorem strunvis_strvisx (hslash : flag &&& visNoslash = 0) (src : List Byte) :
    strunvis junk (strvisx L src flag) = some src := by
  have hnul : (strvisx L src flag).takeWhile (· ≠ 0) = strvisx L src flag := by
    rw [takeWhile_eq_self_iff]
    intro c hc
    rw [decide_eq_true_eq]
    exact ne_of_mem_of_not_mem hc (strvisx_bounds hslash src).1
  have hstart : Decoded junk [] (src.headD 0) ⟨[], junk 0, .sGround⟩ := .all
  obtain ⟨d, hrun, hd⟩ := Decoded.run (L := L) hslash hstart
  rw [strunvis, hnul, hrun, Option.map_some, hd.finish, nil_append]

/-- **`vis` and `unvis` are inverse**: for every flag but `VIS_NOSLASH`, `strunvis` of what `strvisx`
makes of any bytes, and `strvis` of bytes without a NUL, gives these bytes, whatever the destination
held; and the encoding has at most four characters a byte. Kind: P. -/
theorem strunvis_strvis (L : Locale) (junk : Mem) (flag : BitVec 32) (hslash : flag &&& visNoslash = 0)
    (src : List Byte) :
    (strunvis junk (strvisx L src flag) = some src ∧
        (strvisx L src flag).length ≤ 4 * src.length) ∧
      ((0 : Byte) ∉ src → strunvis junk (strvis L src flag) = some src ∧
        (strvis L src flag).length ≤ 4 * src.length) := by
  have hx : strunvis junk (strvisx L src flag) = some src ∧
      (strvisx L src flag).length ≤ 4 * src.length :=
    ⟨strunvis_strvisx hslash src, (strvisx_bounds hslash src).2⟩
  refine ⟨hx, fun hnul => ?_⟩
  rw [strvis_eq hnul]
  exact hx

/-- A NUL in front of a digit, a byte with all bits and a backslash, in the C style. Kind: C -/
theorem strunvis_strvis_cstyle :
    (strunvis (fun _ => 0xaa) (strvisx defaultLocale [0, 0x37, 0xff, 0x5c] visCstyle) =
          some [0, 0x37, 0xff, 0x5c] ∧
        (strvisx defaultLocale [0, 0x37, 0xff, 0x5c] visCstyle).length ≤ 16) ∧
      ((0 : Byte) ∉ ([0, 0x37, 0xff, 0x5c] : List Byte) →
        strunvis (fun _ => 0xaa) (strvis defaultLocale [0, 0x37, 0xff, 0x5c] visCstyle) =
            some [0, 0x37, 0xff, 0x5c] ∧
          (strvis defaultLocale [0, 0x37, 0xff, 0x5c] visCstyle).length ≤ 16) :=
  strunvis_strvis defaultLocale (fun _ => 0xaa) visCstyle (by decide) [0, 0x37, 0xff, 0x5c]

end Bsd386.Libc.Vis
