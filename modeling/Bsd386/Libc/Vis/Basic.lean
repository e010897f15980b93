import Bsd386.Lib.Bytes

/-!
# `vis` and `unvis`

The visual encoding of characters, `lib/libc/gen/vis.c` and `lib/libc/gen/unvis.c`.

A string in memory is the list of its bytes; where the code stops at a NUL, so do the definitions
here. The terminating NUL of an output is not part of it.
-/

namespace Bsd386.Libc.Vis

open Lib.Bytes

/-! ## Characters -/

/-- A character constant as an `int`. -/
def int (c : Char) : BitVec 32 := BitVec.ofNat 32 c.toNat

/-- A character constant as a `char`. -/
def ch (c : Char) : Byte := BitVec.ofNat 8 c.toNat

/-- What the encoder asks of the locale. Every file of `mklocale` has the same classes for the ASCII
characters ("C Locale part").
Source: ctype.h (isgraph, iscntrl), runetable.c, usr.bin/mklocale/ISO8859-1 -/
structure Locale where
  isgraph : BitVec 32 → Bool
  iscntrl : BitVec 32 → Bool
  isgraph_ascii {c : BitVec 32} : c < 128 → isgraph c = decide (0x21 ≤ c ∧ c ≤ 0x7e)
  iscntrl_ascii {c : BitVec 32} : c < 128 → iscntrl c = decide (c ≤ 0x1f ∨ c = 0x7f)

/-- The default locale. Source: _DefaultRuneLocale -/
def defaultLocale : Locale where
  isgraph c := decide (0x21 ≤ c ∧ c ≤ 0x7e)
  iscntrl c := decide (c ≤ 0x1f ∨ c = 0x7f)
  isgraph_ascii _ := rfl
  iscntrl_ascii _ := rfl

/-- Source: isoctal -/
def isoctal (c : Byte) : Bool := ch '0' ≤ c && c ≤ ch '7'

/-! ## Flags -/

/-- Source: vis.h (VIS_OCTAL) -/
def visOctal : BitVec 32 := 0x01

/-- Source: vis.h (VIS_CSTYLE) -/
def visCstyle : BitVec 32 := 0x02

/-- Source: vis.h (VIS_SP) -/
def visSp : BitVec 32 := 0x04

/-- Source: vis.h (VIS_TAB) -/
def visTab : BitVec 32 := 0x08

/-- Source: vis.h (VIS_NL) -/
def visNl : BitVec 32 := 0x10

/-- Source: vis.h (VIS_SAFE) -/
def visSafe : BitVec 32 := 0x20

/-- Source: vis.h (VIS_NOSLASH) -/
def visNoslash : BitVec 32 := 0x40

/-! ## The encoder -/

/-- The characters that stand for themselves. Source: vis -/
def plain (L : Locale) (c flag : BitVec 32) : Prop :=
  c ≤ 0xff ∧ L.isgraph c = true ∨
    flag &&& visSp = 0 ∧ c = int ' ' ∨
    flag &&& visTab = 0 ∧ c = int '\t' ∨
    flag &&& visNl = 0 ∧ c = int '\n' ∨
    flag &&& visSafe ≠ 0 ∧ (c = 8 ∨ c = 7 ∨ c = int '\r')

instance (L : Locale) (c flag : BitVec 32) : Decidable (plain L c flag) :=
  inferInstanceAs (Decidable (_ ∨ _))

/-- The `switch` of `VIS_CSTYLE`. Source: vis -/
def cstyle (c nextc : BitVec 32) : Option (List Byte) :=
  if c = int '\n' then some [ch '\\', ch 'n']
  else if c = int '\r' then some [ch '\\', ch 'r']
  else if c = 8 then some [ch '\\', ch 'b']
  else if c = 7 then some [ch '\\', ch 'a']
  else if c = 11 then some [ch '\\', ch 'v']
  else if c = int '\t' then some [ch '\\', ch 't']
  else if c = 12 then some [ch '\\', ch 'f']
  else if c = int ' ' then some [ch '\\', ch 's']
  else if c = 0 then
    if isoctal (nextc.setWidth 8) then some [ch '\\', ch '0', ch '0', ch '0']
    else some [ch '\\', ch '0']
  else none

/-- `\ddd`, of the character as a `u_char`. Source: vis -/
def octal (c : Byte) : List Byte :=
  [ch '\\', (c >>> 6 &&& 7) + ch '0', (c >>> 3 &&& 7) + ch '0', (c &&& 7) + ch '0']

/-- `\^C`, `\M^C`, `\M-C`. Source: vis -/
def metaChar (L : Locale) (c flag : BitVec 32) : List Byte :=
  let slash := if flag &&& visNoslash = 0 then [ch '\\'] else []
  let m := if c &&& 0x80 ≠ 0 then [ch 'M'] else []
  let c := if c &&& 0x80 ≠ 0 then c &&& 0x7f else c
  slash ++ m ++
    if L.iscntrl c then [ch '^', if c = 0x7f then ch '?' else (c + int '@').setWidth 8]
    else [ch '-', c.setWidth 8]

/-- `vis(dst, c, flag, nextc)`: what it appends. Source: vis -/
def vis (L : Locale) (c flag nextc : BitVec 32) : List Byte :=
  if plain L c flag then
    c.setWidth 8 :: if c = int '\\' ∧ flag &&& visNoslash = 0 then [ch '\\'] else []
  else
    match (if flag &&& visCstyle ≠ 0 then cstyle c nextc else none) with
    | some s => s
    | none =>
      if c &&& 0x7f = int ' ' ∨ flag &&& visOctal ≠ 0 then octal (c.setWidth 8)
      else metaChar L c flag

/-- Source: strvis -/
def strvis (L : Locale) : List Byte → BitVec 32 → List Byte
  | [], _ => []
  | c :: src, flag =>
    if c = 0 then []
    else vis L (c.signExtend 32) flag ((src.headD 0).signExtend 32) ++ strvis L src flag

/-- `strvisx(dst, src, len, flag)`, where `len` is the number of bytes at `src`.
Source: strvisx -/
def strvisx (L : Locale) : List Byte → BitVec 32 → List Byte
  | [], _ => []
  | [c], flag => vis L (c.signExtend 32) flag 0
  | c :: next :: src, flag =>
    vis L (c.signExtend 32) flag (next.signExtend 32) ++ strvisx L (next :: src) flag

/-! ## The decoder -/

/-- The states of the decoder, `sUnknown` for any other number.
Source: S_GROUND to S_OCTAL3 -/
inductive Astate where
  | sGround
  | sStart
  | sMeta
  | sMeta1
  | sCtrl
  | sOctal2
  | sOctal3
  | sUnknown
deriving DecidableEq

/-- What `unvis` returns; `more` is 0. Source: vis.h (unvis return codes) -/
inductive Code where
  | more
  | valid
  | validpush
  | nochar
  | synbad
deriving DecidableEq

/-- `unvis` after a backslash. Source: unvis, S_START -/
def unvisStart (cp c : Byte) : Code × Byte × Astate :=
  if c = ch '\\' then (.valid, c, .sGround)
  else if isoctal c then (.more, c - ch '0', .sOctal2)
  else if c = ch 'M' then (.more, 0x80, .sMeta)
  else if c = ch '^' then (.more, cp, .sCtrl)
  else if c = ch 'n' then (.valid, ch '\n', .sGround)
  else if c = ch 'r' then (.valid, ch '\r', .sGround)
  else if c = ch 'b' then (.valid, 8, .sGround)
  else if c = ch 'a' then (.valid, 7, .sGround)
  else if c = ch 'v' then (.valid, 11, .sGround)
  else if c = ch 't' then (.valid, ch '\t', .sGround)
  else if c = ch 'f' then (.valid, 12, .sGround)
  else if c = ch 's' then (.valid, ch ' ', .sGround)
  else if c = ch 'E' then (.valid, 0x1b, .sGround)
  else if c = ch '\n' then (.nochar, cp, .sGround)
  else if c = ch '$' then (.nochar, cp, .sGround)
  else (.synbad, cp, .sGround)

/-- `unvis(cp, c, astate, 0)`: the code, `*cp` and `*astate`.
Source: unvis -/
def unvis (cp c : Byte) : Astate → Code × Byte × Astate
  | .sGround => if c = ch '\\' then (.more, 0, .sStart) else (.valid, c, .sGround)
  | .sStart => unvisStart cp c
  | .sMeta =>
    if c = ch '-' then (.more, cp, .sMeta1)
    else if c = ch '^' then (.more, cp, .sCtrl)
    else (.synbad, cp, .sGround)
  | .sMeta1 => (.valid, cp ||| c, .sGround)
  | .sCtrl => (.valid, if c = ch '?' then cp ||| 0x7f else cp ||| (c &&& 0x1f), .sGround)
  | .sOctal2 =>
    if isoctal c then (.more, (cp <<< 3) + (c - ch '0'), .sOctal3) else (.validpush, cp, .sGround)
  | .sOctal3 =>
    if isoctal c then (.valid, (cp <<< 3) + (c - ch '0'), .sGround) else (.validpush, cp, .sGround)
  | .sUnknown => (.synbad, cp, .sGround)

/-- Source: unvis -/
def unvisEnd : Astate → Code
  | .sOctal2 => .valid
  | .sOctal3 => .valid
  | .sGround => .nochar
  | _ => .synbad

/-- `strunvis` between two characters: the bytes before `dst`, the byte at `dst`, the state.
Source: strunvis -/
structure Decoder where
  out : List Byte
  cell : Byte
  state : Astate

/-- `dst++`, over a destination that held `junk`. Source: strunvis -/
def Decoder.advance (junk : Mem) (d : Decoder) : Decoder :=
  ⟨d.out ++ [d.cell], junk (d.out.length + 1), d.state⟩

/-- The body of the loop of `strunvis`, for at most `n` rounds of `again`; `none` is `return (-1)`.
A character is pushed back once at most. Source: strunvis -/
def Decoder.feed (junk : Mem) : ℕ → Decoder → Byte → Option Decoder
  | 0, _, _ => none
  | n + 1, d, c =>
    match unvis d.cell c d.state with
    | (.valid, cp, state) => some (Decoder.advance junk ⟨d.out, cp, state⟩)
    | (.validpush, cp, state) => feed junk n (Decoder.advance junk ⟨d.out, cp, state⟩) c
    | (.more, cp, state) => some ⟨d.out, cp, state⟩
    | (.nochar, cp, state) => some ⟨d.out, cp, state⟩
    | (.synbad, _, _) => none

/-- `strunvis(dst, src)`, where `dst` held `junk`; `none` is an error.
Source: strunvis -/
def strunvis (junk : Mem) (src : List Byte) : Option (List Byte) :=
  ((src.takeWhile (· ≠ 0)).foldlM (Decoder.feed junk 2) ⟨[], junk 0, .sGround⟩).map fun d =>
    if unvisEnd d.state = .valid then d.out ++ [d.cell] else d.out

end Bsd386.Libc.Vis
