import Bsd386.Db.Hash.Basic

/-!
# Overflow pages

`overflowPage` looks through the bitmaps for a free page from the last freed one on, and otherwise adds a
page at the current split point, with a new bitmap page when the last one is full; `freeOvflpage` clears
the bit of a page. Bitmaps stay in memory once they have been made, so the file is never read.

The result 0 is `NULL`; a `none` is a step for which the program has no defined behaviour, the use of a
bitmap beyond the end of `mapp` or of a null pointer.
-/

namespace Bsd386.Db.Hash

open Function Lib

/-- `first_free`. -/
def firstFree (map : BitVec 32) : ℕ :=
  ((List.range 32).find? fun i => map &&& 1#32 <<< i == 0).getD 32

/-- The words of one bitmap, from `bit` on, up to one that is not all set.
Source: overflow_page -/
def searchWords (freep : ℕ → BitVec 32) (inUseBits : ℕ) : ℕ → ℕ → Option ℕ
  | 0, _ => none
  | fuel + 1, bit =>
    if bit ≤ inUseBits then
      if freep (bit / 32) ≠ allSet then some bit else searchWords freep inUseBits fuel (bit + 32)
    else none

/-- How the search of the bitmaps ends: at a word that is not all set, for want of a bitmap, behind the
last bitmap, or beyond `mapp`. Source: overflow_page -/
inductive Search where
  | found (i : ℕ) (freep : ℕ → BitVec 32) (bit : ℕ)
  | null
  | full (freep : ℕ → BitVec 32)
  | undefined

namespace Htab

/-- The bitmaps from `i` on; `left` of them are left, of which `freePage` is the last.
Source: overflow_page -/
def searchMaps (h : Htab) (firstPage freePage freeBit : ℕ) : ℕ → ℕ → Search
  | 0, _ => .undefined
  | left + 1, i =>
    if ncached ≤ i then .undefined
    else
      match h.mapp i with
      | none => .null
      | some freep =>
        let inUseBits := if i = freePage then freeBit else h.pageBits - 1
        let bit :=
          if i = firstPage then (h.lastFreed &&& (h.pageBits - 1)) / 32 * 32 else 0
        match searchWords freep inUseBits (inUseBits + 1) bit with
        | some bit => .found i freep bit
        | none =>
          if i = freePage then .full freep
          else searchMaps h firstPage freePage freeBit left (i + 1)

/-- The split point of the page with number `bit`, which counts from 1.
Source: overflow_page -/
def splitOf (h : Htab) (splitnum bit : ℕ) : ℕ :=
  ((List.range splitnum).find? fun i => decide (bit ≤ h.spares i)).getD splitnum

/-- A free page was found in a bitmap. Source: overflow_page -/
def takeFound (h : Htab) (i : ℕ) (freep : ℕ → BitVec 32) (bit : ℕ) : ℕ × Htab :=
  let bit := bit + firstFree (freep (bit / 32))
  let h := { h with mapp := update h.mapp i (some (setbit freep bit)) }
  -- bits count from 0, pages from 1
  let bit := 1 + bit + i * h.pageBits
  let h := if h.lastFreed ≤ bit then { h with lastFreed := bit - 1 } else h
  let i := h.splitOf h.ovflPoint bit
  let offset := if i ≠ 0 then bit - h.spares (i - 1) else bit
  if splitmask ≤ offset then (0, h) else (oaddrOf i offset, h)

/-- The next split point takes the last page of a full one.
Source: overflow_page -/
def nextPoint (h : Htab) (splitnum : ℕ) : Htab :=
  let spares := update h.spares (splitnum + 1) (h.spares splitnum)
  { h with
    ovflPoint := splitnum + 1
    spares := update spares splitnum (spares splitnum - 1) }

/-- A new page has got its place; it may need a bitmap of its own.
Source: overflow_page -/
def takeNew (h : Htab) (splitnum offset freePage freeBit : ℕ) (freep : ℕ → BitVec 32) (memory : Bool) :
    ℕ × Htab :=
  if freeBit = h.pageBits - 1 then
    let freePage := freePage + 1
    if ncached ≤ freePage then (0, h)
    else if memory = false then (0, h)
    else
      let h := initBitmap h (oaddrOf splitnum offset) 1 freePage
      let h := { h with spares := update h.spares splitnum (h.spares splitnum + 1) }
      let offset := offset + 1
      if splitmask < offset then
        if ncached ≤ splitnum + 1 then (0, h)
        else (oaddrOf (splitnum + 1) 0, h.nextPoint splitnum)
      else (oaddrOf splitnum offset, h)
  else
    (oaddrOf splitnum offset,
      { h with mapp := update h.mapp freePage (some (setbit freep (freeBit + 1))) })

end Htab

/-- `overflow_page`. -/
def overflowPage (h : Htab) (memory : Bool) : Option (ℕ × Htab) :=
  let splitnum := h.ovflPoint
  let maxFree := h.spares splitnum
  let freePage := (maxFree - 1) >>> (h.bshift + 3)
  let freeBit := (maxFree - 1) &&& (h.pageBits - 1)
  let firstPage := h.lastFreed >>> (h.bshift + 3)
  match h.searchMaps firstPage freePage freeBit (freePage + 1 - firstPage) firstPage with
  | .undefined => none
  | .null => some (0, h)
  | .found i freep bit => some (h.takeFound i freep bit)
  | .full freep =>
    let h := { h with
      lastFreed := maxFree
      spares := update h.spares splitnum (maxFree + 1) }
    let offset := h.spares splitnum - if splitnum ≠ 0 then h.spares (splitnum - 1) else 0
    if splitmask < offset then
      if ncached ≤ splitnum + 1 then some (0, h)
      else some ((h.nextPoint splitnum).takeNew (splitnum + 1) 1 freePage freeBit freep memory)
    else some (h.takeNew splitnum offset freePage freeBit freep memory)

/-- The number of the bit of an overflow page. Source: __free_ovflpage -/
def Htab.bitAddress (h : Htab) (addr : ℕ) : ℕ :=
  (if splitnum addr ≠ 0 then h.spares (splitnum addr - 1) else 0) + opagenum addr - 1

/-- `__free_ovflpage`. -/
def freeOvflpage (h : Htab) (addr : ℕ) : Option Htab :=
  let bitAddress := h.bitAddress addr
  let h := if bitAddress < h.lastFreed then { h with lastFreed := bitAddress } else h
  let freePage := bitAddress >>> (h.bshift + 3)
  let freeBit := bitAddress &&& (h.pageBits - 1)
  if ncached ≤ freePage then none
  else
    match h.mapp freePage with
    | none => none
    | some freep => some { h with mapp := update h.mapp freePage (some (clrbit freep freeBit)) }

end Bsd386.Db.Hash
