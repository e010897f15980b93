import Mathlib.Data.Nat.Notation
import Mathlib.Logic.Function.Basic
import Mathlib.Algebra.Ring.Nat

/-!
# Pages of a tree

The pages of a btree or recno database, and what is common to both: pages are taken from the free list
or from the pool, and an item that is too large goes to a chain of overflow pages.

A leaf or internal page is the list of its items in the order of `linp`; the free space is that between
the array of offsets and the records. The items of a leaf page are of the type `α`, those of an internal
page of the type `β`. The pool gives every page with what was last written to it.

Source: `lib/libc/db/btree/btree.h`, `bt_page.c`, `bt_overflow.c`, `bt_split.c`.
-/

namespace Bsd386.Db.Btree

/-- `BTDATAOFF`: the length of the header. -/
def btdataoff : ℕ := 20

/-- `sizeof(indx_t)`. -/
def indxSize : ℕ := 2

/-- `LALIGN`. -/
def lalign (n : ℕ) : ℕ := (n + 3) / 4 * 4

/-- `NOVFLSIZE`. -/
def novflsize : ℕ := 8

/-- `NBLEAFDBT`. -/
def nbleafdbt (ksize dsize : ℕ) : ℕ := lalign (4 + 4 + 1 + ksize + dsize)

/-- `P_ROOT`. -/
def pRoot : ℕ := 1

/-- What the page types hold behind the header. -/
inductive Body (α β : Type) where
  | leaf (items : List α)
  | internal (entries : List β)
  | overflow (bytes : List UInt8)

/-- `PAGE`. A page number of 0 is `P_INVALID`. -/
structure Page (α β : Type) where
  prevpg : ℕ
  nextpg : ℕ
  preserve : Bool
  body : Body α β

/-- What is a matter of the types of items: the bytes they take on a page, and whether their key is on
an overflow page. -/
structure Layout (α β : Type) where
  leafBytes : α → ℕ
  leafBig : α → Bool
  internalBytes : β → ℕ
  internalBig : β → Bool

variable {α β : Type}

namespace Body

def items : Body α β → List α
  | .leaf xs => xs
  | _ => []

/-- The entries of an internal page. -/
def entries : Body α β → List β
  | .internal es => es
  | _ => []

/-- `NEXTINDEX`. -/
def nextindex (b : Body α β) : ℕ := b.items.length + b.entries.length

/-- A page of the same type with the items before the index `n`.
Source: bt_psplit -/
def take (n : ℕ) : Body α β → Body α β
  | .leaf xs => .leaf (xs.take n)
  | .internal es => .internal (es.take n)
  | .overflow bs => .overflow bs

/-- A page of the same type with the items from the index `n` on.
Source: bt_psplit -/
def drop (n : ℕ) : Body α β → Body α β
  | .leaf xs => .leaf (xs.drop n)
  | .internal es => .internal (es.drop n)
  | .overflow bs => .overflow bs

end Body

namespace Layout

variable (Y : Layout α β)

/-- The bytes and the flag of each item. Source: bt_psplit -/
def sizes : Body α β → List (ℕ × Bool)
  | .leaf xs => xs.map fun x => (Y.leafBytes x, Y.leafBig x)
  | .internal es => es.map fun e => (Y.internalBytes e, Y.internalBig e)
  | .overflow _ => []

/-- The bytes that the items and their offsets take. -/
def used (b : Body α β) : ℕ := ((Y.sizes b).map Prod.fst).sum + indxSize * b.nextindex

/-- `h->upper - h->lower`. -/
def free (psize : ℕ) (b : Body α β) : ℕ := psize - btdataoff - Y.used b

end Layout

/-- What `BTREE` has for the pages: `bt_psize`, `bt_ovflsize` and `bt_free`, the pages, and the number
of them. -/
structure Tree (α β : Type) where
  psize : ℕ
  ovflsize : ℕ
  pages : ℕ → Page α β
  npages : ℕ
  free : ℕ

namespace Tree

def set (t : Tree α β) (pg : ℕ) (h : Page α β) : Tree α β :=
  { t with pages := Function.update t.pages pg h }

def plen (t : Tree α β) : ℕ := t.psize - btdataoff

end Tree

/-- `bt_ovflsize`, an `indx_t`. Source: __bt_open -/
def ovflsizeOf (psize minkeypage : ℕ) : ℕ :=
  let n := ((psize - btdataoff) / minkeypage + (2 ^ 16 - (indxSize + nbleafdbt 0 0))) % 2 ^ 16
  if n < nbleafdbt novflsize novflsize + indxSize then nbleafdbt novflsize novflsize + indxSize else n

/-! ## Free pages -/

/-- Put a page on the freelist. Source: __bt_free -/
def btFree (t : Tree α β) (pg : ℕ) : Tree α β :=
  { t.set pg { t.pages pg with prevpg := 0, nextpg := t.free } with free := pg }

/-- Get a new page, preferably from the freelist.
Source: __bt_new -/
def btNew (t : Tree α β) : ℕ × Tree α β :=
  if t.free ≠ 0 then (t.free, { t with free := (t.pages t.free).nextpg })
  else (t.npages, { t with npages := t.npages + 1 })

/-! ## Overflow pages -/

/-- `last->nextpg = h->pgno`, if there is a last page.
Source: __ovfl_put -/
def linkLast (t : Tree α β) (last : Option ℕ) (npg : ℕ) : Tree α β :=
  match last with
  | some l => t.set l { t.pages l with nextpg := npg }
  | none => t

/-- A page of a chain, behind the page `last`, with as much of the bytes as it takes.
Source: __ovfl_put -/
def ovflPage (t : Tree α β) (last : Option ℕ) (bs : List UInt8) : ℕ × Tree α β :=
  let (npg, t) := btNew t
  (npg, linkLast (t.set npg ⟨0, 0, false, .overflow (bs.take t.plen)⟩) last npg)

/-- The loop of `__ovfl_put`, behind the page `last`. The first argument bounds the number of pages.
Source: __ovfl_put -/
def ovflPutLoop : ℕ → Option ℕ → List UInt8 → Tree α β → ℕ × Tree α β
  | 0, _, _, t => (0, t)
  | n + 1, last, bs, t =>
    let (npg, t) := ovflPage t last bs
    if bs.length ≤ t.plen then (npg, t)
    else (npg, (ovflPutLoop n (some npg) (bs.drop t.plen) t).2)

/-- Store an overflow key/data item. Returns the number of the first page in the chain.
Source: __ovfl_put -/
def ovflPut (t : Tree α β) (bs : List UInt8) : ℕ × Tree α β :=
  ovflPutLoop (bs.length + 1) none bs t

/-- The loop of `__ovfl_get`: step through the linked list of pages, copying the data on each one.
`none` when a page is not an overflow page.
Source: __ovfl_get -/
def ovflGetLoop (t : Tree α β) : ℕ → ℕ → ℕ → Option (List UInt8)
  | 0, _, _ => none
  | n + 1, pg, sz =>
    match (t.pages pg).body with
    | .overflow bs =>
      let nb := min sz t.plen
      if sz - nb = 0 then some (bs.take nb)
      else (ovflGetLoop t n (t.pages pg).nextpg (sz - nb)).map (bs.take nb ++ ·)
    | _ => none

/-- Get an overflow key/data item. Source: __ovfl_get -/
def ovflGet (t : Tree α β) (pg sz : ℕ) : Option (List UInt8) := ovflGetLoop t (sz + 1) pg sz

/-- The loop of `__ovfl_delete`: step through the chain, calling the free routine for each page.
Source: __ovfl_delete -/
def ovflDeleteLoop : ℕ → ℕ → ℕ → Tree α β → Tree α β
  | 0, _, _, t => t
  | n + 1, pg, sz, t =>
    let next := (t.pages pg).nextpg
    let t := btFree t pg
    if sz ≤ t.plen then t else ovflDeleteLoop n next (sz - t.plen) t

/-- Delete an overflow chain, but not one used by internal pages.
Source: __ovfl_delete -/
def ovflDelete (t : Tree α β) (pg sz : ℕ) : Tree α β :=
  if (t.pages pg).preserve then t else ovflDeleteLoop (sz + 1) pg sz t

end Bsd386.Db.Btree
