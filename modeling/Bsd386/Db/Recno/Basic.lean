import Bsd386.Db.Btree.Split
import Mathlib.Data.BitVec

/-!
# Recno databases

A recno database keeps records by their number in a tree of pages, like a btree without keys. An entry of an
internal page has the number of records below it, and `recSearch` adds these up on its way down.

The data of a record is a list of bytes. `none` is the result of a step that would read or write where there
is no record.

Source: `lib/libc/db/recno/rec_put.c`, `rec_search.c`, `rec_delete.c`, `rec_get.c`.
-/

namespace Bsd386.Db.Recno

open Btree

/-! ## Items -/

/-- `RLEAF`: the data, or with `P_BIGDATA` the first page of an overflow chain and the size. -/
inductive RLeaf where
  | data (bytes : List UInt8)
  | bigdata (pgno size : ℕ)
  deriving DecidableEq

/-- `RINTERNAL`. -/
structure RInternal where
  nrecs : BitVec 32
  pgno : ℕ
  deriving DecidableEq

/-- `NRLEAFDBT`. -/
def nrleafdbt (dsize : ℕ) : ℕ := lalign (4 + 1 + dsize)

/-- `NRINTERNAL`. -/
def nrinternal : ℕ := lalign (4 + 4)

/-- `NRLEAF`. -/
def nrleaf : RLeaf → ℕ
  | .data bs => nrleafdbt bs.length
  | .bigdata _ _ => nrleafdbt novflsize

/-- The items of a recno database have no keys. Source: bt_psplit -/
def recLayout : Layout RLeaf RInternal where
  leafBytes := nrleaf
  leafBig := fun _ => false
  internalBytes := fun _ => nrinternal
  internalBig := fun _ => false

/-- The part of `BTREE` that a recno database uses: the pages, `bt_nrecs`, `bt_rcursor` and `B_SEQINIT`. -/
structure Recno where
  tree : Tree RLeaf RInternal
  nrecs : BitVec 32
  rcursor : BitVec 32
  seqinit : Bool

/-- What a call returns. -/
inductive Ret where
  | error
  | success
  | special
  deriving DecidableEq

/-- The flags of `put` and `del`. -/
inductive Flag where
  | zero
  | rCursor
  | rIafter
  | rIbefore
  | rNooverwrite
  | rSetcursor
  | other
  deriving DecidableEq

/-! ## Opening -/

/-- `MINPSIZE`. -/
def minpsize : ℕ := 512

/-- `MAX_PAGE_OFFSET`. -/
def maxPageOffset : ℕ := 65535

/-- `DEFMINKEYPAGE`. -/
def defminkeypage : ℕ := 2

/-- A new database in memory, with the page size asked for, or that of the file behind it if that is 0.
Source: __rec_open; __bt_open, nroot -/
def recOpen (psize blksize : ℕ) : Option Recno :=
  if psize ≠ 0 ∧ (psize < minpsize ∨ maxPageOffset + 1 < psize ∨ psize % indxSize ≠ 0) then none
  else
    let psize :=
      if psize = 0 then
        let psize := blksize
        let psize := if psize < minpsize then minpsize else psize
        if maxPageOffset + 1 < psize then maxPageOffset + 1 else psize
      else psize
    some
      { tree :=
          { psize
            ovflsize := ovflsizeOf psize defminkeypage
            pages := fun _ => ⟨0, 0, false, .leaf []⟩
            npages := 2
            free := 0 }
        nrecs := 0
        rcursor := 0
        seqinit := false }

/-! ## Counts -/

/-- Return the number of recno entries below a page.
Source: rec_total -/
def recTotal : List RInternal → BitVec 32
  | [] => 0
  | r :: rs => r.nrecs + recTotal rs

/-- The count of the entry for a page. Source: __bt_split -/
def childCount : Body RLeaf RInternal → BitVec 32
  | .leaf xs => BitVec.ofNat 32 xs.length
  | .internal es => recTotal es
  | .overflow _ => 0

/-- The entry for a page. Source: btree.h, WR_RINTERNAL -/
def entryFor (t : Tree RLeaf RInternal) (pg : ℕ) : RInternal := ⟨childCount (t.pages pg).body, pg⟩

/-- What `__bt_split` does for a recno database: the entries of both children are made anew.
Source: __bt_split, bt_rroot -/
def recKind : Kind RLeaf RInternal where
  layout := recLayout
  right := fun t _ _ _ r => some (entryFor t r)
  left := fun t l _ => entryFor t l
  root := fun t l r => some [entryFor t l, entryFor t r]
  done := fun t _ => t

/-! ## Searching -/

/-- `enum SRCHOP`. -/
inductive SrchOp where
  | sdelete
  | sinsert
  | search
  deriving DecidableEq

namespace SrchOp

/-- What is added to the counts on the way down.
Source: __rec_search -/
def delta : SrchOp → BitVec 32
  | .sdelete => -1
  | .sinsert => 1
  | .search => 0

end SrchOp

/-- The entry of an internal page to go down by: its index, the records before it, and the entry. The
arguments are the rest of the entries, the index of the first of them and the records before that.
Source: __rec_search -/
def findEntry (recno : BitVec 32) : List RInternal → ℕ → BitVec 32 → Option (ℕ × BitVec 32 × RInternal)
  | [], _, _ => none
  | [r], index, total => some (index, total, r)
  | r :: r' :: rs, index, total =>
    if recno < total + r.nrecs then some (index, total, r)
    else findEntry recno (r' :: rs) (index + 1) (total + r.nrecs)

/-- Where a search ends: the page and the index, and the stack of the parents.
Source: btree.h, bt_cur, bt_stack -/
structure Found where
  pgno : ℕ
  index : ℕ
  stack : List (ℕ × ℕ)

/-- The count of the entry gone down by is changed.
Source: __rec_search -/
def countEntry (op : SrchOp) (t : Tree RLeaf RInternal) (pg index : ℕ) : Tree RLeaf RInternal :=
  match op with
  | .search => t
  | _ => changeEntry t pg index fun r => { r with nrecs := r.nrecs + op.delta }

/-- The loop of `__rec_search`, from the page `pg` on, with `total` records before it. The first argument
bounds the number of levels.
Source: __rec_search -/
def searchLoop (op : SrchOp) (recno : BitVec 32) : ℕ → ℕ → BitVec 32 → List (ℕ × ℕ) →
    Tree RLeaf RInternal → Option (Found × Tree RLeaf RInternal)
  | 0, _, _, _, _ => none
  | n + 1, pg, total, stack, t =>
    match (t.pages pg).body with
    | .leaf _ => some (⟨pg, (recno - total).toNat % 2 ^ 16, stack⟩, t)
    | .internal es =>
      match findEntry recno es 0 total with
      | none => none
      | some (index, total, r) =>
        searchLoop op recno n r.pgno total ((pg, index) :: stack) (countEntry op t pg index)
    | .overflow _ => none

/-- Search a btree for a record number. Source: __rec_search -/
def recSearch (op : SrchOp) (recno : BitVec 32) (t : Tree RLeaf RInternal) :
    Option (Found × Tree RLeaf RInternal) :=
  searchLoop op recno t.npages pRoot 0 [] t

/-! ## Deleting -/

/-- If the record uses overflow pages, make them available for reuse.
Source: __rec_dleaf -/
def freeData (t : Tree RLeaf RInternal) : RLeaf → Tree RLeaf RInternal
  | .bigdata pg size => ovflDelete t pg size
  | .data _ => t

/-- Delete a single record from a recno leaf page.
Source: __rec_dleaf -/
def recDleaf (b : Recno) (pg index : ℕ) : Option Recno :=
  let h := b.tree.pages pg
  match h.body.items[index]? with
  | none => none
  | some rl =>
    some { b with
      tree := (freeData b.tree rl).set pg { h with body := .leaf (h.body.items.eraseIdx index) }
      nrecs := b.nrecs - 1 }

/-- Delete the data matching the specified key.
Source: rec_rdelete -/
def recRdelete (b : Recno) (nrec : BitVec 32) : Option Recno :=
  match recSearch .sdelete nrec b.tree with
  | none => none
  | some (e, t) => recDleaf { b with tree := t } e.pgno e.index

/-- Delete the item referenced by a key. Source: __rec_delete -/
def recDelete (b : Recno) (key : BitVec 32) (flags : Flag) : Option (Ret × Recno) :=
  match flags with
  | .zero =>
    if key = 0 then some (.error, b)
    else if b.nrecs < key then some (.special, b)
    else (recRdelete b (key - 1)).map fun b => (.success, b)
  | .rCursor =>
    if !b.seqinit then some (.error, b)
    else if b.nrecs = 0 then some (.special, b)
    else (recRdelete b (b.rcursor - 1)).map fun b => (.success, { b with rcursor := b.rcursor - 1 })
  | _ => some (.error, b)

/-! ## Putting -/

/-- If the data won't fit on a page, store it on indirect pages.
Source: __rec_iput -/
def storeData (t : Tree RLeaf RInternal) (data : List UInt8) : RLeaf × Tree RLeaf RInternal :=
  if t.ovflsize < data.length then
    let (pg, t) := ovflPut t data
    (.bigdata pg data.length, t)
  else (.data data, t)

/-- The item is put on the leaf page, which is split if there is not enough room.
Source: __rec_iput -/
def placeItem (b : Recno) (pg index : ℕ) (stack : List (ℕ × ℕ)) (x : RLeaf) : Option Recno :=
  let t :=
    if recLayout.free b.tree.psize (b.tree.pages pg).body < nrleaf x + indxSize then
      btSplit recKind b.tree stack pg index x
    else putLeaf recLayout b.tree pg index x
  t.map fun t => { b with tree := t, nrecs := b.nrecs + 1 }

/-- Add a recno item to the tree. Source: __rec_iput -/
def recIput (b : Recno) (nrec : BitVec 32) (data : List UInt8) (flags : Flag) : Option Recno :=
  let (x, t) := storeData b.tree data
  let op : SrchOp :=
    if b.nrecs < nrec ∨ flags = .rIafter ∨ flags = .rIbefore then .sinsert else .search
  match recSearch op nrec t with
  | none => none
  | some (e, t) =>
    let b := { b with tree := t }
    match flags with
    | .rIafter => placeItem b e.pgno (e.index + 1) e.stack x
    | .rIbefore => placeItem b e.pgno e.index e.stack x
    | _ =>
      if nrec < b.nrecs then
        match recDleaf b e.pgno e.index with
        | none => none
        | some b => placeItem b e.pgno e.index e.stack x
      else placeItem b e.pgno e.index e.stack x

/-- If skipping records, create empty ones. The first argument bounds the number of them.
Source: __rec_put -/
def skipRecords : ℕ → BitVec 32 → Recno → Option Recno
  | 0, _, b => some b
  | n + 1, nrec, b =>
    if b.nrecs + 1 < nrec then
      match recIput b b.nrecs [] .zero with
      | none => none
      | some b => skipRecords n nrec b
    else some b

/-- `__rec_put` from where the record number is known.
Source: __rec_put -/
def putAt (b : Recno) (nrec : BitVec 32) (data : List UInt8) (flags : Flag) :
    Option (Ret × BitVec 32 × Recno) :=
  match if b.nrecs < nrec then skipRecords nrec.toNat nrec b else some b with
  | none => none
  | some b =>
    match recIput b (nrec - 1) data flags with
    | none => none
    | some b => some (.success, nrec, if flags = .rSetcursor then { b with rcursor := nrec } else b)

/-- Add a recno item to the tree. Returns also what is in the key then.
Source: __rec_put -/
def recPut (b : Recno) (key : BitVec 32) (data : List UInt8) (flags : Flag) :
    Option (Ret × BitVec 32 × Recno) :=
  match flags with
  | .rCursor => if !b.seqinit then some (.error, key, b) else putAt b b.rcursor data flags
  | .rSetcursor => if key = 0 then some (.error, key, b) else putAt b key data flags
  | .rIafter => if key = 0 then putAt b 1 data .rIbefore else putAt b key data flags
  | .zero | .rIbefore => if key = 0 then some (.error, key, b) else putAt b key data flags
  | .rNooverwrite =>
    if key = 0 then some (.error, key, b)
    else if key ≤ b.nrecs then some (.special, key, b)
    else putAt b key data flags
  | .other => some (.error, key, b)

/-! ## Getting -/

/-- The data of an item. Source: __rec_ret -/
def recRet (t : Tree RLeaf RInternal) : RLeaf → Option (List UInt8)
  | .data bs => some bs
  | .bigdata pg size => ovflGet t pg size

/-- Get a record from the btree. Source: __rec_get -/
def recGet (b : Recno) (key : BitVec 32) (flags : Flag) : Option (Ret × Option (List UInt8)) :=
  if flags ≠ .zero ∨ key = 0 then some (.error, none)
  else if b.nrecs < key then some (.special, none)
  else
    match recSearch .search (key - 1) b.tree with
    | none => none
    | some (e, t) =>
      match (t.pages e.pgno).body.items[e.index]? with
      | none => none
      | some rl => (recRet t rl).map fun bs => (.success, some bs)

end Bsd386.Db.Recno
