import Mathlib.Data.Nat.Notation
import Mathlib.Logic.Function.Basic
import Mathlib.Algebra.Ring.Nat

/-!
# The page pool

A pool keeps pages of a file in buckets. A bucket is on the chain of its hash key and on the least recently
used chain, most recent first; one that is pinned stays there, and another may be taken for a different
page, after its page has been written when it was dirty.

A bucket is named by the number of buckets allocated before it: buckets are never given back, so that is the
value of `curcache` at its `malloc`. `malloc` fails or gives memory with some content. The file is a
function from offsets to bytes, with a size; offsets are computed in 32 bits, and `off_t` is a `long`.

Source: `lib/libc/db/mpool/mpool.c`.
-/

namespace Bsd386.Db.Mpool

def Page (ps : ℕ) : Type := Fin ps → BitVec 8

/-- `HASHSIZE`. -/
def hashsize : ℕ := 128

/-- `HASHKEY`. -/
def hashkey (pgno : ℕ) : ℕ := (pgno + (2 ^ 32 - 1)) % 2 ^ 32 % hashsize

/-- `BKT`. -/
structure Bkt (ps : ℕ) where
  page : Page ps
  pgno : ℕ
  dirty : Bool
  pinned : Bool

/-- The filters; no filter is one that changes nothing. -/
structure Filters (ps : ℕ) where
  pgin : ℕ → Page ps → Page ps
  pgout : ℕ → Page ps → Page ps

/-- The file. -/
structure File where
  bytes : ℕ → BitVec 8
  size : ℕ

/-- `MPOOL`, with the file. -/
structure Mpool (ps : ℕ) where
  lru : List ℕ
  hashtable : ℕ → List ℕ
  bkt : ℕ → Bkt ps
  curcache : ℕ
  maxcache : ℕ
  npages : ℕ
  file : File

variable {ps : ℕ}

/-! ## The file -/

/-- The offset of a page, `mp->pagesize * pgno`. Source: mpool_write -/
def offset (ps pgno : ℕ) : ℕ := ps * pgno % 2 ^ 32

/-- Whether `lseek` goes to the offset; a negative one is an error.
Source: mpool_write -/
def lseek (off : ℕ) : Bool := decide (off < 2 ^ 31)

/-- `write` of a page. Source: mpool_write -/
def File.write (fd : File) (off : ℕ) (page : Page ps) : File where
  bytes i := if h : off ≤ i ∧ i - off < ps then page ⟨i - off, h.2⟩ else fd.bytes i
  size := max fd.size (off + ps)

/-- `read` of a page, `none` when the file ends before it is complete.
Source: mpool_get -/
def File.read (fd : File) (ps off : ℕ) : Option (Page ps) :=
  if off + ps ≤ fd.size then some fun i => fd.bytes (off + i) else none

/-! ## Chains -/

namespace Mpool

/-- `rmhash` and `rmchain`. -/
def unlink (m : Mpool ps) (b : ℕ) : Mpool ps :=
  { m with hashtable := fun k => (m.hashtable k).erase b, lru := m.lru.erase b }

/-- `inshash` and `inschain`. -/
def link (m : Mpool ps) (b : ℕ) : Mpool ps :=
  let k := hashkey (m.bkt b).pgno
  { m with hashtable := Function.update m.hashtable k (b :: m.hashtable k), lru := b :: m.lru }

/-- Source: mpool.h -/
def setBkt (m : Mpool ps) (b : ℕ) (bp : Bkt ps) : Mpool ps :=
  { m with bkt := Function.update m.bkt b bp }

end Mpool

/-- `mpool_look`. -/
def mpoolLook (m : Mpool ps) (pgno : ℕ) : Option ℕ :=
  (m.hashtable (hashkey pgno)).find? fun b => (m.bkt b).pgno == pgno

/-! ## The functions -/

/-- `mpool_open`. -/
def mpoolOpen (ps maxcache : ℕ) (bkt : ℕ → Bkt ps) (file : File) : Mpool ps where
  lru := []
  hashtable := fun _ => []
  bkt := bkt
  curcache := 0
  maxcache := maxcache
  npages := file.size / ps
  file := file

/-- `mpool_write`. The output filter works on the page in the bucket. -/
def mpoolWrite (f : Filters ps) (m : Mpool ps) (b : ℕ) : Mpool ps × Bool :=
  let bp := { m.bkt b with page := f.pgout (m.bkt b).pgno (m.bkt b).page }
  let off := offset ps bp.pgno
  if lseek off then
    ({ m.setBkt b { bp with dirty := false } with file := m.file.write off bp.page }, true)
  else (m.setBkt b bp, false)

/-- A new bucket. Source: mpool_bkt -/
def newBkt (m : Mpool ps) : Option (Page ps) → Option ℕ × Mpool ps
  | none => (none, m)
  | some junk =>
    (some m.curcache,
      { m.setBkt m.curcache { m.bkt m.curcache with page := junk } with curcache := m.curcache + 1 })

/-- The bucket that can be flushed, when the cache is maxed out: the least recently used one that is not
pinned. Source: mpool_bkt -/
def victim (m : Mpool ps) : Option ℕ :=
  if m.curcache < m.maxcache then none else m.lru.reverse.find? fun b => !(m.bkt b).pinned

/-- `mpool_bkt`. -/
def mpoolBkt (f : Filters ps) (m : Mpool ps) (memory : Option (Page ps)) : Option ℕ × Mpool ps :=
  match victim m with
  | none => newBkt m memory
  | some b =>
    if (m.bkt b).dirty then
      match mpoolWrite f m b with
      | (m, false) => (none, m)
      | (m, true) => (some b, m.unlink b)
    else (some b, m.unlink b)

/-- `mpool_new`. -/
def mpoolNew (f : Filters ps) (m : Mpool ps) (memory : Option (Page ps)) : Option ℕ × Mpool ps :=
  match mpoolBkt f m memory with
  | (none, m) => (none, m)
  | (some b, m) =>
    let m := m.setBkt b { m.bkt b with pgno := m.npages, dirty := false, pinned := true }
    (some b, { m.link b with npages := (m.npages + 1) % 2 ^ 32 })

/-- `mpool_get`. -/
def mpoolGet (f : Filters ps) (m : Mpool ps) (pgno : ℕ) (memory : Option (Page ps)) :
    Option ℕ × Mpool ps :=
  match mpoolLook m pgno with
  | some b =>
    (some b, { m.setBkt b { m.bkt b with pinned := true } with lru := b :: m.lru.erase b })
  | none =>
    if m.npages ≤ pgno then (none, m)
    else
      match mpoolBkt f m memory with
      | (none, m) => (none, m)
      | (some b, m) =>
        let bp := { m.bkt b with pgno := pgno, dirty := false, pinned := true }
        if lseek (offset ps pgno) then
          match m.file.read ps (offset ps pgno) with
          | none => (none, m.setBkt b bp)
          | some page => (some b, (m.setBkt b { bp with page := f.pgin pgno page }).link b)
        else (none, m.setBkt b bp)

/-- `mpool_put`. -/
def mpoolPut (m : Mpool ps) (b : ℕ) (dirty : Bool) : Mpool ps :=
  m.setBkt b { m.bkt b with pinned := false, dirty := (m.bkt b).dirty || dirty }

/-- The loop of `mpool_sync` over the buckets; it stops at an error.
Source: mpool_sync -/
def syncLoop (f : Filters ps) : Mpool ps → List ℕ → Mpool ps × Bool
  | m, [] => (m, true)
  | m, b :: bs =>
    if (m.bkt b).dirty then
      match mpoolWrite f m b with
      | (m, false) => (m, false)
      | (m, true) => syncLoop f m bs
    else syncLoop f m bs

/-- `mpool_sync`, up to `fsync`. -/
def mpoolSync (f : Filters ps) (m : Mpool ps) : Mpool ps × Bool := syncLoop f m m.lru.reverse

end Bsd386.Db.Mpool
