import Bsd386.Lib.Bitmap

/-!
# The header of a hash table and its pages

A hash table grows one bucket at a time. The header has the masks that map a hash value to a bucket, the
directory of segments in memory, and the numbering of the file pages, which buckets and overflow pages
share: the overflow pages of a split point lie between the buckets that the table had at that doubling
and the next ones, and `spares` counts them.

`initHtab` makes a new header, `expandTable` does the work of `__expand_table` on it, and `overflowPage`
and `freeOvflpage` allocate and free an overflow page in the bitmaps.

The numbers are natural ones. Every bucket takes four bytes of memory, so they stay far below 2^31.

Source: `lib/libc/db/hash/hash.h`, `hash.c`, `hash_page.c`.
-/

namespace Bsd386.Db.Hash

open Function Lib

/-! ## Constants -/

/-- `DEF_SEGSIZE_SHIFT`. -/
def sshift : ℕ := 8

/-- `DEF_SEGSIZE`. -/
def sgsize : ℕ := 256

/-- `DEF_DIRSIZE`. -/
def defDirsize : ℕ := 256

/-- The size of a pointer. Source: __expand_table -/
def ptrsize : ℕ := 4

/-- `NCACHED`. -/
def ncached : ℕ := 32

/-- `SPLITSHIFT`. -/
def splitshift : ℕ := 11

/-- `SPLITMASK`. -/
def splitmask : ℕ := 0x7FF

/-- `ALL_SET`. -/
def allSet : BitVec 32 := BitVec.allOnes 32

/-- `SPLITNUM`. -/
def splitnum (n : ℕ) : ℕ := n >>> splitshift

/-- `OPAGENUM`. -/
def opagenum (n : ℕ) : ℕ := n &&& splitmask

/-- `OADDR_OF`. -/
def oaddrOf (s o : ℕ) : ℕ := s <<< splitshift + o

/-- The loop of `__log2`. -/
def log2Loop (num limit i : ℕ) : ℕ :=
  if limit < num ∧ 0 < limit then log2Loop num (limit <<< 1) (i + 1) else i
  termination_by num - limit
  decreasing_by
    rw [Nat.shiftLeft_eq]
    omega

/-- `__log2`. -/
def log2 (num : ℕ) : ℕ := log2Loop num 1 0

/-! ## The header -/

/-- The table. `dirents` is the number of entries for which `dir` has been given memory; the program does
not keep it. A page of a bitmap is a function from word numbers to words. No bucket is smaller than four
bytes, since `__init_bitmap` writes a word.
Source: hash.h, HTAB, HASHHDR -/
structure Htab where
  bshift : ℕ
  hdrpages : ℕ
  dsize : ℕ
  dirents : ℕ
  nsegs : ℕ
  exsegs : ℕ
  ovflPoint : ℕ
  lastFreed : ℕ
  maxBucket : ℕ
  highMask : ℕ
  lowMask : ℕ
  nmaps : ℕ
  spares : ℕ → ℕ
  bitmaps : ℕ → ℕ
  mapp : ℕ → Option (ℕ → BitVec 32)
  bshift_ge : 2 ≤ bshift

namespace Htab

/-- The number of bits in a page, `BSIZE << BYTE_SHIFT`. -/
def pageBits (h : Htab) : ℕ := (1 <<< h.bshift) <<< 3

/-- `BUCKET_TO_PAGE`. -/
def bucketToPage (h : Htab) (b : ℕ) : ℕ :=
  b + h.hdrpages + if b ≠ 0 then h.spares (log2 (b + 1) - 1) else 0

/-- `OADDR_TO_PAGE`. -/
def oaddrToPage (h : Htab) (a : ℕ) : ℕ := h.bucketToPage (1 <<< splitnum a - 1) + opagenum a

/-- `__call_hash`, of the hash value of the key. -/
def callHash (h : Htab) (n : ℕ) : ℕ :=
  let bucket := n &&& h.highMask
  if h.maxBucket < bucket then bucket &&& h.lowMask else bucket

end Htab

/-! ## Creation -/

/-- `SETBIT`. -/
def setbit (a : ℕ → BitVec 32) (n : ℕ) : ℕ → BitVec 32 :=
  update a (n / 32) (a (n / 32) ||| 1#32 <<< (n % 32))

/-- `CLRBIT`. -/
def clrbit (a : ℕ → BitVec 32) (n : ℕ) : ℕ → BitVec 32 :=
  update a (n / 32) (a (n / 32) &&& ~~~(1#32 <<< (n % 32)))

/-- The page that `__init_bitmap` fills. -/
def newBitmap (nbits : ℕ) : ℕ → BitVec 32 :=
  let clearints := (nbits - 1) >>> 5 + 1
  let ip : ℕ → BitVec 32 := fun j => if j < clearints then 0 else allSet
  setbit (update ip (clearints - 1) (allSet <<< (nbits &&& 31))) 0

/-- `__init_bitmap`, when there is memory. -/
def initBitmap (h : Htab) (pnum nbits ndx : ℕ) : Htab :=
  { h with
    nmaps := h.nmaps + 1
    bitmaps := update h.bitmaps ndx pnum
    mapp := update h.mapp ndx (some (newBitmap nbits)) }

/-- What the caller may choose: the size of a bucket as a power of two, the number of elements expected
and the fill factor. Source: init_hash -/
structure Info where
  bshift : ℕ
  nelem : ℕ
  ffactor : ℕ
  bshift_ge : 2 ≤ bshift

/-- The initial number of buckets, as a power of two. Source: init_htab -/
def Info.l2 (p : Info) : ℕ := log2 (max ((p.nelem - 1) / p.ffactor + 1) 2)

/-- The initial number of segments. Source: init_htab -/
def Info.nsegs (p : Info) : ℕ := 1 <<< log2 ((1 <<< p.l2 - 1) / sgsize + 1)

/-- The size of the first directory. Source: init_htab -/
def Info.dirsize (p : Info) : ℕ := if defDirsize < p.nsegs then p.nsegs else defDirsize

/-- `init_htab` on the header made by `init_hash`, when there is memory; `sizeof(HASHHDR)` is
less than `MINHDRSIZE`. -/
def initHtab (p : Info) : Htab :=
  let l2 := p.l2
  let nbuckets := 1 <<< l2
  let h : Htab :=
    { bshift := p.bshift
      hdrpages := (512 - 1) >>> p.bshift + 1
      dsize := p.dirsize
      dirents := p.dirsize
      nsegs := p.nsegs
      exsegs := 0
      ovflPoint := l2
      lastFreed := 2
      maxBucket := nbuckets - 1
      highMask := nbuckets <<< 1 - 1
      lowMask := nbuckets - 1
      nmaps := 0
      spares := update (update (fun _ => 0) l2 (l2 + 1)) (l2 + 1) (l2 + 1)
      bitmaps := fun _ => 0
      mapp := fun _ => none
      bshift_ge := p.bshift_ge }
  initBitmap h (oaddrOf l2 1) (l2 + 1) 0

/-! ## Growth -/

/-- Which allocations of a call succeed: a new segment, and a larger directory.
Source: __expand_table -/
structure Memory where
  seg : Bool
  dir : Bool

/-- Reallocate the directory when the new segment has no place in it. `dirsize` is in bytes.
Source: __expand_table -/
def growDir (h : Htab) (newSegnum : ℕ) (m : Memory) : Htab × Bool :=
  if h.dsize ≤ newSegnum then
    let dirsize := h.dsize * ptrsize
    if m.dir then ({ h with dirents := dirsize <<< 1 / ptrsize, dsize := dirsize <<< 1 }, true)
    else (h, false)
  else (h, true)

/-- Allocate the new segment when there is none. Source: __expand_table -/
def newSegment (h : Htab) (newSegnum : ℕ) (m : Memory) : Htab × Bool :=
  if h.nsegs ≤ newSegnum then
    match growDir h newSegnum m with
    | (h, false) => (h, false)
    | (h, true) =>
      if m.seg then ({ h with exsegs := h.exsegs + 1, nsegs := h.nsegs + 1 }, true) else (h, false)
  else (h, true)

/-- Go on to the next split point, with a copy of the count of spare pages.
Source: __expand_table -/
def nextSplit (h : Htab) : Htab :=
  let spareNdx := log2 (h.maxBucket + 1)
  if h.ovflPoint < spareNdx then
    { h with
      spares := update h.spares spareNdx (h.spares h.ovflPoint)
      ovflPoint := spareNdx }
  else h

/-- The masks, when a new doubling starts. Source: __expand_table -/
def newMasks (h : Htab) : Htab :=
  if h.highMask < h.maxBucket then
    { h with lowMask := h.highMask, highMask := h.maxBucket ||| h.highMask }
  else h

/-- One more bucket, `++hashp->MAX_BUCKET`. Source: __expand_table -/
def Htab.next (h : Htab) : Htab := { h with maxBucket := h.maxBucket + 1 }

/-- `__expand_table` up to the call of `__split_page`. With an error it returns at once, and the bucket
has been counted already. -/
def expandTable (h : Htab) (m : Memory) : Htab :=
  match newSegment h.next (h.next.maxBucket >>> sshift) m with
  | (h, false) => h
  | (h, true) => newMasks (nextSplit h)

/-- The bucket that `__expand_table` splits. -/
def oldBucket (h : Htab) : ℕ := (h.maxBucket + 1) &&& h.lowMask

end Bsd386.Db.Hash
