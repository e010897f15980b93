import Bsd386.Lib.Bytes
import Mathlib.Data.Int.Notation
import Mathlib.Algebra.Ring.Nat

/-!
# The library allocator

Blocks of `2 ^ (b + 3)` bytes up to half a page, and of that and a page more from there on; `b` is the
bucket. The first four bytes of a block are its header: the address of the next free block of the bucket
when it is free, a magic number and the bucket when it is in use.

`Heap.blk` is not in the source: it records the blocks that `morecore` has cut, by the address of their
header, for the statements.

Source: `lib/libc/stdlib/malloc.c`.
-/

namespace Bsd386.Libc.Malloc

open Function Lib.Bytes

/-- `ov_next`: the word at an address, lowest byte first.
Source: union overhead -/
def ovNext (m : Mem) (op : ℕ) : ℕ := (m (op + 3) ++ m (op + 2) ++ m (op + 1) ++ m op).toNat

/-- `op->ov_next = p`. Source: union overhead -/
def setNext (m : Mem) (op p : ℕ) : Mem :=
  set8 (set8 (set8 (set8 m op ((BitVec.ofNat 32 p).extractLsb' 0 8))
    (op + 1) ((BitVec.ofNat 32 p).extractLsb' 8 8))
    (op + 2) ((BitVec.ofNat 32 p).extractLsb' 16 8))
    (op + 3) ((BitVec.ofNat 32 p).extractLsb' 24 8)

/-- `MAGIC`. -/
def magic : Byte := 0xef

/-- `NBUCKETS`. -/
def nbuckets : ℕ := 30

/-- `getpagesize()`. Source: i386/include/param.h (NBPG) -/
def getpagesize : ℕ := 4096

/-- The memory of the process and the variables of the allocator; `brk` is the end of the data. -/
structure Heap where
  mem : Mem
  nextf : ℕ → ℕ
  pagesz : ℕ
  pagebucket : ℕ
  brk : ℕ
  blk : ℕ → Option ℕ

/-- Which of the calls of `sbrk` the system grants: the one that aligns the break and the one for a bucket.
Source: sbrk.s -/
structure Grants where
  align : Bool
  more : Bool

namespace Heap

/-- `sbrk(amt)`: fails, or returns zeroed memory from the break on.
Source: sbrk.s -/
def sbrk (h : Heap) (granted : Bool) (amt : ℕ) : Option (ℕ × Heap) :=
  if granted = true ∧ h.brk + amt < 2 ^ 32 then
    some (h.brk, { h with
      mem := fun i => if h.brk ≤ i ∧ i < h.brk + amt then 0 else h.mem i
      brk := h.brk + amt })
  else none

/-- What `sbrk` is to add so that the data of the blocks will be page aligned.
Source: malloc -/
def gap (h : Heap) : ℕ :=
  let n : ℤ := (getpagesize : ℤ) - 4 - (h.brk % getpagesize : ℕ)
  (if n < 0 then n + getpagesize else n).toNat

/-- `while (pagesz > amt) { amt <<= 1; bucket++; }`. Source: malloc -/
def pageLoop (pagesz : ℕ) : ℕ → ℕ → ℕ → ℕ
  | 0, _, bucket => bucket
  | n + 1, amt, bucket => if amt < pagesz then pageLoop pagesz n (2 * amt) (bucket + 1) else bucket

/-- First time malloc is called, setup page size and align break pointer; whether it goes on.
Source: malloc -/
def setup (h : Heap) (granted : Bool) : Bool × Heap :=
  let h₁ := { h with pagesz := getpagesize }
  if h.gap = 0 then (true, { h₁ with pagebucket := pageLoop getpagesize 32 8 0 })
  else match h₁.sbrk granted h.gap with
    | none => (false, h₁)
    | some (_, h₂) => (true, { h₂ with pagebucket := pageLoop getpagesize 32 8 0 })

/-- `while (nbytes > amt + n) { amt <<= 1; if (amt == 0) return (NULL); bucket++; }`, on unsigned numbers.
Source: malloc -/
def sizeLoop (nbytes n : ℕ) : ℕ → ℕ → ℕ → Option ℕ
  | 0, _, _ => none
  | k + 1, amt, bucket =>
    if (amt + n) % 2 ^ 32 < nbytes then
      if 2 * amt % 2 ^ 32 = 0 then none else sizeLoop nbytes n k (2 * amt % 2 ^ 32) (bucket + 1)
    else some bucket

/-- Convert amount of memory requested into closest block size: the bucket.
Source: malloc -/
def bucketOf (h : Heap) (nbytes : ℕ) : Option ℕ :=
  if nbytes ≤ h.pagesz - 4 then sizeLoop nbytes (2 ^ 32 - 4) 32 8 0
  else sizeLoop nbytes (h.pagesz - 4) 32 h.pagesz h.pagebucket

/-- `while (--nblks > 0) { op->ov_next = op + sz; op = op + sz; }`, and the blocks this makes.
Source: morecore -/
def cut (bucket sz : ℕ) : ℕ → ℕ → Heap → Heap
  | 0, _, h => h
  | 1, op, h => { h with blk := update h.blk op (some bucket) }
  | n + 2, op, h =>
    cut bucket sz (n + 1) (op + sz)
      { h with mem := setNext h.mem op (op + sz), blk := update h.blk op (some bucket) }

/-- `sz`. Source: morecore -/
def sizeOf (bucket : ℕ) : ℕ := 2 ^ (bucket + 3)

/-- `amt`: a page of blocks, or one block with a page added to it.
Source: morecore -/
def moreAmt (h : Heap) (bucket : ℕ) : ℕ :=
  if sizeOf bucket < h.pagesz then h.pagesz else sizeOf bucket + h.pagesz

/-- `nblks`. Source: morecore -/
def moreBlks (h : Heap) (bucket : ℕ) : ℕ :=
  if sizeOf bucket < h.pagesz then h.pagesz / sizeOf bucket else 1

/-- `morecore`: `sz` is an `int`, not positive from `2 ^ 31` on.
Source: morecore -/
def morecore (h : Heap) (granted : Bool) (bucket : ℕ) : Heap :=
  if 2 ^ 31 ≤ sizeOf bucket then h
  else match h.sbrk granted (h.moreAmt bucket) with
    | none => h
    | some (op, h₁) =>
      cut bucket (sizeOf bucket) (h.moreBlks bucket) op
        { h₁ with nextf := update h₁.nextf bucket op }

/-- Remove from linked list, and mark as in use. Source: malloc -/
def take (h : Heap) (bucket : ℕ) : Heap :=
  let op := h.nextf bucket
  { h with
    nextf := update h.nextf bucket (ovNext h.mem op)
    mem := set8 (set8 h.mem op magic) (op + 1) (BitVec.ofNat 8 bucket) }

/-- The part of `malloc` behind the setup. Source: malloc -/
def alloc (h : Heap) (granted : Bool) (nbytes : ℕ) : ℕ × Heap :=
  match h.bucketOf nbytes with
  | none => (0, h)
  | some bucket =>
    let h₁ := if h.nextf bucket = 0 then h.morecore granted bucket else h
    if h₁.nextf bucket = 0 then (0, h₁) else (h₁.nextf bucket + 4, h₁.take bucket)

/-- Source: malloc -/
def malloc (h : Heap) (g : Grants) (nbytes : ℕ) : ℕ × Heap :=
  if h.pagesz = 0 then
    match h.setup g.align with
    | (false, h₁) => (0, h₁)
    | (true, h₁) => h₁.alloc g.more nbytes
  else h.alloc g.more nbytes

/-- Source: free -/
def free (h : Heap) (cp : ℕ) : Heap :=
  if cp = 0 then h
  else if h.mem (cp - 4) ≠ magic then h
  else
    let size := (h.mem (cp - 4 + 1)).toNat
    { h with
      mem := setNext h.mem (cp - 4) (h.nextf size)
      nextf := update h.nextf size (cp - 4) }

/-- The search of a free list. Source: findbucket -/
def search (m : Mem) (freep : ℕ) : ℕ → ℕ → Bool
  | 0, _ => false
  | n + 1, p => if p = 0 then false else p == freep || search m freep n (ovNext m p)

/-- Source: findbucket -/
def findbucket (h : Heap) (freep srchlen : ℕ) : Option ℕ :=
  (List.range nbuckets).find? fun i => search h.mem freep srchlen (h.nextf i)

/-- `__realloc_srchlen`, as it is at first. -/
def reallocSrchlen : ℕ := 4

/-- `onb`: what a block of a bucket holds, unsigned. Source: realloc -/
def onb (h : Heap) (i : ℕ) : ℕ :=
  let n := 2 ^ ((i + 3) % 32)
  if n < h.pagesz then (n + 2 ^ 32 - 4) % 2 ^ 32 else (n + h.pagesz - 4) % 2 ^ 32

/-- What the next smaller block would hold. Source: realloc -/
def less (h : Heap) (i : ℕ) : ℕ :=
  let n := 2 ^ ((i + 2) % 32)
  if i = 0 then 0
  else if n < h.pagesz ∨ 2 ^ 31 ≤ n then (n + 2 ^ 32 - 4) % 2 ^ 32
  else (n + h.pagesz - 4) % 2 ^ 32

/-- `bcopy(cp, res, n)`. -/
def bcopy (m : Mem) (cp res n : ℕ) : Mem := fun i =>
  if res ≤ i ∧ i < res + n then m (cp + (i - res)) else m i

/-- The end of `realloc`. Source: realloc -/
def move (h : Heap) (g : Grants) (cp nbytes onb : ℕ) : ℕ × Heap :=
  match h.malloc g nbytes with
  | (0, h₁) => (0, h₁)
  | (res + 1, h₁) =>
    if cp ≠ res + 1 then
      (res + 1, { h₁ with mem := bcopy h₁.mem cp (res + 1) (if nbytes < onb then nbytes else onb) })
    else (res + 1, h₁)

/-- Source: realloc -/
def realloc (h : Heap) (g : Grants) (cp nbytes : ℕ) : ℕ × Heap :=
  if cp = 0 then h.malloc g nbytes
  else if h.mem (cp - 4) = magic then
    let i := (h.mem (cp - 4 + 1)).toNat
    if nbytes ≤ h.onb i ∧ h.less i < nbytes then (cp, h)
    else (h.free cp).move g cp nbytes (h.onb i)
  else
    let i := ((h.findbucket (cp - 4) 1).or (h.findbucket (cp - 4) reallocSrchlen)).getD nbuckets
    h.move g cp nbytes (h.onb i)

end Heap

end Bsd386.Libc.Malloc
