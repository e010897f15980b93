import Bsd386.Lib.Linked
import Mathlib.Data.Finset.Insert
import Mathlib.Data.Finset.Erase
import Mathlib.Algebra.Ring.Nat

/-!
# The kernel allocator

Requests are rounded up to the size of a bucket. Up to half a cluster (a page) the chunks of a bucket share
clusters; from a cluster to `MAXALLOCSAVE` a chunk has clusters of its own, which are kept on the free list up
to the high-water mark; larger requests go to `kmem_malloc` each time.

A call of `malloc` that may sleep is cut at the sleep points: `again` is the part from the label `again` on,
`kmem` what comes behind `kmem_malloc`. `goto again` is also a cut, so that there are more interleavings here
than in the source. Interrupts are left out, and so are the counters that nothing reads.

`Kern.areas` is not in the source: the first cluster of each piece of memory that `malloc` has from
`kmem_malloc`, for the statements.

Source: `sys/kern/kern_malloc.c`.
-/

namespace Bsd386.Kern.Malloc

open Function Lib.Linked

/-- `CLBYTES`, `NBPG`. -/
def clbytes : ℕ := 4096

/-- `MINBUCKET`. -/
def minbucket : ℕ := 4

/-- `MAXALLOCSAVE`. -/
def maxallocsave : ℕ := 2 * clbytes

/-- `M_LAST`: the number of types. -/
def mLast : ℕ := 53

/-- `M_WAITOK`, `M_NOWAIT`. -/
inductive Wait where
  | waitok
  | nowait
deriving DecidableEq

/-- The contents of a cluster; `kuCnt` is `ku_freecnt` and `ku_pagecnt`, which share storage.
Source: malloc.h (struct kmemusage) -/
structure Kmemusage where
  kuIndx : ℕ
  kuCnt : ℕ
  kuGccnt : ℕ

/-- Set of buckets for each size of memory block that is retained.
Source: malloc.h (struct kmembuckets) -/
structure Kmembuckets where
  kbNext : ℕ
  kbTotal : ℤ
  kbTotalfree : ℤ
  kbElmpercl : ℕ
  kbHighwat : ℕ

/-- What is charged to a type. Source: malloc.h (struct kmemstats) -/
structure Kmemstats where
  ksInuse : ℤ
  ksMemuse : ℤ
  ksLimit : ℤ

/-- The variables of the allocator, the words at the chunks, and the clusters of `kmem_map` that are
allocated. -/
structure Kern where
  word : ℕ → ℕ
  bucket : ℕ → Kmembuckets
  stats : ℕ → Kmemstats
  usage : ℕ → Kmemusage
  kmembase : ℕ
  kmemsize : ℕ
  needgc : Bool
  gcfree : ℕ
  map : ℕ → Bool
  areas : Finset ℕ

/-- `BUCKETINDX(size)`. -/
def bucketindx (size : ℕ) : ℕ :=
  let m := 2 ^ minbucket
  if size ≤ m * 128 then
    if size ≤ m * 8 then
      if size ≤ m * 2 then
        if size ≤ m * 1 then minbucket + 0 else minbucket + 1
      else if size ≤ m * 4 then minbucket + 2 else minbucket + 3
    else if size ≤ m * 32 then
      if size ≤ m * 16 then minbucket + 4 else minbucket + 5
    else if size ≤ m * 64 then minbucket + 6 else minbucket + 7
  else if size ≤ m * 2048 then
    if size ≤ m * 512 then
      if size ≤ m * 256 then minbucket + 8 else minbucket + 9
    else if size ≤ m * 1024 then minbucket + 10 else minbucket + 11
  else if size ≤ m * 8192 then
    if size ≤ m * 4096 then minbucket + 12 else minbucket + 13
  else if size ≤ m * 16384 then minbucket + 14 else minbucket + 15

def ptr (p : ℕ) : Option ℕ := if p = 0 then none else some p

/-- What a call needs to know when it goes on. Source: malloc -/
structure Caller where
  size : ℕ
  type : ℕ
  wait : Wait

/-- `indx`. Source: malloc -/
def Caller.indx (c : Caller) : ℕ := bucketindx c.size

/-- `allocsize`, an unsigned long put into a long. Source: malloc -/
def Caller.allocsize (c : Caller) : ℕ :=
  if maxallocsave < c.size then (c.size + (clbytes - 1)) % 2 ^ 32 / clbytes * clbytes else 2 ^ c.indx

/-- `npg`. Source: malloc, i386/include/param.h (btoc) -/
def Caller.npg (c : Caller) : ℕ := (c.allocsize + (clbytes - 1)) % 2 ^ 32 / clbytes

/-- Where a call is afterwards: at the label `again`, in `kmem_malloc`, or back with an address; `fault` is
an access past the end of an array or a loop without an end. Source: malloc -/
inductive Result where
  | again
  | kmem
  | ret (va : ℕ)
  | panic
  | fault
deriving DecidableEq

namespace Kern

/-- `btokup(addr)`: the number of the cluster. -/
def btokup (k : Kern) (addr : ℕ) : ℕ := (addr - k.kmembase) / clbytes

/-- The address of a cluster. Source: bucket_gc -/
def addrOf (k : Kern) (p : ℕ) : ℕ := k.kmembase + clbytes * p

/-- `kmem_malloc` of `n` clusters gives fresh memory of `kmem_map`, from the cluster `p` on.
Source: kmem_malloc -/
def Fresh (k : Kern) (p n : ℕ) : Prop :=
  0 < n ∧ p + n ≤ k.kmemsize / clbytes ∧ ∀ q, p ≤ q → q < p + n → k.map q = false

/-- `kmem_free` of `n` clusters from `p` on. Source: kmem_free -/
def kmemFree (k : Kern) (p n : ℕ) : Kern :=
  { k with map := fun q => if p ≤ q ∧ q < p + n then false else k.map q }

/-- `WANTGC(kbp)`. -/
def wantgc (k : Kern) (i : ℕ) : Bool :=
  decide ((k.gcfree * (k.bucket i).kbElmpercl : ℕ) < (k.bucket i).kbTotalfree - (k.bucket i).kbHighwat)

/-! ## Garbage collection -/

/-- `for (i = n; --i > 0; ) next = *(caddr_t *) next;`.
Source: bucket_gc -/
def skip (word : ℕ → ℕ) : ℕ → ℕ → ℕ
  | n + 2, next => skip word (n + 1) (word next)
  | _, next => next

/-- `btokup(next)->ku_gccnt++` for the chunks of a list.
Source: bucket_gc -/
def count (k : Kern) (usage : ℕ → Kmemusage) : List ℕ → ℕ → Kmemusage
  | [] => usage
  | a :: l =>
    let u := usage (k.btokup a)
    count k (update usage (k.btokup a) { u with kuGccnt := u.kuGccnt + 1 }) l

/-- The two lists under way: `prev` and `prev2` are `none` when they point to the heads.
Source: bucket_gc -/
structure Lists where
  word : ℕ → ℕ
  head : ℕ
  head2 : ℕ
  prev : Option ℕ
  prev2 : Option ℕ

/-- `*prev = v`. Source: bucket_gc -/
def Lists.store (c : Lists) (v : ℕ) : Lists :=
  match c.prev with
  | none => { c with head := v }
  | some a => { c with word := update c.word a v }

/-- `*prev2 = v`. Source: bucket_gc -/
def Lists.store2 (c : Lists) (v : ℕ) : Lists :=
  match c.prev2 with
  | none => { c with head2 := v }
  | some a => { c with word := update c.word a v }

/-- Now walk the list to be cleaned again: drop the chunks of free clusters, and put those of clusters that
are over half free onto a second list. Source: bucket_gc -/
def relink (gccnt : ℕ → ℕ) (elmpercl : ℕ) : ℕ → Lists → ℕ → Option Lists
  | 0, _, _ => none
  | n + 1, c, next =>
    if next = 0 then some c
    else
      let c' :=
        if gccnt next = elmpercl then c.store (c.word next)
        else if elmpercl / 2 < gccnt next then { c.store2 next with prev2 := some next }
        else { c.store next with prev := some next }
      relink gccnt elmpercl n c' (c'.word next)

/-- Place second list after the first list, and prepend the cleaned list to whatever is now in the bucket.
Source: bucket_gc -/
def Lists.join (c : Lists) (kbNext : ℕ) : Lists :=
  let c' := c.store c.head2
  if c.head2 = 0 then c'.store kbNext else c'.store2 kbNext

/-- The loop over `kmemusage`: free the clusters, count them, and clear `ku_gccnt`.
Source: bucket_gc -/
def sweep (i : ℕ) : ℕ → Kern → ℕ × Kern
  | 0, k => (0, k)
  | p + 1, k =>
    let (freed, k) := sweep i p k
    let usage := update k.usage p { k.usage p with kuGccnt := 0 }
    let b := k.bucket i
    if (k.usage p).kuGccnt = b.kbElmpercl then
      (freed + 1, { k.kmemFree p 1 with
        usage := usage
        bucket := update k.bucket i { b with
          kbTotal := b.kbTotal - b.kbElmpercl
          kbTotalfree := b.kbTotalfree - b.kbElmpercl }
        areas := k.areas.erase p })
    else (freed, { k with usage := usage })

def fuel (k : Kern) : ℕ := k.kmembase + k.kmemsize + 1

/-- Source: bucket_gc -/
def bucketGc (k : Kern) (i : ℕ) : Option (ℕ × Kern) :=
  let b := k.bucket i
  let next := skip k.word (b.kbHighwat / 4) b.kbNext
  let head := k.word next
  let word := update k.word next 0
  (collect (fun a => ptr (word a)) k.fuel (ptr head)).bind fun l =>
    let usage := k.count k.usage l
    (relink (fun a => (usage (k.btokup a)).kuGccnt) b.kbElmpercl k.fuel ⟨word, head, 0, none, none⟩ head).map
      fun c =>
        let c := c.join b.kbNext
        sweep i (k.kmemsize / clbytes) { k with
          word := c.word
          usage := usage
          bucket := update k.bucket i { b with kbNext := c.head } }

/-- The loop of `malloc_gc`, over `n` buckets. Source: malloc_gc -/
def gcLoop (force : Bool) : ℕ → ℕ → Kern → Option (ℕ × Kern)
  | 0, _, k => some (0, k)
  | n + 1, i, k =>
    let b := k.bucket i
    if k.wantgc i || (force && decide ((b.kbElmpercl : ℤ) < b.kbTotalfree - b.kbHighwat)) then
      (k.bucketGc i).bind fun (freed, k) => (gcLoop force n (i + 1) k).map fun (m, k) => (freed + m, k)
    else gcLoop force n (i + 1) k

/-- Source: malloc_gc -/
def mallocGc (k : Kern) (force : Bool) : Option (ℕ × Kern) :=
  gcLoop force (bucketindx clbytes - minbucket) minbucket { k with needgc := false }

/-! ## malloc and free -/

/-- From `va = kbp->kb_next` on. Source: malloc -/
def take (k : Kern) (c : Caller) : Result × Kern :=
  let b := k.bucket c.indx
  let va := b.kbNext
  let u := k.usage (k.btokup va)
  let s := k.stats c.type
  (.ret va, { k with
    bucket := update k.bucket c.indx { b with
      kbNext := k.word va
      kbTotalfree := b.kbTotalfree - 1 }
    usage := update k.usage (k.btokup va) { u with kuCnt := (u.kuCnt + 65535) % 65536 }
    stats := update k.stats c.type { s with
      ksMemuse := s.ksMemuse + (2 ^ c.indx : ℕ)
      ksInuse := s.ksInuse + 1 } })

/-- From `again` to the next sleep point. Source: malloc -/
def again (k : Kern) (c : Caller) : Result × Kern :=
  if mLast ≤ c.type then (.fault, k)
  else if (k.stats c.type).ksLimit ≤ (k.stats c.type).ksMemuse then
    if c.wait = .nowait then (.ret 0, k) else (.again, k)
  else if (k.bucket c.indx).kbNext = 0 then
    if k.needgc ∧ c.wait = .waitok then
      match k.mallocGc false with
      | none => (.fault, k)
      | some (_, k) => (.again, k)
    else (.kmem, k)
  else k.take c

/-- `for (cp = kb_next; cp > va; cp -= allocsize) *(caddr_t *)cp = cp - allocsize; *(caddr_t *)cp = savedlist`.
Source: malloc -/
def carve (va allocsize savedlist : ℕ) : ℕ → ℕ → (ℕ → ℕ) → Option (ℕ → ℕ)
  | 0, _, _ => none
  | n + 1, cp, word =>
    if va < cp then carve va allocsize savedlist n (cp - allocsize) (update word cp (cp - allocsize))
    else some (update word cp savedlist)

/-- Behind `kmem_malloc`: no memory, or memory from the cluster `p` on.
Source: malloc -/
def kmem (k : Kern) (c : Caller) : Option ℕ → Result × Kern
  | none =>
    if c.wait = .waitok then
      match k.mallocGc true with
      | none => (.fault, k)
      | some (freed, k) => if freed ≠ 0 then (.again, k) else (.panic, k)
    else (.ret 0, k)
  | some p =>
    let va := k.addrOf p
    let b := k.bucket c.indx
    let s := k.stats c.type
    let k₁ := { k with
      map := fun q => if p ≤ q ∧ q < p + c.npg then true else k.map q
      areas := insert p k.areas }
    if maxallocsave < c.allocsize ∧ c.allocsize < 2 ^ 31 then
      if 65535 < c.npg then (.panic, k)
      else (.ret va, { k₁ with
        bucket := update k.bucket c.indx { b with kbTotal := b.kbTotal + b.kbElmpercl }
        usage := update k.usage p { k.usage p with kuIndx := c.indx, kuCnt := c.npg }
        stats := update k.stats c.type { s with
          ksMemuse := s.ksMemuse + c.allocsize
          ksInuse := s.ksInuse + 1 } })
    else
      let last := va + c.npg * clbytes - c.allocsize
      match carve va c.allocsize b.kbNext (clbytes + 1) last k.word with
      | none => (.fault, k)
      | some word => Kern.take { k₁ with
          word := word
          bucket := update k.bucket c.indx { b with
            kbNext := last
            kbTotal := b.kbTotal + b.kbElmpercl
            kbTotalfree := b.kbTotalfree + b.kbElmpercl }
          usage := update k.usage p { k.usage p with kuIndx := c.indx, kuCnt := b.kbElmpercl } } c

/-- Source: free -/
def free (k : Kern) (addr type : ℕ) : Kern :=
  let p := k.btokup addr
  let u := k.usage p
  let i := u.kuIndx
  let b := k.bucket i
  let s := k.stats type
  let charge (size : ℕ) := update k.stats type { s with
    ksMemuse := s.ksMemuse - size
    ksInuse := s.ksInuse - 1 }
  if clbytes ≤ 2 ^ i ∧ (b.kbHighwat : ℤ) ≤ b.kbTotalfree then
    let size := if maxallocsave < 2 ^ i then u.kuCnt * clbytes else 2 ^ i
    { k.kmemFree p (size / clbytes) with
      usage := update k.usage p { u with kuIndx := 0, kuCnt := 0 }
      bucket := update k.bucket i { b with kbTotal := b.kbTotal - 1 }
      stats := charge size
      areas := k.areas.erase p }
  else
    let cnt := (u.kuCnt + 1) % 65536
    { k with
      usage := update k.usage p { u with kuCnt := cnt }
      needgc := k.needgc ||
        (decide (b.kbElmpercl ≤ cnt) && decide ((b.kbHighwat : ℤ) < b.kbTotalfree) && k.wantgc i)
      bucket := update k.bucket i { b with
        kbTotalfree := b.kbTotalfree + 1
        kbNext := addr }
      word := update k.word addr b.kbNext
      stats := charge (2 ^ i) }

/-- `kb_elmpercl` of a bucket. Source: kmeminit -/
def elmOf (i : ℕ) : ℕ := if clbytes ≤ 2 ^ i then 1 else clbytes / 2 ^ i

/-- `kb_highwat` of a bucket. Source: kmeminit -/
def highwatOf (i : ℕ) : ℕ := if 2 ^ i ≤ maxallocsave then 5 * elmOf i else 0

/-- `kmeminit`, with the variables that are set elsewhere; `M_BUFFER` is 43.
Source: kmeminit -/
def kmeminit (word : ℕ → ℕ) (kmembase kmemsize : ℕ) (bufmap maxbufmem : ℤ) : Kern where
  word := word
  bucket := fun i => ⟨0, 0, 0, elmOf i, highwatOf i⟩
  stats := fun t => ⟨0, 0, (kmemsize - bufmap) * 6 / 10 + if t = 43 then maxbufmem else 0⟩
  usage := fun _ => ⟨0, 0, 0⟩
  kmembase := kmembase
  kmemsize := kmemsize
  needgc := false
  gcfree := kmemsize / (clbytes * 20)
  map := fun _ => false
  areas := ∅

end Kern

end Bsd386.Kern.Malloc
