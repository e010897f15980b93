import Bsd386.Lib.Bytes
import Bsd386.Lib.Linked

/-!
# Radix trees: the memory and its primitives

The data of `sys/net/radix.h` and the functions of `sys/net/radix.c` that routing and netmask
trees share: `rn_search`, `rn_insert`, `rn_inithead`.

A caller passes `struct radix_node nodes[2]`: the first is a leaf, the second an internal node,
and they stay that for good. So the memory has two arrays, and a pair `n` gives the leaf `n` and
its twin, the internal node `n` (`tt + 1` in the source). Each field of the structures is an
array of its own. Pair 0 is `rnh_nodes[0]` and `rnh_nodes[1]`, the leaf of `rn_zeros` and the
top of the tree; leaf 1 is `rnh_nodes[2]`, the leaf of `rn_ones`. A netmask is named by the leaf
of the netmask tree that keeps it, as the source names it by the address of that leaf's key.

`rn_off` and `rn_bmask` are functions of `rn_b` and are not kept. Loops over lists and paths have
fuel; the fuel suffices wherever the trees are well formed.
-/

namespace Bsd386.Net.Radix

open Function

open Lib.Bytes (Byte)
open Lib.Linked

/-! ## Keys -/

/-- A key: the memory at a `caddr_t`; its first byte is its length. -/
abbrev Key := ℕ → Byte

/-- `*(u_char *)v`. Source: rn_insert -/
def vlen (v : Key) : ℕ := (v 0).toNat

/-- `v[x->rn_off] & x->rn_bmask` of a node with `rn_b` equal to `b`: bit 0 is the highest bit of
the first byte.
Source: rn_search, rn_newpair -/
def bitAt (v : Key) (b : ℕ) : Bool := (v (b / 8)).getLsbD (7 - b % 8)

/-- `rn_zeros` -/
def rnZeros : Key := fun _ => 0

/-- `rn_ones` -/
def rnOnes : Key := fun _ => 0xff

/-- `MAXKEYLEN` -/
abbrev maxkeylen : ℕ := 32

/-- The first byte in the range in which the keys differ.
Source: rn_insert, rn_match -/
def firstDiff (v k : Key) (a n : ℕ) : Option ℕ := (List.range' a (n - a)).find? fun i => v i != k i

/-- `for (; cmp_res; b--) cmp_res >>= 1;` Source: rn_insert -/
def countDown : ℕ → Byte → ℕ → ℕ
  | 0, _, b => b
  | n + 1, c, b => if c = 0 then b else countDown n (c >>> 1) (b - 1)

/-- The first bit in which the keys differ, if byte `i` is the first that does.
Source: rn_insert -/
def diffBit (v k : Key) (i : ℕ) : ℕ := countDown 8 (v i ^^^ k i) (8 * (i + 1))

/-! ## Memory -/

/-- A pointer to a `radix_node`; a leaf is one with a negative `rn_b`.
Source: radix.h, struct radix_node -/
inductive Ptr where
  | leaf (i : ℕ)
  | node (i : ℕ)
deriving DecidableEq

/-- The memory of one tree.
Source: radix.h, struct radix_node, struct radix_mask -/
structure Heap where
  /-- `rn_p` of a leaf. -/
  leafP : ℕ → ℕ
  /-- `rn_b` of a leaf, `-1 - index(netmask)`. -/
  leafB : ℕ → ℤ
  /-- Whether `rn_flags` of a leaf has `RNF_ROOT`. -/
  leafRoot : ℕ → Bool
  /-- `rn_key`. -/
  leafKey : ℕ → Key
  /-- `rn_mask`. -/
  leafMask : ℕ → Option ℕ
  /-- `rn_dupedkey`. -/
  leafDup : ℕ → Option ℕ
  /-- `rn_mklist` of a leaf: the annotation made for its route. -/
  leafMk : ℕ → Option ℕ
  /-- `rn_p` of an internal node. -/
  nodeP : ℕ → ℕ
  /-- `rn_b` of an internal node. -/
  nodeB : ℕ → ℕ
  /-- `rn_l`. -/
  nodeL : ℕ → Ptr
  /-- `rn_r`. -/
  nodeR : ℕ → Ptr
  /-- `rn_mklist` of an internal node: the list of masks in its subtree. -/
  nodeMk : ℕ → Option ℕ
  /-- `rm_b`. -/
  rmB : ℕ → ℤ
  /-- `rm_mask`. -/
  rmMask : ℕ → ℕ
  /-- `rm_refs`. -/
  rmRefs : ℕ → ℤ
  /-- `rm_mklist`. -/
  rmNext : ℕ → Option ℕ
  /-- The pairs handed out so far; the next one is zeroed. -/
  fresh : ℕ
  /-- The `radix_mask`s handed out so far. -/
  mfresh : ℕ

/-- `rn_inithead(head, off)` with `off` in bits: the top node between the leaves of `rn_zeros` and
`rn_ones`.
Source: rn_inithead, rn_newpair -/
def rnInithead (off : ℕ) : Heap where
  leafP _ := 0
  leafB _ := -1 - off
  leafRoot i := i = 0 || i = 1
  leafKey i := if i = 1 then rnOnes else rnZeros
  leafMask _ := none
  leafDup _ := none
  leafMk _ := none
  nodeP _ := 0
  nodeB _ := off
  nodeL _ := .leaf 0
  nodeR _ := .leaf 1
  nodeMk _ := none
  rmB _ := 0
  rmMask _ := 0
  rmRefs _ := 0
  rmNext _ := none
  fresh := 2
  mfresh := 0

/-- `x->rn_p = n` -/
def setParent (h : Heap) (x : Ptr) (n : ℕ) : Heap :=
  match x with
  | .leaf j => { h with leafP := update h.leafP j n }
  | .node i => { h with nodeP := update h.nodeP i n }

/-- `p->rn_r = x` or `p->rn_l = x`. -/
def setChild (h : Heap) (p : ℕ) (right : Bool) (x : Ptr) : Heap :=
  if right then { h with nodeR := update h.nodeR p x }
  else { h with nodeL := update h.nodeL p x }

/-! ## Searching -/

/-- The number of steps a path can have: the bits of a key of `MAXKEYLEN` bytes, and the top. -/
def depthFuel : ℕ := 8 * maxkeylen + 1

/-- One step down. Source: rn_search -/
def childOf (h : Heap) (v : Key) (i : ℕ) : Ptr :=
  if bitAt v (h.nodeB i) then h.nodeR i else h.nodeL i

/-- Source: rn_search -/
def rnSearch (h : Heap) (v : Key) : ℕ → Ptr → Option ℕ
  | _, .leaf j => some j
  | 0, .node _ => none
  | n + 1, .node i => rnSearch h v n (childOf h v i)

/-- `head->rn_off`, in bytes. Source: rn_newpair -/
def headOff (h : Heap) : ℕ := h.nodeB 0 / 8

/-! ## Inserting -/

/-- `do { p = x; x = child; } while (b > (unsigned)x->rn_b)`: the first node on the path of `v`
whose bit is not before `b`, or the leaf, with its parent.
Source: rn_insert -/
def descend (h : Heap) (v : Key) (b : ℕ) : ℕ → ℕ → Option (ℕ × Ptr)
  | 0, _ => none
  | n + 1, p =>
    match childOf h v p with
    | .leaf j => some (p, .leaf j)
    | .node i => if h.nodeB i < b then descend h v b n i else some (p, .node i)

/-- `rn_newpair(v, b, nodes)` on the next pair, which is zeroed: the leaf gets the key and the
internal node as its parent.
Source: rn_newpair -/
def newLeaf (h : Heap) (v : Key) (parent : ℕ) : Heap :=
  { h with
    leafP := update h.leafP h.fresh parent
    leafB := update h.leafB h.fresh (-1)
    leafRoot := update h.leafRoot h.fresh false
    leafKey := update h.leafKey h.fresh v
    leafMask := update h.leafMask h.fresh none
    leafDup := update h.leafDup h.fresh none
    leafMk := update h.leafMk h.fresh none
    fresh := h.fresh + 1 }

/-- The internal node of a new pair, spliced in between `p` and `x`.
Source: rn_insert, rn_newpair -/
def splice (h : Heap) (v : Key) (b n p : ℕ) (x : Ptr) : Heap :=
  let h := setChild h p (bitAt v (h.nodeB p)) (.node n)
  let h := setParent h x n
  { h with
    nodeP := update h.nodeP n p
    nodeB := update h.nodeB n b
    nodeL := update h.nodeL n (if bitAt v b then x else .leaf n)
    nodeR := update h.nodeR n (if bitAt v b then .leaf n else x)
    nodeMk := update h.nodeMk n none }

/-- What `rn_insert` returns: the leaf, and whether the key was there.
Source: rn_insert -/
structure Inserted where
  heap : Heap
  tt : ℕ
  dupentry : Bool

/-- Source: rn_insert -/
def rnInsert (h : Heap) (v : Key) : Option Inserted := do
  let t ← rnSearch h v depthFuel (.node 0)
  match firstDiff v (h.leafKey t) (headOff h) (vlen v) with
  | none => some { heap := h, tt := t, dupentry := true }
  | some i =>
    let b := diffBit v (h.leafKey t) i
    let (p, x) ← descend h v b depthFuel 0
    some { heap := splice (newLeaf h v h.fresh) v b h.fresh p x, tt := h.fresh, dupentry := false }

end Bsd386.Net.Radix
