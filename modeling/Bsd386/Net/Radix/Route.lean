import Bsd386.Net.Radix.Basic

/-!
# Routes: adding, deleting and matching

`rn_addmask`, `rn_addroute`, `rn_delete` and `rn_match` of `sys/net/radix.c` on the memory of a
routing tree and of the netmask tree. Every internal node has a list of annotations
(`radix_mask`s): the masks of routes below it that may apply to other keys below it. A route is
annotated at the highest node whose bit is not before the index of its mask.

`rn_addroute` first moves annotations up to a node it has just made ("promote"), then annotates
the new route; `rn_delete` takes the annotation back and moves those of the node it removes down
("demote"). The pieces are named after that: `promote`, `lift`, `unlift`, `demote`.
-/

namespace Bsd386.Net.Radix

open Function

open Lib.Bytes (Byte)
open Lib.Linked

/-- A routing tree and the tree of netmasks. Source: mask_rnhead -/
structure State where
  tree : Heap
  masks : Heap

/-! ## Netmasks -/

/-- The number of ones before the first zero of a byte that is not `0xff`.
Source: rn_addmask -/
def leadOnes (c : Byte) : ℕ := ((List.range 8).find? fun j => !c.getLsbD (7 - j)).getD 8

/-- The index of a mask: its first bit from byte `skip` on that is zero.
Source: rn_addmask -/
def maskIndex (m : Key) (mlen skip : ℕ) : ℕ :=
  let cp := ((List.range' skip (mlen - skip)).find? fun i => m i != 0xff).getD (max skip mlen)
  if cp ≠ mlen ∧ m cp ≠ 0 then 8 * cp + leadOnes (m cp) else 8 * cp

/-- The copy of a netmask in zeroed memory. Source: rn_addmask -/
def padded (m : Key) : Key := fun i => if i < vlen m then m i else 0

/-- Source: rn_addmask -/
def rnAddmask (masks : Heap) (netmask : Key) (skip : ℕ) : Option (Heap × ℕ) := do
  let ins ← rnInsert masks (padded netmask)
  let b : ℤ := -1 - maskIndex (padded netmask) (vlen netmask) skip
  some ({ ins.heap with leafB := update ins.heap.leafB ins.tt b }, ins.tt)

/-- The unique copy of a netmask, made if there is none.
Source: rn_addroute -/
def internMask (masks : Heap) (netmask : Key) (skip : ℕ) : Option (Heap × ℕ) := do
  let x ← rnSearch masks netmask depthFuel (.node 0)
  if ∀ i, i < vlen netmask → netmask i = masks.leafKey x i then some (masks, x)
  else rnAddmask masks netmask skip

/-! ## Annotations -/

/-- `*mp = q`, where `mp` is the list of node `x` or the link of an annotation. -/
def storeMk (h : Heap) (x : ℕ) (prev q : Option ℕ) : Heap :=
  match prev with
  | none => { h with nodeMk := update h.nodeMk x q }
  | some m => { h with rmNext := update h.rmNext m q }

/-- `MKGet(m); Bzero(m)` with `rm_b`, `rm_mask` and the link stored.
Source: radix.c; radix.h, MKGet -/
def mkGet (h : Heap) (b : ℤ) (mask : ℕ) (next : Option ℕ) : Heap :=
  { h with
    rmB := update h.rmB h.mfresh b
    rmMask := update h.rmMask h.mfresh mask
    rmRefs := update h.rmRefs h.mfresh 0
    rmNext := update h.rmNext h.mfresh next
    mfresh := h.mfresh + 1 }

/-- The other child of `t`. Source: rn_addroute -/
def sibling (h : Heap) (t tt : ℕ) : Ptr := if h.nodeR t = .leaf tt then h.nodeL t else h.nodeR t

/-- "Promote general routes from below": the sibling's own route if the sibling is a leaf, else
the annotations of the sibling whose index is not after the bit of `t`.
Source: rn_addroute -/
def promote (h : Heap) (t : ℕ) (x : Ptr) : Option Heap :=
  let bLeaf : ℤ := -1 - h.nodeB t
  match x with
  | .leaf k =>
    match h.leafMask k with
    | none => some h
    | some mask =>
      if bLeaf ≤ h.leafB k ∧ h.leafMk k = none then
        let h' := mkGet h (h.leafB k) mask none
        some { h' with
          leafMk := update h'.leafMk k (some h.mfresh)
          nodeMk := update h'.nodeMk t (some h.mfresh) }
      else some h
  | .node i =>
    match h.nodeMk i with
    | none => some h
    | some m₀ => do
        let (prev, m) ← walk h.rmNext (fun m => bLeaf ≤ h.rmB m) (h.mfresh + 1) none (some m₀)
        some (storeMk { h with nodeMk := update h.nodeMk t m } i prev none)

/-- `do { x = t; t = t->rn_p; } while (b <= t->rn_b && x != head)`.
Source: rn_addroute, rn_delete -/
def highest (h : Heap) (b : ℤ) : ℕ → ℕ → Option ℕ
  | 0, _ => none
  | n + 1, t => if b ≤ h.nodeB (h.nodeP t) ∧ t ≠ 0 then highest h b n (h.nodeP t) else some t

/-- Some byte of the netmask is greater than that of the other mask.
Source: rn_addroute -/
def someByteGreater (netmask mask : Key) (mlen : ℕ) : Bool :=
  decide (∃ i, i < mlen ∧ mask i < netmask i)

/-- "Add new route to highest possible ancestor's list": the annotation of the route at leaf `tt`,
whose netmask is `mask`.
Source: rn_addroute -/
def lift (h masks : Heap) (t tt mask : ℕ) : Option Heap :=
  let b : ℤ := -1 - masks.leafB mask
  if h.nodeB t < b then some h
  else do
    let x ← highest h b depthFuel t
    let bLeaf := h.leafB tt
    let netmask := masks.leafKey mask
    let (prev, m) ← walk h.rmNext
      (fun m => decide (bLeaf < h.rmB m) || (decide (bLeaf ≤ h.rmB m) && (decide (h.rmMask m = mask) ||
        someByteGreater netmask (masks.leafKey (h.rmMask m)) (vlen netmask))))
      (h.mfresh + 1) none (h.nodeMk x)
    match m with
    | some m' =>
      if h.rmB m' ≤ bLeaf ∧ h.rmMask m' = mask then
        some { h with
          rmRefs := update h.rmRefs m' (h.rmRefs m' + 1)
          leafMk := update h.leafMk tt (some m') }
      else
        let h' := storeMk (mkGet h bLeaf mask m) x prev (some h.mfresh)
        some { h' with leafMk := update h'.leafMk tt (some h.mfresh) }
    | none =>
      let h' := storeMk (mkGet h bLeaf mask m) x prev (some h.mfresh)
      some { h' with leafMk := update h'.leafMk tt (some h.mfresh) }

/-! ## Adding a route -/

/-- The leaf of a route whose key is there, attached behind the last one of the chain at `t`.
`rn_p` is left as it was in zeroed memory.
Source: rn_addroute -/
def attachDup (h : Heap) (v : Key) (t : ℕ) : Heap :=
  let n := h.fresh
  let h := newLeaf h v 0
  { h with leafDup := update h.leafDup t (some n) }

/-- "Put mask in tree." Source: rn_addroute -/
def setMask (h masks : Heap) (tt : ℕ) (mask : Option ℕ) : Heap :=
  match mask with
  | none => h
  | some x =>
    { h with
      leafMask := update h.leafMask tt (some x)
      leafB := update h.leafB tt (masks.leafB x) }

/-- The annotations after the leaf `tt` is in the tree, on the leaf `saved` or behind it.
Source: rn_addroute -/
def annotate (h masks : Heap) (saved tt : ℕ) (mask : Option ℕ) : Option Heap := do
  let h := setMask h masks tt mask
  let t := h.leafP saved
  let h ← promote h t (sibling h t saved)
  match mask with
  | none => some h
  | some x => lift h masks t tt x

/-- `rn_addroute(v, netmask, head, treenodes)`, with allocations succeeding. The second component
is the leaf returned, if any.
Source: rn_addroute -/
def rnAddroute (st : State) (v : Key) (netmask : Option Key) : Option (State × Option ℕ) := do
  let (masks, mask) ←
    match netmask with
    | none => some (st.masks, none)
    | some m => (internMask st.masks m (headOff st.tree)).map fun (masks, x) => (masks, some x)
  let ins ← rnInsert st.tree v
  if ins.dupentry then
    let (t, same) ← walk ins.heap.leafDup (fun e => decide (ins.heap.leafMask e = mask))
      (ins.heap.fresh + 1) none (some ins.tt)
    match t, same with
    | some t, none =>
      let h ← annotate (attachDup ins.heap v t) masks ins.tt ins.heap.fresh mask
      some ({ tree := h, masks := masks }, some ins.heap.fresh)
    | _, _ => some ({ tree := ins.heap, masks := masks }, none)
  else
    let h ← annotate ins.heap masks ins.tt ins.tt mask
    some ({ tree := h, masks := masks }, some ins.tt)

/-! ## Deleting a route -/

/-- "Delete our route from mask lists": drop one reference to the annotation of `tt`, and the
annotation with the last one.
Source: rn_delete -/
def unlift (h : Heap) (saved tt : ℕ) : Option Heap :=
  match h.leafMask tt, h.leafMk tt with
  | some mask, some m =>
    if h.rmMask m ≠ mask then some h
    else
      let h := { h with rmRefs := update h.rmRefs m (h.rmRefs m - 1) }
      if 0 ≤ h.rmRefs m then some h
      else
        let b : ℤ := -1 - h.leafB tt
        if h.nodeB (h.leafP saved) < b then some h
        else do
          let x ← highest h b depthFuel (h.leafP saved)
          let (prev, m') ← walk h.rmNext (fun m' => decide (m' = m)) (h.mfresh + 1) none (h.nodeMk x)
          match m' with
          | none => some h
          | some _ => some (storeMk h x prev (h.rmNext m))
  | _, _ => some h

/-- Node `i` copied to the place of node `n`, with its children and its parent told.
Source: rn_delete -/
def moveNode (h : Heap) (i n : ℕ) : Heap :=
  let p := h.nodeP i
  let h :=
    { h with
      nodeP := update h.nodeP n (h.nodeP i)
      nodeB := update h.nodeB n (h.nodeB i)
      nodeL := update h.nodeL n (h.nodeL i)
      nodeR := update h.nodeR n (h.nodeR i)
      nodeMk := update h.nodeMk n (h.nodeMk i) }
  let h := setParent (setParent h (h.nodeL n) n) (h.nodeR n) n
  setChild h p (decide (h.nodeL p ≠ .node i)) (.node n)

/-- The first leaf `tt` of a chain replaced by the next one `x`, which also takes over the node
of `tt`.
Source: rn_delete -/
def dropHead (h : Heap) (tt x : ℕ) : Heap :=
  let t := h.leafP tt
  let h := { h with leafP := update h.leafP x t }
  let h := setChild h t (decide (h.nodeL t ≠ .leaf tt)) (.leaf x)
  let p := h.nodeP tt
  let h :=
    { h with
      nodeP := update h.nodeP x (h.nodeP tt)
      nodeB := update h.nodeB x (h.nodeB tt)
      nodeL := update h.nodeL x (h.nodeL tt)
      nodeR := update h.nodeR x (h.nodeR tt)
      nodeMk := update h.nodeMk x (h.nodeMk tt) }
  let h := setChild h p (decide (h.nodeL p ≠ .node tt)) (.node x)
  setParent (setParent h (h.nodeL x) x) (h.nodeR x) x

/-- The loop over the annotations of a node whose remaining child is the leaf `k`.
Source: rn_delete -/
def demoteLeaf (k : ℕ) : ℕ → Option ℕ → Heap → Option Heap
  | 0, _, _ => none
  | _ + 1, none, h => some h
  | n + 1, some m, h =>
    let mm := h.rmNext m
    if h.leafMk k = some m then
      let h := { h with rmRefs := update h.rmRefs m (h.rmRefs m - 1) }
      if h.rmRefs m < 0 then demoteLeaf k n mm { h with leafMk := update h.leafMk k none }
      else demoteLeaf k n mm h
    else demoteLeaf k n mm h

/-- "Demote routes attached to us." Source: rn_delete -/
def demote (h : Heap) (t : ℕ) (x : Ptr) : Option Heap :=
  match x with
  | .node i =>
    match h.nodeMk t with
    | none => some h
    | some m => do
        let (prev, _) ← walk h.rmNext (fun _ => false) (h.mfresh + 1) none (h.nodeMk i)
        some (storeMk h i prev (some m))
  | .leaf k => demoteLeaf k (h.mfresh + 1) (h.nodeMk t) h

/-- The only leaf of a chain and its parent `t` taken out of the tree; the node of `tt`, which may
be in use elsewhere, moves to the place of `t`.
Source: rn_delete -/
def dropLeaf (h : Heap) (tt : ℕ) : Option Heap := do
  let t := h.leafP tt
  let x := if h.nodeL t = .leaf tt then h.nodeR t else h.nodeL t
  let p := h.nodeP t
  let h := setChild h p (decide (h.nodeR p = .node t)) x
  let h := setParent h x p
  let h ← demote h t x
  some (if t ≠ tt then moveNode h tt t else h)

/-- `rn_delete(v, netmask, head)`. The second component is the leaf returned, if any.
Source: rn_delete -/
def rnDelete (st : State) (v : Key) (netmask : Option Key) : Option (State × Option ℕ) := do
  let h := st.tree
  let saved ← rnSearch h v depthFuel (.node 0)
  if (firstDiff v (h.leafKey saved) (headOff h) (vlen v)).isSome then some (st, none)
  else
    let found ←
      match h.leafDup saved with
      | none => some (some saved)
      | some _ => do
          let mask ←
            match netmask with
            | none => some none
            | some m => (rnSearch st.masks m depthFuel (.node 0)).map some
          let (_, tt) ← walk h.leafDup (fun e => decide (h.leafMask e = mask)) (h.fresh + 1) none
            (some saved)
          some tt
    match found with
    | none => some (st, none)
    | some tt => do
        let h ← unlift h saved tt
        if h.leafRoot tt then some ({ st with tree := h }, none)
        else
          match h.leafDup saved with
          | some x =>
            if tt = saved then some ({ st with tree := dropHead h tt x }, some tt)
            else do
              let (p, _) ← walk h.leafDup (fun e => decide (e = tt)) (h.fresh + 1) none (some saved)
              match p with
              | none => some ({ st with tree := h }, some tt)
              | some p =>
                some ({ st with tree :=
                  { h with leafDup := update h.leafDup p (h.leafDup tt) } }, some tt)
          | none => do
              let h ← dropLeaf h tt
              some ({ st with tree := h }, some tt)

/-! ## Matching -/

/-- The bytes from `a` to `n` that the mask keeps are those of the key.
Source: rn_match -/
def maskedEq (v key mask : Key) (a n : ℕ) : Bool :=
  decide (∀ i, i < n → a ≤ i → (key i ^^^ v i) &&& mask i = 0)

/-- The first route of a chain whose mask makes it match.
Source: rn_match, on1 -/
def matchChain (h masks : Heap) (v : Key) (off t : ℕ) : Option (Option ℕ) := do
  let (_, e) ← walk h.leafDup
    (fun e => match h.leafMask e with
      | none => false
      | some m => maskedEq v (h.leafKey e) (masks.leafKey m) off (vlen v))
    (h.fresh + 1) none (some t)
  some e

/-- `maskedKey`: the key masked from byte `off` on, over what an earlier call left there.
Source: rn_match -/
def maskedKey (old v mask : Key) (off : ℕ) : Key := fun i =>
  if off ≤ i ∧ i < vlen v then v i &&& mask i else old i

/-- One annotation tried at node `t`: the route it leads to, if that one matches.
Source: rn_match -/
def tryMask (h masks : Heap) (old v : Key) (off t m : ℕ) : Option (Option ℕ) := do
  let key := maskedKey old v (masks.leafKey (h.rmMask m)) off
  let x ← rnSearch h key depthFuel (.node t)
  let (_, e) ← walk h.leafDup (fun e => decide (h.leafMask e = some (h.rmMask m))) (h.fresh + 1) none
    (some x)
  match e with
  | none => some none
  | some e =>
    some (if (firstDiff key (h.leafKey e) off (vlen v)).isNone then some e else none)

/-- The annotations of a node, tried in their order. Source: rn_match -/
def tryMasks (h masks : Heap) (old v : Key) (off t : ℕ) : ℕ → Option ℕ → Option (Option ℕ)
  | 0, _ => none
  | _ + 1, none => some none
  | n + 1, some m => do
      match ← tryMask h masks old v off t m with
      | some e => some (some e)
      | none => tryMasks h masks old v off t n (h.rmNext m)

/-- "Start searching up the tree." Source: rn_match -/
def matchUp (h masks : Heap) (old v : Key) (off : ℕ) : ℕ → ℕ → Option (Option ℕ)
  | 0, _ => none
  | n + 1, t => do
      match ← tryMasks h masks old v (min (h.nodeB t / 8) off) t (h.mfresh + 1) (h.nodeMk t) with
      | some e => some (some e)
      | none => if t = 0 then some none else matchUp h masks old v off n (h.nodeP t)

/-- `rn_match(v, head)`; `old` is what `maskedKey` holds from earlier calls. The result is the
leaf returned, if any.
Source: rn_match -/
def rnMatch (st : State) (old v : Key) : Option (Option ℕ) := do
  let h := st.tree
  let t ← rnSearch h v depthFuel (.node 0)
  match firstDiff v (h.leafKey t) (headOff h) (vlen v) with
  | none =>
    match h.leafRoot t, h.leafDup t with
    | true, some d => some (some d)
    | _, _ => some (some t)
  | some off =>
    match ← matchChain h st.masks v off t with
    | some e => some (some e)
    | none => matchUp h st.masks old v off depthFuel (h.leafP t)

/-! ## Sequences of calls -/

/-- A call that changes the tree. -/
inductive Op where
  | add (v : Key) (netmask : Option Key)
  | delete (v : Key) (netmask : Option Key)

/-- One call. Source: rn_addroute, rn_delete -/
def step (st : State) : Op → Option State
  | .add v netmask => (rnAddroute st v netmask).map Prod.fst
  | .delete v netmask => (rnDelete st v netmask).map Prod.fst

/-- The state after `rn_inithead(head, 8 * off, af)`, which also makes the netmask tree.
Source: rn_inithead -/
def initial (off : ℕ) : State := { tree := rnInithead (8 * off), masks := rnInithead 0 }

end Bsd386.Net.Radix
