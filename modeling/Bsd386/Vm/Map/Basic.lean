import Mathlib.Data.Int.Notation
import Mathlib.Data.Nat.Notation
import Mathlib.Logic.Function.Basic
import Mathlib.Algebra.Ring.Nat

/-!
# Virtual memory maps

A map is an ordered doubly linked list of entries with a hint for lookups (`sys/vm/vm_map.c`). Entries
are known by their addresses, numbers other than 0; number 0 is the header of the map, whose `start` and
`end_` are `min_offset` and `max_offset`. `VmMap.order` lists the entries from `header.next` on, and
`next` and `prev` go around the ring that they form with the header.

Addresses are natural numbers below `2 ^ 32`, and offsets into objects machine words. Locks, the
physical map and the reference counts of objects are left out: no function here reads them.
-/

namespace Bsd386.Vm

/-! ## Entries and maps -/

/-- `object` is the address of the object, the sharing map or the submap, 0 for `NULL`.
Source: vm_map.h, struct vm_map_entry -/
structure MapEntry where
  start : ℕ := 0
  end_ : ℕ := 0
  object : ℕ := 0
  offset : BitVec 32 := 0
  isAMap : Bool := false
  isSubMap : Bool := false
  copyOnWrite : Bool := false
  needsCopy : Bool := false
  protection : BitVec 32 := 0
  maxProtection : BitVec 32 := 0
  inheritance : ℤ := 0
  wiredCount : ℤ := 0
deriving DecidableEq

/-- Source: vm_map.h, struct vm_map -/
structure VmMap where
  entry : ℕ → MapEntry
  order : List ℕ
  nentries : ℤ
  size : BitVec 32
  isMainMap : Bool
  hint : ℕ
  firstFree : ℕ

/-- Source: vm_param.h -/
inductive KernReturn where
  | success
  | invalidAddress
  | protectionFailure
  | noSpace
  | invalidArgument
  | failure
deriving DecidableEq

/-- Source: vm_inherit.h -/
def vmInheritShare : ℤ := 0

/-- Source: vm_inherit.h -/
def vmInheritCopy : ℤ := 1

/-- Source: vm_inherit.h -/
def vmInheritNone : ℤ := 2

namespace VmMap

variable (m : VmMap)

/-- Source: vm_map.h, min_offset -/
def minOffset : ℕ := (m.entry 0).start

/-- Source: vm_map.h, max_offset -/
def maxOffset : ℕ := (m.entry 0).end_

/-- `entry->next`. -/
def next (p : ℕ) : ℕ := ((0 :: m.order).dropWhile (· ≠ p)).tail.headD 0

/-- `entry->prev`. -/
def prev (p : ℕ) : ℕ := (m.order.takeWhile (· ≠ p)).getLastD 0

/-- The address of a new entry: one that is not in use. Source: vm_map_entry_create -/
def create : ℕ := m.order.foldr max 0 + 1

/-- Source: vm_map.c -/
def setEntry (p : ℕ) (e : MapEntry) : VmMap := { m with entry := Function.update m.entry p e }

/-- Source: SAVE_HINT -/
def saveHint (p : ℕ) : VmMap := { m with hint := p }

/-- `x` behind `p` in a list. -/
def insertAfter (p x : ℕ) : List ℕ → List ℕ
  | [] => []
  | q :: l => if q = p then q :: x :: l else q :: insertAfter p x l

/-- Source: vm_map_entry_link -/
def link (afterWhere p : ℕ) : VmMap :=
  { m with
    nentries := m.nentries + 1
    order := (insertAfter afterWhere p (0 :: m.order)).tail }

/-- Source: vm_map_entry_unlink -/
def unlink (p : ℕ) : VmMap := { m with nentries := m.nentries - 1, order := m.order.erase p }

/-! ## Lookup -/

/-- Search linearly up to `last`: where the search stops.
Source: vm_map_lookup_entry -/
def search (address last : ℕ) : ℕ → ℕ → ℕ
  | 0, cur => cur
  | n + 1, cur =>
    if cur = last then cur
    else if address < (m.entry cur).end_ then cur
    else search address last n (m.next cur)

/-- The end of the function: the search from `cur` up to `last`. An entry where the search stops before
`last` ends after `address`.
Source: vm_map_lookup_entry -/
def lookupFrom (address cur last : ℕ) : Bool × ℕ × VmMap :=
  let cur := m.search address last (m.order.length + 1) cur
  if cur ≠ last ∧ (m.entry cur).start ≤ address then (true, cur, m.saveHint cur)
  else (false, m.prev cur, m.saveHint (m.prev cur))

/-- Is the address mapped, and the entry that contains it or precedes it. Only the hint changes.
Source: vm_map_lookup_entry -/
def lookupEntry (address : ℕ) : Bool × ℕ × VmMap :=
  let cur := if m.hint = 0 then m.next m.hint else m.hint
  if (m.entry cur).start ≤ address then
    -- from the hint to the end of the list, with a quick check of the hint itself
    if cur ≠ 0 ∧ address < (m.entry cur).end_ then (true, cur, m)
    else m.lookupFrom address cur 0
  else m.lookupFrom address (m.next 0) (m.next cur)

/-! ## Clipping -/

/-- Split off the front portion. Source: _vm_map_clip_start -/
def clipStartSplit (p start : ℕ) : VmMap :=
  let e := m.entry p
  let new := m.create
  ((m.setEntry new { e with end_ := start }).setEntry p
    { e with offset := e.offset + BitVec.ofNat 32 (start - e.start), start := start }).link (m.prev p) new

/-- Source: vm_map_clip_start -/
def clipStart (p startaddr : ℕ) : VmMap :=
  if (m.entry p).start < startaddr then m.clipStartSplit p startaddr else m

/-- Split off the rest behind `end_`. Source: _vm_map_clip_end -/
def clipEndSplit (p end_ : ℕ) : VmMap :=
  let e := m.entry p
  let new := m.create
  ((m.setEntry new
    { e with start := end_, offset := e.offset + BitVec.ofNat 32 (end_ - e.start) }).setEntry p
      { e with end_ := end_ }).link p new

/-- Source: vm_map_clip_end -/
def clipEnd (p endaddr : ℕ) : VmMap :=
  if endaddr < (m.entry p).end_ then m.clipEndSplit p endaddr else m

/-- Source: VM_MAP_RANGE_CHECK -/
def rangeCheck (start end_ : ℕ) : ℕ × ℕ :=
  let start := if start < m.minOffset then m.minOffset else start
  let end_ := if m.maxOffset < end_ then m.maxOffset else end_
  (if end_ < start then end_ else start, end_)

/-- The first entry of a range, clipped at its start.
Source: vm_map_protect, vm_map_inherit, vm_map_pageable, vm_map_submap. -/
def clipFirst (start : ℕ) : ℕ × VmMap :=
  match m.lookupEntry start with
  | (true, p, m) => (p, m.clipStart p start)
  | (false, p, m) => (m.next p, m)

/-- `while ((current != &map->header) && (current->start < end))`: clip the end of the entry, change it
by `f`, go to the next. Source: vm_map_protect, vm_map_inherit,
`vm_map_pageable` -/
def changeLoop (f : MapEntry → MapEntry) (end_ : ℕ) : ℕ → VmMap → ℕ → VmMap
  | 0, m, _ => m
  | n + 1, m, cur =>
    if cur ≠ 0 ∧ (m.entry cur).start < end_ then
      let m₁ := m.clipEnd cur end_
      let m₂ := m₁.setEntry cur (f (m₁.entry cur))
      changeLoop f end_ n m₂ (m₂.next cur)
    else m

/-- The whole loop, from the first entry of a range on.
Source: vm_map_protect, vm_map_inherit, vm_map_pageable -/
def changeFrom (f : MapEntry → MapEntry) (end_ : ℕ) (first : ℕ × VmMap) : VmMap :=
  changeLoop f end_ (first.2.order.length + 1) first.2 first.1

/-! ## Protection and inheritance -/

/-- The first pass: the reason to refuse, if any.
Source: vm_map_protect -/
def protectCheck (newProt : BitVec 32) (end_ : ℕ) : ℕ → ℕ → Option KernReturn
  | 0, _ => none
  | n + 1, cur =>
    if cur ≠ 0 ∧ (m.entry cur).start < end_ then
      if (m.entry cur).isSubMap then some .invalidArgument
      else if newProt &&& (m.entry cur).maxProtection ≠ newProt then some .protectionFailure
      else protectCheck newProt end_ n (m.next cur)
    else none

/-- The new protection of an entry. Source: vm_map_protect -/
def protectEntry (newProt : BitVec 32) (setMax : Bool) (e : MapEntry) : MapEntry :=
  if setMax then { e with maxProtection := newProt, protection := newProt &&& e.protection }
  else { e with protection := newProt }

/-- Source: vm_map_protect -/
def protect (start end_ : ℕ) (newProt : BitVec 32) (setMax : Bool) : KernReturn × VmMap :=
  let range := m.rangeCheck start end_
  let first := m.clipFirst range.1
  match first.2.protectCheck newProt range.2 (first.2.order.length + 1) first.1 with
  | some r => (r, first.2)
  | none => (.success, changeFrom (protectEntry newProt setMax) range.2 first)

/-- Source: vm_map_inherit -/
def inherit (start end_ : ℕ) (newInheritance : ℤ) : KernReturn × VmMap :=
  if newInheritance = vmInheritNone ∨ newInheritance = vmInheritCopy ∨
      newInheritance = vmInheritShare then
    let range := m.rangeCheck start end_
    (.success, changeFrom (fun e => { e with inheritance := newInheritance }) range.2
      (m.clipFirst range.1))
  else (.invalidArgument, m)

/-! ## Removal -/

/-- Source: vm_map_entry_delete -/
def entryDelete (p : ℕ) : VmMap :=
  let m₁ := m.unlink p
  { m₁ with size := m₁.size - BitVec.ofNat 32 ((m.entry p).end_ - (m.entry p).start) }

/-- Step through all entries in the region. Source: vm_map_delete -/
def deleteLoop (end_ : ℕ) : ℕ → VmMap → ℕ → VmMap
  | 0, m, _ => m
  | n + 1, m, cur =>
    if cur ≠ 0 ∧ (m.entry cur).start < end_ then
      let m₁ := m.clipEnd cur end_
      deleteLoop end_ n (m₁.entryDelete cur) (m₁.next cur)
    else m

/-- The first entry of the region: clipped at its start, and the hint fixed.
Source: vm_map_delete -/
def deleteFirst (start : ℕ) : ℕ × VmMap :=
  match m.lookupEntry start with
  | (true, p, m) =>
    let m₁ := m.clipStart p start
    (p, m₁.saveHint (m₁.prev p))
  | (false, p, m) => (m.next p, m)

/-- Source: vm_map_delete -/
def delete (start end_ : ℕ) : VmMap :=
  let first := m.deleteFirst start
  let m₁ :=
    if start ≤ (first.2.entry first.2.firstFree).start then
      { first.2 with firstFree := first.2.prev first.1 }
    else first.2
  deleteLoop end_ (m₁.order.length + 1) m₁ first.1

/-- Source: vm_map_remove -/
def remove (start end_ : ℕ) : VmMap :=
  let range := m.rangeCheck start end_
  m.delete range.1 range.2

/-! ## Protection check -/

/-- Source: vm_map_check_protection -/
def checkLoop (end_ : ℕ) (protection : BitVec 32) : ℕ → ℕ → ℕ → Bool
  | 0, _, _ => false
  | n + 1, start, cur =>
    if start < end_ then
      if cur = 0 then false
      else if start < (m.entry cur).start then false
      else if (m.entry cur).protection &&& protection ≠ protection then false
      else checkLoop end_ protection n (m.entry cur).end_ (m.next cur)
    else true

/-- Source: vm_map_check_protection -/
def checkProtection (start end_ : ℕ) (protection : BitVec 32) : Bool × VmMap :=
  match m.lookupEntry start with
  | (false, _, m) => (false, m)
  | (true, p, m) => (m.checkLoop end_ protection (m.order.length + 1) start p, m)

/-! ## Merging -/

/-- Do two entries, the first directly before the second, map one range of an object alike?
Source: vm_map_simplify -/
def mergeable (p e : MapEntry) : Bool :=
  !p.isAMap && !p.isSubMap && decide (p.object = e.object) &&
    decide (p.offset + BitVec.ofNat 32 (p.end_ - p.start) = e.offset) &&
    decide (p.protection = e.protection) && decide (p.maxProtection = e.maxProtection) &&
    decide (p.inheritance = e.inheritance) && decide (p.wiredCount = e.wiredCount) &&
    decide (p.copyOnWrite = e.copyOnWrite) && decide (p.needsCopy = e.needsCopy)

/-- Entry `gone` is removed, and `keep` becomes `e` in the place of both.
Source: vm_map_simplify -/
def absorb (gone keep : ℕ) (e : MapEntry) : VmMap :=
  let m₁ := if m.firstFree = gone then { m with firstFree := keep } else m
  ((m₁.saveHint keep).unlink gone).setEntry keep e

/-- Merge `e` with the preceding entry. Source: vm_map_simplify -/
def mergePrev (start e : ℕ) : VmMap :=
  let p := m.prev e
  if p ≠ 0 ∧ (m.entry p).end_ = start ∧ mergeable (m.entry p) (m.entry e) = true then
    m.absorb p e { m.entry e with start := (m.entry p).start, offset := (m.entry p).offset }
  else m

/-- Merge `e` with the following entry. Source: vm_map_simplify -/
def mergeNext (e : ℕ) : VmMap :=
  let n := m.next e
  if n ≠ 0 ∧ (m.entry n).start = (m.entry e).end_ ∧
      (m.entry n).isAMap = false ∧ (m.entry n).isSubMap = false ∧
      mergeable (m.entry e) (m.entry n) = true then
    m.absorb n e { m.entry e with end_ := (m.entry n).end_ }
  else m

/-- Source: vm_map_simplify -/
def simplify (start : ℕ) : VmMap :=
  if m.isMainMap = false then m
  else
    match m.lookupEntry start with
    | (false, _, m) => m
    | (true, e, m) =>
      if (m.entry e).isAMap || (m.entry e).isSubMap then m
      else (m.mergePrev start e).mergeNext e

end VmMap

end Bsd386.Vm
