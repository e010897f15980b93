import Bsd386.Vm.Map.Basic
import Mathlib

/-!
# Allocation, wiring and forking of maps

The operations of `sys/vm/vm_map.c` that allocate address space, wire entries, hand a range to a submap,
and make the map of a child. What they ask of the object layer is given with the call: whether two
objects coalesce, the address of a new object, whether a fault succeeds, what the copy of an object is.

The copying of a sharing map into a child (`vm_map_copy`) is a parameter: it is called only for an entry
that refers to a sharing map.
-/

namespace Bsd386.Vm

namespace VmMap

variable (m : VmMap)

/-- Source: vm_prot.h -/
def vmProtDefault : BitVec 32 := 7

/-- Source: vm_prot.h -/
def vmProtWrite : BitVec 32 := 2

/-- Source: vm_map_init -/
def init (min max : ℕ) : VmMap where
  entry := Function.update (fun _ => {}) 0 { start := min, end_ := max }
  order := []
  nentries := 0
  size := 0
  isMainMap := true
  hint := 0
  firstFree := 0

/-! ## Insertion -/

/-- Can a new range without an object be appended to the entry before it?
Source: vm_map_insert -/
def extensible (prev start : ℕ) : Bool :=
  let e := m.entry prev
  decide (prev ≠ 0) && decide (e.end_ = start) && m.isMainMap && !e.isAMap && !e.isSubMap &&
    decide (e.inheritance = vmInheritCopy) && decide (e.protection = vmProtDefault) &&
    decide (e.maxProtection = vmProtDefault) && decide (e.wiredCount = 0)

/-- The fields of a new entry; in a sharing map some keep what the memory of the entry had.
Source: vm_map_insert -/
def newEntry (object : ℕ) (offset : BitVec 32) (start end_ : ℕ) : MapEntry :=
  let e := { m.entry m.create with
    start := start, end_ := end_, isAMap := false, isSubMap := false, object := object, offset := offset
    copyOnWrite := false, needsCopy := false }
  if m.isMainMap then
    { e with
      inheritance := vmInheritCopy, protection := vmProtDefault, maxProtection := vmProtDefault
      wiredCount := 0 }
  else e

/-- A new entry `e` behind `prev`. Source: vm_map_insert -/
def addEntry (prev : ℕ) (e : MapEntry) : VmMap :=
  let new := m.create
  let m₁ := (m.setEntry new e).link prev new
  let m₂ := { m₁ with size := m₁.size + BitVec.ofNat 32 (e.end_ - e.start) }
  if m₂.firstFree = prev ∧ e.start ≤ (m₂.entry prev).end_ then { m₂ with firstFree := new } else m₂

/-- `coalesced`: what `vm_object_coalesce` answers. Source: vm_map_insert -/
def insert (object : ℕ) (offset : BitVec 32) (start end_ : ℕ) (coalesced : Bool) : KernReturn × VmMap :=
  if start < m.minOffset ∨ m.maxOffset < end_ ∨ end_ ≤ start then (.invalidAddress, m)
  else
    match m.lookupEntry start with
    | (true, _, m) => (.noSpace, m)
    | (false, prev, m) =>
      if m.next prev ≠ 0 ∧ (m.entry (m.next prev)).start < end_ then (.noSpace, m)
      else if object = 0 ∧ m.extensible prev start = true ∧ coalesced = true then
        let m₁ := m.setEntry prev { m.entry prev with end_ := end_ }
        (.success, { m₁ with size := m.size + BitVec.ofNat 32 (end_ - (m.entry prev).end_) })
      else (.success, m.addEntry prev (m.newEntry object offset start end_))

/-- First fit from `start`, behind `entry`. Source: vm_map_find -/
def findLoop (length : ℕ) : ℕ → ℕ → ℕ → Option (ℕ × ℕ)
  | 0, _, _ => none
  | n + 1, start, entry =>
    let end_ := (start + length) % 2 ^ 32
    if m.maxOffset < end_ ∨ end_ < start then none
    else if m.next entry = 0 ∨ end_ ≤ (m.entry (m.next entry)).start then some (start, entry)
    else findLoop length n (m.entry (m.next entry)).end_ (m.next entry)

/-- Where the search begins: the address, and the entry before it.
Source: vm_map_find -/
def findFirst (start : ℕ) : ℕ × ℕ × VmMap :=
  if start = m.minOffset then
    if m.firstFree ≠ 0 then ((m.entry m.firstFree).end_, m.firstFree, m) else (start, m.firstFree, m)
  else
    match m.lookupEntry start with
    | (true, p, m) => ((m.entry p).end_, p, m)
    | (false, p, m) => (start, p, m)

/-- The result, the address found and the map. Source: vm_map_find -/
def find (object : ℕ) (offset : BitVec 32) (addr length : ℕ) (findSpace coalesced : Bool) :
    KernReturn × ℕ × VmMap :=
  if findSpace then
    let start := if addr < m.minOffset then m.minOffset else addr
    if m.maxOffset < start then (.noSpace, addr, m)
    else
      let first := m.findFirst start
      match first.2.2.findLoop length (first.2.2.order.length + 1) first.1 first.2.1 with
      | none => (.noSpace, addr, first.2.2)
      | some (start, entry) =>
        let r := (first.2.2.saveHint entry).insert object offset start ((start + length) % 2 ^ 32)
          coalesced
        (r.1, start, r.2)
  else
    let r := m.insert object offset addr ((addr + length) % 2 ^ 32) coalesced
    (r.1, addr, r.2)

/-! ## Wiring -/

/-- Is every entry of the range wired? Source: vm_map_pageable -/
def wiredCheck (end_ : ℕ) : ℕ → ℕ → Bool
  | 0, _ => true
  | n + 1, cur =>
    if cur ≠ 0 ∧ (m.entry cur).start < end_ then
      if (m.entry cur).wiredCount = 0 then false else wiredCheck end_ n (m.next cur)
    else true

/-- The call with `new_pageable` true. Source: vm_map_pageable -/
def unwire (start end_ : ℕ) : KernReturn × VmMap :=
  let range := m.rangeCheck start end_
  let first := m.clipFirst range.1
  if first.2.wiredCheck range.2 (first.2.order.length + 1) first.1 then
    (.success, changeFrom (fun e => { e with wiredCount := e.wiredCount - 1 }) range.2 first)
  else (.invalidArgument, first.2)

/-- Pass 1 at one entry: `alloc` is the object made for it. Source: vm_map_pageable; vm_object_shadow -/
def wireEntry (alloc : MapEntry → ℕ) (e : MapEntry) : MapEntry :=
  let e := { e with wiredCount := e.wiredCount + 1 }
  if e.wiredCount = 1 ∧ e.isAMap = false then
    if e.needsCopy = true ∧ e.protection &&& vmProtWrite ≠ 0 then
      { e with object := alloc e, offset := 0, needsCopy := false }
    else if e.object = 0 then { e with object := alloc e, offset := 0 }
    else e
  else e

/-- Pass 2: `wire` tells whether the pages of an entry can be wired, `failed` where it could not.
Source: vm_map_pageable -/
def faultLoop (wire : MapEntry → Bool) (end_ : ℕ) : ℕ → VmMap → ℕ → Option ℕ → VmMap × Option ℕ
  | 0, m, _, failed => (m, failed)
  | n + 1, m, cur, failed =>
    if cur ≠ 0 ∧ (m.entry cur).start < end_ then
      let e := m.entry cur
      let backOut := m.setEntry cur { e with wiredCount := e.wiredCount - 1 }
      if failed.isSome then faultLoop wire end_ n backOut (m.next cur) failed
      else if e.wiredCount = 1 ∧ wire e = false then
        faultLoop wire end_ n backOut (m.next cur) (some e.start)
      else faultLoop wire end_ n m (m.next cur) none
    else (m, failed)

/-- Source: vm_map_pageable -/
def pageable (start end_ : ℕ) (newPageable : Bool) (alloc : MapEntry → ℕ) (wire : MapEntry → Bool) :
    KernReturn × VmMap :=
  if newPageable then m.unwire start end_
  else
    let range := m.rangeCheck start end_
    let first := m.clipFirst range.1
    let m₁ := changeFrom (wireEntry alloc) range.2 first
    match faultLoop wire range.2 (m₁.order.length + 1) m₁ first.1 none with
    | (m₂, none) => (.success, m₂)
    | (m₂, some failed) =>
      (.failure, if range.1 ≠ failed then (m₂.unwire range.1 failed).2 else m₂)

/-! ## Submaps -/

/-- Source: vm_map_submap -/
def submap (start end_ sub : ℕ) : KernReturn × VmMap :=
  let range := m.rangeCheck start end_
  let first := m.clipFirst range.1
  let m₁ := first.2.clipEnd first.1 range.2
  let e := m₁.entry first.1
  if e.start = range.1 ∧ e.end_ = range.2 ∧ e.isAMap = false ∧ e.object = 0 ∧ e.copyOnWrite = false then
    (.success, m₁.setEntry first.1 { e with isAMap := false, isSubMap := true, object := sub })
  else (.invalidArgument, m₁)

/-! ## Forking -/

/-- `old_map`, `new_map` and the sharing maps made so far. Source: vmspace_fork. -/
structure Fork where
  old : VmMap
  new : VmMap
  shares : List VmMap

/-- The object layer in a fork: `base` is the address of the first sharing map that is made, `copy` the
object, offset and `src_needs_copy` of the copy of an unwired entry, `fault` the object of the copy of a
wired one, and `mapCopy` the copying from the sharing map of an entry into the child.
Source: vmspace_fork, vm_map_copy_entry -/
structure ForkEnv where
  base : ℕ
  copy : MapEntry → ℕ × BitVec 32 × Bool
  fault : MapEntry → ℕ
  mapCopy : Fork → MapEntry → Fork

/-- An entry at the end of a map, by `vm_map_entry_link` alone.
Source: vmspace_fork -/
def linkLast (e : MapEntry) : VmMap := (m.setEntry m.create e).link (m.prev 0) m.create

/-- The sharing map made for an entry: its size stays 0. Source: vmspace_fork. -/
def shareMap (e : MapEntry) : VmMap := { (init e.start e.end_).linkLast e with isMainMap := false }

/-- The case `VM_INHERIT_SHARE` for entry `p`. Source: vmspace_fork -/
def forkShare (env : ForkEnv) (f : Fork) (p : ℕ) : Fork :=
  let e := f.old.entry p
  if e.isAMap then { f with new := f.new.linkLast e }
  else
    let e' := { e with
      isAMap := true, object := env.base + f.shares.length, offset := BitVec.ofNat 32 e.start }
    { old := f.old.setEntry p e', new := f.new.linkLast e', shares := f.shares ++ [shareMap e] }

/-- The case `VM_INHERIT_COPY` for entry `p`. Source: vmspace_fork,
`vm_map_copy_entry` -/
def forkCopy (env : ForkEnv) (f : Fork) (p : ℕ) : Fork :=
  let e := f.old.entry p
  let clone := { e with wiredCount := 0, object := 0, isAMap := false }
  if e.isAMap then env.mapCopy { f with new := f.new.linkLast clone } e
  else if e.wiredCount = 0 then
    let c := env.copy e
    { f with
      old := f.old.setEntry p
        { e with needsCopy := e.needsCopy || c.2.2, copyOnWrite := true }
      new := f.new.linkLast
        { clone with object := c.1, offset := c.2.1, needsCopy := true, copyOnWrite := true } }
  else { f with new := f.new.linkLast { clone with object := env.fault e, offset := 0 } }

/-- Entry after entry of the old map. `none` is the panic at a submap.
Source: vmspace_fork -/
def forkLoop (env : ForkEnv) : ℕ → Fork → ℕ → Option Fork
  | 0, _, _ => none
  | n + 1, f, cur =>
    if cur = 0 then some f
    else if (f.old.entry cur).isSubMap then none
    else
      let f' :=
        if (f.old.entry cur).inheritance = vmInheritShare then forkShare env f cur
        else if (f.old.entry cur).inheritance = vmInheritCopy then forkCopy env f cur
        else f
      forkLoop env n f' (f'.old.next cur)

/-- Source: vmspace_fork -/
def fork (env : ForkEnv) : Option Fork :=
  (forkLoop env (m.order.length + 1) ⟨m, init m.minOffset m.maxOffset, []⟩ (m.next 0)).map fun f =>
    { f with new := { f.new with size := f.old.size } }

end VmMap

/-! ## Systems of maps -/

/-- A call, with the answers of the object layer. -/
inductive MapOp where
  | init (min max : ℕ)
  | insert (i object : ℕ) (offset : BitVec 32) (start end_ : ℕ) (coalesced : Bool)
  | find (i object : ℕ) (offset : BitVec 32) (addr length : ℕ) (findSpace coalesced : Bool)
  | remove (i start end_ : ℕ)
  | protect (i start end_ : ℕ) (newProt : BitVec 32) (setMax : Bool)
  | inherit (i start end_ : ℕ) (newInheritance : ℤ)
  | pageable (i start end_ : ℕ) (newPageable : Bool) (alloc : MapEntry → ℕ) (wire : MapEntry → Bool)
  | submap (i start end_ sub : ℕ)
  | simplify (i start : ℕ)
  | fork (i : ℕ) (env : VmMap.ForkEnv)

/-- One call on the list of all maps; `fork` puts the sharing maps and the map of the child at its end.
`none`: no such map, or the panic. -/
def mapStep (maps : List VmMap) : MapOp → Option (List VmMap)
  | .init min max => some (maps ++ [VmMap.init min max])
  | .insert i object offset start end_ coalesced =>
    maps[i]?.map fun m => maps.set i (m.insert object offset start end_ coalesced).2
  | .find i object offset addr length findSpace coalesced =>
    maps[i]?.map fun m => maps.set i (m.find object offset addr length findSpace coalesced).2.2
  | .remove i start end_ => maps[i]?.map fun m => maps.set i (m.remove start end_)
  | .protect i start end_ newProt setMax =>
    maps[i]?.map fun m => maps.set i (m.protect start end_ newProt setMax).2
  | .inherit i start end_ newInheritance =>
    maps[i]?.map fun m => maps.set i (m.inherit start end_ newInheritance).2
  | .pageable i start end_ newPageable alloc wire =>
    maps[i]?.map fun m => maps.set i (m.pageable start end_ newPageable alloc wire).2
  | .submap i start end_ sub => maps[i]?.map fun m => maps.set i (m.submap start end_ sub).2
  | .simplify i start => maps[i]?.map fun m => maps.set i (m.simplify start)
  | .fork i env =>
    maps[i]?.bind fun m => (m.fork env).map fun f => maps.set i f.old ++ f.shares ++ [f.new]

end Bsd386.Vm
