import Bsd386.Lib.Bytes
import Bsd386.Lib.Insque
import Bsd386.Lib.Tailq
import Mathlib.Algebra.Ring.Nat

/-!
# The name cache

An entry (`struct namecache`) records the vnode a directory has for a name, or that it has none. It is on
the LRU list, from `nchhead` by `nc_nxt` with `nc_prev` the address of the link before it, and on the hash
chain of its name or on a dummy chain of its own.

An entry is not taken off when its directory or vnode is purged: `cache_purge` gives the vnode a new
capability number (`v_id`), and a lookup believes an entry only while the numbers recorded in it are those
of its vnodes.

The statistics (`nchstats`) are only counted, and left out.

Source: `sys/kern/vfs_cache.c`.
-/

namespace Bsd386.Kern.Namecache

open Lib.Bytes Lib.Insque Lib.Tailq

abbrev Vnode := ℕ

/-- The address of a mounted file system. -/
abbrev Mount := ℕ

/-- An allocated entry, by the order of allocation. -/
abbrev Entry := ℕ

/-- `NCHNAMLEN`: maximum name segment length we bother with. -/
def nchnamlen : ℕ := 31

/-- What is on a hash chain: the head in `nchashtbl`, and entries.
Source: union nchash -/
inductive Node where
  | head (i : ℕ)
  | entry (e : Entry)
deriving DecidableEq

/-- The fields of an entry, its links apart. Source: namei.h (struct namecache) -/
structure Ncp where
  ncDvp : Option Vnode
  ncDvpid : BitVec 32
  ncVp : Option Vnode
  ncVpid : BitVec 32
  ncName : List Byte

/-- The operation a name is looked up for. Source: namei.h (OPMASK) -/
inductive Nameiop where
  | lookup
  | create
  | delete
  | rename
deriving DecidableEq

/-- The parameters of the cache calls. Source: namei.h (struct nameidata) -/
structure Nameidata where
  niDvp : Vnode
  niName : List Byte
  niNameiop : Nameiop
  niMakeentry : Bool
  niVp : Option Vnode

/-- `ni_hash`: the sum of the characters of the name. Source: lookup -/
def Nameidata.niHash (ndp : Nameidata) : BitVec 32 :=
  ndp.niName.foldl (fun hash c => hash + c.setWidth 32) 0

/-- What `cache_lookup` returns: 0, -1 or `ENOENT`. Source: cache_lookup -/
inductive Status where
  | zero
  | found
  | enoent
deriving DecidableEq

/-- The cache, and the fields of the vnodes it reads: `nchhead`, `nc_nxt`, `nc_prev` and `nchtail` are
`lru`, and `nc_forw` and `nc_back` are `links`. -/
structure Cache where
  links : Links Node
  lru : Queue Entry
  ncp : Entry → Ncp
  nchash : ℕ
  numcache : ℕ
  desiredvnodes : ℕ
  doingcache : Bool
  nextvnodeid : BitVec 32
  vId : Vnode → BitVec 32
  vMount : Vnode → Mount

namespace Cache

/-- `&nchashtbl[ndp->ni_hash & nchash]`. Source: cache_lookup -/
def nhp (c : Cache) (ndp : Nameidata) : ℕ := ndp.niHash.toNat &&& c.nchash

/-- The test in the loop of `cache_lookup`. Source: cache_lookup -/
def isFor (c : Cache) (ndp : Nameidata) (e : Entry) : Bool :=
  (c.ncp e).ncDvp == some ndp.niDvp && (c.ncp e).ncDvpid == c.vId ndp.niDvp &&
    (c.ncp e).ncName == ndp.niName

/-- The same for what is on a chain. Source: cache_lookup -/
def stops (c : Cache) (ndp : Nameidata) : Node → Bool
  | .entry e => c.isFor ndp e
  | .head _ => false

/-- The loop of `cache_lookup`: an entry for the name, or the head of the chain.
Source: cache_lookup -/
def find (c : Cache) (ndp : Nameidata) : Option Node :=
  c.links.scan (.head (c.nhp ndp)) (c.stops ndp) (c.numcache + 1) (c.links.forw (.head (c.nhp ndp)))

/-- Move this slot to end of LRU chain, if not already there.
Source: cache_lookup -/
def moveToEnd (c : Cache) (e : Entry) : Cache :=
  match c.lru.cell (.next e) with
  | some _ => { c with lru := (c.lru.unlink e).append e }
  | none => c

/-- Remove from LRU chain and from hash chain, insert at head of LRU list (first to grab), and make a
dummy hash chain; `none` is a write through a null pointer.
Source: cache_lookup, cache_purgevfs -/
def discard (c : Cache) (e : Entry) : Option Cache :=
  (c.links.remque (.entry e)).bind fun links =>
    ((c.lru.unlink e).push e).map fun lru => { c with links := links.self (.entry e), lru := lru }

/-- An entry that a lookup finds but does not keep: no entry is wanted, or the name is to be created and
known not to exist, or the vnode has been purged. Source: cache_lookup -/
def drops (c : Cache) (ndp : Nameidata) (e : Entry) : Bool :=
  !ndp.niMakeentry || match (c.ncp e).ncVp with
    | none => ndp.niNameiop == .create
    | some vp => (c.ncp e).ncVpid != c.vId vp

/-- Source: cache_lookup -/
def cacheLookup (c : Cache) (ndp : Nameidata) : Option (Status × Nameidata × Cache) :=
  if !c.doingcache then some (.zero, ndp, c)
  else if nchnamlen < ndp.niName.length then some (.zero, { ndp with niMakeentry := false }, c)
  else (c.find ndp).bind fun x => match x with
    | .head _ => some (.zero, ndp, c)
    | .entry e =>
      if c.drops ndp e then (c.discard e).map fun c' => (.zero, ndp, c')
      else match (c.ncp e).ncVp with
        | none => some (.enoent, ndp, c.moveToEnd e)
        | some vp => some (.found, { ndp with niVp := some vp }, c.moveToEnd e)

/-- Grab the vnode we just found, and fill in cache info.
Source: cache_enter -/
def ncpOf (c : Cache) (ndp : Nameidata) : Ncp where
  ncDvp := some ndp.niDvp
  ncDvpid := c.vId ndp.niDvp
  ncVp := ndp.niVp
  ncVpid := match ndp.niVp with
    | some vp => c.vId vp
    | none => 0
  ncName := ndp.niName

/-- Fill in cache info, link at end of lru chain and insert on hash chain. A name over `NCHNAMLEN` is
copied past the end of the entry. Source: cache_enter -/
def fill (c : Cache) (e : Entry) (ndp : Nameidata) : Option Cache :=
  if nchnamlen < ndp.niName.length then none
  else some { c with
    ncp := Function.update c.ncp e (c.ncpOf ndp)
    lru := c.lru.append e
    links := c.links.insque (.entry e) (.head (c.nhp ndp)) }

/-- Source: cache_enter -/
def cacheEnter (c : Cache) (ndp : Nameidata) : Option Cache :=
  if !c.doingcache then some c
  else if c.numcache < c.desiredvnodes then { c with numcache := c.numcache + 1 }.fill c.numcache ndp
  else match c.lru.cell .head with
    | some e =>
      (c.links.remque (.entry e)).bind fun links =>
        { c with lru := c.lru.unlink e, links := links }.fill e ndp
    | none => some c

/-- `ncp->nc_vpid = 0; ncp->nc_dvpid = 0;` for the entries of a chain.
Source: cache_purge -/
def clear (ncp : Entry → Ncp) : List Node → Entry → Ncp
  | [] => ncp
  | .entry e :: l => clear (Function.update ncp e { ncp e with ncVpid := 0, ncDvpid := 0 }) l
  | .head _ :: l => clear ncp l

/-- The loops of `cache_purge` over the chains below a head.
Source: cache_purge -/
def clearChains (c : Cache) : ℕ → Option Cache
  | 0 => some c
  | i + 1 =>
    (c.links.nodes (.head i) (c.numcache + 1) (c.links.forw (.head i))).bind fun l =>
      { c with ncp := clear c.ncp l }.clearChains i

/-- `vp->v_id = ++nextvnodeid`. Source: cache_purge -/
def renumber (c : Cache) (vp : Vnode) : Cache :=
  { c with nextvnodeid := c.nextvnodeid + 1, vId := Function.update c.vId vp (c.nextvnodeid + 1) }

/-- Source: cache_purge -/
def cachePurge (c : Cache) (vp : Vnode) : Option Cache :=
  if c.nextvnodeid + 1 ≠ 0 then some (c.renumber vp)
  else ((c.renumber vp).clearChains (c.nchash + 1)).map (·.renumber vp)

/-- `ncp->nc_dvp != NULL && ncp->nc_dvp->v_mount == mp`.
Source: cache_purgevfs -/
def inVfs (c : Cache) (mp : Mount) (e : Entry) : Bool :=
  match (c.ncp e).ncDvp with
  | none => false
  | some dvp => c.vMount dvp == mp

/-- Free the resources we had. Source: cache_purgevfs -/
def free (c : Cache) (e : Entry) : Cache :=
  { c with ncp := Function.update c.ncp e { c.ncp e with ncVp := none, ncDvp := none } }

/-- The loop of `cache_purgevfs`: an entry that is removed causes a rescan from what was then the head.
Source: cache_purgevfs -/
def purgeLoop (mp : Mount) : ℕ → Cache → Option Entry → Option Cache
  | 0, _, _ => none
  | _ + 1, c, none => some c
  | n + 1, c, some e =>
    if c.inVfs mp e then
      ((c.free e).discard e).bind fun c' => purgeLoop mp n c' ((c.lru.unlink e).cell .head)
    else purgeLoop mp n c (c.lru.cell (.next e))

/-- Source: cache_purgevfs -/
def cachePurgevfs (c : Cache) (mp : Mount) : Option Cache :=
  purgeLoop mp ((c.numcache + 1) * (c.numcache + 1)) c (c.lru.cell .head)

/-- `nchash` for a number of vnodes: a power of two, less one, that fits in whole pages.
Source: nchinit, i386/include/param.h -/
def nchashOf (desiredvnodes : ℕ) : ℕ :=
  let nchashsize := ((desiredvnodes + 1) * 8 / 2 + 4095) / 4096 * 4096
  2 ^ Nat.log2 (nchashsize / 8) - 1

/-- `nchinit`: no entry, and every head linked to itself; the numbers and mounts of the vnodes are what
they were. Source: nchinit -/
def nchinit (desiredvnodes : ℕ) (doingcache : Bool) (nextvnodeid : BitVec 32)
    (vId : Vnode → BitVec 32) (vMount : Vnode → Mount) : Cache where
  links := ⟨id, some⟩
  lru := ⟨fun _ => none, fun _ => .head, .head⟩
  ncp := fun _ => ⟨none, 0, none, 0, []⟩
  nchash := nchashOf desiredvnodes
  numcache := 0
  desiredvnodes := desiredvnodes
  doingcache := doingcache
  nextvnodeid := nextvnodeid
  vId := vId
  vMount := vMount

end Cache

end Bsd386.Kern.Namecache
