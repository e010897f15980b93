import Bsd386.Lib.Transition
import Mathlib.Logic.Function.Basic

/-!
# The duplicate request cache of the NFS server

Any number of servers run the loop of `nfssvc` (`sys/nfs/nfs_syscalls.c`) over one cache of
`NFSRVCACHESIZ` entries (`sys/nfs/nfs_srvcache.c`). A server runs until it sleeps, so a step takes one
server from one of its sleep points to the next (`Pc`, `go`): in `tsleep` on a locked entry, in the
allocation of a reply (`nfs_rephead`, `m_copym`), in the request itself, in `nfs_send`.

The copy of `nam` that an entry keeps is a copy of the mbuf's header. Its data pointer still points into
the caller's mbuf, so the address of an entry is read from that mbuf (`State.mem`), whoever owns it by
then. The field `made` of an entry is not in the source: it remembers the request that the entry was
taken for.
-/

namespace Bsd386.Nfs

open Function

/-! ## Requests -/

/-- What the server reads of a client's address. Source: in.h, sockaddr_in -/
@[ext]
structure Sockaddr where
  family : BitVec 8
  addr : BitVec 32
deriving DecidableEq

/-- Source: socket.h -/
def afInet : BitVec 8 := 2

/-- Do two addresses name the same host? Only Internet addresses are ever found equal.
Source: nfs_netaddr_match -/
def netaddrMatch (a b : Sockaddr) : Bool :=
  if a.family ≠ b.family then false
  else if a.family = afInet then decide (a.addr = b.addr)
  else false

/-- The arguments of `nfsrv_getcache`: `nam` is the mbuf that holds the client's address. -/
structure Request where
  nam : ℕ
  xid : BitVec 32
  proc : ℕ
deriving DecidableEq

/-- What makes two requests the same one. Source: none: what is claimed -/
structure Key where
  addr : Sockaddr
  xid : BitVec 32
  proc : ℕ
deriving DecidableEq

/-- Source: nfsrvcache.h -/
def nfsrvcachesiz : ℕ := 128

/-- `NFSRCHASH`, with `NFSRCHSZ` 32. -/
def nfsrchash (xid : BitVec 32) : BitVec 32 := (xid + xid >>> 16) &&& 31#32

/-- Source: nfsv2.h -/
def nfsprocRoot : ℕ := 3

/-- Source: nfs_srvcache.c -/
def nonidempotent : List Bool :=
  [false, false, true, false, false, false, false, false, true, true, true, true, true, true, true,
    true, false, false]

/-- Source: nfs_srvcache.c -/
def repliesstatus : List Bool :=
  [false, false, false, false, false, false, false, false, false, false, true, true, true, true, false,
    true, false, false]

/-! ## The cache -/

/-- `rc_state`. -/
inductive RcState where
  | unused
  | inprog
  | done
  | invalid
deriving DecidableEq

/-- An entry. `locked` to `repmbuf` are the bits of `rc_flag`; `nam` is the mbuf into which the data
pointer of `rc_nam` points; `un` is `rc_un`, the reply status or the saved reply.
Source: nfsrvcache.h, struct nfsrvcache -/
structure Entry where
  state : RcState := .unused
  locked : Bool := false
  wanted : Bool := false
  repstatus : Bool := false
  repmbuf : Bool := false
  nam : ℕ := 0
  xid : BitVec 32 := 0
  proc : ℕ := 0
  un : ℕ := 0
  made : Key := ⟨⟨0, 0⟩, 0, 0⟩
deriving DecidableEq

/-- Where a server is. `look` and `updating` are at the label `loop` of `nfsrv_getcache` and
`nfsrv_updatecache`, `tail` in the while loop on the least recently used entry, `copying` and `saving`
in the allocation of a reply with the entry locked, `leaving` between the last use of the cache and
`m_freem(nam)`. The flag of `doing` and `updating` tells whether `nfsrv_getcache` returned `RC_DOIT`: a
request for another program or version skips it.
Source: nfssvc; nfs_srvcache.c -/
inductive Pc where
  | idle
  | look (r : Request)
  | tail (r : Request) (rp : ℕ)
  | copying (r : Request) (rp : ℕ)
  | doing (r : Request) (doit : Bool)
  | updating (r : Request) (doit repvalid : Bool) (repstat reply : ℕ)
  | saving (r : Request) (rp reply : ℕ)
  | leaving (r : Request)
deriving DecidableEq

/-- The cache, the mbufs and the servers. `chain h` is the hash chain `rhead[h]`, `lru` the list from
`nfsrvcachehead`, its end the least recently used entry. `busy` are the mbufs a server holds as `nam`. -/
structure State where
  entries : ℕ → Entry
  chain : BitVec 32 → List ℕ
  lru : List ℕ
  mem : ℕ → Sockaddr
  busy : ℕ → Bool
  pc : ℕ → Pc
  wchan : ℕ → Option ℕ

/-- Each entry is put behind the head, so the first one ends as the least recently used.
Source: nfsrv_initcache -/
def initcache : State where
  entries := fun _ => {}
  chain := fun _ => []
  lru := (List.range nfsrvcachesiz).reverse
  mem := fun _ => ⟨0, 0⟩
  busy := fun _ => false
  pc := fun _ => .idle
  wchan := fun _ => none

variable (s : State)

/-- Source: nfs_srvcache.c -/
def State.setEntry (i : ℕ) (e : Entry) : State :=
  { s with entries := update s.entries i e }

/-- Server `t` is at `p`. -/
def State.goto (t : ℕ) (p : Pc) : State := { s with pc := update s.pc t p }

/-- `rp->rc_flag |= RC_WANTED; tsleep(rp)`. -/
def State.tsleep (t i : ℕ) : State :=
  { s.setEntry i { s.entries i with wanted := true } with
    wchan := update s.wchan t (some i) }

/-- Source: nfs_srvcache.c; wakeup -/
def State.wakeup (i : ℕ) : State :=
  { s with wchan := fun u => if s.wchan u = some i then none else s.wchan u }

/-- `rp->rc_flag &= ~RC_LOCKED`, and the sleepers are woken. -/
def State.unlock (i : ℕ) : State :=
  let s₁ := s.setEntry i { s.entries i with locked := false }
  if (s.entries i).wanted then
    (s₁.setEntry i { s.entries i with locked := false, wanted := false }).wakeup i
  else s₁

/-- Source: nfsrvcache.h, put_at_head -/
def State.putAtHead (i : ℕ) : State := { s with lru := i :: s.lru.erase i }

/-- The request whose address is in `r.nam` now. Source: none: what is claimed -/
def State.key (r : Request) : Key := ⟨s.mem r.nam, r.xid, r.proc⟩

/-- The test of the search. Source: nfsrv_getcache -/
def State.hits (r : Request) (i : ℕ) : Bool :=
  decide (r.xid = (s.entries i).xid) && decide (r.proc = (s.entries i).proc) &&
    netaddrMatch (s.mem r.nam) (s.mem (s.entries i).nam)

/-- The search of the hash chain. Source: nfsrv_getcache -/
def State.lookup (r : Request) : Option ℕ := (s.chain (nfsrchash r.xid)).find? (s.hits r)

/-! ## `nfsrv_getcache` -/

/-- Entry `rp` is taken for the request, which is to be done.
Source: nfsrv_getcache -/
def recycle (t : ℕ) (r : Request) (rp : ℕ) : State :=
  { s with
    chain := update (fun h => (s.chain h).erase rp) (nfsrchash r.xid)
      (rp :: (s.chain (nfsrchash r.xid)).erase rp)
    lru := rp :: s.lru.erase rp
    entries := update s.entries rp
      { state := .inprog, nam := r.nam, xid := r.xid, proc := r.proc, un := (s.entries rp).un
        made := s.key r }
    pc := update s.pc t (.doing r true) }

/-- The while loop on the least recently used entry, which was `rp` when the search failed.
Source: nfsrv_getcache -/
def waitTail (t : ℕ) (r : Request) (rp : ℕ) : State :=
  if (s.entries rp).locked then (s.goto t (.tail r rp)).tsleep t rp
  else recycle s t r rp

/-- An unlocked entry was found. `none` is the panic.
Source: nfsrv_getcache -/
def found (t : ℕ) (r : Request) (rp : ℕ) : Option State :=
  let e := s.entries rp
  let s₁ := (s.setEntry rp { e with locked := true }).putAtHead rp
  if e.state = .unused then none
  else if e.state = .inprog then some ((s₁.unlock rp).goto t (.leaving r))
  else if e.repstatus || e.repmbuf then some (s₁.goto t (.copying r rp))
  else some (((s₁.setEntry rp { e with locked := true, state := .inprog }).unlock rp).goto t
    (.doing r true))

/-- From `loop` to the next sleep or the return. `none` is the panic, or an empty list of entries.
Source: nfsrv_getcache -/
def getcache (t : ℕ) (r : Request) : Option State :=
  match s.lookup r with
  | some rp =>
    if (s.entries rp).locked then some (s.tsleep t rp)
    else found s t r rp
  | none => s.lru.getLast?.map (waitTail s t r)

/-! ## `nfsrv_updatecache` -/

/-- Is the reply of a procedure saved whole? -/
def savesReply (proc : ℕ) : Bool := nonidempotent.getD proc false && !repliesstatus.getD proc false

/-- Is the status of a procedure saved? -/
def savesStatus (proc : ℕ) : Bool := nonidempotent.getD proc false && repliesstatus.getD proc false

/-- An unlocked entry was found. Source: nfsrv_updatecache -/
def updated (t : ℕ) (r : Request) (repvalid : Bool) (repstat reply rp : ℕ) : State :=
  let e := s.entries rp
  if repvalid then
    if savesReply r.proc then
      (s.setEntry rp { e with locked := true, state := .done }).goto t (.saving r rp reply)
    else if savesStatus r.proc then
      ((s.setEntry rp
        { e with locked := true, state := .done, un := repstat, repstatus := true }).unlock rp).goto t
        (.leaving r)
    else ((s.setEntry rp { e with locked := true, state := .done }).unlock rp).goto t (.leaving r)
  else ((s.setEntry rp { e with locked := true, state := .invalid }).unlock rp).goto t (.leaving r)

/-- From `loop` to the next sleep or the return.
Source: nfsrv_updatecache -/
def updatecache (t : ℕ) (r : Request) (repvalid : Bool) (repstat reply : ℕ) : State :=
  match s.lookup r with
  | some rp =>
    if (s.entries rp).locked then s.tsleep t rp
    else updated s t r repvalid repstat reply rp
  | none => s.goto t (.leaving r)

/-! ## The servers -/

/-- Server `t` runs from where it is to its next sleep point.
Source: nfssvc; nfs_srvcache.c -/
def go (t : ℕ) : Option State :=
  match s.pc t with
  | .look r => getcache s t r
  | .tail r rp => some (waitTail s t r rp)
  | .copying r rp => some ((s.unlock rp).goto t (.leaving r))
  | .updating r _ repvalid repstat reply => some (updatecache s t r repvalid repstat reply)
  | .saving r rp reply =>
    some (((s.setEntry rp { s.entries rp with un := reply, repmbuf := true }).unlock rp).goto t
      (.leaving r))
  | .leaving r => some ({ s with busy := update s.busy r.nam false }.goto t .idle)
  | _ => none

/-- What can happen: a free mbuf is written by whoever has allocated it; server `t` receives a request
in mbuf `r.nam`; it receives one for another program or version, which it answers as `NFSPROC_ROOT`; the
request is done with a reply; a server that is not asleep goes on.
Source: nfssvc -/
inductive Action where
  | store (m : ℕ) (a : Sockaddr)
  | arrive (t : ℕ) (r : Request)
  | skip (t nam : ℕ) (xid : BitVec 32)
  | finish (t : ℕ) (repvalid : Bool) (repstat reply : ℕ)
  | go (t : ℕ)
deriving DecidableEq

/-- Server `t`, which is idle, takes a request in a free mbuf and goes to `p`.
Source: nfssvc -/
def receive (t nam : ℕ) (p : Pc) : Option State :=
  if s.pc t = .idle ∧ s.busy nam = false then
    some ({ s with busy := update s.busy nam true }.goto t p)
  else none

/-- One action. `none`: it cannot happen here. Source: nfssvc -/
def step : Action → Option State
  | .store m a => if s.busy m then none else some { s with mem := update s.mem m a }
  | .arrive t r => receive s t r.nam (.look r)
  | .skip t nam xid => receive s t nam (.doing ⟨nam, xid, nfsprocRoot⟩ false)
  | .finish t repvalid repstat reply =>
    match s.pc t with
    | .doing r doit => some (s.goto t (.updating r doit repvalid repstat reply))
    | _ => none
  | .go t => if s.wchan t = none then go s t else none

end Bsd386.Nfs
