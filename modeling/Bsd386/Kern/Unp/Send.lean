import Bsd386.Kern.Unp.Gc
import Mathlib.Data.List.GetD

/-!
# Sending rights

`PRU_SEND` of `uipc_usrreq` with a control message. `unp_internalize` turns descriptors into references to
files and counts them; then the type of the socket decides where the message goes, and whether it goes. The
first mbuf of the message has its header at least, as `sendmsg` sees to.

What the file system says about a name is a parameter (`Env.lookup`), and so is what `MGET` finds. The call
is taken as one step: what other processes do while `namei` sleeps is left out.
-/

namespace Bsd386.Kern.Unp.Send

open Function List Kern.Sockbuf

/-! ## References in flight -/

/-- `f_count` and `f_msgcount` of each file, and `unp_rights`.
Source: file.h struct file, unp_rights -/
structure Refs where
  count : FilePtr → BitVec 16
  msgcount : FilePtr → BitVec 16
  rights : BitVec 32

/-- One more reference in flight. Source: unp_internalize -/
def Refs.incr (r : Refs) (fp : FilePtr) : Refs where
  count := update r.count fp (r.count fp + 1)
  msgcount := update r.msgcount fp (r.msgcount fp + 1)
  rights := r.rights + 1

/-- What is claimed of a message that was sent: each file is counted once for each of its occurrences.
Source: none: what is claimed -/
def Refs.plus (r : Refs) (fps : List FilePtr) : Refs where
  count fp := r.count fp + BitVec.ofNat 16 (fps.count fp)
  msgcount fp := r.msgcount fp + BitVec.ofNat 16 (fps.count fp)
  rights := r.rights + BitVec.ofNat 32 fps.length

/-- Errors of the request; those of the file system as it says. -/
inductive Errno where
  | einval | ebadf | eisconn | enotconn | enobufs | epipe | emsgsize | enotsock | econnrefused | eprototype
  | fs (e : ℕ)
deriving DecidableEq

/-- The bytes of a word, lowest first. -/
def bytesOf (w : BitVec 32) : List UInt8 :=
  [⟨w.extractLsb' 0 8⟩, ⟨w.extractLsb' 8 8⟩, ⟨w.extractLsb' 16 8⟩, ⟨w.extractLsb' 24 8⟩]

/-- Write over the bytes from `k` on, up to the end at most. -/
def overwrite (k : ℕ) (ws bs : List UInt8) : List UInt8 :=
  bs.take k ++ (ws.take (bs.length - k) ++ bs.drop (k + ws.length))

theorem length_overwrite {k : ℕ} (ws bs : List UInt8) (hk : k ≤ bs.length) :
    (overwrite k ws bs).length = bs.length := by
  unfold overwrite
  rw [length_append, length_append, length_take, length_take, length_drop]
  omega

/-- The descriptors of a control message become pointers.
Source: unp_internalize -/
def storeRights (control : Mbuf) (fps : List FilePtr) : Mbuf :=
  if h : 12 ≤ control.bytes.length then
    { control with
      bytes := overwrite 12 (fps.flatMap bytesOf) control.bytes
      room := by
        rw [length_overwrite _ _ h]
        exact control.room }
  else control

/-- The file of a descriptor. Source: unp_internalize -/
def fdFile (ofiles : List (Option FilePtr)) (fd : BitVec 32) : Option FilePtr := ofiles[fd.toNat]?.join

/-- Is this a message with rights that is as long as it says?
Source: unp_internalize -/
def wellFormed (control : Mbuf) : Bool :=
  decide (word control.bytes 8 = 1) && decide (word control.bytes 4 = 0xffff) &&
    decide ((word control.bytes 0).toNat = control.len)

/-- Source: unp_internalize -/
def internalize (ofiles : List (Option FilePtr)) (control : Mbuf) (r : Refs) : Except Errno (Mbuf × Refs) :=
  if wellFormed control = false then .error .einval
  else if (messageRights control).any fun fd => (fdFile ofiles fd).isNone then .error .ebadf
  else
    let fps := (messageRights control).filterMap (fdFile ofiles)
    .ok (storeRights control fps, fps.foldl Refs.incr r)

/-! ## Sockets -/

/-- Source: socket.h -/
inductive SockType where
  | dgram | stream
deriving DecidableEq

/-- Address of a socket. Source: socketvar.h struct socket -/
abbrev SockId := ℕ

/-- What the request reads and writes of a socket and its control block: `attached` when there is one,
`cantSend` and `connected` are `SS_CANTSENDMORE` and `SS_ISCONNECTED`, `conn` is the socket of `unp_conn`,
`refs` the list from `unp_refs` on, `addr` the address in `unp_addr`.
Source: socketvar.h struct socket, unpcb.h struct unpcb -/
structure Usock where
  type : SockType
  attached : Bool
  cantSend : Bool
  connected : Bool
  conn : Option SockId
  refs : List SockId
  addr : Option (List UInt8)
  rcv : Sockbuf
  sndHiwat : BitVec 32
  sndMbmax : BitVec 32
  unpCc : BitVec 32
  unpMbcnt : BitVec 32

/-- Source: uipc_usrreq.c -/
structure Kern where
  refs : Refs
  sock : SockId → Usock

def Kern.set (k : Kern) (so : SockId) (s : Usock) : Kern := { k with sock := update k.sock so s }

/-- A vnode that a name leads to: is it a socket's, the error of the permission check, if any, and the socket
bound to it. Source: unp_connect -/
structure Found where
  isSock : Bool
  access : Option ℕ
  socket : Option SockId

/-- What the request asks of the file system and of the allocator.
Source: unp_connect, sbappendaddr -/
structure Env where
  lookup : Mbuf → Except ℕ Found
  mget : Option (Fin nmbuf)

/-- Source: sun_noname -/
def sunNoname : List UInt8 := [16, 1, 0, 0, 0, 0, 0, 0, 0, 0, 0, 0, 0, 0, 0, 0]

/-- The socket that a datagram socket is to be connected to.
Source: unp_connect, unp_connect2 -/
def unpConnect (k : Kern) (so : SockId) (nam : Mbuf) (env : Env) : Except Errno SockId :=
  if nam.off + nam.len = mlen ∧ nam.bytes.getLast? ≠ some 0 then .error .emsgsize
  else
    match env.lookup nam with
    | .error e => .error (.fs e)
    | .ok v =>
      if v.isSock = false then .error .enotsock
      else
        match v.access, v.socket with
        | some e, _ => .error (.fs e)
        | none, none => .error .econnrefused
        | none, some so2 => if (k.sock so).type ≠ (k.sock so2).type then .error .eprototype else .ok so2

/-- Source: unp_connect2, SOCK_DGRAM -/
def unpConnect2 (k : Kern) (so so2 : SockId) : Kern :=
  let k₁ := k.set so { k.sock so with conn := some so2, connected := true }
  k₁.set so2 { k₁.sock so2 with refs := so :: (k₁.sock so2).refs }

/-- Source: unp_disconnect, SOCK_DGRAM -/
def unpDisconnect (k : Kern) (so so2 : SockId) : Kern :=
  let k₁ := k.set so2 { k.sock so2 with refs := (k.sock so2).refs.erase so }
  k₁.set so { k₁.sock so with conn := none, connected := false }

/-! ## The request -/

/-- The kernel stops. -/
inductive Stop where
  | uipc3
  | sockbuf (p : Panic)
deriving DecidableEq

/-- Who gets a datagram: the socket named, or the one `so` is connected to.
Source: uipc_usrreq, PRU_SEND -/
def target (k : Kern) (so : SockId) (nam : Option Mbuf) (env : Env) : Except Errno SockId :=
  match nam, (k.sock so).conn with
  | some _, some _ => .error .eisconn
  | some nam, none => unpConnect k so nam env
  | none, none => .error .enotconn
  | none, some so2 => .ok so2

/-- The case `SOCK_DGRAM`. Source: uipc_usrreq, PRU_SEND -/
def sendDgram (k : Kern) (so : SockId) (m : List Mbuf) (nam : Option Mbuf) (control : List Mbuf) (env : Env) :
    Except Stop (Option Errno × Kern) :=
  match target k so nam env with
  | .error e => .ok (some e, k)
  | .ok so2 =>
    let k₁ := if nam.isSome then unpConnect2 k so so2 else k
    match sbappendaddr (k₁.sock so2).rcv ((k₁.sock so).addr.getD sunNoname) m control env.mget with
    | .error p => .error (.sockbuf p)
    | .ok (queued, rcv) =>
      let k₂ := k₁.set so2 { k₁.sock so2 with rcv := rcv }
      .ok (if queued then none else some .enobufs, if nam.isSome then unpDisconnect k₂ so so2 else k₂)

/-- The case `SOCK_STREAM`: nothing tells whether `sbappendcontrol` found space.
Source: uipc_usrreq, PRU_SEND -/
def sendStream (k : Kern) (so : SockId) (m control : List Mbuf) : Except Stop (Option Errno × Kern) :=
  if (k.sock so).cantSend then .ok (some .epipe, k)
  else
    match (k.sock so).conn with
    | none => .error .uipc3
    | some so2 =>
      match sbappendcontrol (k.sock so2).rcv m control with
      | .error p => .error (.sockbuf p)
      | .ok (_, rcv) =>
        let s := k.sock so
        let s2 := k.sock so2
        let k₁ := k.set so { s with
          sndMbmax := s.sndMbmax - (rcv.cnt.mbcnt - s2.unpMbcnt)
          sndHiwat := s.sndHiwat - (rcv.cnt.cc - s2.unpCc) }
        .ok (none, k₁.set so2
          { k₁.sock so2 with rcv := rcv, unpMbcnt := rcv.cnt.mbcnt, unpCc := rcv.cnt.cc })

/-- `PRU_SEND` with the control message `control`, `more`. At `release` the message is freed when it was not
queued, and nothing else is done. Source: uipc_usrreq -/
def pruSend (k : Kern) (so : SockId) (m : List Mbuf) (nam : Option Mbuf) (control : Mbuf) (more : List Mbuf)
    (ofiles : List (Option FilePtr)) (env : Env) : Except Stop (Option Errno × Kern) :=
  if (k.sock so).attached = false then .ok (some .einval, k)
  else
    match internalize ofiles control k.refs with
    | .error e => .ok (some e, k)
    | .ok (control, r) =>
      let k := { k with refs := r }
      match (k.sock so).type with
      | .dgram => sendDgram k so m nam (control :: more) env
      | .stream => sendStream k so m (control :: more)

/-! ## References and descriptors -/

section rights

variable {r : Refs} {fps : List FilePtr} {control : Mbuf} {ofiles : List (Option FilePtr)}

@[simp] theorem Refs.plus_nil (r : Refs) : r.plus [] = r := by
  simp [Refs.plus]

theorem foldl_incr (r : Refs) (fps : List FilePtr) : fps.foldl Refs.incr r = r.plus fps := by
  induction fps generalizing r with
  | nil => exact (Refs.plus_nil r).symm
  | cons fp fps ih =>
    have hcount : ∀ (f : FilePtr → BitVec 16) (q : FilePtr),
        update f fp (f fp + 1) q + BitVec.ofNat 16 (fps.count q) =
          f q + BitVec.ofNat 16 ((fp :: fps).count q) := by
      intro f q
      by_cases hq : q = fp
      · subst hq
        rw [update_self, count_cons_self, BitVec.ofNat_add, BitVec.add_assoc,
          BitVec.add_comm 1]
        rfl
      · rw [update_of_ne hq, count_cons_of_ne (Ne.symm hq)]
    rw [foldl_cons, ih]
    unfold Refs.plus Refs.incr
    congr 1
    · exact funext (hcount r.count)
    · exact funext (hcount r.msgcount)
    · dsimp only
      rw [length_cons, BitVec.ofNat_add, BitVec.add_assoc, BitVec.add_comm 1]
      rfl

theorem Refs.plus_ne (hne : fps ≠ []) (hlt : fps.length < 2 ^ 32) : r.plus fps ≠ r := by
  intro heq
  have hrights : r.rights + BitVec.ofNat 32 fps.length = r.rights := congrArg Refs.rights heq
  have hzero : BitVec.ofNat 32 fps.length = 0 := BitVec.add_right_eq_self.mp hrights
  have hnat := congrArg BitVec.toNat hzero
  rw [BitVec.toNat_ofNat, Nat.mod_eq_of_lt hlt] at hnat
  exact hne (length_eq_zero_iff.mp hnat)

theorem word_bytesOf (w : BitVec 32) (l : List UInt8) : word (bytesOf w ++ l) 0 = w := by
  have hword : word (bytesOf w ++ l) 0 =
      w.extractLsb' 24 8 ++ w.extractLsb' 16 8 ++ w.extractLsb' 8 8 ++ w.extractLsb' 0 8 := rfl
  have h1 : w.extractLsb' 24 8 ++ w.extractLsb' 16 8 = w.extractLsb' 16 16 :=
    BitVec.extractLsb'_append_extractLsb'_eq_extractLsb' rfl
  have h2 : w.extractLsb' 16 16 ++ w.extractLsb' 8 8 = w.extractLsb' 8 24 :=
    BitVec.extractLsb'_append_extractLsb'_eq_extractLsb' rfl
  have h3 : w.extractLsb' 8 24 ++ w.extractLsb' 0 8 = w.extractLsb' 0 32 :=
    BitVec.extractLsb'_append_extractLsb'_eq_extractLsb' rfl
  rw [hword, h1, h2, h3]
  exact BitVec.extractLsb'_eq_self

theorem word_append (pre l : List UInt8) (k : ℕ) : word (pre ++ l) (pre.length + k) = word l k := by
  have hget : ∀ j, (pre ++ l).getD (pre.length + j) 0 = l.getD j 0 := by
    intro j
    rw [getD_append_right _ _ _ _ (Nat.le_add_right _ _), Nat.add_sub_cancel_left]
  unfold word
  rw [Nat.add_assoc pre.length k 3, Nat.add_assoc pre.length k 2, Nat.add_assoc pre.length k 1, hget, hget,
    hget, hget]

theorem word_append_left {pre : List UInt8} (l : List UInt8) {k : ℕ} (hk : k + 3 < pre.length) :
    word (pre ++ l) k = word pre k := by
  unfold word
  rw [getD_append _ _ _ _ hk, getD_append _ _ _ _ (by omega), getD_append _ _ _ _ (by omega),
    getD_append _ _ _ _ (by omega)]

theorem words_flatMap (fps : List FilePtr) (l : List UInt8) :
    (List.range fps.length).map (fun i => word (fps.flatMap bytesOf ++ l) (4 * i)) = fps := by
  induction fps with
  | nil => rfl
  | cons fp fps ih =>
    rw [length_cons, range_succ_eq_map, map_cons, map_map, flatMap_cons,
      append_assoc]
    refine congrArg₂ cons (word_bytesOf fp _) ?_
    refine Eq.trans (map_congr_left fun i _ => ?_) ih
    have hlen : 4 * (i + 1) = (bytesOf fp).length + 4 * i := by
      change 4 * (i + 1) = 4 + 4 * i
      omega
    change word _ (4 * (i + 1)) = _
    rw [hlen, word_append]

theorem length_flatMap_bytesOf (fps : List FilePtr) : (fps.flatMap bytesOf).length = 4 * fps.length := by
  induction fps with
  | nil => rfl
  | cons fp fps ih =>
    rw [flatMap_cons, length_append, ih, length_cons]
    change 4 + _ = _
    omega

theorem length_messageRights (h : wellFormed control = true) (hlen : 12 ≤ control.len) :
    (messageRights control).length = (control.len - 12) / 4 := by
  unfold wellFormed at h
  simp only [Bool.and_eq_true, decide_eq_true_eq] at h
  unfold messageRights
  have hle : (12 : BitVec 32) ≤ word control.bytes 0 := by
    rw [BitVec.le_def, h.2]
    exact hlen
  rw [length_map, length_range, BitVec.toNat_sub_of_le hle, h.2]
  rfl

theorem messageRights_storeRights (h : wellFormed control = true) (hlen : 12 ≤ control.len)
    (hfps : fps.length = (messageRights control).length) :
    messageRights (storeRights control fps) = fps := by
  have hroom : (fps.flatMap bytesOf).length ≤ control.bytes.length - 12 := by
    rw [length_flatMap_bytesOf, hfps, length_messageRights h hlen]
    unfold Sockbuf.Mbuf.len
    omega
  have hlen' : 12 ≤ control.bytes.length := hlen
  have hbytes : (storeRights control fps).bytes = control.bytes.take 12 ++
      (fps.flatMap bytesOf ++ control.bytes.drop (12 + (fps.flatMap bytesOf).length)) := by
    unfold storeRights
    rw [dif_pos hlen']
    change overwrite 12 (fps.flatMap bytesOf) control.bytes = _
    unfold overwrite
    rw [take_of_length_le hroom]
  have htake : (control.bytes.take 12).length = 12 := by
    rw [length_take]
    omega
  have hhead : word (storeRights control fps).bytes 0 = word control.bytes 0 := by
    rw [hbytes]
    have hsplit : control.bytes = control.bytes.take 12 ++ control.bytes.drop 12 :=
      (take_append_drop 12 control.bytes).symm
    have h3 : 0 + 3 < (control.bytes.take 12).length := by
      rw [htake]
      decide
    rw [word_append_left _ h3]
    exact (word_append_left _ h3).symm.trans (congrArg (fun bs => word bs 0) hsplit.symm)
  have hn : (word control.bytes 0 - 12).toNat / 4 = fps.length := by
    rw [hfps]
    unfold messageRights
    rw [length_map, length_range]
  unfold messageRights
  rw [hhead, hn]
  refine Eq.trans (map_congr_left fun i _ => ?_)
    (words_flatMap fps (control.bytes.drop (12 + (fps.flatMap bytesOf).length)))
  have hoff : 12 + 4 * i = (control.bytes.take 12).length + 4 * i := by
    rw [htake]
  rw [hbytes, hoff]
  exact word_append _ _ _

/-- The files that the descriptors of a message stand for.
Source: unp_internalize -/
def files (ofiles : List (Option FilePtr)) (control : Mbuf) : List FilePtr :=
  (messageRights control).filterMap (fdFile ofiles)

/-- Is the message taken: is it well formed, and does each descriptor stand for a file?
Source: unp_internalize -/
def Internalizes (ofiles : List (Option FilePtr)) (control : Mbuf) : Prop :=
  wellFormed control = true ∧ ∀ fd ∈ messageRights control, (fdFile ofiles fd).isSome = true

/-- **Internalization** is all or nothing: the counts go up by one for each descriptor, and the message
holds the references instead; or nothing changes. -/
theorem internalize_spec (hlen : 12 ≤ control.len) (r : Refs) :
    (∃ e, internalize ofiles control r = .error e ∧ ¬ Internalizes ofiles control) ∨
      ∃ c, internalize ofiles control r = .ok (c, r.plus (files ofiles control)) ∧
        Internalizes ofiles control ∧ c.addr = control.addr ∧ c.len = control.len ∧
        messageRights c = files ofiles control ∧
        (files ofiles control).length = (messageRights control).length := by
  unfold internalize
  by_cases hwf : wellFormed control = false
  · rw [if_pos hwf]
    exact .inl ⟨_, rfl, fun h => Bool.false_ne_true (hwf.symm.trans h.1)⟩
  rw [if_neg hwf]
  have hwf' : wellFormed control = true := (Bool.not_eq_false _).mp hwf
  by_cases hbad : ((messageRights control).any fun fd => (fdFile ofiles fd).isNone) = true
  · rw [if_pos hbad]
    refine .inl ⟨_, rfl, fun h => ?_⟩
    obtain ⟨fd, hfd, hnone⟩ := any_eq_true.mp hbad
    have hsome := h.2 fd hfd
    rw [Option.isNone_iff_eq_none] at hnone
    rw [hnone] at hsome
    cases hsome
  · rw [if_neg hbad]
    dsimp only
    have hall : ∀ fd ∈ messageRights control, (fdFile ofiles fd).isSome = true := by
      intro fd hfd
      by_contra hnot
      refine hbad (any_eq_true.mpr ⟨fd, hfd, ?_⟩)
      rw [Option.isNone_iff_eq_none]
      exact Option.not_isSome_iff_eq_none.mp hnot
    have hlength : (files ofiles control).length = (messageRights control).length := by
      exact filterMap_length_eq_length.mpr hall
    rw [foldl_incr]
    refine .inr ⟨_, rfl, ⟨hwf', hall⟩, ?_, ?_, messageRights_storeRights hwf' hlen hlength, hlength⟩
    · unfold storeRights
      split_ifs
      · rfl
      · rfl
    · unfold storeRights Sockbuf.Mbuf.len
      split_ifs with h12
      · exact length_overwrite _ _ h12
      · rfl

end rights

end Bsd386.Kern.Unp.Send
