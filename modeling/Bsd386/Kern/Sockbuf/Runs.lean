import Bsd386.Kern.Sockbuf.Drop
import Bsd386.Lib.Transition

/-!
# Socket buffers over whole runs

A run starts with an empty buffer and calls the routines of `uipc_socket2.c` in any order. The
chains handed over are made of mbufs that are not in the buffer. Beside the buffer the run keeps a
log: for each record what was appended to it and how much was dropped from its front.
-/

namespace Bsd386.Kern.Sockbuf

open List Lib.Transition Option

/-- A chain of mbufs that are distinct and not in the buffer. -/
def Fresh (sb : Sockbuf) (m : List Mbuf) : Prop := ((sb.mbufs ++ m).map Mbuf.addr).Nodup

/-! ## Appending to a well formed buffer -/

section append

variable {sb : Sockbuf} {m : List Mbuf} {r : Counts × List Mbuf}

theorem Wf.insert (h : Wf sb) {pre post : List (List Mbuf)} (hsplit : sb.mb = pre ++ post)
    (hr : Compressed sb.cnt [] m r) (hne : r.2 ≠ []) (hfresh : Fresh sb m) :
    Wf { sb with cnt := r.1, mb := pre ++ r.2 :: post } := by
  have hall : sb.mbufs = pre.flatten ++ post.flatten := by
    rw [Sockbuf.mbufs, hsplit, flatten_append]
  have hnew : (pre ++ r.2 :: post).flatten = pre.flatten ++ (r.2 ++ post.flatten) := by
    rw [flatten_append, flatten_cons]
  have hlen : chainLen m = chainLen r.2 := by
    rw [← length_chainBytes, ← length_chainBytes, hr.bytes, chainBytes_nil, nil_append]
  refine ⟨?_, ?_, ?_⟩
  · have ht := hr.tracks (chainLen sb.mbufs) (chainStorage sb.mbufs) h.tracks
    rw [hall, hlen] at ht
    simp only [Sockbuf.mbufs, hnew, chainLen_append, chainStorage_append] at ht ⊢
    rwa [Nat.add_assoc, Nat.add_assoc, Nat.add_comm (chainLen post.flatten),
      Nat.add_comm (chainStorage post.flatten)] at ht
  · intro x hx
    rcases mem_append.mp hx with hx | hx
    · exact h.ne_nil x (by rw [hsplit]; exact mem_append_left _ hx)
    · rcases mem_cons.mp hx with rfl | hx
      · exact hne
      · exact h.ne_nil x (by rw [hsplit]; exact mem_append_right _ hx)
  · have hsub : (r.2.map Mbuf.addr).Sublist (m.map Mbuf.addr) := hr.sub
    have hnd : (sb.mbufs.map Mbuf.addr ++ r.2.map Mbuf.addr).Nodup := by
      refine (hsub.append_left _).nodup ?_
      rw [← map_append]
      exact hfresh
    have hperm : (sb.mbufs.map Mbuf.addr ++ r.2.map Mbuf.addr).Perm
        ((pre ++ r.2 :: post).flatten.map Mbuf.addr) := by
      rw [hnew, hall]
      simp only [map_append, append_assoc]
      exact perm_append_comm.append_left _
    exact hperm.nodup_iff.mp hnd

theorem Wf.extend (h : Wf sb) {pre : List (List Mbuf)} {l n : List Mbuf}
    (hsplit : sb.mb = pre ++ [l ++ n]) (hr : Compressed sb.cnt n m r) (hne : l ++ r.2 ≠ [])
    (hfresh : Fresh sb m) : Wf { sb with cnt := r.1, mb := pre ++ [l ++ r.2] } := by
  have hall : sb.mbufs = pre.flatten ++ l ++ n := by
    rw [Sockbuf.mbufs, hsplit, flatten_concat, append_assoc]
  have hnew : (pre ++ [l ++ r.2]).flatten = pre.flatten ++ l ++ r.2 := by
    rw [flatten_concat, append_assoc]
  have hlen : chainLen r.2 = chainLen n + chainLen m := by
    rw [← length_chainBytes, hr.bytes, length_append, length_chainBytes, length_chainBytes]
  refine ⟨?_, ?_, ?_⟩
  · have ht := hr.tracks (chainLen sb.mbufs) (chainStorage (pre.flatten ++ l)) (by
      have htracks := h.tracks
      rw [hall, chainStorage_append] at htracks
      rwa [hall])
    rw [hall, chainLen_append, Nat.add_assoc, ← hlen, ← chainLen_append,
      ← chainStorage_append] at ht
    simpa only [Sockbuf.mbufs, hnew] using ht
  · intro x hx
    rcases mem_append.mp hx with hx | hx
    · exact h.ne_nil x (by rw [hsplit]; exact mem_append_left _ hx)
    · rw [mem_singleton] at hx
      rw [hx]
      exact hne
  · simp only [Sockbuf.mbufs, hnew]
    rw [map_append]
    refine (hr.sub.append_left _).nodup ?_
    rw [Fresh, hall, append_assoc, map_append] at hfresh
    exact hfresh

theorem compressed_self (c : Counts) (m : List Mbuf) :
    Compressed c [] m (m.foldl Counts.alloc c, m) :=
  ⟨fun _ _ ht => ht.allocs m, rfl, List.Sublist.refl _, fun hn => absurd rfl hn⟩

section

variable (h : Wf sb) (hm : m ≠ []) (hfresh : Fresh sb m)
include h hm hfresh

theorem appendChain_spec :
    Wf (appendChain sb m) ∧
      (appendChain sb m).mb.map chainBytes = sb.mb.map chainBytes ++ [chainBytes m] :=
  ⟨h.insert (append_nil _).symm (compressed_self _ m) hm hfresh, map_append⟩

theorem sbappendrecord_spec :
    Wf (sbappendrecord sb m) ∧
      (sbappendrecord sb m).mb.map chainBytes = sb.mb.map chainBytes ++ [chainBytes m] := by
  rcases m with _ | ⟨m0, ms⟩
  · exact absurd rfl hm
  have hr := startRecord_spec sb.cnt m0 ms
  refine ⟨h.insert (append_nil _).symm hr (startRecord_ne_nil _ _ _) hfresh, ?_⟩
  rw [sbappendrecord, map_append, map_singleton, hr.bytes, chainBytes_nil,
    nil_append]

theorem sbinsertoob_spec :
    Wf (sbinsertoob sb m) ∧
      (sbinsertoob sb m).mb.map chainBytes =
        (sb.mb.takeWhile oobTrain).map chainBytes ++
          chainBytes m :: (sb.mb.dropWhile oobTrain).map chainBytes := by
  rcases m with _ | ⟨m0, ms⟩
  · exact absurd rfl hm
  · have hr := startRecord_spec sb.cnt m0 ms
    refine ⟨h.insert takeWhile_append_dropWhile.symm hr (startRecord_ne_nil _ _ _) hfresh, ?_⟩
    rw [sbinsertoob, map_append, map_cons, hr.bytes, chainBytes_nil, nil_append]

theorem sbappend_spec_nil (hmb : sb.mb = []) :
    Wf (sbappend sb m) ∧
      (sbappend sb m).mb.map chainBytes =
        if chainBytes m = [] ∧ m.any (·.eor) = false then [] else [chainBytes m] := by
  have hr := sbcompress_spec sb.cnt false m none
  have hnil := sbcompress_none_eq_nil_iff sb.cnt false m hm
  simp only [true_and] at hnil
  rw [sbappend, if_neg hm, hmb, getLast?_nil]
  simp only
  by_cases hz : (sbcompress sb.cnt false m none).2 = []
  · rw [if_pos hz, if_pos (hnil.mp hz), map_nil]
    refine ⟨⟨?_, fun r hr => absurd hr not_mem_nil, nodup_nil⟩, rfl⟩
    have ht := hr.tracks 0 0 (by simpa [Sockbuf.mbufs, hmb] using h.tracks)
    rw [hz, ← length_chainBytes, (hnil.mp hz).1] at ht
    exact ht
  · rw [if_neg hz, if_neg (fun hc => hz (hnil.mpr hc)), map_singleton, hr.bytes]
    have hsplit : sb.mb = [] ++ [] := hmb
    exact ⟨h.insert hsplit hr hz hfresh, rfl⟩

theorem sbappend_spec_last {pre : List (List Mbuf)} {last : List Mbuf} (hmb : sb.mb = pre ++ [last])
    (heor : last.any (·.eor) = false) :
    Wf (sbappend sb m) ∧
      (sbappend sb m).mb.map chainBytes =
        pre.map chainBytes ++ [chainBytes last ++ chainBytes m] := by
  have hlast : last ≠ [] := h.ne_nil last (by rw [hmb]; exact mem_append_right _ (by simp))
  obtain ⟨l, n, rfl⟩ : ∃ l n, last = l ++ [n] :=
    ⟨_, _, (dropLast_append_getLast hlast).symm⟩
  have hr := sbcompress_spec sb.cnt false m (some n)
  have hne := hr.ne_nil (cons_ne_nil _ _)
  rw [sbappend, if_neg hm, hmb, getLast?_concat]
  simp only [heor, Bool.false_eq_true, if_false, getLast?_concat, dropLast_concat]
  refine ⟨h.extend hmb hr (append_ne_nil_of_right_ne_nil _ hne) hfresh, ?_⟩
  rw [map_append, map_singleton, chainBytes_append, hr.bytes, chainBytes_append,
    append_assoc]
  rfl

end

theorem sbappend_of_eor (hm : m ≠ []) {pre : List (List Mbuf)} {last : List Mbuf}
    (hmb : sb.mb = pre ++ [last]) (heor : last.any (·.eor) = true) :
    sbappend sb m = sbappendrecord sb m := by
  rw [sbappend, if_neg hm, hmb, getLast?_concat]
  simp only [heor, if_true]

theorem sbdroprecord_spec (h : Wf sb) :
    Wf (sbdroprecord sb) ∧ (sbdroprecord sb).mb = sb.mb.tail := by
  rcases hmb : sb.mb with _ | ⟨r, rs⟩
  · rw [sbdroprecord, hmb]
    exact ⟨h, hmb⟩
  have hall : sb.mbufs = r ++ rs.flatten := by rw [Sockbuf.mbufs, hmb, flatten_cons]
  rw [sbdroprecord, hmb]
  refine ⟨⟨Tracks.frees ?_, fun x hx => ?_, ?_⟩, rfl⟩
  · have ht := h.tracks
    rw [hall, chainLen_append, chainStorage_append] at ht
    rwa [Nat.add_comm (chainLen r), Nat.add_comm (chainStorage r)] at ht
  · exact h.ne_nil x (by rw [hmb]; exact mem_cons_of_mem _ hx)
  · have hnd := h.nodup
    rw [hall, map_append] at hnd
    exact hnd.of_append_right

end append

/-! ## The log -/

/-- What was appended to a record, and how many bytes were dropped from its front. -/
structure Rec where
  appended : List UInt8
  dropped : ℕ
  dropped_le : dropped ≤ appended.length
deriving DecidableEq

namespace Rec

def start (bs : List UInt8) : Rec := ⟨bs, 0, Nat.zero_le _⟩

/-- The appended bytes minus the dropped prefix. -/
def content (r : Rec) : List UInt8 := r.appended.drop r.dropped

def append (r : Rec) (bs : List UInt8) : Rec where
  appended := r.appended ++ bs
  dropped := r.dropped
  dropped_le := by
    rw [length_append]
    exact r.dropped_le.trans (Nat.le_add_right _ _)

def drop (r : Rec) (k : ℕ) (hk : k < r.content.length) : Rec where
  appended := r.appended
  dropped := r.dropped + k
  dropped_le := by
    rw [content, length_drop] at hk
    omega

@[simp] theorem content_start (bs : List UInt8) : (start bs).content = bs := rfl

@[simp] theorem content_append (r : Rec) (bs : List UInt8) :
    (r.append bs).content = r.content ++ bs :=
  drop_append_of_le_length r.dropped_le

@[simp] theorem content_drop (r : Rec) (k : ℕ) (hk : k < r.content.length) :
    (r.drop k hk).content = r.content.drop k := by
  rw [content, drop, content, drop_drop]

end Rec

/-- Dropping `len` bytes, in the log: a record that they exhaust goes. -/
def dropLog : ℕ → List Rec → List Rec
  | _, [] => []
  | len, r :: rs =>
    if h : len < r.content.length then r.drop len h :: rs
    else if len = r.content.length then rs
    else dropLog (len - r.content.length) rs

theorem map_content_dropLog (len : ℕ) (log : List Rec) :
    (dropLog len log).map Rec.content = dropContents len (log.map Rec.content) := by
  fun_induction dropLog len log with
  | case1 => rfl
  | case2 len r rs h => rw [map_cons, map_cons, dropContents_cons, if_pos h, r.content_drop]
  | case3 r rs h => rw [map_cons, dropContents_cons, if_neg h, if_pos rfl]
  | case4 len r rs h hne ih => rw [map_cons, dropContents_cons, if_neg h, if_neg hne, ih]

/-! ## Runs -/

/-- A call of one of the routines. `mget` is what `MGET` finds in `sbappendaddr`. -/
inductive Op where
  | append (m : List Mbuf)
  | appendrecord (m0 : List Mbuf)
  | insertoob (m0 : List Mbuf)
  | appendaddr (asa : List UInt8) (m0 control : List Mbuf) (mget : Option (Fin nmbuf))
  | appendcontrol (m0 control : List Mbuf)
  | drop (len : ℤ)
  | droprecord
  | flush

/-- What a caller keeps to: mbufs handed over are not in the buffer; `sbappendaddr` gets a packet
header, `sbappendcontrol` control data, and `sbdrop` at most `sb_cc`. -/
def Op.Ok (sb : Sockbuf) : Op → Prop
  | .append m => Fresh sb m
  | .appendrecord m0 => Fresh sb m0
  | .insertoob m0 => Fresh sb m0
  | .appendaddr _ m0 control mget =>
    m0.head?.any (·.pkthdr.isNone) = false ∧
      ((sb.mbufs ++ (control ++ m0)).map Mbuf.addr ++ mget.toList).Nodup
  | .appendcontrol m0 control => control ≠ [] ∧ Fresh sb (control ++ m0)
  | .drop len => len.toNat ≤ sb.cnt.cc.toNat
  | .droprecord => True
  | .flush => True

/-- Execute a call. The fuel is for the loop of `sbflush`. -/
def exec (fuel : ℕ) (sb : Sockbuf) : Op → Option (Except Panic Sockbuf)
  | .append m => some (.ok (sbappend sb m))
  | .appendrecord m0 => some (.ok (sbappendrecord sb m0))
  | .insertoob m0 => some (.ok (sbinsertoob sb m0))
  | .appendaddr asa m0 control mget =>
    some ((sbappendaddr sb asa m0 control mget).map Prod.snd)
  | .appendcontrol m0 control => some ((sbappendcontrol sb m0 control).map Prod.snd)
  | .drop len => some (sbdrop sb len)
  | .droprecord => some (.ok (sbdroprecord sb))
  | .flush => sbflush fuel sb

/-- The log after a call: to which record its data goes, or what it drops. -/
def logStep (sb : Sockbuf) (log : List Rec) : Op → List Rec
  | .append m =>
    if m = [] then log
    else
      match sb.mb.getLast? with
      | none =>
        if chainBytes m = [] ∧ m.any (·.eor) = false then [] else [Rec.start (chainBytes m)]
      | some last =>
        if last.any (·.eor) then log ++ [Rec.start (chainBytes m)]
        else log.dropLast ++ (log.getLast?.map (·.append (chainBytes m))).toList
  | .appendrecord m0 => if m0 = [] then log else log ++ [Rec.start (chainBytes m0)]
  | .insertoob m0 =>
    if m0 = [] then log
    else
      log.take (sb.mb.takeWhile oobTrain).length ++ Rec.start (chainBytes m0) ::
        log.drop (sb.mb.takeWhile oobTrain).length
  | .appendaddr asa m0 control mget =>
    match sbappendaddr sb asa m0 control mget with
    | .ok (true, _) => log ++ [Rec.start (asa ++ chainBytes control ++ chainBytes m0)]
    | _ => log
  | .appendcontrol m0 control =>
    match sbappendcontrol sb m0 control with
    | .ok (true, _) => log ++ [Rec.start (chainBytes control ++ chainBytes m0)]
    | _ => log
  | .drop len => dropLog len.toNat log
  | .droprecord => log.tail
  | .flush => []

/-- A buffer with its log. -/
structure St where
  sb : Sockbuf
  log : List Rec

def Step (s t : St) : Prop :=
  ∃ op fuel, op.Ok s.sb ∧ exec fuel s.sb op = some (.ok t.sb) ∧ t.log = logStep s.sb s.log op

/-- An empty buffer with any limits. Source: sbreserve -/
def Start (s : St) : Prop := ∃ hiwat mbmax, s = ⟨empty hiwat mbmax, []⟩

def Reachable (s : St) : Prop := Reach Start Step s

/-- The invariant of the runs. -/
structure Good (s : St) : Prop where
  wf : Wf s.sb
  unlocked : s.sb.lock = false
  contents : s.sb.mb.map chainBytes = s.log.map Rec.content

/-! ## Calls keep the invariant -/

section calls

variable {s : St} (h : Good s)
include h

theorem Good.appendrecord {m0 : List Mbuf} (hm : m0 ≠ []) (hfresh : Fresh s.sb m0) :
    Good ⟨sbappendrecord s.sb m0, s.log ++ [Rec.start (chainBytes m0)]⟩ := by
  obtain ⟨hwf, hcont⟩ := sbappendrecord_spec h.wf hm hfresh
  refine ⟨hwf, ?_, ?_⟩
  · rw [← h.unlocked]
    cases m0 <;> rfl
  · rw [hcont, h.contents, map_append, map_singleton, Rec.content_start]

theorem Good.append {m : List Mbuf} (hm : m ≠ []) (hfresh : Fresh s.sb m) :
    Good ⟨sbappend s.sb m, logStep s.sb s.log (.append m)⟩ := by
  have hlock : (sbappend s.sb m).lock = false := by
    rw [← h.unlocked, sbappend, if_neg hm]
    split
    · rfl
    · split
      · cases m <;> rfl
      · rfl
  rcases eq_nil_or_concat s.sb.mb with hmb | ⟨pre, last, hmb⟩
  · obtain ⟨hwf, hcont⟩ := sbappend_spec_nil h.wf hm hfresh hmb
    refine ⟨hwf, hlock, ?_⟩
    rw [hcont]
    simp only [logStep, if_neg hm, hmb, getLast?_nil]
    split <;> rfl
  rw [concat_eq_append] at hmb
  have hlog := h.contents
  rw [hmb, map_append, map_singleton] at hlog
  obtain ⟨lpre, lrec, hsplit⟩ : ∃ lpre lrec, s.log = lpre ++ [lrec] := by
    rcases eq_nil_or_concat s.log with hnil | ⟨lpre, lrec, hcat⟩
    · rw [hnil, map_nil] at hlog
      exact absurd hlog (by simp)
    · exact ⟨lpre, lrec, by rw [hcat, concat_eq_append]⟩
  rw [hsplit, map_append, map_singleton] at hlog
  obtain ⟨hpre, hlast⟩ := append_inj' hlog rfl
  rw [singleton_inj] at hlast
  cases heor : last.any (·.eor) with
  | true =>
    have hgood := h.appendrecord hm hfresh
    rw [sbappend_of_eor hm hmb heor]
    simpa only [logStep, if_neg hm, hmb, getLast?_concat, heor, if_true] using hgood
  | false =>
    obtain ⟨hwf, hcont⟩ := sbappend_spec_last h.wf hm hfresh hmb heor
    refine ⟨hwf, hlock, ?_⟩
    rw [hcont, hpre, hlast]
    simp only [logStep, if_neg hm, hmb, getLast?_concat, heor, Bool.false_eq_true,
      if_false, hsplit, dropLast_concat, map_some, toList_some,
      map_append, map_singleton, Rec.content_append]

theorem Good.insertoob {m0 : List Mbuf} (hm : m0 ≠ []) (hfresh : Fresh s.sb m0) :
    Good ⟨sbinsertoob s.sb m0, logStep s.sb s.log (.insertoob m0)⟩ := by
  obtain ⟨hwf, hcont⟩ := sbinsertoob_spec h.wf hm hfresh
  refine ⟨hwf, ?_, ?_⟩
  · rw [← h.unlocked]
    cases m0 <;> rfl
  · have hsplit := takeWhile_append_dropWhile (p := oobTrain) (l := s.sb.mb)
    have htake := (congrArg (take (s.sb.mb.takeWhile oobTrain).length) hsplit.symm).trans
      take_left
    have hdrop := (congrArg (drop (s.sb.mb.takeWhile oobTrain).length) hsplit.symm).trans
      drop_left
    rw [hcont, logStep, if_neg hm, map_append, map_cons, map_take, map_drop,
      ← h.contents, ← map_take, ← map_drop, htake, hdrop, Rec.content_start]

theorem Good.appendChain {m : List Mbuf} (hm : m ≠ []) (hfresh : Fresh s.sb m) :
    Good ⟨appendChain s.sb m, s.log ++ [Rec.start (chainBytes m)]⟩ := by
  obtain ⟨hwf, hcont⟩ := appendChain_spec h.wf hm hfresh
  refine ⟨hwf, h.unlocked, ?_⟩
  rw [hcont, h.contents, map_append, map_singleton, Rec.content_start]

theorem Good.appendaddr {asa : List UInt8} {m0 control : List Mbuf} {mget : Option (Fin nmbuf)}
    (hok : (Op.appendaddr asa m0 control mget).Ok s.sb) :
    ∃ b sb', sbappendaddr s.sb asa m0 control mget = .ok (b, sb') ∧
      Good ⟨sb', logStep s.sb s.log (.appendaddr asa m0 control mget)⟩ := by
  obtain ⟨hhdr, hnd⟩ := hok
  obtain ⟨r, hr⟩ : ∃ r, sbappendaddr s.sb asa m0 control mget = r := ⟨_, rfl⟩
  have hr' := hr
  simp only [sbappendaddr, hhdr, Bool.false_eq_true, if_false] at hr'
  have hsame : r = .ok (false, s.sb) → ∃ b sb', r = .ok (b, sb') ∧
      Good ⟨sb', logStep s.sb s.log (.appendaddr asa m0 control mget)⟩ := by
    rintro rfl
    exact ⟨false, s.sb, rfl, by simpa only [logStep, hr] using h⟩
  rw [hr]
  split at hr'
  · exact hsame hr'.symm
  split at hr'
  · next hlen =>
      rcases mget with _ | a
      · exact hsame hr'.symm
      refine ⟨true, _, hr'.symm, ?_⟩
      have hbytes : chainBytes (sonameMbuf a asa hlen :: (control ++ m0))
          = asa ++ chainBytes control ++ chainBytes m0 := by
        rw [chainBytes_cons, chainBytes_append, append_assoc]
        rfl
      have hgood := h.appendChain (cons_ne_nil (sonameMbuf a asa hlen) (control ++ m0)) (by
        rw [Fresh, map_append, map_cons]
        rw [map_append, append_assoc] at hnd
        refine (List.Perm.append_left _ ?_).nodup_iff.mp hnd
        exact perm_append_singleton _ _)
      rw [hbytes] at hgood
      rw [← hr'] at hr
      simpa only [logStep, hr] using hgood
  · exact hsame hr'.symm

theorem Good.appendcontrol {m0 control : List Mbuf}
    (hok : (Op.appendcontrol m0 control).Ok s.sb) :
    ∃ b sb', sbappendcontrol s.sb m0 control = .ok (b, sb') ∧
      Good ⟨sb', logStep s.sb s.log (.appendcontrol m0 control)⟩ := by
  obtain ⟨hne, hfresh⟩ := hok
  obtain ⟨r, hr⟩ : ∃ r, sbappendcontrol s.sb m0 control = r := ⟨_, rfl⟩
  have hr' := hr
  rw [sbappendcontrol, if_neg hne] at hr'
  rw [hr]
  simp only at hr'
  split at hr'
  · rw [← hr'] at hr ⊢
    exact ⟨false, s.sb, rfl, by simpa only [logStep, hr] using h⟩
  rw [← hr'] at hr ⊢
  refine ⟨true, _, rfl, ?_⟩
  have hgood := h.appendChain (append_ne_nil_of_left_ne_nil hne m0) hfresh
  rw [chainBytes_append] at hgood
  simpa only [logStep, hr] using hgood

theorem Good.drop {len : ℤ} (hok : (Op.drop len).Ok s.sb) :
    ∃ sb', sbdrop s.sb len = .ok sb' ∧ Good ⟨sb', dropLog len.toNat s.log⟩ := by
  have hlen : len.toNat ≤ chainLen s.sb.mbufs := h.wf.toNat_cc ▸ hok
  obtain ⟨sb', hdrop, hwf, hcont, -, -, -, hlock⟩ := sbdrop_spec h.wf len hlen
  refine ⟨sb', hdrop, hwf, by rw [hlock]; exact h.unlocked, ?_⟩
  rw [hcont, h.contents, map_content_dropLog]

theorem Good.droprecord : Good ⟨sbdroprecord s.sb, s.log.tail⟩ := by
  obtain ⟨hwf, hmb⟩ := sbdroprecord_spec h.wf
  refine ⟨hwf, ?_, ?_⟩
  · rw [← h.unlocked, sbdroprecord]
    split <;> rfl
  · rw [hmb, map_tail, h.contents, map_tail]

end calls

theorem sbflushLoop_add {fuel : ℕ} {sb : Sockbuf} {r : Except Panic Sockbuf}
    (h : sbflushLoop fuel sb = some r) (k : ℕ) : sbflushLoop (fuel + k) sb = some r := by
  induction fuel generalizing sb with
  | zero => exact absurd h (by simp [sbflushLoop])
  | succ fuel ih =>
    rw [Nat.add_right_comm, sbflushLoop]
    rw [sbflushLoop] at h
    split at h
    · next hz => rw [if_pos hz, h]
    next hz =>
      rw [if_neg hz]
      split at h
      · exact h
      · exact ih h

theorem exec_det {f f' : ℕ} {sb : Sockbuf} {op : Op} {r r' : Except Panic Sockbuf}
    (h : exec f sb op = some r) (h' : exec f' sb op = some r') : r = r' := by
  cases op with
  | flush =>
    simp only [exec, sbflush] at h h'
    split at h
    · next hl => rw [if_pos hl] at h'; exact some.inj (h.symm.trans h')
    next hl =>
      rw [if_neg hl] at h'
      have h1 := sbflushLoop_add h f'
      have h2 := sbflushLoop_add h' f
      rw [Nat.add_comm] at h2
      exact some.inj (h1.symm.trans h2)
  | append m => exact some.inj (h.symm.trans h')
  | appendrecord m0 => exact some.inj (h.symm.trans h')
  | insertoob m0 => exact some.inj (h.symm.trans h')
  | appendaddr asa m0 control mget => exact some.inj (h.symm.trans h')
  | appendcontrol m0 control => exact some.inj (h.symm.trans h')
  | drop len => exact some.inj (h.symm.trans h')
  | droprecord => exact some.inj (h.symm.trans h')

/-- **One call.** In a good state an admissible call returns, without panic, in a good state. -/
theorem Good.exec {s : St} (h : Good s) {op : Op} (hok : op.Ok s.sb) :
    ∃ fuel sb', Sockbuf.exec fuel s.sb op = some (.ok sb') ∧ Good ⟨sb', logStep s.sb s.log op⟩ := by
  cases op with
  | append m =>
    refine ⟨0, _, rfl, ?_⟩
    by_cases hm : m = []
    · rw [hm, sbappend, if_pos rfl, logStep, if_pos rfl]
      exact h
    · exact h.append hm hok
  | appendrecord m0 =>
    refine ⟨0, _, rfl, ?_⟩
    by_cases hm : m0 = []
    · rw [hm, sbappendrecord, logStep, if_pos rfl]
      exact h
    · rw [logStep, if_neg hm]
      exact h.appendrecord hm hok
  | insertoob m0 =>
    refine ⟨0, _, rfl, ?_⟩
    by_cases hm : m0 = []
    · rw [hm, sbinsertoob, logStep, if_pos rfl]
      exact h
    · exact h.insertoob hm hok
  | appendaddr asa m0 control mget =>
    obtain ⟨b, sb', hrun, hgood⟩ := h.appendaddr hok
    exact ⟨0, sb', by rw [Sockbuf.exec, hrun]; rfl, hgood⟩
  | appendcontrol m0 control =>
    obtain ⟨b, sb', hrun, hgood⟩ := h.appendcontrol hok
    exact ⟨0, sb', by rw [Sockbuf.exec, hrun]; rfl, hgood⟩
  | drop len =>
    obtain ⟨sb', hrun, hgood⟩ := h.drop hok
    exact ⟨0, sb', by rw [Sockbuf.exec, hrun], hgood⟩
  | droprecord => exact ⟨0, _, rfl, h.droprecord⟩
  | flush =>
    obtain ⟨fuel, sb', hrun, rfl⟩ := sbflush_spec h.wf h.unlocked
    exact ⟨fuel, _, hrun, ⟨⟨rfl, rfl⟩, fun r hr => absurd hr not_mem_nil, nodup_nil⟩,
      rfl, rfl⟩

theorem Reachable.good {s : St} (h : Reachable s) : Good s := by
  refine Reach.invariant (I := Good) ?_ ?_ h
  · rintro s ⟨hiwat, mbmax, rfl⟩
    exact ⟨⟨⟨rfl, rfl⟩, fun r hr => absurd hr not_mem_nil, nodup_nil⟩, rfl, rfl⟩
  · rintro s t - hs ⟨op, fuel, hok, hrun, hlog⟩
    obtain ⟨fuel', sb', hrun', hgood⟩ := hs.exec hok
    have heq : t.sb = sb' := Except.ok.inj (exec_det hrun hrun')
    rw [← heq, ← hlog] at hgood
    exact hgood

/-- **Socket buffer accounting and content.** In every state of every run of the routines from an
empty buffer: `sb_cc` is the total `m_len` and `sb_mbcnt` the total storage of the mbufs in the
buffer; the bytes of each record are what was appended to it minus the dropped prefix; every
call that keeps to its contract returns without a panic; and `sbflush` terminates with an empty
buffer. Kind: C -/
theorem sockbuf_accounts_of_reachable {s : St} (h : Reachable s) :
    s.sb.cnt.cc.toNat = chainLen s.sb.mbufs ∧
    s.sb.cnt.mbcnt.toNat = chainStorage s.sb.mbufs ∧
    s.sb.mb.map chainBytes = s.log.map Rec.content ∧
    (∀ op : Op, op.Ok s.sb → ∃ fuel sb', exec fuel s.sb op = some (.ok sb')) ∧
    ∃ fuel sb', sbflush fuel s.sb = some (.ok sb') ∧ sb'.mb = [] ∧ sb'.cnt = ⟨0, 0⟩ := by
  have hgood := h.good
  refine ⟨hgood.wf.toNat_cc, hgood.wf.toNat_mbcnt, hgood.contents, fun op hok => ?_, ?_⟩
  · obtain ⟨fuel, sb', hrun, -⟩ := hgood.exec hok
    exact ⟨fuel, sb', hrun⟩
  · obtain ⟨fuel, sb', hrun, rfl⟩ := sbflush_spec hgood.wf hgood.unlocked
    exact ⟨fuel, _, hrun, rfl, rfl⟩

/-- An mbuf with two bytes of data. -/
def twoBytes : Mbuf where
  addr := ⟨0, nmbuf_pos⟩
  type := .data
  off := 0
  bytes := [1, 2]
  ext := none
  pkthdr := none
  eor := false
  room := by decide
  ext_le := mlen_le_mclbytes

/-- After `sbappendrecord` of an mbuf with two bytes and `sbdrop` of one, the buffer holds one byte. Kind: C -/
theorem sockbuf_accounts_append_drop :
    ∃ s : St, Reachable s ∧ s.sb.mb.map chainBytes = [[2]] ∧ s.sb.cnt.cc.toNat = 1 ∧
      s.sb.cnt.mbcnt.toNat = 128 := by
  obtain ⟨sb1, h1⟩ : ∃ sb1, sbappendrecord (empty 4096 8192) [twoBytes] = sb1 := ⟨_, rfl⟩
  obtain ⟨sb2, h2⟩ : ∃ sb2, sbdrop sb1 1 = .ok sb2 := by
    rw [← h1]
    exact ⟨_, rfl⟩
  have hstart : Reachable ⟨empty 4096 8192, []⟩ := .start ⟨4096, 8192, rfl⟩
  have hone : Reachable ⟨sb1, [Rec.start [1, 2]]⟩ :=
    .step hstart ⟨.appendrecord [twoBytes], 0, by unfold Op.Ok Fresh; decide, by rw [← h1]; rfl, rfl⟩
  have htwo : Reachable ⟨sb2, dropLog 1 [Rec.start [1, 2]]⟩ :=
    .step hone ⟨.drop 1, 0, by rw [← h1]; unfold Op.Ok; decide, by rw [← h2]; rfl, rfl⟩
  obtain ⟨hcc, hmbcnt, hcont, -⟩ := sockbuf_accounts_of_reachable htwo
  have hsb2 : chainLen sb2.mbufs = 1 ∧ chainStorage sb2.mbufs = 128 := by
    rw [← h1] at h2
    obtain rfl : _ = sb2 := Except.ok.inj h2
    decide
  exact ⟨_, htwo, hcont, hcc.trans hsb2.1, hmbcnt.trans hsb2.2⟩

end Bsd386.Kern.Sockbuf
