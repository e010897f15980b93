import Bsd386.Kern.Mbuf.Basic

/-!
# The routines on chains are operations on lists

Each routine is described by what it does to the bytes of a chain, however they are cut into mbufs, and to
the packet header at its start (`HdrOk`).
-/

namespace Bsd386.Kern.Mbuf

open List Sockbuf Option
open BitVec (ofNat)

variable {m n : Mbuf} {ms ns : List Mbuf} {off len : ℕ}

/-- The data of an mbuf with a packet header lies behind the header, or in a cluster.
Source: mbuf.h struct mbuf, MGETHDR -/
def Placed (m : Mbuf) : Prop := m.pkthdr.isSome = true → m.ext = none → pkthdrSize ≤ m.off

/-- `m_pkthdr.len` is the length of the chain. Source: mbuf.h struct pkthdr -/
def HdrOk (ms : List Mbuf) : Prop := ∀ m ∈ ms.head?, ∀ l ∈ m.pkthdr, l = BitVec.ofNat 32 (chainLen ms)

/-- What `m_copym` is asked for: all bytes, or the first `len`.
Source: m_copym -/
def wanted (len : ℕ) (bs : List UInt8) : List UInt8 := if len = mCopyall then bs else bs.take len

/-- Does the chain have the bytes that `m_copym` is asked for?
Source: m_copym -/
def InChain (ms : List Mbuf) (off len : ℕ) : Prop :=
  if len = mCopyall then off ≤ chainLen ms else off + len ≤ chainLen ms

/-! ## Copying -/

theorem seek_spec (ms : List Mbuf) (off : ℕ) :
    (∃ ms' off', seek ms off = some (ms', off') ∧ (chainBytes ms).drop off = (chainBytes ms').drop off' ∧
      chainLen ms' + off = chainLen ms + off' ∧ off' ≤ chainLen ms' ∧ (∀ m ∈ ms'.head?, off' ≤ m.len)) ∨
      seek ms off = none ∧ chainLen ms < off := by
  fun_induction seek ms off with
  | case1 ms =>
    refine .inl ⟨ms, 0, rfl, rfl, rfl, Nat.zero_le _, ?_⟩
    exact fun m _ => Nat.zero_le _
  | case2 off =>
    refine .inr ⟨rfl, ?_⟩
    rw [chainLen_nil]
    exact Nat.succ_pos off
  | case3 m ms off hlt =>
    refine .inl ⟨m :: ms, off + 1, rfl, rfl, rfl, ?_, ?_⟩
    · rw [chainLen_cons]
      omega
    · intro x hx
      rw [← some.inj hx]
      exact hlt.le
  | case4 m ms off hle ih =>
    rcases ih with ⟨ms', off', hseek, hbytes, hlen, hoff, hhead⟩ | ⟨hseek, hlt⟩
    · refine .inl ⟨ms', off', hseek, ?_, ?_, hoff, hhead⟩
      · rw [← hbytes, chainBytes_cons, drop_append, drop_eq_nil_of_le (not_lt.mp hle),
          nil_append]
        rfl
      · rw [chainLen_cons]
        omega
    · refine .inr ⟨hseek, ?_⟩
      rw [chainLen_cons]
      omega

theorem seek_length {ms' : List Mbuf} {off' : ℕ} (h : seek ms off = some (ms', off')) :
    ms'.length ≤ ms.length := by
  fun_induction seek ms off with
  | case1 ms =>
    obtain ⟨rfl, -⟩ := Prod.mk.inj (some.inj h)
    exact le_rfl
  | case2 off => cases h
  | case3 m ms off hlt =>
    obtain ⟨rfl, -⟩ := Prod.mk.inj (some.inj h)
    exact le_rfl
  | case4 m ms off hle ih => exact (ih h).trans (Nat.le_succ _)

theorem take_min_drop (bs : List UInt8) (off len : ℕ) :
    (bs.drop off).take (min len (bs.length - off)) = (bs.drop off).take len := by
  rw [take_eq_take_iff, length_drop]
  omega

theorem copyOne_spec (addr : Fin nmbuf) {copyhdr : Bool} (off0 len : ℕ) (hoff : off ≤ m.len)
    (hplaced : copyhdr = true → Placed m) (hsome : copyhdr = true → m.pkthdr.isSome = true) :
    ∃ n, copyOne addr copyhdr off0 off len m = .ok n ∧ n.bytes = (m.bytes.drop off).take len ∧
      n.pkthdr = if copyhdr = true then m.pkthdr.map fun l =>
        if len = mCopyall then l - BitVec.ofNat 32 off0 else BitVec.ofNat 32 len else none := by
  have hroom := m.room
  have hlen : m.len = m.bytes.length := rfl
  have htake : ((m.bytes.drop off).take (min len (m.len - off))).length ≤ m.len - off := by
    rw [length_take]
    exact (min_le_left _ _).trans (min_le_right _ _)
  obtain ⟨n0, hn0⟩ : ∃ n0, (if copyhdr = true then
      setHdr (fun l => if len = mCopyall then l - ofNat 32 off0 else ofNat 32 len)
        (copyPkthdr (mget addr m.type) m rfl rfl)
    else mget addr m.type) = n0 := ⟨_, rfl⟩
  -- the new mbuf is empty, and in it there is as much room as before the data of the old one
  have hnew : n0.bytes = [] ∧ n0.ext = none ∧ (m.ext = none → n0.off ≤ m.off) ∧ n0.pkthdr =
      if copyhdr = true then m.pkthdr.map fun l =>
        if len = mCopyall then l - ofNat 32 off0 else ofNat 32 len else none := by
    rw [← hn0]
    by_cases hcopy : copyhdr = true
    · rw [if_pos hcopy, if_pos hcopy]
      exact ⟨rfl, rfl, hplaced hcopy (hsome hcopy), rfl⟩
    · rw [if_neg hcopy, if_neg hcopy]
      exact ⟨rfl, rfl, fun _ => Nat.zero_le _, rfl⟩
  obtain ⟨hbytes, hext, hplace, hhdr⟩ := hnew
  unfold copyOne
  rw [hn0]
  by_cases hcluster : m.ext.isSome = true
  · rw [if_pos hcluster]
    unfold share
    rw [dif_pos (by omega)]
    exact ⟨_, rfl, take_min_drop m.bytes off len, hhdr⟩
  rw [if_neg hcluster]
  have hnone := not_isSome_iff_eq_none.mp hcluster
  have hle := hplace hnone
  rw [hnone] at hroom
  unfold put
  rw [dif_pos (by
    rw [hbytes, hext, nil_append]
    omega)]
  refine ⟨_, rfl, ?_, hhdr⟩
  dsimp only
  rw [hbytes, nil_append]
  exact take_min_drop m.bytes off len

/-- **The copying loop**, from an offset in the first mbuf on: it ends with the bytes wanted, or there are
too few mbufs, or too few bytes. -/
theorem copyLoop_spec (off0 : ℕ) (avail : List (Fin nmbuf)) {copyhdr : Bool} (hlen : len ≤ mCopyall)
    (hoff : off ≤ chainLen ms) (hhead : ∀ m ∈ ms.head?, off ≤ m.len)
    (hplaced : ∀ m ∈ ms.head?, copyhdr = true → Placed m ∧ m.pkthdr.isSome = true) :
    (∃ top, copyLoop off0 avail copyhdr off len ms = .ok top ∧ InChain ms off len ∧
      chainBytes top = wanted len ((chainBytes ms).drop off) ∧
      ∀ n ∈ top.head?, ∀ m ∈ ms.head?, n.pkthdr = if copyhdr = true then m.pkthdr.map fun l =>
        if len = mCopyall then l - BitVec.ofNat 32 off0 else BitVec.ofNat 32 len else none) ∨
      (copyLoop off0 avail copyhdr off len ms = .error .nospace ∧ avail.length < ms.length) ∨
      copyLoop off0 avail copyhdr off len ms = .error .panic ∧ ¬ InChain ms off len := by
  have hall : 0 ≠ mCopyall := by decide
  induction ms generalizing avail copyhdr off len with
  | nil =>
    rw [chainLen_nil] at hoff
    have hoff0 : off = 0 := Nat.le_zero.mp hoff
    subst hoff0
    unfold InChain wanted
    cases len with
    | zero =>
      unfold copyLoop
      rw [if_neg hall, if_neg hall]
      refine .inl ⟨[], rfl, le_rfl, rfl, ?_⟩
      exact fun n hn => absurd hn (not_mem_none n)
    | succ len =>
      unfold copyLoop
      by_cases hcopy : len + 1 = mCopyall
      · rw [if_pos hcopy, if_pos hcopy, if_pos hcopy]
        refine .inl ⟨[], rfl, le_rfl, rfl, ?_⟩
        exact fun n hn => absurd hn (not_mem_none n)
      rw [if_neg hcopy, if_neg hcopy]
      refine .inr (.inr ⟨rfl, ?_⟩)
      rw [chainLen_nil]
      omega
  | cons m ms ih =>
    have hm := hhead m rfl
    cases len with
    | zero =>
      unfold copyLoop InChain wanted
      rw [if_neg hall, if_neg hall]
      refine .inl ⟨[], rfl, hoff, rfl, ?_⟩
      exact fun n hn => absurd hn (not_mem_none n)
    | succ len =>
      cases avail with
      | nil =>
        exact .inr (.inl ⟨rfl, Nat.succ_pos _⟩)
      | cons a avail =>
        obtain ⟨n, hone, hbytes, hhdr⟩ := copyOne_spec a off0 (len + 1) hm
          (fun hc => (hplaced m rfl hc).1) fun hc => (hplaced m rfl hc).2
        have hn : n.len = min (len + 1) (m.len - off) := by
          unfold Sockbuf.Mbuf.len
          rw [hbytes, length_take, length_drop]
        have hdrop : (chainBytes (m :: ms)).drop off = m.bytes.drop off ++ chainBytes ms := by
          rw [chainBytes_cons, drop_append_of_le_length hm]
        have hdroplen : (m.bytes.drop off).length = m.len - off := length_drop
        obtain ⟨len', hlen'⟩ : ∃ len', (if len + 1 = mCopyall then len + 1 else len + 1 - n.len) = len' :=
          ⟨_, rfl⟩
        have hle' : len' ≤ mCopyall := by
          rw [← hlen']
          split_ifs <;> omega
        -- the rest is asked for as the whole was
        have hin : InChain ms 0 len' ↔ InChain (m :: ms) off (len + 1) := by
          unfold InChain
          rw [← hlen', chainLen_cons]
          split_ifs <;> omega
        have hwant : n.bytes ++ wanted len' (chainBytes ms) =
            wanted (len + 1) ((chainBytes (m :: ms)).drop off) := by
          unfold wanted
          rw [hdrop, hbytes, ← hlen']
          by_cases hcopy : len + 1 = mCopyall
          · have hfull : (m.bytes.drop off).length ≤ len + 1 := by
              have hmax := m.len_le
              unfold mclbytes at hmax
              unfold mCopyall at hcopy
              omega
            rw [if_pos hcopy, if_pos hcopy, if_pos hcopy, take_of_length_le hfull]
          · have hrest : len + 1 - n.len = len + 1 - (m.bytes.drop off).length := by omega
            rw [if_neg hcopy, if_neg hcopy, if_neg (by omega), take_append, hrest]
        have hrec := @ih 0 len' avail false hle' (Nat.zero_le _) (fun m _ => Nat.zero_le _)
          fun m _ hc => absurd hc Bool.false_ne_true
        unfold copyLoop
        rw [hone]
        dsimp only
        rw [hlen']
        rcases hrec with ⟨top, htop, hinch, htopb, -⟩ | ⟨hno, hav⟩ | ⟨hpanic, hnot⟩
        · rw [htop]
          refine .inl ⟨n :: top, rfl, hin.mp hinch, ?_, ?_⟩
          · rw [chainBytes_cons, htopb, drop_zero, hwant]
          · intro x hx y hy
            rw [← some.inj hx, ← some.inj hy]
            exact hhdr
        · rw [hno]
          exact .inr (.inl ⟨rfl, Nat.succ_lt_succ hav⟩)
        · rw [hpanic]
          exact .inr (.inr ⟨rfl, fun hc => hnot (hin.mpr hc)⟩)

theorem mCopym_spec (hplaced : Placed m) (hhdr : HdrOk (m :: ms)) (off : ℕ) {len : ℕ} (hlen : len ≤ mCopyall)
    (avail : List (Fin nmbuf)) :
    (∃ top, mCopym m ms off len avail = .ok top ∧ InChain (m :: ms) off len ∧
      chainBytes top = wanted len ((chainBytes (m :: ms)).drop off) ∧ (off = 0 → ∀ n ∈ top.head?,
        n.pkthdr = m.pkthdr.map fun _ => BitVec.ofNat 32 (chainLen top))) ∨
      (mCopym m ms off len avail = .error .nospace ∧ avail.length < ms.length + 1) ∨
      mCopym m ms off len avail = .error .panic ∧ ¬ InChain (m :: ms) off len := by
  unfold mCopym
  rcases seek_spec (m :: ms) off with ⟨ms', off', hseek, hbytes, hsum, hoff, hhead⟩ | ⟨hseek, hlt⟩
  · -- a header is copied when the walk ends where it began
    have hfirst : ∀ x ∈ ms'.head?, (decide (off = 0) && m.pkthdr.isSome) = true →
        Placed x ∧ x.pkthdr.isSome = true := by
      intro x hx hc
      rw [Bool.and_eq_true, decide_eq_true_eq] at hc
      obtain ⟨rfl, hsome⟩ := hc
      have hstart : seek (m :: ms) 0 = some (m :: ms, 0) := by
        rfl
      rw [hstart] at hseek
      obtain ⟨rfl, -⟩ := Prod.mk.inj (some.inj hseek)
      rw [← some.inj hx]
      exact ⟨hplaced, hsome⟩
    have hin : InChain ms' off' len ↔ InChain (m :: ms) off len := by
      unfold InChain
      split_ifs <;> omega
    have hshort : ms'.length ≤ ms.length + 1 := seek_length hseek
    rw [hseek]
    rcases copyLoop_spec off avail hlen hoff hhead hfirst with
      ⟨top, htop, hinch, htopb, htoph⟩ | ⟨hno, hav⟩ | ⟨hpanic, hnot⟩
    · refine .inl ⟨top, htop, hin.mp hinch, ?_, ?_⟩
      · rw [htopb, hbytes]
      · rintro rfl n hn
        have hstart : seek (m :: ms) 0 = some (m :: ms, 0) := by
          rfl
        rw [hstart] at hseek
        obtain ⟨rfl, rfl⟩ := Prod.mk.inj (some.inj hseek)
        rw [htoph n hn m rfl]
        cases hp : m.pkthdr with
        | none => rfl
        | some l =>
          have hl := hhdr m rfl l hp
          have htoplen : chainLen top = (wanted len (chainBytes (m :: ms))).length := by
            rw [← length_chainBytes, htopb, drop_zero]
          refine congrArg some ?_
          rw [htoplen]
          unfold wanted
          dsimp only
          by_cases hcopy : len = mCopyall
          · rw [if_pos hcopy, if_pos hcopy, length_chainBytes, hl]
            exact BitVec.sub_zero _
          · unfold InChain at hinch
            rw [if_neg hcopy, Nat.zero_add] at hinch
            rw [if_neg hcopy, if_neg hcopy, length_take, length_chainBytes, min_eq_left hinch]
    · exact .inr (.inl ⟨hno, hav.trans_le hshort⟩)
    · exact .inr (.inr ⟨hpanic, fun hc => hnot (hin.mpr hc)⟩)
  · rw [hseek]
    refine .inr (.inr ⟨rfl, ?_⟩)
    unfold InChain
    split_ifs <;> omega

theorem copydataLoop_spec (len : ℕ) (hoff : off ≤ chainLen ms) (hhead : ∀ m ∈ ms.head?, off ≤ m.len) :
    copydataLoop off len ms = .ok (((chainBytes ms).drop off).take len) ∧ off + len ≤ chainLen ms ∨
      copydataLoop off len ms = .error .panic ∧ chainLen ms < off + len := by
  induction ms generalizing off len with
  | nil =>
    rw [chainLen_nil] at hoff ⊢
    cases len with
    | zero => exact .inl ⟨rfl, hoff⟩
    | succ len => exact .inr ⟨rfl, by omega⟩
  | cons m ms ih =>
    have hm := hhead m rfl
    cases len with
    | zero => exact .inl ⟨rfl, hoff⟩
    | succ len =>
      have hdroplen : (m.bytes.drop off).length = m.len - off := length_drop
      unfold copydataLoop
      dsimp only
      rw [chainLen_cons]
      rcases @ih 0 (len + 1 - min (m.len - off) (len + 1)) (Nat.zero_le _) (fun x _ => Nat.zero_le _) with
        ⟨hrec, hle⟩ | ⟨hrec, hlt⟩
      · rw [hrec]
        refine .inl ⟨?_, by omega⟩
        have hrest : len + 1 - min (m.len - off) (len + 1) = len + 1 - (m.bytes.drop off).length := by omega
        have hcount : (m.bytes.drop off).take (min (m.len - off) (len + 1)) =
            (m.bytes.drop off).take (len + 1) := by
          rw [min_comm]
          exact take_min_drop m.bytes off (len + 1)
        rw [hcount, chainBytes_cons, drop_append_of_le_length hm, take_append, ← hrest,
          drop_zero]
      · rw [hrec]
        exact .inr ⟨rfl, by omega⟩

theorem mCopydata_spec (ms : List Mbuf) (off len : ℕ) :
    mCopydata ms off len = .ok (((chainBytes ms).drop off).take len) ∧ off + len ≤ chainLen ms ∨
      mCopydata ms off len = .error .panic ∧ chainLen ms < off + len := by
  unfold mCopydata
  rcases seek_spec ms off with ⟨ms', off', hseek, hbytes, hsum, hoff, hhead⟩ | ⟨hseek, hlt⟩
  · rw [hseek]
    dsimp only
    rcases copydataLoop_spec len hoff hhead with ⟨hrec, hle⟩ | ⟨hrec, hlt⟩
    · rw [hrec, hbytes]
      exact .inl ⟨rfl, by omega⟩
    · rw [hrec]
      exact .inr ⟨rfl, by omega⟩
  · rw [hseek]
    exact .inr ⟨rfl, by omega⟩

/-! ## Concatenation -/

theorem catLoop_bytes (m : Mbuf) (ns : List Mbuf) : chainBytes (catLoop m ns) = m.bytes ++ chainBytes ns := by
  fun_induction catLoop m ns with
  | case1 m => simp
  | case2 m n ns h => simp
  | case3 m n ns h ih =>
    rw [ih, chainBytes_cons, ← append_assoc]
    rfl

theorem mCat_bytes (m : Mbuf) (ms ns : List Mbuf) :
    chainBytes (mCat m ms ns) = chainBytes (m :: ms) ++ chainBytes ns := by
  fun_induction mCat m ms ns with
  | case1 m ns => rw [catLoop_bytes, chainBytes_cons, chainBytes_nil, append_nil]
  | case2 m m' ms ns ih => rw [chainBytes_cons, ih, chainBytes_cons m, append_assoc]

/-! ## Trimming -/

@[simp] theorem cut_bytes (m : Mbuf) (k : ℕ) : (cut m k).bytes = m.bytes.take k := rfl

@[simp] theorem setHdrs_bytes (f : BitVec 32 → BitVec 32) (ms : List Mbuf) :
    chainBytes (setHdrs f ms) = chainBytes ms := by
  cases ms with
  | nil => rfl
  | cons m ms => simp [setHdrs, setHdr]

theorem chainLen_eq (ms : List Mbuf) : chainLen ms = (chainBytes ms).length := (length_chainBytes ms).symm

theorem hdrOk_setHdrs {f : BitVec 32 → BitVec 32}
    (h : ∀ m ∈ ms.head?, ∀ l ∈ m.pkthdr, f l = BitVec.ofNat 32 (chainLen ms)) : HdrOk (setHdrs f ms) := by
  intro x hx l hl
  have hlen : chainLen (setHdrs f ms) = chainLen ms := by
    rw [chainLen_eq, setHdrs_bytes, ← chainLen_eq]
  rw [hlen]
  cases ms with
  | nil => cases hx
  | cons m ms =>
    rw [← some.inj hx] at hl
    obtain ⟨l', hl', rfl⟩ := map_eq_some_iff.mp hl
    exact h m rfl l' hl'

theorem trimHead_spec (ms : List Mbuf) (len : ℕ) :
    chainBytes (trimHead ms len).1 = (chainBytes ms).drop len ∧ (trimHead ms len).2 = len - chainLen ms ∧
      (trimHead ms len).1.head?.map Sockbuf.Mbuf.pkthdr = ms.head?.map Sockbuf.Mbuf.pkthdr := by
  fun_induction trimHead ms len with
  | case1 len =>
    refine ⟨?_, ?_, rfl⟩
    · simp
    · simp
  | case2 m ms => exact ⟨rfl, (Nat.zero_sub _).symm, rfl⟩
  | case3 m ms len hle r ih =>
    refine ⟨?_, ?_, rfl⟩
    · rw [chainBytes_cons, cut_bytes, take_zero, nil_append, ih.1, chainBytes_cons, drop_append,
        drop_eq_nil_of_le hle, nil_append]
      rfl
    · rw [chainLen_cons, ← Nat.sub_sub]
      exact ih.2.1
  | case4 m ms len hlt =>
    refine ⟨?_, ?_, rfl⟩
    · rw [chainBytes_cons, chainBytes_cons, drop_append_of_le_length (not_le.mp hlt).le]
      rfl
    · rw [chainLen_cons]
      omega

theorem cutLoop_spec (ms : List Mbuf) (count : ℕ) :
    chainBytes (cutLoop ms count) = (chainBytes ms).take count ∧
      (cutLoop ms count).head?.map Sockbuf.Mbuf.pkthdr = ms.head?.map Sockbuf.Mbuf.pkthdr := by
  fun_induction cutLoop ms count with
  | case1 count =>
    refine ⟨?_, rfl⟩
    simp
  | case2 m ms count hle =>
    have hnil : chainBytes (ms.map fun m => cut m 0) = [] := by
      unfold chainBytes
      simp
    refine ⟨?_, rfl⟩
    rw [chainBytes_cons, hnil, append_nil, chainBytes_cons, take_append_of_le_length hle]
    rfl
  | case3 m ms count hlt ih =>
    refine ⟨?_, rfl⟩
    rw [chainBytes_cons, ih.1, chainBytes_cons, take_append,
      take_of_length_le (not_le.mp hlt).le]
    rfl

theorem hdr_of_map_eq {ms' : List Mbuf}
    (h : ms'.head?.map Sockbuf.Mbuf.pkthdr = ms.head?.map Sockbuf.Mbuf.pkthdr) {P : BitVec 32 → Prop}
    (hms : ∀ m ∈ ms.head?, ∀ l ∈ m.pkthdr, P l) : ∀ m ∈ ms'.head?, ∀ l ∈ m.pkthdr, P l := by
  intro x hx l hl
  rw [mem_def.mp hx, map_some] at h
  obtain ⟨y, hy, hpk⟩ := map_eq_some_iff.mp h.symm
  exact hms y hy l (hpk.symm ▸ hl)

theorem ofNat_sub_of_le {x y : ℕ} (h : y ≤ x) :
    BitVec.ofNat 32 x - BitVec.ofNat 32 y = BitVec.ofNat 32 (x - y) := by
  rw [BitVec.sub_eq_iff_eq_add, ← BitVec.ofNat_add, Nat.sub_add_cancel h]

theorem mAdj_front (hhdr : HdrOk ms) (k : ℕ) :
    chainBytes (mAdj ms k) = (chainBytes ms).drop k ∧ HdrOk (mAdj ms k) := by
  obtain ⟨hbytes, hrest, hsame⟩ := trimHead_spec ms k
  unfold mAdj
  dsimp only
  rw [if_pos (Int.natCast_nonneg k), Int.toNat_natCast, hrest]
  refine ⟨by rw [setHdrs_bytes, hbytes], hdrOk_setHdrs (hdr_of_map_eq hsame fun m hm l hl => ?_)⟩
  have htrim : k - (k - chainLen ms) ≤ chainLen ms := by omega
  rw [hhdr m hm l hl, ofNat_sub_of_le htrim, chainLen_eq (trimHead ms k).1, hbytes, length_drop,
    ← chainLen_eq]
  refine congrArg (ofNat 32) ?_
  omega

theorem mAdj_back (hhdr : HdrOk ms) {k : ℕ} (hk : 0 < k) :
    chainBytes (mAdj ms (-k)) = (chainBytes ms).take (chainLen ms - k) ∧ HdrOk (mAdj ms (-k)) := by
  unfold mAdj
  rw [if_neg (by omega), neg_neg, Int.toNat_natCast]
  rcases eq_nil_or_concat ms with rfl | ⟨init, last, rfl⟩
  · refine ⟨?_, hhdr⟩
    simp
  rw [concat_eq_append] at hhdr ⊢
  rw [getLast?_concat]
  dsimp only
  by_cases hle : k ≤ last.len
  · rw [if_pos hle, dropLast_concat]
    have hbytes : chainBytes (init ++ [cut last (last.len - k)]) =
        (chainBytes (init ++ [last])).take (chainLen (init ++ [last]) - k) := by
      have hlen : chainLen (init ++ [last]) - k - (chainBytes init).length = last.len - k := by
        rw [chainLen_append, chainLen_cons, chainLen_nil, ← chainLen_eq]
        omega
      have hinit : (chainBytes init).length ≤ chainLen (init ++ [last]) - k := by
        rw [chainLen_append, chainLen_cons, chainLen_nil, ← chainLen_eq]
        omega
      rw [chainBytes_append, chainBytes_append, take_append, take_of_length_le hinit, hlen]
      simp
    refine ⟨by rw [setHdrs_bytes, hbytes], hdrOk_setHdrs fun m hm l hl => ?_⟩
    -- the header is the same, also when there is but one mbuf
    have hsame : (init ++ [cut last (last.len - k)]).head?.map Sockbuf.Mbuf.pkthdr =
        (init ++ [last]).head?.map Sockbuf.Mbuf.pkthdr := by
      cases init with
      | nil => rfl
      | cons x init => rfl
    have hl' := hdr_of_map_eq hsame hhdr m hm l hl
    have hkle : k ≤ chainLen (init ++ [last]) := by
      rw [chainLen_append, chainLen_cons]
      omega
    rw [hl', ofNat_sub_of_le hkle, chainLen_eq (init ++ [cut last (last.len - k)]), hbytes, length_take,
      ← chainLen_eq, min_eq_left (Nat.sub_le _ _)]
  · rw [if_neg hle]
    obtain ⟨hbytes, hsame⟩ := cutLoop_spec (init ++ [last]) (chainLen (init ++ [last]) - k)
    refine ⟨by rw [setHdrs_bytes, hbytes], hdrOk_setHdrs fun m hm l hl => ?_⟩
    rw [chainLen_eq (cutLoop _ _), hbytes, length_take, ← chainLen_eq, min_eq_left (Nat.sub_le _ _)]

/-! ## Pulling up -/

theorem put_spec (bs : List UInt8) (hext : m.ext = none) (hroom : m.off + m.len + bs.length ≤ mlen) :
    ∃ m', put m bs = .ok m' ∧ m'.bytes = m.bytes ++ bs ∧ m'.off = m.off ∧ m'.ext = none ∧
      m'.pkthdr = m.pkthdr := by
  unfold put
  rw [dif_pos (by
    rw [hext, getD_none, length_append, ← Nat.add_assoc]
    exact hroom)]
  exact ⟨_, rfl, rfl, rfl, hext, rfl⟩

/-- **The loop of `m_pullup`**: while there is room for what is still wanted, each turn uses up an mbuf or
is the last. -/
theorem pullLoop_spec (maxProtohdr : ℕ) (m : Mbuf) {k : ℕ} (len space : ℕ) (hk : ms.length < k) (hne : ms ≠ [])
    (hext : m.ext = none) (hroom : m.off + m.len + space = mlen) (hlen : len ≤ space) :
    (∃ f rest, pullLoop maxProtohdr k m ms len space = .ok (f :: rest) ∧
      chainBytes (f :: rest) = m.bytes ++ chainBytes ms ∧ m.len + len ≤ f.len ∧ f.pkthdr = m.pkthdr) ∨
      pullLoop maxProtohdr k m ms len space = .error .short ∧ chainLen ms < len := by
  induction ms generalizing k m len space with
  | nil => exact absurd rfl hne
  | cons n ms ih =>
    obtain ⟨k, rfl⟩ : ∃ k', k = k' + 1 := ⟨k - 1, by omega⟩
    obtain ⟨count, hcount⟩ : ∃ count, min (min (max len maxProtohdr) space) n.len = count := ⟨_, rfl⟩
    have hnlen : n.len = n.bytes.length := rfl
    have htake : (n.bytes.take count).length = count := by
      rw [length_take]
      omega
    obtain ⟨m', hput, hbytes', hoff', hext', hhdr'⟩ := put_spec (n.bytes.take count) hext (by
      rw [htake]
      omega)
    have hlen' : m'.len = m.len + count := by
      unfold Sockbuf.Mbuf.len
      rw [hbytes', length_append, htake]
    unfold pullLoop
    dsimp only
    rw [hcount, hput]
    dsimp only
    unfold advance
    by_cases hlt : count < n.len
    · -- `n` keeps some of its bytes, so all that was wanted is there
      have hdone : len - count = 0 := by omega
      rw [dif_pos hlt, if_pos hdone]
      refine .inl ⟨m', _, rfl, ?_, by omega, hhdr'⟩
      have htrim : (n.trim count hlt.le).bytes = n.bytes.drop count := rfl
      rw [chainBytes_cons, chainBytes_cons, chainBytes_cons, htrim, hbytes', append_assoc,
        ← append_assoc (n.bytes.take count), take_append_drop]
    · have hall : n.bytes.take count = n.bytes := take_of_length_le (by omega)
      rw [dif_neg hlt]
      by_cases hdone : len - count = 0
      · rw [if_pos hdone]
        refine .inl ⟨m', ms, rfl, ?_, by omega, hhdr'⟩
        rw [chainBytes_cons, chainBytes_cons, hbytes', hall, append_assoc]
      rw [if_neg hdone]
      by_cases hnil : ms = []
      · rw [if_pos hnil]
        refine .inr ⟨rfl, ?_⟩
        rw [hnil, chainLen_cons, chainLen_nil]
        omega
      rw [if_neg hnil]
      have hk' : ms.length < k := Nat.succ_lt_succ_iff.mp hk
      rcases ih m' (len - count) (space - count) hk' hnil hext' (by omega) (by omega) with
        ⟨f, rest, hrec, hbytes, hf, hhdr⟩ | ⟨hrec, hshort⟩
      · rw [hrec]
        refine .inl ⟨f, rest, rfl, ?_, by omega, hhdr.trans hhdr'⟩
        rw [hbytes, hbytes', hall, chainBytes_cons, append_assoc]
      rw [hrec]
      refine .inr ⟨rfl, ?_⟩
      rw [chainLen_cons]
      omega

theorem mPullup_spec (maxProtohdr : ℕ) (m : Mbuf) (ms : List Mbuf) (len : ℕ) (avail : List (Fin nmbuf)) :
    (∃ f rest, mPullup maxProtohdr m ms len avail = .ok (f :: rest) ∧
      chainBytes (f :: rest) = chainBytes (m :: ms) ∧ len ≤ f.len ∧ f.pkthdr = m.pkthdr) ∨
      (mPullup maxProtohdr m ms len avail = .error .short ∧ chainLen (m :: ms) < len) ∨
      (mPullup maxProtohdr m ms len avail = .error .tooLong ∧ mhlen < len) ∨
      mPullup maxProtohdr m ms len avail = .error .nospace ∧ avail = [] := by
  unfold mPullup
  by_cases hc : m.ext = none ∧ m.off + len < mlen ∧ ms ≠ []
  · rw [if_pos hc]
    obtain ⟨hext, hroom, hne⟩ := hc
    by_cases hle : len ≤ m.len
    · rw [if_pos hle]
      exact .inl ⟨m, ms, rfl, rfl, hle, rfl⟩
    have hfits := m.room
    rw [hext, getD_none] at hfits
    rw [if_neg hle]
    rcases pullLoop_spec maxProtohdr m (len - m.len) (mlen - (m.off + m.len)) (Nat.lt_succ_self _) hne hext
        (by omega) (by omega) with
      ⟨f, rest, hrec, hbytes, hf, hhdr⟩ | ⟨hrec, hshort⟩
    · rw [hrec]
      exact .inl ⟨f, rest, rfl, hbytes, by omega, hhdr⟩
    rw [hrec]
    refine .inr (.inl ⟨rfl, ?_⟩)
    rw [chainLen_cons]
    omega
  · rw [if_neg hc]
    by_cases hlong : mhlen < len
    · rw [if_pos hlong]
      exact .inr (.inr (.inl ⟨rfl, hlong⟩))
    rw [if_neg hlong]
    cases avail with
    | nil => exact .inr (.inr (.inr ⟨rfl, rfl⟩))
    | cons a avail =>
      dsimp only
      have hmax : mlen = mhlen + pkthdrSize := rfl
      cases hp : m.pkthdr with
      | none =>
        rw [isSome_none, if_neg Bool.false_ne_true]
        have hk : (m :: ms).length < ms.length + 2 := Nat.lt_succ_self _
        rcases pullLoop_spec maxProtohdr (mget a m.type) len mlen hk (cons_ne_nil m ms) rfl
            (Nat.zero_add _) (by omega) with ⟨f, rest, hrec, hbytes, hf, hhdr⟩ | ⟨hrec, hshort⟩
        · rw [hrec]
          exact .inl ⟨f, rest, rfl, hbytes, (Nat.le_add_left _ _).trans hf, hhdr⟩
        · rw [hrec]
          exact .inr (.inl ⟨rfl, hshort⟩)
      | some l =>
        rw [isSome_some, if_pos rfl]
        have hk : ({ m with pkthdr := none } :: ms).length < ms.length + 2 := Nat.lt_succ_self _
        rcases pullLoop_spec maxProtohdr (copyPkthdr (mget a m.type) m rfl rfl) len (mlen - pkthdrSize) hk
            (cons_ne_nil _ _) rfl rfl (by omega) with
          ⟨f, rest, hrec, hbytes, hf, hhdr⟩ | ⟨hrec, hshort⟩
        · rw [hrec]
          exact .inl ⟨f, rest, rfl, hbytes, (Nat.le_add_left _ _).trans hf, hhdr.trans hp⟩
        · rw [hrec]
          exact .inr (.inl ⟨rfl, hshort⟩)

/-! ## All routines -/

/-- A packet of one byte and room for more. Source: mbuf.h, MGETHDR -/
def oneByte : Mbuf where
  addr := ⟨0, nmbuf_pos⟩
  type := .data
  off := pkthdrSize
  bytes := [7]
  ext := none
  pkthdr := some 1
  eor := false
  room := by decide
  ext_le := mlen_le_mclbytes

end Bsd386.Kern.Mbuf
