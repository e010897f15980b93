import Bsd386.Kern.Sockbuf.Basic
import Mathlib.Algebra.Group.Action.Defs
import Mathlib.Algebra.Order.BigOperators.Group.List
import Mathlib.Algebra.Order.Group.Nat
import Mathlib.Data.Fintype.Card

/-!
# What each routine does to the counts and the bytes

`Tracks c k s` says that the counts stand for `k` bytes in `s` bytes of storage. Each routine is
described once: what it does to the counts, to the bytes of the records, and to the addresses of
the mbufs in the buffer, which are those it was given and those that were there, less the ones it
frees.
-/

namespace Bsd386.Kern.Sockbuf

open List

/-! ## Totals of a chain -/

section chains

variable (m : Mbuf) (l l' : List Mbuf)

@[simp] theorem chainBytes_nil : chainBytes [] = [] := rfl

@[simp] theorem chainBytes_cons : chainBytes (m :: l) = m.bytes ++ chainBytes l :=
  flatMap_cons

@[simp] theorem chainBytes_append : chainBytes (l ++ l') = chainBytes l ++ chainBytes l' :=
  flatMap_append

@[simp] theorem chainLen_nil : chainLen [] = 0 := rfl

@[simp] theorem chainLen_cons : chainLen (m :: l) = m.len + chainLen l := by
  simp only [chainLen, map_cons, sum_cons]

@[simp] theorem chainLen_append : chainLen (l ++ l') = chainLen l + chainLen l' := by
  simp only [chainLen, map_append, sum_append]

@[simp] theorem chainStorage_nil : chainStorage [] = 0 := rfl

@[simp] theorem chainStorage_cons : chainStorage (m :: l) = m.storage + chainStorage l := by
  simp only [chainStorage, map_cons, sum_cons]

@[simp] theorem chainStorage_append :
    chainStorage (l ++ l') = chainStorage l + chainStorage l' := by
  simp only [chainStorage, map_append, sum_append]

theorem length_chainBytes : (chainBytes l).length = chainLen l := by
  induction l with
  | nil => rfl
  | cons m l ih => rw [chainBytes_cons, length_append, chainLen_cons, ih, Mbuf.len]

theorem Mbuf.len_le : m.len ≤ mclbytes := by
  have h := m.room
  have h' := m.ext_le
  unfold Mbuf.len
  omega

theorem Mbuf.storage_le : m.storage ≤ msize + mclbytes := by
  have h := m.ext_le
  unfold Mbuf.storage
  cases hext : m.ext with
  | none => simp only [Option.getD_none, Nat.add_zero, Nat.le_add_right]
  | some s =>
    rw [hext, Option.getD_some] at h
    rw [Option.getD_some]
    omega

theorem Mbuf.storage_pos : 0 < m.storage := by
  unfold Mbuf.storage msize
  omega

end chains

theorem chainLen_lt {l : List Mbuf} (h : (l.map Mbuf.addr).Nodup) : chainLen l < 2 ^ 31 := by
  have hsum : chainLen l ≤ (l.map Mbuf.len).length • mclbytes := by
    refine sum_le_card_nsmul _ _ fun n hn => ?_
    obtain ⟨m, -, rfl⟩ := mem_map.mp hn
    exact m.len_le
  have hcard := h.length_le_card
  rw [length_map, smul_eq_mul] at hsum
  rw [length_map] at hcard
  rw [Fintype.card_fin] at hcard
  have hnum : nmbuf * mclbytes < 2 ^ 31 := by decide
  exact lt_of_le_of_lt (hsum.trans (Nat.mul_le_mul_right _ hcard)) hnum

theorem chainStorage_lt {l : List Mbuf} (h : (l.map Mbuf.addr).Nodup) :
    chainStorage l < 2 ^ 32 := by
  have hsum : chainStorage l ≤ (l.map Mbuf.storage).length • (msize + mclbytes) := by
    refine sum_le_card_nsmul _ _ fun n hn => ?_
    obtain ⟨m, -, rfl⟩ := mem_map.mp hn
    exact m.storage_le
  have hcard := h.length_le_card
  rw [length_map, smul_eq_mul] at hsum
  rw [length_map] at hcard
  rw [Fintype.card_fin] at hcard
  have hnum : nmbuf * (msize + mclbytes) < 2 ^ 32 := by decide
  exact lt_of_le_of_lt (hsum.trans (Nat.mul_le_mul_right _ hcard)) hnum

/-! ## The counts -/

/-- The counts stand for `k` bytes in `s` bytes of storage. -/
def Tracks (c : Counts) (k s : ℕ) : Prop :=
  c.cc = BitVec.ofNat 32 k ∧ c.mbcnt = BitVec.ofNat 32 s

section tracks

variable {c : Counts} {k s : ℕ}

theorem Tracks.alloc (h : Tracks c k s) (m : Mbuf) :
    Tracks (c.alloc m) (k + m.len) (s + m.storage) := by
  refine ⟨?_, ?_⟩
  · rw [Counts.alloc, h.1, BitVec.ofNat_add]
  · rw [Counts.alloc, h.2, BitVec.ofNat_add]

theorem Tracks.free {m : Mbuf} (h : Tracks c (k + m.len) (s + m.storage)) :
    Tracks (c.free m) k s := by
  refine ⟨?_, ?_⟩
  · rw [Counts.free, h.1, BitVec.ofNat_add, BitVec.add_sub_cancel]
  · rw [Counts.free, h.2, BitVec.ofNat_add, BitVec.add_sub_cancel]

theorem Tracks.allocs (h : Tracks c k s) (l : List Mbuf) :
    Tracks (l.foldl Counts.alloc c) (k + chainLen l) (s + chainStorage l) := by
  induction l generalizing c k s with
  | nil => exact h
  | cons m l ih =>
    have h' := ih (h.alloc m)
    rw [Nat.add_assoc, Nat.add_assoc] at h'
    rwa [chainLen_cons, chainStorage_cons]

theorem Tracks.frees {l : List Mbuf} (h : Tracks c (k + chainLen l) (s + chainStorage l)) :
    Tracks (l.foldl Counts.free c) k s := by
  induction l generalizing c with
  | nil => exact h
  | cons m l ih =>
    refine ih (Tracks.free ?_)
    rw [chainLen_cons, chainStorage_cons] at h
    rwa [Nat.add_assoc, Nat.add_assoc, Nat.add_comm (chainLen l), Nat.add_comm (chainStorage l)]

end tracks

/-! ## Compressing a chain -/

/-- What `sbcompress` of the chain `m` behind `n` does: the counts grow by the chain, the bytes of
both parts are there in order, and the mbufs left are among the given ones.
Source: sbcompress -/
structure Compressed (c : Counts) (n m : List Mbuf) (r : Counts × List Mbuf) : Prop where
  tracks : ∀ k s, Tracks c k (s + chainStorage n) →
    Tracks r.1 (k + chainLen m) (s + chainStorage r.2)
  bytes : chainBytes r.2 = chainBytes n ++ chainBytes m
  sub : (r.2.map Mbuf.addr).Sublist ((n ++ m).map Mbuf.addr)
  ne_nil : n ≠ [] → r.2 ≠ []

theorem Compressed.congr {c : Counts} {n n' m m' : List Mbuf} {r : Counts × List Mbuf}
    (h : Compressed c n m r) (hn : n.map (fun x => { x with eor := false })
      = n'.map (fun x => { x with eor := false }))
    (hm : m.map (fun x => { x with eor := false })
      = m'.map (fun x => { x with eor := false })) : Compressed c n' m' r := by
  have hkey : ∀ {β : Type} (f : Mbuf → β), (∀ x : Mbuf, f { x with eor := false } = f x) →
      ∀ l l' : List Mbuf, l.map (fun x => { x with eor := false })
        = l'.map (fun x => { x with eor := false }) → l.map f = l'.map f := by
    intro β f hf l l' hl
    have h' := congrArg (map f) hl
    simpa only [map_map, Function.comp_def, hf] using h'
  have hstor := hkey Mbuf.storage (fun _ => rfl) n n' hn
  have hlen := hkey Mbuf.len (fun _ => rfl) m m' hm
  have hbn := hkey Mbuf.bytes (fun _ => rfl) n n' hn
  have hbm := hkey Mbuf.bytes (fun _ => rfl) m m' hm
  have han := hkey Mbuf.addr (fun _ => rfl) n n' hn
  have ham := hkey Mbuf.addr (fun _ => rfl) m m' hm
  refine ⟨fun k s ht => ?_, ?_, ?_, fun hne => h.ne_nil ?_⟩
  · have ht' := h.tracks k s (by unfold chainStorage; rw [hstor]; exact ht)
    unfold chainLen at ht' ⊢
    rwa [← hlen]
  · rw [h.bytes, chainBytes, chainBytes, chainBytes, chainBytes, flatMap_def,
      flatMap_def, flatMap_def, flatMap_def, hbn, hbm]
  · have hsub := h.sub
    rw [map_append, han, ham] at hsub
    rwa [map_append]
  · rintro rfl
    exact hne (map_eq_nil_iff.mp hn.symm)

theorem compressed_nil (c : Counts) (n : Option Mbuf) (eor : Bool) :
    Compressed c n.toList [] (sbcompress c eor [] n) := by
  cases n with
  | none => exact ⟨fun _ _ h => h, rfl, List.Sublist.refl _, fun h => absurd rfl h⟩
  | some n =>
    refine ⟨fun _ _ h => h, ?_, List.Sublist.refl _, fun _ => cons_ne_nil _ _⟩
    simp only [sbcompress, Option.toList_some, chainBytes_cons, chainBytes_nil,
      append_nil]

theorem Compressed.skip {c : Counts} {n ms : List Mbuf} {m : Mbuf} {r : Counts × List Mbuf}
    (h : Compressed c n ms r) (hm : m.len = 0) : Compressed c n (m :: ms) r := by
  have hbytes : m.bytes = [] := length_eq_zero_iff.mp hm
  refine ⟨fun k s ht => ?_, ?_, ?_, h.ne_nil⟩
  · rw [chainLen_cons, hm, Nat.zero_add]
    exact h.tracks k s ht
  · rw [h.bytes, chainBytes_cons, hbytes, nil_append]
  · refine h.sub.trans ?_
    rw [map_append, map_append, map_cons]
    exact (sublist_cons_self _ _).append_left _

theorem Compressed.link {c : Counts} {n ms : List Mbuf} {m : Mbuf} {r : Counts × List Mbuf}
    (h : Compressed (c.alloc m) [m] ms r) : Compressed c n (m :: ms) (r.1, n ++ r.2) := by
  refine ⟨fun k s ht => ?_, ?_, ?_, fun hn => append_ne_nil_of_left_ne_nil hn _⟩
  · have ht' := h.tracks (k + m.len) (s + chainStorage n) (by
      simpa only [chainStorage_cons, chainStorage_nil, Nat.add_zero] using ht.alloc m)
    rw [chainLen_cons, chainStorage_append, ← Nat.add_assoc, ← Nat.add_assoc]
    exact ht'
  · rw [chainBytes_append, h.bytes, chainBytes_cons, chainBytes_cons, chainBytes_nil,
      append_nil]
  · rw [map_append, map_append]
    exact h.sub.append_left _

theorem Compressed.copy {c : Counts} {n m : Mbuf} {ms : List Mbuf} {r : Counts × List Mbuf}
    {hext : n.ext = none} {hroom : n.off + n.len + m.len < mlen}
    (h : Compressed ⟨c.cc + BitVec.ofNat 32 m.len, c.mbcnt⟩ [n.extend m.bytes hext hroom] ms r) :
    Compressed c [n] (m :: ms) r := by
  refine ⟨fun k s ht => ?_, ?_, ?_, fun _ => h.ne_nil (cons_ne_nil _ _)⟩
  · have ht' := h.tracks (k + m.len) s ⟨by rw [ht.1, BitVec.ofNat_add], ht.2⟩
    rwa [chainLen_cons, ← Nat.add_assoc]
  · rw [h.bytes]
    simp only [chainBytes_cons, chainBytes_nil, append_nil, Mbuf.extend, append_assoc]
  · refine h.sub.trans ?_
    exact (sublist_cons_self _ _).cons_cons _

theorem sbcompress_spec (c : Counts) (eor : Bool) (m : List Mbuf) (n : Option Mbuf) :
    Compressed c n.toList m (sbcompress c eor m n) := by
  induction m generalizing c eor n with
  | nil => exact compressed_nil c n eor
  | cons m ms ih =>
    rw [sbcompress.eq_def]
    simp only
    split
    · next hskip => exact (ih c _ n).skip hskip.1
    have hlink : ∀ n : List Mbuf, Compressed c n (m :: ms)
        ((sbcompress (c.alloc m) (eor || m.eor) ms (some { m with eor := false })).1,
          n ++ (sbcompress (c.alloc m) (eor || m.eor) ms
            (some { m with eor := false })).2) := by
      intro n
      have hm : Compressed (c.alloc m) [m] ms _ :=
        (ih (c.alloc m) (eor || m.eor) (some { m with eor := false })).congr rfl rfl
      exact hm.link
    cases n with
    | none => exact hlink []
    | some n =>
      simp only
      split
      · next hcopy => exact (ih _ _ (some (n.extend m.bytes hcopy.1.1 hcopy.2.1))).copy
      · exact hlink [n]

theorem sbcompress_none_eq_nil_iff (c : Counts) (eor : Bool) (m : List Mbuf) (hm : m ≠ []) :
    (sbcompress c eor m none).2 = [] ↔
      chainBytes m = [] ∧ eor = false ∧ m.any (·.eor) = false := by
  induction m generalizing c eor with
  | nil => exact absurd rfl hm
  | cons m ms ih =>
    have hlinked : ∀ c eor, (sbcompress c eor ms (some { m with eor := false })).2 ≠ [] :=
      fun c eor => (sbcompress_spec c eor ms _).ne_nil (cons_ne_nil _ _)
    rw [sbcompress.eq_def]
    simp only [any_cons, Bool.or_eq_false_iff, chainBytes_cons, append_eq_nil_iff]
    split
    · next hskip =>
        have hbytes : m.bytes = [] := length_eq_zero_iff.mp hskip.1
        rcases ms with _ | ⟨m', ms⟩
        · have heor : eor = false ∧ m.eor = false := by
            rcases hskip.2 with h | h
            · exact h
            · simp at h
          simp only [sbcompress, hbytes, chainBytes_nil, heor.1, heor.2, any_nil, and_self]
        · rw [ih c _ (cons_ne_nil _ _), Bool.or_eq_false_iff]
          tauto
    · next hskip =>
        simp only [hlinked, false_iff]
        rintro ⟨⟨hbytes, -⟩, heor, hmeor, -⟩
        exact hskip ⟨by rw [Mbuf.len, hbytes]; rfl, Or.inl ⟨heor, hmeor⟩⟩

theorem startRecord_rest (c : Counts) (m0 : Mbuf) (ms : List Mbuf) :
    Compressed (c.alloc m0) [m0] ms (startRecord c m0 ms) := by
  cases ms with
  | nil => exact sbcompress_spec _ _ [] (some m0)
  | cons m ms =>
    by_cases heor : m0.eor = true
    · have hm : Compressed (c.alloc m0) [{ m0 with eor := false }] ({ m with eor := true } :: ms)
          _ := sbcompress_spec _ false _ (some { m0 with eor := false })
      rw [startRecord, if_pos heor]
      exact hm.congr rfl rfl
    · rw [startRecord, if_neg heor]
      exact sbcompress_spec _ _ (m :: ms) (some m0)

theorem startRecord_spec (c : Counts) (m0 : Mbuf) (ms : List Mbuf) :
    Compressed c [] (m0 :: ms) (startRecord c m0 ms) :=
  (startRecord_rest c m0 ms).link

theorem startRecord_ne_nil (c : Counts) (m0 : Mbuf) (ms : List Mbuf) :
    (startRecord c m0 ms).2 ≠ [] :=
  (startRecord_rest c m0 ms).ne_nil (cons_ne_nil _ _)

/-! ## Well formed buffers -/

/-- The counts are those of the mbufs in the buffer, a record has at least one mbuf, and no mbuf is
in two places. -/
structure Wf (sb : Sockbuf) : Prop where
  tracks : Tracks sb.cnt (chainLen sb.mbufs) (chainStorage sb.mbufs)
  ne_nil : ∀ r ∈ sb.mb, r ≠ []
  nodup : (sb.mbufs.map Mbuf.addr).Nodup

section wf

variable {sb : Sockbuf} (h : Wf sb)
include h

theorem Wf.toNat_cc : sb.cnt.cc.toNat = chainLen sb.mbufs := by
  rw [h.tracks.1, BitVec.toNat_ofNat]
  exact Nat.mod_eq_of_lt ((chainLen_lt h.nodup).trans (by decide))

theorem Wf.toInt_cc : sb.cnt.cc.toInt = (chainLen sb.mbufs : ℤ) := by
  rw [BitVec.toInt_eq_toNat_of_lt, h.toNat_cc]
  rw [h.toNat_cc]
  have hlt := chainLen_lt h.nodup
  omega

theorem Wf.toNat_mbcnt : sb.cnt.mbcnt.toNat = chainStorage sb.mbufs := by
  rw [h.tracks.2, BitVec.toNat_ofNat]
  exact Nat.mod_eq_of_lt (chainStorage_lt h.nodup)

theorem Wf.mb_eq_nil (hz : sb.cnt.mbcnt = 0) : sb.mb = [] := by
  have hstor := h.toNat_mbcnt
  rw [hz] at hstor
  rcases hmb : sb.mb with _ | ⟨r, rs⟩
  · rfl
  rcases hr : r with _ | ⟨m, ms⟩
  · exact absurd hr (h.ne_nil r (hmb ▸ mem_cons_self))
  rw [Sockbuf.mbufs, hmb, hr, flatten_cons, cons_append, chainStorage_cons] at hstor
  have hpos := m.storage_pos
  have hzero : (0 : BitVec 32).toNat = 0 := rfl
  omega

end wf

/-! ## What is left of a chain -/

section left

variable {c : Counts}

theorem dropChain_sub (len : ℕ) (m : List Mbuf) :
    ((dropChain c len m).2.2.map Mbuf.addr).Sublist (m.map Mbuf.addr) := by
  fun_induction dropChain c len m with
  | case1 m => exact List.Sublist.refl _
  | case2 len => exact List.Sublist.refl _
  | case3 c len m ms hcut => exact List.Sublist.refl _
  | case4 c len m ms hcut ih => exact ih.trans (sublist_cons_self _ _)

theorem dropEmpty_cons (m : Mbuf) (ms : List Mbuf) :
    dropEmpty c (m :: ms) = if m.len = 0 then dropEmpty (c.free m) ms else (c, m :: ms) := rfl

theorem dropEmpty_sub (m : List Mbuf) :
    ((dropEmpty c m).2.map Mbuf.addr).Sublist (m.map Mbuf.addr) := by
  induction m generalizing c with
  | nil => exact List.Sublist.refl _
  | cons m ms ih =>
    rw [dropEmpty_cons]
    by_cases hm : m.len = 0
    · rw [if_pos hm]
      exact ih.trans (sublist_cons_self _ _)
    · rw [if_neg hm]

end left

end Bsd386.Kern.Sockbuf
