import Bsd386.Net.Bpf.Device
import Mathlib.Data.List.GetD

/-!
# Records in a buffer

A reader goes through a buffer record by record: from a header to the next one at the next word boundary
after the data (`records`). What `catchpacket` stores behind a buffer that parses is one more record
(`records_store`).
-/

namespace Bsd386.Net.Bpf.Device

open Lib List

variable {m t : Bytes.Mem} {caplen datalen hdrlen i k len : ℕ} {data : List Bytes.Byte}

/-! ## Parsing -/

/-- A number in two bytes, in host order. -/
def getLe16 (m : Bytes.Mem) (k : ℕ) : ℕ := (m k).toNat + 256 * (m (k + 1)).toNat

def getLe32 (m : Bytes.Mem) (k : ℕ) : ℕ := getLe16 m k + 65536 * getLe16 m (k + 2)

/-- A record: what its header says, and the data. Source: bpf.h struct bpf_hdr -/
structure Record where
  hdrlen : ℕ
  caplen : ℕ
  datalen : ℕ
  data : List Bytes.Byte
deriving DecidableEq

/-- The record at `k`. Source: bpf.h struct bpf_hdr -/
def recordAt (m : Bytes.Mem) (k : ℕ) : Record :=
  let hdrlen := getLe16 m (k + 16)
  let caplen := getLe32 m (k + 8)
  ⟨hdrlen, caplen, getLe32 m (k + 12), (List.range caplen).map fun i => m (k + hdrlen + i)⟩

/-- The records from `k` on in the first `len` bytes of a buffer, `n` at most: each has room for its header
and its data, and the next is at the next word boundary.
Source: bpf.h BPF_WORDALIGN -/
def recordsFrom (m : Bytes.Mem) (len : ℕ) : ℕ → ℕ → Option (List Record)
  | 0, k => if len ≤ k then some [] else none
  | n + 1, k =>
    if len ≤ k then some []
    else
      let r := recordAt m k
      if sizeofBpfHdr ≤ r.hdrlen ∧ k + r.hdrlen + r.caplen ≤ len then
        (recordsFrom m len n (k + wordAlign (r.hdrlen + r.caplen))).map (r :: ·)
      else none

/-- The records in the first `len` bytes of a buffer. -/
def records (m : Bytes.Mem) (len : ℕ) : Option (List Record) := recordsFrom m len len 0

theorem records_zero (m : Bytes.Mem) : records m 0 = some [] := rfl

theorem recordAt_congr {m' : Bytes.Mem} (h : ∀ i < len, m' i = m i) (hlen : k + 18 ≤ len)
    (hfit : k + (recordAt m k).hdrlen + (recordAt m k).caplen ≤ len) : recordAt m' k = recordAt m k := by
  have h16 : ∀ j, j + 2 ≤ len → getLe16 m' j = getLe16 m j := by
    intro j hj
    rw [getLe16, getLe16, h j (by omega), h (j + 1) (by omega)]
  have h32 : ∀ j, j + 4 ≤ len → getLe32 m' j = getLe32 m j := by
    intro j hj
    rw [getLe32, getLe32, h16 j (by omega), h16 (j + 2) (by omega)]
  change k + getLe16 m (k + 16) + getLe32 m (k + 8) ≤ len at hfit
  unfold recordAt
  dsimp only
  rw [h16 (k + 16) (by omega), h32 (k + 8) (by omega), h32 (k + 12) (by omega)]
  congr 1
  refine map_congr_left fun i hi => h _ ?_
  have := mem_range.mp hi
  omega

theorem le_wordAlign (x : ℕ) : x ≤ wordAlign x ∧ wordAlign x < x + 4 := by
  unfold wordAlign
  omega

theorem recordsFrom_last {j : ℕ} {r : Record} (hr : recordAt m k = r)
    (hhdr : sizeofBpfHdr ≤ r.hdrlen) (hj : 0 < j) :
    recordsFrom m (k + r.hdrlen + r.caplen) j k = some [r] := by
  obtain ⟨i, rfl⟩ : ∃ i, j = i + 1 := ⟨j - 1, by omega⟩
  have hpos : 0 < r.hdrlen := Nat.lt_of_lt_of_le (by decide) hhdr
  have hend := (le_wordAlign (r.hdrlen + r.caplen)).1
  rw [recordsFrom, if_neg (by omega)]
  rw [hr, if_pos ⟨hhdr, Nat.le_refl _⟩]
  cases i with
  | zero =>
    rw [recordsFrom, if_pos (by omega)]
    rfl
  | succ i =>
    rw [recordsFrom, if_pos (by omega)]
    rfl

/-- **One more record.** Behind records that fill `len` bytes, a record at the next word boundary. -/
theorem recordsFrom_append {m' : Bytes.Mem} {n : ℕ} {rs : List Record}
    (h : recordsFrom m len n k = some rs) (hk : k % 4 = 0) (hle : k ≤ wordAlign len)
    (hsame : ∀ i < len, m' i = m i) {r : Record} (hr : recordAt m' (wordAlign len) = r)
    (hhdr : sizeofBpfHdr ≤ r.hdrlen) {j : ℕ} (hj : n < j) :
    recordsFrom m' (wordAlign len + r.hdrlen + r.caplen) j k = some (rs ++ [r]) := by
  obtain ⟨hlow, hhigh⟩ := le_wordAlign len
  have hend : len ≤ k → k = wordAlign len := by
    intro hlen
    unfold wordAlign at hle ⊢
    omega
  induction n generalizing k rs j with
  | zero =>
    rw [recordsFrom] at h
    split_ifs at h with hlen
    obtain rfl := Option.some.inj h
    rw [hend hlen]
    exact recordsFrom_last hr hhdr hj
  | succ n ih =>
    rw [recordsFrom] at h
    by_cases hlen : len ≤ k
    · rw [if_pos hlen] at h
      obtain rfl := Option.some.inj h
      rw [hend hlen]
      exact recordsFrom_last hr hhdr (by omega)
    rw [if_neg hlen] at h
    dsimp only at h
    split_ifs at h with hfit
    obtain ⟨rs', hrs', rfl⟩ := Option.map_eq_some_iff.mp h
    obtain ⟨j, rfl⟩ : ∃ j', j = j' + 1 := ⟨j - 1, by omega⟩
    obtain ⟨hsize, hfit⟩ := hfit
    have hsize' : 18 ≤ (recordAt m k).hdrlen := hsize
    have hat := recordAt_congr hsame (by omega) hfit
    -- the next record begins at or before the new one
    have hnext : (k + wordAlign ((recordAt m k).hdrlen + (recordAt m k).caplen)) % 4 = 0 := by
      unfold wordAlign
      omega
    have hnext' : k + wordAlign ((recordAt m k).hdrlen + (recordAt m k).caplen) ≤ wordAlign len := by
      unfold wordAlign
      omega
    rw [recordsFrom, if_neg (by omega), hat]
    rw [if_pos ⟨hsize, by omega⟩, ih hrs' hnext hnext' (by omega) (by
      intro hge
      unfold wordAlign at hnext' hge ⊢
      omega)]
    rfl

/-! ## Storing -/

theorem store_of_lt {bs : List Bytes.Byte} (h : i < k) : store m k bs i = m i :=
  if_neg (by omega)

theorem store_add {bs : List Bytes.Byte} :
    store m k bs (k + i) = bs.getD i (m (k + i)) := by
  rw [store, if_pos (by omega), Nat.add_sub_cancel_left]

theorem leByte_two {v : ℕ} (hv : v < 65536) : (leByte v 0).toNat + 256 * (leByte v 1).toNat = v := by
  unfold leByte
  rw [BitVec.toNat_ofNat, BitVec.toNat_ofNat]
  omega

theorem leByte_four (v : ℕ) : (leByte v 0).toNat + 256 * (leByte v 1).toNat +
    65536 * ((leByte v 2).toNat + 256 * (leByte v 3).toNat) = v % 2 ^ 32 := by
  unfold leByte
  rw [BitVec.toNat_ofNat, BitVec.toNat_ofNat, BitVec.toNat_ofNat, BitVec.toNat_ofNat]
  omega

theorem recordAt_putRecord
    (hhdr : sizeofBpfHdr ≤ hdrlen) (hhdr' : hdrlen < 65536) (hcap : caplen < 2 ^ 32)
    (hlen : data.length = caplen) :
    recordAt (putRecord m k t caplen datalen hdrlen data) k = ⟨hdrlen, caplen, datalen % 2 ^ 32, data⟩ := by
  have hhdr'' : 18 ≤ hdrlen := hhdr
  have hbyte : ∀ i < 18, putRecord m k t caplen datalen hdrlen data (k + i) =
      (bpfHdr t caplen datalen hdrlen).getD i (m (k + i)) := by
    intro i hi
    rw [putRecord, store_of_lt (by omega), store_add]
  have h16 : getLe16 (putRecord m k t caplen datalen hdrlen data) (k + 16) = hdrlen := by
    rw [getLe16, Nat.add_assoc k 16 1, hbyte 16 (by decide), hbyte 17 (by decide)]
    exact leByte_two hhdr'
  have hcap' : getLe32 (putRecord m k t caplen datalen hdrlen data) (k + 8) = caplen := by
    rw [getLe32, getLe16, getLe16, Nat.add_assoc k 8 1, Nat.add_assoc k 8 2, Nat.add_assoc k 10 1,
      hbyte 8 (by decide), hbyte 9 (by decide), hbyte 10 (by decide), hbyte 11 (by decide)]
    exact (leByte_four caplen).trans (Nat.mod_eq_of_lt hcap)
  have hdata' : getLe32 (putRecord m k t caplen datalen hdrlen data) (k + 12) = datalen % 2 ^ 32 := by
    rw [getLe32, getLe16, getLe16, Nat.add_assoc k 12 1, Nat.add_assoc k 12 2, Nat.add_assoc k 14 1,
      hbyte 12 (by decide), hbyte 13 (by decide), hbyte 14 (by decide), hbyte 15 (by decide)]
    exact leByte_four datalen
  unfold recordAt
  dsimp only
  rw [h16, hcap', hdata']
  congr 1
  -- the data follows the header
  refine ext_getElem (by rw [length_map, length_range, hlen]) fun i hi hi' => ?_
  rw [getElem_map, getElem_range, putRecord, store_add, getD_eq_getElem _ _ hi']

theorem putRecord_of_lt
    (h : i < k) : putRecord m k t caplen datalen hdrlen data i = m i := by
  rw [putRecord, store_of_lt (by omega), store_of_lt h]

theorem records_putRecord {rs : List Record} (h : records m len = some rs) (hhdr : sizeofBpfHdr ≤ hdrlen)
    (hhdr' : hdrlen < 65536) (hcap : caplen < 2 ^ 32) (hlen : data.length = caplen) :
    records (putRecord m (wordAlign len) t caplen datalen hdrlen data)
        (wordAlign len + hdrlen + caplen) =
      some (rs ++ [⟨hdrlen, caplen, datalen % 2 ^ 32, data⟩]) := by
  have hpos : 0 < hdrlen := Nat.lt_of_lt_of_le (by decide) hhdr
  have hle := (le_wordAlign len).1
  refine recordsFrom_append (r := ⟨hdrlen, caplen, datalen % 2 ^ 32, data⟩) h rfl (Nat.zero_le _) (fun i hi => ?_)
    (recordAt_putRecord hhdr hhdr' hcap hlen) hhdr (by omega)
  exact putRecord_of_lt (by omega)

end Bsd386.Net.Bpf.Device
