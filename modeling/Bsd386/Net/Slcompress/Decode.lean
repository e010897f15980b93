import Bsd386.Net.Slcompress.Compress
import Bsd386.Net.Slcompress.Uncompress

/-!
# The decoder undoes the change coding

`slChanges cs ip` codes what a packet changed against the saved header `cs`; `decodeHeader`
applies a code to the receiver's copy of that header. Both are cut into the same pieces here:


What the code does not carry shows in `restored`: the byte of `th_off` with its four unused
bits, the two unused flags, and in a special case also `TH_URG`.
-/

namespace Bsd386.Net.Slcompress

open Lib.Bytes

/-! ## The bits of the mask -/

def bit (b : Bool) (m : Byte) : Byte := if b then m else 0

def mask (u w a s : Bool) : Byte := bit u newU ||| bit w newW ||| bit a newA ||| bit s newS

/-- The first byte of a frame. Source: sl_compress_tcp -/
def firstByte (m : Byte) (i p : Bool) : Byte := m ||| bit i newI ||| bit p tcpPushBit ||| newC

section bits

variable (u w a s i p : Bool)

theorem mask_eq_zero : mask u w a s = 0 ↔ (u || w || a || s) = false := by
  revert u w a s; decide

theorem mask_eq_special : mask u w a s = specialI ∨ mask u w a s = specialD ↔
    (u && w && s) = true := by
  revert u w a s; decide

theorem mask_eq_seqAck : mask u w a s = newS ||| newA ↔ (!u && !w && a && s) = true := by
  revert u w a s; decide

theorem mask_eq_seq : mask u w a s = newS ↔ (!u && !w && !a && s) = true := by
  revert u w a s; decide

theorem firstByte_newC : firstByte (mask u w a s) i p &&& newC ≠ 0 := by
  revert u w a s i p; decide

theorem firstByte_newI : firstByte (mask u w a s) i p &&& newI ≠ 0 ↔ i = true := by
  revert u w a s i p; decide

theorem firstByte_push : firstByte (mask u w a s) i p &&& tcpPushBit ≠ 0 ↔ p = true := by
  revert u w a s i p; decide

theorem firstByte_newU : firstByte (mask u w a s) i p &&& newU ≠ 0 ↔ u = true := by
  revert u w a s i p; decide

theorem firstByte_newW : firstByte (mask u w a s) i p &&& newW ≠ 0 ↔ w = true := by
  revert u w a s i p; decide

theorem firstByte_newA : firstByte (mask u w a s) i p &&& newA ≠ 0 ↔ a = true := by
  revert u w a s i p; decide

theorem firstByte_newS : firstByte (mask u w a s) i p &&& newS ≠ 0 ↔ s = true := by
  revert u w a s i p; decide

theorem firstByte_specials : firstByte (mask u w a s) i p &&& specialsMask = mask u w a s := by
  revert u w a s i p; decide

end bits

/-! ## The sender's side -/

/-- `TH_URG` of a packet. Source: sl_compress_tcp -/
def urgSet (h : Mem) (t : ℕ) : Bool := decide (thFlags h t &&& thUrg ≠ 0)

/-- `TH_PUSH` of a packet. Source: sl_compress_tcp -/
def pushSet (h : Mem) (t : ℕ) : Bool := decide (thFlags h t &&& thPush ≠ 0)

/-- Whether the window changed. Source: sl_compress_tcp -/
def winNew (cs ip : Mem) (t : ℕ) : Bool := decide (thWin ip t - thWin cs t ≠ 0)

/-- Whether the acknowledgement changed. Source: sl_compress_tcp -/
def ackNew (cs ip : Mem) (t : ℕ) : Bool := decide (deltaA cs ip t ≠ 0)

/-- Whether the sequence number changed. Source: sl_compress_tcp -/
def seqNew (cs ip : Mem) (t : ℕ) : Bool := decide (deltaS cs ip t ≠ 0)

/-- Whether the IP ID is sent. Source: sl_compress_tcp -/
def idNew (cs ip : Mem) : Bool := decide (deltaId cs ip ≠ 1)

/-- The coded number, if there is one. -/
def coded (b : Bool) (l : List Byte) : List Byte := if b then l else []

/-- The coded numbers of the default case, in their order.
Source: sl_compress_tcp -/
def numbers (cs ip : Mem) (t : ℕ) : List Byte :=
  coded (urgSet ip t) (encodez ((thUrp ip t).setWidth 32)) ++
    coded (winNew cs ip t) (encode ((thWin ip t - thWin cs t).setWidth 32)) ++
    coded (ackNew cs ip t) (encode (deltaA cs ip t)) ++
    coded (seqNew cs ip t) (encode (deltaS cs ip t))

/-- The two patterns sent as a special case: nothing but the sequence number changed, by the last
data, or the acknowledgement changed by as much.
Source: sl_compress_tcp; slcompress.h -/
def SpecialCase (cs ip : Mem) : Prop :=
  urgSet ip (th ip) = false ∧ thWin ip (th ip) = thWin cs (th ip) ∧
    deltaS cs ip (th ip) ≠ 0 ∧ deltaS cs ip (th ip) = lastData cs (hdrLen ip) ∧
    (deltaA cs ip (th ip) = 0 ∨ deltaA cs ip (th ip) = deltaS cs ip (th ip))

instance (cs ip : Mem) : Decidable (SpecialCase cs ip) :=
  inferInstanceAs (Decidable (_ ∧ _ ∧ _ ∧ _ ∧ _))

/-- What `slChanges` coded in front of the IP ID: the mask by its bits, and the numbers.
Source: sl_compress_tcp -/
structure Code where
  u : Bool
  w : Bool
  a : Bool
  s : Bool
  seq : List Byte

/-- The code of a packet: the changes themselves, or one of the reserved masks.
Source: sl_compress_tcp -/
def codeOf (cs ip : Mem) : Code :=
  let t := th ip
  if SpecialCase cs ip then
    { u := true, w := true, a := !ackNew cs ip t, s := true, seq := [] }
  else
    { u := urgSet ip t, w := winNew cs ip t, a := ackNew cs ip t, s := seqNew cs ip t
      seq := numbers cs ip t }

theorem urgentChange_cases {cs ip : Mem} {t : ℕ} {u : Byte × List Byte}
    (h : urgentChange cs ip t = some u) :
    u = (bit (urgSet ip t) newU,
        coded (urgSet ip t) (encodez ((thUrp ip t).setWidth 32))) ∧
      (urgSet ip t = false → thUrp ip t = thUrp cs t) := by
  unfold urgentChange at h
  split_ifs at h with hu hp
  · have hset : urgSet ip t = true := decide_eq_true hu
    rw [hset]
    exact ⟨(Option.some.inj h).symm, fun hf => Bool.noConfusion hf⟩
  · have hset : urgSet ip t = false := decide_eq_false hu
    rw [hset]
    exact ⟨(Option.some.inj h).symm, fun _ => not_not.mp hp⟩

theorem windowChange_eq (cs ip : Mem) (t : ℕ) :
    windowChange cs ip t = (bit (winNew cs ip t) newW,
      coded (winNew cs ip t) (encode ((thWin ip t - thWin cs t).setWidth 32))) := by
  unfold windowChange winNew
  split_ifs with h
  · rw [decide_eq_true h]
    rfl
  · rw [decide_eq_false h]
    rfl

theorem longChange_cases {m : Byte} {d : BitVec 32} {x : Byte × List Byte}
    (h : longChange m d = some x) :
    x = (bit (decide (d ≠ 0)) m, coded (decide (d ≠ 0)) (encode d)) ∧ d.toNat ≤ 0xffff := by
  unfold longChange at h
  split_ifs at h with hd hlt
  · rw [decide_eq_true hd]
    exact ⟨(Option.some.inj h).symm, Nat.not_lt.mp hlt⟩
  · rw [decide_eq_false hd, not_not.mp hd]
    exact ⟨(Option.some.inj h).symm, by decide⟩

theorem idChange_eq (cs ip : Mem) :
    idChange cs ip = (bit (idNew cs ip) newI, coded (idNew cs ip) (encodez (deltaId cs ip))) := by
  unfold idChange idNew
  split_ifs with h
  · rw [decide_eq_true h]
    rfl
  · rw [decide_eq_false h]
    rfl

theorem specialCases_cases {cs ip : Mem} {c : Byte × List Byte}
    (h : specialCases cs ip (th ip) (hdrLen ip)
      (mask (urgSet ip (th ip)) (winNew cs ip (th ip)) (ackNew cs ip (th ip))
        (seqNew cs ip (th ip))) (numbers cs ip (th ip)) = some c) :
    c = (mask (codeOf cs ip).u (codeOf cs ip).w (codeOf cs ip).a (codeOf cs ip).s,
        (codeOf cs ip).seq) ∧
      (¬ SpecialCase cs ip → (urgSet ip (th ip) && winNew cs ip (th ip) &&
        seqNew cs ip (th ip)) = false) := by
  have hwin : thWin ip (th ip) = thWin cs (th ip) ↔ winNew cs ip (th ip) = false := by
    rw [winNew, decide_eq_false_iff_not, not_not, BitVec.sub_eq_iff_eq_add]
    exact iff_of_eq (congrArg _ (BitVec.zero_add _).symm)
  have hack : deltaA cs ip (th ip) = 0 ↔ ackNew cs ip (th ip) = false := by
    rw [ackNew, decide_eq_false_iff_not, not_not]
  have hseq : deltaS cs ip (th ip) ≠ 0 ↔ seqNew cs ip (th ip) = true := by
    rw [seqNew, decide_eq_true_iff]
  unfold specialCases at h
  simp only [mask_eq_zero, mask_eq_special, mask_eq_seqAck, mask_eq_seq] at h
  unfold codeOf
  by_cases hsp : SpecialCase cs ip
  · -- the pattern: only the two special branches apply
    obtain ⟨hu, hw, hs, hl, ha⟩ := id hsp
    rw [if_pos hsp]
    refine ⟨?_, fun hn => absurd hsp hn⟩
    rw [hwin] at hw
    rw [hseq] at hs
    rw [hu, hw, hs] at h
    by_cases hz : deltaA cs ip (th ip) = 0
    · rw [hack.mp hz] at h ⊢
      simp [hl] at h
      rw [← h]
      rfl
    have ha' : deltaS cs ip (th ip) = deltaA cs ip (th ip) := (ha.resolve_left hz).symm
    have haN : ackNew cs ip (th ip) = true := by
      rw [← Bool.not_eq_false, ← hack]
      exact hz
    rw [haN] at h ⊢
    simp [← ha', hl] at h
    rw [← h]
    rfl
  · rw [if_neg hsp]
    have hnot : ∀ {x y : Byte × List Byte}, some x = some y → y = x := fun h =>
      (Option.some.inj h).symm
    split_ifs at h with h0 h1 h2 h3 h4 h5 h6
    · exact ⟨hnot h, fun _ => by simp only [Bool.or_eq_false_iff] at h0; simp [h0]⟩
    · simp only [Bool.and_eq_true, Bool.not_eq_true'] at h3
      exact absurd ⟨h3.1.1.1, hwin.mpr h3.1.1.2, hseq.mpr h3.2, h4.2, .inr h4.1.symm⟩ hsp
    · exact ⟨hnot h, fun _ => Bool.eq_false_iff.mpr h2⟩
    · simp only [Bool.and_eq_true, Bool.not_eq_true'] at h5
      exact absurd ⟨h5.1.1.1, hwin.mpr h5.1.1.2, hseq.mpr h5.2, h6, .inl (hack.mpr h5.1.2)⟩ hsp
    · exact ⟨hnot h, fun _ => Bool.eq_false_iff.mpr h2⟩
    · exact ⟨hnot h, fun _ => Bool.eq_false_iff.mpr h2⟩

theorem pushChange_eq (ip : Mem) (t : ℕ) : pushChange ip t = bit (pushSet ip t) tcpPushBit := by
  unfold pushChange pushSet
  split_ifs with h
  · rw [decide_eq_true h]
    rfl
  · rw [decide_eq_false h]
    rfl

/-- **What a code says.** If a packet goes compressed, then only what may change did, the urgent
pointer is sent or is the old one, both differences fit 16 bits, and the mask and the numbers are
those of `codeOf`, followed by the IP ID. -/
theorem slChanges_cases {cs ip : Mem} {c : Byte × List Byte} (h : slChanges cs ip = some c) :
    unchangedFields cs ip = true ∧
      (urgSet ip (th ip) = false → thUrp ip (th ip) = thUrp cs (th ip)) ∧
      (deltaA cs ip (th ip)).toNat ≤ 0xffff ∧ (deltaS cs ip (th ip)).toNat ≤ 0xffff ∧
      (¬ SpecialCase cs ip → (urgSet ip (th ip) && winNew cs ip (th ip) &&
        seqNew cs ip (th ip)) = false) ∧
      c.1 ||| newC = firstByte
        (mask (codeOf cs ip).u (codeOf cs ip).w (codeOf cs ip).a (codeOf cs ip).s)
        (idNew cs ip) (pushSet ip (th ip)) ∧
      c.2 = (codeOf cs ip).seq ++ coded (idNew cs ip) (encodez (deltaId cs ip)) := by
  unfold slChanges at h
  split_ifs at h with hfields
  dsimp only at h
  split at h
  · rename_i u a s hu ha hs
    obtain ⟨rfl, hurp⟩ := urgentChange_cases hu
    obtain ⟨rfl, hA⟩ := longChange_cases ha
    obtain ⟨rfl, hS⟩ := longChange_cases hs
    rw [windowChange_eq, idChange_eq, pushChange_eq] at h
    split at h
    · rename_i d hd
      obtain ⟨rfl, hplain⟩ := specialCases_cases hd
      obtain rfl := Option.some.inj h
      exact ⟨hfields, hurp, hA, hS, hplain, rfl, rfl⟩
    · cases h
  · cases h

/-! ## The receiver's side -/

section receiver

variable {mem h cs ip : Mem} {k cp t : ℕ}

theorem overlay_eq_self {n : ℕ} (hgh : ∀ i, k ≤ i → i < k + n → ip i = h i) :
    overlay ip h k n = h := by
  funext i
  by_cases hi : k ≤ i ∧ i < k + n
  · rw [overlay_apply_of_mem hi, hgh i hi.1 hi.2]
  · rw [overlay_apply_of_notMem hi]

theorem decodes_coded {P : Prop} [Decidable P] {b : Bool} {d : BitVec 16}
    (hk : get16 h k = get16 cs k) (hd : get16 ip k - get16 cs k = d) (hb : b = decide (d ≠ 0))
    (hP : P ↔ b = true) (hat : At mem cp (coded b (encode (d.setWidth 32)))) :
    (if P then decodes mem h k cp else (h, cp)) =
      (overlay ip h k 2, cp + (coded b (encode (d.setWidth 32))).length) := by
  by_cases hne : d ≠ 0
  · obtain rfl : b = true := hb.trans (decide_eq_true hne)
    have hlow : (d.setWidth 32).setWidth 16 = d := by
      rw [BitVec.setWidth_setWidth_of_le _ (by omega), BitVec.setWidth_eq]
    have hnz : ((d.setWidth 32).setWidth 16).toNat ≠ 0 := by
      rw [hlow]
      exact fun h0 => hne (BitVec.eq_of_toNat_eq h0)
    have hdec := decode_encode hat hnz
    rw [hlow] at hdec
    rw [if_pos (hP.mpr rfl), decodes, hdec, hk, ← hd, BitVec.add_comm, BitVec.sub_add_cancel,
      set16_get16]
    rfl
  · obtain rfl : b = false := hb.trans (decide_eq_false hne)
    rw [if_neg fun hp => Bool.false_ne_true (hP.mp hp), overlay_eq_self]
    · rfl
    · have heq : get16 ip k = get16 h k := by
        rw [not_not.mp hne] at hd
        rw [hk]
        exact (BitVec.sub_eq_iff_eq_add.mp hd).trans (BitVec.zero_add _)
      obtain ⟨h₀, h1⟩ := get16_inj heq
      intro i hi hi'
      obtain rfl | rfl : i = k ∨ i = k + 1 := by omega
      · exact h₀
      · exact h1

theorem decodel_coded {P : Prop} [Decidable P] {b : Bool} {d : BitVec 32}
    (hk : get32 h k = get32 cs k) (hd : get32 ip k - get32 cs k = d) (hb : b = decide (d ≠ 0))
    (hP : P ↔ b = true) (hfit : d.toNat ≤ 0xffff) (hat : At mem cp (coded b (encode d))) :
    (if P then decodel mem h k cp else (h, cp)) =
      (overlay ip h k 4, cp + (coded b (encode d)).length) := by
  by_cases hne : d ≠ 0
  · obtain rfl : b = true := hb.trans (decide_eq_true hne)
    have hlow : (d.setWidth 16).toNat = d.toNat := by
      rw [BitVec.toNat_setWidth, Nat.mod_eq_of_lt (by omega)]
    have hnz : (d.setWidth 16).toNat ≠ 0 := by
      rw [hlow]
      exact fun h0 => hne (BitVec.eq_of_toNat_eq h0)
    have hback : (d.setWidth 16).setWidth 32 = d := by
      apply BitVec.eq_of_toNat_eq
      rw [BitVec.toNat_setWidth, hlow, Nat.mod_eq_of_lt (by omega)]
    rw [if_pos (hP.mpr rfl), decodel, decode_encode hat hnz, hk, hback, ← hd, BitVec.add_comm,
      BitVec.sub_add_cancel, set32_get32]
    rfl
  · obtain rfl : b = false := hb.trans (decide_eq_false hne)
    rw [if_neg fun hp => Bool.false_ne_true (hP.mp hp), overlay_eq_self]
    · rfl
    · have heq : get32 ip k = get32 h k := by
        rw [not_not.mp hne] at hd
        rw [hk]
        exact (BitVec.sub_eq_iff_eq_add.mp hd).trans (BitVec.zero_add _)
      exact get32_inj heq

/-- The flags with `TH_PUSH` as told. Source: sl_uncompress_tcp -/
def pushFlags (f : Byte) (p : Bool) : Byte := if p then f ||| thPush else f &&& ~~~thPush

/-- The flags with `TH_URG` as told. Source: sl_uncompress_tcp -/
def urgentFlags (f : Byte) (u : Bool) : Byte := if u then f ||| thUrg else f &&& ~~~thUrg

/-- The four fields of the change mask taken from `ip`. -/
def fields (ip h : Mem) (t : ℕ) : Mem :=
  overlay ip (overlay ip (overlay ip (overlay ip h (t + 18) 2) (t + 14) 2) (t + 8) 4) (t + 4) 4

theorem decodeUrgent_eq {changes : Byte} (hP : changes &&& newU ≠ 0 ↔ urgSet ip t = true)
    (hu : urgSet ip t = false → get16 ip (t + 18) = get16 h (t + 18))
    (hat : At mem cp (coded (urgSet ip t) (encodez ((thUrp ip t).setWidth 32)))) :
    decodeUrgent mem h t cp changes =
      (overlay ip (set8 h (t + 13) (urgentFlags (h (t + 13)) (urgSet ip t))) (t + 18) 2,
        cp + (coded (urgSet ip t) (encodez ((thUrp ip t).setWidth 32))).length) := by
  unfold decodeUrgent
  cases hset : urgSet ip t with
  | true =>
    rw [hset] at hat
    have hlow : ((thUrp ip t).setWidth 32).setWidth 16 = get16 ip (t + 18) := by
      rw [BitVec.setWidth_setWidth_of_le _ (by omega), BitVec.setWidth_eq, thUrp]
    rw [if_pos (hP.mpr hset), decodeu, decode_encodez hat, hlow, set16_get16]
    rfl
  | false =>
    have hno : ¬ changes &&& newU ≠ 0 := fun h0 => by
      rw [hP.mp h0] at hset
      cases hset
    rw [if_neg hno, overlay_eq_self]
    · rfl
    · obtain ⟨h₀, h1⟩ := get16_inj (hu hset)
      intro i hi hi'
      rw [set8_apply_of_ne _ (by omega)]
      obtain rfl | rfl : i = t + 18 ∨ i = t + 18 + 1 := by omega
      · exact h₀
      · exact h1

theorem decodeNumbers_eq {i p : Bool}
    (hfit : (deltaA cs ip t).toNat ≤ 0xffff ∧ (deltaS cs ip t).toNat ≤ 0xffff)
    (hurp : urgSet ip t = false → thUrp ip t = thUrp cs t)
    (hagree : ∀ j, t + 4 ≤ j → j < t + 20 → j ≠ t + 13 → j ≠ t + 16 → j ≠ t + 17 → h j = cs j)
    (hat : At mem cp (numbers cs ip t)) :
    decodeNumbers mem h t cp
        (firstByte (mask (urgSet ip t) (winNew cs ip t) (ackNew cs ip t) (seqNew cs ip t)) i p) =
      (fields ip (set8 h (t + 13) (urgentFlags (h (t + 13)) (urgSet ip t))) t,
        cp + (numbers cs ip t).length) := by
  unfold numbers at hat ⊢
  rw [at_append, at_append, at_append] at hat
  obtain ⟨⟨⟨hatU, hatW⟩, hatA⟩, hatS⟩ := hat
  simp only [List.length_append, ← Nat.add_assoc] at hatW hatA hatS ⊢
  have hurp' : urgSet ip t = false → get16 ip (t + 18) = get16 h (t + 18) := by
    intro hset
    rw [get16_congr (hagree (t + 18) (by omega) (by omega) (by omega) (by omega) (by omega))
      (hagree (t + 18 + 1) (by omega) (by omega) (by omega) (by omega) (by omega))]
    exact hurp hset
  -- each further field is still the copy's when its turn comes
  obtain ⟨g1, hg1⟩ : ∃ g, overlay ip (set8 h (t + 13)
    (urgentFlags (h (t + 13)) (urgSet ip t))) (t + 18) 2 = g := ⟨_, rfl⟩
  obtain ⟨g2, hg2⟩ : ∃ g, overlay ip g1 (t + 14) 2 = g := ⟨_, rfl⟩
  obtain ⟨g3, hg3⟩ : ∃ g, overlay ip g2 (t + 8) 4 = g := ⟨_, rfl⟩
  have h1 : ∀ j, t + 4 ≤ j → j < t + 16 → j ≠ t + 13 → g1 j = cs j := by
    intro j hj hj' hne
    rw [← hg1, overlay_apply_of_notMem (by omega), set8_apply_of_ne _ (by omega)]
    exact hagree j (by omega) (by omega) (by omega) (by omega) (by omega)
  have h2 : ∀ j, t + 4 ≤ j → j < t + 12 → g2 j = cs j := by
    intro j hj hj'
    rw [← hg2, overlay_apply_of_notMem (by omega)]
    exact h1 j (by omega) (by omega) (by omega)
  have h3 : ∀ j, t + 4 ≤ j → j < t + 8 → g3 j = cs j := by
    intro j hj hj'
    rw [← hg3, overlay_apply_of_notMem (by omega)]
    exact h2 j (by omega) (by omega)
  obtain ⟨fb, hfb⟩ : ∃ fb, firstByte (mask (urgSet ip t) (winNew cs ip t) (ackNew cs ip t)
    (seqNew cs ip t)) i p = fb := ⟨_, rfl⟩
  have hU := decodeUrgent_eq (h := h) (hfb ▸ firstByte_newU ..) hurp' hatU
  have hW := decodes_coded (P := fb &&& newW ≠ 0) (h := g1) (k := t + 14)
    (b := winNew cs ip t) (d := thWin ip t - thWin cs t)
    (get16_congr (h1 _ (by omega) (by omega) (by omega)) (h1 _ (by omega) (by omega) (by omega)))
    rfl rfl (hfb ▸ firstByte_newW ..) hatW
  have hA := decodel_coded (P := fb &&& newA ≠ 0) (h := g2) (k := t + 8)
    (b := ackNew cs ip t) (d := deltaA cs ip t)
    (get32_congr fun j hj hj' => h2 j (by omega) (by omega)) rfl rfl (hfb ▸ firstByte_newA ..)
    hfit.1 hatA
  have hS := decodel_coded (P := fb &&& newS ≠ 0) (h := g3) (k := t + 4)
    (b := seqNew cs ip t) (d := deltaS cs ip t)
    (get32_congr fun j hj hj' => h3 j (by omega) (by omega)) rfl rfl (hfb ▸ firstByte_newS ..)
    hfit.2 hatS
  rw [hg1] at hU
  rw [hg2] at hW
  rw [hg3] at hA
  rw [hfb, decodeNumbers, hU]
  rw [hW]
  rw [hA]
  rw [hS, fields, hg1, hg2, hg3]

theorem decodeChanges_eq_of_special {i p : Bool} (hsp : SpecialCase cs ip) (ht : t = th ip)
    (hurp : urgSet ip t = false → thUrp ip t = thUrp cs t)
    (hlen : ipLen h = ipLen cs)
    (hagree : ∀ j, t + 4 ≤ j → j < t + 20 → j ≠ t + 13 → j ≠ t + 16 → j ≠ t + 17 → h j = cs j) :
    decodeChanges mem h t (hdrLen ip) cp
        (firstByte (mask true true (!ackNew cs ip t) true) i p) = (fields ip h t, cp) := by
  obtain ⟨hu, hw, -, hl, ha⟩ := hsp
  rw [← ht] at hu hw hl ha
  have hdata : savedData h (hdrLen ip) = lastData cs (hdrLen ip) := by
    rw [savedData, lastData, hlen]
  have hbytes : ∀ j, t + 14 ≤ j ∧ j < t + 16 ∨ t + 18 ≤ j ∧ j < t + 20 → ip j = h j := by
    intro j hj
    obtain ⟨hw0, hw1⟩ := get16_inj hw
    obtain ⟨hu0, hu1⟩ := get16_inj (hurp hu)
    rw [hagree j (by omega) (by omega) (by omega) (by omega) (by omega)]
    obtain rfl | rfl | rfl | rfl :
        j = t + 14 ∨ j = t + 14 + 1 ∨ j = t + 18 ∨ j = t + 18 + 1 := by omega
    · exact hw0
    · exact hw1
    · exact hu0
    · exact hu1
  have hrest : overlay ip (overlay ip h (t + 18) 2) (t + 14) 2 = h := by
    have h1 : overlay ip h (t + 18) 2 = h := overlay_eq_self fun j _ _ => hbytes j (by omega)
    rw [h1, overlay_eq_self fun j _ _ => hbytes j (by omega)]
  have hack : thAck h t = thAck cs t := get32_congr fun j hj hj' =>
    hagree j (by omega) (by omega) (by omega) (by omega) (by omega)
  have hseq : thSeq h t = thSeq cs t := get32_congr fun j hj hj' =>
    hagree j (by omega) (by omega) (by omega) (by omega) (by omega)
  rw [fields, hrest]
  unfold decodeChanges
  rw [firstByte_specials]
  have hS : thSeq cs t + deltaS cs ip t = thSeq ip t := by
    rw [deltaS, BitVec.add_comm, BitVec.sub_add_cancel]
  have hA : thAck cs t + deltaA cs ip t = thAck ip t := by
    rw [deltaA, BitVec.add_comm, BitVec.sub_add_cancel]
  by_cases hz : deltaA cs ip t = 0
  · -- unidirectional data: the acknowledgement is the old one
    have hnew : ackNew cs ip t = false := by
      rw [ackNew, decide_eq_false_iff_not, not_not]
      exact hz
    have hsame : thAck ip t = thAck h t := by
      rw [hack, ← hA, hz]
      exact BitVec.add_zero _
    rw [hnew, if_neg (by decide), if_pos (by decide), decodeSpecialD, hdata, ← hl, hseq, hS,
      thSeq, set32_get32, overlay_eq_self (k := t + 8) (get32_inj hsame)]
  · have hnew : ackNew cs ip t = true := by
      rw [ackNew, decide_eq_true_iff]
      exact hz
    have hAS : deltaA cs ip t = lastData cs (hdrLen ip) := (ha.resolve_left hz).trans hl
    have hseq' : thSeq (overlay ip h (t + 8) 4) t = thSeq cs t := by
      rw [← hseq]
      exact get32_congr fun j hj hj' => overlay_apply_of_notMem (by omega)
    rw [hnew, if_pos (by decide), decodeSpecialI, hdata, hack, ← hAS, hA, thAck, set32_get32, hseq', hAS, ← hl, hS, thSeq, set32_get32]

/-- The flags a receiver ends with. Source: sl_uncompress_tcp -/
def restoredFlags (cs ip : Mem) : Byte :=
  let f := pushFlags (thFlags cs (th ip)) (pushSet ip (th ip))
  if SpecialCase cs ip then f else urgentFlags f (urgSet ip (th ip))

theorem decodeChanges_eq {i p : Bool} (ht : t = th ip)
    (hfit : (deltaA cs ip t).toNat ≤ 0xffff ∧ (deltaS cs ip t).toNat ≤ 0xffff)
    (hurp : urgSet ip t = false → thUrp ip t = thUrp cs t)
    (hplain : ¬ SpecialCase cs ip → (urgSet ip t && winNew cs ip t && seqNew cs ip t) = false)
    (hlen : ipLen h = ipLen cs)
    (hagree : ∀ j, t + 4 ≤ j → j < t + 20 → j ≠ t + 13 → j ≠ t + 16 → j ≠ t + 17 → h j = cs j)
    (hat : At mem cp (codeOf cs ip).seq) :
    decodeChanges mem h t (hdrLen ip) cp
        (firstByte (mask (codeOf cs ip).u (codeOf cs ip).w (codeOf cs ip).a (codeOf cs ip).s) i p) =
      (fields ip (if SpecialCase cs ip then h
          else set8 h (t + 13) (urgentFlags (h (t + 13)) (urgSet ip t))) t,
        cp + (codeOf cs ip).seq.length) := by
  unfold codeOf at hat ⊢
  rw [← ht] at hat ⊢
  by_cases hsp : SpecialCase cs ip
  · rw [if_pos hsp, if_pos hsp]
    exact decodeChanges_eq_of_special hsp ht hurp hlen hagree
  rw [if_neg hsp] at hat
  rw [if_neg hsp, if_neg hsp]
  have hno : ¬ (mask (urgSet ip t) (winNew cs ip t) (ackNew cs ip t) (seqNew cs ip t) = specialI ∨
      mask (urgSet ip t) (winNew cs ip t) (ackNew cs ip t) (seqNew cs ip t) = specialD) := by
    rw [mask_eq_special, hplain hsp]
    exact Bool.false_ne_true
  unfold decodeChanges
  rw [firstByte_specials, if_neg fun h => hno (.inl h), if_neg fun h => hno (.inr h)]
  exact decodeNumbers_eq hfit hurp hagree hat

/-- The header the decoder leaves: the coded fields are the packet's, the flags are rebuilt, and
the rest is the copy's.
Source: sl_uncompress_tcp -/
def restored (cs ip h : Mem) : Mem := fun j =>
  if j = th ip + 13 then restoredFlags cs ip
  else if (4 ≤ j ∧ j < 6) ∨ (th ip + 4 ≤ j ∧ j < th ip + 12) ∨ (th ip + 14 ≤ j ∧ j < th ip + 20)
    then ip j
  else h j

/-- **The decoder undoes the coding.** On the frame of a packet that goes compressed against `cs`,
a receiver whose copy agrees with `cs` ends with `restored`, at the first byte of the data. -/
theorem decodeHeader_eq {c : Byte × List Byte} (hc : slChanges cs ip = some c) (ht : th h = th ip)
    (h20 : 20 ≤ th ip) (hagree : ∀ j, j < th ip + 20 → j ≠ 10 → j ≠ 11 → h j = cs j)
    (hsum : mem 2 ++ mem 3 = thSum ip (th ip)) (hat : At mem 4 c.2) :
    decodeHeader mem h (hdrLen ip) 2 (c.1 ||| newC) = (restored cs ip h, 4 + c.2.length) := by
  obtain ⟨-, hurp, hA, hS, hplain, hfirst, hseq⟩ := slChanges_cases hc
  rw [hseq, at_append] at hat
  obtain ⟨hatC, hatI⟩ := hat
  rw [hfirst, hseq, List.length_append]
  -- the copy after the checksum and the push bit
  obtain ⟨g, hg⟩ : ∃ g, set8 (overlay ip h (th ip + 16) 2) (th ip + 13)
    (pushFlags (h (th ip + 13)) (pushSet ip (th ip))) = g := ⟨_, rfl⟩
  have hpush : decodePush (overlay ip h (th ip + 16) 2) (th ip) (firstByte
      (mask (codeOf cs ip).u (codeOf cs ip).w (codeOf cs ip).a (codeOf cs ip).s)
      (idNew cs ip) (pushSet ip (th ip))) = g := by
    unfold decodePush
    simp only [firstByte_push]
    rw [← hg, overlay_apply_of_notMem (by omega)]
    cases pushSet ip (th ip) <;> rfl
  have hgj : ∀ j, j < th ip + 20 → j ≠ 10 → j ≠ 11 → j ≠ th ip + 13 → j ≠ th ip + 16 →
      j ≠ th ip + 17 → g j = cs j := by
    intro j h1 h2 h3 h4 h5 h6
    rw [← hg, set8_apply_of_ne _ h4, overlay_apply_of_notMem (by omega)]
    exact hagree j h1 h2 h3
  have hglen : ipLen g = ipLen cs :=
    get16_congr (hgj _ (by omega) (by omega) (by omega) (by omega) (by omega) (by omega))
      (hgj _ (by omega) (by omega) (by omega) (by omega) (by omega) (by omega))
  have hchanges := decodeChanges_eq (h := g) (i := idNew cs ip)
    (p := pushSet ip (th ip)) rfl ⟨hA, hS⟩ hurp hplain hglen
    (fun j h1 h2 h3 h4 h5 => hgj j h2 (by omega) (by omega) h3 h4 h5) hatC
  -- the flags and fields of the copy, still with the old IP ID
  obtain ⟨q, hq⟩ : ∃ q, fields ip (if SpecialCase cs ip then g
      else set8 g (th ip + 13) (urgentFlags (g (th ip + 13)) (urgSet ip (th ip)))) (th ip) = q :=
    ⟨_, rfl⟩
  rw [hq] at hchanges
  have hflags : (if SpecialCase cs ip then g
      else set8 g (th ip + 13) (urgentFlags (g (th ip + 13)) (urgSet ip (th ip)))) =
        set8 (overlay ip h (th ip + 16) 2) (th ip + 13) (restoredFlags cs ip) := by
    have hf : g (th ip + 13) = pushFlags (thFlags cs (th ip)) (pushSet ip (th ip)) := by
      rw [← hg, set8_apply_self, thFlags, hagree _ (by omega) (by omega) (by omega)]
    rw [restoredFlags]
    split_ifs with hsp
    · rw [← hf, ← hg, set8_apply_self]
    funext j
    rw [hf]
    by_cases hj : j = th ip + 13
    · rw [hj, set8_apply_self, set8_apply_self]
    · rw [set8_apply_of_ne _ hj, set8_apply_of_ne _ hj, ← hg, set8_apply_of_ne _ hj]
  have hrest : overlay ip q 4 2 = restored cs ip h := by
    rw [← hq, hflags]
    funext j
    simp only [fields, overlay, set8, restored]
    split_ifs <;> first | rfl | omega
  have hid : ∀ j, 4 ≤ j → j < 6 → q j = cs j := by
    intro j h1 h2
    rw [← hq, hflags]
    simp only [fields]
    rw [overlay_apply_of_notMem (by omega), overlay_apply_of_notMem (by omega),
      overlay_apply_of_notMem (by omega), overlay_apply_of_notMem (by omega),
      set8_apply_of_ne _ (by omega), overlay_apply_of_notMem (by omega)]
    exact hagree j (by omega) (by omega) (by omega)
  have hidq : get16 q 4 = ipId cs := get16_congr (hid 4 (by omega) (by omega))
    (hid 5 (by omega) (by omega))
  unfold decodeHeader
  dsimp only
  rw [ht, hsum, thSum, set16_get16, hpush, hchanges]
  rw [← hrest, ← Nat.add_assoc]
  -- the IP ID: the low half of the difference of the two as `u_int`s
  have hdelta : (deltaId cs ip).setWidth 16 = ipId ip - ipId cs := by
    have hlow : ∀ x : BitVec 16, (x.setWidth 32).setWidth 16 = x := fun x => by
      rw [BitVec.setWidth_setWidth_of_le _ (by omega), BitVec.setWidth_eq]
    rw [BitVec.eq_sub_iff_add_eq]
    calc (deltaId cs ip).setWidth 16 + ipId cs
        = (deltaId cs ip + (ipId cs).setWidth 32).setWidth 16 := by
          rw [BitVec.setWidth_add _ _ (by omega), hlow]
      _ = ipId ip := by rw [deltaId, BitVec.sub_add_cancel, hlow]
  unfold decodeId
  simp only [firstByte_newI]
  cases hnew : idNew cs ip with
  | true =>
    rw [hnew] at hatI
    rw [if_pos rfl, decodes, decode_encodez hatI, hdelta, hidq, BitVec.add_comm,
      BitVec.sub_add_cancel, ipId, set16_get16]
    rfl
  | false =>
    have hone : deltaId cs ip = 1 := not_not.mp (of_decide_eq_false hnew)
    have hstep : ipId cs + 1 = get16 ip 4 := by
      have : (1 : BitVec 16) = ipId ip - ipId cs := by
        rw [← hdelta, hone]
        rfl
      rw [this, BitVec.add_comm, BitVec.sub_add_cancel, ipId]
    rw [if_neg Bool.false_ne_true, ipId, hidq, hstep, set16_get16]
    rfl

end receiver

end Bsd386.Net.Slcompress
