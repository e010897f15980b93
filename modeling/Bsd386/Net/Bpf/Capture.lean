import Bsd386.Lib.Transition
import Bsd386.Net.Bpf.Records

/-!
# Packet capture under any interleaving

The two buffers of a descriptor in the three slots, and what is in them, for every run in which no step
finds what it does not expect (`Expected`): that `bpfread` ends a `uiomove` with a buffer in the hold slot,
that `bpf_allocbufs` stores its buffers while nothing has been caught, and that `BIOCSBLEN` leaves buffers
that are being allocated large enough.
-/

namespace Bsd386.Net.Bpf.Device

open Lib Option

/-! ## What is right -/

/-- Buffers have been allocated. Source: bpf_allocbufs -/
def Allocated (m : Bufs) : Prop := m.d.bdBif ≠ none ∨ m.d.sbuf ≠ none

/-- The buffer `b` is in a slot. Source: bpfdesc.h struct bpf_d -/
def InSlot (m : Bufs) (b : ℕ) : Prop := m.d.sbuf = some b ∨ m.d.hbuf = some b ∨ m.d.fbuf = some b

/-- Two buffers in two of the three slots, of which the store slot is one.
Source: bpfdesc.h struct bpf_d -/
def Slots (m : Bufs) : Prop :=
  ∃ a b, a ≠ b ∧ m.d.sbuf = some a ∧
    ((m.d.hbuf = some b ∧ m.d.fbuf = none) ∨ (m.d.hbuf = none ∧ m.d.fbuf = some b))

/-- The record of a packet that is caught: of the data there is the smaller of the snapshot length, the
packet length and the room behind a header in an empty buffer.
Source: catchpacket -/
def recordOf (bufsize hdrlen : ℕ) (c : Caught) : Record :=
  let caplen := min (min c.snaplen c.pkt.length) (bufsize - hdrlen)
  ⟨hdrlen, caplen, c.pkt.length % 2 ^ 32, c.pkt.take caplen⟩

/-- The store buffer and the hold buffer are as they should be. -/
structure BuffersOk (m : Bufs) : Prop where
  slots : Allocated m → Slots m
  slen : ∀ a, m.d.sbuf = some a → m.d.slen ≤ (m.heap a).size
  hlen : ∀ b, m.d.hbuf = some b → m.d.hlen ≤ (m.heap b).size
  room : ∀ hdrlen, m.d.bdBif = some hdrlen → hdrlen ≤ m.d.bufsize
  stored : ∀ hdrlen a, m.d.bdBif = some hdrlen → m.d.sbuf = some a →
    records (m.heap a).data m.d.slen = some (m.scaught.map (recordOf m.d.bufsize hdrlen))
  held : ∀ hdrlen b, m.d.bdBif = some hdrlen → m.d.hbuf = some b →
    records (m.heap b).data m.d.hlen = some (m.hcaught.map (recordOf m.d.bufsize hdrlen))

/-! ## The invariant of the buffers -/

/-- The sizes that `bif_hdrlen` has. Source: bpfattach -/
def HdrOk (hdrlen : ℕ) : Prop := 18 ≤ hdrlen ∧ hdrlen ≤ 21

theorem hdrOk_bifHdrlen (linkHdrlen : ℕ) : HdrOk (bifHdrlen linkHdrlen) := by
  unfold HdrOk bifHdrlen wordAlign sizeofBpfHdr
  omega

/-- What every step keeps of the slots. -/
structure Shape (m : Bufs) : Prop where
  bufsize : 32 ≤ m.d.bufsize ∧ m.d.bufsize ≤ 32768
  hdr : ∀ hdrlen, m.d.bdBif = some hdrlen → HdrOk hdrlen
  slots : Allocated m → Slots m
  fresh : ∀ b, InSlot m b → b < m.fresh
  sizes : ∀ b, InSlot m b → m.d.bufsize ≤ (m.heap b).size

/-- What every step keeps of the descriptor and its buffers. -/
structure Inv (m : Bufs) : Prop extends Shape m where
  unattached : m.d.bdBif = none → m.d.hbuf = none ∧ m.d.slen = 0 ∧ m.d.hlen = 0
  slen : m.d.slen ≤ m.d.bufsize
  hlen : m.d.hlen ≤ m.d.bufsize
  stored : ∀ hdrlen a, m.d.bdBif = some hdrlen → m.d.sbuf = some a →
    records (m.heap a).data m.d.slen = some (m.scaught.map (recordOf m.d.bufsize hdrlen))
  held : ∀ hdrlen b, m.d.bdBif = some hdrlen → m.d.hbuf = some b →
    records (m.heap b).data m.d.hlen = some (m.hcaught.map (recordOf m.d.bufsize hdrlen))

section inv

variable {m : Bufs}

theorem Inv.buffersOk (h : Inv m) : BuffersOk m where
  slots := h.slots
  slen a ha := Nat.le_trans h.slen (h.sizes a (.inl ha))
  hlen b hb := Nat.le_trans h.hlen (h.sizes b (.inr (.inl hb)))
  room hdrlen hif := by
    have := (h.hdr hdrlen hif).2
    have := h.bufsize.1
    omega
  stored := h.stored
  held := h.held

theorem Inv.attached (h : Inv m) (hm : m.d.hbuf ≠ none ∨ m.d.slen ≠ 0) : m.d.bdBif ≠ none := by
  intro hnone
  obtain ⟨hhold, hlen, -⟩ := h.unattached hnone
  exact hm.elim (fun hne => hne hhold) (fun hne => hne hlen)

theorem Inv.rotate (h : Inv m) (hif : m.d.bdBif ≠ none) (hhold : m.d.hbuf = none) :
    Inv (rotateBuffers m) := by
  obtain ⟨a, b, hne, ha, hslots⟩ := h.slots (.inl hif)
  have hb : m.d.fbuf = some b := by
    rcases hslots with ⟨hb, -⟩ | ⟨-, hb⟩
    · rw [hhold] at hb
      exact absurd hb nofun
    · exact hb
  have hin : ∀ b, InSlot (rotateBuffers m) b → InSlot m b := by
    rintro b (hb | hb | hb)
    · exact .inr (.inr hb)
    · exact .inl hb
    · exact absurd hb nofun
  exact {
    bufsize := h.bufsize
    hdr := h.hdr
    unattached := fun hnone => absurd hnone hif
    slots := fun _ => ⟨b, a, hne.symm, hb, .inl ⟨ha, rfl⟩⟩
    fresh := fun b hb => h.fresh b (hin b hb)
    sizes := fun b hb => h.sizes b (hin b hb)
    slen := Nat.zero_le _
    hlen := h.slen
    stored := fun _ _ _ _ => records_zero _
    held := h.stored }

theorem Shape.reset (h : Shape m) : Inv (resetD m) := by
  have hin : ∀ b, InSlot (resetD m) b → InSlot m b := by
    rintro b (hb | hb | hb)
    · exact .inl hb
    · exact absurd hb nofun
    · change (if m.d.hbuf.isSome then m.d.hbuf else m.d.fbuf) = some b at hb
      split_ifs at hb
      · exact .inr (.inl hb)
      · exact .inr (.inr hb)
  exact {
    bufsize := h.bufsize
    hdr := h.hdr
    unattached := fun _ => ⟨rfl, rfl, rfl⟩
    slots := fun halloc => by
      obtain ⟨a, b, hne, ha, hslots⟩ := h.slots halloc
      refine ⟨a, b, hne, ha, .inr ⟨rfl, ?_⟩⟩
      change (if m.d.hbuf.isSome then m.d.hbuf else m.d.fbuf) = some b
      rcases hslots with ⟨hb, -⟩ | ⟨hb, hf⟩
      · rw [hb]
        rfl
      · rw [hb]
        exact hf
    fresh := fun b hb => h.fresh b (hin b hb)
    sizes := fun b hb => h.sizes b (hin b hb)
    slen := Nat.zero_le _
    hlen := Nat.zero_le _
    stored := fun _ _ _ _ => records_zero _
    held := fun _ _ _ hb => absurd hb nofun }

theorem Inv.freeHold (h : Inv m) (hhold : m.d.hbuf ≠ none) : Inv (freeHold m) := by
  have hif := h.attached (.inl hhold)
  have hin : ∀ b, InSlot (Device.freeHold m) b → InSlot m b := by
    rintro b (hb | hb | hb)
    · exact .inl hb
    · exact absurd hb nofun
    · exact .inr (.inl hb)
  exact {
    bufsize := h.bufsize
    hdr := h.hdr
    unattached := fun hnone => absurd hnone hif
    slots := fun halloc => by
      obtain ⟨a, b, hne, ha, hslots⟩ := h.slots halloc
      rcases hslots with ⟨hb, -⟩ | ⟨hb, -⟩
      · exact ⟨a, b, hne, ha, .inr ⟨rfl, hb⟩⟩
      · exact absurd hb hhold
    fresh := fun b hb => h.fresh b (hin b hb)
    sizes := fun b hb => h.sizes b (hin b hb)
    slen := h.slen
    hlen := Nat.zero_le _
    stored := h.stored
    held := fun _ _ _ hb => absurd hb nofun }

end inv

/-! ## A packet -/

/-- The records in the store buffer. -/
def storeRecords (m : Bufs) : Option (List Record) :=
  m.d.sbuf.bind fun a => records (m.heap a).data m.d.slen

/-- The records in the hold buffer. -/
def holdRecords (m : Bufs) : Option (List Record) :=
  m.d.hbuf.bind fun b => records (m.heap b).data m.d.hlen

/-- The record `r` is stored: behind those in the store buffer, or alone in the other buffer, with what was
in the store buffer in the hold slot now.
Source: catchpacket -/
def StoredOnce (m m' : Bufs) (r : Record) : Prop :=
  m'.d.dcount = m.d.dcount ∧
    ((holdRecords m' = holdRecords m ∧ ∃ rs, storeRecords m = some rs ∧ storeRecords m' = some (rs ++ [r])) ∨
      m.d.hbuf = none ∧ holdRecords m' = storeRecords m ∧ storeRecords m' = some [r])

/-- The packet is counted in `bd_dcount`, and the buffers are as they were.
Source: catchpacket -/
def Counted (m m' : Bufs) : Prop :=
  m'.d.dcount = m.d.dcount + 1 ∧ holdRecords m' = holdRecords m ∧ storeRecords m' = storeRecords m

section catch_

variable {m : Bufs} {hdrlen : ℕ} {c : Caught}

theorem totlen_eq {bufsize : ℕ} (h : hdrlen ≤ bufsize) :
    totlen bufsize hdrlen c = hdrlen + (recordOf bufsize hdrlen c).caplen := by
  unfold totlen recordOf
  dsimp only
  split <;> omega

theorem records_append (h : Inv m) (hif : m.d.bdBif = some hdrlen) {a : ℕ} (ha : m.d.sbuf = some a)
    {rs : List Record} (hrs : records (m.heap a).data m.d.slen = some rs) :
    records ((append m hdrlen (wordAlign m.d.slen) (totlen m.d.bufsize hdrlen c) c).heap a).data
        (wordAlign m.d.slen + totlen m.d.bufsize hdrlen c) =
      some (rs ++ [recordOf m.d.bufsize hdrlen c]) := by
  obtain ⟨hlo, hhi⟩ := h.hdr hdrlen hif
  obtain ⟨hmin, hmax⟩ := h.bufsize
  have htot := @totlen_eq hdrlen c m.d.bufsize (by omega)
  obtain ⟨cap, hcap⟩ : ∃ cap, cap = (recordOf m.d.bufsize hdrlen c).caplen := ⟨_, rfl⟩
  have hcap' : cap = min (min c.snaplen c.pkt.length) (m.d.bufsize - hdrlen) := hcap
  have hdiff : ((totlen m.d.bufsize hdrlen c : ℕ) : ℤ) - hdrlen = cap := by
    rw [htot, ← hcap]
    omega
  have hnat : (BitVec.ofInt 32 cap).toNat = cap := by
    rw [BitVec.ofInt_natCast, BitVec.toNat_ofNat]
    omega
  have hput := @records_putRecord (m.heap a).data c.tstamp cap c.pkt.length hdrlen m.d.slen
    (c.pkt.take cap) rs hrs hlo (by omega) (by omega) (by rw [List.length_take]; omega)
  unfold append
  dsimp only
  rw [if_pos ha, hdiff, hnat, Int.toNat_natCast, htot, ← hcap, ← Nat.add_assoc, hput]
  unfold recordOf
  rw [← hcap']

theorem heap_append_of_ne {a b curlen tot : ℕ} (ha : m.d.sbuf = some a) (hne : a ≠ b) :
    (append m hdrlen curlen tot c).heap b = m.heap b :=
  if_neg fun hb => hne (some.inj (ha.symm.trans hb))

theorem size_append (b curlen tot : ℕ) :
    ((append m hdrlen curlen tot c).heap b).size = (m.heap b).size := by
  unfold append
  dsimp only
  split <;> rfl

section

variable (h : Inv m) (hif : m.d.bdBif = some hdrlen)
include h hif

theorem Inv.append (hfit : wordAlign m.d.slen + totlen m.d.bufsize hdrlen c ≤ m.d.bufsize) :
    Inv (append m hdrlen (wordAlign m.d.slen) (totlen m.d.bufsize hdrlen c) c) := by
  have hne : m.d.bdBif ≠ none := by
    rw [hif]
    nofun
  obtain ⟨a, b, hab, ha, hslots⟩ := h.slots (.inl hne)
  exact {
    bufsize := h.bufsize
    hdr := h.hdr
    unattached := fun hnone => absurd hnone hne
    slots := fun _ => ⟨a, b, hab, ha, hslots⟩
    fresh := h.fresh
    sizes := fun b hb => by
      rw [size_append]
      exact h.sizes b hb
    slen := hfit
    hlen := h.hlen
    stored := fun hdrlen' a' hif' ha' => by
      obtain rfl : hdrlen = hdrlen' := some.inj (hif.symm.trans hif')
      obtain rfl : a = a' := some.inj (ha.symm.trans ha')
      refine (records_append h hif ha (h.stored hdrlen a hif ha)).trans ?_
      change _ = some ((m.scaught ++ [c]).map (recordOf m.d.bufsize hdrlen))
      rw [List.map_append]
      rfl
    held := fun hdrlen' b' hif' hb' => by
      have hab' : a ≠ b' := by
        rcases hslots with ⟨hb, -⟩ | ⟨hb, -⟩
        · obtain rfl : b = b' := some.inj (hb.symm.trans hb')
          exact hab
        · exact absurd (hb.symm.trans hb') nofun
      rw [heap_append_of_ne ha hab']
      exact h.held hdrlen' b' hif' hb' }

theorem storedOnce_append :
    holdRecords (Device.append m hdrlen (wordAlign m.d.slen) (totlen m.d.bufsize hdrlen c) c) =
        holdRecords m ∧
      ∃ rs, storeRecords m = some rs ∧
        storeRecords (Device.append m hdrlen (wordAlign m.d.slen) (totlen m.d.bufsize hdrlen c) c) =
          some (rs ++ [recordOf m.d.bufsize hdrlen c]) := by
  have hne : m.d.bdBif ≠ none := by
    rw [hif]
    nofun
  obtain ⟨a, b, hab, ha, hslots⟩ := h.slots (.inl hne)
  have hrs := h.stored hdrlen a hif ha
  refine ⟨?_, m.scaught.map (recordOf m.d.bufsize hdrlen), ?_, ?_⟩
  · unfold holdRecords
    change m.d.hbuf.bind _ = _
    rcases hslots with ⟨hb, -⟩ | ⟨hb, -⟩
    · rw [hb, bind_some, bind_some, heap_append_of_ne ha hab]
      rfl
    · rw [hb]
      rfl
  · rw [storeRecords, ha]
    exact hrs
  · unfold storeRecords
    change m.d.sbuf.bind _ = _
    rw [ha]
    exact records_append h hif ha hrs

theorem catchpacket_spec :
    Inv (catchpacket m hdrlen c) ∧
      (StoredOnce m (catchpacket m hdrlen c) (recordOf m.d.bufsize hdrlen c) ∨
        Counted m (catchpacket m hdrlen c)) := by
  have hne : m.d.bdBif ≠ none := by
    rw [hif]
    nofun
  have htot : totlen m.d.bufsize hdrlen c ≤ m.d.bufsize := by
    unfold totlen
    dsimp only
    split <;> omega
  unfold catchpacket
  by_cases hover : m.d.bufsize < wordAlign m.d.slen + totlen m.d.bufsize hdrlen c
  · rw [if_pos hover]
    by_cases hfree : m.d.fbuf = none
    · rw [if_pos hfree]
      exact ⟨⟨⟨h.bufsize, h.hdr, h.slots, h.fresh, h.sizes⟩, h.unattached, h.slen, h.hlen, h.stored,
        h.held⟩, .inr ⟨rfl, rfl, rfl⟩⟩
    rw [if_neg hfree]
    have hhold : m.d.hbuf = none := by
      obtain ⟨a, b, -, -, ⟨-, hf⟩ | ⟨hb, -⟩⟩ := h.slots (.inl hne)
      · exact absurd hf hfree
      · exact hb
    have hrot := h.rotate hne hhold
    have hzero : wordAlign (rotateBuffers m).d.slen = 0 := show wordAlign 0 = 0 by decide
    have happ := @Inv.append (rotateBuffers m) hdrlen c hrot hif (by
      rw [hzero, Nat.zero_add]
      exact htot)
    obtain ⟨hhold', rs, hrs, hstore⟩ := @storedOnce_append (rotateBuffers m) hdrlen c hrot hif
    rw [hzero] at happ hhold' hstore
    refine ⟨happ, .inl ⟨rfl, .inr ⟨hhold, hhold', ?_⟩⟩⟩
    have hnil : rs = [] := by
      obtain ⟨a, b, -, -, ⟨-, hf⟩ | ⟨-, hf⟩⟩ := h.slots (.inl hne)
      · exact absurd hf hfree
      have hempty : storeRecords (rotateBuffers m) = some [] := by
        change m.d.fbuf.bind _ = _
        rw [hf]
        rfl
      exact some.inj (hrs.symm.trans hempty)
    rw [hnil] at hstore
    exact hstore
  · rw [if_neg hover]
    obtain ⟨hhold, rs, hrs, hstore⟩ := @storedOnce_append m hdrlen c h hif
    exact ⟨h.append hif (Nat.not_lt.mp hover), .inl ⟨rfl, .inl ⟨hhold, rs, hrs, hstore⟩⟩⟩

end

theorem Inv.tap (h : Inv m) : Inv (bpfTap m c) := by
  unfold bpfTap
  cases hif : m.d.bdBif with
  | none => exact h
  | some hdrlen =>
    have hcount : Inv { m with d := { m.d with rcount := m.d.rcount + 1 } } :=
      ⟨⟨h.bufsize, h.hdr, h.slots, h.fresh, h.sizes⟩, h.unattached, h.slen, h.hlen, h.stored, h.held⟩
    dsimp only
    split
    · exact hcount
    · exact (catchpacket_spec hcount hif).1

end catch_

/-! ## Allocation -/

section alloc

variable {m : Bufs} {size : ℕ}

theorem heap_malloc {b : ℕ} (hb : b < m.fresh) : (malloc m size).heap b = m.heap b :=
  if_neg (Nat.ne_of_lt hb)

theorem size_malloc : ((malloc m size).heap m.fresh).size = size := by
  change (if m.fresh = m.fresh then _ else m.heap m.fresh : Buffer).size = size
  rw [if_pos rfl]

theorem Inv.allocF (h : Inv m) (hsize : m.d.bufsize ≤ size) (hhold : m.d.hbuf = none) :
    Inv { malloc m size with d := { m.d with fbuf := some m.fresh } } := by
  have hin : ∀ b, InSlot { malloc m size with d := { m.d with fbuf := some m.fresh } } b →
      b = m.fresh ∨ InSlot m b := by
    rintro b (hb | hb | hb)
    · exact .inr (.inl hb)
    · exact .inr (.inr (.inl hb))
    · exact .inl (some.inj hb).symm
  exact {
    bufsize := h.bufsize
    hdr := h.hdr
    unattached := h.unattached
    slots := fun halloc => by
      obtain ⟨a, b, hab, ha, -⟩ := h.slots halloc
      have hlt := h.fresh a (.inl ha)
      exact ⟨a, m.fresh, Nat.ne_of_lt hlt, ha, .inr ⟨hhold, rfl⟩⟩
    fresh := fun b hb => by
      rcases hin b hb with rfl | hb
      · exact Nat.lt_succ_self _
      · exact Nat.lt_succ_of_lt (h.fresh b hb)
    sizes := fun b hb => by
      rcases hin b hb with rfl | hb
      · exact Nat.le_trans hsize (Nat.le_of_eq size_malloc.symm)
      · change m.d.bufsize ≤ ((malloc m size).heap b).size
        rw [heap_malloc (h.fresh b hb)]
        exact h.sizes b hb
    slen := h.slen
    hlen := h.hlen
    stored := fun hdrlen a hif ha => by
      rw [heap_malloc (h.fresh a (.inl ha))]
      exact h.stored hdrlen a hif ha
    held := fun hdrlen b hif hb => absurd (hhold.symm.trans hb) nofun }

theorem Inv.allocS (h : Inv m) (hsize : m.d.bufsize ≤ size) (hslen : m.d.slen = 0)
    (hfree : m.d.fbuf ≠ none ∨ Allocated m) :
    Inv { malloc m size with d := { m.d with sbuf := some m.fresh } } := by
  have hin : ∀ b, InSlot { malloc m size with d := { m.d with sbuf := some m.fresh } } b →
      b = m.fresh ∨ InSlot m b := by
    rintro b (hb | hb | hb)
    · exact .inl (some.inj hb).symm
    · exact .inr (.inr (.inl hb))
    · exact .inr (.inr (.inr hb))
  have hother : ∃ b, (m.d.hbuf = some b ∧ m.d.fbuf = none) ∨ (m.d.hbuf = none ∧ m.d.fbuf = some b) := by
    by_cases halloc : Allocated m
    · obtain ⟨a, b, -, -, hslots⟩ := h.slots halloc
      exact ⟨b, hslots⟩
    obtain ⟨b, hb⟩ := ne_none_iff_exists'.mp (hfree.resolve_right halloc)
    have hif : m.d.bdBif = none := by
      by_contra hne
      exact halloc (.inl hne)
    exact ⟨b, .inr ⟨(h.unattached hif).1, hb⟩⟩
  exact {
    bufsize := h.bufsize
    hdr := h.hdr
    unattached := h.unattached
    slots := fun _ => by
      obtain ⟨b, hslots⟩ := hother
      have hlt : b < m.fresh := by
        rcases hslots with ⟨hb, -⟩ | ⟨-, hb⟩
        · exact h.fresh b (.inr (.inl hb))
        · exact h.fresh b (.inr (.inr hb))
      exact ⟨m.fresh, b, (Nat.ne_of_lt hlt).symm, rfl, hslots⟩
    fresh := fun b hb => by
      rcases hin b hb with rfl | hb
      · exact Nat.lt_succ_self _
      · exact Nat.lt_succ_of_lt (h.fresh b hb)
    sizes := fun b hb => by
      rcases hin b hb with rfl | hb
      · exact Nat.le_trans hsize (Nat.le_of_eq size_malloc.symm)
      · change m.d.bufsize ≤ ((malloc m size).heap b).size
        rw [heap_malloc (h.fresh b hb)]
        exact h.sizes b hb
    slen := h.slen
    hlen := h.hlen
    stored := fun hdrlen a hif _ => by
      -- nothing has been caught, since the store buffer that was there is empty
      have hne : m.d.bdBif ≠ none := by
        rw [show m.d.bdBif = some hdrlen from hif]
        nofun
      obtain ⟨a', -, -, ha', -⟩ := h.slots (.inl hne)
      have hold := h.stored hdrlen a' hif ha'
      rw [hslen, records_zero] at hold
      rw [hslen, records_zero]
      exact hold
    held := fun hdrlen b hif hb => by
      rw [heap_malloc (h.fresh b (.inr (.inl hb)))]
      exact h.held hdrlen b hif hb }

theorem Inv.setBlen (h : Inv m)
    (hfit : m.d.bdBif = none → ∀ b, InSlot m b → clampSize size ≤ (m.heap b).size) :
    Inv (setBlen m size) := by
  unfold Device.setBlen
  cases hif : m.d.bdBif with
  | some hdrlen => exact h
  | none =>
    obtain ⟨hhold, hslen, hhlen⟩ := h.unattached hif
    have hclamp : 32 ≤ clampSize size ∧ clampSize size ≤ 32768 := by
      unfold clampSize
      split_ifs <;> omega
    exact {
      bufsize := hclamp
      hdr := h.hdr
      unattached := h.unattached
      slots := h.slots
      fresh := h.fresh
      sizes := hfit hif
      slen := Nat.le_trans (Nat.le_of_eq hslen) (Nat.zero_le _)
      hlen := Nat.le_trans (Nat.le_of_eq hhlen) (Nat.zero_le _)
      stored := fun hdrlen _ hif' => absurd (hif.symm.trans hif') nofun
      held := fun hdrlen _ hif' => absurd (hif.symm.trans hif') nofun }

end alloc

/-! ## Processes -/

/-- What is so of a process at a place. -/
def PcOk (m : Bufs) : Pc → Prop
  | .allocF hdrlen size => HdrOk hdrlen ∧ m.d.bufsize ≤ size
  | .allocS hdrlen size => HdrOk hdrlen ∧ m.d.bufsize ≤ size ∧ (m.d.fbuf ≠ none ∨ Allocated m)
  | .clearS hdrlen => HdrOk hdrlen ∧ m.d.sbuf ≠ none
  | .clearH hdrlen => HdrOk hdrlen ∧ m.d.sbuf ≠ none
  | .attach hdrlen => HdrOk hdrlen ∧ m.d.sbuf ≠ none
  | _ => True

/-- What processes rely on is kept. -/
structure Keeps (m m' : Bufs) : Prop where
  bufsize : m'.d.bufsize = m.d.bufsize
  sbuf : m.d.sbuf ≠ none → m'.d.sbuf ≠ none
  free : m.d.fbuf ≠ none ∨ Allocated m → m'.d.fbuf ≠ none ∨ Allocated m'

/-- What every step keeps. -/
structure StateInv (s : State) : Prop where
  bufs : Inv s.m
  procs : ∀ p, PcOk s.m (s.pc p)

section procs

variable {m m' : Bufs} {s : State}

theorem PcOk.keeps (hk : Keeps m m') {pc : Pc} (h : PcOk m pc) : PcOk m' pc := by
  cases pc with
  | allocF hdrlen size => exact ⟨h.1, hk.bufsize ▸ h.2⟩
  | allocS hdrlen size => exact ⟨h.1, hk.bufsize ▸ h.2.1, hk.free h.2.2⟩
  | clearS hdrlen => exact ⟨h.1, hk.sbuf h.2⟩
  | clearH hdrlen => exact ⟨h.1, hk.sbuf h.2⟩
  | attach hdrlen => exact ⟨h.1, hk.sbuf h.2⟩
  | idle => trivial
  | sleeping => trivial
  | copying => trivial

theorem StateInv.bufs_change (h : StateInv s) (hm : Inv m') (hk : Keeps s.m m') :
    StateInv { s with m := m' } :=
  ⟨hm, fun p => (h.procs p).keeps hk⟩

theorem StateInv.goto (h : StateInv s) {p : ℕ} {pc : Pc} (hpc : PcOk s.m pc) : StateInv (goto s p pc) := by
  refine ⟨h.bufs, fun q => ?_⟩
  change PcOk s.m (if q = p then pc else s.pc q)
  split_ifs
  · exact hpc
  · exact h.procs q

theorem StateInv.moved (h : StateInv s) (hm : Inv m') (hk : Keeps s.m m') {p : ℕ} {pc : Pc}
    (hpc : PcOk m' pc) : StateInv (moved s m' p pc) :=
  (h.bufs_change hm hk).goto hpc

theorem keeps_of_attached (hm : Inv m') (hif : m'.d.bdBif ≠ none)
    (hsize : m'.d.bufsize = m.d.bufsize) : Keeps m m' := by
  refine ⟨hsize, fun _ => ?_, fun _ => .inr (.inl hif)⟩
  obtain ⟨a, -, -, ha, -⟩ := hm.slots (.inl hif)
  rw [ha]
  nofun

theorem StateInv.rotate (h : StateInv s) (hslen : s.m.d.slen ≠ 0) (hhold : ¬ s.m.d.hbuf.isSome = true)
    (p : ℕ) : StateInv (Device.moved s (rotateBuffers s.m) p .copying) := by
  have hif := h.bufs.attached (.inr hslen)
  have hrot := h.bufs.rotate hif (not_isSome_iff_eq_none.mp hhold)
  exact h.moved hrot (keeps_of_attached hrot hif rfl) trivial

theorem StateInv.readLoop (h : StateInv s) (p : ℕ) (ndelay : Bool) : StateInv (readLoop s p ndelay) := by
  unfold Device.readLoop
  split_ifs with hhold hnd hslen himm
  · exact h.goto trivial
  · exact h.goto trivial
  · exact h.rotate hslen hhold p
  · exact h.rotate himm.2 hhold p
  · exact h.goto trivial

theorem StateInv.wake (h : StateInv s) (p : ℕ) (w : Wake) : StateInv (wake s p w) := by
  cases w with
  | woken => exact h.readLoop p false
  | interrupted => exact h.goto trivial
  | wouldblock =>
    unfold Device.wake
    split_ifs with hhold hslen
    · exact h.goto trivial
    · exact h.goto trivial
    · exact h.rotate hslen hhold p

theorem keeps_tap (h : Inv m) (c : Caught) : Keeps m (bpfTap m c) := by
  have htap := @Inv.tap m c h
  cases hif : m.d.bdBif with
  | none =>
    unfold bpfTap
    rw [hif]
    exact ⟨rfl, id, id⟩
  | some hdrlen =>
    have hsame : (bpfTap m c).d.bdBif = some hdrlen ∧ (bpfTap m c).d.bufsize = m.d.bufsize := by
      unfold bpfTap
      rw [hif]
      dsimp only
      split
      · exact ⟨hif, rfl⟩
      unfold catchpacket
      dsimp only
      split
      · split
        · exact ⟨hif, rfl⟩
        · exact ⟨hif, rfl⟩
      · exact ⟨hif, rfl⟩
    refine keeps_of_attached htap ?_ hsame.2
    rw [hsame.1]
    nofun

theorem keeps_reset (m : Bufs) : Keeps m (resetD m) := by
  refine ⟨rfl, id, Or.imp (fun hf => ?_) id⟩
  change (if m.d.hbuf.isSome then m.d.hbuf else m.d.fbuf) ≠ none
  split_ifs with hhold
  · exact isSome_iff_ne_none.mp hhold
  · exact hf

end procs

/-! ## A run -/

/-- The step finds what it expects: `bpfread` a buffer in the hold slot when its `uiomove` ends, since no
other `bpfread` and no reset has taken it; `bpf_allocbufs` nothing in the hold slot when it stores its first
buffer and nothing caught when it stores its second; and `BIOCSBLEN` no buffer smaller than the new size,
whether in a slot or being allocated. -/
def Expected (s : State) : Event → Prop
  | .readDone p => s.pc p = .copying → s.m.d.hbuf ≠ none
  | .goOn p => (∀ hdrlen size, s.pc p = .allocF hdrlen size → s.m.d.hbuf = none) ∧
      ∀ hdrlen size, s.pc p = .allocS hdrlen size → s.m.d.slen = 0
  | .setBlen size => s.m.d.bdBif = none →
      (∀ b, InSlot s.m b → clampSize size ≤ (s.m.heap b).size) ∧
        ∀ q hdrlen n, s.pc q = .allocF hdrlen n ∨ s.pc q = .allocS hdrlen n → clampSize size ≤ n
  | _ => True

section step

variable {s : State}

theorem StateInv.goOn (h : StateInv s) {p : ℕ} (he : Expected s (.goOn p)) : StateInv (goOn s p) := by
  have hpc := h.procs p
  unfold Device.goOn
  cases hp : s.pc p with
  | idle => exact h
  | sleeping => exact h
  | copying => exact h
  | allocF hdrlen size =>
    rw [hp] at hpc
    have hm := h.bufs.allocF hpc.2 (he.1 hdrlen size hp)
    exact h.moved hm ⟨rfl, id, fun _ => .inl nofun⟩ ⟨hpc.1, Nat.le_refl _, .inl nofun⟩
  | allocS hdrlen size =>
    rw [hp] at hpc
    have hm := h.bufs.allocS hpc.2.1 (he.2 hdrlen size hp) hpc.2.2
    exact h.moved hm ⟨rfl, fun _ => nofun, fun _ => .inr (.inr nofun)⟩ ⟨hpc.1, nofun⟩
  | clearS hdrlen =>
    rw [hp] at hpc
    have hm : Inv { s.m with d := { s.m.d with slen := 0 }, scaught := [] } :=
      ⟨⟨h.bufs.bufsize, h.bufs.hdr, h.bufs.slots, h.bufs.fresh, h.bufs.sizes⟩,
        fun hnone => ⟨(h.bufs.unattached hnone).1, rfl, (h.bufs.unattached hnone).2.2⟩, Nat.zero_le _,
        h.bufs.hlen, fun _ _ _ _ => records_zero _, h.bufs.held⟩
    exact h.moved hm ⟨rfl, id, id⟩ hpc
  | clearH hdrlen =>
    rw [hp] at hpc
    have hm : Inv { s.m with d := { s.m.d with hlen := 0 }, hcaught := [] } :=
      ⟨⟨h.bufs.bufsize, h.bufs.hdr, h.bufs.slots, h.bufs.fresh, h.bufs.sizes⟩,
        fun hnone => ⟨(h.bufs.unattached hnone).1, (h.bufs.unattached hnone).2.1, rfl⟩, h.bufs.slen,
        Nat.zero_le _, h.bufs.stored, fun _ _ _ _ => records_zero _⟩
    exact h.moved hm ⟨rfl, id, id⟩ hpc
  | attach hdrlen =>
    rw [hp] at hpc
    have hshape : Shape { s.m with d := { s.m.d with bdBif := some hdrlen } } :=
      ⟨h.bufs.bufsize, fun hdrlen' heq => some.inj heq ▸ hpc.1,
        fun _ => h.bufs.slots (.inr hpc.2), h.bufs.fresh, h.bufs.sizes⟩
    exact h.moved hshape.reset (keeps_of_attached hshape.reset nofun rfl) trivial

theorem StateInv.step (h : StateInv s) {e : Event} (he : Expected s e) : StateInv (step s e) := by
  cases e with
  | tap c => exact h.bufs_change h.bufs.tap (keeps_tap h.bufs c)
  | reset => exact h.bufs_change h.bufs.toShape.reset (keeps_reset s.m)
  | immediate b =>
    exact h.bufs_change ⟨⟨h.bufs.bufsize, h.bufs.hdr, h.bufs.slots, h.bufs.fresh, h.bufs.sizes⟩,
      h.bufs.unattached, h.bufs.slen, h.bufs.hlen, h.bufs.stored, h.bufs.held⟩ ⟨rfl, id, id⟩
  | goOn p => exact h.goOn he
  | read p ndelay =>
    unfold Device.step
    dsimp only
    split
    · exact h.readLoop p ndelay
    · exact h
  | wake p w =>
    unfold Device.step
    dsimp only
    split
    · exact h.wake p w
    · exact h
  | readDone p =>
    unfold Device.step
    dsimp only
    split
    · next hp =>
        have hhold := he hp
        have hm := h.bufs.freeHold hhold
        exact h.moved hm (keeps_of_attached hm (h.bufs.attached (.inl hhold)) rfl) trivial
    · exact h
  | setBlen size =>
    have hm := @Inv.setBlen s.m size h.bufs fun hif => (he hif).1
    refine ⟨hm, fun q => ?_⟩
    change PcOk (setBlen s.m size) (s.pc q)
    have hq := h.procs q
    unfold Device.setBlen
    cases hif : s.m.d.bdBif with
    | some hdrlen => exact hq
    | none =>
      have hfit := (he hif).2 q
      cases hp : s.pc q with
      | allocF hdrlen n =>
        rw [hp] at hq
        exact ⟨hq.1, hfit hdrlen n (.inl hp)⟩
      | allocS hdrlen n =>
        rw [hp] at hq
        exact ⟨hq.1, hfit hdrlen n (.inr hp), hq.2.2⟩
      | clearS hdrlen =>
        rw [hp] at hq
        exact hq
      | clearH hdrlen =>
        rw [hp] at hq
        exact hq
      | attach hdrlen =>
        rw [hp] at hq
        exact hq
      | idle => trivial
      | sleeping => trivial
      | copying => trivial
  | setif p linkHdrlen =>
    unfold Device.step
    dsimp only
    split
    · unfold setif
      split
      · exact h.goto ⟨hdrOk_bifHdrlen linkHdrlen, Nat.le_refl _⟩
      · next hs => exact h.goto ⟨hdrOk_bifHdrlen linkHdrlen, hs⟩
    · exact h

theorem stateInv_start : StateInv start where
  bufs := {
    bufsize := by decide
    hdr := fun _ h => absurd h nofun
    slots := fun h => h.elim (fun h => absurd rfl h) (fun h => absurd rfl h)
    fresh := fun _ h => h.elim nofun fun h => h.elim nofun nofun
    sizes := fun _ h => h.elim nofun fun h => h.elim nofun nofun
    unattached := fun _ => ⟨rfl, rfl, rfl⟩
    slen := Nat.zero_le _
    hlen := Nat.zero_le _
    stored := fun _ _ h => absurd h nofun
    held := fun _ _ h => absurd h nofun }
  procs _ := trivial

end step

/-- The states that are reached by steps that find what they expect. -/
abbrev ReachExpected : State → Prop :=
  Transition.Reach (· = start) fun s s' => ∃ e, Expected s e ∧ s' = step s e

/-- **The buffers of a descriptor**, in every state that is reached by steps that find what they expect; and
what happens then to a packet that the filter accepts. Kind: P. -/
theorem buffers_of_reach {s : State} (h : ReachExpected s) :
    BuffersOk s.m ∧ ∀ (c : Caught) hdrlen, s.m.d.bdBif = some hdrlen → c.snaplen ≠ 0 →
      StoredOnce s.m (step s (.tap c)).m (recordOf s.m.d.bufsize hdrlen c) ∨
        Counted s.m (step s (.tap c)).m := by
  have hinv : StateInv s := by
    refine h.invariant (fun s hs => hs ▸ stateInv_start) fun s t _ hs hnext => ?_
    obtain ⟨e, he, rfl⟩ := hnext
    exact hs.step he
  refine ⟨hinv.bufs.buffersOk, fun c hdrlen hif hsnap => ?_⟩
  have h := hinv.bufs
  have hcount : Inv { s.m with d := { s.m.d with rcount := s.m.d.rcount + 1 } } :=
    ⟨⟨h.bufsize, h.hdr, h.slots, h.fresh, h.sizes⟩, h.unattached, h.slen, h.hlen, h.stored, h.held⟩
  have hcatch := (@catchpacket_spec _ hdrlen c hcount hif).2
  change StoredOnce s.m (bpfTap s.m c) _ ∨ Counted s.m (bpfTap s.m c)
  unfold bpfTap
  rw [hif]
  dsimp only
  rw [if_neg hsnap]
  exact hcatch

def oneByte : Caught := ⟨fun _ => 0, 96, [0]⟩

/-- An interface is set. Source: bpf_setif. -/
def opened : List Event := [.setif 0 14, .goOn 0, .goOn 0, .goOn 0, .goOn 0, .goOn 0]

/-- Two processes read one hold buffer; then a packet comes, and is read.
Source: bpfread. -/
def twoReaders : List Event :=
  opened ++ [.tap oneByte, .read 1 true, .read 2 true, .readDone 1, .readDone 2, .tap oneByte, .read 1 true]

theorem reach_opened : ReachExpected (opened.foldl step start) := by
  have hgo : ∀ s, ReachExpected s → s.m.d.hbuf = none → s.m.d.slen = 0 →
      ReachExpected (step s (.goOn 0)) := fun s hs hhold hslen =>
    .step hs ⟨.goOn 0, ⟨fun _ _ _ => hhold, fun _ _ _ => hslen⟩, rfl⟩
  have hset : ReachExpected (step start (.setif 0 14)) :=
    .step (.start rfl) ⟨.setif 0 14, show True from trivial, rfl⟩
  exact hgo _ (hgo _ (hgo _ (hgo _ (hgo _ hset rfl rfl) rfl rfl) rfl rfl) rfl rfl) rfl rfl

/-- With an interface, and a packet. Kind: C -/
theorem buffers_opened : BuffersOk (opened.foldl step start).m ∧
    ∀ (c : Caught) hdrlen, (opened.foldl step start).m.d.bdBif = some hdrlen → c.snaplen ≠ 0 →
      StoredOnce (opened.foldl step start).m (step (opened.foldl step start) (.tap c)).m
          (recordOf (opened.foldl step start).m.d.bufsize hdrlen c) ∨
        Counted (opened.foldl step start).m (step (opened.foldl step start) (.tap c)).m :=
  buffers_of_reach reach_opened

/-- The second reader has lost the buffer that the first one freed, and rotating has made `bd_sbuf` null.
Source: bpfread. Kind: C -/
theorem not_forall_buffers : ¬ ∀ es : List Event, BuffersOk (es.foldl step start).m := by
  intro h
  obtain ⟨a, -, -, ha, -⟩ := (h twoReaders).slots (.inl (by decide))
  have hnull : (twoReaders.foldl step start).m.d.sbuf = none := by decide
  exact absurd (hnull.symm.trans ha) nofun

end Bsd386.Net.Bpf.Device
