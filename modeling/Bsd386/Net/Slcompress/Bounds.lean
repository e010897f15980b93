import Bsd386.Net.Slcompress.Uncompress

/-!
# Arbitrary frames: which accesses stay in bounds

Any sequence of frames, of any type and with any bytes, each handed to one of the two receivers,
from `sl_compress_init` on. `Bounded r`: the run did not end in an access outside the arrays.

The invariant: every saved length is at most `MAX_HDR`, and after the first frame `last_recv` is
an index or frames are being tossed (`Ready`).
-/

namespace Bsd386.Net.Slcompress

open Lib.Bytes

/-! ## Frames -/

/-- A received frame: its type and bytes, and which of the two functions gets it.
Source: slintr; ppp_input -/
inductive Frame where
  | flat (type : BitVec 32) (buf : Buf)
  | chain (type : BitVec 32) (m : Chain) (mget : Option Mem)

def Frame.type : Frame → BitVec 32
  | flat type _ => type
  | chain type _ _ => type

def Frame.mem : Frame → Mem
  | flat _ buf => buf.mem
  | chain _ m _ => m.mem

def recv (comp : Slcompress) : Frame → Except Fault Slcompress
  | .flat type buf => (slUncompressTcp buf type comp).map Received.comp
  | .chain type m mget => (slMuncompressTcp m mget type comp).map Mreceived.comp

def recvAll : Slcompress → List Frame → Except Fault Slcompress
  | comp, [] => .ok comp
  | comp, f :: fs =>
    match recv comp f with
    | .error e => .error e
    | .ok comp' => recvAll comp' fs

/-- The faults that are an access outside `rstate` or outside the bytes of a `cstate`. -/
def Fault.outOfBounds : Fault → Bool
  | .rstateIndex _ => true
  | .overrun _ => true
  | .panic => false
  | .noReturn => false

def Bounded (r : Except Fault Slcompress) : Prop := ∀ e, r = .error e → e.outOfBounds = false

/-! ## The frames that matter -/

/-- A compressed frame without a connection id.
Source: sl_uncompress_tcp -/
def ImplicitIndex (f : Frame) : Prop := f.type = typeCompressedTcp ∧ f.mem 0 &&& newC = 0

/-- An uncompressed frame for a valid connection id. -/
def ForSlot (f : Frame) : Prop := f.type = typeUncompressedTcp ∧ (f.mem 9).toNat < maxStates

/-- An uncompressed frame on the flat path whose headers are longer than `MAX_HDR`.
Source: sl_uncompress_tcp -/
def Overlong : Frame → Prop
  | .flat type buf => ForSlot (.flat type buf) ∧ maxHdr < hdrLen buf.mem
  | .chain .. => False

/-- An uncompressed frame whose chain is shorter than its headers: `m_copydata` panics.
Source: sl_muncompress_tcp; m_copydata -/
def Panics : Frame → Prop
  | .flat .. => False
  | .chain type m mget => ForSlot (.chain type m mget) ∧ hdrLen m.mem ≤ maxHdr ∧
      m.bytes.length < hdrLen m.mem

/-- No frame that is processed is overlong; after a panic none is. -/
def NoOverlong (fs : List Frame) : Prop :=
  ∀ pre f post, fs = pre ++ f :: post → (∀ g ∈ pre, ¬ Panics g) → ¬ Overlong f

theorem noOverlong_cons {f : Frame} {fs : List Frame} :
    NoOverlong (f :: fs) ↔ ¬ Overlong f ∧ (¬ Panics f → NoOverlong fs) := by
  constructor
  · intro h
    refine ⟨h [] f fs rfl (by simp), ?_⟩
    intro hp pre g post heq hpre
    refine h (f :: pre) g post (by rw [heq]; rfl) ?_
    intro g' hg'
    rcases List.mem_cons.mp hg' with rfl | hg'
    · exact hp
    · exact hpre g' hg'
  · rintro ⟨hf, hfs⟩ pre g post heq hpre
    cases pre with
    | nil =>
      obtain ⟨rfl, rfl⟩ := List.cons.inj heq
      exact hf
    | cons f' pre =>
      obtain ⟨rfl, rfl⟩ := List.cons.inj heq
      exact hfs (hpre f (by simp)) pre g post rfl fun g' hg' => hpre g' (by simp [hg'])

/-! ## The invariant -/

/-- Every saved header is within `MAX_HDR`. -/
def HlenOk (comp : Slcompress) : Prop := ∀ i, (comp.rstate i).csHlen ≤ maxHdr

/-- An implicit index is never used out of range: it is one, or the frame is tossed. -/
def Ready (comp : Slcompress) : Prop := comp.toss = true ∨ comp.lastRecv.toNat < maxStates

theorem hdrLen_set8_proto (h : Mem) (v : Byte) : hdrLen (set8 h 9 v) = hdrLen h := by
  have hhl : ipHl (set8 h 9 v) = ipHl h := by
    rw [ipHl, set8_apply_of_ne v (by omega), ipHl]
  have hth : th (set8 h 9 v) = th h := by
    rw [th, hhl, th]
  rw [hdrLen, hhl, hth, thOff, set8_apply_of_ne v (by unfold th; omega), hdrLen, thOff]

theorem slot?_of_lt {i : Byte} (h : i.toNat < maxStates) : slot? i = some ⟨i.toNat, h⟩ :=
  dif_pos h

theorem slot?_of_ge {i : Byte} (h : ¬ i.toNat < maxStates) : slot? i = none := dif_neg h

theorem HlenOk.setRstate {comp : Slcompress} (h : HlenOk comp) (i : Slot) {cs : Rstate}
    (hcs : cs.csHlen ≤ maxHdr) : HlenOk (Slcompress.setRstate comp i cs) := by
  intro j
  by_cases hji : j = i
  · subst hji
    simpa [Slcompress.setRstate] using hcs
  · simpa [Slcompress.setRstate, Function.update_of_ne hji] using h j

theorem selectState_go {mem : Mem} {comp comp' : Slcompress} {cp : ℕ}
    (h : selectState mem comp = .go comp' cp) (hr : Ready comp ∨ mem 0 &&& newC ≠ 0) :
    comp'.lastRecv.toNat < maxStates ∧ comp'.rstate = comp.rstate := by
  rw [selectState] at h
  split_ifs at h with hc hlt ht
  · obtain ⟨rfl, -⟩ := Selected.go.inj h
    exact ⟨by simpa using hlt, rfl⟩
  obtain ⟨rfl, -⟩ := Selected.go.inj h
  rcases hr with (hr | hr) | hr
  · exact absurd hr ht
  · exact ⟨hr, rfl⟩
  · exact absurd hr hc

/-! ## One frame -/

/-- The three ways a frame can go: overrun, panic, or a new state with the invariant. -/
def Outcome (f : Frame) (r : Except Fault Slcompress) : Prop :=
  (Overlong f ∧ ∃ n, r = .error (.overrun n)) ∨
    (Panics f ∧ r = .error .panic) ∨
    (¬ Overlong f ∧ ¬ Panics f ∧ ∃ comp', r = .ok comp' ∧ HlenOk comp' ∧ Ready comp')

variable {comp : Slcompress}

theorem not_overlong_panics {f : Frame} (h : ¬ ForSlot f) : ¬ Overlong f ∧ ¬ Panics f := by
  cases f with
  | flat type buf => exact ⟨fun ho => h ho.1, fun hp => hp⟩
  | chain type m mget => exact ⟨fun ho => ho, fun hp => h hp.1⟩

theorem recvUncompressed_outcome (hinv : HlenOk comp) (buf : Buf) :
    Outcome (.flat typeUncompressedTcp buf)
      ((recvUncompressed buf comp).map Received.comp) := by
  unfold recvUncompressed
  by_cases hi : (buf.mem 9).toNat < maxStates
  · rw [slot?_of_lt hi]
    simp only [hdrLen_set8_proto]
    by_cases hlen : maxHdr < hdrLen buf.mem
    · rw [if_pos hlen]
      exact .inl ⟨⟨⟨rfl, hi⟩, hlen⟩, _, rfl⟩
    rw [if_neg hlen]
    refine .inr (.inr ⟨fun ho => hlen ho.2, fun hp => hp, _, rfl, ?_, .inr hi⟩)
    have hinv' : HlenOk { comp with lastRecv := buf.mem 9, toss := false } := hinv
    exact hinv'.setRstate _ (Nat.not_lt.mp hlen)
  · rw [slot?_of_ge hi]
    have hslot : ¬ ForSlot (.flat typeUncompressedTcp buf) := fun h => hi h.2
    exact .inr (.inr ⟨(not_overlong_panics hslot).1, (not_overlong_panics hslot).2, _, rfl, hinv,
      .inl rfl⟩)

theorem mrecvUncompressed_outcome (hinv : HlenOk comp) (m : Chain) (mget : Option Mem) :
    Outcome (.chain typeUncompressedTcp m mget)
      ((mrecvUncompressed m comp).map Mreceived.comp) := by
  unfold mrecvUncompressed
  by_cases hi : (m.mem 9).toNat < maxStates
  · rw [slot?_of_lt hi]
    simp only [hdrLen_set8_proto]
    have hbytes : (Chain.bytes { m with mem := set8 m.mem 9 ipprotoTcp }).length =
        m.bytes.length := by
      simp [Chain.bytes]
    by_cases hlen : maxHdr < hdrLen m.mem
    · rw [if_pos hlen]
      exact .inr (.inr ⟨fun ho => ho, fun hp => Nat.not_lt.mpr hp.2.1 hlen, _, rfl, hinv,
        .inl rfl⟩)
    rw [if_neg hlen, hbytes]
    by_cases hshort : m.bytes.length < hdrLen m.mem
    · rw [if_pos hshort]
      exact .inr (.inl ⟨⟨⟨rfl, hi⟩, Nat.not_lt.mp hlen, hshort⟩, rfl⟩)
    rw [if_neg hshort]
    refine .inr (.inr ⟨fun ho => ho, fun hp => hshort hp.2.2, _, rfl, ?_, .inr hi⟩)
    have hinv' : HlenOk { comp with lastRecv := m.mem 9, toss := false } := hinv
    exact hinv'.setRstate _ (Nat.not_lt.mp hlen)
  · rw [slot?_of_ge hi]
    have hslot : ¬ ForSlot (.chain typeUncompressedTcp m mget) := fun h => hi h.2
    exact .inr (.inr ⟨(not_overlong_panics hslot).1, (not_overlong_panics hslot).2, _, rfl, hinv,
      .inl rfl⟩)

theorem recvCompressed_ok (hinv : HlenOk comp) (hi : comp.lastRecv.toNat < maxStates) (buf : Buf)
    (cp : ℕ) :
    ∃ comp', (recvCompressed buf comp cp).map Received.comp = .ok comp' ∧ HlenOk comp' ∧
      Ready comp' := by
  unfold recvCompressed
  rw [slot?_of_lt hi]
  have hlen := hinv ⟨comp.lastRecv.toNat, hi⟩
  dsimp only
  split_ifs with hshort hover
  · exact ⟨_, rfl, hinv.setRstate _ hlen, .inl rfl⟩
  · exact absurd hover (Nat.not_lt.mpr hlen)
  · exact ⟨_, rfl, hinv.setRstate _ hlen, .inr hi⟩

theorem mrecvCompressed_ok (hinv : HlenOk comp) (hi : comp.lastRecv.toNat < maxStates) (m : Chain)
    (mget : Option Mem) (cp : ℕ) :
    ∃ comp', (mrecvCompressed m mget comp cp).map Mreceived.comp = .ok comp' ∧ HlenOk comp' ∧
      Ready comp' := by
  unfold mrecvCompressed
  rw [slot?_of_lt hi]
  have hlen := hinv ⟨comp.lastRecv.toNat, hi⟩
  simp only [if_neg (Nat.not_lt.mpr hlen)]
  split_ifs with hshort
  · exact ⟨_, rfl, hinv.setRstate _ hlen, .inl rfl⟩
  · split
    · exact ⟨_, rfl, hinv.setRstate _ hlen, .inl rfl⟩
    · exact ⟨_, rfl, hinv.setRstate _ hlen, .inr hi⟩

/-- **One frame.** From a state with the invariant, a frame that does not rely on a missing index
overruns, panics, or keeps the invariant. -/
theorem recv_outcome (hinv : HlenOk comp) {f : Frame} (hr : Ready comp ∨ ¬ ImplicitIndex f) :
    Outcome f (recv comp f) := by
  -- what is not an uncompressed frame for a slot is decided by its resulting state alone
  have hother : f.type ≠ typeUncompressedTcp →
      (∃ comp', recv comp f = .ok comp' ∧ HlenOk comp' ∧ Ready comp') → Outcome f (recv comp f) :=
    fun ht h => .inr (.inr ⟨(not_overlong_panics fun hs => ht hs.1).1,
      (not_overlong_panics fun hs => ht hs.1).2, h⟩)
  have hgo : f.type = typeCompressedTcp → ∀ {comp' : Slcompress} {cp : ℕ},
      selectState f.mem comp = .go comp' cp →
        comp'.lastRecv.toNat < maxStates ∧ HlenOk comp' := by
    intro ht comp' cp hs
    obtain ⟨hlt, hrs⟩ := selectState_go hs (hr.imp id fun h h0 => h ⟨ht, h0⟩)
    exact ⟨hlt, by unfold HlenOk; rw [hrs]; exact hinv⟩
  cases f with
  | flat type buf =>
    by_cases hu : type = typeUncompressedTcp
    · subst hu
      exact recvUncompressed_outcome hinv buf
    refine hother hu ?_
    simp only [recv, slUncompressTcp, if_neg hu]
    by_cases hc : type = typeCompressedTcp
    · rw [if_pos hc]
      cases hs : selectState buf.mem comp with
      | bad => exact ⟨_, rfl, hinv, .inl rfl⟩
      | tossed =>
        refine ⟨_, rfl, hinv, .inl ?_⟩
        rw [selectState] at hs
        split_ifs at hs with h1 h2 h3
        exact h3
      | go comp' cp =>
        obtain ⟨hlt, hok⟩ := hgo hc hs
        exact recvCompressed_ok hok hlt buf cp
    · rw [if_neg hc]
      exact ⟨_, rfl, hinv, .inl rfl⟩
  | chain type m mget =>
    by_cases hu : type = typeUncompressedTcp
    · subst hu
      exact mrecvUncompressed_outcome hinv m mget
    refine hother hu ?_
    simp only [recv, slMuncompressTcp, if_neg hu]
    by_cases hc : type = typeCompressedTcp
    · rw [if_pos hc]
      cases hs : selectState m.mem comp with
      | bad => exact ⟨_, rfl, hinv, .inl rfl⟩
      | tossed =>
        refine ⟨_, rfl, hinv, .inl ?_⟩
        rw [selectState] at hs
        split_ifs at hs with h1 h2 h3
        exact h3
      | go comp' cp =>
        obtain ⟨hlt, hok⟩ := hgo hc hs
        exact mrecvCompressed_ok hok hlt m mget cp
    · rw [if_neg hc]
      exact ⟨_, rfl, hinv, .inl rfl⟩

/-! ## Whole runs -/

theorem bounded_cons_iff {f : Frame} {fs : List Frame} (h : Outcome f (recv comp f))
    (ih : ∀ comp', HlenOk comp' → Ready comp' → (Bounded (recvAll comp' fs) ↔ NoOverlong fs)) :
    Bounded (recvAll comp (f :: fs)) ↔ NoOverlong (f :: fs) := by
  rw [noOverlong_cons, recvAll]
  rcases h with ⟨ho, n, hr⟩ | ⟨hp, hr⟩ | ⟨hno, hnp, comp', hr, hinv, hready⟩
  · rw [hr]
    refine iff_of_false (fun hb => ?_) fun h => h.1 ho
    exact Bool.noConfusion (hb (.overrun n) rfl)
  · have hno : ¬ Overlong f := by
      cases f with
      | flat type buf => exact hp.elim
      | chain type m mget => exact fun ho => ho
    rw [hr]
    refine iff_of_true ?_ ⟨hno, fun h => absurd hp h⟩
    intro e he
    cases he
    rfl
  · rw [hr]
    exact (ih comp' hinv hready).trans ⟨fun h => ⟨hno, fun _ => h⟩, fun h => h.2 hnp⟩

theorem recvAll_bounded_iff_of_ready (fs : List Frame) (hinv : HlenOk comp) (hr : Ready comp) :
    Bounded (recvAll comp fs) ↔ NoOverlong fs := by
  induction fs generalizing comp with
  | nil =>
    refine iff_of_true (fun e he => ?_) fun pre f post h => ?_
    · cases he
    · cases pre <;> cases h
  | cons f fs ih => exact bounded_cons_iff (recv_outcome hinv (.inl hr)) fun _ h1 h2 => ih h1 h2

theorem recv_init_implicit {f : Frame} (h : ImplicitIndex f) :
    recv slCompressInit f = .error (.rstateIndex 255) := by
  have hne : ¬ typeCompressedTcp = typeUncompressedTcp := by decide
  have hsel : selectState f.mem slCompressInit = .go slCompressInit 1 := by
    rw [selectState, if_neg (not_not.mpr h.2), if_neg (by decide)]
  cases f with
  | flat type buf =>
    obtain rfl : type = typeCompressedTcp := h.1
    change selectState buf.mem slCompressInit = _ at hsel
    simp only [recv, slUncompressTcp, if_neg hne, if_pos, hsel]
    rfl
  | chain type m mget =>
    obtain rfl : type = typeCompressedTcp := h.1
    change selectState m.mem slCompressInit = _ at hsel
    simp only [recv, slMuncompressTcp, if_neg hne, if_pos, hsel]
    rfl

/-- **Runs from `sl_compress_init`** stay in bounds exactly when the first frame does not rely on
an index nobody sent and no processed frame on the flat path is overlong.
Source: sl_compress_init, sl_uncompress_tcp, sl_muncompress_tcp Kind: C -/
theorem recvAll_bounded_iff (fs : List Frame) :
    Bounded (recvAll slCompressInit fs) ↔
      (∀ f, fs.head? = some f → ¬ ImplicitIndex f) ∧ NoOverlong fs := by
  have hinv : HlenOk slCompressInit := fun i => Nat.zero_le maxHdr
  cases fs with
  | nil =>
    refine iff_of_true (fun e he => ?_) ⟨fun f hf => ?_, fun pre f post h => ?_⟩
    · cases he
    · cases hf
    · cases pre <;> cases h
  | cons f fs =>
    by_cases hf : ImplicitIndex f
    · refine iff_of_false (fun hb => ?_) fun h => h.1 f rfl hf
      rw [recvAll, recv_init_implicit hf] at hb
      exact Bool.noConfusion (hb _ rfl)
    rw [bounded_cons_iff (recv_outcome hinv (.inr hf)) fun _ h1 h2 =>
      recvAll_bounded_iff_of_ready fs h1 h2]
    refine ⟨fun h => ⟨fun f' hf' => ?_, h⟩, fun h => h.2⟩
    obtain rfl : f = f' := Option.some.inj hf'
    exact hf

/-- One compressed frame of zero bytes after `sl_compress_init` reads outside `rstate`.
Source: sl_compress_init, sl_uncompress_tcp Kind: C -/
theorem not_forall_recvAll_bounded :
    ¬ ∀ fs : List Frame, Bounded (recvAll slCompressInit fs) := by
  intro h
  have hb := h [.flat typeCompressedTcp { addr := 0, mem := fun _ => 0, len := 4 }]
  have hr : recvAll slCompressInit
      [.flat typeCompressedTcp { addr := 0, mem := fun _ => 0, len := 4 }] =
        .error (.rstateIndex 255) := by
    rw [recvAll, recv_init_implicit ⟨rfl, by decide⟩]
  exact Bool.noConfusion (hb _ hr)

end Bsd386.Net.Slcompress
