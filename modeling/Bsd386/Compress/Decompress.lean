import Bsd386.Lib.Bytes
import Mathlib.Tactic.Linarith

/-!
# The decoder of `compress`

`decompress` and `getcode` of `usr.bin/compress/compress.c`, for a machine of 4-byte `long`. A step reads one
code, or a clear code and the one behind it, and each index and each push is asked for its bound.
-/

namespace Bsd386.Compress

open Lib.Bytes List

/-! ## The code -/

/-- Source: Makefile (USERMEM), with which it is 16 -/
def BITS : ℕ := 16

/-- The part of `htab` behind `tab_suffix`, in characters. Source: HSIZE, de_stack -/
def STACK : ℕ := 69001 * 4 - 2 ^ BITS

/-- Source: INIT_BITS -/
def INIT_BITS : ℕ := 9

/-- Source: FIRST, CLEAR -/
def CLEAR : ℕ := 256

/-- `maxbits` and `block_compress`. Source: main -/
structure Header where
  maxbits : ℕ
  block : Bool

/-- Source: maxmaxcode -/
def Header.maxmaxcode (h : Header) : ℕ := 2 ^ h.maxbits

/-- The first entry that is no character: `FIRST`, or 256. Source: decompress -/
def Header.first (h : Header) : ℕ := if h.block then CLEAR + 1 else 256

/-- A `size` below 0 is 0 here: no offset is below either. Source: getcode, decompress -/
structure State where
  stdin : List Byte
  buf : List Byte
  offset : ℕ
  size : ℕ
  clearFlg : Bool
  nBits : ℕ
  maxcode : ℕ
  freeEnt : ℕ
  tabPrefix : ℕ → BitVec 16
  tabSuffix : ℕ → Byte
  finchar : Byte
  oldcode : ℕ
  out : List Byte

/-- What a call of `getcode` does. -/
inductive Got where
  | fault
  | eof
  | code (c : ℕ) (s : State)

/-- The code in the buffer; none when an index is not below `BITS`. Source: getcode -/
def codeAt (buf : List Byte) (offset nBits : ℕ) : Option ℕ := do
  let b0 ← buf[offset / 8]?
  let code := b0.toNat >>> (offset % 8)
  let rOff := 8 - offset % 8
  let bits := nBits - rOff
  let b1 ← buf[offset / 8 + 1]?
  if 8 ≤ bits then
    let b2 ← buf[offset / 8 + 2]?
    return code ||| b1.toNat <<< rOff ||| (b2.toNat &&& (2 ^ (bits - 8) - 1)) <<< (rOff + 8)
  else return code ||| (b1.toNat &&& (2 ^ bits - 1)) <<< rOff

/-- The next code has one bit more. Source: getcode -/
def wider (h : Header) (s : State) : State :=
  { s with
    nBits := s.nBits + 1
    maxcode := if s.nBits + 1 = h.maxbits then h.maxmaxcode else 2 ^ (s.nBits + 1) - 1 }

/-- The width of the codes in the next buffer. Source: getcode -/
def widen (h : Header) (s : State) : State :=
  let s := if s.maxcode < s.freeEnt then wider h s else s
  if s.clearFlg then { s with nBits := INIT_BITS, maxcode := 2 ^ INIT_BITS - 1, clearFlg := false } else s

/-- The `fread`, of which `n` characters come. Source: getcode -/
def fill (s : State) (n : ℕ) : State :=
  { s with
    buf := s.stdin.take n ++ s.buf.drop n
    stdin := s.stdin.drop n
    offset := 0
    size := 8 * n - (s.nBits - 1) }

/-- The buffer is used up. Source: getcode -/
def Stale (s : State) : Prop := s.clearFlg = true ∨ s.size ≤ s.offset ∨ s.maxcode < s.freeEnt

instance (s : State) : Decidable (Stale s) := inferInstanceAs (Decidable (_ ∨ _ ∨ _))

/-- The state that the next code is taken from. Source: getcode -/
def ready (h : Header) (s : State) : State :=
  if Stale s then fill (widen h s) (min (widen h s).nBits s.stdin.length) else s

/-- Source: getcode -/
def getcode (h : Header) (s : State) : Got :=
  if Stale s ∧ s.stdin = [] then .eof
  else if Stale s ∧ BITS < min (widen h s).nBits s.stdin.length then .fault
  else
    match codeAt (ready h s).buf (ready h s).offset (ready h s).nBits with
    | none => .fault
    | some c => .code c { ready h s with offset := (ready h s).offset + (ready h s).nBits }

/-- The characters of a code, with `room` places left on the stack; none when there is no place or the
code is no index. Source: decompress -/
def unwind (s : State) : ℕ → List Byte → ℕ → Option (List Byte × Byte)
  | 0, _, _ => none
  | room + 1, stack, code =>
    if 2 ^ BITS ≤ code then none
    else if 256 ≤ code then unwind s room (s.tabSuffix code :: stack) (s.tabPrefix code).toNat
    else some (s.tabSuffix code :: stack, s.tabSuffix code)

/-- The decoder at the head of its loop, or when it has ended. -/
inductive Status where
  | fault
  | more (s : State)
  | done (out : List Byte)

/-- The new entry. Source: decompress -/
def enter (h : Header) (incode : ℕ) (s : State) : Status :=
  if s.freeEnt < h.maxmaxcode then
    if 2 ^ BITS ≤ s.freeEnt then .fault
    else .more
      { s with
        tabPrefix := Function.update s.tabPrefix s.freeEnt (BitVec.ofNat 16 s.oldcode)
        tabSuffix := Function.update s.tabSuffix s.freeEnt s.finchar
        freeEnt := s.freeEnt + 1
        oldcode := incode }
  else .more { s with oldcode := incode }

/-- The loop's body behind the clear code. Source: decompress -/
def put (h : Header) (incode : ℕ) (s : State) : Status :=
  match if s.freeEnt ≤ incode then unwind s (STACK - 1) [s.finchar] s.oldcode else unwind s STACK [] incode with
  | none => .fault
  | some (stack, finchar) => enter h incode { s with out := s.out ++ stack, finchar := finchar }

/-- Source: decompress -/
def clear (s : State) : State :=
  { s with
    tabPrefix := fun c => if c < 256 then 0 else s.tabPrefix c
    clearFlg := true
    freeEnt := CLEAR }

/-- Source: decompress -/
def step (h : Header) (s : State) : Status :=
  match getcode h s with
  | .fault => .fault
  | .eof => .done s.out
  | .code c t =>
    if c = CLEAR ∧ h.block then
      match getcode h (clear t) with
      | .fault => .fault
      | .eof => .done s.out
      | .code c t => put h c t
    else put h c t

/-- What the static variables hold when a file is begun: at the end of the last one `fread` gave none. -/
structure Left where
  buf : List Byte
  length_buf : buf.length = BITS
  offset : ℕ
  tabPrefix : ℕ → BitVec 16
  tabSuffix : ℕ → Byte

/-- Source: decompress -/
def init (h : Header) (l : Left) (stdin : List Byte) : State :=
  { stdin := stdin, buf := l.buf, offset := l.offset, size := 0, clearFlg := false
    nBits := INIT_BITS, maxcode := 2 ^ INIT_BITS - 1
    freeEnt := h.first
    tabPrefix := fun c => if c < 256 then 0 else l.tabPrefix c
    tabSuffix := fun c => if c < 256 then BitVec.ofNat 8 c else l.tabSuffix c
    finchar := 0, oldcode := 0, out := [] }

/-- The first code. Source: decompress -/
def start (h : Header) (s : State) : Status :=
  match getcode h s with
  | .fault => .fault
  | .eof => .done s.out
  | .code c t => .more { t with finchar := BitVec.ofNat 8 c, oldcode := c, out := [BitVec.ofNat 8 c] }

/-- At most `n` rounds of the loop. Source: decompress -/
def run (h : Header) : ℕ → Status → Status
  | n + 1, .more s => run h n (step h s)
  | _, r => r

/-- The decoder gets to the end of the file. Source: none: what is claimed. -/
def Survives (h : Header) (l : Left) (stdin : List Byte) : Prop :=
  ∃ n out, run h n (start h (init h l stdin)) = .done out

/-! ## The codes that are safe -/

/-- The next code is as `ok` says, and is not the last of a buffer that codes of `BITS` bits fill. -/
def NextCode (h : Header) (s : State) (ok : ℕ → Prop) : Prop :=
  (getcode h s = .eof ∨ (ready h s).offset + (ready h s).nBits < 8 * BITS) ∧
    ∀ c t, getcode h s = .code c t → ok c

/-- The code is an entry, or the one that is made next. -/
def Names (h : Header) (s : State) (c : ℕ) : Prop :=
  c < s.freeEnt ∨ c = s.freeEnt ∧ c < h.maxmaxcode

/-- What the loop reads is safe: a code, and a character behind a clear code. -/
def Tame (h : Header) (s : State) : Prop :=
  NextCode h s (fun c => c = CLEAR ∧ h.block ∨ Names h s c) ∧
    ∀ t, getcode h s = .code CLEAR t → h.block = true → NextCode h (clear t) (· < 256)

/-! ## The invariant -/

/-- A character or an entry that was made since the last clear code. -/
def Entry (h : Header) (s : State) (c : ℕ) : Prop := c < 256 ∨ h.first ≤ c ∧ c < s.freeEnt

/-- The variables at each call of `getcode`. -/
structure Inv (h : Header) (s : State) : Prop where
  buf : s.buf.length = BITS
  size : s.size ≤ 8 * BITS
  nBits : INIT_BITS ≤ s.nBits ∧ s.nBits ≤ BITS
  width : s.maxcode = 2 ^ s.nBits - 1 ∧ (s.nBits = h.maxbits → s.nBits = INIT_BITS) ∨
    s.nBits = h.maxbits ∧ s.maxcode = 2 ^ s.nBits
  freeEnt : 256 ≤ s.freeEnt ∧ s.freeEnt ≤ max 257 h.maxmaxcode
  entries : ∀ c, h.first ≤ c → c < s.freeEnt →
    (s.tabPrefix c).toNat < c ∧ ((s.tabPrefix c).toNat < 256 ∨ h.first ≤ (s.tabPrefix c).toNat)

variable {h : Header} {s : State}

theorem Header.maxmaxcode_le (hmax : h.maxbits ≤ BITS) : h.maxmaxcode ≤ 2 ^ BITS :=
  Nat.pow_le_pow_right two_pos hmax

theorem Inv.widen_inv (hinv : Inv h s) (hmax : h.maxbits ≤ BITS) : Inv h (widen h s) := by
  have hgrow : Inv h (if s.maxcode < s.freeEnt then wider h s else s) := by
    by_cases hlt : s.maxcode < s.freeEnt
    · have hpow : 2 ^ INIT_BITS ≤ 2 ^ s.nBits := Nat.pow_le_pow_right two_pos hinv.nBits.1
      have h512 : 2 ^ INIT_BITS = 512 := rfl
      have hfree := hinv.freeEnt.2
      obtain ⟨hcode, hnine⟩ | ⟨hbits, hcode⟩ := hinv.width
      · have hle : 2 ^ s.nBits ≤ h.maxmaxcode := by omega
        have hbits := (Nat.pow_le_pow_iff_right one_lt_two).mp hle
        have hsucc : s.nBits + 1 ≤ BITS := by
          rcases hbits.lt_or_eq with hbits | hbits
          · exact hbits.trans_le hmax
          · rw [hnine hbits]
            decide
        rw [if_pos hlt]
        refine ⟨hinv.buf, hinv.size, ⟨hinv.nBits.1.trans (Nat.le_succ _), hsucc⟩, ?_, hinv.freeEnt, hinv.entries⟩
        by_cases hlast : s.nBits + 1 = h.maxbits
        · exact .inr ⟨hlast, (if_pos hlast).trans (congrArg (2 ^ ·) hlast.symm)⟩
        · exact .inl ⟨if_neg hlast, fun h => absurd h hlast⟩
      · rw [Header.maxmaxcode, ← hbits] at hfree
        omega
    · rwa [if_neg hlt]
  unfold widen
  generalize (if s.maxcode < s.freeEnt then wider h s else s) = t at hgrow
  by_cases hclear : t.clearFlg
  · rw [if_pos hclear]
    exact ⟨hgrow.buf, hgrow.size, ⟨le_rfl, Nat.le_of_ble_eq_true rfl⟩, .inl ⟨rfl, fun _ => rfl⟩, hgrow.freeEnt, hgrow.entries⟩
  · rwa [if_neg hclear]

theorem widen_kept : (widen h s).freeEnt = s.freeEnt ∧ (widen h s).oldcode = s.oldcode ∧
    (widen h s).stdin = s.stdin := by
  unfold widen wider
  by_cases hlt : s.maxcode < s.freeEnt
  · simp only [if_pos hlt]
    split_ifs <;> exact ⟨rfl, rfl, rfl⟩
  · simp only [if_neg hlt]
    split_ifs <;> exact ⟨rfl, rfl, rfl⟩

def todo (s : State) : ℕ := (8 * BITS + 1) * s.stdin.length + (s.size - s.offset)

theorem Inv.ready_inv (hinv : Inv h s) (hmax : h.maxbits ≤ BITS) (heof : ¬(Stale s ∧ s.stdin = [])) :
    Inv h (ready h s) ∧ (ready h s).freeEnt = s.freeEnt ∧ (ready h s).oldcode = s.oldcode ∧
      todo { ready h s with offset := (ready h s).offset + (ready h s).nBits } < todo s := by
  by_cases hstale : Stale s
  · have hwide := hinv.widen_inv hmax
    obtain ⟨hfree, hold, hstdin⟩ := widen_kept (h := h) (s := s)
    rw [ready, if_pos hstale]
    generalize widen h s = t at hwide hfree hold hstdin ⊢
    have hpos : 0 < s.stdin.length := length_pos_iff.mpr fun h => heof ⟨hstale, h⟩
    have hbits := hwide.nBits
    have hnine : INIT_BITS = 9 := rfl
    refine ⟨⟨?_, ?_, hbits, hwide.width, hwide.freeEnt, hwide.entries⟩, hfree, hold, ?_⟩
    · rw [fill, length_append, length_take, length_drop, hwide.buf, hstdin]
      omega
    · simp only [fill]
      omega
    · simp only [todo, fill, length_drop, hstdin]
      rw [Nat.mul_sub]
      have hmul : 8 * BITS + 1 ≤ (8 * BITS + 1) * min t.nBits s.stdin.length :=
        Nat.le_mul_of_pos_right _ (by omega)
      have hmul' := Nat.mul_le_mul_left (8 * BITS + 1) (min_le_right t.nBits s.stdin.length)
      omega
  · have hpos := hinv.nBits.1
    rw [ready, if_neg hstale]
    refine ⟨hinv, rfl, rfl, ?_⟩
    have hsize : ¬s.size ≤ s.offset := fun h => hstale (.inr (.inl h))
    have hnine : INIT_BITS = 9 := rfl
    simp only [todo]
    omega

theorem codeAt_isSome {buf : List Byte} (hbuf : buf.length = BITS) {offset nBits : ℕ} (hbits : INIT_BITS ≤ nBits)
    (hin : offset + nBits < 8 * BITS) : (codeAt buf offset nBits).isSome := by
  have hnine : INIT_BITS = 9 := rfl
  have hsixteen : BITS = 16 := rfl
  obtain ⟨b, hb⟩ : ∃ b, buf[offset / 8]? = some b := ⟨_, getElem?_eq_getElem (by omega)⟩
  obtain ⟨b', hb'⟩ : ∃ b, buf[offset / 8 + 1]? = some b := ⟨_, getElem?_eq_getElem (by omega)⟩
  by_cases hmid : 8 ≤ nBits - (8 - offset % 8)
  · obtain ⟨b'', hb''⟩ : ∃ b, buf[offset / 8 + 2]? = some b := ⟨_, getElem?_eq_getElem (by omega)⟩
    simp [codeAt, hb, hb', hb'', hmid]
  · simp [codeAt, hb, hb', hmid]

theorem Inv.getcode_spec (hinv : Inv h s) (hmax : h.maxbits ≤ BITS) {ok : ℕ → Prop} (hnext : NextCode h s ok) :
    getcode h s = .eof ∨ ∃ c t, getcode h s = .code c t ∧ ok c ∧ Inv h t ∧ todo t < todo s ∧
      t.freeEnt = s.freeEnt ∧ t.oldcode = s.oldcode := by
  by_cases heof : Stale s ∧ s.stdin = []
  · exact .inl (if_pos heof)
  obtain ⟨hready, hfree, hold, hless⟩ := hinv.ready_inv hmax heof
  have hfit : ¬(Stale s ∧ BITS < min (widen h s).nBits s.stdin.length) := fun h =>
    absurd (h.2.trans_le (min_le_left _ _)) (not_lt.mpr (hinv.widen_inv hmax).nBits.2)
  have hget : getcode h s = match codeAt (ready h s).buf (ready h s).offset (ready h s).nBits with
      | none => .fault
      | some c => .code c { ready h s with offset := (ready h s).offset + (ready h s).nBits } := by
    rw [getcode, if_neg heof, if_neg hfit]
  rcases hnext.1 with heof' | hin
  · exact .inl heof'
  obtain ⟨c, hc⟩ := Option.isSome_iff_exists.mp (codeAt_isSome hready.buf hready.nBits.1 hin)
  rw [hc] at hget
  refine .inr ⟨c, _, hget, hnext.2 c _ hget, ?_, hless, hfree, hold⟩
  exact ⟨hready.buf, hready.size, hready.nBits, hready.width, hready.freeEnt, hready.entries⟩

theorem Inv.unwind_isSome (hinv : Inv h s) (hmax : h.maxbits ≤ BITS) {c room : ℕ} (hc : Entry h s c)
    (hroom : c < room + 255) (hpos : 0 < room) (stack : List Byte) : (unwind s room stack c).isSome := by
  induction room generalizing c stack with
  | zero => exact absurd hpos (lt_irrefl 0)
  | succ room ih =>
    have hfree := hinv.freeEnt.2
    have hmm := Header.maxmaxcode_le hmax
    have hbits : 2 ^ BITS = 65536 := rfl
    have hlt : c < 2 ^ BITS := by
      rcases hc with hc | hc <;> omega
    rw [unwind, if_neg (not_le.mpr hlt)]
    by_cases hchar : c < 256
    · rw [if_neg (not_le.mpr hchar)]
      rfl
    · obtain hc | ⟨hfirst, hent⟩ := hc
      · exact absurd hc hchar
      obtain ⟨hdown, hlink⟩ := hinv.entries c hfirst hent
      rw [if_pos (not_lt.mp hchar)]
      exact ih (hlink.imp_right fun h => ⟨h, hdown.trans hent⟩) (by omega) (by omega) _

theorem Inv.enter_spec (hinv : Inv h s) (hmax : h.maxbits ≤ BITS) {c : ℕ}
    (hc : Entry h s c ∨ c = s.freeEnt ∧ c < h.maxmaxcode ∧ h.first ≤ c)
    (hold : Entry h s s.oldcode ∨ s.freeEnt < h.first) :
    ∃ t, enter h c s = .more t ∧ Inv h t ∧ Entry h t t.oldcode ∧ todo t = todo s := by
  have hmm := Header.maxmaxcode_le hmax
  have hfree := hinv.freeEnt
  unfold enter
  by_cases hroom : s.freeEnt < h.maxmaxcode
  · rw [if_pos hroom, if_neg (not_le.mpr (hroom.trans_le hmm))]
    refine ⟨_, rfl, ⟨hinv.buf, hinv.size, hinv.nBits, hinv.width, ?_, fun e hfirst he => ?_⟩, ?_, rfl⟩
    · exact ⟨hfree.1.trans (Nat.le_succ _), le_max_of_le_right hroom⟩
    · dsimp only at he ⊢
      rcases (Nat.lt_succ_iff.mp he).lt_or_eq with hlt | rfl
      · rw [Function.update_of_ne hlt.ne]
        exact hinv.entries e hfirst hlt
      · have hold := hold.resolve_right (not_lt.mpr hfirst)
        have hlt : s.oldcode < s.freeEnt := hold.elim (·.trans_le hfree.1) (·.2)
        have hlink : (BitVec.ofNat 16 s.oldcode).toNat = s.oldcode :=
          Nat.mod_eq_of_lt ((hlt.trans hroom).trans_le hmm)
        rw [Function.update_self, hlink]
        exact ⟨hlt, hold.imp_right (·.1)⟩
    · rcases hc with hc | ⟨rfl, -, hfirst⟩
      · exact hc.imp_right fun hc => ⟨hc.1, Nat.lt_succ_of_lt hc.2⟩
      · exact .inr ⟨hfirst, Nat.lt_succ_self _⟩
  · rw [if_neg hroom]
    refine ⟨_, rfl, ⟨hinv.buf, hinv.size, hinv.nBits, hinv.width, hfree, hinv.entries⟩, ?_, rfl⟩
    rcases hc with hc | ⟨rfl, hlt, -⟩
    · exact hc
    · exact absurd hlt hroom

theorem Inv.put_spec (hinv : Inv h s) (hmax : h.maxbits ≤ BITS) {c : ℕ}
    (hc : Entry h s c ∨ c = s.freeEnt ∧ c < h.maxmaxcode ∧ h.first ≤ c) (hlow : c < s.freeEnt ∨ h.first ≤ s.freeEnt)
    (hold : Entry h s s.oldcode ∨ s.freeEnt < h.first) :
    ∃ t, put h c s = .more t ∧ Inv h t ∧ Entry h t t.oldcode ∧ todo t = todo s := by
  have hmm := Header.maxmaxcode_le hmax
  have hfree := hinv.freeEnt
  have hbits : 2 ^ BITS = 65536 := rfl
  have hstack : STACK = 210468 := rfl
  have hlt {e : ℕ} (he : Entry h s e) : e < STACK - 1 + 255 := by
    rcases he with he | he <;> omega
  have hsome : (if s.freeEnt ≤ c then unwind s (STACK - 1) [s.finchar] s.oldcode
      else unwind s STACK [] c).isSome := by
    by_cases hle : s.freeEnt ≤ c
    · have hold := hold.resolve_right (not_lt.mpr (hlow.resolve_left (not_lt.mpr hle)))
      rw [if_pos hle]
      exact hinv.unwind_isSome hmax hold (hlt hold) (by decide) _
    · have hc := hc.resolve_right fun h => hle h.1.ge
      rw [if_neg hle]
      exact hinv.unwind_isSome hmax hc (by have := hlt hc; omega) (by decide) _
  obtain ⟨⟨stack, finchar⟩, hunwind⟩ := Option.isSome_iff_exists.mp hsome
  unfold put
  rw [hunwind]
  have hinv' : Inv h { s with out := s.out ++ stack, finchar := finchar } :=
    ⟨hinv.buf, hinv.size, hinv.nBits, hinv.width, hinv.freeEnt, hinv.entries⟩
  exact hinv'.enter_spec hmax hc hold

theorem Inv.clear_inv (hinv : Inv h s) (hblock : h.block = true) : Inv h (clear s) := by
  refine ⟨hinv.buf, hinv.size, hinv.nBits, hinv.width, ⟨le_rfl, le_max_of_le_left (Nat.le_succ 256)⟩, ?_⟩
  intro c hfirst hc
  rw [Header.first, if_pos hblock] at hfirst
  exact absurd hc (not_lt.mpr ((Nat.le_succ _).trans hfirst))

theorem Inv.step_spec (hinv : Inv h s) (hmax : h.maxbits ≤ BITS) (hold : Entry h s s.oldcode) (htame : Tame h s) :
    (∃ out, step h s = .done out) ∨
      ∃ t, step h s = .more t ∧ Inv h t ∧ Entry h t t.oldcode ∧ todo t < todo s := by
  unfold step
  rcases hinv.getcode_spec hmax htame.1 with heof | ⟨c, t, hget, hok, hinv', hless, hfree, hold'⟩
  · rw [heof]
    exact .inl ⟨_, rfl⟩
  rw [hget]
  by_cases hclear : c = CLEAR ∧ h.block = true
  · obtain ⟨rfl, hblock⟩ := hclear
    have hfirst : h.first = 257 := if_pos hblock
    simp only [hblock, and_self, if_true]
    rcases (hinv'.clear_inv hblock).getcode_spec hmax (htame.2 t hget hblock) with
      heof | ⟨c, u, hget', hchar, hinv'', hless', hfree', -⟩
    · rw [heof]
      exact .inl ⟨_, rfl⟩
    · have h256 : u.freeEnt = 256 := hfree'
      obtain ⟨v, hput, hv, hent, htodo⟩ := hinv''.put_spec hmax (.inl (.inl hchar)) (.inl (h256 ▸ hchar))
        (.inr (by omega))
      rw [hget']
      exact .inr ⟨v, hput, hv, hent, htodo.trans_lt (hless'.trans hless)⟩
  · have hnames := hok.resolve_left hclear
    have hlow : c < 256 ∨ h.first ≤ c := by
      by_cases hb : h.block = true
      · have hne : c ≠ 256 := fun h => hclear ⟨h, hb⟩
        rw [Header.first, if_pos hb, CLEAR]
        omega
      · rw [Header.first, if_neg hb]
        exact lt_or_ge c 256
    have h256 := hinv.freeEnt.1
    simp only [if_neg hclear]
    obtain ⟨v, hput, hv, hent, htodo⟩ := hinv'.put_spec (c := c) hmax
      (by
        rw [Entry, hfree]
        rcases hnames with hlt | ⟨rfl, hlt⟩
        · exact .inl (hlow.imp_right fun h => ⟨h, hlt⟩)
        · exact .inr ⟨rfl, hlt, hlow.resolve_left (not_lt.mpr h256)⟩)
      (by
        rw [hfree]
        rcases hnames with hlt | ⟨rfl, hlt⟩
        · exact .inl hlt
        · exact .inr (hlow.resolve_left (not_lt.mpr h256)))
      (.inl (by rwa [Entry, hfree, hold']))
    exact .inr ⟨v, hput, hv, hent, htodo.trans_lt hless⟩

theorem Inv.run_done (hinv : Inv h s) (hmax : h.maxbits ≤ BITS) (hold : Entry h s s.oldcode)
    (htame : ∀ n t, run h n (.more s) = .more t → Tame h t) : ∃ n out, run h n (.more s) = .done out := by
  induction htodo : todo s using Nat.strong_induction_on generalizing s with
  | _ k ih =>
    rcases hinv.step_spec hmax hold (htame 0 s rfl) with ⟨out, hstep⟩ | ⟨t, hstep, ht, hent, hless⟩
    · exact ⟨1, out, hstep⟩
    have hrun (n : ℕ) : run h (n + 1) (.more s) = run h n (.more t) := congrArg (run h n) hstep
    obtain ⟨n, out, hdone⟩ := ih _ (htodo ▸ hless) ht hent (fun n u hu => htame (n + 1) u ((hrun n).trans hu)) rfl
    exact ⟨n + 1, out, (hrun n).trans hdone⟩

theorem init_inv (h : Header) (l : Left) (stdin : List Byte) : Inv h (init h l stdin) where
  buf := l.length_buf
  size := Nat.zero_le _
  nBits := ⟨le_rfl, Nat.le_of_ble_eq_true rfl⟩
  width := .inl ⟨rfl, fun _ => rfl⟩
  freeEnt := by
    dsimp only [init, Header.first, CLEAR]
    split_ifs <;> omega
  entries c hfirst hc := absurd hc (not_lt.mpr hfirst)

/-- The static variables when the program begins. -/
def fresh : Left := ⟨replicate BITS 0, rfl, 0, fun _ => 0, fun _ => 0⟩

theorem unwind_self {c : ℕ} (hc : 256 ≤ c) (hself : (s.tabPrefix c).toNat = c) (room : ℕ) (stack : List Byte) :
    unwind s room stack c = none := by
  induction room generalizing stack with
  | zero => rfl
  | succ room ih =>
    rw [unwind, if_pos hc, hself, ih, ite_self]

theorem run_add (m n : ℕ) (r : Status) : run h (m + n) r = run h n (run h m r) := by
  induction m generalizing r with
  | zero =>
    rw [Nat.zero_add]
    cases r <;> rfl
  | succ m ih =>
    rw [Nat.succ_add]
    cases r with
    | more s => exact ih _
    | fault => cases n <;> rfl
    | done out => cases n <;> rfl

end Bsd386.Compress
