import Bsd386.Net.Tcp.Basic

/-!
# TCP options

The loop of `tcp_dooptions` (`sys/netinet/tcp_input.c`), with the positions that it reads of the option
mbuf.

**Result** (`reads_lt_iff`): it reads inside the mbuf exactly when no option that it comes to is cut off:
one that is not a byte of padding has its length byte, and the maximum segment size of a SYN its four
bytes.
-/

namespace Bsd386.Net.Tcp

/-! ## The loop -/

/-- Source: tcp.h -/
def tcpoptEol : UInt8 := 0

/-- Source: tcp.h -/
def tcpoptNop : UInt8 := 1

/-- Source: tcp.h -/
def tcpoptMaxseg : UInt8 := 2

-- the memory from `mtod(om)` on, also behind the mbuf, and whether the segment has `TH_SYN`
variable (om : ℕ → UInt8) (syn : Bool)

/-- `optlen` of the option at `cp`; `none` where the loop breaks. Source: tcp_dooptions -/
def optlen (cp : ℕ) : Option ℕ :=
  if om cp = tcpoptEol then none
  else if om cp = tcpoptNop then some 1
  else if om (cp + 1) = 0 then none
  else some (om (cp + 1)).toNat

/-- Is the option at `cp` handed to `tcp_mss`? Source: tcp_dooptions -/
def offersMss (cp : ℕ) : Bool := om cp = tcpoptMaxseg && om (cp + 1) = 4 && syn

/-- The positions read for the option at `cp`. Source: tcp_dooptions -/
def optionReads (cp : ℕ) : List ℕ :=
  if om cp = tcpoptEol ∨ om cp = tcpoptNop then [cp]
  else if offersMss om syn cp then [cp, cp + 1, cp + 2, cp + 3]
  else [cp, cp + 1]

/-- What a call does: the positions it reads, and the values it hands to `tcp_mss`.
Source: tcp_dooptions -/
structure Dooptions where
  reads : List ℕ
  mss : List (BitVec 16)

theorem optlen_pos {cp n : ℕ} (h : optlen om cp = some n) : 0 < n := by
  unfold optlen at h
  split_ifs at h with h1 h2 h3
  · cases h
    exact Nat.one_pos
  · cases h
    exact Nat.pos_of_ne_zero fun h0 => h3 (UInt8.toNat_inj.mp h0)

/-- The loop, from `cp` on with `cnt` bytes left. Source: tcp_dooptions -/
def dooptionsLoop (cp cnt : ℕ) : Dooptions :=
  if cnt = 0 then ⟨[], []⟩
  else
    match _h : optlen om cp with
    | none => ⟨optionReads om syn cp, []⟩
    | some n =>
      let rest := dooptionsLoop (cp + n) (cnt - n)
      { reads := optionReads om syn cp ++ rest.reads
        mss := if offersMss om syn cp then
          ((om (cp + 2)).toBitVec ++ (om (cp + 3)).toBitVec) :: rest.mss else rest.mss }
termination_by cnt
decreasing_by
  have := optlen_pos om _h
  omega

/-- Source: tcp_dooptions -/
def tcpDooptions (mLen : ℕ) : Dooptions := dooptionsLoop om syn 0 mLen

/-! ## What it reads -/

/-- The loop comes to an option at this position. -/
inductive OptionAt (mLen : ℕ) : ℕ → Prop where
  | start : 0 < mLen → OptionAt mLen 0
  | next {cp n : ℕ} : OptionAt mLen cp → optlen om cp = some n → cp + n < mLen → OptionAt mLen (cp + n)

/-- The option at `cp` goes on behind the mbuf. -/
def CutOff (mLen cp : ℕ) : Prop :=
  om cp ≠ tcpoptEol ∧ om cp ≠ tcpoptNop ∧
    (mLen ≤ cp + 1 ∨ offersMss om syn cp = true ∧ mLen < cp + 4)

variable {om syn} {mLen : ℕ}

theorem OptionAt.lt {cp : ℕ} (h : OptionAt om mLen cp) : cp < mLen := by
  cases h with
  | start hpos => exact hpos
  | next _ _ hlt => exact hlt

theorem optionAt_of_mem {cp cnt i : ℕ} (hcnt : cp + cnt = mLen ∨ cnt = 0)
    (hcp : cnt ≠ 0 → OptionAt om mLen cp) (hi : i ∈ (dooptionsLoop om syn cp cnt).reads) :
    ∃ c, OptionAt om mLen c ∧ i ∈ optionReads om syn c := by
  fun_induction dooptionsLoop om syn cp cnt with
  | case1 => exact absurd hi List.not_mem_nil
  | case2 cp cnt hne hlen => exact ⟨cp, hcp hne, hi⟩
  | case3 cp cnt hne n hlen rest ih =>
    rcases List.mem_append.mp hi with hi | hi
    · exact ⟨cp, hcp hne, hi⟩
    · exact ih (by omega) (fun hne' => .next (hcp hne) hlen (by omega)) hi

theorem reads_dooptionsLoop {cp cnt : ℕ} (hcnt : cnt ≠ 0) {i : ℕ} :
    i ∈ (dooptionsLoop om syn cp cnt).reads ↔ i ∈ optionReads om syn cp ∨
      ∃ n, optlen om cp = some n ∧ i ∈ (dooptionsLoop om syn (cp + n) (cnt - n)).reads := by
  rw [dooptionsLoop, if_neg hcnt]
  split
  · next hlen => simp [hlen]
  · next n hlen => simp [hlen]

theorem OptionAt.mem_reads {cp : ℕ} (h : OptionAt om mLen cp) {i : ℕ}
    (hi : i ∈ (dooptionsLoop om syn cp (mLen - cp)).reads) : i ∈ (tcpDooptions om syn mLen).reads := by
  induction h with
  | start _ => exact hi
  | next hcp hlen _ ih =>
    refine ih ((reads_dooptionsLoop (by omega)).mpr (.inr ⟨_, hlen, ?_⟩))
    rwa [Nat.sub_sub]

theorem optionReads_lt_iff {cp : ℕ} (hcp : cp < mLen) :
    (∀ i ∈ optionReads om syn cp, i < mLen) ↔ ¬ CutOff om syn mLen cp := by
  unfold optionReads CutOff
  by_cases heol : om cp = tcpoptEol
  · simp [heol, hcp]
  by_cases hnop : om cp = tcpoptNop
  · simp [hnop, hcp]
  rw [if_neg (not_or.mpr ⟨heol, hnop⟩)]
  by_cases hmss : offersMss om syn cp = true
  · simp [heol, hnop, hmss]
    omega
  · simp [heol, hnop, hmss, hcp]

/-- **The loop reads inside the mbuf** exactly when no option that it comes to is cut off.
Source: tcp_dooptions. Kind: C -/
theorem reads_lt_iff (om : ℕ → UInt8) (syn : Bool) (mLen : ℕ) :
    (∀ i ∈ (tcpDooptions om syn mLen).reads, i < mLen) ↔
      ∀ cp, OptionAt om mLen cp → ¬ CutOff om syn mLen cp := by
  constructor
  · intro h cp hcp
    refine (optionReads_lt_iff hcp.lt).mp fun i hi => h i (hcp.mem_reads ?_)
    have := hcp.lt
    exact (reads_dooptionsLoop (by omega)).mpr (.inl hi)
  · intro h i hi
    obtain ⟨cp, hcp, hi⟩ := optionAt_of_mem (.inl (Nat.zero_add mLen))
      (fun hne => .start (Nat.pos_of_ne_zero hne)) hi
    exact (optionReads_lt_iff hcp.lt).mpr (h cp hcp) i hi

/-- Three bytes of padding, and the kind of an option that is not there. Kind: C -/
theorem not_reads_lt : ¬ ∀ (om : ℕ → UInt8) (syn : Bool) (mLen : ℕ),
    ∀ i ∈ (tcpDooptions om syn mLen).reads, i < mLen := by
  intro h
  obtain ⟨om, hom⟩ : ∃ om : ℕ → UInt8, om = fun i => if i < 3 then tcpoptNop else tcpoptMaxseg := ⟨_, rfl⟩
  have hnop : ∀ cp < 3, optlen om cp = some 1 := by
    rw [hom]
    decide
  have h0 : OptionAt om 4 0 := .start (by decide)
  have h1 : OptionAt om 4 1 := .next h0 (hnop 0 (by decide)) (by decide)
  have h2 : OptionAt om 4 2 := .next h1 (hnop 1 (by decide)) (by decide)
  have h3 : OptionAt om 4 3 := .next h2 (hnop 2 (by decide)) (by decide)
  refine absurd (h om true 4 4 (h3.mem_reads ((reads_dooptionsLoop (by decide)).mpr (.inl ?_)))) (by decide)
  rw [hom]
  decide

end Bsd386.Net.Tcp
