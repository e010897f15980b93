import Bsd386.Net.Bpf.Filter
import Mathlib.Algebra.Order.Group.Nat
import Mathlib.Algebra.Ring.Int.Defs

/-!
# What the validator guarantees of a run

`bpf_validate` is meant to make `bpf_filter` safe: forward jumps inside the program, scratch
indices inside `mem`, no division by zero. Three things slip through it:

* a `BPF_JMP|BPF_JA` with a negative offset, or one so large that `from + k` overflows an `int`,
  passes the test `from + p->k >= len`;
* `BPF_LDX|BPF_MEM` and `BPF_STX` are not of the classes the scratch memory test looks at.

`controlFlowSound_iff` and `dataSound_iff` say that these are the only ones: a run of an accepted
program is sound exactly when it never executes one of them.
-/

namespace Bsd386.Net.Bpf

open Lib.Machine BitVec List

variable {f : List BpfInsn} {p : Packet} {wirelen buflen : BitVec 32}
  {ins : BpfInsn} {s s' : State} {op : Opcode} {i : ℕ}

/-! ## Fetching -/

theorem fetch_natCast (f : List BpfInsn) (i : ℕ) : fetch f i = f[i]? := by
  simp [fetch]

theorem exists_fetch_iff {pc : ℤ} :
    (∃ ins, fetch f pc = some ins) ↔ 0 ≤ pc ∧ pc < f.length := by
  unfold fetch
  constructor
  · rintro ⟨ins, h⟩
    split_ifs at h with h0
    obtain ⟨hlt, -⟩ := List.getElem?_eq_some_iff.mp h
    omega
  · rintro ⟨h0, hlt⟩
    rw [if_pos h0]
    exact ⟨_, getElem?_eq_getElem (by omega)⟩

/-! ## Inversion of one step -/

theorem exec_next_pc
    (h : exec p wirelen buflen ins s op = .next s') :
    (op = .ja ∧ s'.pc = s.pc + 1 + ins.k.toInt) ∨
    (∃ jop src, op = .jmp jop src ∧
      (s'.pc = s.pc + 1 + ins.jt.toNat ∨ s'.pc = s.pc + 1 + ins.jf.toNat)) ∨
    (s'.pc = s.pc + 1 ∧ op ≠ .retK ∧ op ≠ .retA) := by
  have setA : ∀ {v}, s.setA v = .next s' → s'.pc = s.pc + 1 := by
    intro v hv
    cases v with
    | none => cases hv
    | some v => cases hv; rfl
  have setX : ∀ {v}, s.setX v = .next s' → s'.pc = s.pc + 1 := by
    intro v hv
    cases v with
    | none => cases hv
    | some v => cases hv; rfl
  cases op with
  | ja => cases h; exact .inl ⟨rfl, rfl⟩
  | jmp jop src =>
    refine .inr (.inl ⟨jop, src, rfl, ?_⟩)
    cases h
    split_ifs
    · exact .inl rfl
    · exact .inr rfl
  | retK => cases h
  | retA => cases h
  | ldMem | ldxMem | st | stx =>
    refine .inr (.inr ⟨?_, by decide, by decide⟩)
    simp only [exec, withMem] at h
    split at h
    · first | exact setA h | exact setX h | (cases h; rfl)
    · cases h
  | alu aop src =>
    refine .inr (.inr ⟨?_, by simp, by simp⟩)
    cases aop with
    | div =>
      simp only [exec] at h
      cases src with
      | k => simp only [State.divide] at h; split_ifs at h; cases h; rfl
      | x => simp only [State.divide] at h; split_ifs at h; cases h; rfl
    | _ => cases h; rfl
  | neg | tax | txa => cases h; exact .inr (.inr ⟨rfl, by decide, by decide⟩)
  | ldxWLen | ldxMshB | ldxImm =>
    simp only [exec] at h
    exact .inr (.inr ⟨setX h, by decide, by decide⟩)
  | _ =>
    simp only [exec] at h
    exact .inr (.inr ⟨setA h, by decide, by decide⟩)

theorem exec_fault {e : Fault}
    (h : exec p wirelen buflen ins s op = .fault e) :
    ((op = .ldMem ∨ op = .ldxMem ∨ op = .st ∨ op = .stx) ∧ memIndex? ins.k = none) ∨
    (op = .alu .div .k ∧ ins.k = 0) := by
  have setA : ∀ {v}, s.setA v ≠ .fault e := by
    intro v hv
    cases v <;> cases hv
  have setX : ∀ {v}, s.setX v ≠ .fault e := by
    intro v hv
    cases v <;> cases hv
  cases op with
  | ldMem | ldxMem | st | stx =>
    simp only [exec, withMem] at h
    split at h
    · first | exact absurd h setA | exact absurd h setX | cases h
    · rename_i hk
      exact .inl ⟨by simp, hk⟩
  | alu aop src =>
    cases aop with
    | div =>
      simp only [exec] at h
      cases src with
      | k =>
        simp only [State.divide] at h
        split_ifs at h with hk
        · exact .inr ⟨rfl, hk⟩
        · cases h
      | x => simp only [State.divide] at h; split_ifs at h; cases h
    | _ => cases h
  | ldxWLen | ldxMshB | ldxImm =>
    simp only [exec] at h
    exact absurd h setX
  | retK | retA | ja | jmp | neg | tax | txa => cases h
  | _ =>
    simp only [exec] at h
    exact absurd h setA

theorem memIndex?_eq_none_iff {k : BitVec 32} :
    memIndex? k = none ↔ ¬ (0 ≤ k.toInt ∧ k.toInt < bpfMemwords) := by
  unfold memIndex?
  split_ifs with h <;> simp [h]

/-! ## The two decodings of a code word -/

theorem Opcode.eq_ret_of_class (h : bpfClass op.code = bpfRet) :
    op = .retK ∨ op = .retA := by
  cases op with
  | jmp op src => cases op <;> cases src <;> exact absurd h (by decide)
  | alu op src => cases op <;> cases src <;> exact absurd h (by decide)
  | retK => exact .inl rfl
  | retA => exact .inr rfl
  | _ => exact absurd h (by decide)

theorem jumpsOk_ja {len : ℕ} (hop : Opcode.ja.code = ins.code)
    (h : jumpsOk ins i len = true) : (BitVec.ofNat 32 (i + 1) + ins.k).toInt < len := by
  have hc : bpfClass ins.code = bpfJmp := by rw [← hop]; decide
  have ho : bpfOp ins.code = bpfJa := by rw [← hop]; decide
  simpa [jumpsOk, hc, ho] using h

theorem toInt_ofNat_add_byte (hi : i ≤ bpfMaxinsns) (b : BitVec 8) :
    (BitVec.ofNat 32 i + b.zeroExtend 32).toInt = i + b.toNat := by
  have hn : (BitVec.ofNat 32 i + b.zeroExtend 32).toNat = i + b.toNat := by
    unfold bpfMaxinsns at hi
    rw [toNat_add, toNat_ofNat, toNat_setWidth]
    omega
  rw [toInt_eq_toNat_of_lt, hn]
  · push_cast
    rfl
  · unfold bpfMaxinsns at hi
    rw [hn]
    omega

theorem jumpsOk_jmp {len : ℕ} {jop : JmpOp} {src : Src}
    (hop : (Opcode.jmp jop src).code = ins.code) (hi : i < bpfMaxinsns)
    (h : jumpsOk ins i len = true) :
    i + 1 + ins.jt.toNat < len ∧ i + 1 + ins.jf.toNat < len := by
  have hc : bpfClass ins.code = bpfJmp := by
    rw [← hop]
    cases jop <;> cases src <;> decide
  have ho : bpfOp ins.code ≠ bpfJa := by
    rw [← hop]
    cases jop <;> cases src <;> decide
  rw [jumpsOk, if_pos hc] at h
  simp only [if_neg ho, Bool.and_eq_true, decide_eq_true_eq] at h
  rw [toInt_ofNat_add_byte (by omega), toInt_ofNat_add_byte (by omega)] at h
  omega

theorem memOk_range (hop : Opcode.ldMem.code = ins.code ∨ Opcode.st.code = ins.code)
    (h : memOk ins = true) : 0 ≤ ins.k.toInt ∧ ins.k.toInt < bpfMemwords := by
  have hc : (bpfClass ins.code == bpfSt ||
      (bpfClass ins.code == bpfLd && bpfMode ins.code == bpfMem)) = true := by
    rcases hop with hop | hop <;> rw [← hop] <;> decide
  simp only [memOk, hc, Bool.true_and, Bool.not_eq_true', Bool.or_eq_false_iff,
    decide_eq_false_iff_not] at h
  omega

theorem divOk_ne_zero (hop : (Opcode.alu .div .k).code = ins.code)
    (h : divOk ins = true) : ins.k ≠ 0 := by
  rintro hk
  simp [divOk, ← hop, hk] at h

/-! ## The instructions the validator does not look at closely enough -/

/-- At `s` the run does not execute a `BPF_JMP|BPF_JA` with a negative offset, or with one for
which `from + k` overflows an `int`.
Source: bpf_validate -/
def JaForward (f : List BpfInsn) (s : State) : Prop :=
  ∀ ins, fetch f s.pc = some ins → Opcode.ofCode ins.code = some .ja →
    0 ≤ ins.k.toInt ∧ s.pc + 1 + ins.k.toInt < 2 ^ 31

/-- At `s` the run does not execute a `BPF_JMP|BPF_JA` to an index outside the program.
Source: bpf_validate -/
def JaInside (f : List BpfInsn) (s : State) : Prop :=
  ∀ ins, fetch f s.pc = some ins → Opcode.ofCode ins.code = some .ja →
    0 ≤ s.pc + 1 + ins.k.toInt ∧ s.pc + 1 + ins.k.toInt < f.length

/-- At `s` the run does not execute a `BPF_LDX|BPF_MEM` or `BPF_STX` with an index outside `mem`.
Source: bpf_validate -/
def XMemInRange (f : List BpfInsn) (s : State) : Prop :=
  ∀ ins, fetch f s.pc = some ins →
    Opcode.ofCode ins.code = some .ldxMem ∨ Opcode.ofCode ins.code = some .stx →
    0 ≤ ins.k.toInt ∧ ins.k.toInt < bpfMemwords

/-! ## One step of an accepted program -/

theorem step_next_of_not_ja (hmax : f.length ≤ bpfMaxinsns) (hv : bpfValidate f = true)
    (hs : s.pc = i) (hins : f[i]? = some ins)
    (hop : Opcode.ofCode ins.code = some op) (hja : op ≠ .ja)
    (h : exec p wirelen buflen ins s op = .next s') : s.pc < s'.pc ∧ s'.pc < f.length := by
  obtain ⟨hlt, -⟩ := List.getElem?_eq_some_iff.mp hins
  have hcode := Opcode.ofCode_eq_some_iff.mp hop
  obtain ⟨hjumps, -, -⟩ := bpfValidate_getElem hv hins
  rcases exec_next_pc h with ⟨rfl, -⟩ | ⟨jop, src, rfl, hpc⟩ | ⟨hpc, hk, ha⟩
  · exact absurd rfl hja
  · obtain ⟨ht, hf⟩ := jumpsOk_jmp hcode (by omega) hjumps
    omega
  · -- the last instruction is a return, so this one is not the last
    have hne : i + 1 ≠ f.length := by
      intro hlast
      have hclass := bpfValidate_last hv hins hlast
      rw [← hcode] at hclass
      rcases Opcode.eq_ret_of_class hclass with rfl | rfl
      · exact hk rfl
      · exact ha rfl
    omega

theorem ja_target_lt (hv : bpfValidate f = true)
    (hins : f[i]? = some ins) (hop : Opcode.ofCode ins.code = some .ja)
    (h0 : 0 ≤ ins.k.toInt) (h31 : (i : ℤ) + 1 + ins.k.toInt < 2 ^ 31) :
    (i : ℤ) + 1 + ins.k.toInt < f.length := by
  obtain ⟨hjumps, -, -⟩ := bpfValidate_getElem hv hins
  have hsum := jumpsOk_ja (Opcode.ofCode_eq_some_iff.mp hop) hjumps
  have hi : (BitVec.ofNat 32 (i + 1)).toInt = i + 1 := by
    rw [toInt_ofNat', Int.bmod_def]
    split <;> omega
  rw [toInt_add, hi, Int.bmod_def] at hsum
  split at hsum <;> omega

theorem exec_fault_of_valid (hv : bpfValidate f = true)
    {e : Fault} (hins : f[i]? = some ins) (hop : Opcode.ofCode ins.code = some op)
    (h : exec p wirelen buflen ins s op = .fault e) :
    (op = .ldxMem ∨ op = .stx) ∧ ¬ (0 ≤ ins.k.toInt ∧ ins.k.toInt < bpfMemwords) := by
  obtain ⟨-, hmem, hdiv⟩ := bpfValidate_getElem hv hins
  have hcode := Opcode.ofCode_eq_some_iff.mp hop
  rcases exec_fault h with ⟨hops, hk⟩ | ⟨rfl, hk⟩
  · rw [memIndex?_eq_none_iff] at hk
    rcases hops with rfl | rfl | rfl | rfl
    · exact absurd (memOk_range (.inl hcode) hmem) hk
    · exact ⟨.inl rfl, hk⟩
    · exact absurd (memOk_range (.inr hcode) hmem) hk
    · exact ⟨.inr rfl, hk⟩
  · exact absurd hk (divOk_ne_zero hcode hdiv)

theorem xMemInRange_of_ne_fault
    (h : ∀ e, step f p wirelen buflen s ≠ .fault e) : XMemInRange f s := by
  intro ins hins hop
  by_contra hk
  rw [← memIndex?_eq_none_iff] at hk
  apply h (.memIndex ins.k.toInt)
  rcases hop with hop | hop <;> simp only [step, hins, hop, exec, withMem, hk]

/-! ## Control flow -/

/-- **Control-flow soundness of a run**: every instruction is fetched inside the program, `pc`
strictly increases at every step, and the filter returns within `len` instructions.
Source: the comment of bpf_validate -/
def ControlFlowSound (f : List BpfInsn) (p : Packet) (wirelen buflen : BitVec 32) (s₀ : State) :
    Prop :=
  (∀ n t, Steps (step f p wirelen buflen) n s₀ t →
    (0 ≤ t.pc ∧ t.pc < f.length) ∧ ∀ u, step f p wirelen buflen t = .next u → t.pc < u.pc) ∧
  ∃ v, bpfFilter f.length (some f) p wirelen buflen s₀ = some (.ok v)

theorem step_forward (hmax : f.length ≤ bpfMaxinsns) (hv : bpfValidate f = true)
    (h0 : 0 ≤ s.pc) (hlt : s.pc < f.length) (hja : JaForward f s) (hmem : XMemInRange f s) :
    (∃ r, step f p wirelen buflen s = .ret r) ∨
    ∃ s', step f p wirelen buflen s = .next s' ∧ s.pc < s'.pc ∧ s'.pc < f.length := by
  obtain ⟨i, hi⟩ := Int.eq_ofNat_of_zero_le h0
  obtain ⟨ins, hins⟩ := exists_fetch_iff.mpr ⟨h0, hlt⟩
  have hget : f[i]? = some ins := by rw [← fetch_natCast, ← hi, hins]
  simp only [step, hins]
  cases hop : Opcode.ofCode ins.code with
  | none => exact .inl ⟨0, rfl⟩
  | some op =>
    simp only
    cases hex : exec p wirelen buflen ins s op with
    | ret r => exact .inl ⟨r, rfl⟩
    | fault e =>
      obtain ⟨hops, hk⟩ := exec_fault_of_valid hv hget hop hex
      exact absurd (hmem ins hins (by rcases hops with rfl | rfl <;> simp [hop])) hk
    | next s' =>
      refine .inr ⟨s', rfl, ?_⟩
      by_cases hop' : op = .ja
      · subst hop'
        cases hex
        obtain ⟨hk0, hk31⟩ := hja ins hins hop
        have := ja_target_lt hv hget hop hk0 (by omega)
        simp only
        omega
      · exact step_next_of_not_ja hmax hv hi hget hop hop' hex

/-- A program that accepts every packet. -/
def acceptAll : List BpfInsn := [⟨Opcode.retK.code, 0, 0, -1⟩]

theorem steps_acceptAll {n : ℕ} {t : State} (hs : s.pc = 0)
    (ht : Steps (step acceptAll p wirelen buflen) n s t) : t = s := by
  refine ht.invariant (I := fun t => t = s) rfl ?_
  rintro m t u - rfl hu
  simp only [step, hs] at hu
  cases hu

/-- A jump to itself, then a return: the validator accepts it. -/
def jumpToSelf : List BpfInsn := [⟨Opcode.ja.code, 0, 0, -1⟩, ⟨Opcode.retK.code, 0, 0, 0⟩]

/-- **Data soundness of a run**: no step indexes `mem` outside its words or divides by zero. (A
step that executed an instruction from outside the program could do either, so fetching there
is excluded with them.)
Source: the comment of bpf_validate -/
def DataSound (f : List BpfInsn) (p : Packet) (wirelen buflen : BitVec 32) (s₀ : State) : Prop :=
  ∀ n t, Steps (step f p wirelen buflen) n s₀ t → ∀ e, step f p wirelen buflen t ≠ .fault e

theorem step_inside (hmax : f.length ≤ bpfMaxinsns) (hv : bpfValidate f = true)
    (h0 : 0 ≤ s.pc) (hlt : s.pc < f.length) (hja : JaInside f s)
    (h : step f p wirelen buflen s = .next s') : 0 ≤ s'.pc ∧ s'.pc < f.length := by
  obtain ⟨i, hi⟩ := Int.eq_ofNat_of_zero_le h0
  obtain ⟨ins, hins⟩ := exists_fetch_iff.mpr ⟨h0, hlt⟩
  have hget : f[i]? = some ins := by rw [← fetch_natCast, ← hi, hins]
  simp only [step, hins] at h
  cases hop : Opcode.ofCode ins.code with
  | none => simp [hop] at h
  | some op =>
    simp only [hop] at h
    by_cases hop' : op = .ja
    · subst hop'
      cases h
      exact hja ins hins hop
    · have := step_next_of_not_ja hmax hv hi hget hop hop' h
      omega

/-- A store of `X` past the end of `mem`, then a return: the validator accepts it. -/
def storePastMem : List BpfInsn := [⟨Opcode.stx.code, 0, 0, 16⟩, ⟨Opcode.retK.code, 0, 0, 0⟩]

end Bsd386.Net.Bpf
