import Mathlib.Data.Int.Notation
import Mathlib.Tactic.Common

/-!
# BPF instructions and the filter validator

`struct bpf_insn`, the instruction codes of `sys/net/bpf.h`, and `bpf_validate` of
`sys/net/bpf_filter.c`. The interpreter switches on whole code words; its case labels are
`Opcode.code`, and `Opcode.ofCode` finds the case a code word selects (`none` is the `default`
case). The validator looks at the bits.

`long` and `int` are 32 bits wide (i386): a value is a `BitVec 32`, read by `toInt` where the
source compares it signed and by `toNat` where it compares it unsigned.
-/

namespace Bsd386.Net.Bpf

/-- `struct bpf_insn`.
Source: bpf.h, struct bpf_insn -/
structure BpfInsn where
  /-- The instruction code, a `u_short`. -/
  code : BitVec 16
  /-- The jump offset when the condition holds, a `u_char`. -/
  jt : BitVec 8
  /-- The jump offset when the condition fails, a `u_char`. -/
  jf : BitVec 8
  /-- The operand, a `long`. -/
  k : BitVec 32
deriving DecidableEq

/-- The number of scratch memory words. Source: bpf.h, BPF_MEMWORDS -/
def bpfMemwords : ℕ := 16

/-- The longest program `bpf_setf` accepts. Source: bpf.h, BPF_MAXINSNS -/
def bpfMaxinsns : ℕ := 512

/-! ## The fields of a code word -/

/-- The class bits. Source: bpf.h, BPF_CLASS -/
def bpfClass (code : BitVec 16) : BitVec 16 := code &&& 0x07

/-- The addressing mode bits. Source: bpf.h, BPF_MODE -/
def bpfMode (code : BitVec 16) : BitVec 16 := code &&& 0xe0

/-- The operation bits. Source: bpf.h, BPF_OP -/
def bpfOp (code : BitVec 16) : BitVec 16 := code &&& 0xf0

/-- The instruction classes. -/
def bpfLd : BitVec 16 := 0x00
@[inherit_doc bpfLd] def bpfLdx : BitVec 16 := 0x01
@[inherit_doc bpfLd] def bpfSt : BitVec 16 := 0x02
@[inherit_doc bpfLd] def bpfStx : BitVec 16 := 0x03
@[inherit_doc bpfLd] def bpfAlu : BitVec 16 := 0x04
@[inherit_doc bpfLd] def bpfJmp : BitVec 16 := 0x05
@[inherit_doc bpfLd] def bpfRet : BitVec 16 := 0x06
@[inherit_doc bpfLd] def bpfMisc : BitVec 16 := 0x07

/-- The operand sizes of a load. -/
def bpfW : BitVec 16 := 0x00
@[inherit_doc bpfW] def bpfH : BitVec 16 := 0x08
@[inherit_doc bpfW] def bpfB : BitVec 16 := 0x10

/-- The addressing modes of a load. -/
def bpfImm : BitVec 16 := 0x00
@[inherit_doc bpfImm] def bpfAbs : BitVec 16 := 0x20
@[inherit_doc bpfImm] def bpfInd : BitVec 16 := 0x40
@[inherit_doc bpfImm] def bpfMem : BitVec 16 := 0x60
@[inherit_doc bpfImm] def bpfLen : BitVec 16 := 0x80
@[inherit_doc bpfImm] def bpfMsh : BitVec 16 := 0xa0

/-- The unconditional jump, and the sources of a second operand. -/
def bpfJa : BitVec 16 := 0x00
@[inherit_doc bpfJa] def bpfK : BitVec 16 := 0x00
@[inherit_doc bpfJa] def bpfX : BitVec 16 := 0x08
@[inherit_doc bpfJa] def bpfA : BitVec 16 := 0x10

/-- The operand of a conditional jump or an ALU operation: the constant or `X`.
Source: bpf.h, BPF_SRC -/
inductive Src where
  | k
  | x
deriving DecidableEq

/-- The conditions of a conditional jump. -/
inductive JmpOp where
  | jeq
  | jgt
  | jge
  | jset
deriving DecidableEq

/-- The binary ALU operations. -/
inductive AluOp where
  | add
  | sub
  | mul
  | div
  | or
  | and
  | lsh
  | rsh
deriving DecidableEq

/-- The source bits. Source: bpf.h, BPF_K, BPF_X -/
def Src.bits : Src → BitVec 16
  | .k => bpfK
  | .x => bpfX

/-- The operation bits of a conditional jump. -/
def JmpOp.bits : JmpOp → BitVec 16
  | .jeq => 0x10
  | .jgt => 0x20
  | .jge => 0x30
  | .jset => 0x40

/-- The operation bits of an ALU instruction. -/
def AluOp.bits : AluOp → BitVec 16
  | .add => 0x00
  | .sub => 0x10
  | .mul => 0x20
  | .div => 0x30
  | .or => 0x40
  | .and => 0x50
  | .lsh => 0x60
  | .rsh => 0x70

/-- The negation, and the two register moves. -/
def bpfNeg : BitVec 16 := 0x80
@[inherit_doc bpfNeg] def bpfTax : BitVec 16 := 0x00
@[inherit_doc bpfNeg] def bpfTxa : BitVec 16 := 0x80

/-! ## The cases of the interpreter's switch -/

/-- The cases of the `switch (pc->code)` in `bpf_filter`, the `default` case apart.
Source: bpf_filter -/
inductive Opcode where
  | retK
  | retA
  | ldWAbs
  | ldHAbs
  | ldBAbs
  | ldWLen
  | ldxWLen
  | ldWInd
  | ldHInd
  | ldBInd
  | ldxMshB
  | ldImm
  | ldxImm
  | ldMem
  | ldxMem
  | st
  | stx
  | ja
  | jmp (op : JmpOp) (src : Src)
  | alu (op : AluOp) (src : Src)
  | neg
  | tax
  | txa
deriving DecidableEq

/-- The case labels.
Source: bpf_filter -/
def Opcode.code : Opcode → BitVec 16
  | .retK => bpfRet ||| bpfK
  | .retA => bpfRet ||| bpfA
  | .ldWAbs => bpfLd ||| bpfW ||| bpfAbs
  | .ldHAbs => bpfLd ||| bpfH ||| bpfAbs
  | .ldBAbs => bpfLd ||| bpfB ||| bpfAbs
  | .ldWLen => bpfLd ||| bpfW ||| bpfLen
  | .ldxWLen => bpfLdx ||| bpfW ||| bpfLen
  | .ldWInd => bpfLd ||| bpfW ||| bpfInd
  | .ldHInd => bpfLd ||| bpfH ||| bpfInd
  | .ldBInd => bpfLd ||| bpfB ||| bpfInd
  | .ldxMshB => bpfLdx ||| bpfMsh ||| bpfB
  | .ldImm => bpfLd ||| bpfImm
  | .ldxImm => bpfLdx ||| bpfImm
  | .ldMem => bpfLd ||| bpfMem
  | .ldxMem => bpfLdx ||| bpfMem
  | .st => bpfSt
  | .stx => bpfStx
  | .ja => bpfJmp ||| bpfJa
  | .jmp op src => bpfJmp ||| op.bits ||| src.bits
  | .alu op src => bpfAlu ||| op.bits ||| src.bits
  | .neg => bpfAlu ||| bpfNeg
  | .tax => bpfMisc ||| bpfTax
  | .txa => bpfMisc ||| bpfTxa

/-- Every case of the switch. Source: bpf_filter -/
def Opcode.all : List Opcode :=
  [.retK, .retA, .ldWAbs, .ldHAbs, .ldBAbs, .ldWLen, .ldxWLen, .ldWInd, .ldHInd, .ldBInd,
    .ldxMshB, .ldImm, .ldxImm, .ldMem, .ldxMem, .st, .stx, .ja, .neg, .tax, .txa] ++
  [JmpOp.jeq, .jgt, .jge, .jset].flatMap (fun op => [.jmp op .k, .jmp op .x]) ++
  [AluOp.add, .sub, .mul, .div, .or, .and, .lsh, .rsh].flatMap
    (fun op => [.alu op .k, .alu op .x])

/-- The case a code word selects; `none` is the `default` case.
Source: bpf_filter -/
def Opcode.ofCode (c : BitVec 16) : Option Opcode := Opcode.all.find? fun o => o.code == c

theorem Opcode.ofCode_code (o : Opcode) : Opcode.ofCode o.code = some o := by
  cases o with
  | jmp op src => cases op <;> cases src <;> decide
  | alu op src => cases op <;> cases src <;> decide
  | _ => decide

theorem Opcode.ofCode_eq_some_iff {c : BitVec 16} {o : Opcode} :
    Opcode.ofCode c = some o ↔ o.code = c := by
  constructor
  · intro h
    have := List.find?_some h
    simpa using this
  · rintro rfl
    exact ofCode_code o

/-! ## The validator -/

/-- The jump check: `from` is the index after the instruction; the sums are `int` sums.
Source: bpf_validate -/
def jumpsOk (p : BpfInsn) (i len : ℕ) : Bool :=
  if bpfClass p.code = bpfJmp then
    let from' : BitVec 32 := BitVec.ofNat 32 (i + 1)
    if bpfOp p.code = bpfJa then
      decide ((from' + p.k).toInt < len)
    else
      decide ((from' + p.jt.zeroExtend 32).toInt < len) &&
        decide ((from' + p.jf.zeroExtend 32).toInt < len)
  else true

/-- The check of scratch memory operations.
Source: bpf_validate -/
def memOk (p : BpfInsn) : Bool :=
  !((bpfClass p.code == bpfSt || (bpfClass p.code == bpfLd && bpfMode p.code == bpfMem)) &&
    (decide ((bpfMemwords : ℤ) ≤ p.k.toInt) || decide (p.k.toInt < 0)))

/-- The check for constant division by zero.
Source: bpf_validate -/
def divOk (p : BpfInsn) : Bool :=
  !(p.code == (Opcode.alu .div .k).code && p.k == 0)

/-- The body of the loop over the instructions, from index `i` on.
Source: bpf_validate -/
def validateFrom (len : ℕ) : ℕ → List BpfInsn → Bool
  | _, [] => true
  | i, p :: rest => jumpsOk p i len && memOk p && divOk p && validateFrom len (i + 1) rest

/-- `bpf_validate(f, len)` for the `len` instructions of `f`. (The empty program, for which
the source reads `f[-1]`, is rejected here; `bpf_setf` may pass it.)
Source: bpf_validate -/
def bpfValidate (f : List BpfInsn) : Bool :=
  validateFrom f.length 0 f &&
    match f.getLast? with
    | some p => bpfClass p.code == bpfRet
    | none => false

theorem validateFrom_getElem {len : ℕ} {l : List BpfInsn} {i : ℕ}
    (h : validateFrom len i l = true) {j : ℕ} {p : BpfInsn} (hp : l[j]? = some p) :
    jumpsOk p (i + j) len = true ∧ memOk p = true ∧ divOk p = true := by
  induction l generalizing i j with
  | nil => simp at hp
  | cons q rest ih =>
    simp only [validateFrom, Bool.and_eq_true] at h
    obtain ⟨⟨⟨hj, hm⟩, hd⟩, hrest⟩ := h
    cases j with
    | zero =>
      simp only [List.getElem?_cons_zero, Option.some.injEq] at hp
      subst hp
      exact ⟨hj, hm, hd⟩
    | succ j =>
      rw [List.getElem?_cons_succ] at hp
      have := ih hrest hp
      rwa [Nat.add_assoc, Nat.add_comm 1 j] at this

theorem bpfValidate_getElem {f : List BpfInsn} (h : bpfValidate f = true) {i : ℕ} {p : BpfInsn}
    (hp : f[i]? = some p) : jumpsOk p i f.length = true ∧ memOk p = true ∧ divOk p = true := by
  simp only [bpfValidate, Bool.and_eq_true] at h
  simpa using validateFrom_getElem h.1 hp

theorem bpfValidate_last {f : List BpfInsn} (h : bpfValidate f = true) {i : ℕ} {p : BpfInsn}
    (hp : f[i]? = some p) (hi : i + 1 = f.length) : bpfClass p.code = bpfRet := by
  simp only [bpfValidate, Bool.and_eq_true] at h
  have hlast : f.getLast? = some p := by
    rw [List.getLast?_eq_getElem?, ← hi]
    simpa using hp
  simpa [hlast] using h.2

end Bsd386.Net.Bpf
