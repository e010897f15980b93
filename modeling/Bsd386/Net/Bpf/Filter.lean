import Bsd386.Lib.Machine
import Bsd386.Net.Bpf.Insn
import Bsd386.Net.Bpf.Packet

/-!
# The filter interpreter

`bpf_filter` of `sys/net/bpf_filter.c` as a machine: one step fetches the instruction at `pc`
and executes one case of the switch. `A`, `X` and `mem` are not initialised by the source, so a
run starts from an arbitrary register file.

Three things a C program leaves undefined end the run in a `Fault`: fetching an instruction
outside the program, indexing `mem` outside its `BPF_MEMWORDS` words, and dividing by zero.
Shift counts are taken modulo 32, as the i386 shift instructions take them.
-/

namespace Bsd386.Net.Bpf

open Lib.Machine

/-- What ends a run outside the language. -/
inductive Fault where
  | fetch (pc : ℤ)
  | memIndex (k : ℤ)
  | divZero
deriving DecidableEq

/-- The interpreter's locals, with the index of the instruction fetched next.
Source: bpf_filter -/
structure State where
  /-- The index in the program of the instruction to fetch. -/
  pc : ℤ
  /-- The accumulator, a `u_long`. -/
  A : BitVec 32
  /-- The index register, a `u_long`. -/
  X : BitVec 32
  /-- `long mem[BPF_MEMWORDS]`. -/
  mem : Fin bpfMemwords → BitVec 32

/-- The instruction at `pc`, if `pc` is inside the program.
Source: bpf_filter -/
def fetch (f : List BpfInsn) (pc : ℤ) : Option BpfInsn := if 0 ≤ pc then f[pc.toNat]? else none

/-- `k` as an index of `mem`, if it is one. -/
def memIndex? (k : BitVec 32) : Option (Fin bpfMemwords) :=
  if h : 0 ≤ k.toInt ∧ k.toInt < bpfMemwords then some ⟨k.toInt.toNat, by omega⟩ else none

/-- The second operand. Source: bpf_filter -/
def operand (ins : BpfInsn) (s : State) : Src → BitVec 32
  | .k => ins.k
  | .x => s.X

/-- The conditions of the conditional jumps; all comparisons are unsigned.
Source: bpf_filter -/
def JmpOp.holds : JmpOp → BitVec 32 → BitVec 32 → Bool
  | .jgt, a, b => b < a
  | .jge, a, b => b ≤ a
  | .jeq, a, b => a == b
  | .jset, a, b => a &&& b != 0

/-- The binary ALU operations other than division.
Source: bpf_filter -/
def AluOp.eval : AluOp → BitVec 32 → BitVec 32 → BitVec 32
  | .add, a, b => a + b
  | .sub, a, b => a - b
  | .mul, a, b => a * b
  | .div, a, b => a / b
  | .and, a, b => a &&& b
  | .or, a, b => a ||| b
  | .lsh, a, b => a <<< (b.toNat % 32)
  | .rsh, a, b => a >>> (b.toNat % 32)

/-- `continue`: on to the next instruction. Source: bpf_filter -/
def State.advance (s : State) : Outcome State (BitVec 32) Fault := .next { s with pc := s.pc + 1 }

/-- A load into `A`; a load that does not fit returns 0 from the filter.
Source: bpf_filter -/
def State.setA (s : State) : Option (BitVec 32) → Outcome State (BitVec 32) Fault
  | none => .ret 0
  | some v => State.advance { s with A := v }

/-- A load into `X`; a load that does not fit returns 0 from the filter.
Source: bpf_filter -/
def State.setX (s : State) : Option (BitVec 32) → Outcome State (BitVec 32) Fault
  | none => .ret 0
  | some v => State.advance { s with X := v }

/-- A read of `mem[k]` passed on, or the fault of an index outside `mem`.
Source: bpf_filter -/
def withMem (k : BitVec 32)
    (body : Fin bpfMemwords → Outcome State (BitVec 32) Fault) : Outcome State (BitVec 32) Fault :=
  match memIndex? k with
  | some i => body i
  | none => .fault (.memIndex k.toInt)

/-- The division cases: the register form tests for zero, the constant form does not.
Source: bpf_filter -/
def State.divide (s : State) (ins : BpfInsn) : Src → Outcome State (BitVec 32) Fault
  | .x => if s.X = 0 then .ret 0 else State.advance { s with A := s.A / s.X }
  | .k => if ins.k = 0 then .fault .divZero else State.advance { s with A := s.A / ins.k }

/-- One case of the switch.
Source: bpf_filter -/
def exec (p : Packet) (wirelen buflen : BitVec 32) (ins : BpfInsn) (s : State) :
    Opcode → Outcome State (BitVec 32) Fault
  | .retK => .ret ins.k
  | .retA => .ret s.A
  | .ldWAbs => s.setA (ldW p buflen ins.k)
  | .ldHAbs => s.setA (ldHAbs p buflen ins.k)
  | .ldBAbs => s.setA (ldBAbs p buflen ins.k)
  | .ldWLen => s.setA (some wirelen)
  | .ldxWLen => s.setX (some wirelen)
  | .ldWInd => s.setA (ldW p buflen (s.X + ins.k))
  | .ldHInd => s.setA (ldHInd p buflen (s.X + ins.k))
  | .ldBInd => s.setA (ldBInd p buflen (s.X + ins.k))
  | .ldxMshB => s.setX (ldxMsh p buflen ins.k)
  | .ldImm => s.setA (some ins.k)
  | .ldxImm => s.setX (some ins.k)
  | .ldMem => withMem ins.k fun i => s.setA (some (s.mem i))
  | .ldxMem => withMem ins.k fun i => s.setX (some (s.mem i))
  | .st => withMem ins.k fun i => State.advance { s with mem := Function.update s.mem i s.A }
  | .stx => withMem ins.k fun i => State.advance { s with mem := Function.update s.mem i s.X }
  | .ja => .next { s with pc := s.pc + 1 + ins.k.toInt }
  | .jmp op src =>
    .next { s with pc := s.pc + 1 +
      (if op.holds s.A (operand ins s src) then ins.jt.toNat else ins.jf.toNat : ℕ) }
  | .alu .div src => s.divide ins src
  | .alu op src => State.advance { s with A := op.eval s.A (operand ins s src) }
  | .neg => State.advance { s with A := -s.A }
  | .tax => State.advance { s with X := s.A }
  | .txa => State.advance { s with A := s.X }

/-- One turn of the `while (1)` loop: fetch and execute; an unknown code returns 0.
Source: bpf_filter -/
def step (f : List BpfInsn) (p : Packet) (wirelen buflen : BitVec 32) (s : State) :
    Outcome State (BitVec 32) Fault :=
  match fetch f s.pc with
  | none => .fault (.fetch s.pc)
  | some ins =>
    match Opcode.ofCode ins.code with
    | none => .ret 0
    | some op => exec p wirelen buflen ins s op

/-- The state at the first instruction, for the values the uninitialised locals have.
Source: bpf_filter -/
def State.start (A X : BitVec 32) (mem : Fin bpfMemwords → BitVec 32) : State := ⟨0, A, X, mem⟩

/-- `bpf_filter(pc, p, wirelen, buflen)` run for at most `fuel` instructions; a null `pc`
accepts everything.
Source: bpf_filter -/
def bpfFilter (fuel : ℕ) (pc : Option (List BpfInsn)) (p : Packet) (wirelen buflen : BitVec 32)
    (s : State) : Option (Except Fault (BitVec 32)) :=
  match pc with
  | none => some (.ok (-1))
  | some f => run (step f p wirelen buflen) fuel s

end Bsd386.Net.Bpf
