import Bsd386.Net.Bpf.Filter

/-!
# What a filter reads of a contiguous packet

A load compares `k + sizeof(long)`, `k + sizeof(short)` or `k` with `buflen` as unsigned numbers, and then
reads at the signed `k`. With `k` just below zero the sum wraps around and the test passes.
-/

namespace Bsd386.Net.Bpf

open Lib.Machine Option List

variable {p p' : Packet} {wirelen buflen k : BitVec 32} {n : ℕ} {ins : BpfInsn} {s : State} {op : Opcode}

/-! ## The loads -/

/-- The offset and the number of the bytes that a load asks for.
Source: bpf_filter -/
def Opcode.load? (ins : BpfInsn) (s : State) : Opcode → Option (BitVec 32 × ℕ)
  | .ldWAbs => some (ins.k, 4)
  | .ldHAbs => some (ins.k, 2)
  | .ldBAbs => some (ins.k, 1)
  | .ldWInd => some (s.X + ins.k, 4)
  | .ldHInd => some (s.X + ins.k, 2)
  | .ldBInd => some (s.X + ins.k, 1)
  | .ldxMshB => some (ins.k, 1)
  | _ => none

/-- `k + sizeof(long) > buflen`, `k + sizeof(short) > buflen` and `k >= buflen`.
Source: bpf_filter -/
def rejects (buflen k : BitVec 32) (n : ℕ) : Bool :=
  if n = 1 then decide (buflen ≤ k) else decide (buflen < k + BitVec.ofNat 32 n)

/-- The offsets in the packet that an instruction reads when `buflen` is not 0.
Source: bpf_filter -/
def reads (buflen : BitVec 32) (ins : BpfInsn) (s : State) (op : Opcode) : List ℤ :=
  match op.load? ins s with
  | none => []
  | some (k, n) => if rejects buflen k n then [] else (List.range n).map fun j : ℕ => k.toInt + j

section

variable (p : Packet) (hlen : buflen ≠ 0) (k : BitVec 32)
include hlen

theorem ldW_eq :
    ldW p buflen k = if rejects buflen k 4 then none else some (extractLong p.bytes k.toInt) := by
  have hif : rejects buflen k 4 = decide (buflen < k + 4) := rfl
  rw [ldW, hif, if_pos hlen]
  simp only [decide_eq_true_eq]

theorem ldH_eq :
    ldHAbs p buflen k =
        (if rejects buflen k 2 then none else some ((extractShort p.bytes k.toInt).zeroExtend 32)) ∧
      ldHInd p buflen k = ldHAbs p buflen k := by
  have hif : rejects buflen k 2 = decide (buflen < k + 2) := rfl
  rw [ldHInd, ldHAbs, hif, if_pos hlen, if_pos hlen]
  simp only [decide_eq_true_eq, and_self]

theorem ldB_eq :
    ldBAbs p buflen k = (if rejects buflen k 1 then none else some ((p.bytes k.toInt).zeroExtend 32)) ∧
      ldBInd p buflen k = ldBAbs p buflen k ∧
      ldxMsh p buflen k = (ldBAbs p buflen k).map fun b => (b &&& (0xf : BitVec 32)) <<< 2 := by
  have hif : rejects buflen k 1 = decide (buflen ≤ k) := rfl
  rw [ldxMsh, ldBInd, ldBAbs, hif, if_pos hlen, if_pos hlen, if_pos hlen]
  simp only [decide_eq_true_eq, true_and]
  by_cases hle : buflen ≤ k
  · simp only [if_pos hle, map_none]
  · simp only [if_neg hle, map_some]

end

/-- **A load** returns 0 when it fails its test, and otherwise goes on with a value of the bytes it asked for. -/
theorem exec_load (wirelen : BitVec 32) (hlen : buflen ≠ 0) (hload : op.load? ins s = some (k, n)) :
    ∃ g : (ℕ → Byte) → State, (∀ b b', (∀ j < n, b j = b' j) → g b = g b') ∧ ∀ p : Packet,
      exec p wirelen buflen ins s op =
        if rejects buflen k n then .ret 0 else .next (g fun j => p.bytes (k.toInt + j)) := by
  have hzero : ∀ k : BitVec 32, k.toInt + ((0 : ℕ) : ℤ) = k.toInt := fun k => Int.add_zero _
  have hset {v : BitVec 32} {c : Bool} :
      s.setA (if c then none else some v) = if c then .ret 0 else .next { s with A := v, pc := s.pc + 1 } := by
    cases c <;> rfl
  have word : ∀ k : BitVec 32, ∃ g : (ℕ → Byte) → State, (∀ b b', (∀ j < 4, b j = b' j) → g b = g b') ∧
      ∀ p : Packet, s.setA (ldW p buflen k) =
        if rejects buflen k 4 then .ret 0 else .next (g fun j => p.bytes (k.toInt + j)) := by
    refine fun k => ⟨fun b => { s with A := b 0 ++ b 1 ++ b 2 ++ b 3, pc := s.pc + 1 }, fun b b' hb => ?_,
      fun p => ?_⟩
    · dsimp only
      rw [hb 0 (by decide), hb 1 (by decide), hb 2 (by decide), hb 3 (by decide)]
    · rw [ldW_eq p hlen, hset]
      dsimp only
      rw [hzero]
      rfl
  have half : ∀ k : BitVec 32, ∃ g : (ℕ → Byte) → State, (∀ b b', (∀ j < 2, b j = b' j) → g b = g b') ∧
      ∀ p : Packet, s.setA (ldHAbs p buflen k) =
        if rejects buflen k 2 then .ret 0 else .next (g fun j => p.bytes (k.toInt + j)) := by
    refine fun k => ⟨fun b => { s with A := (b 0 ++ b 1).zeroExtend 32, pc := s.pc + 1 }, fun b b' hb => ?_,
      fun p => ?_⟩
    · dsimp only
      rw [hb 0 (by decide), hb 1 (by decide)]
    · rw [(ldH_eq p hlen k).1, hset]
      dsimp only
      rw [hzero]
      rfl
  have byte : ∀ k : BitVec 32, ∃ g : (ℕ → Byte) → State, (∀ b b', (∀ j < 1, b j = b' j) → g b = g b') ∧
      ∀ p : Packet, s.setA (ldBAbs p buflen k) =
        if rejects buflen k 1 then .ret 0 else .next (g fun j => p.bytes (k.toInt + j)) := by
    refine fun k => ⟨fun b => { s with A := (b 0).zeroExtend 32, pc := s.pc + 1 }, fun b b' hb => ?_, fun p => ?_⟩
    · dsimp only
      rw [hb 0 (by decide)]
    · rw [(ldB_eq p hlen k).1, hset]
      dsimp only
      rw [hzero]
  cases op with
  | ldWAbs | ldWInd =>
    obtain ⟨rfl, rfl⟩ := Prod.mk.inj (some.inj hload)
    exact word _
  | ldHAbs =>
    obtain ⟨rfl, rfl⟩ := Prod.mk.inj (some.inj hload)
    exact half _
  | ldHInd =>
    obtain ⟨rfl, rfl⟩ := Prod.mk.inj (some.inj hload)
    simp only [exec, (ldH_eq _ hlen _).2]
    exact half _
  | ldBAbs =>
    obtain ⟨rfl, rfl⟩ := Prod.mk.inj (some.inj hload)
    exact byte _
  | ldBInd =>
    obtain ⟨rfl, rfl⟩ := Prod.mk.inj (some.inj hload)
    simp only [exec, (ldB_eq _ hlen _).2.1]
    exact byte _
  | ldxMshB =>
    obtain ⟨rfl, rfl⟩ := Prod.mk.inj (some.inj hload)
    refine ⟨fun b => { s with X := ((b 0).zeroExtend 32 &&& (0xf : BitVec 32)) <<< 2, pc := s.pc + 1 },
      fun b b' hb => ?_, fun p => ?_⟩
    · dsimp only
      rw [hb 0 (by decide)]
    · dsimp only
      rw [exec, (ldB_eq p hlen _).2.2, (ldB_eq p hlen _).1, hzero]
      cases rejects buflen ins.k 1 <;> rfl
  | _ => exact absurd hload nofun

theorem mem_reads {i : ℤ} (hload : op.load? ins s = some (k, n)) (hrej : rejects buflen k n = false) :
    i ∈ reads buflen ins s op ↔ ∃ j : ℕ, j < n ∧ k.toInt + j = i := by
  simp only [reads, hload, hrej, Bool.false_eq_true, if_false, List.mem_map, mem_range]

/-- **The reads are all** that an instruction looks at in a contiguous packet. -/
theorem exec_congr (hlen : buflen ≠ 0) (hread : ∀ i ∈ reads buflen ins s op, p.bytes i = p'.bytes i) :
    exec p wirelen buflen ins s op = exec p' wirelen buflen ins s op := by
  cases hload : op.load? ins s with
  | none =>
    cases op with
    | ldWAbs | ldHAbs | ldBAbs | ldWInd | ldHInd | ldBInd | ldxMshB => exact absurd hload nofun
    | alu aop src => cases aop <;> rfl
    | _ => rfl
  | some kn =>
    obtain ⟨k, n⟩ := kn
    obtain ⟨g, hg, hexec⟩ := exec_load _ hlen hload
    rw [hexec p, hexec p']
    by_cases hrej : rejects buflen k n = true
    · rw [if_pos hrej, if_pos hrej]
    · rw [if_neg hrej, if_neg hrej]
      refine congrArg _ (hg _ _ fun j hj => hread _ ?_)
      exact (mem_reads hload (Bool.eq_false_iff.mpr hrej)).mpr ⟨j, hj, rfl⟩

/-! ## Runs -/

variable {f : List BpfInsn} {t : State}

/-- The instruction that is fetched returns 0 or reads inside the packet.
Source: bpf_filter -/
def InBounds (f : List BpfInsn) (p : Packet) (wirelen buflen : BitVec 32) (t : State) : Prop :=
  ∀ ins op, fetch f t.pc = some ins → Opcode.ofCode ins.code = some op →
    step f p wirelen buflen t = .ret 0 ∨ ∀ i ∈ reads buflen ins t op, 0 ≤ i ∧ i < buflen.toNat

/-- A load that is fetched, and whose offset is negative, fails its test.
Source: bpf_filter -/
def NoWrap (f : List BpfInsn) (buflen : BitVec 32) (t : State) : Prop :=
  ∀ ins op k n, fetch f t.pc = some ins → Opcode.ofCode ins.code = some op → op.load? ins t = some (k, n) →
    k.toInt < 0 → rejects buflen k n = true

theorem Opcode.load?_size (hload : op.load? ins s = some (k, n)) : n = 1 ∨ n = 2 ∨ n = 4 := by
  cases op with
  | ldWAbs | ldWInd | ldHAbs | ldHInd | ldBAbs | ldBInd | ldxMshB =>
    obtain ⟨-, rfl⟩ := Prod.mk.inj (some.inj hload)
    decide
  | _ => exact absurd hload nofun

theorem add_le_of_not_rejects (hn : n = 1 ∨ n = 2 ∨ n = 4) (hk : 0 ≤ k.toInt) (hrej : rejects buflen k n = false) :
    k.toInt + n ≤ buflen.toNat := by
  have hlt : k.toNat < 2 ^ 31 := by
    rw [BitVec.toInt_eq_toNat_cond] at hk
    split_ifs at hk <;> omega
  have hint : k.toInt = k.toNat := BitVec.toInt_eq_toNat_of_lt (by omega)
  rw [hint]
  rcases hn with rfl | hn
  · have hle : ¬ buflen ≤ k := of_decide_eq_false hrej
    rw [BitVec.le_def] at hle
    omega
  have hle : ¬ buflen < k + BitVec.ofNat 32 n := by
    rw [rejects, if_neg (by omega)] at hrej
    exact of_decide_eq_false hrej
  rw [BitVec.lt_def, BitVec.toNat_add, BitVec.toNat_ofNat] at hle
  omega

theorem inBounds_iff_noWrap (hlen : buflen ≠ 0) (p : Packet) (wirelen : BitVec 32) (t : State) :
    InBounds f p wirelen buflen t ↔ NoWrap f buflen t := by
  constructor
  · intro hin ins op k n hins hop hload hk
    by_contra hrej
    have hrej : rejects buflen k n = false := Bool.eq_false_iff.mpr hrej
    obtain ⟨g, -, hexec⟩ := exec_load wirelen hlen hload
    rcases hin ins op hins hop with hret | hread
    · simp only [step, hins, hop, hexec p, hrej] at hret
      exact absurd hret nofun
    have hpos : 0 < n := by
      rcases op.load?_size hload with rfl | rfl | rfl <;> decide
    have h0 := (hread (k.toInt + (0 : ℕ)) ((mem_reads hload hrej).mpr ⟨0, hpos, rfl⟩)).1
    omega
  · intro hwrap ins op hins hop
    cases hload : op.load? ins t with
    | none =>
      refine .inr fun i hi => ?_
      rw [reads, hload] at hi
      exact absurd hi not_mem_nil
    | some kn =>
      obtain ⟨k, n⟩ := kn
      by_cases hrej : rejects buflen k n = true
      · obtain ⟨g, -, hexec⟩ := exec_load wirelen hlen hload
        refine .inl ?_
        simp only [step, hins, hop, hexec p, hrej, if_true]
      have hrej : rejects buflen k n = false := Bool.eq_false_iff.mpr hrej
      have hk : 0 ≤ k.toInt := by
        by_contra hk
        rw [hwrap ins op k n hins hop hload (Int.not_le.mp hk)] at hrej
        exact Bool.noConfusion hrej
      have hle := add_le_of_not_rejects (op.load?_size hload) hk hrej
      refine .inr fun i hi => ?_
      obtain ⟨j, hj, rfl⟩ := (mem_reads hload hrej).mp hi
      omega

/-- **Packet bounds.** In a run on a contiguous packet every load returns 0 or reads inside the packet, exactly
when every load at a negative offset fails its test. Kind: P. -/
theorem inBounds_iff (f : List BpfInsn) (p : Packet) (wirelen : BitVec 32) (hlen : buflen ≠ 0) (A X : BitVec 32)
    (mem : Fin bpfMemwords → BitVec 32) :
    (∀ n t, Steps (step f p wirelen buflen) n (.start A X mem) t → InBounds f p wirelen buflen t) ↔
      ∀ n t, Steps (step f p wirelen buflen) n (.start A X mem) t → NoWrap f buflen t := by
  refine forall_congr' fun n => forall_congr' fun t => imp_congr_right fun _ => ?_
  exact inBounds_iff_noWrap hlen p wirelen t

/-- A byte of a packet of one byte. Source: bpf_filter. Kind: C -/
theorem inBounds_ldB :
    InBounds [⟨Opcode.ldBAbs.code, 0, 0, 0⟩] ⟨fun _ => 7, []⟩ 1 1 (.start 0 0 fun _ => 0) := by
  refine (inBounds_iff _ _ 1 (by decide) 0 0 fun _ => 0).mpr
    (fun n t _ ins op k n' hins hop hload hk => ?_) 0 _ (.refl _)
  have hmem : ins ∈ [(⟨Opcode.ldBAbs.code, 0, 0, 0⟩ : BpfInsn)] := by
    rw [fetch] at hins
    split_ifs at hins
    exact mem_of_getElem? hins
  obtain rfl := mem_singleton.mp hmem
  obtain rfl : op = .ldBAbs := by
    have hcode : Opcode.ofCode Opcode.ldBAbs.code = some .ldBAbs := by decide
    exact some.inj (hop.symm.trans hcode)
  obtain ⟨rfl, -⟩ := Prod.mk.inj (some.inj hload)
  exact absurd hk (by decide)

/-- A word at the offset -4. Source: bpf_filter. Kind: C -/
theorem not_inBounds_ldW :
    ¬ ∀ (f : List BpfInsn) (p : Packet) (wirelen buflen A X : BitVec 32) (mem : Fin bpfMemwords → BitVec 32),
      buflen ≠ 0 → ∀ n t, Steps (step f p wirelen buflen) n (.start A X mem) t →
        InBounds f p wirelen buflen t := by
  intro h
  have hin := h [⟨Opcode.ldWAbs.code, 0, 0, -4⟩, ⟨Opcode.retA.code, 0, 0, 0⟩] ⟨fun _ => 0, []⟩ 60 60 0 0 (fun _ => 0)
    (by decide) 0 _ (.refl _)
  rcases hin ⟨Opcode.ldWAbs.code, 0, 0, -4⟩ .ldWAbs rfl (by decide) with hret | hread
  · exact absurd hret nofun
  · exact absurd (hread (-4) (by decide)).1 (by decide)

/-! ## What a run depends on -/

/-- **What is around a packet** does not matter: two contiguous packets with the same `buflen` bytes give the
same result, if every load at a negative offset fails its test. Source: bpf_filter. Kind: C -/
theorem bpfFilter_congr (hlen : buflen ≠ 0)
    (hwrap : ∀ n t, Steps (step f p wirelen buflen) n s t → NoWrap f buflen t)
    (hbytes : ∀ i : ℤ, 0 ≤ i → i < buflen.toNat → p.bytes i = p'.bytes i) (fuel : ℕ) :
    bpfFilter fuel (some f) p wirelen buflen s = bpfFilter fuel (some f) p' wirelen buflen s := by
  refine run_eq_of_step_eq fuel s fun m t ht => ?_
  unfold step
  cases hins : fetch f t.pc with
  | none => rfl
  | some ins =>
    dsimp only
    cases hop : Opcode.ofCode ins.code with
    | none => rfl
    | some op =>
      refine exec_congr hlen fun i hi => ?_
      cases hload : op.load? ins t with
      | none =>
        rw [reads, hload] at hi
        exact absurd hi not_mem_nil
      | some kn =>
        obtain ⟨k, n⟩ := kn
        have hrej : rejects buflen k n = false := by
          by_contra hrej
          simp [reads, hload, hrej] at hi
        have hk : 0 ≤ k.toInt := by
          by_contra hk
          rw [hwrap m t ht ins op k n hins hop hload (Int.not_le.mp hk)] at hrej
          exact Bool.noConfusion hrej
        have hle := add_le_of_not_rejects (op.load?_size hload) hk hrej
        obtain ⟨j, hj, rfl⟩ := (mem_reads hload hrej).mp hi
        exact hbytes _ (by omega) (by omega)

/-- A byte is loaded. Kind: C -/
theorem bpfFilter_congr_ldB : bpfFilter 2 (some [⟨Opcode.ldBAbs.code, 0, 0, 0⟩]) ⟨fun _ => 7, []⟩ 1 1
      (.start 0 0 fun _ => 0) =
    bpfFilter 2 (some [⟨Opcode.ldBAbs.code, 0, 0, 0⟩]) ⟨fun i => if i = 0 then 7 else 8, []⟩ 1 1
      (.start 0 0 fun _ => 0) := by
  refine bpfFilter_congr (by decide) (fun n t _ ins op k n' hins hop hload hk => ?_) (fun i h0 h1 => ?_) 2
  · have hmem : ins ∈ [(⟨Opcode.ldBAbs.code, 0, 0, 0⟩ : BpfInsn)] := by
      rw [fetch] at hins
      split_ifs at hins
      exact mem_of_getElem? hins
    obtain rfl := mem_singleton.mp hmem
    obtain rfl : op = .ldBAbs := some.inj (hop.symm.trans (by decide))
    obtain ⟨rfl, -⟩ := Prod.mk.inj (some.inj hload)
    exact absurd hk (by decide)
  · obtain rfl : i = 0 := Int.le_antisymm (Int.lt_add_one_iff.mp h1) h0
    rfl

end Bsd386.Net.Bpf
