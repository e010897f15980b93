import Bsd386.Net.Radix.Match

/-!
# Radix trees: lookups in every state of a run

A run is a sequence of calls of `rn_addroute` and `rn_delete` from `rn_inithead` on. In a run of
safe calls every state has the invariant (`SafeRun.ok`), and so

Without the condition a route may become invisible: `not_forall_rnMatch_answers`.
-/

namespace Bsd386.Net.Radix

open List

open Lib.Bytes (Byte)

/-! ## Runs -/

/-- The state after a sequence of calls. -/
def run (st : State) : List Op → Option State
  | [] => some st
  | op :: ops => (step st op).bind fun st' => run st' ops

/-- A sequence of calls with good arguments, each of them safe in its state. -/
def SafeRun (off L : ℕ) (st : State) : List Op → Prop
  | [] => True
  | op :: ops => OpOk off L op ∧ Safe st op ∧ ∀ st', step st op = some st' → SafeRun off L st' ops

variable {off L : ℕ} {st : State} {g : Ghost} {v old : Key} {t : ℕ} {op : Op} {ops : List Op}

section

variable (hok : Ok off L st g)
include hok

theorem step_ok (hL : L ≤ maxkeylen) (hop : OpOk off L op) (hsafe : Safe st op) :
    ∃ st' g', step st op = some st' ∧ Ok off L st' g' := by
  cases op with
  | add v netmask =>
    rcases rnAddroute_spec hok hL hop hsafe with ⟨masks', g', h, hok', -⟩ | ⟨st', g', h, hok', -⟩
    · exact ⟨_, g', by rw [step, h]; rfl, hok'⟩
    · exact ⟨st', g', by rw [step, h]; rfl, hok'⟩
  | delete v netmask =>
    rcases rnDelete_spec hok hL hop hsafe with h | ⟨e, st', g', h, hok', -⟩
    · exact ⟨st, g, by rw [step, h]; rfl, hok⟩
    · exact ⟨st', g', by rw [step, h]; rfl, hok'⟩

theorem SafeRun.ok (hL : L ≤ maxkeylen) (hops : SafeRun off L st ops) :
    ∃ st' g', run st ops = some st' ∧ Ok off L st' g' := by
  induction ops generalizing st g with
  | nil => exact ⟨st, g, rfl, hok⟩
  | cons op ops ih =>
    obtain ⟨hop, hsafe, hrest⟩ := hops
    obtain ⟨st', g', hstep, hok'⟩ := step_ok hok hL hop hsafe
    obtain ⟨st'', g'', hrun, hok''⟩ := ih hok' (hrest st' hstep)
    exact ⟨st'', g'', by rw [run, hstep]; exact hrun, hok''⟩

/-! ## Lookups -/

theorem Ok.mem_chain_of_key {e : ℕ} (ht : .leaf t ∈ g.live) (he : e ∈ g.routes)
    (hkey : SameBytes off L (st.tree.leafKey e) (st.tree.leafKey t)) :
    e ∈ g.chain t := by
  obtain ⟨j, hj, he⟩ := he
  have hjt : j = t := hok.shape.leaf_unique hj ht (agree_mul_iff.mpr fun i h1 h2 => by
    rw [← hok.chains.key hj he i h1 h2, hkey i h1 h2])
  exact hjt ▸ he

theorem Ok.not_covers_zeros {e : ℕ} (hchain : g.chain 0 = [0])
    (hsame : SameBytes off L v (st.tree.leafKey 0)) (he : IsEntry st.tree e) :
    ¬ Covers off L st v e := by
  intro hcov
  obtain ⟨her, hroot⟩ := hok.isEntry_iff.mp he
  have hkey : SameBytes off L (st.tree.leafKey e) (st.tree.leafKey 0) := by
    intro i h1 h2
    rw [← hcov i h1 h2, hsame i h1 h2, hok.shape.zeros_key]
    exact BitVec.zero_and
  have hmem := hok.mem_chain_of_key hok.shape.zeros_mem her hkey
  rw [hchain, mem_singleton] at hmem
  have hroot0 := (hok.chains.root hok.shape.zeros_mem (hok.chains.self_mem hok.shape.zeros_mem)).mpr
    (.inl rfl)
  rw [hmem, hroot0] at hroot
  exact absurd hroot nofun

theorem Ok.answers_iff (hL : L ≤ maxkeylen) (hlen : vlen v = L) (old : Key) :
    ∃ r, rnMatch st old v = some r ∧ (Answers off L st v r ↔ ¬ HiddenByOnes off L st v) := by
  have hs := hok.shape
  have hc := hok.chains
  obtain ⟨t, r, ht, hfind, hmatch, hout⟩ := rnMatch_spec hok hL hlen old
  refine ⟨r, hmatch, ?_⟩
  have hroutes : ∀ {e}, e ∈ g.chain t → e ∈ g.routes := fun he => ⟨t, ht, he⟩
  have hself := hc.self_mem ht
  -- an entry found is an answer, and the all-ones leaf has hidden nothing
  have hfound : ∀ {e}, IsEntry st.tree e → Covers off L st v e → r = some e →
      (SameBytes off L v (st.tree.leafKey t) → SameBytes off L v (st.tree.leafKey e)) →
      (Answers off L st v r ↔ ¬ HiddenByOnes off L st v) := by
    intro e he hcov hr hsame
    refine ⟨fun _ hhidden => ?_, fun _ => .inl ⟨e, hr, he, hcov⟩⟩
    obtain ⟨hones, hno, -⟩ := hhidden
    refine hno ⟨e, he, fun i h1 h2 => ?_⟩
    have hv : SameBytes off L v (st.tree.leafKey 1) := by
      intro i h1 h2
      rw [hones i h1 h2, hs.ones_key]
      rfl
    obtain rfl : t = 1 := hfind.unique
      (hs.finds_self hs.ones_mem (agree_mul_iff.mpr fun i h1 h2 => (hv i h1 h2).symm))
    rw [← hsame hv i h1 h2, hones i h1 h2]
  cases hout with
  | exact hsame hroot =>
    exact hfound (hok.isEntry_iff.mpr ⟨hroutes hself, hroot⟩)
      (hok.covers_of_sameBytes (hroutes hself) hsame) rfl id
  | @dup d l hsame hroot hchain =>
    have hd : d ∈ g.chain t := by
      rw [hchain]
      exact mem_cons_of_mem _ (mem_cons_self ..)
    have hkey : SameBytes off L v (st.tree.leafKey d) := fun i h1 h2 => by
      rw [hsame i h1 h2, hc.key ht hd i h1 h2]
    have hne : d ≠ t := by
      rintro rfl
      have hnd := (hc.linked ht).nodup
      rw [hchain] at hnd
      exact (nodup_cons.mp hnd).1 (mem_cons_self ..)
    have hrootd : st.tree.leafRoot d = false := by
      refine Bool.eq_false_iff.mpr fun h => hne ?_
      rcases (hc.root ht hd).mp h with rfl | rfl
      · exact hc.unique hs hs.zeros_mem ht (hc.self_mem hs.zeros_mem) hd
      · exact hc.unique hs hs.ones_mem ht (hc.self_mem hs.ones_mem) hd
    exact hfound (hok.isEntry_iff.mpr ⟨hroutes hd, hrootd⟩)
      (hok.covers_of_sameBytes (hroutes hd) hkey) rfl fun _ => hkey
  | root hsame hroot hchain =>
    -- only the leaf of `rn_inithead` has the key
    have hnokey : ¬ ∃ e, IsEntry st.tree e ∧ SameBytes off L (st.tree.leafKey e) (st.tree.leafKey t) := by
      rintro ⟨e, he, hkey⟩
      obtain ⟨her, hre⟩ := hok.isEntry_iff.mp he
      have hmem := hok.mem_chain_of_key ht her hkey
      rw [hchain, mem_singleton] at hmem
      rw [hmem, hroot] at hre
      exact absurd hre nofun
    have hanswer : Answers off L st v (some t) ↔ ¬ ∃ e, IsEntry st.tree e ∧ Covers off L st v e := by
      constructor
      · rintro (⟨e, hr, he, -⟩ | ⟨hno, -⟩)
        · obtain rfl := Option.some.inj hr
          rw [he.2] at hroot
          exact absurd hroot nofun
        · exact hno
      · exact fun hno => .inr ⟨hno, fun e he => Option.some.inj he ▸ hroot⟩
    rw [hanswer, not_iff_not]
    constructor
    · rintro ⟨e, he, hcov⟩
      rcases (hc.root ht hself).mp hroot with rfl | rfl
      · exact absurd hcov (hok.not_covers_zeros hchain hsame he)
      refine ⟨fun i h1 h2 => ?_, ?_, e, he, hcov⟩
      · rw [hsame i h1 h2, hs.ones_key]
        rfl
      · rintro ⟨a, ha, hones⟩
        refine hnokey ⟨a, ha, fun i h1 h2 => ?_⟩
        rw [hones i h1 h2, hs.ones_key]
        rfl
    · exact fun hhidden => hhidden.2.2
  | @chain l1 l2 e M hdiff hchain hM hcov _ =>
    have he : e ∈ g.chain t := by
      rw [hchain]
      exact mem_append_right _ (mem_cons_self ..)
    refine hfound (hok.isEntry_iff.mpr ⟨hroutes he, ?_⟩) hcov rfl fun h => absurd h hdiff
    refine Bool.eq_false_iff.mpr fun h => ?_
    rw [hc.root_mask ((hc.root ht he).mp h)] at hM
    exact absurd hM nofun
  | @up b m e l1 l2 hpassed _ _ _ he hM hcov _ =>
    obtain ⟨j, hj, hej⟩ := he
    have hroot : st.tree.leafRoot e = false := by
      refine Bool.eq_false_iff.mpr fun h => ?_
      rw [hc.root_mask ((hc.root hj hej).mp h)] at hM
      exact absurd hM nofun
    refine hfound (hok.isEntry_iff.mpr ⟨⟨j, hj, hej⟩, hroot⟩) hcov rfl fun hsame => ?_
    exact absurd (hok.covers_of_sameBytes (hroutes hself) hsame) (hpassed t hself)
  | none hno =>
    have hno' : ¬ ∃ e, IsEntry st.tree e ∧ Covers off L st v e := by
      rintro ⟨e, he, hcov⟩
      exact hno e (hok.isEntry_iff.mp he).1 hcov
    exact ⟨fun _ hhidden => hno' hhidden.2.2, fun _ => .inr ⟨hno', nofun⟩⟩

end

/-- **Lookups.** In every state of a run of safe calls, and for every address, `rn_match` returns an
entry that covers it exactly when there is one, unless the address is all ones and hidden by the leaf
of `rn_ones`. Kind: P. -/
theorem rnMatch_answers_iff (hoff : off < L) (hL : L ≤ maxkeylen)
    (hops : SafeRun off L (initial off) ops) :
    ∃ st, run (initial off) ops = some st ∧ ∀ old v, vlen v = L →
      ∃ r, rnMatch st old v = some r ∧ (Answers off L st v r ↔ ¬ HiddenByOnes off L st v) := by
  obtain ⟨st, g, hrun, hok⟩ := hops.ok (ok_initial hoff) hL
  exact ⟨st, hrun, fun old v hlen => hok.answers_iff hL hlen old⟩

def ofBytes (l : List Byte) : Key := fun i => l.getD i 0

def inet (a b c d : Byte) : Key := ofBytes [8, 2, 0, 0, a, b, c, d]

def classA : Key := ofBytes [5, 0, 0, 0, 0xff]

theorem safeRun_single : SafeRun 4 8 (initial 4) [.add (inet 10 0 0 0) (some classA)] := by
  refine ⟨⟨by decide, ?_⟩, ?_, fun _ _ => trivial⟩
  · intro m hm
    obtain rfl := Option.some.inj hm
    have hand : ∀ i, i < 8 → inet 10 0 0 0 i &&& padded classA i = inet 10 0 0 0 i ∨ i < 4 := by
      decide
    exact ⟨by decide, fun i h1 h2 => (hand i h2).resolve_right (by omega)⟩
  · have hsearch : rnSearch (initial 4).tree (inet 10 0 0 0) depthFuel (.node 0) = some 0 := by
      decide
    have hdiff : firstDiff (inet 10 0 0 0) ((initial 4).tree.leafKey 0) (headOff (initial 4).tree)
        (vlen (inet 10 0 0 0)) = some 4 := by
      decide
    have hdescend : descend (initial 4).tree (inet 10 0 0 0)
        (diffBit (inet 10 0 0 0) ((initial 4).tree.leafKey 0) 4) depthFuel 0 = some (0, .leaf 0) := by
      decide
    rw [Safe, SafeAdd, hsearch]
    rintro ⟨e, he, -⟩
    have htail : (chainOf (initial 4).tree 0).tail = [] := by decide
    rw [htail] at he
    exact absurd he not_mem_nil

/-- The condition of `rnMatch_answers_iff` at a route to a network. Kind: C. -/
theorem rnMatch_answers_iff_single :
    ∃ st, run (initial 4) [.add (inet 10 0 0 0) (some classA)] = some st ∧ ∀ old v, vlen v = 8 →
      ∃ r, rnMatch st old v = some r ∧ (Answers 4 8 st v r ↔ ¬ HiddenByOnes 4 8 st v) :=
  rnMatch_answers_iff (by decide) (by decide) safeRun_single

/-- The route to the network 10 is not promoted when the leaf it shares with the host 10.0.0.0 gets
a neighbour.
Source: rn_addroute -/
def unpromoted : List Op :=
  [.add (inet 10 0 0 0) none, .add (inet 10 0 0 0) (some classA), .add (inet 10 128 0 1) none]

/-- **A route that is not found.** After the calls `unpromoted`, the network 10 covers 10.200.0.1,
and the lookup finds nothing.
Source: rn_addroute, rn_match Kind: C -/
theorem not_forall_rnMatch_answers :
    ¬ ∀ (off L : ℕ) (ops : List Op), off < L → L ≤ maxkeylen → (∀ op ∈ ops, OpOk off L op) →
      ∀ st, run (initial off) ops = some st → ∀ old v, vlen v = L →
        ∃ r, rnMatch st old v = some r ∧ Answers off L st v r := by
  intro hall
  have hops : ∀ op ∈ unpromoted, OpOk 4 8 op := by
    have hand : ∀ i, i < 8 → inet 10 0 0 0 i &&& padded classA i = inet 10 0 0 0 i ∨ i < 4 := by
      decide +kernel
    refine forall_mem_cons.mpr ⟨⟨by decide +kernel, nofun⟩, forall_mem_cons.mpr
      ⟨⟨by decide +kernel, fun m hm => ?_⟩, forall_mem_cons.mpr
        ⟨⟨by decide +kernel, nofun⟩, nofun⟩⟩⟩
    obtain rfl := Option.some.inj hm
    exact ⟨by decide +kernel, fun i h1 h2 => (hand i h2).resolve_right (by omega)⟩
  obtain ⟨st, hrun⟩ : ∃ st, run (initial 4) unpromoted = some st :=
    Option.isSome_iff_exists.mp (by decide +kernel)
  have hmatch : ((run (initial 4) unpromoted).bind fun st => rnMatch st rnZeros (inet 10 200 0 1)) =
      some none := by
    decide +kernel
  have hlinks : (run (initial 4) unpromoted).map (fun st => (child st.tree 0 false,
      child st.tree 2 true, child st.tree 4 false, st.tree.leafDup 2, st.tree.leafRoot 3)) =
      some (.node 2, .node 4, .leaf 2, some 3, false) := by
    decide +kernel
  have hbytes : (run (initial 4) unpromoted).map (fun st : State => decide (∀ i : ℕ, i < 8 → i < 4 ∨
      inet 10 200 0 1 i &&& maskBytes st.masks (st.tree.leafMask 3) i = st.tree.leafKey 3 i)) =
      some true := by
    decide +kernel
  rw [hrun] at hmatch hlinks hbytes
  simp only [Option.map_some, Option.some.injEq, Prod.mk.injEq, decide_eq_true_eq] at hlinks hbytes
  obtain ⟨h1, h2, h3, h4, h5⟩ := hlinks
  have hentry : IsEntry st.tree 3 := by
    refine ⟨.dup ?_ h4, h5⟩
    rw [← h3]
    refine .child _ ?_
    rw [← h2]
    refine .child _ ?_
    rw [← h1]
    exact .child _ .top
  have hcov : Covers 4 8 st (inet 10 200 0 1) 3 := fun i h1 h2 =>
    (hbytes i h2).resolve_left (by omega)
  obtain ⟨r, hr, hans⟩ := hall 4 8 unpromoted (by decide) (by decide) hops st hrun rnZeros
    (inet 10 200 0 1) (by decide +kernel)
  obtain rfl : none = r := Option.some.inj (hmatch.symm.trans hr)
  rcases hans with ⟨e, he, -⟩ | ⟨hno, -⟩
  · exact absurd he nofun
  · exact hno ⟨3, hentry, hcov⟩

end Bsd386.Net.Radix
