import Bsd386.Net.Radix.Lookup
import Mathlib.Order.Interval.Finset.Nat

/-!
# Radix trees: the longest match

With contiguous netmasks a lookup meets the entries that cover the address with their longest masks
first, as far as they lie in different leaves: `Ok.entryLen_le_of_notMem_chain`, `Ok.rmB_le`. Routes
with one key share a leaf, and their chain is in the order in which they were added. The source says
of this that the masks of a chain ought to be sorted. `SortedAdd` is the condition that a call does
not add a longer mask behind a shorter one.
-/

namespace Bsd386.Net.Radix

open List Option

open Lib.Bytes (Byte)

/-! ## Lengths of masks -/

def oneBits (off L : ℕ) (m : Key) : Finset ℕ :=
  (Finset.Ico (8 * off) (8 * L)).filter fun c => bitAt m c = true

def maskLen (off L : ℕ) (m : Key) : ℕ := (oneBits off L m).card

def Contiguous (off : ℕ) (m : Key) : Prop :=
  ∀ c d, 8 * off ≤ c → c < d → bitAt m d = true → bitAt m c = true

/-- The length of the mask of a leaf. -/
def entryLen (off L : ℕ) (st : State) (e : ℕ) : ℕ :=
  maskLen off L (maskBytes st.masks (st.tree.leafMask e))

/-- The bits of a netmask passed to a call. Source: rn_addroute -/
def netmaskBytes : Option Key → Key
  | none => rnOnes
  | some m => padded m

variable {off L : ℕ} {st st' : State} {g g' : Ghost} {v old old' : Key} {e e' t : ℕ} {op : Op}
  {ops ops' : List Op} {m m' : Key}

theorem mem_oneBits {c : ℕ} : c ∈ oneBits off L m ↔ (8 * off ≤ c ∧ c < 8 * L) ∧ bitAt m c = true := by
  rw [oneBits, Finset.mem_filter, Finset.mem_Ico]

theorem contiguous_rnOnes : Contiguous off rnOnes := fun _ _ _ _ _ => bitAt_of_ones rfl

theorem maskLen_le_of_bit {c : ℕ} (hm : Contiguous off m) (hm' : Contiguous off m')
    (hc : 8 * off ≤ c) (hzero : bitAt m c = false) (hone : bitAt m' c = true) :
    maskLen off L m ≤ maskLen off L m' := by
  refine Finset.card_le_card fun d hd => ?_
  obtain ⟨hr, hbit⟩ := mem_oneBits.mp hd
  have hlt : d < c := by
    rcases Nat.lt_trichotomy d c with hlt | rfl | hlt
    · exact hlt
    · exact absurd (hzero.symm.trans hbit) Bool.false_ne_true
    · exact absurd (hzero.symm.trans (hm c d hc hlt hbit)) Bool.false_ne_true
  exact mem_oneBits.mpr ⟨hr, hm' d c hr.1 hlt hone⟩

theorem maskLen_le_of_index {b b' : ℤ} (hm : Contiguous off m) (hb : IsIndex off m b)
    (hb' : IsIndex off m' b') (hle : b ≤ b') : maskLen off L m ≤ maskLen off L m' := by
  obtain ⟨c, rfl, hzero, -, hlow⟩ := hb
  obtain ⟨c', rfl, -, hones, -⟩ := hb'
  refine Finset.card_le_card fun d hd => ?_
  obtain ⟨hr, hbit⟩ := mem_oneBits.mp hd
  refine mem_oneBits.mpr ⟨hr, hones d hr.1 ?_⟩
  by_contra hge
  rcases hlow with hlow | hz
  · rcases Nat.lt_trichotomy d c with hlt | rfl | hlt
    · omega
    · exact absurd (hzero.symm.trans hbit) Bool.false_ne_true
    · exact absurd (hzero.symm.trans (hm c d hlow hlt hbit)) Bool.false_ne_true
  · rw [hz, bitAt_of_zero rfl] at hbit
    exact absurd hbit Bool.false_ne_true

theorem sameBytes_of_maskLen_eq (hm : Contiguous off m) (hm' : Contiguous off m')
    (hlen : maskLen off L m = maskLen off L m') : SameBytes off L m m' := by
  -- one of the two sets of ones contains the other
  have hsub : oneBits off L m ⊆ oneBits off L m' ∨ oneBits off L m' ⊆ oneBits off L m := by
    by_contra hnot
    rw [not_or, Finset.not_subset, Finset.not_subset] at hnot
    obtain ⟨⟨c, hc, hc'⟩, d, hd, hd'⟩ := hnot
    obtain ⟨hcr, hcbit⟩ := mem_oneBits.mp hc
    obtain ⟨hdr, hdbit⟩ := mem_oneBits.mp hd
    rcases Nat.lt_trichotomy c d with hlt | rfl | hlt
    · exact hc' (mem_oneBits.mpr ⟨hcr, hm' c d hcr.1 hlt hdbit⟩)
    · exact hc' hd
    · exact hd' (mem_oneBits.mpr ⟨hdr, hm d c hdr.1 hlt hcbit⟩)
  have heq : oneBits off L m = oneBits off L m' := by
    rcases hsub with hsub | hsub
    · exact Finset.eq_of_subset_of_card_le hsub (Nat.le_of_eq hlen.symm)
    · exact (Finset.eq_of_subset_of_card_le hsub (Nat.le_of_eq hlen)).symm
  refine agree_mul_iff.mp fun c h1 h2 => ?_
  rw [Bool.eq_iff_iff]
  constructor
  · intro hbit
    exact (mem_oneBits.mp (heq ▸ mem_oneBits.mpr ⟨⟨h1, h2⟩, hbit⟩)).2
  · intro hbit
    exact (mem_oneBits.mp (heq ▸ mem_oneBits.mpr ⟨⟨h1, h2⟩, hbit⟩)).2

/-! ## Sorted chains -/

/-- What else holds in a run with contiguous masks and sorted chains. -/
structure Sorted (off L : ℕ) (st : State) (g : Ghost) : Prop where
  contiguous {e : ℕ} : e ∈ g.routes → Contiguous off (maskBytes st.masks (st.tree.leafMask e))
  chain {j : ℕ} : .leaf j ∈ g.live → (g.chain j).Pairwise fun a b =>
    st.tree.leafRoot a = false → entryLen off L st b ≤ entryLen off L st a

/-- The mask passed to a call is contiguous. -/
def ContiguousOp (off : ℕ) : Op → Prop
  | .add _ netmask => Contiguous off (netmaskBytes netmask)
  | .delete _ _ => True

/-- The call does not put a longer mask behind a shorter one.
Source: rn_addroute, "we really ought to sort the masks for a duplicated key" -/
def SortedAdd (off L : ℕ) (st : State) (v : Key) (netmask : Option Key) : Prop :=
  match rnSearch st.tree v depthFuel (.node 0) with
  | none => True
  | some t =>
    firstDiff v (st.tree.leafKey t) (headOff st.tree) (vlen v) = none →
      (∃ e ∈ chainOf st.tree t, SameMask st.masks netmask (st.tree.leafMask e)) ∨
        ∀ e ∈ chainOf st.tree t, st.tree.leafRoot e = false →
          maskLen off L (netmaskBytes netmask) ≤ entryLen off L st e

/-- The call keeps the chains sorted. Source: rn_addroute -/
def KeepsSorted (off L : ℕ) (st : State) : Op → Prop
  | .add v netmask => SortedAdd off L st v netmask
  | .delete _ _ => True

/-- A sequence of safe calls with contiguous masks that keep the chains sorted. -/
def SortedRun (off L : ℕ) (st : State) : List Op → Prop
  | [] => True
  | op :: ops => OpOk off L op ∧ ContiguousOp off op ∧ Safe st op ∧ KeepsSorted off L st op ∧
      ∀ st', step st op = some st' → SortedRun off L st' ops

theorem Ok.maskBytes_more {masks' : Heap} (hok : Ok off L st g)
    (hmore : MoreMasks st.masks masks' g.mlive g'.mlive) (he : e ∈ g.routes) :
    maskBytes masks' (st.tree.leafMask e) = maskBytes st.masks (st.tree.leafMask e) := by
  cases hM : st.tree.leafMask e with
  | none => rfl
  | some M => exact hmore.leafKey M (hok.notes.mask he hM).1.1

theorem Sorted.add {netmask : Option Key} (hsort : Sorted off L st g) (hok : Ok off L st g)
    (hmore : MoreMasks st.masks st'.masks g.mlive g'.mlive)
    (hadd : Added off L st st' g g' v netmask e) (hcont : Contiguous off (netmaskBytes netmask))
    (hle : ∀ t a, .leaf t ∈ g.live → SameBytes off L v (st.tree.leafKey t) → a ∈ g.chain t →
      st.tree.leafRoot a = false → maskLen off L (netmaskBytes netmask) ≤ entryLen off L st a) :
    Sorted off L st' g' := by
  have hbytes : maskBytes st'.masks (st'.tree.leafMask e) = netmaskBytes netmask := by
    cases hM : st'.tree.leafMask e with
    | none =>
      rw [hadd.nomask hM]
      rfl
    | some M =>
      obtain ⟨m, rfl, hkey⟩ := hadd.mask M hM
      exact hkey
  have hold : ∀ {a}, a ∈ g.routes →
      maskBytes st'.masks (st'.tree.leafMask a) = maskBytes st.masks (st.tree.leafMask a) := by
    intro a ha
    rw [(hadd.old ha).2.1]
    exact hok.maskBytes_more hmore ha
  have hlen : ∀ {a}, a ∈ g.routes → entryLen off L st' a = entryLen off L st a := by
    intro a ha
    rw [entryLen, hold ha, entryLen]
  constructor
  · intro a ha
    rw [hadd.routes] at ha
    rcases ha with rfl | ha
    · rw [hbytes]
      exact hcont
    · rw [hold ha]
      exact hsort.contiguous ha
  · intro k hk
    -- the old part of a chain stays sorted
    have hpart : .leaf k ∈ g.live → (g.chain k).Pairwise fun a b =>
        st'.tree.leafRoot a = false → entryLen off L st' b ≤ entryLen off L st' a := by
      intro hk
      refine (hsort.chain hk).imp_of_mem fun {a b} ha hb hab hroot => ?_
      rw [hlen ⟨k, hk, ha⟩, hlen ⟨k, hk, hb⟩]
      exact hab ((hadd.old ⟨k, hk, ha⟩).2.2 ▸ hroot)
    rcases hadd.chain hk with ⟨hk, heq⟩ | ⟨hk, heq, hsame⟩ | heq
    · rw [heq]
      exact hpart hk
    · rw [heq]
      refine pairwise_append.mpr ⟨hpart hk, pairwise_singleton _ _, fun a ha b hb hroot => ?_⟩
      obtain rfl := mem_singleton.mp hb
      rw [entryLen, hbytes, hlen ⟨k, hk, ha⟩]
      exact hle k a hk hsame ha ((hadd.old ⟨k, hk, ha⟩).2.2 ▸ hroot)
    · rw [heq]
      exact pairwise_singleton _ _

theorem Sorted.delete (hsort : Sorted off L st g) (hdel : Deleted st st' g g' e) :
    Sorted off L st' g' := by
  have hlen : ∀ a, entryLen off L st' a = entryLen off L st a := by
    intro a
    rw [entryLen, hdel.masks, hdel.leaves.leafMask, entryLen]
  constructor
  · intro a ha
    rw [hdel.routes] at ha
    rw [hdel.masks, hdel.leaves.leafMask]
    exact hsort.contiguous ha.1
  · intro k hk
    obtain ⟨j, hj, hsub⟩ := hdel.sub hk
    refine (hsort.chain hj).sublist hsub |>.imp fun {a b} hab hroot => ?_
    rw [hlen, hlen]
    exact hab (hdel.leaves.leafRoot ▸ hroot)

theorem Sorted.more {masks' : Heap} (hsort : Sorted off L st g) (hok : Ok off L st g)
    (hmore : MoreMasks st.masks masks' g.mlive g'.mlive) (hlive : g'.live = g.live)
    (hchain : g'.chain = g.chain) : Sorted off L ⟨st.tree, masks'⟩ g' := by
  have hroutes : g'.routes = g.routes := by rw [Ghost.routes, hlive, hchain, Ghost.routes]
  have hold : ∀ {a}, a ∈ g.routes →
      maskBytes masks' (st.tree.leafMask a) = maskBytes st.masks (st.tree.leafMask a) :=
    fun ha => hok.maskBytes_more hmore ha
  constructor
  · intro a ha
    rw [hroutes] at ha
    rw [hold ha]
    exact hsort.contiguous ha
  · intro k hk
    rw [hlive] at hk
    rw [hchain]
    refine (hsort.chain hk).imp_of_mem fun {a b} ha hb hab hroot => ?_
    show maskLen off L (maskBytes masks' (st.tree.leafMask b)) ≤
      maskLen off L (maskBytes masks' (st.tree.leafMask a))
    rw [hold ⟨k, hk, ha⟩, hold ⟨k, hk, hb⟩]
    exact hab hroot

theorem step_sorted (hok : Ok off L st g) (hsort : Sorted off L st g) (hL : L ≤ maxkeylen)
    (hop : OpOk off L op) (hcont : ContiguousOp off op) (hsafe : Safe st op)
    (hkeep : KeepsSorted off L st op) :
    ∃ st' g', step st op = some st' ∧ Ok off L st' g' ∧ Sorted off L st' g' := by
  have hs := hok.shape
  cases op with
  | add v netmask =>
    rcases rnAddroute_spec hok hL hop hsafe with
      ⟨masks', g', h, hok', h1, h2, h3, -⟩ | ⟨st', g', h, hok', hadd, hmore, hnew⟩
    · exact ⟨_, g', by rw [step, h]; rfl, hok', hsort.more hok h3 h1 h2⟩
    refine ⟨st', g', by rw [step, h]; rfl, hok', hsort.add hok hmore hadd hcont ?_⟩
    intro t a ht hsame ha hroot
    have hhead : headOff st.tree = off := by rw [headOff, hs.top_bit]; omega
    have hfind := hs.finds_self ht (agree_mul_iff.mpr fun i h1 h2 => (hsame i h1 h2).symm)
    have hsearch := (hs.rnSearch_iff hL hs.top_mem).mpr hfind
    rw [KeepsSorted, SortedAdd, hsearch] at hkeep
    simp only [hhead, hop.1, hok.chains.chainOf_eq ht] at hkeep
    rcases hkeep (firstDiff_eq_none.mpr hsame) with ⟨b, hb, hsm⟩ | hle
    · refine absurd ⟨fun i h1 h2 => ?_, hsm⟩ (hnew b ⟨t, ht, hb⟩)
      rw [hsame i h1 h2, hok.chains.key ht hb i h1 h2]
    · exact hle a ha hroot
  | delete v netmask =>
    rcases rnDelete_spec hok hL hop hsafe with h | ⟨e, st', g', h, hok', hdel⟩
    · exact ⟨st, g, by rw [step, h]; rfl, hok, hsort⟩
    · exact ⟨st', g', by rw [step, h]; rfl, hok', hsort.delete hdel⟩

theorem SortedRun.ok (hok : Ok off L st g) (hsort : Sorted off L st g) (hL : L ≤ maxkeylen)
    (hops : SortedRun off L st ops) :
    ∃ st' g', run st ops = some st' ∧ Ok off L st' g' ∧ Sorted off L st' g' := by
  induction ops generalizing st g with
  | nil => exact ⟨st, g, rfl, hok, hsort⟩
  | cons op ops ih =>
    obtain ⟨hop, hcont, hsafe, hkeep, hrest⟩ := hops
    obtain ⟨st', g', hstep, hok', hsort'⟩ := step_sorted hok hsort hL hop hcont hsafe hkeep
    obtain ⟨st'', g'', hrun, h'⟩ := ih hok' hsort' (hrest st' hstep)
    exact ⟨st'', g'', by rw [run, hstep]; exact hrun, h'⟩

theorem sorted_initial : Sorted off L (initial off) ⟨firstLive, fun _ => rnZeros, firstLive,
    fun _ => rnZeros, fun j => [j], fun _ => []⟩ :=
  ⟨fun _ => contiguous_rnOnes, fun _ => pairwise_singleton _ _⟩

/-! ## The longest match -/

/-- The answer to a lookup: the entry with the longest mask among those that cover the address, if
there is one.
Source: rn_match -/
def AnswersLongest (off L : ℕ) (st : State) (v : Key) (r : Option ℕ) : Prop :=
  (∃ e, r = some e ∧ IsEntry st.tree e ∧ Covers off L st v e ∧
    ∀ e', IsEntry st.tree e' → Covers off L st v e' → entryLen off L st e' ≤ entryLen off L st e) ∨
  (¬ ∃ e, IsEntry st.tree e ∧ Covers off L st v e) ∧ ∀ e, r = some e → st.tree.leafRoot e = true

theorem Ok.entryLen_le_of_notMem_chain (hok : Ok off L st g) (hsort : Sorted off L st g)
    (ht : .leaf t ∈ g.live) (hf : Finds st.tree v (.node 0) t) (he : e ∈ g.chain t)
    (he' : e' ∈ g.routes) (hcov : Covers off L st v e') (hne : e' ∉ g.chain t) :
    entryLen off L st e' ≤ entryLen off L st e := by
  obtain ⟨a, ha, -, -, hbit, hzero⟩ := hok.exists_branch hf he' hcov hne
  have hlow := hok.shape.top_le ha
  have hhigh := hok.shape.bit_lt ha
  refine maskLen_le_of_bit (hsort.contiguous he') (hsort.contiguous ⟨t, ht, he⟩) hlow hzero ?_
  -- the key has a one there, and only bits of its mask
  have hkey : bitAt (st.tree.leafKey e) (st.tree.nodeB a) = true := by
    rw [agree_mul_iff.mpr (hok.chains.key ht he) _ hlow hhigh]
    exact hbit
  rw [bitAt_and (hok.key_and_mask ⟨t, ht, he⟩ (by omega) (by omega)).symm, Bool.and_eq_true] at hkey
  exact hkey.2

theorem Ok.rmB_le {b i m m' : ℕ} {l1 l2 : List ℕ} (hok : Ok off L st g) (hb : .node b ∈ g.live)
    (hi : .node i ∈ g.live) (hub : Under off st.tree g.pre b (st.tree.leafKey t))
    (hui : Under off st.tree g.pre i (st.tree.leafKey t)) (hsplit : g.list b = l1 ++ m :: l2)
    (hm' : m' ∈ g.list i)
    (hbefore : ¬ (st.tree.nodeB b < st.tree.nodeB i ∨ i = b ∧ m' ∈ l1)) :
    st.tree.rmB m ≤ st.tree.rmB m' := by
  have hm : m ∈ g.list b := hsplit ▸ mem_append_right _ (mem_cons_self ..)
  rw [not_or, not_and] at hbefore
  rcases hok.shape.above_cases hi hb hui hub with rfl | ⟨h0, hle⟩ | ⟨h0, hle⟩
  · have hmem := hm'
    rw [hsplit] at hmem
    rcases mem_append.mp hmem with hmem | hmem
    · exact absurd hmem (hbefore.2 rfl)
    rcases mem_cons.mp hmem with rfl | hmem
    · exact le_refl _
    · have hsorted := hok.lists.sorted hi
      rw [hsplit] at hsorted
      exact rel_of_pairwise_cons (pairwise_append.mp hsorted).2.1 hmem
  · have hhigh := hok.lists.high hb h0 hm
    have hlow := hok.lists.low hi hm'
    omega
  · have hlt := hok.shape.parent_lt hi h0
    omega

theorem Ok.longest_of_outcome {r : Option ℕ} (hok : Ok off L st g) (hsort : Sorted off L st g)
    (ht : .leaf t ∈ g.live) (hf : Finds st.tree v (.node 0) t)
    (hout : Outcome off L st g v t r) (he : r = some e) (hentry : IsEntry st.tree e)
    (he' : IsEntry st.tree e') (hcov : Covers off L st v e') :
    entryLen off L st e' ≤ entryLen off L st e := by
  have hc := hok.chains
  obtain ⟨her', hroot'⟩ := hok.isEntry_iff.mp he'
  -- in the chain of the leaf found, and elsewhere
  have hchain : ∀ l1 {l2 a}, g.chain t = l1 ++ a :: l2 → st.tree.leafRoot a = false →
      (e' ∈ g.chain t → e' ∈ l1 → False) → entryLen off L st e' ≤ entryLen off L st a := by
    intro l1 l2 a hsplit hroot hnot
    have ha : a ∈ g.chain t := hsplit ▸ mem_append_right _ (mem_cons_self ..)
    by_cases hmem : e' ∈ g.chain t
    · have hmem' := hmem
      rw [hsplit] at hmem'
      rcases mem_append.mp hmem' with hmem' | hmem'
      · exact (hnot hmem hmem').elim
      rcases mem_cons.mp hmem' with rfl | hmem'
      · exact Nat.le_refl _
      · have hpair := hsort.chain ht
        rw [hsplit] at hpair
        exact rel_of_pairwise_cons (pairwise_append.mp hpair).2.1 hmem' hroot
    · exact hok.entryLen_le_of_notMem_chain hsort ht hf ha her' hcov hmem
  cases hout with
  | exact _ hroot =>
    obtain rfl := some.inj he
    obtain ⟨l, hl, -⟩ := hc.eq_cons ht
    exact hchain [] hl hroot fun _ h => absurd h not_mem_nil
  | @dup d l _ hroot hl =>
    obtain rfl := some.inj he
    refine hchain [t] hl hentry.2 fun _ h => ?_
    rw [mem_singleton.mp h, hroot] at hroot'
    exact absurd hroot' nofun
  | root _ hroot =>
    obtain rfl := some.inj he
    exact absurd (hroot.symm.trans hentry.2) nofun
  | chain _ hl _ _ hpassed =>
    obtain rfl := some.inj he
    exact hchain _ hl hentry.2 fun _ h => hpassed e' h hcov
  | @up b m a l1 l2 hpassed hb hub hsplit _ hM _ hbefore =>
    obtain rfl := some.inj he
    have hmem : e' ∉ g.chain t := fun h => hpassed e' h hcov
    obtain ⟨i, m', hi, hui, hue, hm', hM'⟩ := hok.exists_note hf her' hcov hmem
    have hle := hok.rmB_le hb hi hub hui hsplit hm' fun h =>
      hbefore i m' e' hi hui hm' h her' hM' hue hcov
    have hm : m ∈ g.list b := hsplit ▸ mem_append_right _ (mem_cons_self ..)
    obtain ⟨hmask, hB⟩ := hok.lists.mask hb hm
    obtain ⟨hmask', hB'⟩ := hok.lists.mask hi hm'
    have hcont := hsort.contiguous her'
    rw [hM'] at hcont
    rw [entryLen, entryLen, hM, hM']
    exact maskLen_le_of_index hcont (hok.masks.index hmask') (hok.masks.index hmask) (by omega)
  | none => exact absurd he nofun

theorem Ok.answersLongest_iff (hok : Ok off L st g) (hsort : Sorted off L st g) (hL : L ≤ maxkeylen)
    (hlen : vlen v = L) (old : Key) :
    ∃ r, rnMatch st old v = some r ∧
      (AnswersLongest off L st v r ↔ ¬ HiddenByOnes off L st v) := by
  obtain ⟨r, hr, hiff⟩ := hok.answers_iff hL hlen old
  obtain ⟨t, r', ht, hf, hr', hout⟩ := rnMatch_spec hok hL hlen old
  obtain rfl : r' = r := some.inj (hr'.symm.trans hr)
  refine ⟨r', hr, ?_⟩
  rw [← hiff]
  constructor
  · rintro (⟨e, he, hentry, hcov, -⟩ | hno)
    · exact .inl ⟨e, he, hentry, hcov⟩
    · exact .inr hno
  · rintro (⟨e, he, hentry, hcov⟩ | hno)
    · exact .inl ⟨e, he, hentry, hcov, fun e' he' hcov' =>
        hok.longest_of_outcome hsort ht hf hout he hentry he' hcov'⟩
    · exact .inr hno

/-! ## Independence of the order -/

/-- The entries have the same key and the same mask. -/
def SameEntry (off L : ℕ) (st st' : State) (e e' : ℕ) : Prop :=
  SameBytes off L (st.tree.leafKey e) (st'.tree.leafKey e') ∧
    SameBytes off L (maskBytes st.masks (st.tree.leafMask e))
      (maskBytes st'.masks (st'.tree.leafMask e'))

/-- Every entry of the one tree is in the other. -/
def SubEntries (off L : ℕ) (st st' : State) : Prop :=
  ∀ e, IsEntry st.tree e → ∃ e', IsEntry st'.tree e' ∧ SameEntry off L st st' e e'

/-- The answers are the same: the same entry, or none in both cases. -/
def SameAnswer (off L : ℕ) (st st' : State) (r r' : Option ℕ) : Prop :=
  (∃ e e', r = some e ∧ r' = some e' ∧ IsEntry st.tree e ∧ IsEntry st'.tree e' ∧
    SameEntry off L st st' e e') ∨
  (∀ e, r = some e → st.tree.leafRoot e = true) ∧ ∀ e', r' = some e' → st'.tree.leafRoot e' = true

theorem SameEntry.covers (hsame : SameEntry off L st st' e e') (hcov : Covers off L st v e) :
    Covers off L st' v e' := by
  intro i h1 h2
  rw [← hsame.1 i h1 h2, ← hsame.2 i h1 h2]
  exact hcov i h1 h2

theorem SameEntry.entryLen_eq (hsame : SameEntry off L st st' e e') :
    entryLen off L st e = entryLen off L st' e' := by
  rw [entryLen, entryLen, maskLen, maskLen]
  congr 1
  ext c
  rw [mem_oneBits, mem_oneBits]
  refine and_congr_right fun hr => ?_
  rw [agree_mul_iff.mpr hsame.2 c hr.1 hr.2]

theorem Ok.root_of_not_answers {r : Option ℕ} (hok : Ok off L st g) (hL : L ≤ maxkeylen)
    (hlen : vlen v = L) (hr : rnMatch st old v = some r) (hno : ¬ Answers off L st v r)
    (he : r = some e) : st.tree.leafRoot e = true := by
  have hc := hok.chains
  obtain ⟨t, r', ht, hf, hr', hout⟩ := rnMatch_spec hok hL hlen old
  obtain rfl : r' = r := some.inj (hr'.symm.trans hr)
  by_contra hroot
  rw [Bool.not_eq_true] at hroot
  have hroutes : ∀ {a}, a ∈ g.chain t → a ∈ g.routes := fun ha => ⟨t, ht, ha⟩
  have hcov : e ∈ g.routes ∧ Covers off L st v e := by
    cases hout with
    | exact hsame _ =>
      obtain rfl := some.inj he
      have hmem := hroutes (hc.self_mem ht)
      exact ⟨hmem, hok.covers_of_sameBytes hmem hsame⟩
    | @dup d l hsame _ hl =>
      obtain rfl := some.inj he
      have hd : d ∈ g.chain t := by
        rw [hl]
        exact mem_cons_of_mem _ (mem_cons_self ..)
      refine ⟨hroutes hd, hok.covers_of_sameBytes (hroutes hd) fun i h1 h2 => ?_⟩
      rw [hsame i h1 h2, hc.key ht hd i h1 h2]
    | root _ hroot' =>
      obtain rfl := some.inj he
      exact absurd (hroot'.symm.trans hroot) nofun
    | chain _ hl _ hcov _ =>
      obtain rfl := some.inj he
      refine ⟨hroutes ?_, hcov⟩
      rw [hl]
      exact mem_append_right _ (mem_cons_self ..)
    | up _ _ _ _ hmem _ hcov _ =>
      obtain rfl := some.inj he
      exact ⟨hmem, hcov⟩
    | none => exact absurd he nofun
  exact hno (.inl ⟨e, he, hok.isEntry_iff.mpr ⟨hcov.1, hroot⟩, hcov.2⟩)

theorem HiddenByOnes.of_subEntries (h : HiddenByOnes off L st v) (hsub : SubEntries off L st st')
    (hsub' : SubEntries off L st' st) : HiddenByOnes off L st' v := by
  obtain ⟨h1, h2, e, he, hcov⟩ := h
  refine ⟨h1, ?_, ?_⟩
  · rintro ⟨a, ha, hones⟩
    obtain ⟨b, hb, hsame⟩ := hsub' a ha
    exact h2 ⟨b, hb, fun i h1 h2 => by rw [← hsame.1 i h1 h2, hones i h1 h2]⟩
  · obtain ⟨e', he', hsame⟩ := hsub e he
    exact ⟨e', he', hsame.covers hcov⟩

theorem Ok.sameAnswer {r r' : Option ℕ} (hok : Ok off L st g) (hsort : Sorted off L st g)
    (hok' : Ok off L st' g') (hsort' : Sorted off L st' g') (hL : L ≤ maxkeylen) (hlen : vlen v = L)
    (hsub : SubEntries off L st st') (hsub' : SubEntries off L st' st)
    (hr : rnMatch st old v = some r) (hr' : rnMatch st' old' v = some r') :
    SameAnswer off L st st' r r' := by
  obtain ⟨q, hq, hiff⟩ := hok.answersLongest_iff hsort hL hlen old
  obtain rfl : q = r := some.inj (hq.symm.trans hr)
  obtain ⟨q', hq', hiff'⟩ := hok'.answersLongest_iff hsort' hL hlen old'
  obtain rfl : q' = r' := some.inj (hq'.symm.trans hr')
  by_cases hhidden : HiddenByOnes off L st v
  · -- both lookups end at the leaf of `rn_ones`
    have hhidden' := hhidden.of_subEntries hsub hsub'
    obtain ⟨p, hp, hans⟩ := hok.answers_iff hL hlen old
    obtain rfl : p = q := some.inj (hp.symm.trans hr)
    obtain ⟨p', hp', hans'⟩ := hok'.answers_iff hL hlen old'
    obtain rfl : p' = q' := some.inj (hp'.symm.trans hr')
    exact .inr ⟨fun e he => hok.root_of_not_answers hL hlen hr (fun h => hans.mp h hhidden) he,
      fun e he => hok'.root_of_not_answers hL hlen hr' (fun h => hans'.mp h hhidden') he⟩
  · have hhidden' : ¬ HiddenByOnes off L st' v := fun h => hhidden (h.of_subEntries hsub' hsub)
    rcases hiff.mpr hhidden with ⟨e, he, hentry, hcov, hmax⟩ | ⟨hno, hroot⟩
    · obtain ⟨a', ha', hsame⟩ := hsub e hentry
      rcases hiff'.mpr hhidden' with ⟨e', he', hentry', hcov', hmax'⟩ | ⟨hno', -⟩
      · obtain ⟨a, ha, hsame'⟩ := hsub' e' hentry'
        refine .inl ⟨e, e', he, he', hentry, hentry', ?_⟩
        have hlen : entryLen off L st e = entryLen off L st' e' := by
          refine Nat.le_antisymm ?_ ?_
          · rw [hsame.entryLen_eq]
            exact hmax' a' ha' (hsame.covers hcov)
          · rw [hsame'.entryLen_eq]
            exact hmax a ha (hsame'.covers hcov')
        have hmask := sameBytes_of_maskLen_eq (hsort.contiguous (hok.isEntry_iff.mp hentry).1)
          (hsort'.contiguous (hok'.isEntry_iff.mp hentry').1) hlen
        refine ⟨fun i h1 h2 => ?_, hmask⟩
        rw [← hcov i h1 h2, ← hcov' i h1 h2, hmask i h1 h2]
      · exact absurd ⟨a', ha', hsame.covers hcov⟩ hno'
    · rcases hiff'.mpr hhidden' with ⟨e', -, hentry', hcov', -⟩ | ⟨-, hroot'⟩
      · obtain ⟨a, ha, hsame'⟩ := hsub' e' hentry'
        exact absurd ⟨a, ha, hsame'.covers hcov'⟩ hno
      · exact .inr ⟨hroot, hroot'⟩

theorem contiguous_padded (hm : ∀ d, d < 8 * vlen m → ∀ c, c < d → 8 * off ≤ c →
    bitAt (padded m) d = true → bitAt (padded m) c = true) : Contiguous off (padded m) := by
  intro c d hc hlt hbit
  refine hm d ?_ c hlt hc hbit
  by_contra hge
  rw [bitAt_of_zero (padded_of_le (by omega))] at hbit
  exact absurd hbit Bool.false_ne_true

def classB : Key := ofBytes [6, 0, 0, 0, 0xff, 0xff]

/-- The longer mask is added behind the shorter one. Source: rn_addroute -/
def unsorted : List Op := [.add (inet 10 0 0 0) (some classA), .add (inet 10 0 0 0) (some classB)]

end Bsd386.Net.Radix
