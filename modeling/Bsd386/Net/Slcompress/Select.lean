import Bsd386.Net.Slcompress.Compress
import Mathlib.Data.Fintype.Card

/-!
# The sender's search and its ring

The transmit states form a ring in least recently used order. `TxInv tx l`: the ring of `tx` is
`l`, the states in use stand in front of the unused ones, and the id of a state is its place in
the array.

**Result** (`slCompressTcp_spec`): for a compressible packet the search returns. It ends with a
state of the packet's conversation or, when there is none, with the oldest one; either way that
state becomes the head of the ring, and no header or id has changed.
-/

namespace Bsd386.Net.Slcompress

open List Lib.Bytes
open Lib.Lru

/-- A transmit state that has held a header: no IP header starts with a zero byte. -/
def Used (tx : Slcompress) (i : Slot) : Prop := (tx.tstate i).csHdr 0 ≠ 0

/-- The invariant of the transmit side. -/
structure TxInv (tx : Slcompress) (l : List Slot) : Prop where
  ring : Ring (fun i => (tx.tstate i).csNext) tx.lastCs l
  used : l.Pairwise fun a b => Used tx b → Used tx a
  ids : ∀ i, (tx.tstate i).csId = BitVec.ofNat 8 i

/-- Same headers and ids; only the links differ. -/
def SameStates (tx tx' : Slcompress) : Prop :=
  ∀ i, (tx'.tstate i).csHdr = (tx.tstate i).csHdr ∧ (tx'.tstate i).csId = (tx.tstate i).csId

theorem txInv_init :
    TxInv slCompressInit [15, 14, 13, 12, 11, 10, 9, 8, 7, 6, 5, 4, 3, 2, 1, 0] where
  ring := ⟨by decide, rfl, by decide, by decide⟩
  used := by
    rw [pairwise_iff_forall_sublist]
    exact fun _ h => absurd rfl h
  ids := fun _ => rfl

/-- Where the search stops: the ring has the chosen state at its head. -/
structure Chosen (tx tx' : Slcompress) (cs : Slot) (l' : List Slot) : Prop where
  same : SameStates tx tx'
  ring : Ring (fun i => (tx'.tstate i).csNext) tx'.lastCs (cs :: l')
  used : l'.Pairwise fun a b => Used tx b → Used tx a

section choose

variable {tx : Slcompress} {l pre post : List Slot} {lcs cs : Slot}

theorem TxInv.rotate (h : TxInv tx l) (hl : l = pre ++ [lcs, tx.lastCs]) :
    Chosen tx { tx with lastCs := lcs } tx.lastCs (pre ++ [lcs]) where
  same := fun _ => ⟨rfl, rfl⟩
  ring := (hl ▸ h.ring).rotate
  used := by
    refine (hl ▸ h.used).sublist ?_
    rw [show pre ++ [lcs, tx.lastCs] = (pre ++ [lcs]) ++ [tx.lastCs] by simp]
    exact sublist_append_left _ _

theorem TxInv.touch (h : TxInv tx l) (hl : l = pre ++ lcs :: cs :: post) :
    ∃ l', Chosen tx (Slcompress.touch tx lcs cs) cs l' := by
  have hlast := h.ring.getLast
  rw [hl, getLast?_append, getLast?_cons_cons] at hlast
  unfold Slcompress.touch
  by_cases hcs : cs = tx.lastCs
  · -- nothing can stand behind the last state
    obtain rfl : post = [] := by
      have hnodup := (nodup_append.mp (hl ▸ h.ring.nodup)).2.1
      have hnot := (nodup_cons.mp (nodup_cons.mp hnodup).2).1
      rcases eq_nil_or_concat post with hp | ⟨q, x, rfl⟩
      · exact hp
      · have hx : x = cs := by simpa [getLast?_cons, ← hcs] using hlast
        exact absurd (by simp [hx]) hnot
    rw [if_pos hcs, hcs]
    exact ⟨_, h.rotate (hcs ▸ hl)⟩
  · have hpost : post ≠ [] := by
      rintro rfl
      exact hcs (by simpa using hlast)
    rw [if_neg hcs]
    refine ⟨pre ++ lcs :: post, fun _ => ⟨rfl, rfl⟩, (hl ▸ h.ring).moveToFront hpost, ?_⟩
    refine (hl ▸ h.used).sublist ?_
    simp

theorem slCompressTcp_eq {ip : Buf} (hip : compressible ip = true) {c : Slot}
    (hc : (tx.tstate tx.lastCs).csNext = c) :
    slCompressTcp ip tx =
      if conv ip.mem = conv (tx.tstate c).csHdr then sendOn tx c ip
      else
        match search (fun i => (tx.tstate i).csNext) tx.lastCs
            (fun i => decide (conv ip.mem = conv (tx.tstate i).csHdr)) maxStates c with
        | none => .error .noReturn
        | some (.miss lcs cs) => sendUncompressed { tx with lastCs := lcs } cs ip
        | some (.hit lcs cs) => sendOn (Slcompress.touch tx lcs cs) cs ip := by
  subst hc
  rw [slCompressTcp, if_pos hip]
  by_cases h : conv ip.mem = conv (tx.tstate (tx.tstate tx.lastCs).csNext).csHdr
  · exact (if_pos (decide_eq_true h)).trans (if_pos h).symm
  · exact (if_neg (ne_true_of_eq_false (decide_eq_false h))).trans (if_neg h).symm

/-- **The sender's search.** A compressible packet is sent on a state of its conversation, which
is in use if any state of the conversation is, or uncompressed on the oldest state when there is
none. -/
theorem slCompressTcp_spec (h : TxInv tx l) {ip : Buf} (hip : compressible ip = true) :
    ∃ tx' cs l', Chosen tx tx' cs l' ∧
      ((conv ip.mem = conv (tx.tstate cs).csHdr ∧
          (∀ i, Used tx i → conv ip.mem = conv (tx.tstate i).csHdr → Used tx cs) ∧
          slCompressTcp ip tx = sendOn tx' cs ip) ∨
        ((∀ i, conv ip.mem ≠ conv (tx.tstate i).csHdr) ∧
          slCompressTcp ip tx = sendUncompressed tx' cs ip)) := by
  obtain ⟨c, l0, rfl⟩ : ∃ c l0, l = c :: l0 :=
    exists_cons_of_ne_nil (ne_nil_of_mem (h.ring.complete 0))
  obtain ⟨hhead, hchain⟩ := isChain_cons_cons.mp h.ring.chain
  rw [slCompressTcp_eq hip hhead]
  by_cases hc : conv ip.mem = conv (tx.tstate c).csHdr
  · rw [if_pos hc]
    refine ⟨tx, c, l0, ⟨fun _ => ⟨rfl, rfl⟩, h.ring, (pairwise_cons.mp h.used).2⟩,
      .inl ⟨hc, ?_, rfl⟩⟩
    intro i hi _
    rcases mem_cons.mp (h.ring.complete i) with rfl | hmem
    · exact hi
    · exact (pairwise_cons.mp h.used).1 i hmem hi
  · have hne : l0 ≠ [] := by
      rintro rfl
      have h0 := h.ring.complete 0
      have h1 := h.ring.complete 1
      rw [mem_singleton] at h0 h1
      exact absurd (h0.trans h1.symm) (by decide)
    have hlast : l0.getLast? = some tx.lastCs := by
      obtain ⟨b, l1, rfl⟩ := exists_cons_of_ne_nil hne
      have := h.ring.getLast
      rwa [getLast?_cons_cons] at this
    have hnodup := (nodup_cons.mp h.ring.nodup).2
    have hcard : l0.length ≤ maxStates := by
      have := hnodup.length_le_card
      rwa [Fintype.card_fin] at this
    rw [if_neg hc]
    rcases search_spec (fun i => decide (conv ip.mem = conv (tx.tstate i).csHdr)) hchain hlast
        hnodup hcard (decide_eq_false hc) with
      ⟨pre, lcs, cs, post, hs, hl, hcs, hpre⟩ | ⟨pre, lcs, hs, hl, hall⟩
    · rw [hs]
      obtain ⟨l', hchosen⟩ := h.touch hl
      refine ⟨_, cs, l', hchosen, .inl ⟨of_decide_eq_true hcs, ?_, rfl⟩⟩
      intro i hi hconv
      have hmem : i ∈ pre ++ lcs :: cs :: post := hl ▸ h.ring.complete i
      rw [show pre ++ lcs :: cs :: post = (pre ++ [lcs]) ++ cs :: post by simp] at hmem hl
      rcases mem_append.mp hmem with hmem | hmem
      · exact absurd hconv (of_decide_eq_false (hpre i hmem))
      rcases mem_cons.mp hmem with rfl | hmem
      · exact hi
      · have hused := (pairwise_append.mp (hl ▸ h.used)).2.1
        exact (pairwise_cons.mp hused).1 i hmem hi
    · rw [hs]
      refine ⟨_, tx.lastCs, _, h.rotate hl, .inr ⟨?_, rfl⟩⟩
      exact fun i => of_decide_eq_false (hall i (h.ring.complete i))

end choose

theorem Chosen.txInv {tx tx' : Slcompress} {l l' : List Slot} {cs : Slot}
    (hc : Chosen tx tx' cs l') (h : TxInv tx l) {ip : Mem} (h0 : ip 0 ≠ 0) (hlen : 0 < hdrLen ip) :
    TxInv (saveHeader tx' cs ip) (cs :: l') := by
  have hother : ∀ i, i ≠ cs → (saveHeader tx' cs ip).tstate i = tx'.tstate i := by
    intro i hi
    simp only [saveHeader]
    rw [Function.update_of_ne hi]
  have hself : (saveHeader tx' cs ip).tstate cs =
      { tx'.tstate cs with csHdr := overlay ip (tx'.tstate cs).csHdr 0 (hdrLen ip) } := by
    simp only [saveHeader]
    rw [Function.update_self]
  have hnext : (fun i => ((saveHeader tx' cs ip).tstate i).csNext) =
      fun i => (tx'.tstate i).csNext := by
    funext i
    by_cases hi : i = cs
    · rw [hi, hself]
    · rw [hother i hi]
  refine ⟨?_, ?_, ?_⟩
  · rw [hnext]
    exact hc.ring
  · have hcs : Used (saveHeader tx' cs ip) cs := by
      unfold Used
      rw [hself]
      dsimp only
      rw [overlay_apply_of_mem (by omega)]
      exact h0
    have hnot := (nodup_cons.mp hc.ring.nodup).1
    have hiff : ∀ i ∈ l', (Used (saveHeader tx' cs ip) i ↔ Used tx i) := by
      intro i hi
      have hne : i ≠ cs := fun h => hnot (h ▸ hi)
      unfold Used
      rw [hother i hne, (hc.same i).1]
    refine pairwise_cons.mpr ⟨fun _ _ _ => hcs, ?_⟩
    exact hc.used.imp_of_mem fun ha hb hab hbU => (hiff _ ha).mpr (hab ((hiff _ hb).mp hbU))
  · intro i
    by_cases hi : i = cs
    · rw [hi, hself]
      exact (hc.same cs).2.trans (h.ids cs)
    · rw [hother i hi]
      exact (hc.same i).2.trans (h.ids i)

end Bsd386.Net.Slcompress
