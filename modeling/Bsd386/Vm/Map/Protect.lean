import Bsd386.Vm.Lock
import Bsd386.Vm.Map.Pointwise
import Bsd386.Vm.Map.Space

/-!
# Changing the protection of a range

`vm_map_protect` with the map lock and the calls of `pmap_protect` that it makes; `VmMap.protect` is what it
does to the map (`vmMapProtect_eq`). The calls are masked by `MASK`, which takes the permission to write away
for an entry that is copied on write. It is applied to the entry of the sharing map, and otherwise to the
first entry of the range in the place of the current one.
-/

namespace Bsd386.Vm

open Function List Lib

/-- Source: vm_prot.h -/
def vmProtAll : BitVec 32 := 7

/-- A call of `pmap_protect`, and the entry that it is made for.
Source: vm_map_protect -/
structure PmapCall where
  entry : MapEntry
  start : BitVec 32
  end_ : BitVec 32
  prot : BitVec 32

/-- Source: MASK -/
def mask (e : MapEntry) : BitVec 32 := if e.copyOnWrite then ~~~ VmMap.vmProtWrite else vmProtAll

/-- The result, the map and its lock, the sharing maps by their addresses, and the calls made.
Source: vm_map_protect -/
structure ProtectResult where
  code : KernReturn
  map : VmMap
  lock : Lock
  shares : ℕ → VmMap
  calls : List PmapCall

namespace VmMap

/-! ## The function -/

/-- The loop over the entries of a sharing map. Source: vm_map_protect -/
def shareCalls (share : VmMap) (current : MapEntry) (shareEnd : ℕ) : ℕ → ℕ → List PmapCall
  | 0, _ => []
  | n + 1, p =>
    if p ≠ 0 ∧ (share.entry p).start < shareEnd then
      { entry := share.entry p
        start := BitVec.ofNat 32 (max (share.entry p).start current.offset.toNat) - current.offset +
          BitVec.ofNat 32 current.start
        end_ := BitVec.ofNat 32 (min (share.entry p).end_ shareEnd) - current.offset +
          BitVec.ofNat 32 current.start
        prot := current.protection &&& mask (share.entry p) } ::
        shareCalls share current shareEnd n (share.next p)
    else []

/-- Update the physical map for the current entry; `first` is the first entry of the range.
Source: vm_map_protect -/
def updatePmap (first current : MapEntry) (shares : ℕ → VmMap) : List PmapCall × (ℕ → VmMap) :=
  if current.isAMap then
    let r := (shares current.object).lookupEntry current.offset.toNat
    let shareEnd := (current.offset + BitVec.ofNat 32 (current.end_ - current.start)).toNat
    (shareCalls r.2.2 current shareEnd (r.2.2.order.length + 1) r.2.1,
      update shares current.object r.2.2)
  else
    ([{ entry := current
        start := BitVec.ofNat 32 current.start
        end_ := BitVec.ofNat 32 current.end_
        prot := current.protection &&& mask first }], shares)

/-- Go back and fix up protections; `entry` is the first entry of the range.
Source: vm_map_protect -/
def protectLoop (newProt : BitVec 32) (setMax : Bool) (end_ entry : ℕ) :
    ℕ → VmMap → (ℕ → VmMap) → ℕ → VmMap × (ℕ → VmMap) × List PmapCall
  | 0, m, shares, _ => (m, shares, [])
  | n + 1, m, shares, cur =>
    if cur ≠ 0 ∧ (m.entry cur).start < end_ then
      let m₁ := m.clipEnd cur end_
      let oldProt := (m₁.entry cur).protection
      let m₂ := m₁.setEntry cur (protectEntry newProt setMax (m₁.entry cur))
      let u :=
        if (m₂.entry cur).protection ≠ oldProt then updatePmap (m₂.entry entry) (m₂.entry cur) shares
        else ([], shares)
      let r := protectLoop newProt setMax end_ entry n m₂ u.2 (m₂.next cur)
      (r.1, r.2.1, u.1 ++ r.2.2)
    else (m, shares, [])

/-- Source: vm_map_protect -/
def vmMapProtect (m : VmMap) (lock : Lock) (shares : ℕ → VmMap) (start end_ : ℕ) (newProt : BitVec 32)
    (setMax : Bool) : Option ProtectResult :=
  lock.write.map fun lock =>
    let range := m.rangeCheck start end_
    let first := m.clipFirst range.1
    match first.2.protectCheck newProt range.2 (first.2.order.length + 1) first.1 with
    -- at a submap the function returns with the lock held
    | some .invalidArgument => ⟨.invalidArgument, first.2, lock, shares, []⟩
    | some r => ⟨r, first.2, lock.done, shares, []⟩
    | none =>
      let r := protectLoop newProt setMax range.2 first.1 (first.2.order.length + 1) first.2 shares first.1
      ⟨.success, r.1, lock.done, r.2.1, r.2.2⟩

/-- The entries with a place in the range. -/
def entriesIn (m : VmMap) (range : ℕ × ℕ) : List MapEntry := entryRanges.meeting range.1 range.2 m.es

/-! ## The map -/

section map

variable {m : VmMap}

theorem protectLoop_map (newProt : BitVec 32) (setMax : Bool) (end_ entry n : ℕ) (m : VmMap)
    (shares : ℕ → VmMap) (cur : ℕ) :
    (protectLoop newProt setMax end_ entry n m shares cur).1 =
      changeLoop (protectEntry newProt setMax) end_ n m cur := by
  induction n generalizing m shares cur with
  | zero => rfl
  | succ n ih =>
    unfold protectLoop changeLoop
    split_ifs
    · exact ih _ _ _
    · rfl

theorem vmMapProtect_eq (m : VmMap) (shares : ℕ → VmMap) (start end_ : ℕ) (newProt : BitVec 32)
    (setMax : Bool) : ∃ r, m.vmMapProtect .free shares start end_ newProt setMax = some r ∧
      r.code = (m.protect start end_ newProt setMax).1 ∧ r.map = (m.protect start end_ newProt setMax).2 := by
  unfold vmMapProtect protect
  dsimp only
  rw [Lock.write_free, Option.map_some]
  refine ⟨_, rfl, ?_⟩
  split
  · rename_i hcheck
    rw [hcheck]
    exact ⟨rfl, rfl⟩
  · rename_i hcheck
    rw [hcheck]
    exact ⟨rfl, rfl⟩
  · rename_i hcheck
    rw [hcheck]
    exact ⟨rfl, protectLoop_map ..⟩

end map

/-! ## The calls -/

section calls

variable {m : VmMap} {pre suf : List ℕ} {newProt : BitVec 32} {setMax : Bool}

/-- A call for an entry that is copied on write does not give the permission to write.
Source: vm_map_protect -/
def CallSafe (c : PmapCall) : Prop := c.entry.copyOnWrite = true → c.prot &&& vmProtWrite = 0

/-- The call for this entry is safe when the mask is that of an entry with `copyOnWrite = first`: the entry
is not copied on write, or the mask is right, or no call is made for it or none that permits writing.
Source: vm_map_protect -/
def EntrySafe (newProt : BitVec 32) (setMax first : Bool) (e : MapEntry) : Prop :=
  e.copyOnWrite = true → e.isAMap = false → first = false →
    (protectEntry newProt setMax e).protection &&& vmProtWrite ≠ 0 →
      (protectEntry newProt setMax e).protection = e.protection

def unplaced (e : MapEntry) : MapEntry := { e with start := 0, end_ := 0, offset := 0 }

theorem unplaced_back (e : MapEntry) (a : ℕ) : unplaced (entryRanges.back e a) = unplaced e := rfl

theorem entrySafe_unplaced {first : Bool} {e : MapEntry} :
    EntrySafe newProt setMax first (unplaced e) ↔ EntrySafe newProt setMax first e := by
  cases setMax with
  | false => exact Iff.rfl
  | true => exact Iff.rfl

theorem and_mask (p : BitVec 32) (e : MapEntry) :
    p &&& mask e &&& vmProtWrite = if e.copyOnWrite then 0 else p &&& vmProtWrite := by
  unfold mask
  rw [BitVec.and_assoc]
  cases e.copyOnWrite with
  | false => rfl
  | true => exact BitVec.and_zero

theorem shareCalls_safe (share : VmMap) (current : MapEntry) (shareEnd n p : ℕ) :
    ∀ c ∈ shareCalls share current shareEnd n p, CallSafe c := by
  induction n generalizing p with
  | zero => exact fun c hc => absurd hc not_mem_nil
  | succ n ih =>
    unfold shareCalls
    split_ifs
    · refine forall_mem_cons.mpr ⟨fun hcow => ?_, ih _⟩
      exact (and_mask _ _).trans (if_pos hcow)
    · exact fun c hc => absurd hc not_mem_nil

theorem updatePmap_safe (first e : MapEntry) (shares : ℕ → VmMap) :
    (∀ c ∈ (updatePmap first e shares).1, CallSafe c) ↔
      (e.copyOnWrite = true → e.isAMap = false → first.copyOnWrite = false →
        e.protection &&& vmProtWrite = 0) := by
  unfold updatePmap
  cases hmap : e.isAMap with
  | true =>
    rw [if_pos rfl]
    exact iff_of_true (fun c hc => shareCalls_safe _ _ _ _ _ c hc) fun _ hf => absurd hf (by decide)
  | false =>
    rw [if_neg Bool.false_ne_true]
    rw [forall_mem_singleton]
    unfold CallSafe
    rw [and_mask]
    cases hfirst : first.copyOnWrite with
    | true => exact iff_of_true (fun _ => rfl) fun _ _ hf => absurd hf (by decide)
    | false => exact ⟨fun h hcow _ _ => h hcow, fun h hcow => h hcow rfl rfl⟩

theorem changed_safe {first e e' : MapEntry} (shares : ℕ → VmMap)
    (he : e' = protectEntry newProt setMax e) :
    (∀ c ∈ (if e'.protection ≠ e.protection then updatePmap first e' shares else ([], shares)).1,
      CallSafe c) ↔ EntrySafe newProt setMax first.copyOnWrite e := by
  have hflags : e'.copyOnWrite = e.copyOnWrite ∧ e'.isAMap = e.isAMap := by
    rw [he]
    cases setMax with
    | false => exact ⟨rfl, rfl⟩
    | true => exact ⟨rfl, rfl⟩
  unfold EntrySafe
  rw [← he]
  by_cases hne : e'.protection ≠ e.protection
  · rw [if_pos hne, updatePmap_safe, hflags.1, hflags.2]
    refine forall_congr' fun _ => forall_congr' fun _ => forall_congr' fun _ => ?_
    exact ⟨fun h h' => absurd h h', fun h => not_not.mp fun h' => hne (h h')⟩
  · rw [if_neg hne]
    exact iff_of_true (fun c hc => absurd hc not_mem_nil) fun _ _ _ _ => not_not.mp hne

theorem protectLoop_safe {b n entry : ℕ} {first : Bool} (h : m.WellFormed) (hm : m.order = pre ++ suf)
    (hn : suf.length < n) (hentry : entry ∈ m.order) (hfirst : (m.entry entry).copyOnWrite = first)
    (shares : ℕ → VmMap) :
    (∀ c ∈ (protectLoop newProt setMax b entry n m shares (suf.headD 0)).2.2, CallSafe c) ↔
      ∀ e ∈ (suf.map m.entry).takeWhile (fun e => decide (e.start < b)),
        EntrySafe newProt setMax first e := by
  induction suf generalizing m pre n shares with
  | nil =>
    obtain ⟨k, rfl⟩ : ∃ k, n = k + 1 := ⟨n - 1, by omega⟩
    unfold protectLoop
    rw [headD_nil, if_neg fun hc => hc.1 rfl]
    exact iff_of_true (fun c hc => absurd hc not_mem_nil) fun e he => absurd he not_mem_nil
  | cons p suf ih =>
    obtain ⟨k, rfl⟩ : ∃ k, n = k + 1 := ⟨n - 1, by omega⟩
    have hne := ne_zero_of_mem h.ring (hm ▸ mem_append_cons_self : p ∈ m.order)
    unfold protectLoop
    rw [headD_cons, map_cons]
    by_cases hlt : (m.entry p).start < b
    · have htake : (m.entry p :: suf.map m.entry).takeWhile (fun e => decide (e.start < b)) =
          m.entry p :: (suf.map m.entry).takeWhile fun e => decide (e.start < b) :=
        takeWhile_cons_of_pos (decide_eq_true hlt)
      rw [if_pos ⟨hne, hlt⟩, htake, forall_mem_cons]
      rw [forall_mem_append]
      -- the call for this entry
      have hhead : ∀ m1 : VmMap, unplaced (m1.entry p) = unplaced (m.entry p) →
          (m1.entry entry).copyOnWrite = first →
          ((∀ c ∈ (if ((m1.setEntry p (protectEntry newProt setMax (m1.entry p))).entry p).protection ≠
              (m1.entry p).protection then
            updatePmap ((m1.setEntry p (protectEntry newProt setMax (m1.entry p))).entry entry)
              ((m1.setEntry p (protectEntry newProt setMax (m1.entry p))).entry p) shares
            else ([], shares)).1, CallSafe c) ↔ EntrySafe newProt setMax first (m.entry p)) ∧
          ((m1.setEntry p (protectEntry newProt setMax (m1.entry p))).entry entry).copyOnWrite =
            first := by
        intro m1 hsame hf
        have hself : (m1.setEntry p (protectEntry newProt setMax (m1.entry p))).entry p =
            protectEntry newProt setMax (m1.entry p) := by
          rw [setEntry_entry, update_self]
        have hcow : ((m1.setEntry p (protectEntry newProt setMax (m1.entry p))).entry
            entry).copyOnWrite = first := by
          by_cases hep : entry = p
          · subst hep
            rw [hself, ← hf]
            cases setMax with
            | false => rfl
            | true => rfl
          · rw [setEntry_entry, update_of_ne hep]
            exact hf
        refine ⟨?_, hcow⟩
        rw [changed_safe shares hself, hcow, ← entrySafe_unplaced, hsame, entrySafe_unplaced]
      unfold clipEnd
      by_cases hcut : b < (m.entry p).end_
      · -- the entry is cut, and the loop ends at its second half
        rw [if_pos hcut]
        obtain ⟨m1, hm1⟩ : ∃ m1, m.clipEndSplit p b = m1 := ⟨_, rfl⟩
        obtain ⟨horder, hring, hself, hnew⟩ := clipEndSplit_spec h.ring hm hm1
        have hf : (m1.entry entry).copyOnWrite = first := by
          rw [← hm1, clipEndSplit_entry]
          by_cases hep : entry = p
          · rw [hep, update_self, ← hfirst, hep]
            rfl
          have hec : entry ≠ m.create := by
            rintro rfl
            exact create_not_mem m (mem_cons_of_mem 0 hentry)
          rw [update_of_ne hep, update_of_ne hec]
          exact hfirst
        have hsame : unplaced (m1.entry p) = unplaced (m.entry p) := by
          rw [hself]
          rfl
        rw [hm1, (hhead m1 hsame hf).1]
        have hnext : (m1.setEntry p (protectEntry newProt setMax (m1.entry p))).next p = m.create :=
          next_of_mem (m := m1.setEntry p _) hring horder
        have hstop : ∀ (k : ℕ) (shares : ℕ → VmMap), (protectLoop newProt setMax b entry k
            (m1.setEntry p (protectEntry newProt setMax (m1.entry p))) shares m.create).2.2 = [] := by
          intro k shares
          cases k with
          | zero => rfl
          | succ k =>
            unfold protectLoop
            rw [if_neg]
            intro hc
            rw [setEntry_entry, update_of_ne (create_ne hm), hnew] at hc
            exact lt_irrefl b hc.2
        have hrest : (suf.map m.entry).takeWhile (fun e => decide (e.start < b)) = [] := by
          cases suf with
          | nil => rfl
          | cons q suf =>
            rw [map_cons]
            refine takeWhile_cons_of_neg (mt of_decide_eq_true ?_)
            exact not_lt.mpr (hcut.le.trans (h.end_le_start_of_cons hm mem_cons_self))
        rw [hnext, hstop, hrest]
        exact and_congr_right fun _ => iff_of_true (fun c hc => absurd hc not_mem_nil)
          fun e he => absurd he not_mem_nil
      · rw [if_neg hcut]
        obtain ⟨hcall, hcow⟩ := hhead m rfl hfirst
        have hset := h.setEntry (e := protectEntry newProt setMax (m.entry p)) hm
          (protectEntry_spec newProt setMax _).1 (protectEntry_spec newProt setMax _).2.1
        have hm' : (m.setEntry p (protectEntry newProt setMax (m.entry p))).order =
            (pre ++ [p]) ++ suf := by
          rw [append_assoc]
          exact hm
        have hnext : (m.setEntry p (protectEntry newProt setMax (m.entry p))).next p = suf.headD 0 :=
          next_of_mem hset.ring hm
        rw [hnext, hcall, ih hset hm' (Nat.succ_lt_succ_iff.mp hn) hentry hcow, setEntry_entry,
          map_update_of_not_mem (not_mem_of_nodup h.ring hm).2]
    · have htake : (m.entry p :: suf.map m.entry).takeWhile (fun e => decide (e.start < b)) = [] :=
        takeWhile_cons_of_neg (mt of_decide_eq_true hlt)
      rw [if_neg fun hc => hlt hc.2, htake]
      exact iff_of_true (fun c hc => absurd hc not_mem_nil) fun e he => absurd he not_mem_nil

end calls

/-! ## The range -/

section range

variable {m : VmMap} {pre suf : List ℕ} {newProt : BitVec 32} {setMax : Bool}

/-- The reason to refuse that an entry gives. Source: vm_map_protect -/
def refuse (newProt : BitVec 32) (e : MapEntry) : Option KernReturn :=
  if e.isSubMap then some .invalidArgument
  else if newProt &&& e.maxProtection ≠ newProt then some .protectionFailure
  else none

theorem protectCheck_eq {b n : ℕ} (hring : (0 :: m.order).Nodup) (hm : m.order = pre ++ suf)
    (hn : suf.length < n) : m.protectCheck newProt b n (suf.headD 0) =
      ((suf.map m.entry).takeWhile fun e => decide (e.start < b)).findSome? (refuse newProt) := by
  induction suf generalizing pre n with
  | nil =>
    obtain ⟨k, rfl⟩ : ∃ k, n = k + 1 := ⟨n - 1, by omega⟩
    exact if_neg fun hc => hc.1 rfl
  | cons p suf ih =>
    obtain ⟨k, rfl⟩ : ∃ k, n = k + 1 := ⟨n - 1, by omega⟩
    have hne := ne_zero_of_mem hring (hm ▸ mem_append_cons_self : p ∈ m.order)
    have hm' : m.order = (pre ++ [p]) ++ suf := hm.trans (append_cons pre p suf)
    unfold protectCheck
    rw [headD_cons, map_cons]
    by_cases hlt : (m.entry p).start < b
    · have htake : (m.entry p :: suf.map m.entry).takeWhile (fun e => decide (e.start < b)) =
          m.entry p :: (suf.map m.entry).takeWhile fun e => decide (e.start < b) :=
        takeWhile_cons_of_pos (decide_eq_true hlt)
      rw [if_pos ⟨hne, hlt⟩, htake, findSome?_cons, next_of_mem hring hm,
        ih hm' (Nat.succ_lt_succ_iff.mp hn)]
      unfold refuse
      split_ifs
      · rfl
      · rfl
      · rfl
    · have htake : (m.entry p :: suf.map m.entry).takeWhile (fun e => decide (e.start < b)) = [] :=
        takeWhile_cons_of_neg (mt of_decide_eq_true hlt)
      rw [if_neg fun hc => hlt hc.2, htake]
      rfl

theorem map_unplaced_entriesIn (h : m.WellFormed) (range : ℕ × ℕ) :
    ((entryRanges.cutFrom range.1 m.es).takeWhile fun e => decide (e.start < range.2)).map unplaced =
      (m.entriesIn range).map unplaced :=
  Ranges.map_takeWhile_cutFrom unplaced_back h.ordered

theorem protectCheck_clipFirst (h : m.WellFormed) (newProt : BitVec 32) (range : ℕ × ℕ) :
    (m.clipFirst range.1).2.protectCheck newProt range.2 ((m.clipFirst range.1).2.order.length + 1)
      (m.clipFirst range.1).1 = (m.entriesIn range).findSome? (refuse newProt) := by
  obtain ⟨pre, suf, hfirst, hdiv, htail⟩ := clipFirst_tail h range.1
  have hlen : suf.length < (m.clipFirst range.1).2.order.length + 1 := by
    rw [hdiv.order, length_append]
    omega
  have hflags : ∀ l : List MapEntry, l.findSome? (refuse newProt) =
      (l.map unplaced).findSome? (refuse newProt) := by
    intro l
    rw [findSome?_map]
    rfl
  rw [hfirst, protectCheck_eq hdiv.becomes.wellFormed.ring hdiv.order hlen, htail, hflags,
    map_unplaced_entriesIn h, ← hflags]

/-- The first pass refuses the range. Source: vm_map_protect -/
def Refused (m : VmMap) (range : ℕ × ℕ) (newProt : BitVec 32) : Prop :=
  ∃ e ∈ m.entriesIn range, e.isSubMap = true ∨ newProt &&& e.maxProtection ≠ newProt

theorem refused_iff {range : ℕ × ℕ} :
    Refused m range newProt ↔ (m.entriesIn range).findSome? (refuse newProt) ≠ none := by
  rw [Ne, findSome?_eq_none_iff]
  push Not
  refine exists_congr fun e => and_congr_right fun _ => ?_
  unfold refuse
  by_cases hsub : e.isSubMap = true
  · rw [if_pos hsub]
    exact iff_of_true (.inl hsub) (Option.some_ne_none _)
  rw [if_neg hsub, or_iff_right hsub]
  split_ifs with hprot
  · exact iff_of_true hprot (Option.some_ne_none _)
  · exact iff_of_false hprot fun hc => hc rfl

/-- The entries of the range for which `vm_map_protect` takes the mask of another one do not mind: when
the first entry is not copied on write, no entry that is, and refers to an object, has its protection
changed to one that permits writing. Source: vm_map_protect -/
def MaskOk (m : VmMap) (range : ℕ × ℕ) (newProt : BitVec 32) (setMax : Bool) : Prop :=
  ∀ first ∈ (m.entriesIn range).head?, first.copyOnWrite = false →
    ∀ e ∈ m.entriesIn range, e.copyOnWrite = true → e.isAMap = false →
      (protectEntry newProt setMax e).protection &&& vmProtWrite ≠ 0 →
        (protectEntry newProt setMax e).protection = e.protection

theorem protectLoop_clipFirst (h : m.WellFormed) (range : ℕ × ℕ) (newProt : BitVec 32) (setMax : Bool)
    (shares : ℕ → VmMap) :
    (∀ c ∈ (protectLoop newProt setMax range.2 (m.clipFirst range.1).1
      ((m.clipFirst range.1).2.order.length + 1) (m.clipFirst range.1).2 shares
      (m.clipFirst range.1).1).2.2, CallSafe c) ↔ MaskOk m range newProt setMax := by
  obtain ⟨pre, suf, hfirst, hdiv, htail⟩ := clipFirst_tail h range.1
  obtain ⟨m', hm'⟩ : ∃ m', (m.clipFirst range.1).2 = m' := ⟨_, rfl⟩
  have hlen : suf.length < (m.clipFirst range.1).2.order.length + 1 := by
    rw [hdiv.order, length_append]
    omega
  have hmap := map_unplaced_entriesIn h range
  rw [hfirst]
  rw [← htail] at hmap
  rw [hm'] at hdiv hlen hmap ⊢
  cases suf with
  | nil =>
    -- nothing is mapped from the start on
    have hnil : m.entriesIn range = [] := map_eq_nil_iff.mp hmap.symm
    unfold protectLoop MaskOk
    rw [headD_nil, if_neg fun hc => hc.1 rfl, hnil]
    exact iff_of_true (fun c hc => absurd hc not_mem_nil) fun f hf => by cases hf
  | cons p suf =>
    have hp : p ∈ m'.order := by
      rw [hdiv.order]
      exact mem_append_cons_self
    have hloop := @protectLoop_safe _ _ _ newProt setMax range.2 _ _ _ hdiv.becomes.wellFormed
      hdiv.order hlen hp rfl shares
    rw [headD_cons] at hloop ⊢
    rw [hloop]
    have hall : ∀ first, (∀ e ∈ ((p :: suf).map m'.entry).takeWhile fun e => decide (e.start < range.2),
        EntrySafe newProt setMax first e) ↔
        ∀ e ∈ m.entriesIn range, EntrySafe newProt setMax first e := by
      intro first
      have hflags : ∀ l : List MapEntry, (∀ e ∈ l, EntrySafe newProt setMax first e) ↔
          ∀ e ∈ l.map unplaced, EntrySafe newProt setMax first e := by
        intro l
        rw [forall_mem_map]
        exact forall_congr' fun e => forall_congr' fun _ => entrySafe_unplaced.symm
      rw [hflags, hmap, ← hflags]
    rw [hall]
    unfold MaskOk EntrySafe
    -- the first entry that is walked over is the first one of the range
    by_cases hlt : (m'.entry p).start < range.2
    · rw [map_cons, takeWhile_cons_of_pos (p := fun e : MapEntry => decide (e.start < range.2))
        (decide_eq_true hlt), map_cons] at hmap
      cases hes : m.entriesIn range with
      | nil =>
        rw [hes] at hmap
        cases hmap
      | cons e es =>
        rw [hes, map_cons] at hmap
        have hcow : (unplaced (m'.entry p)).copyOnWrite = (unplaced e).copyOnWrite := by
          rw [(cons.inj hmap).1]
        change (m'.entry p).copyOnWrite = e.copyOnWrite at hcow
        rw [hcow]
        constructor
        · intro hsafe first hf hfirst' e' he' hc hmap'
          rw [← Option.some.inj hf] at hfirst'
          exact hsafe e' he' hc hmap' hfirst'
        · intro hsafe e' he' hc hmap' hfirst'
          exact hsafe e rfl hfirst' e' he' hc hmap'
    · rw [map_cons, takeWhile_cons_of_neg (p := fun e : MapEntry => decide (e.start < range.2))
        (mt of_decide_eq_true hlt)] at hmap
      rw [map_eq_nil_iff.mp hmap.symm]
      exact iff_of_true (fun e he => absurd he not_mem_nil) fun f hf => by cases hf

/-- **Copied on write, write-protected.** No call of `pmap_protect` for an entry that is copied on write
permits writing, exactly when the range is refused or `MaskOk` holds.
Source: vm_map_protect. Kind: C -/
theorem protect_cow_iff (h : m.WellFormed) (shares : ℕ → VmMap) (start end_ : ℕ) (newProt : BitVec 32)
    (setMax : Bool) : ∃ r, m.vmMapProtect .free shares start end_ newProt setMax = some r ∧
      ((∀ c ∈ r.calls, c.entry.copyOnWrite = true → c.prot &&& vmProtWrite = 0) ↔
        Refused m (m.rangeCheck start end_) newProt ∨
          MaskOk m (m.rangeCheck start end_) newProt setMax) := by
  have hcheck := protectCheck_clipFirst h newProt (m.rangeCheck start end_)
  unfold vmMapProtect
  dsimp only
  rw [Lock.write_free, Option.map_some, hcheck]
  refine ⟨_, rfl, ?_⟩
  rw [refused_iff]
  split
  · rename_i hsome
    rw [hsome]
    exact iff_of_true (fun c hc => absurd hc not_mem_nil) (.inl (Option.some_ne_none _))
  · rename_i r _ hsome
    rw [hsome]
    exact iff_of_true (fun c hc => absurd hc not_mem_nil) (.inl (Option.some_ne_none _))
  · rename_i hnone
    rw [hnone, or_iff_right fun hc => hc rfl]
    exact protectLoop_clipFirst h _ newProt setMax shares

/-- A map with data that are written directly, and behind them a private copy that has been made
read-only. -/
def dataThenCopy : VmMap where
  entry p :=
    if p = 1 then { start := 10, end_ := 20, object := 5, protection := 7, maxProtection := 7 }
    else if p = 2 then
      { start := 20, end_ := 40, object := 6, copyOnWrite := true, protection := 1, maxProtection := 7 }
    else { start := 0, end_ := 100 }
  order := [1, 2]
  nentries := 2
  size := 30
  isMainMap := true
  hint := 2
  firstFree := 0

theorem wellFormed_dataThenCopy : dataThenCopy.WellFormed :=
  ⟨by decide, ⟨by decide, by decide⟩, by decide, by decide, by decide⟩

/-- Making all of it writable makes the private copy writable at once.
Source: vm_map_protect. Kind: C -/
theorem not_protect_cow : dataThenCopy.WellFormed ∧
    ∃ r, dataThenCopy.vmMapProtect .free (fun _ => dataThenCopy) 10 40 3 false = some r ∧
      ∃ c ∈ r.calls, c.entry.copyOnWrite = true ∧ c.prot &&& vmProtWrite ≠ 0 :=
  ⟨wellFormed_dataThenCopy, _, rfl, _, mem_cons_of_mem _ mem_cons_self, rfl, by decide⟩

/-- Making only the copy writable keeps it write-protected. Source: vm_map_protect.
Kind: C -/
theorem protect_cow_copy : ∃ r, dataThenCopy.vmMapProtect .free (fun _ => dataThenCopy) 20 40 3 false =
    some r ∧ ∀ c ∈ r.calls, c.entry.copyOnWrite = true → c.prot &&& vmProtWrite = 0 := by
  obtain ⟨r, hr, hiff⟩ :=
    protect_cow_iff wellFormed_dataThenCopy (fun _ => dataThenCopy) 20 40 3 false
  refine ⟨r, hr, hiff.mpr (.inr ?_)⟩
  intro first hfirst hcow
  have hes : (dataThenCopy.entriesIn (dataThenCopy.rangeCheck 20 40)).head? =
      some (dataThenCopy.entry 2) := rfl
  rw [hes] at hfirst
  rw [← Option.some.inj hfirst] at hcow
  exact absurd hcow (by decide)

end range

end VmMap

end Bsd386.Vm
