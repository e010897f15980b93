import Bsd386.Kern.Descrip.Basic
import Mathlib.Tactic.Ring

/-!
# The invariant of a descriptor table

`WellFormed fdp`: no slot above `fd_lastfile` is open, and every slot below `fd_freefile` is. With it
-/

namespace Bsd386.Kern.Descrip.Filedesc

open Lib.Bytes List

/-- The table. The sizes are those that `fdalloc` and `fdcopy` make.
Source: filedesc.h (comments of filedesc) -/
structure WellFormed (fdp : Filedesc) : Prop where
  flags_length : fdp.ofileflags.length = fdp.ofiles.length
  size : fdp.nfiles = ndfile ∨ ∃ n, fdp.nfiles = ndextent * 2 ^ n
  last_lt : fdp.lastfile < fdp.nfiles
  last_short : fdp.lastfile < 65536
  above {i : ℕ} : fdp.lastfile < i → fdp.file i = none
  below {i : ℕ} : i < fdp.freefile → fdp.file i ≠ none

/-- The same slots are open. -/
structure SameFiles (fdp fdp' : Filedesc) : Prop where
  file (i : ℕ) : fdp'.file i = fdp.file i
  count (fp : Ptr) : fdp'.ofiles.count (some fp) = fdp.ofiles.count (some fp)

variable {fdp fdp' : Filedesc} {i j : ℕ} {fp : Ptr} {want lim : ℤ}

/-! ## Slots -/

theorem file_eq_some : fdp.file i = some fp ↔ fdp.ofiles[i]? = some (some fp) := by
  rw [file]
  cases fdp.ofiles[i]? with
  | none => simp
  | some f => simp

theorem file_eq_none_of_le (h : fdp.nfiles ≤ i) : fdp.file i = none := by
  rw [file, getElem?_eq_none h]
  rfl

theorem lt_of_file_ne_none (h : fdp.file i ≠ none) : i < fdp.nfiles := by
  by_contra hlt
  exact h (file_eq_none_of_le (Nat.le_of_not_lt hlt))

theorem SameFiles.refl (fdp : Filedesc) : SameFiles fdp fdp := ⟨fun _ => rfl, fun _ => rfl⟩

theorem SameFiles.trans {fdp'' : Filedesc} (h : SameFiles fdp fdp') (h' : SameFiles fdp' fdp'') :
    SameFiles fdp fdp'' :=
  ⟨fun i => (h'.file i).trans (h.file i), fun fp => (h'.count fp).trans (h.count fp)⟩

theorem file_set (fdp : Filedesc) (hi : i < fdp.nfiles) (f : Option Ptr) (j : ℕ) :
    (fdp.ofiles.set i f)[j]?.join = if j = i then f else fdp.file j := by
  rw [getElem?_set]
  by_cases hj : j = i
  · have hi' : i < fdp.ofiles.length := hi
    rw [if_pos hj, if_pos hj.symm, if_pos hi']
    rfl
  · rw [if_neg hj, if_neg (Ne.symm hj)]
    rfl

def slotRefs (f : Option Ptr) (fp : Ptr) : ℕ := f.elim 0 fun g => if fp = g then 1 else 0

@[simp] theorem slotRefs_none (fp : Ptr) : slotRefs none fp = 0 := rfl

@[simp] theorem slotRefs_some (g fp : Ptr) : slotRefs (some g) fp = if fp = g then 1 else 0 := rfl

theorem slotRefs_eq (f : Option Ptr) (fp : Ptr) : slotRefs f fp = if f = some fp then 1 else 0 := by
  cases f with
  | none => rfl
  | some g => simp [eq_comm (a := g)]

theorem count_set (fdp : Filedesc) (hi : i < fdp.nfiles) (f : Option Ptr) (fp : Ptr) :
    (fdp.ofiles.set i f).count (some fp) + slotRefs (fdp.file i) fp =
      fdp.ofiles.count (some fp) + slotRefs f fp := by
  rw [slotRefs_eq, slotRefs_eq]
  have hlen : i < fdp.ofiles.length := hi
  have hget : fdp.file i = fdp.ofiles[i] := by
    rw [file, getElem?_eq_getElem hi]
    rfl
  have hpos : fdp.file i = some fp → 0 < fdp.ofiles.count (some fp) := by
    intro h
    rw [count_pos_iff, ← h, hget]
    exact getElem_mem hi
  rw [List.count_set hlen, ← hget]
  by_cases h1 : fdp.file i = some fp
  · have := hpos h1
    by_cases h2 : f = some fp
    · simp only [h1, h2, beq_self_eq_true, if_true]
      omega
    · simp only [h1, h2, beq_self_eq_true, if_true, beq_iff_eq, if_false]
      omega
  · by_cases h2 : f = some fp
    · simp [h1, h2]
    · simp [h1, h2]

/-! ## `fdalloc` -/

theorem ulong_eq (hlim : 0 ≤ lim) (hmax : lim ≤ 65536) : ulong lim = lim.toNat := by
  rw [ulong, Int.emod_eq_of_lt hlim (by omega)]

theorem ushort_eq (h : i < 65536) : ushort i = i := Nat.mod_eq_of_lt h

section

variable (h : fdp.WellFormed)
include h

theorem search_spec (hwant : 0 ≤ want) (hlim : 0 ≤ lim) (hmax : lim ≤ 65536) :
    match fdp.search want lim with
    | some i => want ≤ i ∧ i < lim ∧ i < fdp.nfiles ∧ fdp.freefile ≤ i ∧ fdp.file i = none ∧
        ∀ j : ℕ, want ≤ j → j < i → fdp.file j ≠ none
    | none => ∀ j : ℕ, want ≤ j → j < lim → j < fdp.nfiles → fdp.file j ≠ none := by
  obtain ⟨start, hstart⟩ : ∃ start, (if want < fdp.freefile then fdp.freefile else want.toNat) = start :=
    ⟨_, rfl⟩
  have hfree : fdp.freefile ≤ start ∧ want ≤ start := by
    rw [← hstart]
    split_ifs with hlt <;> omega
  -- below the start every slot from `want` on is open
  have hbelow : ∀ j : ℕ, want ≤ j → j < start → fdp.file j ≠ none := by
    intro j hj hjs
    refine h.below ?_
    rw [← hstart] at hjs
    split_ifs at hjs with hlt
    · exact hjs
    · omega
  rw [search, ulong_eq hlim hmax, hstart]
  cases hfind : (range' start (min fdp.nfiles lim.toNat - start)).find? fun i => fdp.file i = none with
  | some i =>
    obtain ⟨hnone, hmem, hbefore⟩ := find?_range'_eq_some.mp hfind
    rw [mem_range'_1] at hmem
    refine ⟨by omega, by omega, by omega, by omega, by simpa using hnone, fun j hj hji => ?_⟩
    by_cases hjs : j < start
    · exact hbelow j hj hjs
    · simpa using hbefore j (by omega) hji
  | none =>
    rw [find?_eq_none] at hfind
    intro j hj hjl hjn
    by_cases hjs : j < start
    · exact hbelow j hj hjs
    have hmem : j ∈ range' start (min fdp.nfiles lim.toNat - start) := by
      rw [mem_range'_1]
      omega
    simpa using hfind j hmem

theorem WellFormed.found (hi : i < fdp.nfiles) (hshort : i < 65536)
    (hbelow : ∀ j : ℕ, want ≤ j → j < i → fdp.file j ≠ none) :
    (fdp.found want i).WellFormed ∧ SameFiles fdp (fdp.found want i) := by
  have hlast : (fdp.found want i).lastfile = max i fdp.lastfile := by
    simp only [Filedesc.found, ushort_eq hshort]
    split_ifs <;> omega
  refine ⟨⟨?_, h.size, ?_, ?_, ?_, ?_⟩, fun _ => rfl, fun _ => rfl⟩
  · exact (length_set ..).trans h.flags_length
  · rw [hlast]
    exact max_lt hi h.last_lt
  · rw [hlast]
    exact max_lt hshort h.last_short
  · intro j hj
    rw [hlast] at hj
    exact h.above (lt_of_le_of_lt (le_max_right _ _) hj)
  · intro j hj
    simp only [Filedesc.found, ushort_eq hshort] at hj
    by_cases hw : want ≤ fdp.freefile
    · rw [if_pos hw] at hj
      by_cases hjf : j < fdp.freefile
      · exact h.below hjf
      · exact hbelow j (by omega) hj
    · rw [if_neg hw] at hj
      exact h.below hj

theorem WellFormed.expand :
    fdp.expand.WellFormed ∧ SameFiles fdp fdp.expand ∧ fdp.nfiles < fdp.expand.nfiles := by
  obtain ⟨n, hn⟩ : ∃ n, (if fdp.nfiles < ndextent then ndextent else 2 * fdp.nfiles) = n := ⟨_, rfl⟩
  have hgrow : fdp.nfiles < n := by
    have hsize := h.last_lt
    rw [← hn]
    split_ifs with hlt <;> omega
  have hnfiles : fdp.expand.nfiles = n := by
    rw [nfiles, Filedesc.expand]
    rw [hn, length_append, length_replicate]
    exact Nat.add_sub_of_le (Nat.le_of_lt hgrow)
  have hfile (j : ℕ) : fdp.expand.file j = fdp.file j := by
    rw [file, file]
    simp only [Filedesc.expand, hn]
    by_cases hj : j < fdp.ofiles.length
    · rw [getElem?_append_left hj]
    · rw [getElem?_append_right (Nat.le_of_not_lt hj), getElem?_replicate,
        getElem?_eq_none (Nat.le_of_not_lt hj)]
      split_ifs <;> rfl
  have hcount (fp : Ptr) : fdp.expand.ofiles.count (some fp) = fdp.ofiles.count (some fp) := by
    simp only [Filedesc.expand, count_append, count_replicate]
    simp
  refine ⟨⟨?_, ?_, ?_, h.last_short, ?_, ?_⟩, ⟨hfile, hcount⟩, by rw [hnfiles]; exact hgrow⟩
  · simp only [Filedesc.expand, length_append, length_replicate, h.flags_length]
  · rw [hnfiles, ← hn]
    refine .inr ?_
    rcases h.size with hsize | ⟨m, hsize⟩
    · exact ⟨0, by rw [hsize]; rfl⟩
    refine ⟨m + 1, ?_⟩
    have hpow := Nat.one_le_two_pow (n := m)
    rw [if_neg (by rw [hsize, ndextent]; omega), hsize, Nat.pow_succ]
    ring
  · rw [hnfiles]
    exact Nat.lt_trans h.last_lt hgrow
  · intro j hj
    rw [hfile]
    exact h.above hj
  · intro j hj
    rw [hfile]
    exact h.below hj

/-- **`fdalloc`**: the lowest free descriptor from `want` on, or none when all below the limit are open. -/
theorem fdalloc_spec (hwant : 0 ≤ want) (hlim : 0 ≤ lim) (hmax : lim ≤ 65536) :
    ∃ r fdp', fdp.fdalloc want lim = (r, fdp') ∧ fdp'.WellFormed ∧ SameFiles fdp fdp' ∧
      match r with
      | some i => want ≤ i ∧ i < lim ∧ i < fdp'.nfiles ∧ i ≤ fdp'.lastfile ∧ fdp'.freefile ≤ i ∧
          fdp.file i = none ∧ ∀ j : ℕ, want ≤ j → j < i → fdp.file j ≠ none
      | none => fdp'.freefile = fdp.freefile ∧ ∀ j : ℕ, want ≤ j → j < lim → fdp.file j ≠ none := by
  have hloop : ∀ (n : ℕ) (fdp : Filedesc), fdp.WellFormed → (lim - fdp.nfiles).toNat < n →
      ∃ r fdp', fdallocLoop want lim n fdp = (r, fdp') ∧ fdp'.WellFormed ∧ SameFiles fdp fdp' ∧
        match r with
        | some i => want ≤ i ∧ i < lim ∧ i < fdp'.nfiles ∧ i ≤ fdp'.lastfile ∧ fdp'.freefile ≤ i ∧
            fdp.file i = none ∧ ∀ j : ℕ, want ≤ j → j < i → fdp.file j ≠ none
        | none => fdp'.freefile = fdp.freefile ∧ ∀ j : ℕ, want ≤ j → j < lim → fdp.file j ≠ none := by
    intro n
    induction n with
    | zero => exact fun _ _ hn => absurd hn (Nat.not_lt_zero _)
    | succ n ih =>
      intro fdp h hn
      have hsearch := search_spec h hwant hlim hmax
      rw [fdallocLoop]
      cases hs : fdp.search want lim with
      | some i =>
        rw [hs] at hsearch
        obtain ⟨hw, hl, hi, hfree, hnone, hbefore⟩ := hsearch
        obtain ⟨hwf, hsame⟩ := h.found (by omega) (by omega) hbefore
        refine ⟨_, _, rfl, hwf, hsame, hw, hl, hi, ?_, ?_, hnone, hbefore⟩
        · simp only [Filedesc.found, ushort_eq (i := i) (by omega)]
          split_ifs <;> omega
        · simp only [Filedesc.found, ushort_eq (i := i) (by omega)]
          split_ifs <;> omega
      | none =>
        rw [hs] at hsearch
        by_cases hfull : (fdp.nfiles : ℤ) ≥ lim
        · rw [if_pos hfull]
          exact ⟨_, _, rfl, h, .refl _, rfl, fun j hj hjl => hsearch j hj hjl (by omega)⟩
        rw [if_neg hfull]
        obtain ⟨hwf, hsame, hgrow⟩ := h.expand
        obtain ⟨r, fdp', heq, hwf', hsame', hr⟩ := ih fdp.expand hwf (by omega)
        refine ⟨r, fdp', heq, hwf', hsame.trans hsame', ?_⟩
        cases r with
        | some i =>
          obtain ⟨hw, hl, hi, hlast, hfree, hnone, hbefore⟩ := hr
          refine ⟨hw, hl, hi, hlast, hfree, ?_, fun j hj hji => ?_⟩
          · rw [← hsame.file]
            exact hnone
          · rw [← hsame.file]
            exact hbefore j hj hji
        | none =>
          refine ⟨hr.1, fun j hj hjl => ?_⟩
          rw [← hsame.file]
          exact hr.2 j hj hjl
  exact hloop _ fdp h (by omega)

/-! ## Slots that change -/

omit h in
theorem file_store (hi : i < fdp.nfiles) (flag : Byte) (j : ℕ) :
    (fdp.store i fp flag).file j = if j = i then some fp else fdp.file j :=
  file_set fdp hi (some fp) j

omit h in
theorem file_assign (hi : i < fdp.nfiles) (f : Option Ptr) (j : ℕ) :
    (fdp.assign i f).file j = if j = i then f else fdp.file j :=
  file_set fdp hi f j

theorem WellFormed.store (hi : i < fdp.nfiles) (hshort : i < 65536) (fp : Ptr) (flag : Byte) :
    (fdp.store i fp flag).WellFormed := by
  have hlast : (fdp.store i fp flag).lastfile = max i fdp.lastfile := by
    simp only [Filedesc.store, ushort_eq hshort]
    split_ifs <;> omega
  have hnfiles : (fdp.store i fp flag).nfiles = fdp.nfiles := length_set ..
  constructor
  · exact (length_set ..).trans (h.flags_length.trans (length_set ..).symm)
  · rw [hnfiles]
    exact h.size
  · rw [hlast, hnfiles]
    exact max_lt hi h.last_lt
  · rw [hlast]
    exact max_lt hshort h.last_short
  · intro j hj
    rw [hlast] at hj
    rw [file_store hi, if_neg (by omega)]
    exact h.above (by omega)
  · intro j hj
    rw [file_store hi]
    split_ifs
    · exact Option.some_ne_none fp
    · exact h.below hj

/-- **A slot assigned by hand**: it must not be above `fd_lastfile` when it is opened, nor below
`fd_freefile` when it is cleared. -/
theorem WellFormed.assign {f : Option Ptr} (hlast : i ≤ fdp.lastfile)
    (hfree : f = none → fdp.freefile ≤ i) : (fdp.assign i f).WellFormed := by
  have hi : i < fdp.nfiles := Nat.lt_of_le_of_lt hlast h.last_lt
  have hnfiles : (fdp.assign i f).nfiles = fdp.nfiles := length_set ..
  constructor
  · exact h.flags_length.trans (length_set ..).symm
  · rw [hnfiles]
    exact h.size
  · rw [hnfiles]
    exact h.last_lt
  · exact h.last_short
  · intro j hj
    have hlt : fdp.lastfile < j := hj
    rw [file_assign hi, if_neg (by omega)]
    exact h.above hlt
  · intro j hj
    have hlt : j < fdp.freefile := hj
    rw [file_assign hi]
    by_cases hji : j = i
    · rw [if_pos hji]
      intro hf
      have := hfree hf
      omega
    · rw [if_neg hji]
      exact h.below hlt

omit h in
theorem lower_spec (fdp : Filedesc) (n : ℕ) :
    fdp.lower n ≤ n ∧ ∀ i, fdp.lower n < i → i ≤ n → fdp.file i = none := by
  induction n with
  | zero => exact ⟨Nat.le_refl 0, fun i hi hi' => absurd hi (by omega)⟩
  | succ n ih =>
    rw [lower]
    by_cases hn : fdp.file (n + 1) = none
    · rw [if_pos hn]
      refine ⟨Nat.le_succ_of_le ih.1, fun i hi hi' => ?_⟩
      by_cases hin : i = n + 1
      · rw [hin]
        exact hn
      · exact ih.2 i hi (by omega)
    · rw [if_neg hn]
      exact ⟨Nat.le_refl _, fun i hi hi' => absurd hi (by omega)⟩

omit h in
theorem file_release (hi : i < fdp.nfiles) (j : ℕ) :
    (fdp.release i).file j = if j = i then none else fdp.file j :=
  file_set fdp hi none j

theorem WellFormed.release (hopen : fdp.file i ≠ none) :
    (fdp.release i).WellFormed := by
  have hi := lt_of_file_ne_none hopen
  have hlast : i ≤ fdp.lastfile := by
    by_contra hlt
    exact hopen (h.above (by omega))
  have hlow := lower_spec (fdp.assign i none) fdp.lastfile
  have hnfiles : (fdp.release i).nfiles = fdp.nfiles := length_set ..
  have hlast' : (fdp.release i).lastfile = (fdp.assign i none).lower fdp.lastfile := rfl
  have hfile : ∀ j, (fdp.assign i none).file j = (fdp.release i).file j := fun _ => rfl
  constructor
  · exact (length_set ..).trans (h.flags_length.trans (length_set ..).symm)
  · rw [hnfiles]
    exact h.size
  · rw [hlast', hnfiles]
    exact Nat.lt_of_le_of_lt hlow.1 h.last_lt
  · rw [hlast']
    exact Nat.lt_of_le_of_lt hlow.1 h.last_short
  · intro j hj
    rw [hlast'] at hj
    by_cases hjl : j ≤ fdp.lastfile
    · rw [← hfile]
      exact hlow.2 j hj hjl
    rw [file_release hi]
    split_ifs
    · rfl
    · exact h.above (by omega)
  · intro j hj
    have hfree : (fdp.release i).freefile = min i fdp.freefile := by
      have hshort : i < 65536 := Nat.lt_of_le_of_lt hlast h.last_short
      simp only [Filedesc.release, ushort_eq hshort]
      split_ifs <;> omega
    rw [hfree] at hj
    rw [file_release hi, if_neg (by omega)]
    exact h.below (by omega)

/-! ## `fdcopy` -/

omit h in
theorem shrink_spec {last n : ℕ} (fuel : ℕ) (hlast : last < ndextent * 2 ^ n) :
    ∃ m, shrink last fuel (ndextent * 2 ^ n) = ndextent * 2 ^ m ∧ last < ndextent * 2 ^ m ∧ m ≤ n := by
  induction fuel generalizing n with
  | zero => exact ⟨n, rfl, hlast, Nat.le_refl n⟩
  | succ fuel ih =>
    rw [shrink]
    by_cases hbig : ndextent * 2 ^ n > 2 * ndextent ∧ ndextent * 2 ^ n > last * 2
    · rw [if_pos hbig]
      obtain ⟨n, rfl⟩ : ∃ n', n = n' + 1 := by
        rcases n with _ | n'
        · exact absurd hbig.1 (by decide)
        · exact ⟨n', rfl⟩
      -- the size is even, so that nothing is lost
      have hhalf : ndextent * 2 ^ (n + 1) = 2 * (ndextent * 2 ^ n) := by rw [Nat.pow_succ]; ring
      rw [hhalf, Nat.mul_div_cancel_left _ (Nat.zero_lt_two)]
      obtain ⟨m, heq, hlt, hle⟩ := ih (n := n) (by omega)
      exact ⟨m, heq, hlt, Nat.le_succ_of_le hle⟩
    · rw [if_neg hbig]
      exact ⟨n, rfl, hlast, Nat.le_refl n⟩

theorem WellFormed.copySize_spec :
    (fdp.copySize = ndfile ∨ ∃ n, fdp.copySize = ndextent * 2 ^ n) ∧ fdp.lastfile < fdp.copySize ∧
      fdp.copySize ≤ fdp.nfiles := by
  rw [copySize]
  by_cases hlast : fdp.lastfile < ndfile
  · rw [if_pos hlast]
    refine ⟨.inl rfl, hlast, ?_⟩
    rcases h.size with hsize | ⟨n, hsize⟩
    · exact Nat.le_of_eq hsize.symm
    · have hpow := Nat.one_le_two_pow (n := n)
      rw [hsize, ndfile, ndextent]
      omega
  · rw [if_neg hlast]
    rcases h.size with hsize | ⟨n, hsize⟩
    · exact absurd (hsize ▸ h.last_lt) hlast
    have hlt := h.last_lt
    rw [hsize] at hlt ⊢
    obtain ⟨m, heq, hlast', hle⟩ := shrink_spec (ndextent * 2 ^ n) hlt
    rw [heq]
    refine ⟨.inr ⟨m, rfl⟩, hlast', Nat.mul_le_mul_left _ (Nat.pow_le_pow_right Nat.zero_lt_two hle)⟩

theorem WellFormed.count_take {n : ℕ} (hn : fdp.lastfile < n) (fp : Ptr) :
    (fdp.ofiles.take n).count (some fp) = fdp.ofiles.count (some fp) := by
  have hrest : (fdp.ofiles.drop n).count (some fp) = 0 := by
    rw [count_eq_zero]
    intro hmem
    obtain ⟨i, hi⟩ := mem_iff_getElem?.mp hmem
    rw [getElem?_drop] at hi
    have hopen := file_eq_some.mpr hi
    rw [h.above (by omega)] at hopen
    exact absurd hopen nofun
  have hsplit : fdp.ofiles.take n ++ fdp.ofiles.drop n = fdp.ofiles := take_append_drop ..
  have hsum := congrArg (count (some fp)) hsplit
  rw [count_append, hrest] at hsum
  exact hsum

theorem WellFormed.copy :
    fdp.copy.WellFormed ∧ SameFiles fdp fdp.copy ∧
      ∀ i, fdp.file i ≠ none → fdp.copy.flags i = fdp.flags i := by
  obtain ⟨hsize, hlast, hle⟩ := h.copySize_spec
  have hnfiles : fdp.copy.nfiles = fdp.copySize := (length_take ..).trans (Nat.min_eq_left hle)
  have hfile (i : ℕ) : fdp.copy.file i = fdp.file i := by
    by_cases hi : i < fdp.copySize
    · rw [file, Filedesc.copy, getElem?_take_of_lt hi]
      rfl
    · rw [file_eq_none_of_le (by omega), h.above (by omega)]
  refine ⟨⟨?_, ?_, ?_, h.last_short, ?_, ?_⟩, ⟨hfile, h.count_take hlast⟩, fun i hi => ?_⟩
  · simp only [Filedesc.copy, length_take, h.flags_length]
  · rw [hnfiles]
    exact hsize
  · rw [hnfiles]
    exact hlast
  · intro j hj
    rw [hfile]
    exact h.above hj
  · intro j hj
    rw [hfile]
    exact h.below hj
  · have hlt : i < fdp.copySize := by
      by_contra hge
      exact hi (h.above (by omega))
    simp only [flags, Filedesc.copy, getD_eq_getElem?_getD, getElem?_take_of_lt hlt]

end

end Bsd386.Kern.Descrip.Filedesc
