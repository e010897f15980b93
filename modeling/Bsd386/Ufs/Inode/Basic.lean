import Bsd386.Ufs.Alloc.Account

/-!
# Inodes of a cylinder group

`ialloccg` and `ifree`: the map of inodes in use of each group, with its rotor, and the counts of free inodes
and of directories that are kept in the group, in the super block for the group, and as sums. A `none` is a
panic, and a result of 0 is `NULL`. Times, the `fmod` flag and the error texts are left out.

Source: `sys/ufs/ufs_alloc.c`.
-/

namespace Bsd386.Ufs.Inode

open Lib
open Alloc (setbit clrbit isclr)

/-! ## The data -/

/-- A map of the inodes in use, in bytes. Source: fs.h, cg_inosused -/
abbrev InodeMap := ℕ → BitVec 8

/-- The parameters that are read here; `newfs` makes `ipg` a multiple of the inodes of a block.
Source: fs.h, struct fs -/
structure Fs where
  ncg : ℕ
  ipg : ℕ
  ronly : Bool
  ipg_pos : 0 < ipg
  ipg_dvd : 8 ∣ ipg

/-- The counts of free inodes and of directories. Source: fs.h, struct csum -/
structure Csum where
  nifree : ℤ
  ndir : ℤ

def Csum.add (c : Csum) (n d : ℤ) : Csum := ⟨c.nifree + n, c.ndir + d⟩

/-- A cylinder group; `magic` is what `cg_chkmagic` finds. Source: fs.h, struct cg -/
structure Cg where
  magic : Bool
  cs : Csum
  irotor : ℕ
  inosused : InodeMap

/-- The counts of the super block, `fs_cstotal` and `fs_cs`, and the groups. -/
structure State where
  cstotal : Csum
  cs : ℕ → Csum
  cg : ℕ → Cg

/-- `IFMT` of a mode is `IFDIR`. -/
def isDir (mode : ℕ) : Bool := mode &&& 0o170000 == 0o040000

/-! ## The calls -/

/-- `skpc`: the number of bytes left when the first byte is found that is not the mask. -/
def skpc (mask : BitVec 8) (cp : InodeMap) : ℕ → ℕ → ℕ
  | 0, _ => 0
  | size + 1, first => if cp first = mask then skpc mask cp size (first + 1) else size + 1

/-- The first clear bit of a byte. Source: ialloccg -/
def findBit (map : BitVec 8) : Option ℕ := (List.range 8).find? fun k => map &&& 1#8 <<< k == 0

/-- The inode of the group, and the rotor: the preferred inode, or the next from the rotor on.
Source: ialloccg -/
def findInode (fs : Fs) (cgp : Cg) (ipref : ℕ) : Option (ℕ × ℕ) :=
  if ipref ≠ 0 ∧ isclr cgp.inosused (ipref % fs.ipg) = true then some (ipref % fs.ipg, cgp.irotor)
  else
    let found (start len loc : ℕ) : Option (ℕ × ℕ) :=
      let i := start + len - loc
      (findBit (cgp.inosused i)).map fun k => (i * 8 + k, i * 8 + k)
    let start := cgp.irotor / 8
    let len := (fs.ipg - cgp.irotor + 7) / 8
    let loc := skpc 0xff cgp.inosused len start
    if loc ≠ 0 then found start len loc
    else
      let len := start + 1
      let loc := skpc 0xff cgp.inosused len 0
      if loc = 0 then none else found 0 len loc

/-- The counts of group `cg` change, in all three places. -/
def State.count (st : State) (cg : ℕ) (cgp : Cg) (n d : ℤ) : State :=
  { cstotal := st.cstotal.add n d
    cs := Function.update st.cs cg ((st.cs cg).add n d)
    cg := Function.update st.cg cg { cgp with cs := cgp.cs.add n d } }

/-- `ialloccg`; `error` says that the read of the group fails. -/
def ialloccg (fs : Fs) (st : State) (cg ipref mode : ℕ) (error : Bool) : Option (ℕ × State) :=
  if (st.cs cg).nifree = 0 then some (0, st)
  else if error then some (0, st)
  else
    let cgp := st.cg cg
    if cgp.magic = false ∨ cgp.cs.nifree = 0 then some (0, st)
    else
      (findInode fs cgp ipref).map fun (ipref, irotor) =>
        (cg * fs.ipg + ipref, st.count cg
          { cgp with irotor := irotor, inosused := setbit cgp.inosused ipref } (-1)
          (if isDir mode then 1 else 0))

/-- `ifree`. -/
def ifree (fs : Fs) (st : State) (ino mode : ℕ) (error : Bool) : Option State :=
  if fs.ipg * fs.ncg ≤ ino then none
  else
    let cg := ino / fs.ipg
    if error then some st
    else
      let cgp := st.cg cg
      if cgp.magic = false then some st
      else
        let ino := ino % fs.ipg
        if isclr cgp.inosused ino = true ∧ fs.ronly = false then none
        else
          some (st.count cg
            { cgp with
              irotor := if ino < cgp.irotor then ino else cgp.irotor
              inosused := clrbit cgp.inosused ino } 1
            (if isDir mode then -1 else 0))

/-! ## The search -/

section search

variable {fs : Fs} {cgp : Cg}

theorem skpc_spec (mask : BitVec 8) (cp : InodeMap) (size first : ℕ) :
    skpc mask cp size first ≤ size ∧
      (skpc mask cp size first = 0 → ∀ i < size, cp (first + i) = mask) ∧
      (skpc mask cp size first ≠ 0 → cp (first + size - skpc mask cp size first) ≠ mask) := by
  induction size generalizing first with
  | zero => exact ⟨Nat.le_refl 0, fun _ i hi => absurd hi (Nat.not_lt_zero i), fun h => absurd rfl h⟩
  | succ size ih =>
    unfold skpc
    by_cases hfull : cp first = mask
    · rw [if_pos hfull]
      obtain ⟨hle, hnone, hsome⟩ := ih (first + 1)
      refine ⟨Nat.le_succ_of_le hle, fun h i hi => ?_, fun h => ?_⟩
      · rcases Nat.eq_zero_or_pos i with rfl | hpos
        · exact hfull
        · have hnext := hnone h (i - 1) (by omega)
          rwa [show first + 1 + (i - 1) = first + i by omega] at hnext
      · have hstop := hsome h
        rwa [show first + 1 + size = first + (size + 1) by omega] at hstop
    · rw [if_neg hfull]
      refine ⟨Nat.le_refl _, fun h => absurd h (Nat.succ_ne_zero _), fun _ => ?_⟩
      rwa [Nat.add_sub_cancel]

theorem findBit_spec : ∀ byte : BitVec 8, byte ≠ 0xff → ∃ k < 8, findBit byte = some k ∧
    byte.getLsbD k = false := by
  decide

theorem ne_full_of_clear {i : ℕ} (h : bit cgp.inosused i = false) : cgp.inosused (i / 8) ≠ 0xff := by
  intro hfull
  have hall : ∀ k < 8, (0xff : BitVec 8).getLsbD k = true := by decide
  unfold bit at h
  rw [hfull, hall _ (Nat.mod_lt _ (by decide))] at h
  exact absurd h (by decide)

theorem findInode_spec (hrotor : cgp.irotor < fs.ipg) (hfree : ∃ i < fs.ipg, bit cgp.inosused i = false)
    (ipref : ℕ) : ∃ i r, findInode fs cgp ipref = some (i, r) ∧ i < fs.ipg ∧ r < fs.ipg ∧
      bit cgp.inosused i = false := by
  unfold findInode
  by_cases hpref : ipref ≠ 0 ∧ isclr cgp.inosused (ipref % fs.ipg) = true
  · rw [if_pos hpref]
    refine ⟨_, _, rfl, Nat.mod_lt _ fs.ipg_pos, hrotor, ?_⟩
    have hclr := hpref.2
    rwa [Alloc.isclr_eq, Bool.not_eq_true'] at hclr
  rw [if_neg hpref]
  obtain ⟨n, hn⟩ := fs.ipg_dvd
  obtain ⟨free, hlt, hbit⟩ := hfree
  have hne := ne_full_of_clear hbit
  -- the byte where a scan stops gives an inode of the group
  have hfound : ∀ byte, byte < n → cgp.inosused byte ≠ 0xff →
      ∃ i r, ((findBit (cgp.inosused byte)).map fun k => (byte * 8 + k, byte * 8 + k)) = some (i, r) ∧
        i < fs.ipg ∧ r < fs.ipg ∧ bit cgp.inosused i = false := by
    intro byte hbyte hfull
    obtain ⟨k, hk, hfind, hclr⟩ := findBit_spec _ hfull
    refine ⟨byte * 8 + k, byte * 8 + k, by rw [hfind]; rfl, by omega, by omega, ?_⟩
    unfold bit
    rwa [show (byte * 8 + k) / 8 = byte by omega, show (byte * 8 + k) % 8 = k by omega]
  obtain ⟨start, hstart⟩ : ∃ start, start = cgp.irotor / 8 := ⟨_, rfl⟩
  have hlen : (fs.ipg - cgp.irotor + 7) / 8 = n - start := by omega
  rw [hlen, ← hstart]
  obtain ⟨hle, hnone, hsome⟩ := skpc_spec 0xff cgp.inosused (n - start) start
  obtain ⟨hle', hnone', hsome'⟩ := skpc_spec 0xff cgp.inosused (start + 1) 0
  by_cases hloc : skpc 0xff cgp.inosused (n - start) start = 0
  · rw [if_neg (not_not.mpr hloc)]
    by_cases hloc' : skpc 0xff cgp.inosused (start + 1) 0 = 0
    · -- every byte is full
      rcases Nat.lt_or_ge (free / 8) (start + 1) with hlo | hhi
      · have hfull := hnone' hloc' _ hlo
        rw [Nat.zero_add] at hfull
        exact absurd hfull hne
      · have hfull := hnone hloc (free / 8 - start) (by omega)
        rw [Nat.add_sub_cancel' (by omega)] at hfull
        exact absurd hfull hne
    · rw [if_neg hloc']
      exact hfound _ (by omega) (hsome' hloc')
  · rw [if_pos hloc]
    exact hfound _ (by omega) (hsome hloc)

end search

end Bsd386.Ufs.Inode
