import Mathlib.Data.BitVec
import Mathlib.Tactic.IntervalCases
import Mathlib.Tactic.Ring

/-!
# MS-DOS file allocation tables: `fatentry`

The geometry of a volume as `mountmsdosfs` computes it from the boot sector, and `fatentry`, which
reads and writes one entry of the table through blocks of the device and copies the block to the
other tables.

The device is read and written in the sectors of the volume.

Source: `sys/msdosfs/msdosfs_fat.c`, `msdosfs_vfsops.c`.
-/

namespace Bsd386.Msdosfs

open Function List
open BitVec (eq_of_getLsbD_eq or_zero)

/-- Errors. -/
inductive Errno where
  | einval
  | enospc
  | e2big
deriving DecidableEq

/-! ## Geometry -/

/-- `CLUST_FIRST`: first legal cluster number. -/
def clustFirst : ℕ := 2

/-- `CLUST_FREE`. -/
def clustFree : BitVec 32 := 0

/-- `CLUST_RSRVS`: start of reserved cluster range. -/
def clustRsrvs : ℕ := 0xfff0

/-- `CLUST_EOFE`: end of eof cluster range. -/
def clustEofe : BitVec 32 := 0xffff

/-- `MAXBSIZE`. -/
def maxbsize : ℕ := 8192

/-- BIOS parameter block. Source: bpb.h struct bpb50 -/
structure Bpb where
  bytesPerSec : ℕ
  secPerClust : ℕ
  resSectors : ℕ
  fats : ℕ
  rootDirEnts : ℕ
  fatSecs : ℕ
  hugeSectors : ℕ
deriving DecidableEq

namespace Bpb

variable (m : Bpb)

/-- Block number of first FAT. Source: mountmsdosfs -/
def fatblk : ℕ := m.resSectors

/-- Block number of root directory. Source: mountmsdosfs -/
def rootdirblk : ℕ := m.fatblk + m.fats * m.fatSecs

/-- Size of the root directory in blocks.
Source: mountmsdosfs -/
def rootdirsize : ℕ := m.rootDirEnts * 32 / m.bytesPerSec

/-- Block number of first cluster. Source: mountmsdosfs -/
def firstcluster : ℕ := m.rootdirblk + m.rootdirsize

/-- Number of clusters in filesystem.
Source: mountmsdosfs -/
def nmbrofclusters : ℕ := (m.hugeSectors - m.firstcluster) / m.secPerClust

/-- Maximum cluster number. Source: mountmsdosfs -/
def maxcluster : ℕ := m.nmbrofclusters + 1

/-- `FAT12`: the filesystem uses 12 bit fats. -/
def fat12 : Bool := decide (m.maxcluster ≤ 4086)

/-- Size of fat blocks in bytes. Source: mountmsdosfs -/
def fatblocksize : ℕ := if m.fat12 then 3 * m.bytesPerSec else maxbsize

/-- Size of fat blocks in sectors. Source: mountmsdosfs -/
def fatblocksec : ℕ := m.fatblocksize / m.bytesPerSec

/-- Bytes per cluster. Source: mountmsdosfs -/
def bpcluster : ℕ := m.secPerClust * m.bytesPerSec

/-- `FATOFS`: byte offset in FAT of a cluster. -/
def fatofs (cn : ℕ) : ℕ := if m.fat12 then cn * 3 / 2 else cn * 2

/-- The address of the first FAT on the device. -/
def fatAddr : ℕ := m.fatblk * m.bytesPerSec

/-- Size of fat in bytes. Source: mountmsdosfs -/
def fatsize : ℕ := m.fatSecs * m.bytesPerSec

/-- `fatblock`: the block that holds a byte of the FAT, its size, and the place of the byte in it. -/
def fatblock (ofs : ℕ) : ℕ × ℕ × ℕ :=
  let bn := ofs / m.fatblocksize * m.fatblocksec
  let size := min m.fatblocksec ((m.fatSecs + 2 ^ 32 - bn) % 2 ^ 32) * m.bytesPerSec
  (bn + m.fatblk, size, ofs % m.fatblocksize)

end Bpb

/-- A volume with a 12 or 16 bit FAT: its clusters lie within it, have numbers below the reserved ones
and an entry in the FAT. `mountmsdosfs` checks that the size of a cluster is a power of two; a
buffer holds at least one sector.
Source: mountmsdosfs -/
structure Volume extends Bpb where
  cnshift : ℕ
  bpcluster_eq : toBpb.bpcluster = 2 ^ cnshift
  sector : bytesPerSec ∣ maxbsize
  fatSecs_lt : fatSecs < 2 ^ 16
  inside : toBpb.firstcluster ≤ hugeSectors
  clusters : toBpb.maxcluster < clustRsrvs
  fits : toBpb.fatofs toBpb.maxcluster + 2 ≤ toBpb.fatsize

/-- A cluster of the volume. Source: fatentry -/
def Bpb.InVolume (m : Bpb) (cn : ℕ) : Prop := clustFirst ≤ cn ∧ cn ≤ m.maxcluster

instance (m : Bpb) (cn : ℕ) : Decidable (m.InVolume cn) := inferInstanceAs (Decidable (_ ∧ _))

/-! ## Blocks of the device -/

abbrev Disk := ℕ → BitVec 8

/-- A buffer: its block number, its size and its bytes. Source: buf.h struct buf -/
structure Buf where
  blkno : ℕ
  bcount : ℕ
  addr : ℕ → BitVec 8

/-- Read a block. Source: bread -/
def bread (m : Bpb) (d : Disk) (bn size : ℕ) : Buf := ⟨bn, size, fun i => d (bn * m.bytesPerSec + i)⟩

/-- Write a block. Source: bwrite, bdwrite -/
def bwrite (m : Bpb) (d : Disk) (bp : Buf) : Disk := fun a =>
  if bp.blkno * m.bytesPerSec ≤ a ∧ a < bp.blkno * m.bytesPerSec + bp.bcount then
    bp.addr (a - bp.blkno * m.bytesPerSec)
  else d a

def ushort (hi lo : BitVec 8) : BitVec 16 := hi.setWidth 16 <<< 8 ||| lo.setWidth 16

/-- `getushort`, little endian. -/
def getushort (addr : ℕ → BitVec 8) (i : ℕ) : BitVec 16 := ushort (addr (i + 1)) (addr i)

/-- `putushort`. -/
def putushort (addr : ℕ → BitVec 8) (i : ℕ) (v : BitVec 16) : ℕ → BitVec 8 :=
  update (update addr i (v.extractLsb' 0 8)) (i + 1) (v.extractLsb' 8 8)

/-- `updateotherfats`: copy the block of the modified fat to the other copies of the fat. -/
def updateotherfats (m : Bpb) (d : Disk) (bp : Buf) (fatbn : ℕ) : Disk :=
  (List.range (m.fats - 1)).foldl
    (fun d i => bwrite m d { bp with blkno := fatbn + (i + 1) * m.fatSecs }) d

/-! ## Entries -/

/-- The entry of cluster `cn` in the two bytes at its offset.
Source: fatentry -/
def unpack (m : Bpb) (cn : ℕ) (w : BitVec 16) : BitVec 32 :=
  let readcn := w.setWidth 32
  if m.fat12 then (if cn % 2 = 1 then readcn >>> 4 else readcn) &&& 0x0fff else readcn

/-- Map certain 12 bit fat entries to 16 bit. Source: fatentry -/
def mapReserved (m : Bpb) (readcn : BitVec 32) : BitVec 32 :=
  if m.fat12 ∧ readcn &&& 0x0ff0 = 0x0ff0 then readcn ||| 0xf000 else readcn

/-- The two bytes that are written for the entry of cluster `cn`.
Source: fatentry -/
def pack (m : Bpb) (cn : ℕ) (w : BitVec 16) (newcontents : BitVec 32) : BitVec 16 :=
  if m.fat12 then
    let readcn := w.setWidth 32
    if cn % 2 = 1 then ((readcn &&& 0x000f) ||| (newcontents <<< 4)).setWidth 16
    else ((readcn &&& 0xf000) ||| newcontents).setWidth 16
  else newcontents.setWidth 16

/-- Function codes of `fatentry`. -/
inductive FatFunction where
  | get
  | set
  | getAndSet
deriving DecidableEq

/-- The function code has `FAT_SET`. -/
def FatFunction.sets : FatFunction → Bool
  | .get => false
  | .set | .getAndSet => true

/-- Get or set or get and set an entry in the fat: what was read, and the device after it.
Source: fatentry -/
def fatentry (function : FatFunction) (m : Bpb) (d : Disk) (cn : ℕ) (newcontents : BitVec 32) :
    Except Errno (BitVec 32 × Disk) :=
  if cn < clustFirst ∨ m.maxcluster < cn then .error .einval
  else
    let (bn, bsize, bo) := m.fatblock (m.fatofs cn)
    let bp := bread m d bn bsize
    let readcn := mapReserved m (unpack m cn (getushort bp.addr bo))
    if function.sets then
      let bp := { bp with addr := putushort bp.addr bo (pack m cn (getushort bp.addr bo) newcontents) }
      .ok (readcn, bwrite m (updateotherfats m d bp bn) bp)
    else .ok (readcn, d)

/-! ## Two bytes -/

theorem ushort_extractLsb' (w : BitVec 16) :
    ushort (w.extractLsb' 8 8) (w.extractLsb' 0 8) = w := by
  apply eq_of_getLsbD_eq
  intro i hi
  interval_cases i <;> simp [ushort]

theorem unpack_pack (m : Bpb) (cn : ℕ) (w : BitVec 16) (v : BitVec 32) :
    unpack m cn (pack m cn w v) = v &&& (if m.fat12 then 0x0fff else 0xffff) := by
  unfold unpack pack
  split
  · split
    all_goals
      apply eq_of_getLsbD_eq
      intro i hi
      interval_cases i <;> simp
  · apply eq_of_getLsbD_eq
    intro i hi
    interval_cases i <;> simp

section twelve

variable {m : Bpb} (h12 : m.fat12 = true) {cn : ℕ} (heven : cn % 2 = 0)

include h12 heven

theorem unpack_pack_next (b0 b1 b2 : BitVec 8) (v : BitVec 32) :
    unpack m (cn + 1) (ushort b2 ((pack m cn (ushort b1 b0) v).extractLsb' 8 8)) =
      unpack m (cn + 1) (ushort b2 b1) ||| ((v >>> 12) &&& 0xf) := by
  have hodd : (cn + 1) % 2 = 1 := by omega
  simp only [unpack, pack, h12, heven, hodd, if_true, Nat.zero_ne_one, if_false, ushort]
  apply eq_of_getLsbD_eq
  intro i hi
  interval_cases i <;> simp

theorem unpack_pack_prev (b0 b1 b2 : BitVec 8) (v : BitVec 32) :
    unpack m cn (ushort ((pack m (cn + 1) (ushort b2 b1) v).extractLsb' 0 8) b0) =
      unpack m cn (ushort b1 b0) := by
  have hodd : (cn + 1) % 2 = 1 := by omega
  simp only [unpack, pack, h12, heven, hodd, if_true, Nat.zero_ne_one, if_false, ushort]
  apply eq_of_getLsbD_eq
  intro i hi
  interval_cases i <;> simp

end twelve

/-! ## The block of an entry -/

namespace Volume

variable (m : Volume)

theorem bytesPerSec_pos : 0 < m.bytesPerSec := Nat.pos_of_dvd_of_pos m.sector (by decide)

theorem fatblocksec_mul : m.fatblocksec * m.bytesPerSec = m.fatblocksize := by
  apply Nat.div_mul_cancel
  unfold Bpb.fatblocksize
  split
  · exact Nat.dvd_mul_left _ _
  · exact m.sector

theorem fatblocksize_pos : 0 < m.fatblocksize := by
  have hpos := m.bytesPerSec_pos
  unfold Bpb.fatblocksize
  split
  · omega
  · decide

theorem fatofs_mod_add_two_le (cn : ℕ) : m.fatofs cn % m.fatblocksize + 2 ≤ m.fatblocksize := by
  have hlt := Nat.mod_lt (m.fatofs cn) m.fatblocksize_pos
  unfold Bpb.fatofs Bpb.fatblocksize at *
  by_cases h12 : m.fat12 = true
  · simp only [h12, if_true] at hlt ⊢
    have hmod : cn * 3 / 2 % (3 * m.bytesPerSec) % 3 = cn * 3 / 2 % 3 :=
      Nat.mod_mod_of_dvd _ (Nat.dvd_mul_right _ _)
    omega
  · simp only [h12, Bool.false_eq_true, if_false, maxbsize] at hlt ⊢
    omega

theorem fatofs_add_two_le {cn : ℕ} (hcn : cn ≤ m.maxcluster) : m.fatofs cn + 2 ≤ m.fatsize := by
  refine Nat.le_trans ?_ m.fits
  unfold Bpb.fatofs
  split
  · omega
  · omega

/-- The offset in the FAT of the block that holds the entry of a cluster.
Source: fatblock -/
def blockStart (cn : ℕ) : ℕ := m.fatofs cn / m.fatblocksize * m.fatblocksize

/-- The size of that block. Source: fatblock -/
def blockSize (cn : ℕ) : ℕ := (m.fatblock (m.fatofs cn)).2.1

/-- **The block of an entry**: where it is, and that it holds the entry and lies in the FAT. -/
theorem fatblock_spec {cn : ℕ} (hcn : cn ≤ m.maxcluster) :
    (m.fatblock (m.fatofs cn)).1 * m.bytesPerSec = m.fatAddr + m.blockStart cn ∧
      m.blockStart cn + (m.fatblock (m.fatofs cn)).2.2 = m.fatofs cn ∧
      (m.fatblock (m.fatofs cn)).2.2 + 2 ≤ m.blockSize cn ∧
      m.blockStart cn + m.blockSize cn ≤ m.fatsize := by
  have hmul := m.fatblocksec_mul
  have hpos := m.bytesPerSec_pos
  have hfits := m.fatofs_add_two_le hcn
  have hmod := m.fatofs_mod_add_two_le cn
  have hdiv := Nat.div_add_mod' (m.fatofs cn) m.fatblocksize
  obtain ⟨q, hq⟩ : ∃ q, m.fatofs cn / m.fatblocksize = q := ⟨_, rfl⟩
  have hstart : m.blockStart cn = q * m.fatblocksec * m.bytesPerSec := by
    rw [blockStart, hq, Nat.mul_assoc, hmul]
  rw [hq, ← hmul, ← Nat.mul_assoc] at hdiv
  have hle : q * m.fatblocksec ≤ m.fatSecs := by
    refine Nat.le_of_mul_le_mul_right ?_ hpos
    unfold Bpb.fatsize at hfits
    omega
  have hsize : m.blockSize cn = min m.fatblocksec (m.fatSecs - q * m.fatblocksec) * m.bytesPerSec := by
    have hwrap : (m.fatSecs + 2 ^ 32 - q * m.fatblocksec) % 2 ^ 32 =
        m.fatSecs - q * m.fatblocksec := by
      have hlt := m.fatSecs_lt
      omega
    simp only [blockSize, Bpb.fatblock, hq, hwrap]
  have hrest : (m.fatSecs - q * m.fatblocksec) * m.bytesPerSec =
      m.fatsize - q * m.fatblocksec * m.bytesPerSec := Nat.sub_mul _ _ _
  refine ⟨?_, ?_, ?_, ?_⟩
  · simp only [Bpb.fatblock, hq]
    rw [Nat.add_mul, Nat.add_comm, hstart]
    rfl
  · rw [hstart]
    simp only [Bpb.fatblock]
    rw [← hmul]
    exact hdiv
  · rw [hsize, ← Nat.mul_min_mul_right, hmul, hrest]
    simp only [Bpb.fatblock]
    rw [← hmul] at hmod ⊢
    exact Nat.le_min.mpr ⟨hmod, by omega⟩
  · rw [hsize, ← Nat.mul_min_mul_right, hrest, hstart]
    have hmin := Nat.min_le_right (m.fatblocksec * m.bytesPerSec)
      (m.fatsize - q * m.fatblocksec * m.bytesPerSec)
    omega

end Volume

/-! ## What is read -/

/-- The entry of a cluster, as it is in the first FAT. Source: none: what is claimed -/
def rawEntry (m : Bpb) (d : Disk) (cn : ℕ) : BitVec 32 :=
  unpack m cn (getushort d (m.fatAddr + m.fatofs cn))

/-- The entry of a cluster, as `fatentry` returns it. Source: none: what is claimed -/
def entry (m : Bpb) (d : Disk) (cn : ℕ) : BitVec 32 := mapReserved m (rawEntry m d cn)

/-- The block of an entry, with the entry modified.
Source: fatentry -/
def setBuf (m : Bpb) (d : Disk) (cn : ℕ) (v : BitVec 32) : Buf :=
  let blk := m.fatblock (m.fatofs cn)
  let bp := bread m d blk.1 blk.2.1
  { bp with addr := putushort bp.addr blk.2.2 (pack m cn (getushort bp.addr blk.2.2) v) }

/-- The device after `FAT_SET`. Source: fatentry -/
def fatSet (m : Bpb) (d : Disk) (cn : ℕ) (v : BitVec 32) : Disk :=
  bwrite m (updateotherfats m d (setBuf m d cn v) (setBuf m d cn v).blkno) (setBuf m d cn v)

section fatentry

variable (m : Volume) (d : Disk) {cn : ℕ}

theorem getushort_bread (hcn : cn ≤ m.maxcluster) (size : ℕ) :
    getushort (bread m.toBpb d (m.fatblock (m.fatofs cn)).1 size).addr
      (m.fatblock (m.fatofs cn)).2.2 = getushort d (m.fatAddr + m.fatofs cn) := by
  obtain ⟨hbn, hbo, -, -⟩ := m.fatblock_spec hcn
  have hlo : m.fatAddr + m.blockStart cn + (m.fatblock (m.fatofs cn)).2.2 =
      m.fatAddr + m.fatofs cn := by omega
  unfold getushort bread
  dsimp only
  rw [hbn, ← Nat.add_assoc, hlo]

theorem fatentry_get (hcn : m.InVolume cn) (v : BitVec 32) :
    fatentry .get m.toBpb d cn v = .ok (entry m.toBpb d cn, d) := by
  have hin : ¬(cn < clustFirst ∨ m.maxcluster < cn) := by
    rw [not_or, not_lt, not_lt]
    exact hcn
  unfold fatentry entry rawEntry
  rw [if_neg hin]
  dsimp only
  rw [getushort_bread m d hcn.2]
  rfl

theorem fatentry_sets {function : FatFunction} (hset : function.sets = true) (hcn : m.InVolume cn)
    (v : BitVec 32) :
    fatentry function m.toBpb d cn v = .ok (entry m.toBpb d cn, fatSet m.toBpb d cn v) := by
  have hin : ¬(cn < clustFirst ∨ m.maxcluster < cn) := by
    rw [not_or, not_lt, not_lt]
    exact hcn
  unfold fatentry entry rawEntry
  rw [if_neg hin]
  dsimp only
  rw [if_pos hset]
  rw [← getushort_bread m d hcn.2 (m.fatblock (m.fatofs cn)).2.1]
  rfl

theorem fatentry_einval {function : FatFunction} (hcn : ¬m.InVolume cn) (v : BitVec 32) :
    fatentry function m.toBpb d cn v = .error .einval := by
  have hout : cn < clustFirst ∨ m.maxcluster < cn := by
    by_contra h
    rw [not_or, not_lt, not_lt] at h
    exact hcn h
  unfold fatentry
  rw [if_pos hout]

end fatentry

/-! ## What is written -/

section otherfats

variable (m : Bpb) (d : Disk) (bp : Buf) {start : ℕ}

theorem foldl_bwrite_of_mem (hbn : bp.blkno * m.bytesPerSec = m.fatAddr + start)
    (hin : start + bp.bcount ≤ m.fatsize) {n j x : ℕ} (hj : j < n) (hx : x < bp.bcount) :
    (List.range n).foldl (fun d i => bwrite m d { bp with blkno := bp.blkno + (i + 1) * m.fatSecs }) d
      (m.fatAddr + (j + 1) * m.fatsize + (start + x)) = bp.addr x := by
  have hbase : ∀ i, (bp.blkno + (i + 1) * m.fatSecs) * m.bytesPerSec =
      m.fatAddr + start + (i + 1) * m.fatsize := by
    intro i
    rw [Nat.add_mul, hbn, Nat.mul_assoc]
    rfl
  induction n with
  | zero => exact absurd hj (Nat.not_lt_zero j)
  | succ n ih =>
    rw [range_succ, foldl_append, foldl_cons, foldl_nil]
    unfold bwrite
    dsimp only
    rw [hbase n]
    by_cases hjn : j = n
    · subst hjn
      rw [if_pos ⟨by omega, by omega⟩]
      congr 1
      omega
    have hlt : (j + 1) * m.fatsize + m.fatsize ≤ (n + 1) * m.fatsize := by
      rw [← Nat.succ_mul]
      exact Nat.mul_le_mul_right _ (by omega)
    rw [if_neg fun h => by omega]
    exact ih (by omega)

theorem foldl_bwrite_of_notMem (hbn : bp.blkno * m.bytesPerSec = m.fatAddr + start) {n a : ℕ}
    (ha : ∀ i < n, a < m.fatAddr + start + (i + 1) * m.fatsize ∨
      m.fatAddr + start + (i + 1) * m.fatsize + bp.bcount ≤ a) :
    (List.range n).foldl (fun d i => bwrite m d { bp with blkno := bp.blkno + (i + 1) * m.fatSecs }) d
      a = d a := by
  induction n with
  | zero => rfl
  | succ n ih =>
    rw [range_succ, foldl_append, foldl_cons, foldl_nil]
    have hbase : (bp.blkno + (n + 1) * m.fatSecs) * m.bytesPerSec =
        m.fatAddr + start + (n + 1) * m.fatsize := by
      rw [Nat.add_mul, hbn, Nat.mul_assoc]
      rfl
    have hn := ha n (Nat.lt_succ_self n)
    rw [bwrite, hbase, if_neg fun h => by
      dsimp only at h
      omega]
    exact ih fun i hi => ha i (by omega)

end otherfats

section fatSet

variable (m : Volume) (d : Disk) {cn : ℕ} (hcn : cn ≤ m.maxcluster) (v : BitVec 32)

/-- The word that is written. Source: fatentry -/
def newWord (m : Bpb) (d : Disk) (cn : ℕ) (v : BitVec 32) : BitVec 16 :=
  pack m cn (getushort d (m.fatAddr + m.fatofs cn)) v

include hcn

theorem setBuf_spec :
    (setBuf m.toBpb d cn v).blkno * m.bytesPerSec = m.fatAddr + m.blockStart cn ∧
      (setBuf m.toBpb d cn v).bcount = m.blockSize cn ∧
      ∀ x, m.blockStart cn ≤ x → (setBuf m.toBpb d cn v).addr (x - m.blockStart cn) =
        if x = m.fatofs cn + 1 then (newWord m.toBpb d cn v).extractLsb' 8 8
        else if x = m.fatofs cn then (newWord m.toBpb d cn v).extractLsb' 0 8
        else d (m.fatAddr + x) := by
  obtain ⟨hbn, hbo, -, -⟩ := m.fatblock_spec hcn
  refine ⟨hbn, rfl, fun x hx => ?_⟩
  unfold setBuf newWord
  dsimp only
  rw [getushort_bread m d hcn]
  unfold putushort bread
  dsimp only
  by_cases hhi : x = m.fatofs cn + 1
  · rw [if_pos hhi, update_apply, if_pos (by omega)]
  rw [if_neg hhi, update_apply, if_neg (by omega), update_apply]
  by_cases hlo : x = m.fatofs cn
  · rw [if_pos hlo, if_pos (by omega)]
  · rw [if_neg hlo, if_neg (by omega), hbn]
    congr 1
    omega

theorem fatSet_fat {x : ℕ} (hx : x < m.fatsize) :
    fatSet m.toBpb d cn v (m.fatAddr + x) =
      if x = m.fatofs cn + 1 then (newWord m.toBpb d cn v).extractLsb' 8 8
      else if x = m.fatofs cn then (newWord m.toBpb d cn v).extractLsb' 0 8
      else d (m.fatAddr + x) := by
  obtain ⟨-, hbo, hbo2, hin⟩ := m.fatblock_spec hcn
  obtain ⟨hbn, hcount, haddr⟩ := setBuf_spec m d hcn v
  unfold fatSet bwrite
  rw [hbn, hcount]
  by_cases hblk : m.blockStart cn ≤ x ∧ x < m.blockStart cn + m.blockSize cn
  · rw [if_pos ⟨by omega, by omega⟩, ← haddr x hblk.1]
    congr 1
    omega
  rw [if_neg fun h => hblk ⟨by omega, by omega⟩, if_neg (by omega), if_neg (by omega)]
  refine foldl_bwrite_of_notMem m.toBpb d _ hbn fun i _ => ?_
  have hle : m.fatsize ≤ (i + 1) * m.fatsize := Nat.le_mul_of_pos_left _ (Nat.succ_pos i)
  omega

theorem fatSet_copy {i x : ℕ} (hi : i + 1 < m.fats) (hx : x < m.fatsize) :
    fatSet m.toBpb d cn v (m.fatAddr + (i + 1) * m.fatsize + x) =
      if m.blockStart cn ≤ x ∧ x < m.blockStart cn + m.blockSize cn then
        fatSet m.toBpb d cn v (m.fatAddr + x)
      else d (m.fatAddr + (i + 1) * m.fatsize + x) := by
  obtain ⟨-, hbo, hbo2, hin⟩ := m.fatblock_spec hcn
  obtain ⟨hbn, hcount, haddr⟩ := setBuf_spec m d hcn v
  have hle : m.fatsize ≤ (i + 1) * m.fatsize := Nat.le_mul_of_pos_left _ (Nat.succ_pos i)
  have hfirst : ¬((setBuf m.toBpb d cn v).blkno * m.bytesPerSec ≤
      m.fatAddr + (i + 1) * m.fatsize + x ∧ m.fatAddr + (i + 1) * m.fatsize + x <
        (setBuf m.toBpb d cn v).blkno * m.bytesPerSec + (setBuf m.toBpb d cn v).bcount) := by
    rw [hbn, hcount]
    omega
  have hother : fatSet m.toBpb d cn v (m.fatAddr + (i + 1) * m.fatsize + x) =
      updateotherfats m.toBpb d (setBuf m.toBpb d cn v) (setBuf m.toBpb d cn v).blkno
        (m.fatAddr + (i + 1) * m.fatsize + x) := by
    unfold fatSet bwrite
    rw [if_neg hfirst]
  rw [hother]
  by_cases hblk : m.blockStart cn ≤ x ∧ x < m.blockStart cn + m.blockSize cn
  · rw [if_pos hblk, fatSet_fat m d hcn v hx, ← haddr x hblk.1]
    have hx' : x = m.blockStart cn + (x - m.blockStart cn) := by omega
    have hcopy := foldl_bwrite_of_mem m.toBpb d _ hbn (by omega) (by omega : i < m.fats - 1)
      (by omega : x - m.blockStart cn < (setBuf m.toBpb d cn v).bcount)
    rw [← hx'] at hcopy
    exact hcopy
  · rw [if_neg hblk]
    refine foldl_bwrite_of_notMem m.toBpb d _ hbn fun j hj => ?_
    rw [hcount]
    rcases Nat.lt_trichotomy i j with hlt | rfl | hgt
    · have hfar : (i + 1) * m.fatsize + m.fatsize ≤ (j + 1) * m.fatsize := by
        rw [← Nat.succ_mul]
        exact Nat.mul_le_mul_right _ (by omega)
      omega
    · omega
    · have hfar : (j + 1) * m.fatsize + m.fatsize ≤ (i + 1) * m.fatsize := by
        rw [← Nat.succ_mul]
        exact Nat.mul_le_mul_right _ (by omega)
      omega

end fatSet

/-! ## Entries after a write -/

section entries

variable (m : Volume) (d : Disk) {cn c : ℕ} (hcn : cn ≤ m.maxcluster) (hc : c ≤ m.maxcluster)
  (v : BitVec 32)

include hcn hc

theorem getushort_fatSet :
    getushort (fatSet m.toBpb d cn v) (m.fatAddr + m.fatofs c) =
      ushort
        (if m.fatofs c = m.fatofs cn then (newWord m.toBpb d cn v).extractLsb' 8 8
         else if m.fatofs c + 1 = m.fatofs cn then (newWord m.toBpb d cn v).extractLsb' 0 8
         else d (m.fatAddr + m.fatofs c + 1))
        (if m.fatofs c = m.fatofs cn + 1 then (newWord m.toBpb d cn v).extractLsb' 8 8
         else if m.fatofs c = m.fatofs cn then (newWord m.toBpb d cn v).extractLsb' 0 8
         else d (m.fatAddr + m.fatofs c)) := by
  have hfits := m.fatofs_add_two_le hc
  unfold getushort
  rw [Nat.add_assoc m.fatAddr, fatSet_fat m d hcn v (by omega), fatSet_fat m d hcn v (by omega)]
  simp only [Nat.add_right_cancel_iff]

theorem getushort_fatSet_of_far
    (hfar : m.fatofs c + 1 < m.fatofs cn ∨ m.fatofs cn + 1 < m.fatofs c) :
    getushort (fatSet m.toBpb d cn v) (m.fatAddr + m.fatofs c) =
      getushort d (m.fatAddr + m.fatofs c) := by
  rw [getushort_fatSet m d hcn hc v, if_neg (by omega : ¬m.fatofs c = m.fatofs cn),
    if_neg (by omega : ¬m.fatofs c + 1 = m.fatofs cn),
    if_neg (by omega : ¬m.fatofs c = m.fatofs cn + 1),
    if_neg (by omega : ¬m.fatofs c = m.fatofs cn)]
  rfl

/-- **What `FAT_SET` does to the entries**: the entry is written, and in a 12 bit table the upper four
bits for an even cluster are or-ed into the entry of the next cluster. -/
theorem rawEntry_fatSet :
    rawEntry m.toBpb (fatSet m.toBpb d cn v) c =
      if c = cn then v &&& (if m.fat12 then 0x0fff else 0xffff)
      else if m.fat12 = true ∧ cn % 2 = 0 ∧ c = cn + 1 then
        rawEntry m.toBpb d c ||| ((v >>> 12) &&& 0xf)
      else rawEntry m.toBpb d c := by
  have hlow : ¬m.fatofs cn = m.fatofs cn + 1 := by omega
  unfold rawEntry
  by_cases hself : c = cn
  · subst hself
    rw [getushort_fatSet m d hcn hc v]
    have hsame : m.fatofs c = m.fatofs c := rfl
    rw [if_pos (rfl : c = c), if_pos hsame, if_neg hlow, if_pos hsame, ushort_extractLsb']
    exact unpack_pack m.toBpb c _ v
  rw [if_neg hself]
  by_cases h12 : m.fat12 = true
  · have hofs : ∀ n, m.fatofs n = n * 3 / 2 := fun n => by
      unfold Bpb.fatofs
      rw [if_pos h12]
    by_cases hnext : cn % 2 = 0 ∧ c = cn + 1
    · obtain ⟨heven, rfl⟩ := hnext
      have hat : m.fatofs (cn + 1) = m.fatofs cn + 1 := by
        rw [hofs, hofs]
        omega
      have hne : ¬m.fatofs cn + 1 = m.fatofs cn := by omega
      have hne' : ¬m.fatofs cn + 1 + 1 = m.fatofs cn := by omega
      have hslip : m.fat12 = true ∧ cn % 2 = 0 ∧ cn + 1 = cn + 1 := ⟨h12, heven, rfl⟩
      rw [getushort_fatSet m d hcn hc v, if_pos hslip, hat, if_neg hne, if_neg hne',
        if_pos (rfl : m.fatofs cn + 1 = m.fatofs cn + 1)]
      exact unpack_pack_next h12 heven _ _ _ v
    · have hslip : ¬(m.fat12 = true ∧ cn % 2 = 0 ∧ c = cn + 1) := fun h => hnext h.2
      rw [if_neg hslip]
      by_cases hprev : c % 2 = 0 ∧ cn = c + 1
      · obtain ⟨heven, rfl⟩ := hprev
        have hat : m.fatofs (c + 1) = m.fatofs c + 1 := by
          rw [hofs, hofs]
          omega
        have hne : ¬m.fatofs c = m.fatofs c + 1 := by omega
        have hne' : ¬m.fatofs c = m.fatofs c + 1 + 1 := by omega
        rw [getushort_fatSet m d hcn hc v]
        unfold newWord
        rw [hat, if_neg hne, if_neg hne', if_neg hne,
          if_pos (rfl : m.fatofs c + 1 = m.fatofs c + 1)]
        exact unpack_pack_prev h12 heven _ _ _ v
      · -- any other two entries of a 12 bit table have no byte in common
        have hfar : m.fatofs c + 1 < m.fatofs cn ∨ m.fatofs cn + 1 < m.fatofs c := by
          rw [hofs, hofs]
          omega
        rw [getushort_fatSet_of_far m d hcn hc v hfar]
  · have hofs : ∀ n, m.fatofs n = n * 2 := fun n => by
      unfold Bpb.fatofs
      rw [if_neg h12]
    have hfar : m.fatofs c + 1 < m.fatofs cn ∨ m.fatofs cn + 1 < m.fatofs c := by
      rw [hofs, hofs]
      omega
    have hslip : ¬(m.fat12 = true ∧ cn % 2 = 0 ∧ c = cn + 1) := fun h => h12 h.1
    rw [if_neg hslip, getushort_fatSet_of_far m d hcn hc v hfar]

end entries

/-! ## Update and read -/

/-- All FAT copies hold the same bytes. Source: none: what is claimed -/
def Mirrored (m : Bpb) (d : Disk) : Prop :=
  ∀ i < m.fats, ∀ x < m.fatsize, d (m.fatAddr + i * m.fatsize + x) = d (m.fatAddr + x)

/-- What is written to entries: `CLUST_FREE`, `CLUST_EOFE` and clusters of the volume. -/
def FatValue (m : Bpb) (v : BitVec 32) : Prop := v = clustFree ∨ v = clustEofe ∨ m.InVolume v.toNat

/-- Update and read agree: after `FAT_SET` the entry reads as what was written, with reserved values
mapped to 16 bit, every other entry reads as before, and the FAT copies are equal.
Source: none: what is claimed -/
def SetsEntry (m : Bpb) (d : Disk) (cn : ℕ) (v : BitVec 32) : Prop :=
  ∃ old d', fatentry .set m d cn v = .ok (old, d') ∧
    fatentry .get m d' cn 0 = .ok (mapReserved m v, d') ∧
    (∀ c, c ≠ cn → (fatentry .get m d' c 0).map Prod.fst = (fatentry .get m d c 0).map Prod.fst) ∧
    Mirrored m d'

/-- When a write is well behaved: in a 12 bit FAT, `CLUST_EOFE` goes to an even cluster only when the
low four bits of the entry of the next cluster are set; and the FAT copies agree outside of the
block of the entry. -/
structure SetOk (m : Volume) (d : Disk) (cn : ℕ) (v : BitVec 32) : Prop where
  next : m.fat12 = true → cn % 2 = 0 → cn + 1 ≤ m.maxcluster → v = clustEofe →
    rawEntry m.toBpb d (cn + 1) ||| 0xf = rawEntry m.toBpb d (cn + 1)
  mirrored : ∀ i < m.fats, ∀ x < m.fatsize,
    ¬(m.blockStart cn ≤ x ∧ x < m.blockStart cn + m.blockSize cn) →
      d (m.fatAddr + i * m.fatsize + x) = d (m.fatAddr + x)

theorem rawEntry_and (m : Bpb) (h12 : m.fat12 = true) (d : Disk) (cn : ℕ) :
    rawEntry m d cn &&& 0x0fff = rawEntry m d cn := by
  unfold rawEntry unpack
  rw [if_pos h12, BitVec.and_assoc, BitVec.and_self]

theorem mapReserved_injective (m : Bpb) {x y : BitVec 32} (hx : x &&& 0x0fff = x)
    (hy : y &&& 0x0fff = y) (h : mapReserved m x = mapReserved m y) : x = y := by
  have hback : ∀ z : BitVec 32, z &&& 0x0fff = z → mapReserved m z &&& 0x0fff = z := by
    intro z hz
    unfold mapReserved
    split
    · rw [BitVec.and_or_distrib_right, hz]
      exact or_zero
    · exact hz
  rw [← hback x hx, h, hback y hy]

theorem shiftRight_of_lt {v : BitVec 32} (hv : v.toNat < 4096) : v >>> 12 &&& 0xf = 0 := by
  have hzero : v >>> 12 = 0 := by
    apply BitVec.eq_of_toNat_eq
    rw [BitVec.toNat_ushiftRight, Nat.shiftRight_eq_div_pow]
    exact Nat.div_eq_of_lt hv
  rw [hzero]
  rfl

theorem and_of_lt {v : BitVec 32} {w : ℕ} (hv : v.toNat < 2 ^ w) (hw : 2 ^ w < 2 ^ 32) :
    v &&& BitVec.ofNat 32 (2 ^ w - 1) = v := by
  apply BitVec.eq_of_toNat_eq
  rw [BitVec.toNat_and, BitVec.toNat_ofNat, Nat.mod_eq_of_lt (by omega),
    Nat.and_two_pow_sub_one_eq_mod, Nat.mod_eq_of_lt hv]

section update

variable (m : Volume) (d : Disk) {cn : ℕ} (v : BitVec 32)

theorem Volume.lt_of_fat12 (h12 : m.fat12 = true) (hcn : m.InVolume cn) : cn < 4096 := by
  have h : m.maxcluster ≤ 4086 := of_decide_eq_true h12
  have hle := hcn.2
  omega

theorem entry_fatSet_self (hcn : m.InVolume cn) (hv : FatValue m.toBpb v) :
    entry m.toBpb (fatSet m.toBpb d cn v) cn = mapReserved m.toBpb v := by
  unfold entry
  rw [rawEntry_fatSet m d hcn.2 hcn.2 v, if_pos rfl]
  rcases hv with rfl | rfl | hv
  · split
    · rfl
    · rfl
  · unfold mapReserved
    by_cases h12 : m.fat12 = true
    · simp only [h12, if_true, true_and]
      decide
    · simp [h12]
      decide
  · split
    · next h12 => exact congrArg _ (and_of_lt (w := 12) (m.lt_of_fat12 h12 hv) (by decide))
    · have hlt : v.toNat < 2 ^ 16 := by
        have h := m.clusters
        have hle := hv.2
        unfold clustRsrvs at h
        omega
      exact congrArg _ (and_of_lt (w := 16) hlt (by decide))

theorem entry_fatSet_ne_iff (hcn : m.InVolume cn) (hv : FatValue m.toBpb v) :
    (∀ c, c ≠ cn → m.InVolume c →
      entry m.toBpb (fatSet m.toBpb d cn v) c = entry m.toBpb d c) ↔
    (m.fat12 = true → cn % 2 = 0 → cn + 1 ≤ m.maxcluster → v = clustEofe →
      rawEntry m.toBpb d (cn + 1) ||| 0xf = rawEntry m.toBpb d (cn + 1)) := by
  constructor
  · intro h h12 heven hle hv
    have hnext := h (cn + 1) (by omega) ⟨by have := hcn.1; omega, hle⟩
    unfold entry at hnext
    rw [rawEntry_fatSet m d hcn.2 hle v, if_neg (by omega : ¬cn + 1 = cn),
      if_pos ⟨h12, heven, rfl⟩] at hnext
    subst hv
    refine mapReserved_injective m.toBpb ?_ (rawEntry_and m.toBpb h12 d _) hnext
    rw [BitVec.and_or_distrib_right, rawEntry_and m.toBpb h12 d _]
    rfl
  · intro h c hne hc
    unfold entry
    rw [rawEntry_fatSet m d hcn.2 hc.2 v, if_neg hne]
    split
    · next hslip =>
        obtain ⟨h12, heven, rfl⟩ := hslip
        rcases hv with rfl | rfl | hv
        · exact congrArg _ or_zero
        · exact congrArg _ (h h12 heven hc.2 rfl)
        · rw [shiftRight_of_lt (m.lt_of_fat12 h12 hv)]
          exact congrArg _ or_zero
    · rfl

theorem mirrored_fatSet_iff (hcn : m.InVolume cn) :
    Mirrored m.toBpb (fatSet m.toBpb d cn v) ↔
      ∀ i < m.fats, ∀ x < m.fatsize,
        ¬(m.blockStart cn ≤ x ∧ x < m.blockStart cn + m.blockSize cn) →
          d (m.fatAddr + i * m.fatsize + x) = d (m.fatAddr + x) := by
  obtain ⟨-, hbo, hbo2, -⟩ := m.fatblock_spec hcn.2
  have hfat : ∀ x < m.fatsize, ¬(m.blockStart cn ≤ x ∧ x < m.blockStart cn + m.blockSize cn) →
      fatSet m.toBpb d cn v (m.fatAddr + x) = d (m.fatAddr + x) := by
    intro x hx hout
    rw [fatSet_fat m d hcn.2 v hx, if_neg (by omega), if_neg (by omega)]
  refine forall_congr' fun i => forall_congr' fun hi => forall_congr' fun x =>
    forall_congr' fun hx => ?_
  cases i with
  | zero =>
    rw [Nat.zero_mul, Nat.add_zero]
    exact iff_of_true rfl fun _ => rfl
  | succ i =>
    rw [fatSet_copy m d hcn.2 v hi hx]
    by_cases hblk : m.blockStart cn ≤ x ∧ x < m.blockStart cn + m.blockSize cn
    · rw [if_pos hblk]
      exact iff_of_true rfl fun h => absurd hblk h
    · rw [if_neg hblk, hfat x hx hblk]
      exact ⟨fun h _ => h, fun h => h hblk⟩

/-- **Update and read agree**, exactly under `SetOk`.
Source: fatentry. Kind: C -/
theorem fatentry_set_iff (hcn : m.InVolume cn) (hv : FatValue m.toBpb v) :
    SetsEntry m.toBpb d cn v ↔ SetOk m d cn v := by
  have hself := entry_fatSet_self m d v hcn hv
  have hset := fatentry_sets m d (rfl : FatFunction.set.sets = true) hcn v
  have hother : (∀ c, c ≠ cn → (fatentry .get m.toBpb (fatSet m.toBpb d cn v) c 0).map Prod.fst =
      (fatentry .get m.toBpb d c 0).map Prod.fst) ↔
        ∀ c, c ≠ cn → m.InVolume c →
          entry m.toBpb (fatSet m.toBpb d cn v) c = entry m.toBpb d c := by
    refine forall_congr' fun c => forall_congr' fun _ => ?_
    by_cases hc : m.InVolume c
    · rw [fatentry_get m _ hc, fatentry_get m _ hc]
      exact ⟨fun h _ => Except.ok.inj h, fun h => congrArg Except.ok (h hc)⟩
    · rw [fatentry_einval m _ hc, fatentry_einval m _ hc]
      exact iff_of_true rfl fun h => absurd h hc
  constructor
  · rintro ⟨old, d', heq, -, hne, hmir⟩
    rw [hset] at heq
    obtain ⟨rfl, rfl⟩ := Prod.mk.inj (Except.ok.inj heq)
    exact ⟨(entry_fatSet_ne_iff m d v hcn hv).mp (hother.mp hne),
      (mirrored_fatSet_iff m d v hcn).mp hmir⟩
  · rintro ⟨hnext, hmir⟩
    refine ⟨_, _, hset, ?_, hother.mpr ((entry_fatSet_ne_iff m d v hcn hv).mpr hnext),
      (mirrored_fatSet_iff m d v hcn).mpr hmir⟩
    rw [fatentry_get m _ hcn, hself]

end update

theorem dvd_maxbsize : 512 ∣ maxbsize := by decide

theorem one_lt_two_pow_16 : 1 < 2 ^ 16 := by decide

/-- A floppy disk with 354 clusters of two sectors and two FATs of two sectors. -/
def floppy : Volume where
  bytesPerSec := 512
  secPerClust := 2
  resSectors := 1
  fats := 2
  rootDirEnts := 112
  fatSecs := 2
  hugeSectors := 720
  cnshift := 10
  bpcluster_eq := by decide
  sector := dvd_maxbsize
  fatSecs_lt := by decide
  inside := by decide
  clusters := by decide
  fits := by decide

/-- An end of chain that is written to an odd cluster. -/
theorem fatentry_set_odd : SetsEntry floppy.toBpb (fun _ => 0) 3 clustEofe :=
  (fatentry_set_iff floppy (fun _ => 0) clustEofe (by decide) (.inr (.inl rfl))).mpr
    ⟨fun _ h => by simp at h, fun _ _ _ _ _ => rfl⟩

/-- An end of chain that is written to cluster 2 of an empty FAT: cluster 3 is no longer free.
Source: fatentry. Kind: C -/
theorem not_setsEntry_even :
    ∃ (m : Volume) (d : Disk) (cn : ℕ), m.InVolume cn ∧ Mirrored m.toBpb d ∧
      ¬SetsEntry m.toBpb d cn clustEofe := by
  refine ⟨floppy, fun _ => 0, 2, by decide, fun _ _ _ _ => rfl, ?_⟩
  rintro ⟨old, d', heq, -, hne, -⟩
  have hset := fatentry_sets floppy (fun _ => 0) (rfl : FatFunction.set.sets = true)
    (by decide : floppy.InVolume 2) clustEofe
  rw [hset] at heq
  obtain ⟨-, rfl⟩ := Prod.mk.inj (Except.ok.inj heq)
  have hthree := hne 3 (by decide)
  rw [fatentry_get floppy _ (by decide), fatentry_get floppy _ (by decide)] at hthree
  have hentry := Except.ok.inj hthree
  revert hentry
  decide

end Bsd386.Msdosfs
