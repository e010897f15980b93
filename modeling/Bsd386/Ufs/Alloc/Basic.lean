import Bsd386.Ufs.Alloc.Frag

/-!
# Cylinder groups and the block allocator

A file system is divided into cylinder groups of `fpg` fragments. Each group keeps its free map and the
counts that are derived from it; the super block keeps the counts of every group again, and their sums.
`alloccg` hands out a block or a part of one, `fragextend` makes a part larger in place, and `blkfree`
gives back; a read error or a group without its magic number ends each of them.

The result 0 is `NULL`: nothing was handed out. A `none` is a panic.

Times, the `fmod` flag and the error texts are left out, as are the parts of a group for inodes.

Source: `sys/ufs/ufs_alloc.c`, `ufs_subr.c`, `fs.h`.
-/

namespace Bsd386.Ufs.Alloc

open Function Lib

/-! ## The super block -/

/-- The parameters of a file system. The fields are those the allocator reads; a missing entry of
`postbl` is the -1 of the source. `newfs` makes `fpg` a multiple of `frag`, and no other `frag` passes
`isblock`. Source: fs.h, struct fs -/
structure Fs where
  size : ℕ
  ncg : ℕ
  fsize : ℕ
  frag : ℕ
  fpg : ℕ
  nspf : ℕ
  spc : ℕ
  nsect : ℕ
  npsect : ℕ
  trackskew : ℕ
  interleave : ℕ
  nrpos : ℕ
  cpc : ℕ
  postbl : ℕ → ℕ → Option ℕ
  rotbl : ℕ → ℕ
  frag_width : IsWidth frag
  fsize_pos : 0 < fsize
  fpg_pos : 0 < fpg
  fpg_dvd : frag ∣ fpg

namespace Fs

variable (fs : Fs)

/-- `fs_bsize`. -/
def bsize : ℕ := fs.frag * fs.fsize

/-- `numfrags`. -/
def numfrags (loc : ℕ) : ℕ := loc / fs.fsize

/-- `fragoff`. -/
def fragoff (loc : ℕ) : ℕ := loc % fs.fsize

/-- `fragstoblks`. -/
def fragstoblks (frags : ℕ) : ℕ := frags / fs.frag

/-- `blkstofrags`. -/
def blkstofrags (blks : ℕ) : ℕ := blks * fs.frag

/-- `fragnum`. -/
def fragnum (fsb : ℕ) : ℕ := fsb % fs.frag

/-- `blknum`. -/
def blknum (fsb : ℕ) : ℕ := fsb - fsb % fs.frag

/-- `dtog`. -/
def dtog (d : ℕ) : ℕ := d / fs.fpg

/-- `dtogd`. -/
def dtogd (d : ℕ) : ℕ := d % fs.fpg

/-- `NSPB`. -/
def nspb : ℕ := fs.nspf * fs.frag

/-- `cbtocylno`: the cylinder of a block. -/
def cbtocylno (bno : ℕ) : ℕ := bno * fs.nspf / fs.spc

/-- `cbtorpos`: the rotational position of a block. -/
def cbtorpos (bno : ℕ) : ℕ :=
  (bno * fs.nspf % fs.spc / fs.nsect * fs.trackskew +
    bno * fs.nspf % fs.spc % fs.nsect * fs.interleave) % fs.nsect * fs.nrpos / fs.npsect

end Fs

/-- The counts of free blocks and free fragments. Source: fs.h, struct csum -/
structure Csum where
  nbfree : ℤ
  nffree : ℤ

def Csum.add (c : Csum) (nb nf : ℤ) : Csum := ⟨c.nbfree + nb, c.nffree + nf⟩

/-- The counts in the super block: those of every group, and their sums.
Source: fs.h, fs_cs, fs_cstotal -/
structure Summary where
  cstotal : Csum
  cs : ℕ → Csum

/-- Add to the counts of a group and to the sums. -/
def Summary.add (s : Summary) (cg : ℕ) (nb nf : ℤ) : Summary :=
  ⟨s.cstotal.add nb nf, update s.cs cg ((s.cs cg).add nb nf)⟩

/-- A cylinder group; `magic` is what `cg_chkmagic` finds. Source: fs.h, struct cg -/
structure Cg where
  magic : Bool
  cgx : ℕ
  cs : Csum
  rotor : ℕ
  frotor : ℕ
  frsum : ℕ → ℤ
  blktot : ℕ → ℤ
  blks : ℕ → ℕ → ℤ
  blksfree : FreeMap

/-- A file system: the counts of the super block and the groups. -/
structure State where
  sum : Summary
  cg : ℕ → Cg

/-! ## Loops over bits -/

/-- Clear the `n` bits from `first` on. Source: alloccg, fragextend -/
def clrbits (map : FreeMap) (first : ℕ) : ℕ → FreeMap
  | 0 => map
  | n + 1 => clrbit (clrbits map first n) (first + n)

/-- Set the `n` bits from `first` on. Source: alloccg -/
def setbits (map : FreeMap) (first : ℕ) : ℕ → FreeMap
  | 0 => map
  | n + 1 => setbit (setbits map first n) (first + n)

/-- Free the `n` fragments from `first` on; none of them may be free.
Source: blkfree -/
def freebits (map : FreeMap) (first : ℕ) : ℕ → Option FreeMap
  | 0 => some map
  | n + 1 => (freebits map first n).bind fun map =>
    if isclr map (first + n) then some (setbit map (first + n)) else none

/-! ## Search -/

/-- The bits of a byte of the map are sifted for a run of `allocsiz` fragments.
Source: mapsearch -/
def sift (frag : ℕ) (map : FreeMap) (allocsiz bno : ℕ) : Option ℕ :=
  (List.range (8 / frag)).findSome? fun j =>
    ((List.range (frag - allocsiz + 1)).find? fun pos =>
      fits (blkmap frag map (bno + j * frag)) allocsiz pos).map (bno + j * frag + ·)

/-- `mapsearch`: find a run of exactly `allocsiz` free fragments. The map is scanned from `start` to its
end and then from its begin to `start`. -/
def mapsearch (fs : Fs) (cgp : Cg) (bpref allocsiz : ℕ) : Option (ℕ × Cg) :=
  let start := if bpref ≠ 0 then fs.dtogd bpref / 8 else cgp.frotor / 8
  let table := fragtbl fs.frag
  let mask := 1 <<< (allocsiz - 1 + fs.frag % 8) % 256
  let found (start len loc : ℕ) : Option (ℕ × Cg) :=
    let bno := (start + len - loc) * 8
    (sift fs.frag cgp.blksfree allocsiz bno).map fun pos => (pos, { cgp with frotor := bno })
  let len := (fs.fpg + 7) / 8 - start
  let loc := scanc cgp.blksfree table mask len start
  if loc ≠ 0 then found start len loc
  else
    let len := start + 1
    let loc := scanc cgp.blksfree table mask len 0
    if loc ≠ 0 then found 0 len loc else none

/-- The walk over the blocks of one rotational position. Source: alloccgblk -/
def rotLoop (fs : Fs) (map : FreeMap) (bno i : ℕ) : Option ℕ :=
  if isblock fs.frag map (bno + i) then some (fs.blkstofrags (bno + i))
  else if fs.rotbl i = 0 ∨ fs.fragstoblks fs.fpg < fs.rotbl i + i then none
  else rotLoop fs map bno (i + fs.rotbl i)
  termination_by fs.fragstoblks fs.fpg + 1 - i

/-- The next free block in the group, on the rotor. Source: alloccgblk -/
def norot (fs : Fs) (cgp : Cg) (bpref : ℕ) : Option (ℕ × Cg) :=
  (mapsearch fs cgp bpref fs.frag).map fun p => (p.1, { p.2 with rotor := p.1 })

/-- The choice of a block: the preferred one, one in its cylinder, or the next in the group.
Source: alloccgblk -/
def choose (fs : Fs) (cgp : Cg) (bpref : ℕ) : Option (ℕ × Cg) :=
  if bpref = 0 then norot fs cgp cgp.rotor
  else
    let bpref := fs.dtogd (fs.blknum bpref)
    if isblock fs.frag cgp.blksfree (fs.fragstoblks bpref) then some (bpref, cgp)
    else
      let cylno := fs.cbtocylno bpref
      if cgp.blktot cylno = 0 then norot fs cgp bpref
      else if fs.cpc = 0 then norot fs cgp bpref
      else
        let pos := fs.cbtorpos bpref
        match (List.range' pos (fs.nrpos - pos) ++ List.range pos).find? fun i =>
          decide (0 < cgp.blks cylno i) with
        | none => norot fs cgp bpref
        | some i =>
          let pos := cylno % fs.cpc
          let bno := (cylno - pos) * fs.spc / fs.nspb
          match fs.postbl pos i with
          | none => none
          | some i => (rotLoop fs cgp.blksfree bno i).map fun bno => (bno, cgp)

/-! ## The operations -/

/-- A block of the cylinder group is free by one more, or one less. -/
def Cg.addBlock (fs : Fs) (cgp : Cg) (bno : ℕ) (n : ℤ) : Cg :=
  let cylno := fs.cbtocylno bno
  { cgp with
    blks := update cgp.blks cylno
      (update (cgp.blks cylno) (fs.cbtorpos bno) (cgp.blks cylno (fs.cbtorpos bno) + n))
    blktot := update cgp.blktot cylno (cgp.blktot cylno + n) }

/-- `alloccgblk`. -/
def alloccgblk (fs : Fs) (sum : Summary) (cgp : Cg) (bpref : ℕ) : Option (ℕ × Summary × Cg) :=
  (choose fs cgp bpref).map fun (bno, cgp) =>
    let cgp := { cgp with
      blksfree := clrblock fs.frag cgp.blksfree (fs.fragstoblks bno)
      cs := cgp.cs.add (-1) 0 }
    (cgp.cgx * fs.fpg + bno, sum.add cgp.cgx (-1) 0, cgp.addBlock fs bno (-1))

/-- `alloccg`. -/
def alloccg (fs : Fs) (st : State) (cg bpref size : ℕ) (error : Bool) : Option (ℕ × State) :=
  if (st.sum.cs cg).nbfree = 0 ∧ size = fs.bsize then some (0, st)
  else if error then some (0, st)
  else
    let cgp := st.cg cg
    if cgp.magic = false ∨ (cgp.cs.nbfree = 0 ∧ size = fs.bsize) then some (0, st)
    else if size = fs.bsize then
      (alloccgblk fs st.sum cgp bpref).map fun (bno, sum, cgp) =>
        (bno, ⟨sum, update st.cg cg cgp⟩)
    else
      let frags := fs.numfrags size
      match (List.range' frags (fs.frag - frags)).find? fun k => decide (cgp.frsum k ≠ 0) with
      | none =>
        -- no fragments of a size that will do: a block is cut up
        if cgp.cs.nbfree = 0 then some (0, st)
        else
          (alloccgblk fs st.sum cgp bpref).map fun (bno, sum, cgp) =>
            let i := fs.frag - frags
            let cgp := { cgp with
              blksfree := setbits cgp.blksfree (fs.dtogd bno + frags) i
              cs := cgp.cs.add 0 i
              frsum := update cgp.frsum i (cgp.frsum i + 1) }
            (bno, ⟨sum.add cg 0 i, update st.cg cg cgp⟩)
      | some allocsiz =>
        (mapsearch fs cgp bpref allocsiz).map fun (bno, cgp) =>
          let frsum := update cgp.frsum allocsiz (cgp.frsum allocsiz - 1)
          let cgp := { cgp with
            blksfree := clrbits cgp.blksfree bno frags
            cs := cgp.cs.add 0 (-frags)
            frsum :=
              if frags ≠ allocsiz then
                update frsum (allocsiz - frags) (frsum (allocsiz - frags) + 1)
              else frsum }
          (cg * fs.fpg + bno, ⟨st.sum.add cg 0 (-frags), update st.cg cg cgp⟩)

/-- `fragextend`. -/
def fragextend (fs : Fs) (st : State) (cg bprev osize nsize : ℕ) (error : Bool) : ℕ × State :=
  if (st.sum.cs cg).nffree < fs.numfrags (nsize - osize) then (0, st)
  else
    let frags := fs.numfrags nsize
    let bbase := fs.fragnum bprev
    if fs.fragnum (bprev + frags - 1) < bbase then (0, st)
    else if error then (0, st)
    else
      let cgp := st.cg cg
      if cgp.magic = false then (0, st)
      else
        let bno := fs.dtogd bprev
        let ofrags := fs.numfrags osize
        if (List.range' ofrags (frags - ofrags)).any fun i => isclr cgp.blksfree (bno + i) then (0, st)
        else
          -- the end of the free fragments behind the old ones
          let i := ((List.range' frags (fs.frag - bbase - frags)).find? fun i =>
            isclr cgp.blksfree (bno + i)).getD (max frags (fs.frag - bbase))
          let frsum := update cgp.frsum (i - ofrags) (cgp.frsum (i - ofrags) - 1)
          let n := frags - ofrags
          let cgp := { cgp with
            frsum :=
              if i ≠ frags then update frsum (i - frags) (frsum (i - frags) + 1) else frsum
            blksfree := clrbits cgp.blksfree (bno + ofrags) n
            cs := cgp.cs.add 0 (-n) }
          (bprev, ⟨st.sum.add cg 0 (-n), update st.cg cg cgp⟩)

/-- `blkfree`. -/
def blkfree (fs : Fs) (st : State) (bno size : ℕ) (error : Bool) : Option State :=
  if fs.bsize < size ∨ fs.fragoff size ≠ 0 then none
  else
    let cg := fs.dtog bno
    if fs.size ≤ bno then some st
    else if error then some st
    else
      let cgp := st.cg cg
      if cgp.magic = false then some st
      else
        let bno := fs.dtogd bno
        if size = fs.bsize then
          if isblock fs.frag cgp.blksfree (fs.fragstoblks bno) then none
          else
            let cgp := { cgp with
              blksfree := setblock fs.frag cgp.blksfree (fs.fragstoblks bno)
              cs := cgp.cs.add 1 0 }
            some ⟨st.sum.add cg 1 0, update st.cg cg (cgp.addBlock fs bno 1)⟩
        else
          let bbase := bno - fs.fragnum bno
          let frsum := fragacct fs.frag (blkmap fs.frag cgp.blksfree bbase) cgp.frsum (-1)
          let frags := fs.numfrags size
          (freebits cgp.blksfree bno frags).map fun map =>
            let cgp := { cgp with
              blksfree := map
              cs := cgp.cs.add 0 frags
              frsum := fragacct fs.frag (blkmap fs.frag map bbase) frsum 1 }
            let sum := st.sum.add cg 0 frags
            if isblock fs.frag map (fs.fragstoblks bbase) then
              -- a complete block has been reassembled
              let cgp := { cgp with cs := cgp.cs.add 1 (-fs.frag) }
              ⟨sum.add cg 1 (-fs.frag), update st.cg cg (cgp.addBlock fs bbase 1)⟩
            else ⟨sum, update st.cg cg cgp⟩

end Bsd386.Ufs.Alloc
