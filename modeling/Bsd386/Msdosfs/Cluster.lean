import Bsd386.Msdosfs.Fat

/-!
# Clusters of MS-DOS files

The rest of `msdosfs_fat.c`, and `detrunc`: the in-core map of clusters in use with its counter and
search hint, allocation and release of clusters, the per-file FAT cache, and the calls that follow,
extend and cut the chain of a file. Reads and writes of the device succeed.
-/

namespace Bsd386.Msdosfs

/-! ## The map of clusters in use -/

/-- The mount control block, as far as it changes, and the device.
Source: msdosfsmount.h struct msdosfsmount -/
structure Msdosfsmount where
  disk : Disk
  inusemap : ℕ → BitVec 8
  freeclustercount : BitVec 32
  lookhere : ℕ

def Msdosfsmount.inUse (pm : Msdosfsmount) (cn : ℕ) : Bool := (pm.inusemap (cn / 8)).getLsbD (cn % 8)

/-- `usemap_alloc`: this assumes that the lowest available cluster was allocated. -/
def usemapAlloc (pm : Msdosfsmount) (cn : ℕ) : Msdosfsmount :=
  { pm with
    inusemap := Function.update pm.inusemap (cn / 8) (pm.inusemap (cn / 8) ||| 1#8 <<< (cn % 8))
    freeclustercount := pm.freeclustercount - 1
    lookhere := cn + 1 }

/-- `usemap_free`. -/
def usemapFree (pm : Msdosfsmount) (cn : ℕ) : Msdosfsmount :=
  { pm with
    freeclustercount := pm.freeclustercount + 1
    inusemap :=
      Function.update pm.inusemap (cn / 8) (pm.inusemap (cn / 8) &&& ~~~(1#8 <<< (cn % 8)))
    lookhere := if pm.lookhere > cn then cn else pm.lookhere }

/-- `clusterfree`: what the entry held, and the volume after it. -/
def clusterfree (m : Bpb) (pm : Msdosfsmount) (cluster : ℕ) :
    Except Errno (BitVec 32 × Msdosfsmount) :=
  match fatentry .getAndSet m pm.disk cluster clustFree with
  | .error e => .error e
  | .ok (oldcn, disk) => .ok (oldcn, usemapFree { pm with disk := disk } cluster)

/-- The loops of `clusteralloc` over `n` bytes of the map, from byte `idx` on: the first cluster whose
bit is off.
Source: clusteralloc -/
def searchMap (map : ℕ → BitVec 8) : ℕ → ℕ → Option ℕ
  | 0, _ => none
  | n + 1, idx =>
    if map idx ≠ 0xff then
      match (List.range 8).find? fun bit => map idx &&& 1#8 <<< bit == 0 with
      | some bit => some (idx * 8 + bit)
      | none => searchMap map n (idx + 1)
    else searchMap map n (idx + 1)

/-- The cluster that `clusteralloc` takes. Source: clusteralloc -/
def freeCluster (m : Bpb) (pm : Msdosfsmount) : Option ℕ :=
  searchMap pm.inusemap (m.maxcluster / 8 + 1 - pm.lookhere / 8) (pm.lookhere / 8)

/-- Allocate a free cluster. Source: clusteralloc -/
def clusteralloc (m : Bpb) (pm : Msdosfsmount) (fillwith : BitVec 32) :
    Except Errno (ℕ × Msdosfsmount) :=
  match freeCluster m pm with
  | none => .error .enospc
  | some cn =>
    match fatentry .set m pm.disk cn fillwith with
    | .error e => .error e
    | .ok (_, disk) => .ok (cn, usemapAlloc { pm with disk := disk } cn)

/-- The loop of `freeclusterchain`, `none` when it is not finished after `fuel` turns.
Source: freeclusterchain -/
def freeLoop (m : Bpb) : ℕ → Msdosfsmount → ℕ → Option Msdosfsmount
  | 0, _, _ => none
  | fuel + 1, pm, startcluster =>
    if m.InVolume startcluster then
      match clusterfree m pm startcluster with
      | .error _ => some pm
      | .ok (nextcluster, pm) => freeLoop m fuel pm nextcluster.toNat
    else some pm

/-- Free a chain of clusters. Source: freeclusterchain -/
def freeclusterchain (m : Bpb) (pm : Msdosfsmount) (startcluster : ℕ) : Option Msdosfsmount :=
  freeLoop m (m.maxcluster + 2) pm startcluster

/-- The block of an entry: a new one is read at its beginning, and when there is none.
Source: fillinusemap -/
def fillBuf (m : Bpb) (d : Disk) (bp : Option Buf) (cn : ℕ) : Buf :=
  let blk := m.fatblock (m.fatofs cn)
  match bp with
  | some buf => if blk.2.2 = 0 then bread m d blk.1 blk.2.1 else buf
  | none => bread m d blk.1 blk.2.1

/-- The scan of `fillinusemap` over `n` entries, with the block that was read last.
Source: fillinusemap -/
def fillLoop (m : Bpb) : ℕ → ℕ → Option Buf → Msdosfsmount → Msdosfsmount
  | 0, _, _, pm => pm
  | n + 1, cn, bp, pm =>
    let buf := fillBuf m pm.disk bp cn
    let readcn := unpack m cn (getushort buf.addr (m.fatofs cn % m.fatblocksize))
    fillLoop m n (cn + 1) (some buf) (if readcn = 0 then usemapFree pm cn else pm)

/-- `fillinusemap`: for every free cluster found turn off its bit. -/
def fillinusemap (m : Bpb) (pm : Msdosfsmount) : Msdosfsmount :=
  fillLoop m (m.maxcluster + 1 - clustFirst) clustFirst none
    { pm with
      inusemap := fun i => if i < m.maxcluster / 8 + 1 then 0xff else pm.inusemap i
      freeclustercount := 0
      lookhere := m.maxcluster + 1 }

/-! ## Files -/

/-- An entry of the fat cache: a cluster of the file, and the cluster of the volume that holds it.
Source: denode.h struct fatcache -/
structure Fatcache where
  frcn : BitVec 16
  fsrcn : BitVec 16
deriving DecidableEq

/-- `FCE_EMPTY`. -/
def fceEmpty : BitVec 16 := 0xffff

/-- A denode: whether it is the root directory and whether it is a directory, its start cluster and
size, and the fat cache, for the last call to `pcbmap` and the last cluster in the file.
Source: denode.h struct denode -/
structure Denode where
  vroot : Bool
  directory : Bool
  startCluster : BitVec 16
  fileSize : BitVec 32
  lastmap : Fatcache
  lastfc : Fatcache
deriving DecidableEq

/-- What `fc_setcache` puts into a slot. -/
def fcEntry (frcn fsrcn : ℕ) : Fatcache := ⟨BitVec.ofNat 16 frcn, BitVec.ofNat 16 fsrcn⟩

/-- Find the closest entry in the fat cache to the cluster we are looking for.
Source: fc_lookup -/
def fcLookup (dep : Denode) (findcn : ℕ) : Option Fatcache :=
  [dep.lastmap, dep.lastfc].foldl (fun closest fc =>
    if fc.frcn ≠ fceEmpty ∧ fc.frcn.toNat ≤ findcn then
      match closest with
      | none => some fc
      | some c => if fc.frcn > c.frcn then some fc else some c
    else closest) none

/-- One entry under `fc_purge`. Source: fc_purge -/
def Fatcache.purge (frcn : ℕ) (fc : Fatcache) : Fatcache :=
  if fc.frcn ≠ fceEmpty ∧ frcn ≤ fc.frcn.toNat then { fc with frcn := fceEmpty } else fc

/-- Purge the fat cache of all entries relating to cluster `frcn` and beyond.
Source: fc_purge -/
def fcPurge (dep : Denode) (frcn : ℕ) : Denode :=
  { dep with lastmap := dep.lastmap.purge frcn, lastfc := dep.lastfc.purge frcn }

/-- `MSDOSFSEOF`. -/
def msdosfsEof (cn : ℕ) : Bool := cn &&& 0xfff8 == 0xfff8

/-- `cntobn`: map a cluster number into a block number. -/
def cntobn (m : Bpb) (cn : ℕ) : ℕ :=
  ((cn + 2 ^ 32 - clustFirst) * m.secPerClust + m.firstcluster) % 2 ^ 32

/-- The entry that follows a cluster, whether or not this is a cluster of the volume.
Source: pcbmap -/
def nextCluster (m : Bpb) (d : Disk) (cn : ℕ) : ℕ :=
  let blk := m.fatblock (m.fatofs cn)
  (mapReserved m (unpack m cn (getushort (bread m d blk.1 blk.2.1).addr blk.2.2))).toNat

/-- The loop of `pcbmap`, `n` turns from cluster `i` of the file on: where it stops, the cluster before,
and the cluster there. It stops early at the end of the chain.
Source: pcbmap -/
def mapLoop (m : Bpb) (d : Disk) : ℕ → ℕ → ℕ → ℕ → ℕ × ℕ × ℕ
  | 0, i, prevcn, cn => (i, prevcn, cn)
  | n + 1, i, prevcn, cn =>
    if msdosfsEof cn then (i, prevcn, cn) else mapLoop m d n (i + 1) cn (nextCluster m d cn)

/-- What `pcbmap` returns: block and cluster, or `E2BIG` and the number of clusters in the file.
Source: pcbmap -/
inductive Pcbmap where
  | block (bn cn : ℕ)
  | e2big (cn : ℕ)
deriving DecidableEq

/-- The branch of `pcbmap` for start cluster 0: the root directory, or just an empty file.
Source: pcbmap -/
def rootmap (m : Bpb) (directory : Bool) (findcn : ℕ) : Pcbmap :=
  if directory then
    if findcn * m.secPerClust % 2 ^ 32 > m.rootdirsize then .e2big (m.rootdirsize / m.secPerClust)
    else .block ((m.rootdirblk + findcn * m.secPerClust) % 2 ^ 32) 0
  else .e2big 0

/-- Rummage around in the fat cache, maybe we can avoid tromping thru every fat entry for the file: the
cluster of the file to start from, and the cluster there.
Source: pcbmap -/
def mapFrom (dep : Denode) (findcn : ℕ) : ℕ × ℕ :=
  match fcLookup dep findcn with
  | some fc => (fc.frcn.toNat, fc.fsrcn.toNat)
  | none => (0, dep.startCluster.toNat)

/-- Map the logical cluster number of a file into a block and a cluster. `prevcn` is what the variable
of this name holds before it is set.
Source: pcbmap -/
def pcbmap (m : Bpb) (d : Disk) (prevcn : ℕ) (dep : Denode) (findcn : ℕ) : Pcbmap × Denode :=
  if dep.startCluster = 0 then (rootmap m dep.directory findcn, dep)
  else
    let (i, cn) := mapFrom dep findcn
    let (i, prevcn, cn) := mapLoop m d (findcn - i) i prevcn cn
    if msdosfsEof cn then
      (.e2big i, { dep with lastfc := fcEntry (i + 2 ^ 32 - 1) prevcn })
    else (.block (cntobn m cn) cn, { dep with lastmap := fcEntry i cn })

/-- The file has clusters, but the last one is not in the cache.
Source: extendfile -/
def Denode.lfcempty (dep : Denode) : Bool := dep.lastfc.frcn == fceEmpty && dep.startCluster != 0

/-- If the last cluster of a file that is not empty is not in the cache, fill the cache entry by calling
`pcbmap`: we expect it to return `E2BIG`.
Source: extendfile -/
def fillLastfc (m : Bpb) (d : Disk) (prevcn : ℕ) (dep : Denode) : Pcbmap × Denode :=
  if dep.lfcempty then pcbmap m d prevcn dep 0xffff else (.e2big 0, dep)

/-- Allocate a new cluster and chain it onto the end of the file: the new cluster (none when it is
found that the chain does not end), the volume and the denode after it.
Source: extendfile -/
def extendfile (m : Bpb) (pm : Msdosfsmount) (prevcn : ℕ) (dep : Denode) :
    Except Errno (Option ℕ) × Msdosfsmount × Denode :=
  if dep.vroot then (.error .enospc, pm, dep)
  else
    match fillLastfc m pm.disk prevcn dep with
    | (.block _ _, dep) => (.ok none, pm, dep)
    | (.e2big _, dep) =>
      match clusteralloc m pm clustEofe with
      | .error e => (.error e, pm, dep)
      | .ok (cn, pm) =>
        if dep.startCluster = 0 then
          (.ok (some cn), pm,
            { dep with startCluster := BitVec.ofNat 16 cn, lastfc := fcEntry 0 cn })
        else
          match fatentry .set m pm.disk dep.lastfc.fsrcn.toNat (BitVec.ofNat 32 cn) with
          | .error e =>
            match clusterfree m pm cn with
            | .error _ => (.error e, pm, dep)
            | .ok (_, pm) => (.error e, pm, dep)
          | .ok (_, disk) =>
            (.ok (some cn), { pm with disk := disk },
              { dep with lastfc := fcEntry (dep.lastfc.frcn.toNat + 1) cn })

/-- The end of `detrunc`: free the clusters removed from the file.
Source: detrunc -/
def freeRest (m : Bpb) (pm : Msdosfsmount) (chaintofree : ℕ) : Option Msdosfsmount :=
  if chaintofree ≠ 0 ∧ msdosfsEof chaintofree = false then freeclusterchain m pm chaintofree
  else some pm

/-- Clusters of the file are read or written back, which maps each of them.
Source: msdosfs_strategy -/
def flushAll (m : Bpb) (d : Disk) (prevcn : ℕ) (dep : Denode) (flush : List ℕ) : Denode :=
  flush.foldl (fun dep n => (pcbmap m d prevcn dep n).2) dep

/-- Truncate the file to the length specified: the error, the volume and the denode after it; `none`
when the clusters are not freed in time. `flush` are the clusters that are read, to zero the tail of
the last one, and that `vinvalbuf` writes back, after the cache has been purged and before the chain
is broken.
Source: detrunc -/
def detrunc (m : Volume) (pm : Msdosfsmount) (prevcn : ℕ) (flush : List ℕ) (dep : Denode)
    (length : BitVec 32) : Option (Option Errno × Msdosfsmount × Denode) :=
  let beyond := ((length.toNat + (m.bpcluster - 1)) % 2 ^ 32) >>> m.cnshift
  if dep.vroot then some (some .einval, pm, dep)
  else if dep.fileSize.toNat ≤ length.toNat then some (none, pm, dep)
  else if length = 0 then
    let dep' := fcPurge { dep with startCluster := 0 } beyond
    (freeRest m.toBpb pm dep.startCluster.toNat).map fun pm =>
      (none, pm, { dep' with fileSize := length })
  else
    let last := (length.toNat - 1) >>> m.cnshift
    match pcbmap m.toBpb pm.disk prevcn dep last with
    | (.e2big _, dep) => some (some .e2big, pm, dep)
    | (.block _ eofentry, dep) =>
      let dep := flushAll m.toBpb pm.disk prevcn (fcPurge dep beyond) flush
      match fatentry .getAndSet m.toBpb pm.disk eofentry clustEofe with
      | .error e => some (some e, pm, { dep with fileSize := length })
      | .ok (chaintofree, disk) =>
        (freeRest m.toBpb { pm with disk := disk } chaintofree.toNat).map fun pm =>
          (none, pm, { dep with fileSize := length, lastfc := fcEntry last eofentry })

end Bsd386.Msdosfs
