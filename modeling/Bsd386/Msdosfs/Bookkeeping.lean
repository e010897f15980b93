import Bsd386.Lib.Transition
import Bsd386.Msdosfs.Usemap

/-!
# Free-cluster bookkeeping over runs

From `fillinusemap` on, over any calls of `clusteralloc`, `clusterfree`, `freeclusterchain` and
`extendfile`.
-/

namespace Bsd386.Msdosfs

open Lib List

/-! ## The scan of the FAT -/

section fill

variable (m : Volume)

theorem blockStart_succ {cn : ℕ} (hbo : m.fatofs (cn + 1) % m.fatblocksize ≠ 0) :
    m.blockStart (cn + 1) = m.blockStart cn := by
  have hpos := m.fatblocksize_pos
  unfold Volume.blockStart
  congr 1
  have hdiv := Nat.div_add_mod (m.fatofs (cn + 1)) m.fatblocksize
  obtain ⟨q, hq⟩ : ∃ q, m.fatofs (cn + 1) / m.fatblocksize = q := ⟨_, rfl⟩
  obtain ⟨r, hr⟩ : ∃ r, m.fatofs (cn + 1) % m.fatblocksize = r := ⟨_, rfl⟩
  rw [hq, hr] at hdiv
  rw [hr] at hbo
  have hrlt : r < m.fatblocksize := hr ▸ Nat.mod_lt _ hpos
  rw [hq]
  symm
  apply Nat.div_eq_of_lt_le
  · rw [Nat.mul_comm]
    unfold Bpb.fatofs at hdiv ⊢
    by_cases h12 : m.fat12 = true
    · have hsize : m.fatblocksize = 3 * m.bytesPerSec := by
        unfold Bpb.fatblocksize
        rw [if_pos h12]
      have hq3 : m.fatblocksize * q = 3 * (m.bytesPerSec * q) := by rw [hsize, Nat.mul_assoc]
      rw [if_pos h12] at hdiv ⊢
      omega
    · have hsize : m.fatblocksize = 8192 := by
        unfold Bpb.fatblocksize maxbsize
        rw [if_neg h12]
      have hq8 : m.fatblocksize * q = 8192 * q := by rw [hsize]
      rw [if_neg h12] at hdiv ⊢
      omega
  · rw [Nat.mul_comm, Nat.mul_succ]
    unfold Bpb.fatofs at hdiv ⊢
    split at hdiv
    · next h12 =>
        rw [if_pos h12]
        omega
    · next h12 =>
        rw [if_neg h12]
        omega

/-- The buffer holds the block of the entry before. -/
def HoldsBlock (d : Disk) (cn : ℕ) (bp : Option Buf) : Prop :=
  ∀ buf, bp = some buf → ∃ c, cn = c + 1 ∧ ∀ i, buf.addr i = d (m.fatAddr + m.blockStart c + i)

theorem fillBuf_addr {d : Disk} {cn : ℕ} (hcn : cn ≤ m.maxcluster) {bp : Option Buf}
    (hbp : HoldsBlock m d cn bp) (i : ℕ) :
    (fillBuf m.toBpb d bp cn).addr i = d (m.fatAddr + m.blockStart cn + i) := by
  have hread : (bread m.toBpb d (m.fatblock (m.fatofs cn)).1 (m.fatblock (m.fatofs cn)).2.1).addr i =
      d (m.fatAddr + m.blockStart cn + i) := by
    unfold bread
    rw [(m.fatblock_spec hcn).1]
  cases bp with
  | none => exact hread
  | some buf =>
    unfold fillBuf
    dsimp only
    split
    · exact hread
    next hbo =>
      obtain ⟨c, rfl, hc⟩ := hbp buf rfl
      rw [blockStart_succ m hbo]
      exact hc i

theorem fillLoop_inv {d : Disk} (n : ℕ) {cn : ℕ} {bp : Option Buf} {pm : Msdosfsmount}
    (hfirst : clustFirst ≤ cn) (hn : cn + n = m.maxcluster + 1) (hdisk : pm.disk = d)
    (hbp : HoldsBlock m d cn bp)
    (h : UsemapInv m.toBpb (fun c => cn ≤ c ∨ InFat m.toBpb d c) pm) :
    (fillLoop m.toBpb n cn bp pm).disk = d ∧
      UsemapInv m.toBpb (InFat m.toBpb d) (fillLoop m.toBpb n cn bp pm) := by
  induction n generalizing cn bp pm with
  | zero =>
    refine ⟨hdisk, h.of_iff pm.disk fun c hc => ?_⟩
    have hle := hc.2
    exact ⟨.inr, fun hor => hor.resolve_left (by omega)⟩
  | succ n ih =>
    have hle : cn ≤ m.maxcluster := by omega
    obtain ⟨hbn, hbo, -, -⟩ := m.fatblock_spec hle
    obtain ⟨buf, hbuf⟩ : ∃ buf, fillBuf m.toBpb pm.disk bp cn = buf := ⟨_, rfl⟩
    have haddr := fillBuf_addr m hle hbp
    rw [← hdisk, hbuf, hdisk] at haddr
    have hread : unpack m.toBpb cn (getushort buf.addr (m.fatofs cn % m.fatblocksize)) =
        rawEntry m.toBpb d cn := by
      unfold rawEntry getushort
      have hofs : m.blockStart cn + m.fatofs cn % m.fatblocksize = m.fatofs cn := hbo
      rw [haddr, haddr, Nat.add_assoc, Nat.add_assoc, ← Nat.add_assoc (m.blockStart cn), hofs,
        ← Nat.add_assoc]
    unfold fillLoop
    dsimp only
    rw [hbuf, hread]
    refine ih (by omega) (by omega) ?_ ?_ ?_
    · split
      · exact hdisk
      · exact hdisk
    · rintro buf' hbuf'
      obtain rfl := Option.some.inj hbuf'
      exact ⟨cn, rfl, haddr⟩
    · split
      · next hzero =>
          refine h.free pm.disk ⟨hfirst, hle⟩ (.inl le_rfl) fun c hc => ?_
          constructor
          · rintro (hlt | hin)
            · exact ⟨.inl (by omega), by omega⟩
            · exact ⟨.inr hin, fun heq => hin (heq ▸ hzero)⟩
          · rintro ⟨hlt | hin, hne⟩
            · exact .inl (by omega)
            · exact .inr hin
      · next hzero =>
          refine h.of_iff pm.disk fun c hc => ?_
          constructor
          · rintro (hlt | hin)
            · exact .inl (by omega)
            · exact .inr hin
          · rintro (hlt | hin)
            · by_cases heq : c = cn
              · rw [heq]
                exact .inr hzero
              · exact .inl (by omega)
            · exact .inr hin

theorem fillinusemap_inv (pm : Msdosfsmount) :
    (fillinusemap m.toBpb pm).disk = pm.disk ∧
      UsemapInv m.toBpb (InFat m.toBpb pm.disk) (fillinusemap m.toBpb pm) := by
  have hmax : 1 ≤ m.maxcluster := Nat.le_add_left 1 _
  have hon : ∀ c, c < (m.maxcluster / 8 + 1) * 8 → ({ pm with
      inusemap := fun i => if i < m.maxcluster / 8 + 1 then 0xff else pm.inusemap i
      freeclustercount := 0
      lookhere := m.maxcluster + 1 } : Msdosfsmount).inUse c = true := by
    intro c hc
    unfold Msdosfsmount.inUse
    dsimp only
    rw [if_pos (by omega)]
    have hlt : c % 8 < 8 := Nat.mod_lt _ (by decide)
    obtain ⟨i, hi⟩ : ∃ i, c % 8 = i := ⟨_, rfl⟩
    rw [hi] at hlt ⊢
    interval_cases i <;> rfl
  refine fillLoop_inv m _ (le_refl _) ?_ rfl (fun buf h => by cases h) ?_
  · unfold clustFirst
    omega
  · refine ⟨fun c hc => ?_, ?_, fun c hc _ => ?_, fun c hc _ => hon c hc⟩
    · have hle := hc.2
      exact iff_of_true (hon c (by omega)) (.inl hc.1)
    · have hempty : freeSet m.toBpb { pm with
          inusemap := fun i => if i < m.maxcluster / 8 + 1 then 0xff else pm.inusemap i
          freeclustercount := 0
          lookhere := m.maxcluster + 1 } = ∅ := by
        rw [Finset.eq_empty_iff_forall_notMem]
        intro c hc
        rw [mem_freeSet] at hc
        obtain ⟨hc, hoff⟩ := hc
        have hle := hc.2
        rw [hon c (by omega)] at hoff
        exact Bool.noConfusion hoff
      rw [hempty]
      rfl
    · have hle := hc.2
      exact hon c (by omega)

end fill

/-! ## Chains of clusters -/

theorem clusterfree_eq {m : Volume} {pm : Msdosfsmount} {cn : ℕ} (hcn : m.InVolume cn) :
    clusterfree m.toBpb pm cn = .ok (entry m.toBpb pm.disk cn,
      usemapFree { pm with disk := fatSet m.toBpb pm.disk cn clustFree } cn) := by
  unfold clusterfree
  rw [fatentry_sets m pm.disk (rfl : FatFunction.getAndSet.sets = true) hcn]

/-- The clusters that follow each other from a cluster on, up to one that is not of the volume: each is
in use, and none occurs twice. -/
inductive UsedChain (m : Bpb) (d : Disk) : ℕ → List ℕ → Prop where
  | stop {cn : ℕ} : ¬m.InVolume cn → UsedChain m d cn []
  | step {cn : ℕ} {cl : List ℕ} : m.InVolume cn → InFat m d cn → cn ∉ cl →
      UsedChain m d (entry m d cn).toNat cl → UsedChain m d cn (cn :: cl)

section chain

variable {m : Volume} {d d' : Disk} {cn : ℕ} {cl : List ℕ}

section

variable (h : UsedChain m.toBpb d cn cl)
include h

theorem UsedChain.inVolume : ∀ c ∈ cl, m.InVolume c := by
  induction h with
  | stop _ => exact fun c hc => absurd hc not_mem_nil
  | step hin _ _ _ ih =>
    intro c hc
    rcases mem_cons.mp hc with rfl | hc
    · exact hin
    · exact ih c hc

theorem UsedChain.nodup : cl.Nodup := by
  induction h with
  | stop _ => exact nodup_nil
  | step _ _ hnot _ ih => exact nodup_cons.mpr ⟨hnot, ih⟩

theorem UsedChain.length_le : cl.length ≤ m.maxcluster + 1 := by
  have hsub : cl ⊆ range (m.maxcluster + 1) := fun c hc =>
    mem_range.mpr (Nat.lt_succ_of_le (h.inVolume c hc).2)
  have hle := (subperm_of_subset h.nodup hsub).length_le
  rwa [length_range] at hle

theorem UsedChain.congr (hd : ∀ c ∈ cl, rawEntry m.toBpb d' c = rawEntry m.toBpb d c) :
    UsedChain m.toBpb d' cn cl := by
  induction h with
  | stop hout => exact .stop hout
  | step hin huse hnot _ ih =>
    have hhead := hd _ mem_cons_self
    refine .step hin ?_ hnot ?_
    · unfold InFat
      rw [hhead]
      exact huse
    · unfold entry
      rw [hhead]
      exact ih fun c hc => hd c (mem_cons_of_mem _ hc)

end

/-- **A chain is freed**: the loop ends, the books stay in order, and nothing happens to other
clusters. -/
theorem freeLoop_spec {pm : Msdosfsmount} (h : UsedChain m.toBpb pm.disk cn cl) {fuel : ℕ}
    (hfuel : cl.length < fuel) :
    ∃ pm', freeLoop m.toBpb fuel pm cn = some pm' ∧
      (∀ c, m.InVolume c → c ∉ cl →
        rawEntry m.toBpb pm'.disk c = rawEntry m.toBpb pm.disk c ∧ pm'.inUse c = pm.inUse c) ∧
      (UsemapInv m.toBpb (InFat m.toBpb pm.disk) pm →
        UsemapInv m.toBpb (InFat m.toBpb pm'.disk) pm') := by
  induction cl generalizing fuel pm cn with
  | nil =>
    obtain ⟨fuel, rfl⟩ : ∃ k, fuel = k + 1 := ⟨fuel - 1, by simp at hfuel; omega⟩
    cases h with
    | stop hout => exact ⟨pm, if_neg hout, fun _ _ _ => ⟨rfl, rfl⟩, id⟩
  | cons cn cl ih =>
    obtain ⟨fuel, rfl⟩ : ∃ k, fuel = k + 1 := ⟨fuel - 1, by simp at hfuel; omega⟩
    cases h with
    | step hin huse hnot hrest =>
      have hraw : ∀ c, m.InVolume c → rawEntry m.toBpb (fatSet m.toBpb pm.disk cn clustFree) c =
          if c = cn then 0 else rawEntry m.toBpb pm.disk c := fun c hc =>
        rawEntry_fatSet_free hin.2 hc.2
      have hrest' : UsedChain m.toBpb
          (usemapFree { pm with disk := fatSet m.toBpb pm.disk cn clustFree } cn).disk
          (entry m.toBpb pm.disk cn).toNat cl := by
        refine hrest.congr fun c hc => ?_
        have hne : c ≠ cn := fun heq => hnot (heq ▸ hc)
        exact (hraw c (hrest.inVolume c hc)).trans (if_neg hne)
      obtain ⟨pm', heq, hframe, hinv⟩ := ih hrest' (Nat.lt_of_succ_lt_succ hfuel)
      refine ⟨pm', ?_, fun c hc hmem => ?_, fun hpm => hinv ?_⟩
      · rw [freeLoop, if_pos hin, clusterfree_eq hin]
        exact heq
      · rw [mem_cons, not_or] at hmem
        obtain ⟨hdisk, hbit⟩ := hframe c hc hmem.2
        refine ⟨hdisk.trans ((hraw c hc).trans (if_neg hmem.1)), hbit.trans ?_⟩
        rw [inUse_usemapFree, decide_eq_false hmem.1, Bool.not_false, Bool.and_true]
        rfl
      · refine hpm.free _ hin huse fun c hc => ?_
        change rawEntry m.toBpb (fatSet m.toBpb pm.disk cn clustFree) c ≠ 0 ↔ _
        rw [hraw c hc]
        by_cases hcc : c = cn
        · simp [hcc]
        · simp [hcc, InFat]

/-- **`freeclusterchain` ends**, whatever is in the FAT: a cluster is not left a second time by its
entry. -/
theorem freeLoop_isSome (m : Volume) (fuel : ℕ) (pm : Msdosfsmount) (cn : ℕ)
    (hfuel : ((Finset.Icc clustFirst m.maxcluster).filter fun c =>
      rawEntry m.toBpb pm.disk c ≠ 0).card + 1 < fuel) :
    (freeLoop m.toBpb fuel pm cn).isSome := by
  induction fuel generalizing pm cn with
  | zero => exact absurd hfuel (Nat.not_lt_zero _)
  | succ fuel ih =>
    unfold freeLoop
    by_cases hin : m.InVolume cn
    · rw [if_pos hin, clusterfree_eq hin]
      dsimp only
      by_cases hzero : rawEntry m.toBpb pm.disk cn = 0
      · -- a free cluster: the next one is 0, which is not of the volume
        have hnext : entry m.toBpb pm.disk cn = 0 := by
          unfold entry mapReserved
          rw [hzero, if_neg fun h => absurd h.2 (by decide)]
        obtain ⟨k, rfl⟩ : ∃ k, fuel = k + 1 := ⟨fuel - 1, by omega⟩
        rw [hnext, freeLoop, if_neg (fun h => absurd h.1 (by decide))]
        rfl
      · apply ih
        refine Nat.lt_of_lt_of_le (Nat.succ_lt_succ (Finset.card_lt_card ?_))
          (Nat.le_of_lt_succ hfuel)
        refine Finset.ssubset_iff_subset_ne.mpr ⟨fun c hc => ?_, fun heq => ?_⟩
        · rw [Finset.mem_filter, Finset.mem_Icc] at hc ⊢
          refine ⟨hc.1, fun h => hc.2 ?_⟩
          refine (rawEntry_fatSet_free hin.2 hc.1.2).trans ?_
          rw [h, ite_self]
        · have hmem : cn ∈ (Finset.Icc clustFirst m.maxcluster).filter fun c =>
              rawEntry m.toBpb pm.disk c ≠ 0 := by
            rw [Finset.mem_filter, Finset.mem_Icc]
            exact ⟨hin, hzero⟩
          rw [← heq, Finset.mem_filter] at hmem
          exact hmem.2 ((rawEntry_fatSet_free hin.2 hin.2).trans (if_pos rfl))
    · rw [if_neg hin]
      rfl

/-- **A chain is freed in the end**, whatever the FAT holds, a cycle too: each entry becomes free only once.
Source: freeclusterchain. Kind: P -/
theorem freeclusterchain_isSome (m : Volume) (pm : Msdosfsmount) (cn : ℕ) :
    (freeclusterchain m.toBpb pm cn).isSome := by
  apply freeLoop_isSome
  have hcard := Finset.card_filter_le (Finset.Icc clustFirst m.maxcluster)
    fun c => rawEntry m.toBpb pm.disk c ≠ 0
  rw [Nat.card_Icc] at hcard
  unfold clustFirst at hcard ⊢
  omega

end chain

/-! ## Calls -/

/-- A call. A denode is any, with any contents of its fat cache. -/
inductive Op where
  | clusteralloc (fillwith : BitVec 32)
  | clusterfree (cn : ℕ)
  | freeclusterchain (startcluster : ℕ)
  | extendfile (prevcn : ℕ) (dep : Denode)

/-- The volume after a call; `freeclusterchain` returns, by `freeclusterchain_isSome`. -/
def step (m : Bpb) (pm : Msdosfsmount) : Op → Msdosfsmount
  | .clusteralloc fillwith =>
    match clusteralloc m pm fillwith with
    | .ok (_, pm') => pm'
    | .error _ => pm
  | .clusterfree cn =>
    match clusterfree m pm cn with
    | .ok (_, pm') => pm'
    | .error _ => pm
  | .freeclusterchain startcluster => (freeclusterchain m pm startcluster).getD pm
  | .extendfile prevcn dep => (extendfile m pm prevcn dep).2.1

/-- The calls that keep the books in order:

* the entry of an allocated cluster becomes non-zero, and in a 12 bit FAT `CLUST_EOFE` for an even
  cluster does not go into the entry of a free one;
* a cluster that is freed is in use, also when it is reached from the start of a chain;
* the last cluster of a file that is extended is in use. -/
def OpOk (m : Bpb) (pm : Msdosfsmount) : Op → Prop
  | .clusteralloc fillwith => ∀ cn, freeCluster m pm = some cn → AllocOk m pm.disk cn fillwith
  | .clusterfree cn => m.InVolume cn → InFat m pm.disk cn
  | .freeclusterchain startcluster => ∃ cl, UsedChain m pm.disk startcluster cl
  | .extendfile prevcn dep => dep.vroot = false → ∀ k dep',
      fillLastfc m pm.disk prevcn dep = (.e2big k, dep') → ∀ cn, freeCluster m pm = some cn →
        AllocOk m pm.disk cn clustEofe ∧
        (dep'.startCluster ≠ 0 → m.InVolume dep'.lastfc.fsrcn.toNat →
          InFat m pm.disk dep'.lastfc.fsrcn.toNat ∨ dep'.lastfc.fsrcn.toNat = cn)

section step

variable {m : Volume} {pm : Msdosfsmount} (h : UsemapInv m.toBpb (InFat m.toBpb pm.disk) pm)

include h

theorem alloc_inv {cn : ℕ} {fillwith : BitVec 32} (hcn : freeCluster m.toBpb pm = some cn)
    (hok : AllocOk m.toBpb pm.disk cn fillwith) :
    UsemapInv m.toBpb (InFat m.toBpb (fatSet m.toBpb pm.disk cn fillwith))
      (usemapAlloc { pm with disk := fatSet m.toBpb pm.disk cn fillwith } cn) :=
  h.alloc _ hcn fun _ hc => inFat_fatSet_iff hok (freeCluster_spec h hcn).1.2 hc.2

theorem free_inv {cn : ℕ} (hcn : m.InVolume cn) (huse : InFat m.toBpb pm.disk cn) :
    UsemapInv m.toBpb (InFat m.toBpb (fatSet m.toBpb pm.disk cn clustFree))
      (usemapFree { pm with disk := fatSet m.toBpb pm.disk cn clustFree } cn) := by
  refine h.free _ hcn huse fun c hc => ?_
  unfold InFat
  rw [rawEntry_fatSet_free hcn.2 hc.2]
  by_cases hcc : c = cn
  · simp [hcc]
  · simp [hcc]

theorem extendfile_inv {prevcn : ℕ} {dep : Denode}
    (hok : OpOk m.toBpb pm (.extendfile prevcn dep)) :
    UsemapInv m.toBpb (InFat m.toBpb (extendfile m.toBpb pm prevcn dep).2.1.disk)
      (extendfile m.toBpb pm prevcn dep).2.1 := by
  unfold extendfile
  cases hroot : dep.vroot with
  | true => exact h
  | false =>
    rw [if_neg (by simp)]
    obtain ⟨r, hr⟩ : ∃ r, fillLastfc m.toBpb pm.disk prevcn dep = r := ⟨_, rfl⟩
    rw [hr]
    obtain ⟨res, dep'⟩ := r
    cases res with
    | block bn cn => exact h
    | e2big k =>
      rw [clusteralloc_eq h]
      cases hs : freeCluster m.toBpb pm with
      | none => exact h
      | some cn =>
        obtain ⟨halloc, hlast⟩ := hok hroot k dep' hr cn hs
        have hin := (freeCluster_spec h hs).1
        have h1 := alloc_inv h hs halloc
        have huse1 : ∀ c, m.InVolume c →
            (InFat m.toBpb (fatSet m.toBpb pm.disk cn clustEofe) c ↔
              InFat m.toBpb pm.disk c ∨ c = cn) :=
          fun c hc => inFat_fatSet_iff halloc hin.2 hc.2
        obtain ⟨pm1, hpm1, hdisk⟩ : ∃ pm1, usemapAlloc
            { pm with disk := fatSet m.toBpb pm.disk cn clustEofe } cn = pm1 ∧
              fatSet m.toBpb pm.disk cn clustEofe = pm1.disk := ⟨_, rfl, rfl⟩
        rw [hpm1, hdisk] at h1
        rw [hdisk] at huse1
        dsimp only
        rw [hpm1]
        by_cases hstart : dep'.startCluster = 0
        · rw [if_pos hstart]
          exact h1
        rw [if_neg hstart]
        obtain ⟨L, hL⟩ : ∃ L, dep'.lastfc.fsrcn.toNat = L := ⟨_, rfl⟩
        have huse := hlast hstart
        rw [hL] at huse ⊢
        by_cases hLin : m.InVolume L
        · rw [fatentry_sets m _ (rfl : FatFunction.set.sets = true) hLin]
          refine h1.of_iff _ fun c hc => ?_
          refine (inFat_fatSet_iff (allocOk_cluster hin) hLin.2 hc.2).trans ?_
          refine ⟨fun hor => hor.elim id ?_, .inl⟩
          rintro rfl
          exact (huse1 _ hLin).mpr (huse hLin)
        · rw [fatentry_einval m _ hLin]
          rw [clusterfree_eq hin]
          exact free_inv h1 hin ((huse1 cn hin).mpr (.inr rfl))

theorem step_inv {op : Op} (hok : OpOk m.toBpb pm op) :
    UsemapInv m.toBpb (InFat m.toBpb (step m.toBpb pm op).disk) (step m.toBpb pm op) := by
  cases op with
  | clusteralloc fillwith =>
    unfold step
    dsimp only
    rw [clusteralloc_eq h]
    cases hs : freeCluster m.toBpb pm with
    | none => exact h
    | some cn => exact alloc_inv h hs (hok cn hs)
  | clusterfree cn =>
    unfold step
    dsimp only
    by_cases hcn : m.InVolume cn
    · rw [clusterfree_eq hcn]
      exact free_inv h hcn (hok hcn)
    · unfold clusterfree
      rw [fatentry_einval m _ hcn]
      exact h
  | freeclusterchain startcluster =>
    obtain ⟨cl, hcl⟩ := hok
    obtain ⟨pm', heq, -, hinv⟩ := freeLoop_spec hcl
      (Nat.lt_succ_of_le hcl.length_le : cl.length < m.maxcluster + 2)
    unfold step freeclusterchain
    dsimp only
    rw [heq]
    exact hinv h
  | extendfile prevcn dep => exact extendfile_inv h hok

end step

/-! ## Runs -/

/-- The states that calls reach from `fillinusemap`, each call under `ok`. -/
def BooksReach (m : Bpb) (ok : Msdosfsmount → Op → Prop) : Msdosfsmount → Prop :=
  Transition.Reach (fun pm => ∃ pm₀, pm = fillinusemap m pm₀)
    fun pm pm' => ∃ op, ok pm op ∧ pm' = step m pm op

/-- **Free-cluster bookkeeping**: from `fillinusemap` on any FAT, in every state that calls reach which
meet `OpOk`, the books are in order. Kind: C -/
theorem bookkept_of_reach {m : Volume} {pm : Msdosfsmount}
    (h : BooksReach m.toBpb (OpOk m.toBpb) pm) : Bookkept m.toBpb pm := by
  have hinv : UsemapInv m.toBpb (InFat m.toBpb pm.disk) pm := by
    induction h with
    | start hstart =>
      obtain ⟨pm0, rfl⟩ := hstart
      obtain ⟨hdisk, hinv⟩ := fillinusemap_inv m pm0
      rw [hdisk]
      exact hinv
    | step _ hstep ih =>
      obtain ⟨op, hok, rfl⟩ := hstep
      exact step_inv ih hok
  exact hinv.bookkept

def tiny : Volume where
  bytesPerSec := 512
  secPerClust := 1
  resSectors := 1
  fats := 2
  rootDirEnts := 16
  fatSecs := 1
  hugeSectors := 6
  cnshift := 9
  bpcluster_eq := by decide
  sector := dvd_maxbsize
  fatSecs_lt := one_lt_two_pow_16
  inside := by decide
  clusters := by decide
  fits := by decide

/-- It is mounted, with one byte of its FAT set. -/
def tinyMount (x : ℕ) : Msdosfsmount :=
  fillinusemap tiny.toBpb ⟨fun a => if a = x then 1 else 0, fun _ => 0, 0, 0⟩

/-- Cluster 2 is in use, and cluster 3 is allocated. Kind: C -/
theorem bookkept_alloc_odd :
    ∃ pm, freeCluster tiny.toBpb (tinyMount 515) = some 3 ∧
      pm = step tiny.toBpb (tinyMount 515) (.clusteralloc clustEofe) ∧ Bookkept tiny.toBpb pm := by
  have hfree : freeCluster tiny.toBpb (tinyMount 515) = some 3 := by decide
  refine ⟨_, hfree, rfl, bookkept_of_reach ?_⟩
  refine .step (.start ⟨_, rfl⟩) ⟨.clusteralloc clustEofe, fun cn hcn => ?_, rfl⟩
  change freeCluster tiny.toBpb (tinyMount 515) = some cn at hcn
  rw [hfree] at hcn
  obtain rfl := Option.some.inj hcn
  exact ⟨by decide, fun _ hodd => absurd hodd (by decide)⟩

/-- Cluster 2 of an empty FAT is allocated: the entry of cluster 3 is no longer zero, and its bit is
off.
Source: clusteralloc. Kind: C -/
theorem not_bookkept_alloc_even :
    ∃ pm, BooksReach tiny.toBpb (fun _ _ => True) pm ∧ ¬Bookkept tiny.toBpb pm := by
  refine ⟨step tiny.toBpb (tinyMount 0) (.clusteralloc clustEofe),
    .step (.start ⟨_, rfl⟩) ⟨.clusteralloc clustEofe, trivial, rfl⟩, fun h => ?_⟩
  have hbit := (h.bits 3 (by decide)).mpr (by decide)
  revert hbit
  decide

end Bsd386.Msdosfs
