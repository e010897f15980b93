import Bsd386.Msdosfs.Cache

/-!
# Truncation, and the FAT cache over runs
-/

namespace Bsd386.Msdosfs

open List Lib

/-! ## The cache under a truncation -/

section cache

variable {m : Volume} {d : Disk} {dep : Denode} {cl : List ℕ}

theorem Fatcache.purge_cases (frcn : ℕ) (fc : Fatcache) :
    (fc.purge frcn).frcn = fceEmpty ∨ fc.purge frcn = fc := by
  unfold Fatcache.purge
  split
  · exact .inl rfl
  · exact .inr rfl

theorem CacheInv.purge (h : CacheInv cl dep) (frcn : ℕ) : CacheInv cl (fcPurge dep frcn) := by
  unfold fcPurge
  constructor
  · intro hne
    rcases Fatcache.purge_cases frcn dep.lastmap with hempty | hsame
    · exact absurd hempty hne
    · dsimp only at hne ⊢
      rw [hsame] at hne ⊢
      exact h.lastmap hne
  · intro hne
    rcases Fatcache.purge_cases frcn dep.lastfc with hempty | hsame
    · exact absurd hempty hne
    · dsimp only at hne ⊢
      rw [hsame] at hne ⊢
      exact h.lastfc hne

theorem Fatcache.purge_zero (fc : Fatcache) : (fc.purge 0).frcn = fceEmpty := by
  unfold Fatcache.purge
  split
  · rfl
  · next h => exact not_not.mp fun hne => h ⟨hne, Nat.zero_le _⟩

theorem flushAll_spec (h : FileChain m.toBpb d dep.startCluster.toNat cl) (hcache : CacheInv cl dep)
    (prevcn last : ℕ) (flush : List ℕ)
    (hmap : dep.lastmap.frcn ≠ fceEmpty → dep.lastmap.frcn.toNat ≤ last)
    (hflush : ∀ n, (flush.filter
      (hasCluster m.toBpb d dep.startCluster.toNat)).getLast? = some n → n ≤ last) :
    (flushAll m.toBpb d prevcn dep flush).startCluster = dep.startCluster ∧
      CacheInv cl (flushAll m.toBpb d prevcn dep flush) ∧
      ((flushAll m.toBpb d prevcn dep flush).lastmap.frcn ≠ fceEmpty →
        (flushAll m.toBpb d prevcn dep flush).lastmap.frcn.toNat ≤ last) := by
  -- the condition on the last block is not one on those before
  suffices hall : (flushAll m.toBpb d prevcn dep flush).startCluster = dep.startCluster ∧
      CacheInv cl (flushAll m.toBpb d prevcn dep flush) ∧
      ((flushAll m.toBpb d prevcn dep flush).lastmap = dep.lastmap ∨
        ∃ n c, (flush.filter (hasCluster m.toBpb d dep.startCluster.toNat)).getLast? = some n ∧
            cl[n]? = some c ∧ (flushAll m.toBpb d prevcn dep flush).lastmap = fcEntry n c) by
    obtain ⟨hstart, hinv, hcases⟩ := hall
    refine ⟨hstart, hinv, fun hne => ?_⟩
    rcases hcases with hsame | ⟨n, c, hlast, hn, heq⟩
    · rw [hsame] at hne ⊢
      exact hmap hne
    · rw [heq, (fcEntry_toNat (h.fits hn).1 (h.fits hn).2).1]
      exact hflush n hlast
  clear hflush hmap
  induction flush using reverseRecOn with
  | nil => exact ⟨rfl, hcache, .inl rfl⟩
  | append_singleton flush n ih =>
    obtain ⟨hstart, hinv, hcases⟩ := ih
    have hstep : flushAll m.toBpb d prevcn dep (flush ++ [n]) =
        (pcbmap m.toBpb d prevcn (flushAll m.toBpb d prevcn dep flush) n).2 := by
      unfold flushAll
      rw [foldl_append]
      rfl
    have hchain : FileChain m.toBpb d
        (flushAll m.toBpb d prevcn dep flush).startCluster.toNat cl := hstart.symm ▸ h
    have hspec := pcbmap_spec hchain hinv prevcn n
    have hinv' := pcbmap_cache hchain hinv prevcn n
    rw [hstep, filter_append]
    cases hs : cl[n]? with
    | some c =>
      have hin : hasCluster m.toBpb d dep.startCluster.toNat n = true := by
        rw [hasCluster, h.clusterAt_eq, hs]
        rfl
      rw [hs] at hspec
      rw [hspec] at hinv' ⊢
      refine ⟨hstart, hinv', .inr ⟨n, c, ?_, hs, rfl⟩⟩
      rw [filter_cons_of_pos hin, filter_nil, getLast?_concat]
    | none =>
      have hout : ¬hasCluster m.toBpb d dep.startCluster.toNat n = true := by
        rw [hasCluster, h.clusterAt_eq, hs]
        exact Bool.false_ne_true
      rw [hs] at hspec
      obtain ⟨p, -, heq⟩ := hspec
      rw [heq] at hinv' ⊢
      refine ⟨hstart, hinv', ?_⟩
      rw [filter_cons_of_neg hout, filter_nil, append_nil]
      exact hcases

theorem flushAll_of_zero (hzero : dep.startCluster = 0) (prevcn : ℕ) (flush : List ℕ) :
    flushAll m.toBpb d prevcn dep flush = dep := by
  unfold flushAll
  induction flush with
  | nil => rfl
  | cons n flush ih =>
    have hsame : (pcbmap m.toBpb d prevcn dep n).2 = dep := by
      unfold pcbmap
      rw [if_pos hzero]
    rw [foldl_cons, hsame]
    exact ih

end cache

/-! ## The chain under a truncation -/

section chain

variable {m : Volume} {pm : Msdosfsmount} {dep : Denode} {cl : List ℕ}

theorem freeRest_spec (pm : Msdosfsmount) {cn : ℕ} {rest : List ℕ} (h : rest = [] ∧ msdosfsEof cn = true ∨
    FileChain m.toBpb pm.disk cn rest) :
    ∃ pm', freeRest m.toBpb pm cn = some pm' ∧ ∀ c, m.InVolume c → c ∉ rest →
      rawEntry m.toBpb pm'.disk c = rawEntry m.toBpb pm.disk c ∧ pm'.inUse c = pm.inUse c := by
  unfold freeRest
  rcases h with ⟨rfl, heof⟩ | hchain
  · rw [if_neg fun hand => by simp [heof] at hand]
    exact ⟨pm, rfl, fun _ _ _ => ⟨rfl, rfl⟩⟩
  have hin := hchain.head_inVolume
  have hpos := hin.1
  unfold clustFirst at hpos
  have hused := hchain.usedChain
  rw [if_pos ⟨by omega, msdosfsEof_of_inVolume hin⟩]
  obtain ⟨pm', heq, hframe, -⟩ := freeLoop_spec hused
    (Nat.lt_succ_of_le hused.length_le : rest.length < m.maxcluster + 2)
  exact ⟨pm', heq, hframe⟩

theorem fileInv_cut (h : FileChain m.toBpb pm.disk dep.startCluster.toNat cl)
    (hused : ∀ c ∈ cl, pm.inUse c = true) {last e : ℕ} (he : cl[last]? = some e)
    (hkeep : KeepsNext m.toBpb pm.disk dep.startCluster.toNat e) (hcache : CacheInv cl dep)
    (hmap : dep.lastmap.frcn ≠ fceEmpty → dep.lastmap.frcn.toNat ≤ last) (size : BitVec 32) :
    ∃ pm', freeRest m.toBpb { pm with disk := fatSet m.toBpb pm.disk e clustEofe }
        (entry m.toBpb pm.disk e).toNat = some pm' ∧
      FileInv m.toBpb pm' { dep with fileSize := size, lastfc := fcEntry last e }
        (cl.take (last + 1)) := by
  have hin := h.inVolume e (mem_of_getElem? he)
  obtain ⟨hlt, hget⟩ := List.getElem?_eq_some_iff.mp he
  have hdrop : cl.drop last = e :: cl.drop (last + 1) := by
    rw [List.drop_eq_getElem_cons hlt, hget]
  have hfrom := h.drop he
  rw [hdrop] at hfrom
  have hnodup := h.nodup
  have hcut : ∀ c ∈ cl.take last, c ≠ e ∧ c ∉ cl.drop (last + 1) := by
    intro c hc
    have hdisj := disjoint_take_drop hnodup (le_refl last) hc
    rw [hdrop, mem_cons] at hdisj
    exact not_or.mp hdisj
  have hkept : ∀ c ∈ cl, c ≠ e →
      rawEntry m.toBpb (fatSet m.toBpb pm.disk e clustEofe) c = rawEntry m.toBpb pm.disk c :=
    fun c hc hne => h.rawEntry_fatSet_eofe hin hkeep hc hne
  have hrest : cl.drop (last + 1) = [] ∧ msdosfsEof (entry m.toBpb pm.disk e).toNat = true ∨
      FileChain m.toBpb (fatSet m.toBpb pm.disk e clustEofe) (entry m.toBpb pm.disk e).toNat
        (cl.drop (last + 1)) := by
    generalize hr : cl.drop (last + 1) = rest at hfrom
    cases hfrom with
    | last _ heof => exact .inl ⟨rfl, heof⟩
    | step _ hnot htail =>
      refine .inr (htail.congr fun c hc => hkept c ?_ fun heq => hnot (heq ▸ hc))
      exact mem_of_mem_drop (hr ▸ hc)
  have hnotin : e ∉ cl.drop (last + 1) := by
    have hnd := hnodup.sublist (drop_sublist last cl)
    rw [hdrop] at hnd
    exact (nodup_cons.mp hnd).1
  obtain ⟨pm', heq, hframe⟩ := freeRest_spec { pm with disk := fatSet m.toBpb pm.disk e clustEofe } hrest
  refine ⟨pm', heq, .inr ?_, fun c hc => ?_, fun hne => ?_, fun _ => ?_⟩
  · refine h.take he (fun c hc => ?_) ?_
    · have hmem := mem_of_mem_take hc
      exact (hframe c (h.inVolume c hmem) (hcut c hc).2).1.trans (hkept c hmem (hcut c hc).1)
    · unfold entry
      rw [(hframe e hin hnotin).1]
      exact msdosfsEof_entry_eofe pm.disk hin
  · have hmem := mem_of_mem_take hc
    refine (hframe c (h.inVolume c hmem) ?_).2.trans (hused c hmem)
    exact disjoint_take_drop hnodup (le_refl (last + 1)) hc
  · have hold := hcache.lastmap hne
    rw [getElem?_take_of_lt (Nat.lt_succ_of_le (hmap hne))]
    exact hold
  · obtain ⟨hf, hs⟩ := fcEntry_toNat (h.fits he).1 (h.fits he).2
    rw [hf, hs, getElem?_take_of_lt (Nat.lt_succ_self last), length_take]
    exact ⟨he, by omega⟩

/-- **A file is truncated**: its chain is cut behind its new last cluster, or it has no clusters any
more, or nothing happens. -/
theorem detrunc_file (h : FileInv m.toBpb pm dep cl) (prevcn : ℕ) (flush : List ℕ)
    (length : BitVec 32)
    (hok : dep.startCluster ≠ 0 → ∀ e,
      clusterAt m.toBpb pm.disk dep.startCluster.toNat ((length.toNat - 1) >>> m.cnshift) = .ok e →
        KeepsNext m.toBpb pm.disk dep.startCluster.toNat e ∧
        ∀ n, (flush.filter (hasCluster m.toBpb pm.disk dep.startCluster.toNat)).getLast? = some n →
          n ≤ (length.toNat - 1) >>> m.cnshift) :
    ∃ err pm' dep' cl', detrunc m pm prevcn flush dep length = some (err, pm', dep') ∧
      FileInv m.toBpb pm' dep' cl' := by
  unfold detrunc
  dsimp only
  by_cases hroot : dep.vroot = true
  · rw [if_pos hroot]
    exact ⟨_, _, _, cl, rfl, h⟩
  rw [if_neg hroot]
  by_cases hsize : dep.fileSize.toNat ≤ length.toNat
  · rw [if_pos hsize]
    exact ⟨_, _, _, cl, rfl, h⟩
  rw [if_neg hsize]
  by_cases hzero : length = 0
  · -- all clusters are freed, and the cache is emptied
    rw [if_pos hzero]
    obtain ⟨pm', heq⟩ : ∃ pm', freeRest m.toBpb pm dep.startCluster.toNat = some pm' := by
      rcases h.chain with ⟨-, hstart⟩ | hchain
      · refine ⟨pm, ?_⟩
        unfold freeRest
        rw [hstart, if_neg fun hand => hand.1 rfl]
      · obtain ⟨pm', heq, -⟩ := freeRest_spec pm (.inr hchain)
        exact ⟨pm', heq⟩
    have hbeyond : ((length.toNat + (m.bpcluster - 1)) % 2 ^ 32) >>> m.cnshift = 0 := by
      have hlt : (length.toNat + (m.bpcluster - 1)) % 2 ^ 32 < 2 ^ m.cnshift := by
        have hpos := Nat.two_pow_pos m.cnshift
        have hnat : length.toNat = 0 := by
          rw [hzero]
          rfl
        rw [m.bpcluster_eq] at *
        omega
      rw [Nat.shiftRight_eq_div_pow]
      exact Nat.div_eq_of_lt hlt
    rw [heq, hbeyond]
    refine ⟨_, _, _, [], rfl, .inl ⟨rfl, rfl⟩, fun c hc => absurd hc not_mem_nil, ?_, ?_⟩
    · exact fun hne => absurd (Fatcache.purge_zero dep.lastmap) hne
    · exact fun hne => absurd (Fatcache.purge_zero dep.lastfc) hne
  rw [if_neg hzero]
  obtain ⟨last, hlast⟩ : ∃ last, (length.toNat - 1) >>> m.cnshift = last := ⟨_, rfl⟩
  obtain ⟨beyond, hbeyond⟩ :
      ∃ b, ((length.toNat + (m.bpcluster - 1)) % 2 ^ 32) >>> m.cnshift = b := ⟨_, rfl⟩
  rw [hlast] at hok ⊢
  rw [hbeyond]
  rcases h.chain with ⟨rfl, hstart⟩ | hchain
  · -- no clusters: there is nothing to cut
    have hmap : pcbmap m.toBpb pm.disk prevcn dep last = (rootmap m.toBpb dep.directory last, dep) := by
      unfold pcbmap
      rw [if_pos hstart]
    have hroot : ∀ bn e, rootmap m.toBpb dep.directory last = .block bn e → e = 0 := by
      intro bn e heq
      unfold rootmap at heq
      split at heq
      · split at heq
        · cases heq
        · exact (Pcbmap.block.inj heq).2.symm
      · cases heq
    have hpurged := h.cache.purge beyond
    rw [hmap]
    cases hres : rootmap m.toBpb dep.directory last with
    | e2big k => exact ⟨_, _, _, [], rfl, h⟩
    | block bn e =>
      have hout : ¬m.InVolume e := by
        rw [hroot bn e hres]
        exact fun hin => absurd hin.1 (by decide)
      have hstart' : (fcPurge dep beyond).startCluster = 0 := hstart
      have hflush : flushAll m.toBpb pm.disk prevcn (fcPurge dep beyond) flush =
          fcPurge dep beyond := flushAll_of_zero hstart' prevcn flush
      dsimp only
      rw [fatentry_einval m _ hout, hflush]
      exact ⟨_, _, _, [], rfl, .inl ⟨rfl, hstart⟩, h.used, hpurged.lastmap, hpurged.lastfc⟩
  · have hspec := pcbmap_spec hchain h.cache prevcn last
    have hcache := pcbmap_cache hchain h.cache prevcn last
    cases hs : cl[last]? with
    | none =>
      rw [hs] at hspec
      obtain ⟨p, -, heq⟩ := hspec
      rw [heq] at hcache ⊢
      exact ⟨_, _, _, cl, rfl, .inr hchain, h.used, hcache⟩
    | some e =>
      obtain ⟨hkeep, hflush⟩ := hok hchain.startCluster_ne e (by rw [hchain.clusterAt_eq, hs])
      rw [hs] at hspec
      rw [hspec] at hcache ⊢
      dsimp only at hcache ⊢
      have hin := hchain.inVolume e (mem_of_getElem? hs)
      rw [fatentry_sets m pm.disk (rfl : FatFunction.getAndSet.sets = true) hin]
      -- the cache, after the purge and what is written back
      obtain ⟨dep1, hdep1⟩ :
          ∃ dep1, fcPurge { dep with lastmap := fcEntry last e } beyond = dep1 := ⟨_, rfl⟩
      have hstart1 : dep1.startCluster = dep.startCluster := by
        rw [← hdep1]
        rfl
      have hcache1 : CacheInv cl dep1 := hdep1 ▸ hcache.purge beyond
      have hmap1 : dep1.lastmap.frcn ≠ fceEmpty → dep1.lastmap.frcn.toNat ≤ last := by
        intro hne
        rw [← hdep1] at hne ⊢
        rcases Fatcache.purge_cases beyond (fcEntry last e) with hempty | hsame
        · exact absurd hempty hne
        · refine le_of_eq ((congrArg (fun fc => fc.frcn.toNat) hsame).trans ?_)
          exact (fcEntry_toNat (hchain.fits hs).1 (hchain.fits hs).2).1
      rw [hdep1]
      obtain ⟨hstart2, hcache2, hmap2⟩ := flushAll_spec (hstart1.symm ▸ hchain) hcache1 prevcn last
        flush hmap1 (hstart1.symm ▸ hflush)
      obtain ⟨dep2, hdep2⟩ : ∃ dep2, flushAll m.toBpb pm.disk prevcn dep1 flush = dep2 := ⟨_, rfl⟩
      rw [hdep2] at hstart2 hcache2 hmap2 ⊢
      have hsame := hstart2.trans hstart1
      obtain ⟨pm', heq, hinv⟩ := fileInv_cut (hsame.symm ▸ hchain) h.used hs (hsame.symm ▸ hkeep)
        hcache2 hmap2 length
      dsimp only
      rw [heq]
      exact ⟨_, _, _, _, rfl, hinv⟩

end chain

/-! ## Runs -/

/-- A volume and a file on it. -/
structure File where
  pm : Msdosfsmount
  dep : Denode

/-- A call on a file; its size is left for the callers to change. -/
inductive FileOp where
  | pcbmap (prevcn findcn : ℕ)
  | extendfile (prevcn : ℕ)
  | detrunc (prevcn : ℕ) (flush : List ℕ) (length : BitVec 32)
  | setFileSize (size : BitVec 32)

/-- The file after a call; `detrunc` returns. -/
def fileStep (m : Volume) (s : File) : FileOp → File
  | .pcbmap prevcn findcn => { s with dep := (pcbmap m.toBpb s.pm.disk prevcn s.dep findcn).2 }
  | .extendfile prevcn =>
    ⟨(extendfile m.toBpb s.pm prevcn s.dep).2.1, (extendfile m.toBpb s.pm prevcn s.dep).2.2⟩
  | .detrunc prevcn flush length =>
    match detrunc m s.pm prevcn flush s.dep length with
    | some (_, pm, dep) => ⟨pm, dep⟩
    | none => s
  | .setFileSize size => { s with dep := { s.dep with fileSize := size } }

/-- The calls that keep the cache right, on a file with clusters:

* when it is extended in a 12 bit FAT, the lowest free cluster is below 0xff0, and when this is even
  and the next cluster is one of the file, the low four bits of its entry are set;
* when it is truncated in a 12 bit FAT behind an even cluster and the next cluster is one of the
  file, the low four bits of its entry are set; and the last of its blocks that are read or written
  back meanwhile does not lie beyond the new end. -/
def FileOk (m : Volume) (s : File) : FileOp → Prop
  | .extendfile _ => s.dep.startCluster ≠ 0 → ∀ cn, freeCluster m.toBpb s.pm = some cn →
      KeepsNext m.toBpb s.pm.disk s.dep.startCluster.toNat cn ∧ (m.fat12 = true → cn < 0xff0)
  | .detrunc _ flush length => s.dep.startCluster ≠ 0 → ∀ e,
      clusterAt m.toBpb s.pm.disk s.dep.startCluster.toNat ((length.toNat - 1) >>> m.cnshift) =
          .ok e →
        KeepsNext m.toBpb s.pm.disk s.dep.startCluster.toNat e ∧
        ∀ n, (flush.filter
            (hasCluster m.toBpb s.pm.disk s.dep.startCluster.toNat)).getLast? = some n →
          n ≤ (length.toNat - 1) >>> m.cnshift
  | _ => True

/-- A file whose clusters form a chain and are marked in use, and whose cache is empty.
Source: deget -/
structure FileStart (m : Bpb) (s : File) : Prop where
  chain : s.dep.startCluster = 0 ∨ ∃ cl,
    FileChain m s.pm.disk s.dep.startCluster.toNat cl ∧ ∀ c ∈ cl, s.pm.inUse c = true
  lastmap : s.dep.lastmap.frcn = fceEmpty
  lastfc : s.dep.lastfc.frcn = fceEmpty

/-- The states of a file that calls reach, each call under `ok`. -/
def FileReach (m : Volume) (ok : File → FileOp → Prop) : File → Prop :=
  Transition.Reach (FileStart m.toBpb) fun s s' => ∃ op, ok s op ∧ s' = fileStep m s op

theorem fileStep_inv {m : Volume} {s : File} {cl : List ℕ} (h : FileInv m.toBpb s.pm s.dep cl)
    {op : FileOp} (hok : FileOk m s op) :
    ∃ cl', FileInv m.toBpb (fileStep m s op).pm (fileStep m s op).dep cl' := by
  cases op with
  | pcbmap prevcn findcn =>
    refine ⟨cl, ?_⟩
    rcases h.chain with ⟨-, hzero⟩ | hchain
    · have hsame : (pcbmap m.toBpb s.pm.disk prevcn s.dep findcn).2 = s.dep := by
        unfold pcbmap
        rw [if_pos hzero]
      unfold fileStep
      dsimp only
      rw [hsame]
      exact h
    · have hspec := pcbmap_spec hchain h.cache prevcn findcn
      refine ⟨.inr ?_, h.used, pcbmap_cache hchain h.cache prevcn findcn⟩
      unfold fileStep
      dsimp only
      cases hs : cl[findcn]? with
      | some c =>
        rw [hs] at hspec
        rw [hspec]
        exact hchain
      | none =>
        rw [hs] at hspec
        obtain ⟨p, -, heq⟩ := hspec
        rw [heq]
        exact hchain
  | extendfile prevcn => exact extendfile_file h prevcn hok
  | detrunc prevcn flush length =>
    obtain ⟨err, pm', dep', cl', heq, hinv⟩ := detrunc_file h prevcn flush length hok
    unfold fileStep
    dsimp only
    rw [heq]
    exact ⟨cl', hinv⟩
  | setFileSize size => exact ⟨cl, h.chain, h.used, h.cache.lastmap, h.cache.lastfc⟩

/-- **The FAT cache is transparent**: in every state of a file that is reached by calls which meet
`FileOk`, `pcbmap` returns what following the chain of the file from its start cluster gives.
Source: pcbmap. Kind: C -/
theorem transparent_of_reach {m : Volume} {s : File} (h : FileReach m (FileOk m) s) :
    Transparent m.toBpb s.pm.disk s.dep := by
  have hinv : ∃ cl, FileInv m.toBpb s.pm s.dep cl := by
    induction h with
    | start hs =>
      obtain ⟨hchain, hmap, hfc⟩ := hs
      rcases hchain with hzero | ⟨cl, hchain, hused⟩
      · exact ⟨[], .inl ⟨rfl, hzero⟩, fun c hc => absurd hc not_mem_nil,
          fun hne => absurd hmap hne, fun hne => absurd hfc hne⟩
      · exact ⟨cl, .inr hchain, hused, fun hne => absurd hmap hne, fun hne => absurd hfc hne⟩
    | step _ hstep ih =>
      obtain ⟨op, hok, rfl⟩ := hstep
      obtain ⟨cl, hcl⟩ := ih
      exact fileStep_inv hcl hok
  obtain ⟨cl, hcl⟩ := hinv
  exact hcl.transparent

def small : Volume where
  bytesPerSec := 512
  secPerClust := 1
  resSectors := 1
  fats := 2
  rootDirEnts := 16
  fatSecs := 1
  hugeSectors := 8
  cnshift := 9
  bpcluster_eq := by decide
  sector := dvd_maxbsize
  fatSecs_lt := one_lt_two_pow_16
  inside := by decide
  clusters := by decide
  fits := by decide

/-- A file with the clusters 3 and 5, on a volume where cluster 2 has the entry `x`. -/
def smallFile (x : BitVec 8) : File where
  pm := fillinusemap small.toBpb
    ⟨fun a => if a = 515 then x else if a = 516 then 0x50 else if a = 519 then 0xf0
      else if a = 520 then 0xff else 0, fun _ => 0, 0, 0⟩
  dep := ⟨false, false, 3, 1024, ⟨fceEmpty, 0⟩, ⟨fceEmpty, 0⟩⟩

theorem smallFile_start (x : BitVec 8) (h : x = 0 ∨ x = 1) :
    FileStart small.toBpb (smallFile x) := by
  rcases h with rfl | rfl
  · refine ⟨.inr ⟨[3, 5], .step (by decide) (by decide) (.last (by decide) (by decide)), ?_⟩, rfl, rfl⟩
    decide
  · refine ⟨.inr ⟨[3, 5], .step (by decide) (by decide) (.last (by decide) (by decide)), ?_⟩, rfl, rfl⟩
    decide

/-- Its second cluster is mapped. Source: pcbmap. Kind: C -/
theorem transparent_small :
    (fileStep small (smallFile 1) (.pcbmap 0 1)).dep.lastmap = ⟨1, 5⟩ ∧
      Transparent small.toBpb (fileStep small (smallFile 1) (.pcbmap 0 1)).pm.disk
        (fileStep small (smallFile 1) (.pcbmap 0 1)).dep :=
  ⟨by decide, transparent_of_reach
    (.step (.start (smallFile_start 1 (.inr rfl))) ⟨.pcbmap 0 1, trivial, rfl⟩)⟩

/-- Cluster 2 is free: the file is extended with it, which changes the entry of its cluster 3, and the
cache still has cluster 5 behind that.
Source: extendfile. Kind: C -/
theorem not_transparent_small :
    ∃ s, FileReach small (fun _ _ => True) s ∧ ¬Transparent small.toBpb s.pm.disk s.dep := by
  refine ⟨fileStep small (fileStep small (smallFile 0) (.pcbmap 0 1)) (.extendfile 0),
    .step (.step (.start (smallFile_start 0 (.inl rfl))) ⟨.pcbmap 0 1, trivial, rfl⟩)
      ⟨.extendfile 0, trivial, rfl⟩, fun h => ?_⟩
  have hone := h 0 1
  revert hone
  decide +kernel

end Bsd386.Msdosfs
