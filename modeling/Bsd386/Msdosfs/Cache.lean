import Bsd386.Msdosfs.Bookkeeping

/-!
# The FAT cache

`pcbmap` starts from the entry of the fat cache that is closest to what it looks for. Here: it returns
what following the chain from the start cluster gives, whatever calls of `pcbmap` and `extendfile`
have left in the cache.
-/

namespace Bsd386.Msdosfs

open List Lib Option
open BitVec (ofNat toNat toNat_ofNat)

/-! ## Following the chain -/

/-- Follow the chain from cluster `cn` on: the `n`th cluster, or the number of clusters when the chain
ends before.
Source: none: what is claimed -/
def clusterAt (m : Bpb) (d : Disk) : ℕ → ℕ → Except ℕ ℕ
  | cn, 0 => if msdosfsEof cn then .error 0 else .ok cn
  | cn, n + 1 =>
    if msdosfsEof cn then .error 0
    else (clusterAt m d (nextCluster m d cn) n).mapError (· + 1)

/-- The chain has an `n`th cluster. Source: none: what is claimed -/
def hasCluster (m : Bpb) (d : Disk) (cn n : ℕ) : Bool := (clusterAt m d cn n).isOk

/-- What `pcbmap` should return. Source: none: what is claimed -/
def chainMap (m : Bpb) (d : Disk) (dep : Denode) (n : ℕ) : Pcbmap :=
  if dep.startCluster = 0 then rootmap m dep.directory n
  else
    match clusterAt m d dep.startCluster.toNat n with
    | .ok cn => .block (cntobn m cn) cn
    | .error k => .e2big k

/-- The fat cache is transparent. Source: none: what is claimed -/
def Transparent (m : Bpb) (d : Disk) (dep : Denode) : Prop :=
  ∀ prevcn n, (pcbmap m d prevcn dep n).1 = chainMap m d dep n

/-! ## Chains of files -/

/-- The clusters of a file, from its start cluster to the one with the end of file mark; none occurs
twice. -/
inductive FileChain (m : Bpb) (d : Disk) : ℕ → List ℕ → Prop where
  | last {cn : ℕ} : m.InVolume cn → msdosfsEof (entry m d cn).toNat = true → FileChain m d cn [cn]
  | step {cn : ℕ} {cl : List ℕ} : m.InVolume cn → cn ∉ cl →
      FileChain m d (entry m d cn).toNat cl → FileChain m d cn (cn :: cl)

section chain

variable {m : Volume} {d d' : Disk} {cn : ℕ} {cl : List ℕ}

theorem msdosfsEof_of_inVolume (hcn : m.InVolume cn) : msdosfsEof cn = false := by
  have hlt := m.clusters
  have hle := hcn.2
  unfold clustRsrvs at hlt
  unfold msdosfsEof
  rw [beq_eq_false_iff_ne]
  intro h
  have hand : cn &&& 0xfff8 ≤ cn := Nat.and_le_left
  omega

theorem nextCluster_eq (hcn : m.InVolume cn) :
    nextCluster m.toBpb d cn = (entry m.toBpb d cn).toNat := by
  unfold nextCluster entry rawEntry
  dsimp only
  rw [getushort_bread m d hcn.2]

section

variable (h : FileChain m.toBpb d cn cl)
include h

theorem FileChain.ne_nil : cl ≠ [] := by
  cases h with
  | last => exact cons_ne_nil _ _
  | step => exact cons_ne_nil _ _

theorem FileChain.inVolume : ∀ c ∈ cl, m.InVolume c := by
  induction h with
  | last hin _ =>
    intro c hc
    rw [mem_singleton.mp hc]
    exact hin
  | step hin _ _ ih =>
    intro c hc
    rcases mem_cons.mp hc with rfl | hc
    · exact hin
    · exact ih c hc

theorem FileChain.nodup : cl.Nodup := by
  induction h with
  | last => exact nodup_singleton _
  | step _ hnot _ ih => exact nodup_cons.mpr ⟨hnot, ih⟩

theorem FileChain.head : cl[0]? = some cn := by
  cases h with
  | last => rfl
  | step => rfl

theorem FileChain.head_inVolume : m.InVolume cn :=
  h.inVolume cn (mem_of_getElem? h.head)

theorem FileChain.length_le : cl.length ≤ m.maxcluster + 1 := by
  have hsub : cl ⊆ range (m.maxcluster + 1) := fun c hc =>
    mem_range.mpr (Nat.lt_succ_of_le (h.inVolume c hc).2)
  have hle := (subperm_of_subset h.nodup hsub).length_le
  rwa [length_range] at hle

theorem FileChain.drop {f c : ℕ} (hf : cl[f]? = some c) :
    FileChain m.toBpb d c (cl.drop f) := by
  induction h generalizing f with
  | last hin heof =>
    cases f with
    | zero =>
      obtain rfl := some.inj hf
      exact .last hin heof
    | succ f => simp at hf
  | step hin hnot hrest ih =>
    cases f with
    | zero =>
      obtain rfl := some.inj hf
      exact .step hin hnot hrest
    | succ f => exact ih hf

theorem FileChain.usedChain : UsedChain m.toBpb d cn cl := by
  have hzero : ∀ c, rawEntry m.toBpb d c = 0 → (entry m.toBpb d c).toNat = 0 := by
    intro c hc
    unfold entry mapReserved
    rw [hc, if_neg fun h => absurd h.2 (by decide)]
    rfl
  induction h with
  | last hin heof =>
    refine .step hin (fun hc => ?_) not_mem_nil (.stop fun hin' => ?_)
    · rw [hzero _ hc] at heof
      exact absurd heof (by decide)
    · rw [msdosfsEof_of_inVolume hin'] at heof
      exact Bool.noConfusion heof
  | step hin hnot hrest ih =>
    refine .step hin (fun hc => ?_) hnot ih
    have hnext := hrest.head_inVolume.1
    rw [hzero _ hc] at hnext
    exact absurd hnext (by decide)

theorem FileChain.congr (hd : ∀ c ∈ cl, rawEntry m.toBpb d' c = rawEntry m.toBpb d c) :
    FileChain m.toBpb d' cn cl := by
  induction h with
  | last hin heof =>
    refine .last hin ?_
    unfold entry
    rw [hd _ mem_cons_self]
    exact heof
  | step hin hnot _ ih =>
    refine .step hin hnot ?_
    unfold entry
    rw [hd _ mem_cons_self]
    exact ih fun c hc => hd c (mem_cons_of_mem _ hc)

theorem FileChain.take {f e : ℕ} (hf : cl[f]? = some e)
    (hd : ∀ c ∈ cl.take f, rawEntry m.toBpb d' c = rawEntry m.toBpb d c)
    (heof : msdosfsEof (entry m.toBpb d' e).toNat = true) :
    FileChain m.toBpb d' cn (cl.take (f + 1)) := by
  induction h generalizing f with
  | last hin _ =>
    cases f with
    | zero =>
      obtain rfl := some.inj hf
      exact .last hin heof
    | succ f => simp at hf
  | step hin hnot _ ih =>
    cases f with
    | zero =>
      obtain rfl := some.inj hf
      exact .last hin heof
    | succ f =>
      rw [take_succ_cons]
      refine .step hin (fun hmem => hnot (mem_of_mem_take hmem)) ?_
      unfold entry
      rw [hd _ (by rw [take_succ_cons]; exact mem_cons_self)]
      refine ih hf fun c hc => hd c ?_
      rw [take_succ_cons]
      exact mem_cons_of_mem _ hc

theorem FileChain.snoc {L new : ℕ} (hL : cl[cl.length - 1]? = some L)
    (hd : ∀ c ∈ cl, c ≠ L → rawEntry m.toBpb d' c = rawEntry m.toBpb d c)
    (hlink : (entry m.toBpb d' L).toNat = new) (hnew : new ∉ cl)
    (hend : FileChain m.toBpb d' new [new]) : FileChain m.toBpb d' cn (cl ++ [new]) := by
  induction h with
  | last hin _ =>
    obtain rfl := some.inj hL
    refine .step hin (fun hmem => hnew ?_) (hlink ▸ hend)
    rw [mem_singleton.mp hmem]
    exact mem_singleton_self _
  | @step cn cl hin hnot hrest ih =>
    have hpos : 0 < cl.length := length_pos_iff.mpr hrest.ne_nil
    have hL' : cl[cl.length - 1]? = some L := by
      obtain ⟨k, hk⟩ : ∃ k, cl.length = k + 1 := ⟨cl.length - 1, by omega⟩
      rw [length_cons, hk, Nat.add_sub_cancel, getElem?_cons_succ] at hL
      rw [hk, Nat.add_sub_cancel]
      exact hL
    have hne : cn ≠ L := fun heq => hnot (heq ▸ mem_of_getElem? hL')
    rw [cons_append]
    refine .step hin ?_ ?_
    · rw [mem_append, not_or]
      refine ⟨hnot, fun hmem => hnew ?_⟩
      rw [← mem_singleton.mp hmem]
      exact mem_cons_self
    · unfold entry
      rw [hd cn mem_cons_self hne]
      exact ih hL' (fun c hc => hd c (mem_cons_of_mem _ hc))
        fun hmem => hnew (mem_cons_of_mem _ hmem)

theorem FileChain.clusterAt_eq (n : ℕ) :
    clusterAt m.toBpb d cn n = match cl[n]? with
      | some c => .ok c
      | none => .error cl.length := by
  induction h generalizing n with
  | @last cn hin heof =>
    have hcn := msdosfsEof_of_inVolume hin
    cases n with
    | zero => simp [clusterAt, hcn]
    | succ n =>
      have hend : clusterAt m.toBpb d (nextCluster m.toBpb d cn) n = .error 0 := by
        rw [nextCluster_eq hin]
        cases n with
        | zero => simp [clusterAt, heof]
        | succ n => simp [clusterAt, heof]
      simp [clusterAt, hcn, hend, Except.mapError]
  | @step cn cl hin hnot hrest ih =>
    have hcn := msdosfsEof_of_inVolume hin
    cases n with
    | zero => simp [clusterAt, hcn]
    | succ n =>
      rw [clusterAt, hcn, if_neg (by simp), nextCluster_eq hin, ih n, getElem?_cons_succ]
      cases cl[n]? with
      | none => rfl
      | some c => rfl

theorem FileChain.mapLoop_eq (n i prevcn : ℕ) :
    match cl[n]? with
    | some c => ∃ p, mapLoop m.toBpb d n i prevcn cn = (i + n, p, c)
    | none => ∃ p e, mapLoop m.toBpb d n i prevcn cn = (i + cl.length, p, e) ∧
        msdosfsEof e = true ∧ cl[cl.length - 1]? = some p := by
  induction h generalizing n i prevcn with
  | @last cn hin heof =>
    have hcn := msdosfsEof_of_inVolume hin
    cases n with
    | zero => exact ⟨prevcn, rfl⟩
    | succ n =>
      refine ⟨cn, (entry m.toBpb d cn).toNat, ?_, heof, rfl⟩
      rw [mapLoop, hcn, if_neg (by simp), nextCluster_eq hin]
      cases n with
      | zero => rfl
      | succ n =>
        rw [mapLoop, if_pos heof]
        rfl
  | @step cn cl hin hnot hrest ih =>
    have hcn := msdosfsEof_of_inVolume hin
    cases n with
    | zero => exact ⟨prevcn, rfl⟩
    | succ n =>
      rw [mapLoop, hcn, if_neg (by simp), nextCluster_eq hin, getElem?_cons_succ]
      have hih := ih n (i + 1) cn
      cases hs : cl[n]? with
      | some c =>
        rw [hs] at hih
        obtain ⟨p, hp⟩ := hih
        exact ⟨p, by rw [hp]; congr 1; omega⟩
      | none =>
        rw [hs] at hih
        obtain ⟨p, e, hp, he, hlast⟩ := hih
        refine ⟨p, e, ?_, he, ?_⟩
        · rw [hp, length_cons]
          congr 1
          omega
        · have hpos : 0 < cl.length := length_pos_iff.mpr hrest.ne_nil
          obtain ⟨k, hk⟩ : ∃ k, cl.length = k + 1 := ⟨cl.length - 1, by omega⟩
          rw [length_cons, Nat.add_sub_cancel, hk, getElem?_cons_succ]
          rw [hk, Nat.add_sub_cancel] at hlast
          exact hlast

end

end chain

/-! ## The cache -/

/-- The pairs in the cache are those of the file; the second one is that of its last cluster. -/
structure CacheInv (cl : List ℕ) (dep : Denode) : Prop where
  lastmap : dep.lastmap.frcn ≠ fceEmpty →
    cl[dep.lastmap.frcn.toNat]? = some dep.lastmap.fsrcn.toNat
  lastfc : dep.lastfc.frcn ≠ fceEmpty →
    cl[dep.lastfc.frcn.toNat]? = some dep.lastfc.fsrcn.toNat ∧
      dep.lastfc.frcn.toNat + 1 = cl.length

theorem fcLookup_spec {dep : Denode} {n : ℕ} {fc : Fatcache} (h : fcLookup dep n = some fc) :
    (fc = dep.lastmap ∨ fc = dep.lastfc) ∧ fc.frcn ≠ fceEmpty ∧ fc.frcn.toNat ≤ n := by
  unfold fcLookup at h
  rw [foldl_cons, foldl_cons, foldl_nil] at h
  by_cases hmap : dep.lastmap.frcn ≠ fceEmpty ∧ dep.lastmap.frcn.toNat ≤ n
  · by_cases hfc : dep.lastfc.frcn ≠ fceEmpty ∧ dep.lastfc.frcn.toNat ≤ n
    · rw [if_pos hmap, if_pos hfc] at h
      dsimp only at h
      split at h
      · obtain rfl := some.inj h
        exact ⟨.inr rfl, hfc⟩
      · obtain rfl := some.inj h
        exact ⟨.inl rfl, hmap⟩
    · rw [if_pos hmap, if_neg hfc] at h
      obtain rfl := some.inj h
      exact ⟨.inl rfl, hmap⟩
  · by_cases hfc : dep.lastfc.frcn ≠ fceEmpty ∧ dep.lastfc.frcn.toNat ≤ n
    · rw [if_neg hmap, if_pos hfc] at h
      obtain rfl := some.inj h
      exact ⟨.inr rfl, hfc⟩
    · rw [if_neg hmap, if_neg hfc] at h
      exact absurd h (by simp)

theorem fcEntry_toNat {n c : ℕ} (hn : n < 2 ^ 16) (hc : c < 2 ^ 16) :
    (fcEntry n c).frcn.toNat = n ∧ (fcEntry n c).fsrcn.toNat = c := by
  unfold fcEntry
  rw [toNat_ofNat, toNat_ofNat, Nat.mod_eq_of_lt hn, Nat.mod_eq_of_lt hc]
  exact ⟨rfl, rfl⟩

section pcbmap

variable {m : Volume} {d : Disk} {dep : Denode} {cl : List ℕ}

theorem FileChain.startCluster_ne (h : FileChain m.toBpb d dep.startCluster.toNat cl) : dep.startCluster ≠ 0 := by
  intro hzero
  have hin := h.head_inVolume.1
  rw [hzero] at hin
  exact absurd hin (by decide)

theorem FileChain.fits {cn : ℕ} (h : FileChain m.toBpb d cn cl) {n c : ℕ} (hn : cl[n]? = some c) :
    n < 2 ^ 16 ∧ c < 2 ^ 16 := by
  have hlt := m.clusters
  have hlen := h.length_le
  have hc := (h.inVolume c (mem_of_getElem? hn)).2
  obtain ⟨hn', -⟩ := List.getElem?_eq_some_iff.mp hn
  unfold clustRsrvs at hlt
  omega

/-- **`pcbmap`** on a file whose cache is right: what it returns and what it puts into the cache. -/
theorem pcbmap_spec (h : FileChain m.toBpb d dep.startCluster.toNat cl) (hcache : CacheInv cl dep)
    (prevcn n : ℕ) :
    match cl[n]? with
    | some c => pcbmap m.toBpb d prevcn dep n =
        (.block (cntobn m.toBpb c) c, { dep with lastmap := fcEntry n c })
    | none => ∃ p, cl[cl.length - 1]? = some p ∧ pcbmap m.toBpb d prevcn dep n =
        (.e2big cl.length, { dep with lastfc := fcEntry (cl.length - 1) p }) := by
  -- the search starts at a cluster of the file
  obtain ⟨i, c0, hfrom, hle, hc0⟩ : ∃ i c0, mapFrom dep n = (i, c0) ∧ i ≤ n ∧
      cl[i]? = some c0 := by
    unfold mapFrom
    cases hlook : fcLookup dep n with
    | none => exact ⟨0, _, rfl, Nat.zero_le n, h.head⟩
    | some fc =>
      obtain ⟨hfc, hne, hle⟩ := fcLookup_spec hlook
      rcases hfc with rfl | rfl
      · exact ⟨_, _, rfl, hle, hcache.lastmap hne⟩
      · exact ⟨_, _, rfl, hle, (hcache.lastfc hne).1⟩
  have hrest := h.drop hc0
  have hloop := hrest.mapLoop_eq (n - i) i prevcn
  have hget : (cl.drop i)[n - i]? = cl[n]? := by
    rw [List.getElem?_drop]
    congr 1
    omega
  obtain ⟨hi, -⟩ := List.getElem?_eq_some_iff.mp hc0
  have hlen : i + (cl.drop i).length = cl.length := by
    rw [length_drop]
    omega
  rw [hget] at hloop
  unfold pcbmap
  rw [if_neg h.startCluster_ne, hfrom]
  dsimp only
  cases hs : cl[n]? with
  | some c =>
    rw [hs] at hloop
    obtain ⟨p, hp⟩ := hloop
    have hc := msdosfsEof_of_inVolume (h.inVolume c (mem_of_getElem? hs))
    have hin : i + (n - i) = n := by omega
    rw [hp]
    rw [hc, if_neg (by simp), hin]
  | none =>
    rw [hs] at hloop
    obtain ⟨p, e, hp, he, hlast⟩ := hloop
    refine ⟨p, ?_, ?_⟩
    · rw [getElem?_drop, length_drop] at hlast
      have hidx : i + (cl.length - i - 1) = cl.length - 1 := by omega
      rw [hidx] at hlast
      exact hlast
    · have hwrap : ofNat 16 (cl.length + 2 ^ 32 - 1) = ofNat 16 (cl.length - 1) := by
        apply BitVec.eq_of_toNat_eq
        rw [toNat_ofNat, toNat_ofNat]
        omega
      rw [hp]
      rw [he, if_pos rfl, hlen]
      unfold fcEntry
      rw [hwrap]

theorem pcbmap_cache (h : FileChain m.toBpb d dep.startCluster.toNat cl) (hcache : CacheInv cl dep)
    (prevcn n : ℕ) : CacheInv cl (pcbmap m.toBpb d prevcn dep n).2 := by
  have hspec := pcbmap_spec h hcache prevcn n
  cases hs : cl[n]? with
  | some c =>
    rw [hs] at hspec
    obtain ⟨hn, hc⟩ := h.fits hs
    obtain ⟨hfrcn, hfsrcn⟩ := fcEntry_toNat hn hc
    rw [hspec]
    refine ⟨fun _ => ?_, hcache.lastfc⟩
    rw [hfrcn, hfsrcn]
    exact hs
  | none =>
    rw [hs] at hspec
    obtain ⟨p, hp, heq⟩ := hspec
    obtain ⟨hn, hc⟩ := h.fits hp
    obtain ⟨hfrcn, hfsrcn⟩ := fcEntry_toNat hn hc
    have hpos : 0 < cl.length := length_pos_iff.mpr h.ne_nil
    rw [heq]
    refine ⟨hcache.lastmap, fun _ => ?_⟩
    rw [hfrcn, hfsrcn]
    exact ⟨hp, by omega⟩

end pcbmap

/-- The state of a file: its clusters form a chain and are marked in use, and its cache is right. -/
structure FileInv (m : Bpb) (pm : Msdosfsmount) (dep : Denode) (cl : List ℕ) : Prop where
  chain : cl = [] ∧ dep.startCluster = 0 ∨ FileChain m pm.disk dep.startCluster.toNat cl
  used : ∀ c ∈ cl, pm.inUse c = true
  cache : CacheInv cl dep

theorem FileInv.transparent {m : Volume} {pm : Msdosfsmount} {dep : Denode} {cl : List ℕ}
    (h : FileInv m.toBpb pm dep cl) : Transparent m.toBpb pm.disk dep := by
  intro prevcn n
  unfold chainMap
  rcases h.chain with ⟨-, hzero⟩ | hchain
  · unfold pcbmap
    rw [if_pos hzero, if_pos hzero]
  have hspec := pcbmap_spec hchain h.cache prevcn n
  rw [if_neg hchain.startCluster_ne, hchain.clusterAt_eq n]
  cases hs : cl[n]? with
  | some c =>
    rw [hs] at hspec
    rw [hspec]
  | none =>
    rw [hs] at hspec
    obtain ⟨p, -, heq⟩ := hspec
    rw [heq]

/-! ## Extension -/

/-- In a 12 bit FAT, `CLUST_EOFE` for an even cluster does not change the entry of the next one, if this
belongs to the file that starts at `start`. -/
def KeepsNext (m : Bpb) (d : Disk) (start cn : ℕ) : Prop :=
  m.fat12 = true → cn % 2 = 0 → (∃ n, clusterAt m d start n = .ok (cn + 1)) →
    rawEntry m d (cn + 1) ||| 0xf = rawEntry m d (cn + 1)

section writes

variable {m : Volume} {d : Disk} {start cn : ℕ} {cl : List ℕ}

theorem FileChain.exists_clusterAt (h : FileChain m.toBpb d start cl) {c : ℕ} (hc : c ∈ cl) :
    ∃ n, clusterAt m.toBpb d start n = .ok c := by
  obtain ⟨n, hn⟩ := mem_iff_getElem?.mp hc
  exact ⟨n, by rw [h.clusterAt_eq, hn]⟩

theorem FileChain.rawEntry_fatSet_eofe (h : FileChain m.toBpb d start cl) (hcn : m.InVolume cn)
    (hkeep : KeepsNext m.toBpb d start cn) {c : ℕ} (hc : c ∈ cl) (hne : c ≠ cn) :
    rawEntry m.toBpb (fatSet m.toBpb d cn clustEofe) c = rawEntry m.toBpb d c := by
  rw [rawEntry_fatSet m d hcn.2 (h.inVolume c hc).2, if_neg hne]
  split
  · next hslip =>
      obtain ⟨h12, heven, rfl⟩ := hslip
      exact hkeep h12 heven (h.exists_clusterAt hc)
  · rfl

theorem msdosfsEof_entry_eofe (d : Disk) (hcn : m.InVolume cn) :
    msdosfsEof (entry m.toBpb (fatSet m.toBpb d cn clustEofe) cn).toNat = true := by
  rw [entry_fatSet_self m d clustEofe hcn (.inr (.inl rfl))]
  unfold mapReserved
  split
  · decide
  · decide

theorem rawEntry_fatSet_cluster (d : Disk) {L c : ℕ} (hL : m.InVolume L) (hcn : m.InVolume cn)
    (hc : c ≤ m.maxcluster) (hne : c ≠ L) :
    rawEntry m.toBpb (fatSet m.toBpb d L (BitVec.ofNat 32 cn)) c = rawEntry m.toBpb d c := by
  rw [rawEntry_fatSet m d hL.2 hc, if_neg hne]
  split
  · next hslip =>
      have hlt := m.lt_of_fat12 hslip.1 hcn
      rw [shiftRight_of_lt (by rw [toNat_ofNat]; omega)]
      exact BitVec.or_zero
  · rfl

theorem entry_fatSet_cluster (d : Disk) {L : ℕ} (hL : m.InVolume L) (hcn : m.InVolume cn)
    (hlow : m.fat12 = true → cn < 0xff0) :
    (entry m.toBpb (fatSet m.toBpb d L (BitVec.ofNat 32 cn)) L).toNat = cn := by
  have hlt := m.clusters
  have hle := hcn.2
  unfold clustRsrvs at hlt
  have hnat : (ofNat 32 cn).toNat = cn := by
    rw [toNat_ofNat]
    exact Nat.mod_eq_of_lt (by omega)
  rw [entry_fatSet_self m d _ hL (.inr (.inr (hnat.symm ▸ hcn)))]
  unfold mapReserved
  rw [if_neg, hnat]
  rintro ⟨h12, hand⟩
  have hand' := congrArg toNat hand
  rw [BitVec.toNat_and, hnat] at hand'
  have hle' : cn &&& 0xff0 ≤ cn := Nat.and_le_left
  have hval : (0x0ff0 : BitVec 32).toNat = 0xff0 := rfl
  rw [hval] at hand'
  have hcn' := hlow h12
  omega

end writes

/-- **What `clusteralloc` can do**: it fails, or takes a cluster of the volume that is not in use. -/
theorem clusteralloc_cases (m : Volume) (pm : Msdosfsmount) (fillwith : BitVec 32) :
    (∃ e, clusteralloc m.toBpb pm fillwith = .error e) ∨
      ∃ cn pm1, freeCluster m.toBpb pm = some cn ∧ m.InVolume cn ∧ pm.inUse cn = false ∧
        clusteralloc m.toBpb pm fillwith = .ok (cn, pm1) ∧
        pm1.disk = fatSet m.toBpb pm.disk cn fillwith ∧
        ∀ c, pm1.inUse c = (pm.inUse c || decide (c = cn)) := by
  have hspec := searchMap_spec pm.inusemap (m.maxcluster / 8 + 1 - pm.lookhere / 8) (pm.lookhere / 8)
  unfold clusteralloc
  cases hs : freeCluster m.toBpb pm with
  | none => exact .inl ⟨_, rfl⟩
  | some cn =>
    unfold freeCluster at hs
    rw [hs] at hspec
    dsimp only
    by_cases hin : m.InVolume cn
    · rw [fatentry_sets m pm.disk (rfl : FatFunction.set.sets = true) hin]
      exact .inr ⟨cn, _, rfl, hin, hspec.2.2.1, rfl, rfl, fun c => inUse_usemapAlloc _ cn c⟩
    · rw [fatentry_einval m _ hin]
      exact .inl ⟨_, rfl⟩

section extend

variable {m : Volume} {pm : Msdosfsmount} {dep : Denode} {cl : List ℕ}

theorem fillLastfc_spec (h : FileChain m.toBpb pm.disk dep.startCluster.toNat cl)
    (hcache : CacheInv cl dep) (prevcn : ℕ) :
    ∃ k dep', fillLastfc m.toBpb pm.disk prevcn dep = (.e2big k, dep') ∧
      dep'.startCluster = dep.startCluster ∧ CacheInv cl dep' ∧ dep'.lastfc.frcn ≠ fceEmpty := by
  have hlt := m.clusters
  have hlen := h.length_le
  unfold clustRsrvs at hlt
  unfold fillLastfc Denode.lfcempty
  by_cases hempty : dep.lastfc.frcn = fceEmpty
  · have hcond : (dep.lastfc.frcn == fceEmpty && dep.startCluster != 0) = true := by
      rw [Bool.and_eq_true]
      exact ⟨beq_iff_eq.mpr hempty, bne_iff_ne.mpr h.startCluster_ne⟩
    rw [if_pos hcond]
    have hspec := pcbmap_spec h hcache prevcn 0xffff
    have hcache' := pcbmap_cache h hcache prevcn 0xffff
    have hnone : cl[0xffff]? = none := getElem?_eq_none (by omega)
    rw [hnone] at hspec
    obtain ⟨p, hp, heq⟩ := hspec
    rw [heq] at hcache' ⊢
    refine ⟨_, _, rfl, rfl, hcache', fun hfe => ?_⟩
    have hnat := congrArg toNat hfe
    rw [(fcEntry_toNat (h.fits hp).1 (h.fits hp).2).1] at hnat
    have hval : fceEmpty.toNat = 0xffff := rfl
    omega
  · rw [if_neg (by simp [hempty])]
    exact ⟨_, _, rfl, rfl, hcache, hempty⟩

theorem fileInv_first (hcache : CacheInv [] dep) {pm1 : Msdosfsmount} {cn : ℕ} (hin : m.InVolume cn)
    (hdisk : pm1.disk = fatSet m.toBpb pm.disk cn clustEofe) (hon : pm1.inUse cn = true) :
    FileInv m.toBpb pm1 { dep with startCluster := BitVec.ofNat 16 cn, lastfc := fcEntry 0 cn }
      [cn] := by
  have hlt := m.clusters
  have hle := hin.2
  unfold clustRsrvs at hlt
  have hnat : (ofNat 16 cn).toNat = cn := by
    rw [toNat_ofNat]
    exact Nat.mod_eq_of_lt (by omega)
  refine ⟨.inr ?_, fun c hc => ?_, ?_, fun _ => ?_⟩
  · dsimp only
    rw [hnat]
    refine .last hin ?_
    rw [hdisk]
    exact msdosfsEof_entry_eofe pm.disk hin
  · rw [mem_singleton.mp hc]
    exact hon
  · intro hne
    have hnone := hcache.lastmap hne
    simp at hnone
  · dsimp only
    obtain ⟨hf, hs⟩ := fcEntry_toNat (by decide : 0 < 2 ^ 16) (by omega : cn < 2 ^ 16)
    rw [hf, hs]
    exact ⟨rfl, rfl⟩

theorem fileInv_more (h : FileChain m.toBpb pm.disk dep.startCluster.toNat cl)
    (hused : ∀ c ∈ cl, pm.inUse c = true) (hcache : CacheInv cl dep)
    (hfc : dep.lastfc.frcn ≠ fceEmpty) {pm1 : Msdosfsmount} {cn : ℕ} (hin : m.InVolume cn)
    (hoff : pm.inUse cn = false) (hdisk : pm1.disk = fatSet m.toBpb pm.disk cn clustEofe)
    (hbits : ∀ c, pm1.inUse c = (pm.inUse c || decide (c = cn)))
    (hkeep : KeepsNext m.toBpb pm.disk dep.startCluster.toNat cn)
    (hlow : m.fat12 = true → cn < 0xff0) :
    m.InVolume dep.lastfc.fsrcn.toNat ∧
      FileInv m.toBpb
        { pm1 with disk := fatSet m.toBpb pm1.disk dep.lastfc.fsrcn.toNat (BitVec.ofNat 32 cn) }
        { dep with lastfc := fcEntry (dep.lastfc.frcn.toNat + 1) cn } (cl ++ [cn]) := by
  obtain ⟨hlast, hlen⟩ := hcache.lastfc hfc
  obtain ⟨L, hL⟩ : ∃ L, dep.lastfc.fsrcn.toNat = L := ⟨_, rfl⟩
  rw [hL] at hlast ⊢
  rw [hdisk]
  have hLmem : L ∈ cl := mem_of_getElem? hlast
  have hLin := h.inVolume L hLmem
  have hnew : cn ∉ cl := by
    intro hmem
    rw [hused cn hmem] at hoff
    exact Bool.noConfusion hoff
  have hneL : cn ≠ L := fun heq => hnew (heq ▸ hLmem)
  have hlast' : cl[cl.length - 1]? = some L := by
    rw [← hlen, Nat.add_sub_cancel]
    exact hlast
  have hfile : FileChain m.toBpb
      (fatSet m.toBpb (fatSet m.toBpb pm.disk cn clustEofe) L (ofNat 32 cn))
      dep.startCluster.toNat (cl ++ [cn]) := by
    refine h.snoc hlast' (fun c hc hne => ?_) (entry_fatSet_cluster _ hLin hin hlow) hnew
      (.last hin ?_)
    · rw [rawEntry_fatSet_cluster _ hLin hin (h.inVolume c hc).2 hne]
      exact h.rawEntry_fatSet_eofe hin hkeep hc fun heq => hnew (heq ▸ hc)
    · unfold entry
      rw [rawEntry_fatSet_cluster _ hLin hin hin.2 hneL]
      exact msdosfsEof_entry_eofe pm.disk hin
  refine ⟨hLin, .inr hfile, fun c hc => ?_, fun hne => ?_, fun _ => ?_⟩
  · refine (hbits c).trans ?_
    rcases mem_append.mp hc with hc | hc
    · rw [hused c hc, Bool.true_or]
    · rw [decide_eq_true (mem_singleton.mp hc), Bool.or_true]
  · have hmap := hcache.lastmap hne
    obtain ⟨hi, -⟩ := List.getElem?_eq_some_iff.mp hmap
    rw [List.getElem?_append_left hi]
    exact hmap
  · dsimp only
    have hend : (cl ++ [cn])[cl.length]? = some cn := by
      rw [getElem?_append_right le_rfl, Nat.sub_self]
      rfl
    rw [hlen]
    obtain ⟨hf, hs⟩ := fcEntry_toNat (hfile.fits hend).1 (hfile.fits hend).2
    rw [hf, hs, length_append]
    exact ⟨hend, rfl⟩

theorem extendfile_file (h : FileInv m.toBpb pm dep cl) (prevcn : ℕ)
    (hok : dep.startCluster ≠ 0 → ∀ cn, freeCluster m.toBpb pm = some cn →
      KeepsNext m.toBpb pm.disk dep.startCluster.toNat cn ∧ (m.fat12 = true → cn < 0xff0)) :
    ∃ cl', FileInv m.toBpb (extendfile m.toBpb pm prevcn dep).2.1
      (extendfile m.toBpb pm prevcn dep).2.2 cl' := by
  unfold extendfile
  cases hroot : dep.vroot with
  | true => exact ⟨cl, h⟩
  | false =>
    rw [if_neg (by simp)]
    rcases h.chain with ⟨rfl, hzero⟩ | hchain
    · have hfill : fillLastfc m.toBpb pm.disk prevcn dep = (.e2big 0, dep) := by
        unfold fillLastfc Denode.lfcempty
        rw [if_neg (by simp [hzero])]
      rw [hfill]
      rcases clusteralloc_cases m pm clustEofe with
        ⟨e, he⟩ | ⟨cn, pm1, -, hin, -, heq, hdisk, hbits⟩
      · rw [he]
        exact ⟨[], h⟩
      rw [heq]
      dsimp only
      rw [if_pos hzero]
      refine ⟨[cn], fileInv_first h.cache hin hdisk ?_⟩
      rw [hbits cn, decide_eq_true rfl, Bool.or_true]
    · obtain ⟨k, dep', hfill, hsame, hcache', hfc⟩ := fillLastfc_spec hchain h.cache prevcn
      have hchain' := hchain
      rw [← hsame] at hchain'
      rw [hfill]
      rcases clusteralloc_cases m pm clustEofe with
        ⟨e, he⟩ | ⟨cn, pm1, hs, hin, hoff, heq, hdisk, hbits⟩
      · rw [he]
        exact ⟨cl, .inr hchain', h.used, hcache'⟩
      obtain ⟨hkeep, hlow⟩ := hok hchain.startCluster_ne cn hs
      rw [← hsame] at hkeep
      obtain ⟨hLin, hinv⟩ :=
        fileInv_more hchain' h.used hcache' hfc hin hoff hdisk hbits hkeep hlow
      rw [heq]
      dsimp only
      rw [if_neg hchain'.startCluster_ne,
        fatentry_sets m _ (rfl : FatFunction.set.sets = true) hLin]
      exact ⟨_, hinv⟩

end extend

end Bsd386.Msdosfs
