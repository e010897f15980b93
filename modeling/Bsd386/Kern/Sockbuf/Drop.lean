import Bsd386.Kern.Sockbuf.Account

/-!
# Dropping data from a socket buffer

`dropContents len` is what `sbdrop` does to the byte contents of the records: the first `len`
bytes go, a record they exhaust goes as a whole, and the record in which they end keeps the rest.
-/

namespace Bsd386.Kern.Sockbuf

open List

/-- The contents of the records after `len` bytes are dropped in front. -/
def dropContents : ℕ → List (List UInt8) → List (List UInt8)
  | _, [] => []
  | len, r :: rs =>
    if len < r.length then r.drop len :: rs
    else if len = r.length then rs
    else dropContents (len - r.length) rs

theorem dropContents_cons (len : ℕ) (r : List UInt8) (rs : List (List UInt8)) :
    dropContents len (r :: rs) = if len < r.length then r.drop len :: rs
      else if len = r.length then rs else dropContents (len - r.length) rs := rfl

/-! ## One record -/

section chain

variable {c : Counts} {k s : ℕ}

theorem dropChain_tracks (len : ℕ) (m : List Mbuf)
    (h : Tracks c (k + chainLen m) (s + chainStorage m)) :
    Tracks (dropChain c len m).1 (k + chainLen (dropChain c len m).2.2)
      (s + chainStorage (dropChain c len m).2.2) := by
  fun_induction dropChain c len m with
  | case1 m => exact h
  | case2 len => exact h
  | case3 c len m ms hcut =>
    have hlen : (m.trim (len + 1) hcut.le).len = m.len - (len + 1) := by
      rw [Mbuf.len, Mbuf.trim, length_drop]
      rfl
    rw [chainLen_cons] at h
    refine ⟨?_, h.2⟩
    rw [chainLen_cons, hlen, h.1]
    have hsplit : k + (m.len + chainLen ms)
        = k + (m.len - (len + 1) + chainLen ms) + (len + 1) := by omega
    rw [hsplit, BitVec.ofNat_add, BitVec.add_sub_cancel]
  | case4 c len m ms hcut ih =>
    refine ih (Tracks.free ?_)
    rw [chainLen_cons, chainStorage_cons] at h
    rwa [Nat.add_assoc, Nat.add_assoc, Nat.add_comm (chainLen ms),
      Nat.add_comm (chainStorage ms)]

theorem dropChain_of_le (len : ℕ) (m : List Mbuf) (h : len ≤ chainLen m) :
    (dropChain c len m).2.1 = 0 ∧
      chainBytes (dropChain c len m).2.2 = (chainBytes m).drop len := by
  fun_induction dropChain c len m with
  | case1 m => exact ⟨rfl, rfl⟩
  | case2 len => exact absurd h (by simp)
  | case3 c len m ms hcut =>
    refine ⟨rfl, ?_⟩
    rw [chainBytes_cons, chainBytes_cons, drop_append_of_le_length (Nat.le_of_lt hcut)]
    rfl
  | case4 c len m ms hcut ih =>
    rw [chainLen_cons] at h
    obtain ⟨hz, hbytes⟩ := ih (by omega)
    refine ⟨hz, ?_⟩
    have hle : m.bytes.length ≤ len + 1 := Nat.le_of_not_lt hcut
    rw [hbytes, chainBytes_cons, drop_append, drop_eq_nil_of_le hle,
      nil_append, Mbuf.len]

theorem dropChain_of_lt (len : ℕ) (m : List Mbuf) (h : chainLen m < len) :
    (dropChain c len m).2 = (len - chainLen m, []) := by
  fun_induction dropChain c len m with
  | case1 m => exact absurd h (Nat.not_lt_zero _)
  | case2 len => rfl
  | case3 c len m ms hcut =>
    rw [chainLen_cons] at h
    omega
  | case4 c len m ms hcut ih =>
    rw [chainLen_cons] at h ⊢
    rw [ih (by omega), Nat.sub_sub]

theorem dropEmpty_tracks (m : List Mbuf) (h : Tracks c (k + chainLen m) (s + chainStorage m)) :
    Tracks (dropEmpty c m).1 (k + chainLen (dropEmpty c m).2)
      (s + chainStorage (dropEmpty c m).2) := by
  fun_induction dropEmpty c m with
  | case1 c => exact h
  | case2 c m ms hm ih =>
    refine ih (Tracks.free ?_)
    rw [chainLen_cons, chainStorage_cons] at h
    rwa [Nat.add_assoc, Nat.add_assoc, Nat.add_comm (chainLen ms),
      Nat.add_comm (chainStorage ms)]
  | case3 c m ms hm => exact h

theorem chainBytes_dropEmpty (m : List Mbuf) :
    chainBytes (dropEmpty c m).2 = chainBytes m := by
  fun_induction dropEmpty c m with
  | case1 c => rfl
  | case2 c m ms hm ih =>
    rw [ih, chainBytes_cons, length_eq_zero_iff.mp hm, nil_append]
  | case3 c m ms hm => rfl

theorem dropEmpty_eq_nil_iff (m : List Mbuf) :
    (dropEmpty c m).2 = [] ↔ chainBytes m = [] := by
  fun_induction dropEmpty c m with
  | case1 c => simp
  | case2 c m ms hm ih =>
    rw [ih, chainBytes_cons, length_eq_zero_iff.mp hm, nil_append]
  | case3 c m ms hm =>
    have hne : m.bytes ≠ [] := fun h => hm (by rw [Mbuf.len, h]; rfl)
    simp [hne]

end chain

/-! ## All records -/

/-- What the first loop of `sbdrop` leaves of the records `recs`.
Source: sbdrop -/
structure Dropped (c : Counts) (len : ℕ) (recs : List (List Mbuf))
    (r : Counts × List Mbuf × List (List Mbuf)) : Prop where
  tracks : ∀ k s, Tracks c (k + chainLen recs.flatten) (s + chainStorage recs.flatten) →
    Tracks r.1 (k + chainLen (r.2.1 ++ r.2.2.flatten)) (s + chainStorage (r.2.1 ++ r.2.2.flatten))
  sub : ((r.2.1 ++ r.2.2.flatten).map Mbuf.addr).Sublist (recs.flatten.map Mbuf.addr)
  next : r.2.2 <:+ recs
  contents : (if chainBytes r.2.1 = [] then [] else [chainBytes r.2.1])
    ++ r.2.2.map chainBytes = dropContents len (recs.map chainBytes)

theorem dropped_here (c : Counts) {len : ℕ} {m : List Mbuf} (next : List (List Mbuf))
    (h : len ≤ chainLen m) :
    Dropped c len (m :: next) ((dropChain c len m).1, (dropChain c len m).2.2, next) := by
  obtain ⟨-, hbytes⟩ := dropChain_of_le (c := c) len m h
  refine ⟨fun k s ht => ?_, ?_, suffix_cons _ _, ?_⟩
  · rw [flatten_cons, chainLen_append, chainStorage_append] at ht
    have ht' := dropChain_tracks (k := k + chainLen next.flatten)
      (s := s + chainStorage next.flatten) len m (by
        rwa [Nat.add_assoc, Nat.add_assoc, Nat.add_comm (chainLen next.flatten),
          Nat.add_comm (chainStorage next.flatten)])
    rw [chainLen_append, chainStorage_append]
    rwa [Nat.add_assoc, Nat.add_assoc, Nat.add_comm (chainLen next.flatten),
      Nat.add_comm (chainStorage next.flatten)] at ht'
  · rw [flatten_cons, map_append, map_append]
    exact (dropChain_sub len m).append_right _
  · rw [map_cons, dropContents_cons, length_chainBytes, hbytes]
    have hlen : ((chainBytes m).drop len).length = chainLen m - len := by
      rw [length_drop, length_chainBytes]
    rcases Nat.lt_or_eq_of_le h with hlt | heq
    · have hne : (chainBytes m).drop len ≠ [] := by
        intro hnil
        rw [hnil, length_nil] at hlen
        omega
      rw [if_neg hne, if_pos hlt, singleton_append]
    · have hnil : (chainBytes m).drop len = [] := by
        rw [← length_eq_zero_iff, hlen, heq, Nat.sub_self]
      rw [if_pos hnil, if_neg (by omega), if_pos heq, nil_append]

theorem Dropped.cons {c : Counts} {len : ℕ} {m : List Mbuf} {next : List (List Mbuf)}
    {r : Counts × List Mbuf × List (List Mbuf)} (hlt : chainLen m < len)
    (h : Dropped (dropChain c len m).1 (len - chainLen m) next r) :
    Dropped c len (m :: next) r := by
  have hgone : (dropChain c len m).2.2 = [] := by rw [dropChain_of_lt len m hlt]
  refine ⟨fun k s ht => h.tracks k s ?_, ?_, h.next.trans (suffix_cons _ _), ?_⟩
  · rw [flatten_cons, chainLen_append, chainStorage_append] at ht
    have ht' := dropChain_tracks (k := k + chainLen next.flatten)
      (s := s + chainStorage next.flatten) len m (by
        rwa [Nat.add_assoc, Nat.add_assoc, Nat.add_comm (chainLen next.flatten),
          Nat.add_comm (chainStorage next.flatten)])
    rwa [hgone, chainLen_nil, chainStorage_nil, Nat.add_zero, Nat.add_zero] at ht'
  · refine h.sub.trans ?_
    rw [flatten_cons, map_append]
    exact sublist_append_right _ _
  · rw [h.contents, map_cons, dropContents_cons, length_chainBytes, if_neg (by omega),
      if_neg (by omega)]

theorem dropRecords_spec (c : Counts) (len : ℕ) (recs : List (List Mbuf))
    (h : len ≤ chainLen recs.flatten) :
    ∃ r, dropRecords c len recs = .ok r ∧ Dropped c len recs r := by
  induction recs generalizing c len with
  | nil =>
    obtain rfl : len = 0 := Nat.le_zero.mp h
    refine ⟨(c, [], []), rfl, fun _ _ ht => ht, List.Sublist.refl _, suffix_rfl, ?_⟩
    simp [dropContents]
  | cons m next ih =>
    rw [flatten_cons, chainLen_append] at h
    rw [dropRecords]
    by_cases hm : len ≤ chainLen m
    · obtain ⟨hz, -⟩ := dropChain_of_le (c := c) len m hm
      obtain ⟨g, hg⟩ : ∃ g, dropChain c len m = g := ⟨_, rfl⟩
      have hd := dropped_here c next hm
      rw [hg] at hz hd ⊢
      obtain ⟨c', l', m'⟩ := g
      obtain rfl : l' = 0 := hz
      exact ⟨_, rfl, hd⟩
    · have hlt : chainLen m < len := Nat.lt_of_not_le hm
      obtain ⟨r, hr, hd⟩ := ih (dropChain c len m).1 (len - chainLen m) (by omega)
      refine ⟨r, ?_, hd.cons hlt⟩
      have hrest := dropChain_of_lt (c := c) len m hlt
      obtain ⟨g, hg⟩ : ∃ g, dropChain c len m = g := ⟨_, rfl⟩
      rw [hg] at hr hrest ⊢
      obtain ⟨c', l', m'⟩ := g
      obtain ⟨rfl, rfl⟩ := Prod.mk.inj hrest
      obtain ⟨d, hd'⟩ : ∃ d, len - chainLen m = d + 1 := ⟨len - chainLen m - 1, by omega⟩
      rw [hd'] at hr ⊢
      exact hr

theorem sbdrop_spec {sb : Sockbuf} (h : Wf sb) (len : ℤ) (hlen : len.toNat ≤ chainLen sb.mbufs) :
    ∃ sb', sbdrop sb len = .ok sb' ∧ Wf sb' ∧
      sb'.mb.map chainBytes = dropContents len.toNat (sb.mb.map chainBytes) ∧
      (sb'.mbufs.map Mbuf.addr).Sublist (sb.mbufs.map Mbuf.addr) ∧
      sb'.hiwat = sb.hiwat ∧ sb'.mbmax = sb.mbmax ∧ sb'.lock = sb.lock := by
  obtain ⟨⟨c, m, next⟩, hr, hd⟩ := dropRecords_spec sb.cnt len.toNat sb.mb hlen
  refine ⟨_, by rw [sbdrop, hr], ?_⟩
  have hflat : ∀ l : List Mbuf,
      (if l = [] then next else l :: next).flatten = l ++ next.flatten := by
    intro l
    split
    · next hl => rw [hl, nil_append]
    · rw [flatten_cons]
  have hsub : ((dropEmpty c m).2 ++ next.flatten).map Mbuf.addr |>.Sublist
      (sb.mbufs.map Mbuf.addr) := by
    refine List.Sublist.trans ?_ hd.sub
    rw [map_append, map_append]
    exact (dropEmpty_sub m).append_right _
  refine ⟨⟨?_, ?_, ?_⟩, ?_, ?_, rfl, rfl, rfl⟩
  · have ht := hd.tracks 0 0 (by rw [Nat.zero_add, Nat.zero_add]; exact h.tracks)
    simp only [chainLen_append, chainStorage_append, Nat.zero_add,
      Nat.add_comm (chainLen m), Nat.add_comm (chainStorage m)] at ht
    have ht' := dropEmpty_tracks m ht
    simp only [Sockbuf.mbufs, hflat, chainLen_append, chainStorage_append]
    rwa [Nat.add_comm (chainLen next.flatten), Nat.add_comm (chainStorage next.flatten)] at ht'
  · intro r hr'
    have hnext : ∀ r ∈ next, r ≠ [] := fun r hr => h.ne_nil r (hd.next.subset hr)
    split at hr'
    · exact hnext r hr'
    next hne =>
      rcases mem_cons.mp hr' with rfl | hr'
      · exact hne
      · exact hnext r hr'
  · simp only [Sockbuf.mbufs, hflat]
    exact hsub.nodup h.nodup
  · rw [← hd.contents]
    by_cases hm : chainBytes m = []
    · rw [if_pos hm, if_pos ((dropEmpty_eq_nil_iff m).mpr hm), nil_append]
    · rw [if_neg hm, if_neg (fun he => hm ((dropEmpty_eq_nil_iff m).mp he)), map_cons,
        chainBytes_dropEmpty, singleton_append]
  · simpa only [Sockbuf.mbufs, hflat] using hsub

/-! ## Flushing -/

theorem length_dropContents_lt (recs : List (List UInt8)) (hne : recs ≠ []) (len : ℕ)
    (h : recs.flatten.length ≤ len) : (dropContents len recs).length < recs.length := by
  induction recs generalizing len with
  | nil => exact absurd rfl hne
  | cons r rs ih =>
    rw [flatten_cons, length_append] at h
    rw [dropContents_cons, if_neg (by omega)]
    split
    · exact Nat.lt_succ_self _
    · rcases rs with _ | ⟨r', rs⟩
      · exact Nat.zero_lt_succ _
      · exact (ih (cons_ne_nil _ _) _ (by omega)).trans (Nat.lt_succ_self _)

theorem length_contents (sb : Sockbuf) :
    (sb.mb.map chainBytes).flatten.length = chainLen sb.mbufs := by
  unfold Sockbuf.mbufs
  induction sb.mb with
  | nil => rfl
  | cons r rs ih =>
    rw [map_cons, flatten_cons, length_append, ih, length_chainBytes,
      flatten_cons, chainLen_append]

theorem sbflush_spec {sb : Sockbuf} (h : Wf sb) (hlock : sb.lock = false) :
    ∃ fuel sb', sbflush fuel sb = some (.ok sb') ∧ sb' = empty sb.hiwat sb.mbmax := by
  suffices hloop : ∀ n (sb : Sockbuf), sb.mb.length ≤ n → Wf sb → sb.lock = false →
      ∃ sb', sbflushLoop (n + 1) sb = some (.ok sb') ∧ sb' = empty sb.hiwat sb.mbmax by
    obtain ⟨sb', hrun, heq⟩ := hloop _ sb le_rfl h hlock
    exact ⟨_, sb', by rw [sbflush, hlock, if_neg Bool.false_ne_true]; exact hrun, heq⟩
  intro n
  induction n with
  | zero =>
    intro sb hn h hlock
    have hmb : sb.mb = [] := length_eq_zero_iff.mp (Nat.le_zero.mp hn)
    have hall : sb.mbufs = [] := by rw [Sockbuf.mbufs, hmb, flatten_nil]
    have htc : sb.cnt.cc = 0 := by rw [h.tracks.1, hall]; rfl
    have htm : sb.cnt.mbcnt = 0 := by rw [h.tracks.2, hall]; rfl
    refine ⟨sb, ?_, ?_⟩
    · rw [sbflushLoop, if_pos htm, if_pos ⟨htc, hmb⟩]
    · obtain ⟨⟨cc, mbcnt⟩, hiwat, mbmax, lock, mb⟩ := sb
      simp only at hmb hlock htc htm
      rw [hmb, hlock, htc, htm]
      rfl
  | succ n ih =>
    intro sb hn h hlock
    by_cases hz : sb.cnt.mbcnt = 0
    · obtain ⟨sb', hrun, heq⟩ := ih sb (by rw [h.mb_eq_nil hz]; exact Nat.zero_le _) h hlock
      refine ⟨sb', ?_, heq⟩
      rw [sbflushLoop, if_pos hz] at hrun ⊢
      exact hrun
    have hne : sb.mb ≠ [] := by
      intro hmb
      refine hz ?_
      rw [h.tracks.2, Sockbuf.mbufs, hmb]
      rfl
    have htotal : sb.cnt.cc.toInt.toNat = chainLen sb.mbufs := by
      rw [h.toInt_cc, Int.toNat_natCast]
    obtain ⟨sb1, hdrop, hwf, hcont, -, hhi, hmax, hl⟩ := sbdrop_spec h _ htotal.le
    have hshort : sb1.mb.length < sb.mb.length := by
      have hlt := length_dropContents_lt (sb.mb.map chainBytes) (by simpa using hne)
        sb.cnt.cc.toInt.toNat (by rw [length_contents, htotal])
      rwa [← hcont, length_map, length_map] at hlt
    obtain ⟨sb', hrun, heq⟩ := ih sb1 (by omega) hwf (by rw [hl, hlock])
    refine ⟨sb', ?_, by rw [heq, hhi, hmax]⟩
    rw [sbflushLoop, if_neg hz, hdrop]
    exact hrun

end Bsd386.Kern.Sockbuf
