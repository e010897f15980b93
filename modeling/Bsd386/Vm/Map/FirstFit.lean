import Bsd386.Vm.Map.FirstFree

/-!
# First fit

`vm_map_find` searches from an entry on, gap after gap (`findLoop_spec`). It begins at the end of
`first_free` when it may begin at the bottom, which is right as long as nothing below that is free, and
otherwise behind the entry at the address (`findFirst_spec`).
-/

namespace Bsd386.Vm

open Function List Lib

namespace VmMap

variable {m : VmMap} {pre suf : List ℕ}

/-! ## The search -/

/-- The least address from `lo` on with room for `length`. Source: none: what is claimed -/
structure FirstFit (m : VmMap) (lo length a : ℕ) : Prop where
  le : lo ≤ a
  free : m.Free a (a + length)
  least : ∀ b, lo ≤ b → b < a → ¬ m.Free b (b + length)

theorem not_free_of_meets {start end_ : ℕ} {p : ℕ} (h : m.WellFormed) (hp : p ∈ m.order)
    (hlo : start < (m.entry p).end_) (hhi : (m.entry p).start < end_) : ¬ m.Free start end_ := by
  intro hfree
  have hlt := h.start_lt_end hp
  have hread := hfree.none (max start (m.entry p).start) (le_max_left _ _) (max_lt hfree.lt hhi)
  refine absurd hread (read_ne_none_iff.mpr ⟨m.entry p, mem_map_of_mem hp, le_max_right _ _, ?_⟩)
  exact max_lt hlo hlt

/-- **The search** from a place in the list: it finds the first gap that is large enough, if any. -/
theorem findLoop_spec {length n start : ℕ} (h : m.WellFormed) (hspace : m.maxOffset < 2 ^ 32)
    (hlen : 0 < length) (hlen' : length < 2 ^ 32) (hm : m.order = pre ++ suf) (hn : suf.length < n)
    (hmin : m.minOffset ≤ start) (hmax : start ≤ m.maxOffset) (hpre : ∀ p ∈ pre, (m.entry p).end_ ≤ start)
    (hsuf : ∀ p ∈ suf, start ≤ (m.entry p).start) :
    (m.findLoop length n start (pre.getLastD 0) = none ∧ ∀ a, start ≤ a → ¬ m.Free a (a + length)) ∨
      ∃ s entry, m.findLoop length n start (pre.getLastD 0) = some (s, entry) ∧ entry ∈ 0 :: m.order ∧
        (s + length) % 2 ^ 32 = s + length ∧ m.FirstFit start length s := by
  induction suf generalizing pre n start with
  | nil =>
    obtain ⟨k, rfl⟩ : ∃ k, n = k + 1 := ⟨n - 1, by omega⟩
    unfold findLoop
    rw [next_eq h.ring hm, headD_nil]
    by_cases hc : m.maxOffset < (start + length) % 2 ^ 32 ∨ (start + length) % 2 ^ 32 < start
    · rw [if_pos hc]
      refine .inl ⟨rfl, fun a ha hfree => ?_⟩
      have hbounds := hfree.bounds
      omega
    have hmod : (start + length) % 2 ^ 32 = start + length := by omega
    rw [if_neg hc, if_pos (Or.inl rfl)]
    refine .inr ⟨start, _, rfl, ?_, hmod, le_rfl, ⟨by omega, ⟨hmin, by omega⟩, fun a ha _ => ?_⟩,
      fun b hb hlt => absurd hb (not_le.mpr hlt)⟩
    · rw [hm, append_nil]
      exact getLastD_mem pre
    · unfold read
      rw [es_append hm, map_nil, append_nil]
      exact Ranges.read_of_hi_le (forall_mem_map.mpr fun p hp => (hpre p hp).trans ha)
  | cons q suf ih =>
    obtain ⟨k, rfl⟩ : ∃ k, n = k + 1 := ⟨n - 1, by omega⟩
    have hq : q ∈ m.order := by
      rw [hm]
      exact mem_append_cons_self
    have hqlt := h.start_lt_end hq
    have hqmax := (h.bounds _ (mem_map_of_mem hq : m.entry q ∈ m.es)).2
    have hstart := hsuf q mem_cons_self
    unfold findLoop
    rw [next_eq h.ring hm, headD_cons]
    by_cases hc : m.maxOffset < (start + length) % 2 ^ 32 ∨ (start + length) % 2 ^ 32 < start
    · rw [if_pos hc]
      refine .inl ⟨rfl, fun a ha hfree => ?_⟩
      have hbounds := hfree.bounds
      omega
    have hmod : (start + length) % 2 ^ 32 = start + length := by omega
    rw [if_neg hc]
    by_cases hfit : q = 0 ∨ (start + length) % 2 ^ 32 ≤ (m.entry q).start
    · rw [if_pos hfit]
      have hle : start + length ≤ (m.entry q).start := by
        rw [← hmod]
        exact hfit.resolve_left (ne_zero_of_mem h.ring hq)
      refine .inr ⟨start, _, rfl, ?_, hmod, le_rfl, ?_, fun b hb hlt => absurd hb (not_le.mpr hlt)⟩
      · rw [hm]
        exact cons_subset_cons 0 (subset_append_left _ _) (getLastD_mem pre)
      · have hgap : Gap m pre (q :: suf) start (start + length) := by
          refine ⟨hm, hpre, fun p hp => ?_, by omega, hmin, by omega⟩
          rcases mem_cons.mp hp with rfl | hp
          · exact hle
          · exact (hle.trans hqlt.le).trans (h.end_le_start_of_cons hm hp)
        exact hgap.free
    · rw [if_neg hfit]
      -- whatever begins before the end of `q` meets it
      have hmeets : ∀ b, start ≤ b → b < (m.entry q).end_ → ¬ m.Free b (b + length) := by
        intro b hb hlt
        refine not_free_of_meets h hq hlt ?_
        omega
      have hm' : m.order = (pre ++ [q]) ++ suf := by
        rw [hm, append_assoc]
        rfl
      have hpre' : ∀ p ∈ pre ++ [q], (m.entry p).end_ ≤ (m.entry q).end_ := by
        intro p hp
        rcases mem_append.mp hp with hp | hp
        · exact ((hpre p hp).trans hstart).trans hqlt.le
        · rw [mem_singleton.mp hp]
      have hrec := @ih (pre ++ [q]) k (m.entry q).end_ hm' (Nat.succ_lt_succ_iff.mp hn)
        ((hmin.trans hstart).trans hqlt.le) hqmax hpre' fun p hp => h.end_le_start_of_cons hm hp
      rw [getLastD_concat] at hrec
      rcases hrec with ⟨hnone, hno⟩ | ⟨s, entry, hsome, hentry, hmod', hfirst⟩
      · refine .inl ⟨hnone, fun a ha => ?_⟩
        by_cases hlt : a < (m.entry q).end_
        · exact hmeets a ha hlt
        · exact hno a (not_lt.mp hlt)
      refine .inr ⟨s, entry, hsome, hentry, hmod', (hstart.trans hqlt.le).trans hfirst.le, hfirst.free,
        fun b hb hlt => ?_⟩
      by_cases hlt' : b < (m.entry q).end_
      · exact hmeets b hb hlt'
      · exact hfirst.least b (not_lt.mp hlt') hlt

theorem not_free_of_read {a length : ℕ} (ha : m.read a ≠ none) : ¬ m.Free a (a + length) :=
  fun hfree => ha (hfree.none a le_rfl hfree.lt)

theorem Packed.findFirst_spec (h : m.Packed) {start : ℕ} (hmin : m.minOffset ≤ start)
    (hmax : start ≤ m.maxOffset) :
    ∃ pre suf first hint, hint ∈ 0 :: m.order ∧
      m.findFirst start = (first, pre.getLastD 0, m.saveHint hint) ∧ m.order = pre ++ suf ∧ start ≤ first ∧
      first ≤ m.maxOffset ∧ (∀ p ∈ pre, (m.entry p).end_ ≤ first) ∧ (∀ p ∈ suf, first ≤ (m.entry p).start) ∧
      ∀ a, start ≤ a → a < first → m.read a ≠ none := by
  have hw := h.wellFormed
  unfold VmMap.findFirst
  by_cases hstart : start = m.minOffset
  · rw [if_pos hstart]
    by_cases hff : m.firstFree ≠ 0
    · rw [if_pos hff]
      have hin := (mem_cons.mp hw.firstFree).resolve_left hff
      obtain ⟨pre, suf, hm⟩ := append_of_mem hin
      have hbounds := hw.bounds _ (mem_map_of_mem hin : m.entry m.firstFree ∈ m.es)
      have hlt := hw.start_lt_end hin
      refine ⟨pre ++ [m.firstFree], suf, _, m.hint, hw.hint, ?_, ?_, ?_, hbounds.2, ?_, ?_, ?_⟩
      · rw [getLastD_concat]
        rfl
      · rw [append_assoc]
        exact hm
      · rw [hstart]
        exact hbounds.1.trans hlt.le
      · intro p hp
        rcases mem_append.mp hp with hp | hp
        · exact (hw.end_le_start hm hp mem_cons_self).trans hlt.le
        · rw [mem_singleton.mp hp]
      · exact fun p hp => hw.end_le_start_of_cons hm hp
      · exact fun a ha hlt => h.packed hff a (hmin.trans ha) hlt
    · rw [if_neg hff]
      refine ⟨[], m.order, _, m.hint, hw.hint, ?_, rfl, le_rfl, hmax, ?_, ?_, ?_⟩
      · rw [not_not.mp hff]
        rfl
      · exact fun p hp => absurd hp not_mem_nil
      · intro p hp
        rw [hstart]
        exact (hw.bounds _ (mem_map_of_mem hp : m.entry p ∈ m.es)).1
      · exact fun a ha hlt => absurd ha (not_le.mpr hlt)
  · rw [if_neg hstart]
    obtain ⟨pre, suf, hm, hpre, hint, hmem, ⟨q, suf', rfl, hr, hin⟩ | ⟨hr, -, hsuf⟩⟩ :=
      lookupEntry_cases hw start
    · have hqin : q ∈ m.order := by
        rw [hm]
        exact mem_append_cons_self
      rw [hr]
      refine ⟨pre ++ [q], suf', _, hint, hmem, ?_, ?_, hin.2.le, ?_, ?_, ?_, ?_⟩
      · rw [getLastD_concat]
        rfl
      · rw [append_assoc]
        exact hm
      · exact (hw.bounds _ (mem_map_of_mem hqin : m.entry q ∈ m.es)).2
      · intro p hp
        rcases mem_append.mp hp with hp | hp
        · exact (hpre p hp).trans hin.2.le
        · rw [mem_singleton.mp hp]
      · exact fun p hp => hw.end_le_start_of_cons hm hp
      · intro a ha hlt
        exact read_ne_none_iff.mpr ⟨m.entry q, mem_map_of_mem hqin, hin.1.trans ha, hlt⟩
    · rw [hr]
      exact ⟨pre, suf, _, hint, hmem, rfl, hm, le_rfl, hmax, hpre, fun p hp => (hsuf p hp).le,
        fun a ha hlt => absurd ha (not_le.mpr hlt)⟩

/-! ## The call -/

theorem insert_success_iff (h : m.WellFormed) (object : ℕ) (offset : BitVec 32) (start end_ : ℕ)
    (coalesced : Bool) :
    (m.insert object offset start end_ coalesced).1 = .success ↔ m.Free start end_ := by
  rcases insert_cases h object offset start end_ coalesced with
    ⟨r, hint, hr, -, hno, hres⟩ | ⟨pre, suf, hint, -, hgap, ⟨pre', p, -, -, hres⟩ | hres⟩
  · rw [hres]
    exact iff_of_false hr hno
  · rw [hres]
    have hfree := hgap.free
    exact iff_of_true rfl ⟨hfree.lt, hfree.bounds, hfree.none⟩
  · rw [hres]
    have hfree := hgap.free
    exact iff_of_true rfl ⟨hfree.lt, hfree.bounds, hfree.none⟩

theorem Packed.find_spec (h : m.Packed) (object : ℕ) (offset : BitVec 32) (addr : ℕ) {length : ℕ}
    (coalesced : Bool) (hlen : 0 < length) (hlen' : length < 2 ^ 32) :
    (∃ hint ∈ 0 :: m.order,
      m.find object offset addr length true coalesced = (.noSpace, addr, m.saveHint hint) ∧
        ∀ a, max addr m.minOffset ≤ a → ¬ m.Free a (a + length)) ∨
      ∃ a, ∃ hint ∈ 0 :: m.order, m.FirstFit (max addr m.minOffset) length a ∧
        m.find object offset addr length true coalesced =
          (((m.saveHint hint).insert object offset a (a + length) coalesced).1, a,
            ((m.saveHint hint).insert object offset a (a + length) coalesced).2) := by
  unfold VmMap.find
  rw [if_pos rfl]
  dsimp only
  have hlo : (if addr < m.minOffset then m.minOffset else addr) = max addr m.minOffset := by
    by_cases hlt : addr < m.minOffset
    · rw [if_pos hlt, max_eq_right hlt.le]
    · rw [if_neg hlt, max_eq_left (not_lt.mp hlt)]
  rw [hlo]
  obtain ⟨start, hstart⟩ : ∃ start, max addr m.minOffset = start := ⟨_, rfl⟩
  have hmin : m.minOffset ≤ start := hstart ▸ le_max_right _ _
  rw [hstart]
  by_cases hmax : m.maxOffset < start
  · rw [if_pos hmax]
    refine .inl ⟨m.hint, h.wellFormed.hint, rfl, fun a ha hfree => ?_⟩
    have hbounds := hfree.bounds
    omega
  rw [if_neg hmax]
  obtain ⟨pre, suf, first, hint, hmem, hfirst, hm, hle, hmax', hpre, hsuf, hused⟩ :=
    h.findFirst_spec hmin (not_lt.mp hmax)
  have hw := (saveHint_becomes h.wellFormed hmem).wellFormed
  have hm1 : (m.saveHint hint).order = pre ++ suf := hm
  have hn : suf.length < (m.saveHint hint).order.length + 1 := by
    rw [hm1, length_append]
    omega
  rw [hfirst]
  -- an address before the place where the search begins is in use
  have hbefore : ∀ a, start ≤ a → a < first → ¬ m.Free a (a + length) := fun a ha hlt =>
    not_free_of_read (hused a ha hlt)
  rcases findLoop_spec hw h.space hlen hlen' hm1 hn (hmin.trans hle) hmax' hpre hsuf with
    ⟨hnone, hno⟩ | ⟨s, entry, hsome, hentry, hmod, hfit⟩
  · rw [hnone]
    refine .inl ⟨hint, hmem, rfl, fun a ha hfree => ?_⟩
    by_cases hlt : a < first
    · exact hbefore a ha hlt hfree
    · exact hno a (not_lt.mp hlt) ⟨hfree.lt, hfree.bounds, hfree.none⟩
  rw [hsome]
  dsimp only
  rw [hmod]
  have hfree := hfit.free
  refine .inr ⟨s, entry, hentry, ⟨hle.trans hfit.le, ⟨hfree.lt, hfree.bounds, hfree.none⟩, ?_⟩, rfl⟩
  intro b hb hbs hfree'
  by_cases hlt : b < first
  · exact hbefore b hb hlt hfree'
  · exact hfit.least b (not_lt.mp hlt) hbs ⟨hfree'.lt, hfree'.bounds, hfree'.none⟩

theorem Packed.firstFit (h : m.Packed) (object : ℕ) (offset : BitVec 32) (addr : ℕ) {length : ℕ}
    (coalesced : Bool) (hlen : 0 < length) (hlen' : length < 2 ^ 32) :
    ((m.find object offset addr length true coalesced).1 = .success ↔
      ∃ a, max addr m.minOffset ≤ a ∧ m.Free a (a + length)) ∧
      ((m.find object offset addr length true coalesced).1 = .success →
        m.FirstFit (max addr m.minOffset) length (m.find object offset addr length true coalesced).2.1) := by
  rcases h.find_spec object offset addr coalesced hlen hlen' with
    ⟨hint, -, hres, hno⟩ | ⟨a, hint, hmem, hfit, hres⟩
  · rw [hres]
    refine ⟨iff_of_false (fun hc => by cases hc) ?_, fun hc => by cases hc⟩
    rintro ⟨a, ha, hfree⟩
    exact hno a ha hfree
  have hsucc : (m.find object offset addr length true coalesced).1 = .success := by
    rw [hres]
    refine (insert_success_iff (saveHint_becomes h.wellFormed hmem).wellFormed _ _ _ _ _).mpr ?_
    exact ⟨hfit.free.lt, hfit.free.bounds, hfit.free.none⟩
  refine ⟨iff_of_true hsucc ⟨a, hfit.le, hfit.free⟩, fun _ => ?_⟩
  rw [hres]
  exact hfit

theorem Hides.of_saveHint {start end_ hint : ℕ} (h : (m.saveHint hint).Hides start end_) :
    m.Hides start end_ :=
  ⟨h.firstFree, ⟨h.free.lt, h.free.bounds, h.free.none⟩, h.gap, h.first⟩

theorem Packed.find (h : m.Packed) (object : ℕ) (offset : BitVec 32) (addr : ℕ) {length : ℕ}
    (coalesced : Bool) (hlen' : length < 2 ^ 32)
    (hok : ∀ a, m.FirstFit (max addr m.minOffset) length a → ¬ m.Hides a (a + length)) :
    (m.find object offset addr length true coalesced).2.2.Packed := by
  rcases Nat.eq_zero_or_pos length with rfl | hlen
  · -- nothing is inserted in an empty range
    unfold VmMap.find
    rw [if_pos rfl]
    dsimp only
    obtain ⟨start, hstart⟩ : ∃ start, (if addr < m.minOffset then m.minOffset else addr) = start := ⟨_, rfl⟩
    rw [hstart]
    by_cases hmax : m.maxOffset < start
    · rw [if_pos hmax]
      exact h
    have hmin : m.minOffset ≤ start := by
      rw [← hstart]
      split_ifs with hlt
      · exact le_rfl
      · exact not_lt.mp hlt
    obtain ⟨pre, suf, first, hint, hmem, hfirst, hm, -⟩ := h.findFirst_spec hmin (not_lt.mp hmax)
    have hlast : pre.getLastD 0 ∈ 0 :: (m.saveHint hint).order := by
      change pre.getLastD 0 ∈ 0 :: m.order
      rw [hm]
      exact cons_subset_cons 0 (subset_append_left _ _) (getLastD_mem pre)
    rw [if_neg hmax, hfirst]
    cases hloop : (m.saveHint hint).findLoop 0 ((m.saveHint hint).order.length + 1) first
        (pre.getLastD 0) with
    | none => exact h.saveHint hmem
    | some r =>
      exact ((h.saveHint hmem).saveHint (findLoop_mem hlast hloop)).insert _ _ _
        fun hides => absurd hides.free.lt (not_lt.mpr (Nat.mod_le _ _))
  · rcases h.find_spec object offset addr coalesced hlen hlen' with
      ⟨hint, hmem, hres, -⟩ | ⟨a, hint, hmem, hfit, hres⟩
    · rw [hres]
      exact h.saveHint hmem
    · rw [hres]
      exact (h.saveHint hmem).insert _ _ _ fun hides => hok a hfit hides.of_saveHint

/-! ## New maps -/

theorem packed_init {min max : ℕ} (h : max < 2 ^ 32) : (init min max).Packed :=
  ⟨(mapInv_init min max).wellFormed, fun hne => absurd rfl hne, h⟩

/-! ## Forking -/

/-- What the copying from a sharing map does: the entry just made for the child may be clipped, and refers
to the copies. Source: vm_map_copy -/
structure ForkEnv.Sound (env : ForkEnv) : Prop where
  old : ∀ f e, (env.mapCopy f e).old = f.old
  shares : ∀ f e, (env.mapCopy f e).shares = f.shares
  wellFormed : ∀ f e, f.new.WellFormed → (env.mapCopy f e).new.WellFormed
  header : ∀ f e, (env.mapCopy f e).new.entry 0 = f.new.entry 0
  firstFree : ∀ f e, (env.mapCopy f e).new.firstFree = f.new.firstFree
  read : ∀ f e a, (env.mapCopy f e).new.read a ≠ none ↔ f.new.read a ≠ none

/-- What holds of a fork after the entries `pre` of the old map: nothing that is behind the next entry is
mapped in the new map, and its `first_free` is the header still.
Source: vmspace_fork -/
structure ForkPacked (f : Fork) (pre suf : List ℕ) : Prop where
  old : f.old.Packed
  order : f.old.order = pre ++ suf
  new : f.new.WellFormed
  firstFree : f.new.firstFree = 0
  before : ∀ a, f.new.read a ≠ none → ∀ p ∈ suf, a < (f.old.entry p).start
  header : f.new.minOffset = f.old.minOffset ∧ f.new.maxOffset = f.old.maxOffset
  shares : ∀ m ∈ f.shares, m.Packed

theorem ForkPacked.setEntry {f : Fork} {p : ℕ} (h : ForkPacked f pre suf) {e : MapEntry}
    (hp : p ∈ f.old.order) (hlo : e.start = (f.old.entry p).start) (hhi : e.end_ = (f.old.entry p).end_) :
    ForkPacked { f with old := f.old.setEntry p e } pre suf := by
  have h0 : (f.old.setEntry p e).entry 0 = f.old.entry 0 := by
    rw [setEntry_entry, update_of_ne (ne_zero_of_mem h.old.wellFormed.ring hp).symm]
  refine ⟨h.old.setEntry hp hlo hhi, h.order, h.new, h.firstFree, fun a ha q hq => ?_, ?_, h.shares⟩
  · dsimp only
    rw [setEntry_entry]
    have hlt := h.before a ha q hq
    by_cases hqp : q = p
    · subst hqp
      rw [update_self, hlo]
      exact hlt
    · rw [update_of_ne hqp]
      exact hlt
  · unfold minOffset maxOffset at *
    rw [h0]
    exact h.header

theorem ForkPacked.linkLast {f : Fork} {p : ℕ} (h : ForkPacked f pre (p :: suf)) {e : MapEntry}
    (hlo : e.start = (f.old.entry p).start) (hhi : e.end_ = (f.old.entry p).end_) :
    ForkPacked { f with new := f.new.linkLast e } (pre ++ [p]) suf := by
  have hp : p ∈ f.old.order := by
    rw [h.order]
    exact mem_append_cons_self
  have hlt := h.old.wellFormed.start_lt_end hp
  have hbounds := h.old.wellFormed.bounds _ (mem_map_of_mem hp : f.old.entry p ∈ f.old.es)
  obtain ⟨hw, hes, -, h0⟩ := linkLast_spec (e := e) h.new (by rw [hlo, hhi]; exact hlt)
    (fun x hx => by
      -- the last address of an entry is mapped
      obtain ⟨q, hq, rfl⟩ := mem_map.mp hx
      have hxlt := h.new.start_lt_end hq
      have hlast := h.before ((f.new.entry q).end_ - 1)
        (read_ne_none_iff.mpr ⟨_, hx, by omega, by omega⟩) p mem_cons_self
      rw [hlo]
      omega)
    (by
      rw [hlo, hhi, h.header.1, h.header.2]
      exact hbounds)
  have hff : (f.new.linkLast e).firstFree = f.new.firstFree := rfl
  refine ⟨h.old, ?_, hw, hff.trans h.firstFree, fun a ha q hq => ?_, ?_, h.shares⟩
  · rw [append_assoc]
    exact h.order
  · obtain ⟨x, hx, hin⟩ := read_ne_none_iff.mp ha
    rw [hes] at hx
    have hpq := h.old.wellFormed.end_le_start_of_cons h.order hq
    rcases mem_append.mp hx with hx | hx
    · exact h.before a (read_ne_none_iff.mpr ⟨x, hx, hin⟩) q (mem_cons_of_mem p hq)
    · rw [mem_singleton.mp hx, hhi] at hin
      exact hin.2.trans_le hpq
  · unfold minOffset maxOffset at *
    rw [h0]
    exact h.header

theorem ForkPacked.step {f : Fork} {p : ℕ} (h : ForkPacked f pre (p :: suf)) {old' new' : MapEntry}
    (hlo : old'.start = (f.old.entry p).start) (hhi : old'.end_ = (f.old.entry p).end_)
    (hlo' : new'.start = (f.old.entry p).start) (hhi' : new'.end_ = (f.old.entry p).end_) :
    ForkPacked { f with old := f.old.setEntry p old', new := f.new.linkLast new' } (pre ++ [p]) suf := by
  have hp : p ∈ f.old.order := by
    rw [h.order]
    exact mem_append_cons_self
  exact (h.linkLast hlo' hhi').setEntry hp hlo hhi

theorem ForkPacked.skip {f : Fork} {p : ℕ} (h : ForkPacked f pre (p :: suf)) :
    ForkPacked f (pre ++ [p]) suf := by
  refine ⟨h.old, ?_, h.new, h.firstFree, fun a ha q hq => ?_, h.header, h.shares⟩
  · rw [append_assoc]
    exact h.order
  · exact h.before a ha q (mem_cons_of_mem p hq)

theorem packed_shareMap {e : MapEntry} (hlt : e.start < e.end_) (hspace : e.end_ < 2 ^ 32) :
    (shareMap e).Packed := by
  have hbounds : (init e.start e.end_).minOffset = e.start ∧ (init e.start e.end_).maxOffset = e.end_ := by
    unfold minOffset maxOffset init
    dsimp only
    rw [update_self]
    exact ⟨rfl, rfl⟩
  obtain ⟨hmin, hmax⟩ := hbounds
  obtain ⟨hw, -, -, h0⟩ := linkLast_spec (mapInv_init e.start e.end_).wellFormed hlt
    (fun x hx => absurd hx not_mem_nil) ⟨hmin.le, hmax.ge⟩
  refine ⟨⟨hw.ring, hw.ordered, hw.bounds, hw.hint, hw.firstFree⟩, fun hne => absurd rfl hne, ?_⟩
  have hend : (shareMap e).maxOffset = e.end_ := (congrArg MapEntry.end_ h0).trans hmax
  rwa [hend]

theorem ForkPacked.forkShare {f : Fork} {p : ℕ} (env : ForkEnv) (h : ForkPacked f pre (p :: suf)) :
    ForkPacked (forkShare env f p) (pre ++ [p]) suf := by
  have hp : p ∈ f.old.order := by
    rw [h.order]
    exact mem_append_cons_self
  have hlt := h.old.wellFormed.start_lt_end hp
  have hbounds := h.old.wellFormed.bounds _ (mem_map_of_mem hp : f.old.entry p ∈ f.old.es)
  unfold VmMap.forkShare
  dsimp only
  split_ifs
  · exact h.linkLast rfl rfl
  obtain ⟨e, he⟩ : ∃ e : MapEntry, { f.old.entry p with
      isAMap := true, object := env.base + f.shares.length
      offset := BitVec.ofNat 32 (f.old.entry p).start } = e := ⟨_, rfl⟩
  have hlo : e.start = (f.old.entry p).start := by
    rw [← he]
  have hhi : e.end_ = (f.old.entry p).end_ := by
    rw [← he]
  rw [he]
  obtain ⟨hold, horder, hnew, hff, hbefore, hheader, hshares⟩ := h.step hlo hhi hlo hhi
  refine ⟨hold, horder, hnew, hff, hbefore, hheader, ?_⟩
  exact forall_mem_append.mpr ⟨hshares, forall_mem_singleton.mpr
    (packed_shareMap hlt (hbounds.2.trans_lt h.old.space))⟩

theorem ForkPacked.forkCopy {f : Fork} {p : ℕ} {env : ForkEnv} (henv : env.Sound)
    (h : ForkPacked f pre (p :: suf)) : ForkPacked (forkCopy env f p) (pre ++ [p]) suf := by
  unfold VmMap.forkCopy
  dsimp only
  split_ifs
  · obtain ⟨e, he⟩ : ∃ e : MapEntry,
        { f.old.entry p with wiredCount := 0, object := 0, isAMap := false } = e := ⟨_, rfl⟩
    have hlinked := h.linkLast (e := e) (by rw [← he]) (by rw [← he])
    rw [he]
    refine ⟨?_, ?_, henv.wellFormed _ _ hlinked.new, (henv.firstFree _ _).trans hlinked.firstFree, ?_, ?_, ?_⟩
    · rw [henv.old]
      exact hlinked.old
    · rw [henv.old]
      exact hlinked.order
    · rw [henv.old]
      exact fun a ha => hlinked.before a ((henv.read _ _ a).mp ha)
    · unfold minOffset maxOffset
      rw [henv.old, henv.header]
      exact hlinked.header
    · rw [henv.shares]
      exact hlinked.shares
  · exact h.step rfl rfl rfl rfl
  · exact h.linkLast rfl rfl

theorem ForkPacked.loop {f f' : Fork} {n : ℕ} {env : ForkEnv} (henv : env.Sound) (h : ForkPacked f pre suf)
    (hloop : forkLoop env n f (suf.headD 0) = some f') : ∃ pre', ForkPacked f' pre' [] := by
  induction n generalizing f pre suf with
  | zero => cases hloop
  | succ n ih =>
    unfold forkLoop at hloop
    cases suf with
    | nil =>
      rw [headD_nil, if_pos rfl] at hloop
      rw [← Option.some.inj hloop]
      exact ⟨pre, h⟩
    | cons p suf =>
      have hp : p ∈ f.old.order := by
        rw [h.order]
        exact mem_append_cons_self
      rw [headD_cons, if_neg (ne_zero_of_mem h.old.wellFormed.ring hp)] at hloop
      by_cases hsub : (f.old.entry p).isSubMap = true
      · rw [if_pos hsub] at hloop
        cases hloop
      rw [if_neg hsub] at hloop
      dsimp only at hloop
      have hstep : ForkPacked (if (f.old.entry p).inheritance = vmInheritShare then
          VmMap.forkShare env f p
        else if (f.old.entry p).inheritance = vmInheritCopy then VmMap.forkCopy env f p else f)
          (pre ++ [p]) suf := by
        split_ifs
        · exact h.forkShare env
        · exact h.forkCopy henv
        · exact h.skip
      have horder := hstep.order
      rw [append_assoc] at horder
      rw [next_of_mem hstep.old.wellFormed.ring horder] at hloop
      exact ih hstep hloop

theorem Packed.fork (h : m.Packed) {env : ForkEnv} (henv : env.Sound) {f : Fork}
    (hf : m.fork env = some f) : f.old.Packed ∧ (∀ s ∈ f.shares, s.Packed) ∧ f.new.Packed := by
  obtain ⟨f1, hloop, rfl⟩ := Option.map_eq_some_iff.mp hf
  have hstart : ForkPacked ⟨m, VmMap.init m.minOffset m.maxOffset, []⟩ [] m.order := by
    refine ⟨h, rfl, (mapInv_init _ _).wellFormed, rfl, fun a ha => absurd rfl ha, ?_,
      fun s hs => absurd hs not_mem_nil⟩
    unfold minOffset maxOffset VmMap.init
    dsimp only
    rw [update_self]
    exact ⟨rfl, rfl⟩
  rw [next_zero h.wellFormed.ring] at hloop
  obtain ⟨pre, hend⟩ := hstart.loop henv hloop
  have hw := hend.new
  refine ⟨hend.old, hend.shares, ⟨hw.ring, hw.ordered, hw.bounds, hw.hint, hw.firstFree⟩,
    fun hne => absurd hend.firstFree hne, ?_⟩
  have hmax : f1.new.maxOffset < 2 ^ 32 := hend.header.2 ▸ hend.old.space
  exact hmax

/-! ## Gaps that are hidden -/

/-- What is claimed of a map: nothing below the end of `first_free` is free, and a call that may choose
the address finds the first fit. Source: none: what is claimed -/
structure FindsFirstFit (m : VmMap) : Prop where
  firstFree : m.firstFree ≠ 0 → ∀ a, m.minOffset ≤ a → a < (m.entry m.firstFree).end_ → m.read a ≠ none
  iff : ∀ (object : ℕ) (offset : BitVec 32) (addr length : ℕ) (coalesced : Bool), 0 < length →
    length < 2 ^ 32 → ((m.find object offset addr length true coalesced).1 = .success ↔
      ∃ a, max addr m.minOffset ≤ a ∧ m.Free a (a + length))
  least : ∀ (object : ℕ) (offset : BitVec 32) (addr length : ℕ) (coalesced : Bool), 0 < length →
    length < 2 ^ 32 → (m.find object offset addr length true coalesced).1 = .success →
      m.FirstFit (max addr m.minOffset) length (m.find object offset addr length true coalesced).2.1

theorem Packed.findsFirstFit (h : m.Packed) : m.FindsFirstFit :=
  ⟨h.packed, fun object offset addr _ coalesced hlen hlen' =>
    (h.firstFit object offset addr coalesced hlen hlen').1,
    fun object offset addr _ coalesced hlen hlen' => (h.firstFit object offset addr coalesced hlen hlen').2⟩

end VmMap

/-! ## Runs -/

open VmMap in
/-- The calls there are: addresses and lengths of 32 bits, submaps where the caller may ask for them. -/
def CallOk (maps : List VmMap) : MapOp → Prop
  | .init _ max => max < 2 ^ 32
  | .find _ _ _ _ length _ _ => length < 2 ^ 32
  | .submap i start end_ _ =>
    ∀ m ∈ maps[i]?, SubmapOk m (m.rangeCheck start end_).1 (m.rangeCheck start end_).2
  | .fork _ env => env.Sound
  | _ => True

open VmMap in
/-- The calls that hide no gap: where they would insert, there is none below, or it is known.
Source: vm_map_insert, vm_map_find -/
def SpaceOk (maps : List VmMap) : MapOp → Prop
  | .insert i _ _ start end_ _ => ∀ m ∈ maps[i]?, ¬ m.Hides start end_
  | .find i _ _ addr length true _ => ∀ m ∈ maps[i]?, ∀ a,
      m.FirstFit (max addr m.minOffset) length a → ¬ m.Hides a (a + length)
  | .find i _ _ addr length false _ => ∀ m ∈ maps[i]?, ¬ m.Hides addr ((addr + length) % 2 ^ 32)
  | _ => True

theorem packed_step {maps maps' : List VmMap} {op : MapOp} (h : ∀ m ∈ maps, m.Packed)
    (hcall : CallOk maps op) (hok : SpaceOk maps op) (hstep : mapStep maps op = some maps') :
    ∀ m ∈ maps', m.Packed := by
  cases op with
  | init min max =>
    rw [← Option.some.inj hstep]
    exact forall_mem_append.mpr ⟨h, forall_mem_singleton.mpr (VmMap.packed_init hcall)⟩
  | insert i object offset start end_ coalesced =>
    exact forall_mem_of_set h (fun m hi hm => hm.insert object offset coalesced (hok m hi)) hstep
  | find i object offset addr length findSpace coalesced =>
    cases findSpace with
    | true =>
      exact forall_mem_of_set h (fun m hi hm => hm.find object offset addr coalesced hcall (hok m hi)) hstep
    | false =>
      exact forall_mem_of_set h (fun m hi hm => hm.insert object offset coalesced (hok m hi)) hstep
  | remove i start end_ => exact forall_mem_of_set h (fun m _ hm => hm.remove start end_) hstep
  | protect i start end_ newProt setMax =>
    exact forall_mem_of_set h (fun m _ hm => VmMap.stable_packed.protect hm start end_ newProt setMax) hstep
  | inherit i start end_ newInheritance =>
    exact forall_mem_of_set h (fun m _ hm => VmMap.stable_packed.inherit hm start end_ newInheritance) hstep
  | pageable i start end_ newPageable alloc wire =>
    exact forall_mem_of_set h (fun m _ hm => VmMap.stable_packed.pageable hm start end_ newPageable alloc wire) hstep
  | submap i start end_ sub => exact forall_mem_of_set h (fun m hi hm => VmMap.stable_packed.submap hm sub (hcall m hi)) hstep
  | simplify i start => exact forall_mem_of_set h (fun m _ hm => hm.simplify start) hstep
  | fork i env =>
    obtain ⟨m, hm, hstep⟩ := Option.bind_eq_some_iff.mp hstep
    obtain ⟨f, hf, rfl⟩ := Option.map_eq_some_iff.mp hstep
    obtain ⟨hold, hshares, hnew⟩ := (h m (mem_of_getElem? hm)).fork hcall hf
    refine forall_mem_append.mpr ⟨forall_mem_append.mpr ⟨?_, hshares⟩,
      forall_mem_singleton.mpr hnew⟩
    intro x hx
    rcases mem_or_eq_of_mem_set hx with hx | rfl
    · exact h x hx
    · exact hold

/-- **First fit in every run.** After every sequence of calls none of which puts the first entry of a map
above a gap while `first_free` is the header, no gap is hidden by `first_free`, and `vm_map_find` with
`find_space` finds the least address with room, if there is any.
Source: vm_map_find. Kind: C -/
theorem firstFit_of_reach {maps : List VmMap}
    (h : Transition.Reach (· = [])
      (fun s s' => ∃ op, CallOk s op ∧ SpaceOk s op ∧ mapStep s op = some s') maps) :
    ∀ m ∈ maps, m.FindsFirstFit := by
  have hinv : ∀ m ∈ maps, m.Packed := by
    refine h.invariant (I := fun maps => ∀ m ∈ maps, m.Packed) ?_ ?_
    · rintro s rfl m hm
      exact absurd hm not_mem_nil
    · rintro s s' - hs ⟨op, hcall, hok, hstep⟩
      exact packed_step hs hcall hok hstep
  exact fun m hm => (hinv m hm).findsFirstFit

/-- A map with an entry at its bottom and one behind a gap. Kind: C -/
theorem firstFit_bottom : ∃ maps : List VmMap, maps.map VmMap.order = [[1, 2]] ∧
    ∀ m ∈ maps, m.FindsFirstFit := by
  refine ⟨_, ?_, firstFit_of_reach (.step (.step (.step (.start rfl) ⟨.init 0 100, ?_, trivial, rfl⟩)
    ⟨.insert 0 5 0 0 10 false, trivial, ?_, rfl⟩) ⟨.insert 0 6 0 50 60 false, trivial, ?_, rfl⟩)⟩
  · rfl
  · change 100 < 2 ^ 32
    decide
  · intro m hm hides
    have hmin : m.minOffset = 0 := by
      rw [← Option.some.inj hm]
      rfl
    exact absurd (hmin ▸ hides.gap) (lt_irrefl 0)
  · intro m hm hides
    have hff : m.firstFree = 1 := by
      rw [← Option.some.inj hm]
      rfl
    exact absurd (hff.symm.trans hides.firstFree) Nat.one_ne_zero

/-- An empty map of 100 addresses in which the range from 50 to 60 is taken: 45 addresses from the bottom
on are free, and are not found. Source: vm_map_insert, vm_map_find. Kind: C -/
theorem not_firstFit :
    ∃ maps, Transition.Reach (· = []) (fun s s' => ∃ op, CallOk s op ∧ mapStep s op = some s') maps ∧
      ∃ m ∈ maps, ¬ m.FindsFirstFit := by
  refine ⟨_, .step (.step (.start rfl) ⟨.init 0 100, ?_, rfl⟩) ⟨.insert 0 5 0 50 60 false, trivial, rfl⟩, _,
    mem_cons_self, fun hfits => ?_⟩
  · change 100 < 2 ^ 32
    decide
  · have hnot : (((VmMap.init 0 100).insert 5 0 50 60 false).2.find 6 0 0 45 true false).1 ≠ .success := by
      decide
    refine hnot ((hfits.iff 6 0 0 45 false (by decide) (by decide)).mpr ⟨0, by decide, by decide, by decide, ?_⟩)
    intro a _ ha
    refine Ranges.read_of_lt_lo (forall_mem_singleton.mpr ?_)
    exact ha.trans (by decide)

end Bsd386.Vm
