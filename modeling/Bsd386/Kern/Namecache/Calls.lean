import Bsd386.Kern.Namecache.Lists
import Bsd386.Kern.Namecache.Valid

/-!
# The calls of the name cache

`Cached` says that the lists are in shape, the entries on the chains are valid, and each is on the chain of
its name. Each call keeps it (`Cached.lookup`, `Cached.enter`, `Cached.purge`, `Cached.purgevfs`), and
`cache_lookup` returns -1 or `ENOENT` only with what is recorded.

An entry must not be discarded when it is alone on the LRU list (`Alone`): `discard` would go through the
null head of the list it has emptied (`Cached.lookup_isSome_iff`, `Cached.purgevfs_isSome_iff`).
-/

namespace Bsd386.Kern.Namecache

open Function List Lib.Bytes Lib.Insque Lib.Tailq Option

variable {c c' : Cache} {l l' pre post : List Entry} {chain chain' : ℕ → List Entry} {e : Entry}
  {ndp : Nameidata} {record : Record} {asked : Vnode × List Byte → Bool}

/-- The entry is the only one on the LRU list: `nchhead == e && e->nc_nxt == NULL`. -/
def Cache.Alone (c : Cache) (e : Entry) : Prop := c.lru.cell .head = some e ∧ c.lru.cell (.next e) = none

/-- The cache in order. -/
structure Cached (c : Cache) (l : List Entry) (chain : ℕ → List Entry) (record : Record)
    (asked : Vnode × List Byte → Bool) : Prop where
  shape : Shape c l chain
  valid : Valid c.ncp c.vId (fun e => ∃ i, e ∈ chain i) record asked
  placed : ∀ i, ∀ e ∈ chain i, ∀ ndp : Nameidata, ndp.niName = (c.ncp e).ncName → c.nhp ndp = i
  short : ∀ i, ∀ e ∈ chain i, (c.ncp e).ncName.length ≤ nchnamlen
  enabled : c.doingcache = false → c.numcache = 0

theorem isFor_iff : c.isFor ndp e = true ↔ (c.ncp e).ncDvp = some ndp.niDvp ∧
    (c.ncp e).ncDvpid = c.vId ndp.niDvp ∧ (c.ncp e).ncName = ndp.niName := by
  rw [Cache.isFor, Bool.and_eq_true, Bool.and_eq_true, beq_iff_eq, beq_iff_eq, beq_iff_eq, and_assoc]

theorem moveToEnd_eq (c : Cache) (e : Entry) : c.moveToEnd e = { c with lru := (c.moveToEnd e).lru } := by
  rw [Cache.moveToEnd]
  split <;> rfl

theorem Shape.ne_nil (h : Shape c (pre ++ e :: post) chain) (he : ¬ c.Alone e) : pre ++ post ≠ [] := by
  intro hnil
  obtain ⟨rfl, rfl⟩ := append_eq_nil_iff.mp hnil
  have hlru : c.lru.Holds ([] ++ e :: []) := h.lru
  exact he ⟨hlru.head_eq, hlru.next_eq⟩

namespace Cached

section

variable (h : Cached c l chain record asked)
include h

theorem of_shape (hshape : Shape c' l' chain')
    (heq : c' = { c with links := c'.links, lru := c'.lru, ncp := c'.ncp })
    (hsub : ∀ i, ∀ e ∈ chain' i, e ∈ chain i ∧ c'.ncp e = c.ncp e) :
    Cached c' l' chain' record asked := by
  have hvId : c'.vId = c.vId := by rw [heq]
  have hnhp : ∀ ndp, c'.nhp ndp = c.nhp ndp := by
    intro ndp
    rw [Cache.nhp, Cache.nhp]
    rw [heq]
  refine ⟨hshape, ?_, ?_, ?_, ?_⟩
  · rw [hvId]
    exact h.valid.mono (fun e ⟨i, he⟩ => ⟨i, (hsub i e he).1⟩) fun e ⟨i, he⟩ => (hsub i e he).2
  · intro i e he ndp hn
    rw [(hsub i e he).2] at hn
    rw [hnhp]
    exact h.placed i e (hsub i e he).1 ndp hn
  · intro i e he
    rw [(hsub i e he).2]
    exact h.short i e (hsub i e he).1
  · intro hoff
    have hd : c'.doingcache = c.doingcache := by rw [heq]
    have hn : c'.numcache = c.numcache := by rw [heq]
    rw [hn]
    exact h.enabled (hd ▸ hoff)

theorem of_valid {record' : Record} {asked' : Vnode × List Byte → Bool}
    (hvalid : Valid c.ncp c.vId (fun e => ∃ i, e ∈ chain i) record' asked') :
    Cached c l chain record' asked' := ⟨h.shape, hvalid, h.placed, h.short, h.enabled⟩

theorem mem_nhp {i : ℕ} (he : e ∈ chain i) (hn : (c.ncp e).ncName = ndp.niName) :
    e ∈ chain (c.nhp ndp) := by
  rw [h.placed i e he ndp hn.symm]
  exact he

theorem discard (he : e < c.numcache) (halone : ¬ c.Alone e) :
    ∃ c', c.discard e = some c' ∧ ∃ l', Cached c' l' (without chain e) record asked ∧
      c' = { c with links := c'.links, lru := c'.lru } := by
  obtain ⟨pre, post, rfl⟩ := append_of_mem ((h.shape.mem e).mpr he)
  obtain ⟨c', hc', hshape, heq⟩ := h.shape.discard (h.shape.ne_nil halone)
  have hncp : c'.ncp = c.ncp := by rw [heq]
  refine ⟨c', hc', _, h.of_shape hshape ?_ ?_, heq⟩
  · rw [hncp]
    exact heq
  · intro i x hx
    rw [hncp]
    exact ⟨(h.shape.mem_without.mp hx).2, rfl⟩

end

/-- A lookup that returns leaves the cache in order, with -1 or `ENOENT` only for what is recorded.
Source: cache_lookup -/
def Answers (c : Cache) (ndp : Nameidata) (record : Record) (asked : Vnode × List Byte → Bool)
    (r : Status × Nameidata × Cache) : Prop :=
  (∃ l chain, Cached r.2.2 l chain record
    (update asked (ndp.niDvp, ndp.niName) (r.1 == .zero))) ∧
  r.2.2 = { c with links := r.2.2.links, lru := r.2.2.lru } ∧
  (r.1 = .found → ∃ vp, r.2.1.niVp = some vp ∧ record (ndp.niDvp, ndp.niName) = some (some vp)) ∧
  (r.1 = .enoent → record (ndp.niDvp, ndp.niName) = some none)

section

variable (h : Cached c l chain record asked)
include h

theorem answers_zero (ndp' : Nameidata) (hnone : ∀ i, ∀ e ∈ chain i, c.isFor ndp e = false) :
    Answers c ndp record asked (.zero, ndp', c) := by
  refine ⟨⟨l, chain, h.of_valid (h.valid.ask ?_)⟩, rfl, nofun, nofun⟩
  rintro e ⟨i, he⟩ hd hn hid
  exact Bool.false_ne_true ((hnone i e he).symm.trans (isFor_iff.mpr ⟨hd, hid, hn⟩))

theorem answers_drop {i : ℕ} (he : e ∈ chain i) (hfor : c.isFor ndp e = true) (halone : ¬ c.Alone e) :
    ∃ c', c.discard e = some c' ∧ Answers c ndp record asked (.zero, ndp, c') := by
  obtain ⟨hd, hid, hn⟩ := isFor_iff.mp hfor
  obtain ⟨c', hc', l', hcached, heq⟩ := h.discard (h.shape.bound i e he).1 halone
  refine ⟨c', hc', ⟨l', _, hcached.of_valid (hcached.valid.ask ?_)⟩, heq, nofun, nofun⟩
  rintro x ⟨j, hx⟩ hxd hxn hxid
  have hvId : c'.vId = c.vId := by rw [heq]
  have hncp : c'.ncp = c.ncp := by rw [heq]
  rw [hncp] at hxd hxn hxid
  rw [hvId] at hxid
  obtain ⟨hne, hmem⟩ := h.shape.mem_without.mp hx
  exact hne (h.valid.unique x ⟨j, hmem⟩ e ⟨i, he⟩ _ hxd hd hxid hid (hxn.trans hn.symm))

theorem answers_keep {i : ℕ} (he : e ∈ chain i) (hfor : c.isFor ndp e = true)
    (hdrops : c.drops ndp e ≠ true) :
    Answers c ndp record asked (match (c.ncp e).ncVp with
      | none => (.enoent, ndp, c.moveToEnd e)
      | some vp => (.found, { ndp with niVp := some vp }, c.moveToEnd e)) := by
  obtain ⟨hd, hid, hn⟩ := isFor_iff.mp hfor
  obtain ⟨l', hshape⟩ := h.shape.moveToEnd (h.shape.bound i e he).1
  have hlinks : (c.moveToEnd e).links = c.links := by rw [moveToEnd_eq]
  have hncp : (c.moveToEnd e).ncp = c.ncp := by rw [moveToEnd_eq]
  have heq := moveToEnd_eq c e
  have hmove : Cached (c.moveToEnd e) l' chain record
      (update asked (ndp.niDvp, ndp.niName) false) := by
    have hcached := h.of_shape hshape (by rw [hncp, hlinks]; exact heq) fun i x hx =>
      ⟨hx, by rw [hncp]⟩
    exact hcached.of_valid (hcached.valid.answer _)
  have hframe : c.moveToEnd e = { c with links := (c.moveToEnd e).links, lru := (c.moveToEnd e).lru } := by
    rw [hlinks]
    exact heq
  have hcur := h.valid.current e ⟨i, he⟩ _ hd hid
  rw [hn] at hcur
  rw [Cache.drops] at hdrops
  cases hvp : (c.ncp e).ncVp with
  | none =>
    rw [hvp] at hcur
    exact ⟨⟨l', chain, hmove⟩, hframe, nofun, fun _ => hcur nofun⟩
  | some vp =>
    rw [hvp] at hcur hdrops
    refine ⟨⟨l', chain, hmove⟩, hframe, fun _ => ⟨vp, rfl, hcur ?_⟩, nofun⟩
    intro v hv
    obtain rfl := some.inj hv
    by_contra hne
    refine hdrops ?_
    simp only [bne_iff_ne.mpr hne, Bool.or_true]

theorem lookup (hmeets : ∀ e, c.Alone e → c.find ndp = some (.entry e) → c.drops ndp e = false) :
    ∃ r, c.cacheLookup ndp = some r ∧ Answers c ndp record asked r := by
  by_cases hon : c.doingcache = true
  · by_cases hlen : nchnamlen < ndp.niName.length
    · refine ⟨(.zero, { ndp with niMakeentry := false }, c), ?_, h.answers_zero _ fun i e he => ?_⟩
      · rw [Cache.cacheLookup, hon, if_neg (by decide), if_pos hlen]
      · refine Bool.eq_false_iff.mpr fun hfor => ?_
        have hshort := h.short i e he
        rw [(isFor_iff.mp hfor).2.2] at hshort
        exact absurd hlen (Nat.not_lt.mpr hshort)
    · rw [Cache.cacheLookup, hon, if_neg (by decide), if_neg hlen]
      rcases h.shape.find_cases ndp with ⟨hfind, hnone⟩ | ⟨e, hfind, he, hfor⟩
      · refine ⟨(.zero, ndp, c), by rw [hfind]; rfl, h.answers_zero ndp fun i e he => ?_⟩
        refine Bool.eq_false_iff.mpr fun hfor => ?_
        have hmem := h.mem_nhp he (isFor_iff.mp hfor).2.2
        exact Bool.false_ne_true ((hnone e hmem).symm.trans hfor)
      rw [hfind, bind_some]
      by_cases hdrops : c.drops ndp e = true
      · have halone : ¬ c.Alone e := fun ha =>
          Bool.false_ne_true ((hmeets e ha hfind).symm.trans hdrops)
        obtain ⟨c', hc', hanswers⟩ := h.answers_drop he hfor halone
        refine ⟨(.zero, ndp, c'), ?_, hanswers⟩
        simp only [if_pos hdrops, hc', map_some]
      · refine ⟨_, ?_, h.answers_keep he hfor hdrops⟩
        simp only [if_neg hdrops]
        cases (c.ncp e).ncVp <;> rfl
  · have hoff : c.doingcache = false := by
      rw [Bool.eq_false_iff]
      exact hon
    refine ⟨(.zero, ndp, c), by rw [Cache.cacheLookup, hoff]; rfl, h.answers_zero ndp fun i e he => ?_⟩
    have hlt := (h.shape.bound i e he).1
    rw [h.enabled hoff] at hlt
    exact absurd hlt (Nat.not_lt_zero e)

theorem fill (hlen : ndp.niName.length ≤ nchnamlen) (hask : asked (ndp.niDvp, ndp.niName) = true)
    (hon : c.doingcache = true) (hshape : Shape c' l' chain')
    (heq : c' = { c with
      ncp := update c.ncp e (c.ncpOf ndp)
      numcache := c'.numcache
      links := c'.links
      lru := c'.lru })
    (hsub : ∀ i, ∀ x ∈ chain' i, (i = c.nhp ndp ∧ x = e) ∨ (x ≠ e ∧ x ∈ chain i)) :
    Cached c' l' chain' (update record (ndp.niDvp, ndp.niName) (some ndp.niVp))
      (update asked (ndp.niDvp, ndp.niName) false) := by
  have hvId : c'.vId = c.vId := by rw [heq]
  have hncp : c'.ncp = update c.ncp e (c.ncpOf ndp) := by rw [heq]
  have hnhp : ∀ ndp, c'.nhp ndp = c.nhp ndp := by
    intro ndp
    rw [Cache.nhp, Cache.nhp]
    rw [heq]
  have hname : ∀ i, ∀ x ∈ chain' i, (i = c.nhp ndp ∧ (c'.ncp x).ncName = ndp.niName) ∨
      (x ∈ chain i ∧ c'.ncp x = c.ncp x) := by
    intro i x hx
    rw [hncp]
    rcases hsub i x hx with ⟨hi, rfl⟩ | ⟨hne, hx⟩
    · rw [update_self]
      exact .inl ⟨hi, rfl⟩
    · exact .inr ⟨hx, update_of_ne hne ..⟩
  refine ⟨hshape, ?_, ?_, ?_, ?_⟩
  · rw [hvId, hncp]
    refine h.valid.enter hask ?_ rfl rfl rfl fun v hv => ?_
    · rintro x ⟨i, hx⟩
      rcases hsub i x hx with ⟨-, heq⟩ | ⟨-, hx⟩
      · exact .inl heq
      · exact .inr ⟨i, hx⟩
    · have hv' : ndp.niVp = some v := hv
      rw [Cache.ncpOf, hv']
  · intro i x hx ndp' hn
    rw [hnhp]
    rcases hname i x hx with ⟨rfl, hnew⟩ | ⟨hx, hsame⟩
    · rw [Cache.nhp, Cache.nhp, Nameidata.niHash, Nameidata.niHash, hn, hnew]
    · rw [hsame] at hn
      exact h.placed i x hx ndp' hn
  · intro i x hx
    rcases hname i x hx with ⟨-, hnew⟩ | ⟨hx, hsame⟩
    · rw [hnew]
      exact hlen
    · rw [hsame]
      exact h.short i x hx
  · intro hoff
    have hd : c'.doingcache = c.doingcache := by rw [heq]
    exact absurd (hon.symm.trans (hd.symm.trans hoff)) (Bool.false_ne_true ∘ Eq.symm)

theorem enter (hlen : ndp.niName.length ≤ nchnamlen) (hask : asked (ndp.niDvp, ndp.niName) = true) :
    ∃ c', c.cacheEnter ndp = some c' ∧ ∃ l' chain', Cached c' l' chain'
      (update record (ndp.niDvp, ndp.niName) (some ndp.niVp))
      (update asked (ndp.niDvp, ndp.niName) false) := by
  -- a cache without entries stays as it is
  have hempty : c.numcache = 0 → Cached c l chain
      (update record (ndp.niDvp, ndp.niName) (some ndp.niVp))
      (update asked (ndp.niDvp, ndp.niName) false) := by
    intro hzero
    refine h.of_valid (Valid.of_empty ?_)
    rintro e ⟨i, he⟩
    have hlt := (h.shape.bound i e he).1
    rw [hzero] at hlt
    exact Nat.not_lt_zero e hlt
  by_cases hon : c.doingcache = true
  · have hnot : ¬ (!c.doingcache) = true := by
      rw [hon]
      decide
    by_cases hnew : c.numcache < c.desiredvnodes
    · obtain ⟨c', hc', hshape, heq⟩ := h.shape.fill_new hlen
      refine ⟨c', ?_, _, _, h.fill (e := c.numcache) hlen hask hon hshape ?_ fun i x hx => ?_⟩
      · rw [Cache.cacheEnter, if_neg hnot, if_pos hnew, hc']
      · have hnum : c'.numcache = c.numcache + 1 := by rw [heq]
        rw [hnum]
        exact heq
      · rcases Shape.mem_onto.mp hx with hx | hx
        · exact .inl hx
        · exact .inr ⟨(h.shape.bound i x hx).1.ne, hx⟩
    · rw [Cache.cacheEnter, if_neg hnot, if_neg hnew, h.shape.lru.head_eq]
      cases l with
      | nil =>
        refine ⟨c, rfl, [], chain, hempty ?_⟩
        rw [← h.shape.length_eq, length_nil]
      | cons e l =>
        obtain ⟨c', hc', hshape, heq⟩ := h.shape.fill_old hlen
        refine ⟨c', hc', _, _, h.fill (e := e) hlen hask hon hshape ?_ fun i x hx => ?_⟩
        · have hnum : c'.numcache = c.numcache := by rw [heq]
          rw [hnum]
          exact heq
        · rcases Shape.mem_onto.mp hx with hx | hx
          · exact .inl hx
          · exact .inr (h.shape.mem_without.mp hx)
  · have hoff : c.doingcache = false := by
      rw [Bool.eq_false_iff]
      exact hon
    exact ⟨c, by rw [Cache.cacheEnter, hoff]; rfl, l, chain, hempty (h.enabled hoff)⟩

end

/-! ## Purging a vnode -/

/-- What clearing does to an entry. Source: cache_purge -/
def cleared (p : Ncp) : Ncp := { p with ncVpid := 0, ncDvpid := 0 }

theorem clear_entries (ncp : Entry → Ncp) (m : List Entry) (e : Entry) :
    Cache.clear ncp (m.map .entry) e = if e ∈ m then cleared (ncp e) else ncp e := by
  induction m generalizing ncp with
  | nil => rfl
  | cons x m ih =>
    rw [map_cons, Cache.clear, ih]
    by_cases hx : e = x
    · subst hx
      rw [update_self, if_pos mem_cons_self]
      split <;> rfl
    · rw [update_of_ne hx]
      simp only [mem_cons, hx, false_or]

theorem clearChains_spec {n : ℕ} (h : Shape c l chain) (hn : n ≤ c.nchash + 1) :
    ∃ c', c.clearChains n = some c' ∧ c' = { c with ncp := c'.ncp } ∧
      (∀ e, c'.ncp e = c.ncp e ∨ c'.ncp e = cleared (c.ncp e)) ∧
      ∀ i < n, ∀ e ∈ chain i, c'.ncp e = cleared (c.ncp e) := by
  induction n generalizing c with
  | zero => exact ⟨c, rfl, rfl, fun _ => .inl rfl, fun i hi => absurd hi (Nat.not_lt_zero i)⟩
  | succ n ih =>
    have hnodes := h.rings.nodes_eq (Shape.head_mem (Nat.le_of_succ_le_succ hn)) (h.length_lt n)
    obtain ⟨c1, hc1⟩ : ∃ c1, c1 = { c with ncp := Cache.clear c.ncp ((chain n).map .entry) } := ⟨_, rfl⟩
    have hncp : ∀ e, c1.ncp e = if e ∈ chain n then cleared (c.ncp e) else c.ncp e := by
      intro e
      rw [hc1]
      exact clear_entries c.ncp (chain n) e
    have hshape : Shape c1 l chain := by
      rw [hc1]
      exact h.congr rfl rfl rfl rfl
    have hle : n ≤ c1.nchash + 1 := by
      rw [hc1]
      exact Nat.le_of_succ_le hn
    obtain ⟨c', hc', heq, hor, hall⟩ := ih hshape hle
    refine ⟨c', ?_, ?_, fun e => ?_, fun i hi e he => ?_⟩
    · rw [Cache.clearChains, hnodes, bind_some, ring, ← hc1, hc']
    · rw [heq, hc1]
    · rcases hor e with hsame | hsame <;> rw [hsame, hncp] <;> split
      · exact .inr rfl
      · exact .inl rfl
      · exact .inr rfl
      · exact .inr rfl
    · rcases Nat.lt_succ_iff_lt_or_eq.mp hi with hi | rfl
      · rw [hall i hi e he, hncp]
        split <;> rfl
      · rcases hor e with hsame | hsame <;> rw [hsame, hncp, if_pos he]
        rfl

/-- **`cache_purge`**, with a new number that no entry on a chain has recorded for the vnode. -/
theorem purge (h : Cached c l chain record asked) (vp : Vnode)
    (hmeets : c.nextvnodeid + 1 ≠ 0 → ∀ i, ∀ e ∈ chain i,
      ((c.ncp e).ncDvp = some vp → (c.ncp e).ncDvpid ≠ c.nextvnodeid + 1) ∧
        ((c.ncp e).ncVp = some vp → (c.ncp e).ncVpid ≠ c.nextvnodeid + 1)) :
    ∃ c', c.cachePurge vp = some c' ∧ Cached c' l chain (record.keep (Valid.apartFrom vp)) asked := by
  rw [Cache.cachePurge]
  by_cases hid : c.nextvnodeid + 1 ≠ 0
  · rw [if_pos hid]
    refine ⟨_, rfl, h.shape.congr rfl rfl rfl rfl, ?_, h.placed, h.short, h.enabled⟩
    refine h.valid.renumber hid ?_ ?_
    · exact fun e ⟨i, he⟩ => (hmeets hid i e he).1
    · exact fun e ⟨i, he⟩ => (hmeets hid i e he).2
  rw [if_neg hid]
  have hnext : c.nextvnodeid + 1 = 0 := not_not.mp hid
  have hshape : Shape (c.renumber vp) l chain := h.shape.congr rfl rfl rfl rfl
  obtain ⟨c', hc', heq, hor, hall⟩ := clearChains_spec hshape (le_refl _)
  have hname : ∀ e, (c'.ncp e).ncName = (c.ncp e).ncName := by
    intro e
    rcases hor e with hsame | hsame <;> rw [hsame] <;> rfl
  have hchain : ∀ i, ∀ e ∈ chain i, c'.ncp e = cleared (c.ncp e) := fun i e he =>
    hall i (Nat.lt_succ_of_le (h.shape.bound i e he).2) e he
  have hvId : (c'.renumber vp).vId = update c.vId vp 1 := by
    have hv : c'.vId = update c.vId vp (c.nextvnodeid + 1) := by rw [heq]; rfl
    have hn : c'.nextvnodeid = c.nextvnodeid + 1 := by rw [heq]; rfl
    rw [Cache.renumber, hv, hn, hnext, update_idem]
    rfl
  have hrun : (c.renumber vp).clearChains (c.nchash + 1) = some c' := hc'
  refine ⟨c'.renumber vp, by rw [hrun, map_some], ?_, ?_, ?_, ?_, ?_⟩
  · rw [heq]
    exact hshape.congr rfl rfl rfl rfl
  · rw [hvId]
    exact h.valid.wrap (by decide) fun e ⟨i, he⟩ => hchain i e he
  · intro i e he ndp hn
    have hplaced := h.placed i e he ndp (hn.trans (hname e))
    rw [heq]
    exact hplaced
  · intro i e he
    exact (hname e).symm ▸ h.short i e he
  · rw [heq]
    exact h.enabled

/-! ## Purging a file system -/

theorem discard_free (h : Cached c (pre ++ e :: post) chain record asked) (hne : pre ++ post ≠ []) :
    ∃ c', (c.free e).discard e = some c' ∧
      Cached c' (e :: (pre ++ post)) (without chain e) record asked ∧
      c' = { c with
        links := c'.links
        lru := c'.lru
        ncp := update c.ncp e { c.ncp e with ncVp := none, ncDvp := none } } := by
  have hshape : Shape (c.free e) (pre ++ e :: post) chain := h.shape.congr rfl rfl rfl rfl
  obtain ⟨c', hc', hshape', heq⟩ := hshape.discard hne
  have hncp : c'.ncp = update c.ncp e { c.ncp e with ncVp := none, ncDvp := none } := by
    rw [heq]
    rfl
  refine ⟨c', hc', h.of_shape hshape' ?_ fun i x hx => ?_, heq⟩
  · rw [hncp]
    exact heq
  · obtain ⟨hxe, hmem⟩ := h.shape.mem_without.mp hx
    rw [hncp, update_of_ne hxe]
    exact ⟨hmem, rfl⟩

theorem purgeLoop_spec {mp : Mount} {n : ℕ} {done rest : List Entry}
    (h : Cached c (done ++ rest) chain record asked) (hdone : ∀ e ∈ done, c.inVfs mp e = false)
    (hmeets : 2 ≤ c.numcache ∨ ∀ e ∈ rest, c.inVfs mp e = false)
    (hn : rest.countP (c.inVfs mp) * (c.numcache + 1) + rest.length < n) :
    ∃ c', Cache.purgeLoop mp n c rest.head? = some c' ∧
      (∃ l' chain', Cached c' l' chain' record asked ∧ ∀ e ∈ l', c'.inVfs mp e = false) ∧
      c' = { c with links := c'.links, lru := c'.lru, ncp := c'.ncp } := by
  induction n generalizing c chain done rest with
  | zero => exact absurd hn (Nat.not_lt_zero _)
  | succ n ih =>
    cases rest with
    | nil =>
      rw [append_nil] at h
      exact ⟨c, rfl, ⟨done, chain, h, hdone⟩, rfl⟩
    | cons e rest =>
      rw [head?_cons, Cache.purgeLoop]
      by_cases hin : c.inVfs mp e = true
      · -- the freed entry goes to the head, and the loop starts again behind it
        have htwo : 2 ≤ c.numcache := hmeets.resolve_right fun hall =>
          Bool.false_ne_true ((hall e mem_cons_self).symm.trans hin)
        have hlen := h.shape.length_eq
        rw [length_append, length_cons] at hlen
        have hne : done ++ rest ≠ [] := by
          intro hnil
          have hzero := congrArg length hnil
          rw [length_append, length_nil] at hzero
          omega
        have hhead := h.shape.lru.unlink.head_eq
        obtain ⟨c', hc', hcached, heq⟩ := h.discard_free hne
        have hnot : e ∉ done ++ rest := (nodup_middle.mp h.shape.lru.nodup).notMem
        have hsame : ∀ x ∈ done ++ rest, c'.inVfs mp x = c.inVfs mp x := by
          intro x hx
          have hxe : x ≠ e := ne_of_mem_of_not_mem hx hnot
          rw [heq, Cache.inVfs, Cache.inVfs]
          simp only [update_of_ne hxe]
        have hself : c'.inVfs mp e = false := by
          rw [heq, Cache.inVfs]
          simp only [update_self]
        have hnum : c'.numcache = c.numcache := by rw [heq]
        have hcount : (done ++ rest).countP (c'.inVfs mp) = rest.countP (c.inVfs mp) := by
          rw [countP_congr fun x hx => by rw [hsame x hx], countP_append,
            countP_eq_zero.mpr fun x hx => by rw [hdone x hx]; exact Bool.false_ne_true, Nat.zero_add]
        rw [countP_cons_of_pos hin, Nat.succ_mul, length_cons] at hn
        rw [if_pos hin, hc', bind_some, hhead]
        obtain ⟨c'', hc'', hres, heq'⟩ := ih (show Cached c' ([e] ++ (done ++ rest)) _ _ _ from hcached)
          (fun x hx => (mem_singleton.mp hx) ▸ hself) (.inl (hnum ▸ htwo))
          (by rw [hcount, hnum, length_append]; omega)
        refine ⟨c'', hc'', hres, ?_⟩
        rw [heq', heq]
      · have hout : c.inVfs mp e = false := Bool.eq_false_iff.mpr hin
        rw [if_neg hin, h.shape.lru.next_eq]
        rw [countP_cons_of_neg hin, length_cons] at hn
        rw [append_cons] at h
        refine ih h (fun x hx => ?_) (hmeets.imp_right fun hall x hx => hall x (.tail _ hx)) (by omega)
        rcases mem_append.mp hx with hx | hx
        · exact hdone x hx
        · rw [mem_singleton.mp hx]
          exact hout

theorem purgevfs (h : Cached c l chain record asked) (mp : Mount)
    (hmeets : ∀ e, c.Alone e → c.inVfs mp e = false) :
    ∃ c', c.cachePurgevfs mp = some c' ∧ ∃ l' chain', Cached c' l' chain'
      (record.keep fun d _ => c.vMount d != mp) asked := by
  have hlen := h.shape.length_eq
  have htwo : 2 ≤ c.numcache ∨ ∀ e ∈ l, c.inVfs mp e = false := by
    rcases l with - | ⟨e, - | ⟨e', l⟩⟩
    · exact .inr fun e he => absurd he not_mem_nil
    · refine .inr fun x hx => ?_
      rw [mem_singleton.mp hx]
      have hlru : c.lru.Holds ([] ++ e :: []) := h.shape.lru
      exact hmeets e ⟨hlru.head_eq, hlru.next_eq⟩
    · refine .inl ?_
      rw [← hlen, length_cons, length_cons]
      omega
  have hfuel : l.countP (c.inVfs mp) * (c.numcache + 1) + l.length < (c.numcache + 1) * (c.numcache + 1) := by
    have hcount : l.countP (c.inVfs mp) ≤ c.numcache := hlen ▸ countP_le_length
    have hmul := Nat.mul_le_mul_right (c.numcache + 1) hcount
    rw [Nat.succ_mul, hlen]
    omega
  obtain ⟨c', hc', ⟨l', chain', hcached, hgone⟩, heq⟩ :=
    purgeLoop_spec (show Cached c ([] ++ l) chain record asked from h) (fun e he => absurd he not_mem_nil) htwo hfuel
  refine ⟨c', by rw [Cache.cachePurgevfs, h.shape.lru.head_eq, hc'], l', chain', hcached.of_valid ?_⟩
  refine hcached.valid.forget ?_
  rintro e ⟨i, he⟩ d hd
  have hout := hgone e ((hcached.shape.mem e).mpr (hcached.shape.bound i e he).1)
  rw [Cache.inVfs, hd] at hout
  have hmount : c'.vMount = c.vMount := by rw [heq]
  rw [hmount] at hout
  exact bne_iff_ne.mpr (beq_eq_false_iff_ne.mp hout)

/-! ## The only entry -/

theorem discard_alone (h : Shape c l chain) (he : e ∈ l) (halone : c.Alone e) : c.discard e = none := by
  obtain ⟨pre, post, rfl⟩ := append_of_mem he
  obtain ⟨hhead, hnext⟩ := halone
  rw [h.lru.next_eq, head?_eq_none_iff] at hnext
  subst hnext
  have hpre : pre = [] := by
    cases pre with
    | nil => rfl
    | cons x pre =>
      rw [h.lru.head_eq] at hhead
      obtain rfl : x = e := some.inj hhead
      exact absurd mem_append_cons_self (nodup_cons.mp h.lru.nodup).1
  subst hpre
  obtain ⟨k', hk', -⟩ := h.remque ((h.mem e).mp he)
  rw [Cache.discard, hk', bind_some, h.lru.unlink.push_nil, map_none]

/-- **`cache_lookup` returns** unless it drops the only entry there is. -/
theorem lookup_isSome_iff (h : Cached c l chain record asked) :
    (c.cacheLookup ndp).isSome = true ↔
      ∀ e, c.Alone e → c.find ndp = some (.entry e) → c.drops ndp e = false := by
  constructor
  · intro hsome e halone hfind
    rcases h.shape.find_cases ndp with ⟨hfind', -⟩ | ⟨e', hfind', he, hfor⟩
    · exact absurd (hfind.symm.trans hfind') nofun
    obtain rfl := Node.entry.inj (some.inj (hfind.symm.trans hfind'))
    have hlt := (h.shape.bound _ e he).1
    have hon : ¬ (!c.doingcache) = true := by
      intro hoff
      rw [h.enabled (by simpa using hoff)] at hlt
      exact Nat.not_lt_zero e hlt
    have hlen : ¬ nchnamlen < ndp.niName.length := by
      rw [← (isFor_iff.mp hfor).2.2]
      exact Nat.not_lt.mpr (h.short _ e he)
    by_contra hdrops
    rw [Cache.cacheLookup, if_neg hon, if_neg hlen, hfind, bind_some] at hsome
    simp only [if_pos (Bool.eq_true_of_not_eq_false hdrops),
      discard_alone h.shape ((h.shape.mem e).mpr hlt) halone, map_none] at hsome
    exact Bool.false_ne_true hsome
  · intro hmeets
    obtain ⟨r, hr, -⟩ := h.lookup hmeets
    rw [hr, isSome_some]

/-- **`cache_purgevfs` returns** unless the only entry there is is of the file system. -/
theorem purgevfs_isSome_iff (h : Cached c l chain record asked) (mp : Mount) :
    (c.cachePurgevfs mp).isSome = true ↔ ∀ e, c.Alone e → c.inVfs mp e = false := by
  constructor
  · intro hsome e halone
    by_contra hin
    have he : e ∈ l := by
      have hhead := halone.1
      rw [h.shape.lru.head_eq] at hhead
      exact mem_of_head? hhead
    have hshape : Shape (c.free e) l chain := h.shape.congr rfl rfl rfl rfl
    obtain ⟨n, hn⟩ : ∃ n, (c.numcache + 1) * (c.numcache + 1) = n + 1 :=
      ⟨_, (Nat.succ_pred_eq_of_pos (Nat.mul_pos (Nat.succ_pos _) (Nat.succ_pos _))).symm⟩
    rw [Cache.cachePurgevfs, hn, halone.1, Cache.purgeLoop, if_pos (Bool.eq_true_of_not_eq_false hin),
      discard_alone hshape he halone, bind_none] at hsome
    exact Bool.false_ne_true hsome
  · intro hmeets
    obtain ⟨c', hc', -⟩ := h.purgevfs mp hmeets
    rw [hc', isSome_some]

end Cached

end Bsd386.Kern.Namecache
