import Bsd386.Kern.Namecache.Calls
import Bsd386.Lib.Transition

/-!
# The name cache over whole runs

In every state that calls meeting `Meets` reach from `nchinit`, the lists are in shape, the next such call
returns, and a lookup that finds out gives what is recorded (`lookup_sound_of_reach`).

The lookup of the only entry of the cache for a rename or a deletion, which is not to keep it, goes through
the null head of the LRU list it has just emptied (`not_lookup_sound`).
-/

namespace Bsd386.Kern.Namecache

open Lib.Bytes Lib.Tailq Lib.Transition List Option

/-- The cache, what is recorded, and the names whose latest call was a lookup that returned 0. -/
structure State where
  cache : Cache
  record : Record
  asked : Vnode × List Byte → Bool

/-- A call, or a vnode that is given to another file system. -/
inductive Call where
  | lookup (ndp : Nameidata)
  | enter (ndp : Nameidata)
  | purge (vp : Vnode)
  | purgevfs (mp : Mount)
  | mount (vp : Vnode) (mp : Mount)

namespace State

/-- One call; `none` is a write through a null pointer or past an entry. -/
def exec (s : State) : Call → Option State
  | .lookup ndp => (s.cache.cacheLookup ndp).map fun r =>
    ⟨r.2.2, s.record, Function.update s.asked (ndp.niDvp, ndp.niName) (r.1 == .zero)⟩
  | .enter ndp => (s.cache.cacheEnter ndp).map fun c =>
    ⟨c, Function.update s.record (ndp.niDvp, ndp.niName) (some ndp.niVp),
      Function.update s.asked (ndp.niDvp, ndp.niName) false⟩
  | .purge vp => (s.cache.cachePurge vp).map fun c => ⟨c, s.record.keep (Valid.apartFrom vp), s.asked⟩
  | .purgevfs mp => (s.cache.cachePurgevfs mp).map fun c =>
    ⟨c, s.record.keep fun d _ => s.cache.vMount d != mp, s.asked⟩
  | .mount vp mp =>
    some ⟨{ s.cache with vMount := Function.update s.cache.vMount vp mp }, s.record, s.asked⟩

/-- A name is entered when the latest call for it was a lookup that returned 0 and left `ni_makeentry` set,
which it clears for a name over `NCHNAMLEN`. Source: ufs_lookup -/
def Allowed (s : State) : Call → Prop
  | .enter ndp => s.asked (ndp.niDvp, ndp.niName) = true ∧ ndp.niName.length ≤ nchnamlen
  | _ => True

/-- The cache after `nchinit`. Source: nchinit -/
def IsInitial (s : State) : Prop := ∃ n on id vId vMount,
  s = ⟨Cache.nchinit n on id vId vMount, fun _ => none, fun _ => false⟩

def Next (P : Cache → Call → Prop) (s s' : State) : Prop :=
  ∃ call, s.Allowed call ∧ P s.cache call ∧ s.exec call = some s'

end State

/-- When a call does what it should: what it takes off the LRU list is not alone there, and the number it
gives to a vnode is not one that an entry on a chain has recorded for it.
Source: cache_lookup, cache_purge, cache_purgevfs -/
def Meets (c : Cache) : Call → Prop
  | .lookup ndp => ∀ e, c.Alone e → c.find ndp = some (.entry e) → c.drops ndp e = false
  | .purge vp => c.nextvnodeid + 1 ≠ 0 → ∀ e, c.links.forw (.entry e) ≠ .entry e →
      ((c.ncp e).ncDvp = some vp → (c.ncp e).ncDvpid ≠ c.nextvnodeid + 1) ∧
        ((c.ncp e).ncVp = some vp → (c.ncp e).ncVpid ≠ c.nextvnodeid + 1)
  | .purgevfs mp => ∀ e, c.Alone e → c.inVfs mp e = false
  | .enter _ => True
  | .mount _ _ => True

/-- The name cache as it should be, for calls that meet a condition. -/
structure Sound (P : Cache → Call → Prop) (s : State) : Prop where
  /-- the LRU list from `nchhead` has every allocated entry once, with `nc_prev` and `nchtail` right. -/
  lru : ∃ l, s.cache.lru.Holds l ∧ l.Perm (List.range s.cache.numcache)
  /-- the hash chains lead back to their heads, both ways, and an entry is on at most one, once. -/
  chains : ∃ chain : ℕ → List Entry,
    (∀ i ≤ s.cache.nchash, s.cache.links.Seg (.head i) ((chain i).map .entry) (.head i) ∧
      (chain i).Nodup) ∧
    ∀ i j e, e ∈ chain i → e ∈ chain j → i = j
  /-- a lookup that returns -1 gives the vnode that is recorded. -/
  found : ∀ ndp ndp' c', P s.cache (.lookup ndp) → s.cache.cacheLookup ndp = some (.found, ndp', c') →
    ∃ vp, ndp'.niVp = some vp ∧ s.record (ndp.niDvp, ndp.niName) = some (some vp)
  /-- a lookup that returns `ENOENT` is for a name recorded not to be there. -/
  enoent : ∀ ndp ndp' c', P s.cache (.lookup ndp) → s.cache.cacheLookup ndp = some (.enoent, ndp', c') →
    s.record (ndp.niDvp, ndp.niName) = some none
  /-- the next call returns. -/
  returns : ∀ call, s.Allowed call → P s.cache call → (s.exec call).isSome = true

variable {s s' : State} {call : Call} {c : Cache} {l : List Entry} {chain : ℕ → List Entry} {e : Entry}

theorem Shape.forw_ne (h : Shape c l chain) {i : ℕ} (he : e ∈ chain i) :
    c.links.forw (.entry e) ≠ .entry e := by
  have hi := (h.bound i e he).2
  obtain ⟨pre, post, hsplit⟩ := append_of_mem he
  have hseg := h.rings.seg (.head i) (Shape.head_mem hi)
  have hnodup := h.nodup i
  rw [ring, hsplit, map_append, map_cons] at hseg
  rw [hsplit] at hnodup
  rw [(Lib.Insque.Links.seg_append.mp hseg).2.forw_eq]
  cases post with
  | nil => exact Node.noConfusion
  | cons x post =>
    intro heq
    obtain rfl : x = e := Node.entry.inj heq
    exact (nodup_cons.mp (nodup_append.mp hnodup).2.1).1 mem_cons_self

theorem Cached.step (h : Cached s.cache l chain s.record s.asked) (hallowed : s.Allowed call)
    (hmeets : Meets s.cache call) :
    ∃ s', s.exec call = some s' ∧ ∃ l' chain', Cached s'.cache l' chain' s'.record s'.asked := by
  cases call with
  | lookup ndp =>
    obtain ⟨r, hr, ⟨l', chain', hcached⟩, -⟩ := h.lookup hmeets
    exact ⟨_, by rw [State.exec, hr, map_some], l', chain', hcached⟩
  | enter ndp =>
    obtain ⟨c', hc', l', chain', hcached⟩ := h.enter hallowed.2 hallowed.1
    exact ⟨_, by rw [State.exec, hc', map_some], l', chain', hcached⟩
  | purge vp =>
    obtain ⟨c', hc', hcached⟩ := h.purge vp fun hid i e he => hmeets hid e (h.shape.forw_ne he)
    exact ⟨_, by rw [State.exec, hc', map_some], l, chain, hcached⟩
  | purgevfs mp =>
    obtain ⟨c', hc', l', chain', hcached⟩ := h.purgevfs mp hmeets
    exact ⟨_, by rw [State.exec, hc', map_some], l', chain', hcached⟩
  | mount vp mp =>
    exact ⟨_, rfl, l, chain, h.shape.congr rfl rfl rfl rfl, h.valid, h.placed, h.short, h.enabled⟩

theorem cached_of_reach (h : Reach State.IsInitial (State.Next Meets) s) :
    ∃ l chain, Cached s.cache l chain s.record s.asked := by
  refine h.invariant (I := fun s => ∃ l chain, Cached s.cache l chain s.record s.asked)
    (fun s hs => ?_) fun s s' _ hcached hnext => ?_
  · obtain ⟨n, on, id, vId, vMount, rfl⟩ := hs
    refine ⟨[], fun _ => [], Shape.nchinit n on id vId vMount, Valid.of_empty ?_, ?_, ?_, fun _ => rfl⟩
    · exact fun e ⟨_, he⟩ => not_mem_nil he
    · exact fun _ e he => absurd he not_mem_nil
    · exact fun _ e he => absurd he not_mem_nil
  · obtain ⟨l, chain, hs⟩ := hcached
    obtain ⟨call, hallowed, hmeets, hexec⟩ := hnext
    obtain ⟨s'', hexec', hs''⟩ := hs.step hallowed hmeets
    obtain rfl := some.inj (hexec.symm.trans hexec')
    exact hs''

theorem Cached.sound (h : Cached s.cache l chain s.record s.asked) : Sound Meets s := by
  refine ⟨⟨l, h.shape.lru, ?_⟩, ⟨chain, fun i hi => ⟨?_, h.shape.nodup i⟩, ?_⟩, ?_, ?_, ?_⟩
  · refine (perm_ext_iff_of_nodup h.shape.lru.nodup nodup_range).mpr fun e => ?_
    rw [h.shape.mem, mem_range]
  · exact h.shape.rings.seg (.head i) (Shape.head_mem hi)
  · exact fun i j e hi hj => h.shape.unique hi hj
  · intro ndp ndp' c' hmeets heq
    obtain ⟨r, hr, -, -, hfound, -⟩ := h.lookup hmeets
    obtain rfl := some.inj (hr.symm.trans heq)
    exact hfound rfl
  · intro ndp ndp' c' hmeets heq
    obtain ⟨r, hr, -, -, -, henoent⟩ := h.lookup hmeets
    obtain rfl := some.inj (hr.symm.trans heq)
    exact henoent rfl
  · intro call hallowed hmeets
    obtain ⟨s', hs', -⟩ := h.step hallowed hmeets
    rw [hs', isSome_some]

/-- **Name cache soundness.** In every state reached from `nchinit` by calls that meet the condition, the
lists are in shape, lookups give what is recorded, and the next such call returns. Kind: P. -/
theorem lookup_sound_of_reach (h : Reach State.IsInitial (State.Next Meets) s) : Sound Meets s := by
  obtain ⟨l, chain, hcached⟩ := cached_of_reach h
  exact hcached.sound

theorem isSome_iff_of_ne (hsome : (s.exec call).isSome = true) (hlookup : ∀ ndp, call ≠ .lookup ndp)
    (hpurgevfs : ∀ mp, call ≠ .purgevfs mp) : (s.exec call).isSome = true ↔
      (∀ ndp, call = .lookup ndp → Meets s.cache call) ∧ ∀ mp, call = .purgevfs mp → Meets s.cache call :=
  iff_of_true hsome ⟨fun ndp heq => absurd heq (hlookup ndp), fun mp heq => absurd heq (hpurgevfs mp)⟩

/-- A cache for four vnodes. Source: nchinit -/
def boot : State := ⟨Cache.nchinit 4 true 0 (fun v => BitVec.ofNat 32 v) fun _ => 0, fun _ => none, fun _ => false⟩

/-- The name `a` in the directory 1. -/
def nameA (op : Nameiop) (makeentry : Bool) (vp : Option Vnode) : Nameidata := ⟨1, [97], op, makeentry, vp⟩

/-- A name that is looked up, entered and found. Kind: C -/
theorem lookup_sound_found : ∃ s, Sound Meets s ∧
    (s.cache.cacheLookup (nameA .lookup true none)).map (fun r => (r.1, r.2.1.niVp)) =
      some (.found, some 2) := by
  obtain ⟨s1, hs1⟩ : ∃ s1, s1 = (boot.exec (.lookup (nameA .lookup true none))).get (by decide) := ⟨_, rfl⟩
  obtain ⟨s2, hs2⟩ : ∃ s2, s2 = (s1.exec (.enter (nameA .lookup true (some 2)))).get
    (by rw [hs1]; decide) := ⟨_, rfl⟩
  have hmiss : State.Next Meets boot s1 := by
    refine ⟨.lookup (nameA .lookup true none), trivial, fun e halone => absurd halone.1 nofun, ?_⟩
    rw [hs1, some_get]
  have henter : State.Next Meets s1 s2 := by
    refine ⟨.enter (nameA .lookup true (some 2)), ⟨?_, by decide⟩, trivial, ?_⟩
    · rw [hs1]
      decide
    · rw [hs2, some_get]
  have hreach : Reach State.IsInitial (State.Next Meets) s2 :=
    .step (.step (.start ⟨_, _, _, _, _, rfl⟩) hmiss) henter
  refine ⟨s2, lookup_sound_of_reach hreach, ?_⟩
  subst hs2 hs1
  decide

/-- The only entry of the cache is looked up and not to be kept: the lookup does not return.
Source: cache_lookup. Kind: C -/
theorem not_lookup_sound : ¬ ∀ s, Reach State.IsInitial (State.Next fun _ _ => True) s →
    Sound (fun _ _ => True) s := by
  intro h
  obtain ⟨s1, hs1⟩ : ∃ s1, s1 = (boot.exec (.lookup (nameA .lookup true none))).get (by decide) := ⟨_, rfl⟩
  obtain ⟨s2, hs2⟩ : ∃ s2, s2 = (s1.exec (.enter (nameA .lookup true (some 2)))).get
    (by rw [hs1]; decide) := ⟨_, rfl⟩
  have hmiss : State.Next (fun _ _ => True) boot s1 := by
    refine ⟨.lookup (nameA .lookup true none), trivial, trivial, ?_⟩
    rw [hs1, some_get]
  have henter : State.Next (fun _ _ => True) s1 s2 := by
    refine ⟨.enter (nameA .lookup true (some 2)), ⟨?_, by decide⟩, trivial, ?_⟩
    · rw [hs1]
      decide
    · rw [hs2, some_get]
  have hreach : Reach State.IsInitial (State.Next fun _ _ => True) s2 :=
    .step (.step (.start ⟨_, _, _, _, _, rfl⟩) hmiss) henter
  have hreturns := (h s2 hreach).returns (.lookup (nameA .rename false none)) trivial trivial
  subst hs2 hs1
  exact absurd hreturns (by decide)

end Bsd386.Kern.Namecache
