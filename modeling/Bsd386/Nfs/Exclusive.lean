import Bsd386.Nfs.Srvcache
import Mathlib.Data.List.Nodup

/-!
# At most one execution of a request

`Exclusive`: no two entries of the cache answer to one request, no two servers do the same request, and
the entry that a server finds or holds was taken for its own request.

The cache does not keep this in every run. It takes the least recently used entry even when the request
in it is still being done; after a sleep it takes the entry without looking for the request again; and
the address of an entry is read from an mbuf that may be another client's by then. `Ok` excludes these
steps, and the addresses that never match.
-/

namespace Bsd386.Nfs

open Function Lib List Option

/-! ## What is claimed -/

/-- The request a server has in hand. Source: nfssvc -/
def Pc.req : Pc → Option Request
  | .idle => none
  | .look r | .tail r _ | .copying r _ | .doing r _ | .updating r _ _ _ _ | .saving r _ _ |
    .leaving r => some r

/-- The request that a server was told to do and has not yet updated the cache for.
Source: none: what is claimed -/
def Pc.executing : Pc → Option Request
  | .doing r true | .updating r true _ _ _ => some r
  | _ => none

/-- The entry that a server has locked. -/
def Pc.holding : Pc → Option (Request × ℕ)
  | .copying r i | .saving r i _ => some (r, i)
  | _ => none

/-- Entry `i` is in the cache. -/
def Chained (s : State) (i : ℕ) : Prop := ∃ h, i ∈ s.chain h

/-- At most one entry for a request, at most one execution of it, and everyone uses his own entry.
Source: none: what is claimed -/
structure Exclusive (s : State) : Prop where
  entry : ∀ r i j, Chained s i → Chained s j → s.hits r i → s.hits r j → i = j
  made : ∀ i j, Chained s i → Chained s j → (s.entries i).made = (s.entries j).made → i = j
  execution : ∀ t u r r', (s.pc t).executing = some r → (s.pc u).executing = some r' →
    s.key r = s.key r' → t = u
  found : ∀ t r i, (s.pc t).req = some r → s.lookup r = some i → (s.entries i).made = s.key r
  held : ∀ t r i, (s.pc t).holding = some (r, i) → (s.entries i).made = s.key r

/-- The steps that are not excluded. An mbuf into which an entry of the cache points is written only
with the address that the entry was taken for; clients have Internet addresses; an entry is taken only
when the request in it is not being done, and after a sleep only when the request still has none; a
request for another program does not update the entry of one that is being done. -/
def Ok (s : State) : Action → Prop
  | .store m a => ∀ i, Chained s i → (s.entries i).nam = m → (s.entries i).made.addr = a
  | .arrive _ r => (s.mem r.nam).family = afInet
  | .skip _ nam _ => (s.mem nam).family = afInet
  | .finish _ _ _ _ => True
  | .go t =>
    match s.pc t with
    | .look r => s.lookup r = none → ∀ i ∈ s.lru.getLast?, (s.entries i).locked = false →
        (s.entries i).state ≠ .inprog
    | .tail r i => (s.entries i).locked = false → (s.entries i).state ≠ .inprog ∧ s.lookup r = none
    | .updating r false _ _ _ => ∀ i, s.lookup r = some i → (s.entries i).state ≠ .inprog
    | _ => True

/-! ## The invariant -/

/-- What an entry of the chain `h` looks like. -/
structure Filed (s : State) (h : BitVec 32) (i : ℕ) : Prop where
  hash : nfsrchash (s.entries i).xid = h
  addr : s.mem (s.entries i).nam = (s.entries i).made.addr
  xid : (s.entries i).xid = (s.entries i).made.xid
  proc : (s.entries i).proc = (s.entries i).made.proc
  inet : (s.entries i).made.addr.family = afInet
  used : (s.entries i).state ≠ .unused

/-- The invariant of the runs. -/
structure Inv (s : State) : Prop where
  lru : s.lru ≠ []
  nodup : ∀ h, (s.chain h).Nodup
  filed : ∀ h, ∀ i ∈ s.chain h, Filed s h i
  made : ∀ i j, Chained s i → Chained s j → (s.entries i).made = (s.entries j).made → i = j
  inprog : ∀ t r, (s.pc t).executing = some r →
    ∃ i, Chained s i ∧ (s.entries i).made = s.key r ∧ (s.entries i).state = .inprog
  single : ∀ t u r r', (s.pc t).executing = some r → (s.pc u).executing = some r' →
    s.key r = s.key r' → t = u
  held : ∀ t r i, (s.pc t).holding = some (r, i) →
    Chained s i ∧ (s.entries i).locked = true ∧ (s.entries i).made = s.key r
  holder : ∀ t u r r' i, (s.pc t).holding = some (r, i) → (s.pc u).holding = some (r', i) → t = u
  busy : ∀ t r, (s.pc t).req = some r → s.busy r.nam = true ∧ (s.mem r.nam).family = afInet
  nam : ∀ t u r r', (s.pc t).req = some r → (s.pc u).req = some r' → r.nam = r'.nam → t = u

theorem Pc.req_of_executing {p : Pc} {r : Request} (h : p.executing = some r) : p.req = some r := by
  unfold Pc.executing at h
  split at h
  · exact h
  · exact h
  · cases h

theorem Pc.req_of_holding {p : Pc} {r : Request} {i : ℕ} (h : p.holding = some (r, i)) :
    p.req = some r := by
  unfold Pc.holding at h
  split at h
  · rw [Pc.req, (Prod.mk.inj (some.inj h)).1]
  · rw [Pc.req, (Prod.mk.inj (some.inj h)).1]
  · cases h

theorem netaddrMatch_iff {a b : Sockaddr} (ha : a.family = afInet) :
    netaddrMatch a b = true ↔ a = b := by
  unfold netaddrMatch
  constructor
  · intro h
    by_cases hf : a.family ≠ b.family
    · rw [if_pos hf] at h
      cases h
    · rw [if_neg hf, if_pos ha] at h
      exact Sockaddr.ext (not_not.mp hf) (of_decide_eq_true h)
  · rintro rfl
    rw [if_neg (not_not.mpr rfl), if_pos ha]
    exact decide_eq_true rfl

theorem family_of_netaddrMatch {a b : Sockaddr} (h : netaddrMatch a b = true) : a.family = afInet := by
  by_contra hf
  unfold netaddrMatch at h
  rw [if_neg hf, ite_self] at h
  cases h

namespace Inv

variable {s : State}

section

variable {r : Request} (h : Inv s) (hr : (s.mem r.nam).family = afInet)
include h hr

theorem hits_iff {i : ℕ} (hi : Chained s i) : s.hits r i = true ↔ (s.entries i).made = s.key r := by
  obtain ⟨b, hb⟩ := hi
  have hf := h.filed b i hb
  unfold State.hits State.key
  rw [Bool.and_eq_true, Bool.and_eq_true, decide_eq_true_iff, decide_eq_true_iff, netaddrMatch_iff hr,
    hf.addr, hf.xid, hf.proc]
  constructor
  · rintro ⟨⟨hx, hp⟩, ha⟩
    rw [hx, hp, ha]
  · intro hm
    rw [hm]
    exact ⟨⟨rfl, rfl⟩, rfl⟩

theorem of_lookup {i : ℕ} (hi : s.lookup r = some i) : Chained s i ∧ (s.entries i).made = s.key r := by
  have hmem : Chained s i := ⟨_, mem_of_find?_eq_some hi⟩
  exact ⟨hmem, (h.hits_iff hr hmem).mp (find?_some hi)⟩

theorem made_ne_of_lookup (hnone : s.lookup r = none) {i : ℕ} (hi : Chained s i) :
    (s.entries i).made ≠ s.key r := by
  intro hm
  obtain ⟨b, hb⟩ := hi
  have hf := h.filed b i hb
  have hhash : nfsrchash r.xid = b := by
    rw [← hf.hash, hf.xid, hm]
    rfl
  rw [← hhash] at hb
  exact find?_eq_none.mp hnone i hb ((h.hits_iff hr ⟨_, hb⟩).mpr hm)

end

theorem exclusive (h : Inv s) : Exclusive s where
  entry := by
    intro r i j hi hj hri hrj
    have hr : (s.mem r.nam).family = afInet := by
      exact family_of_netaddrMatch (Bool.and_eq_true_iff.mp hri).2
    exact h.made i j hi hj (((h.hits_iff hr hi).mp hri).trans ((h.hits_iff hr hj).mp hrj).symm)
  made := h.made
  execution := h.single
  found := fun t r _ hr hi => (h.of_lookup (h.busy t r hr).2 hi).2
  held := fun t r i hi => (h.held t r i hi).2.2

end Inv

/-! ## Changes of one entry and one server -/

/-- Entry `i` and the place of server `t` change. -/
def State.touch (s : State) (i t : ℕ) (e : Entry) (p : Pc) (l : List ℕ) (w : ℕ → Option ℕ) : State :=
  { s with
    entries := update s.entries i e
    pc := update s.pc t p
    lru := l
    wchan := w }

/-- Two contents of an entry are for the same request. -/
structure Entry.Same (e e' : Entry) : Prop where
  nam : e'.nam = e.nam
  xid : e'.xid = e.xid
  proc : e'.proc = e.proc
  made : e'.made = e.made

section touch

variable {s : State} {i t : ℕ} {e : Entry} {p : Pc} {l : List ℕ} {w : ℕ → Option ℕ}

@[simp] theorem touch_entries_self : (s.touch i t e p l w).entries i = e := update_self _ _ _

@[simp] theorem touch_pc_self : (s.touch i t e p l w).pc t = p := update_self _ _ _

theorem touch_entries_of_ne {j : ℕ} (hj : j ≠ i) : (s.touch i t e p l w).entries j = s.entries j :=
  update_of_ne hj _ _

theorem touch_pc_of_ne {u : ℕ} (hu : u ≠ t) : (s.touch i t e p l w).pc u = s.pc u :=
  update_of_ne hu _ _

theorem same_touch (he : (s.entries i).Same e) (j : ℕ) :
    (s.entries j).Same ((s.touch i t e p l w).entries j) := by
  by_cases hj : j = i
  · subst hj
    rw [touch_entries_self]
    exact he
  · rw [touch_entries_of_ne hj]
    exact ⟨rfl, rfl, rfl, rfl⟩

theorem Inv.touch (h : Inv s) (hl : l ≠ []) (he : (s.entries i).Same e)
    (hused : Chained s i → e.state ≠ .unused) (hreq : p.req = (s.pc t).req)
    (hown : ∀ r, p.executing = some r →
      (∃ j, Chained s j ∧ (s.entries j).made = s.key r ∧
        (update s.entries i e j).state = .inprog) ∧
      ∀ u r', u ≠ t → (s.pc u).executing = some r' → s.key r ≠ s.key r')
    (hother : ∀ u r, u ≠ t → (s.pc u).executing = some r → (s.entries i).made = s.key r →
      (s.entries i).state = .inprog → e.state = .inprog)
    (hlock : ∀ u r, u ≠ t → (s.pc u).holding = some (r, i) → e.locked = true)
    (hheld : ∀ r j, p.holding = some (r, j) → j = i ∧ Chained s i ∧ e.locked = true ∧
      (s.entries i).made = s.key r ∧ ∀ u r', u ≠ t → (s.pc u).holding ≠ some (r', i)) :
    Inv (s.touch i t e p l w) := by
  have hsame := fun j => same_touch (t := t) (p := p) (l := l) (w := w) he j
  have hreqs : ∀ u, ((s.touch i t e p l w).pc u).req = (s.pc u).req := by
    intro u
    by_cases hu : u = t
    · rw [hu, touch_pc_self, hreq]
    · rw [touch_pc_of_ne hu]
  refine ⟨hl, h.nodup, ?_, ?_, ?_, ?_, ?_, ?_, ?_, ?_⟩
  · intro b j hj
    have hf := h.filed b j hj
    refine ⟨?_, ?_, ?_, ?_, ?_, ?_⟩
    · rw [(hsame j).xid]
      exact hf.hash
    · rw [(hsame j).nam, (hsame j).made]
      exact hf.addr
    · rw [(hsame j).xid, (hsame j).made]
      exact hf.xid
    · rw [(hsame j).proc, (hsame j).made]
      exact hf.proc
    · rw [(hsame j).made]
      exact hf.inet
    · by_cases hji : j = i
      · subst hji
        rw [touch_entries_self]
        exact hused ⟨b, hj⟩
      · rw [touch_entries_of_ne hji]
        exact hf.used
  · intro j k hj hk hjk
    rw [(hsame j).made, (hsame k).made] at hjk
    exact h.made j k hj hk hjk
  · intro u r hu
    by_cases hut : u = t
    · rw [hut, touch_pc_self] at hu
      obtain ⟨⟨j, hj, hm, hst⟩, -⟩ := hown r hu
      exact ⟨j, hj, (hsame j).made.trans hm, hst⟩
    rw [touch_pc_of_ne hut] at hu
    obtain ⟨j, hj, hm, hst⟩ := h.inprog u r hu
    refine ⟨j, hj, (hsame j).made.trans hm, ?_⟩
    by_cases hji : j = i
    · subst hji
      rw [touch_entries_self]
      exact hother u r hut hu hm hst
    · rw [touch_entries_of_ne hji]
      exact hst
  · intro u v r r' hu hv hk
    by_cases hut : u = t
    · by_cases hvt : v = t
      · rw [hut, hvt]
      · rw [hut, touch_pc_self] at hu
        rw [touch_pc_of_ne hvt] at hv
        exact absurd hk ((hown r hu).2 v r' hvt hv)
    rw [touch_pc_of_ne hut] at hu
    by_cases hvt : v = t
    · rw [hvt, touch_pc_self] at hv
      exact absurd hk.symm ((hown r' hv).2 u r hut hu)
    · rw [touch_pc_of_ne hvt] at hv
      exact h.single u v r r' hu hv hk
  · intro u r j hu
    by_cases hut : u = t
    · rw [hut, touch_pc_self] at hu
      obtain ⟨rfl, hj, hlk, hm, -⟩ := hheld r j hu
      refine ⟨hj, ?_, (hsame j).made.trans hm⟩
      rw [touch_entries_self]
      exact hlk
    rw [touch_pc_of_ne hut] at hu
    obtain ⟨hj, hlk, hm⟩ := h.held u r j hu
    refine ⟨hj, ?_, (hsame j).made.trans hm⟩
    by_cases hji : j = i
    · subst hji
      rw [touch_entries_self]
      exact hlock u r hut hu
    · rw [touch_entries_of_ne hji]
      exact hlk
  · intro u v r r' j hu hv
    by_cases hut : u = t
    · by_cases hvt : v = t
      · rw [hut, hvt]
      · rw [hut, touch_pc_self] at hu
        rw [touch_pc_of_ne hvt] at hv
        obtain ⟨rfl, -, -, -, hno⟩ := hheld r j hu
        exact absurd hv (hno v r' hvt)
    · rw [touch_pc_of_ne hut] at hu
      by_cases hvt : v = t
      · rw [hvt, touch_pc_self] at hv
        obtain ⟨rfl, -, -, -, hno⟩ := hheld r' j hv
        exact absurd hu (hno u r hut)
      · rw [touch_pc_of_ne hvt] at hv
        exact h.holder u v r r' j hu hv
  · intro u r hu
    rw [hreqs u] at hu
    exact h.busy u r hu
  · intro u v r r' hu hv hn
    rw [hreqs u] at hu
    rw [hreqs v] at hv
    exact h.nam u v r r' hu hv hn

theorem Inv.quiet (h : Inv s) (hl : l ≠ []) (he : (s.entries i).Same e)
    (hstate : e.state = (s.entries i).state) (hlocked : e.locked = (s.entries i).locked)
    (hreq : p.req = (s.pc t).req) (hex : ∀ r, p.executing = some r → (s.pc t).executing = some r)
    (hho : p.holding = none) : Inv (s.touch i t e p l w) := by
  refine h.touch hl he ?_ hreq ?_ ?_ ?_ ?_
  · rintro ⟨b, hb⟩
    rw [hstate]
    exact (h.filed b i hb).used
  · intro r hr
    obtain ⟨j, hj, hm, hst⟩ := h.inprog t r (hex r hr)
    refine ⟨⟨j, hj, hm, ?_⟩, ?_⟩
    · by_cases hji : j = i
      · rw [hji, update_self, hstate, ← hji, hst]
      · rw [update_of_ne hji, hst]
    · intro u r' hu hr' hk
      exact hu (h.single t u r r' (hex r hr) hr' hk).symm
  · intro u r _ _ _ hst
    rw [hstate, hst]
  · intro u r _ hu
    rw [hlocked]
    exact (h.held u r i hu).2.1
  · intro r j hr
    rw [hho] at hr
    cases hr

theorem unlock_goto (s : State) (i t : ℕ) (p : Pc) :
    ∃ w, (s.unlock i).goto t p =
      s.touch i t { s.entries i with locked := false, wanted := false } p s.lru w := by
  by_cases hw : (s.entries i).wanted = true
  · refine ⟨((s.setEntry i { s.entries i with locked := false }).wakeup i).wchan, ?_⟩
    unfold State.unlock
    rw [if_pos hw]
    unfold State.goto State.wakeup State.setEntry State.touch
    rw [update_idem]
  refine ⟨s.wchan, ?_⟩
  unfold State.unlock
  rw [if_neg hw]
  unfold State.goto State.setEntry State.touch
  rw [← Bool.not_eq_true _ |>.mp hw]

theorem setEntry_touch (s : State) (i t : ℕ) (e e' : Entry) (p : Pc) (l : List ℕ) (w : ℕ → Option ℕ) :
    (s.setEntry i e').touch i t e p l w = s.touch i t e p l w := by
  unfold State.touch State.setEntry
  rw [update_idem]

theorem Inv.sleep (h : Inv s) (hreq : p.req = (s.pc t).req)
    (hex : ∀ r, p.executing = some r → (s.pc t).executing = some r) (hho : p.holding = none) :
    Inv ((s.goto t p).tsleep t i) :=
  h.quiet h.lru ⟨rfl, rfl, rfl, rfl⟩ rfl rfl hreq hex hho

theorem Inv.sleepHere (h : Inv s) (hho : (s.pc t).holding = none) : Inv (s.tsleep t i) := by
  have hq := h.sleep (i := i) (p := s.pc t) rfl (fun _ hr => hr) hho
  unfold State.goto at hq
  rw [update_eq_self] at hq
  exact hq

end touch

/-! ## The other changes -/

section steps

variable {s : State} {t rp : ℕ} {r : Request}

section

variable (h : Inv s)
include h

theorem mem_chain_recycle {j : ℕ} {b : BitVec 32} :
    j ∈ (recycle s t r rp).chain b ↔ j = rp ∧ b = nfsrchash r.xid ∨ j ≠ rp ∧ j ∈ s.chain b := by
  unfold recycle
  dsimp only
  by_cases hb : b = nfsrchash r.xid
  · rw [hb, update_self, mem_cons, (h.nodup _).mem_erase_iff]
    tauto
  · rw [update_of_ne hb, (h.nodup _).mem_erase_iff]
    tauto

/-- **An entry is taken.** Taking an entry keeps the invariant if it is not locked, the request in it is
not being done, and the new request has no entry. -/
theorem Inv.recycle (hreq : (s.pc t).req = some r) (hnone : s.lookup r = none)
    (hlock : (s.entries rp).locked = false) (hst : (s.entries rp).state ≠ .inprog) :
    Inv (recycle s t r rp) := by
  have hr := (h.busy t r hreq).2
  have hself : (Nfs.recycle s t r rp).entries rp =
      { state := .inprog, nam := r.nam, xid := r.xid, proc := r.proc, un := (s.entries rp).un
        made := s.key r } := update_self _ _ _
  have hne : ∀ j, j ≠ rp → (Nfs.recycle s t r rp).entries j = s.entries j :=
    fun j hj => update_of_ne hj _ _
  have hpc : ∀ u, u ≠ t → (Nfs.recycle s t r rp).pc u = s.pc u := fun u hu => update_of_ne hu _ _
  have hpct : (Nfs.recycle s t r rp).pc t = .doing r true := update_self _ _ _
  have hchained : ∀ j, Chained (Nfs.recycle s t r rp) j ↔ j = rp ∨ j ≠ rp ∧ Chained s j := by
    intro j
    constructor
    · rintro ⟨b, hb⟩
      rcases (mem_chain_recycle h).mp hb with ⟨hj, -⟩ | ⟨hj, hb⟩
      · exact .inl hj
      · exact .inr ⟨hj, b, hb⟩
    · rintro (hj | ⟨hj, b, hb⟩)
      · exact ⟨nfsrchash r.xid, (mem_chain_recycle h).mpr (.inl ⟨hj, rfl⟩)⟩
      · exact ⟨b, (mem_chain_recycle h).mpr (.inr ⟨hj, hb⟩)⟩
  -- no entry but the taken one is for the new request, so no other server does it
  have hfresh : ∀ j, Chained s j → (s.entries j).made ≠ s.key r := fun j hj =>
    h.made_ne_of_lookup hr hnone hj
  have halone : ∀ u r', (s.pc u).executing = some r' → s.key r' ≠ s.key r := by
    intro u r' hu hk
    obtain ⟨j, hj, hm, -⟩ := h.inprog u r' hu
    exact hfresh j hj (hm.trans hk)
  have hreqs : ∀ u, ((Nfs.recycle s t r rp).pc u).req = (s.pc u).req := by
    intro u
    by_cases hu : u = t
    · rw [hu, hpct, hreq, Pc.req]
    · rw [hpc u hu]
  refine ⟨cons_ne_nil _ _, ?_, ?_, ?_, ?_, ?_, ?_, ?_, ?_, ?_⟩
  · intro b
    unfold Nfs.recycle
    dsimp only
    by_cases hb : b = nfsrchash r.xid
    · rw [hb, update_self]
      exact nodup_cons.mpr ⟨(h.nodup _).not_mem_erase, (h.nodup _).erase rp⟩
    · rw [update_of_ne hb]
      exact (h.nodup b).erase rp
  · intro b j hj
    rcases (mem_chain_recycle h).mp hj with ⟨hj, hb⟩ | ⟨hj, hb⟩
    · rw [hj, hb]
      refine ⟨?_, ?_, ?_, ?_, ?_, ?_⟩
      all_goals rw [hself]
      · rfl
      · rfl
      · rfl
      · exact hr
      · exact fun hu => RcState.noConfusion hu
    · have hf := h.filed b j hb
      refine ⟨?_, ?_, ?_, ?_, ?_, ?_⟩
      all_goals rw [hne j hj]
      · exact hf.hash
      · exact hf.addr
      · exact hf.xid
      · exact hf.proc
      · exact hf.inet
      · exact hf.used
  · intro j k hj hk hjk
    rcases (hchained j).mp hj with hj | ⟨hj, hcj⟩
    · rcases (hchained k).mp hk with hk | ⟨hk, hck⟩
      · rw [hj, hk]
      · rw [hj, hself, hne k hk] at hjk
        exact absurd hjk.symm (hfresh k hck)
    rcases (hchained k).mp hk with hk | ⟨hk, hck⟩
    · rw [hk, hself, hne j hj] at hjk
      exact absurd hjk (hfresh j hcj)
    · rw [hne j hj, hne k hk] at hjk
      exact h.made j k hcj hck hjk
  · intro u r' hu
    by_cases hut : u = t
    · rw [hut, hpct] at hu
      cases hu
      refine ⟨rp, (hchained rp).mpr (.inl rfl), ?_, ?_⟩
      · rw [hself]
        rfl
      · rw [hself]
    · rw [hpc u hut] at hu
      obtain ⟨j, hj, hm, hs⟩ := h.inprog u r' hu
      have hjrp : j ≠ rp := by
        rintro rfl
        exact hst hs
      refine ⟨j, (hchained j).mpr (.inr ⟨hjrp, hj⟩), ?_, ?_⟩
      · rw [hne j hjrp]
        exact hm
      · rw [hne j hjrp]
        exact hs
  · intro u v r1 r2 hu hv hk
    by_cases hut : u = t
    · by_cases hvt : v = t
      · rw [hut, hvt]
      · rw [hut, hpct] at hu
        rw [hpc v hvt] at hv
        cases hu
        exact absurd hk.symm (halone v r2 hv)
    · rw [hpc u hut] at hu
      by_cases hvt : v = t
      · rw [hvt, hpct] at hv
        cases hv
        exact absurd hk (halone u r1 hu)
      · rw [hpc v hvt] at hv
        exact h.single u v r1 r2 hu hv hk
  · intro u r' j hu
    by_cases hut : u = t
    · rw [hut, hpct] at hu
      cases hu
    rw [hpc u hut] at hu
    obtain ⟨hj, hlk, hm⟩ := h.held u r' j hu
    have hjrp : j ≠ rp := by
      rintro rfl
      rw [hlock] at hlk
      cases hlk
    rw [hne j hjrp]
    exact ⟨(hchained j).mpr (.inr ⟨hjrp, hj⟩), hlk, hm⟩
  · intro u v r1 r2 j hu hv
    by_cases hut : u = t
    · rw [hut, hpct] at hu
      cases hu
    by_cases hvt : v = t
    · rw [hvt, hpct] at hv
      cases hv
    · rw [hpc u hut] at hu
      rw [hpc v hvt] at hv
      exact h.holder u v r1 r2 j hu hv
  · intro u r' hu
    rw [hreqs u] at hu
    exact h.busy u r' hu
  · intro u v r1 r2 hu hv hn
    rw [hreqs u] at hu
    rw [hreqs v] at hv
    exact h.nam u v r1 r2 hu hv hn

theorem Inv.store {m : ℕ} {a : Sockaddr} (hfree : s.busy m = false) (hok : Ok s (.store m a)) :
    Inv { s with mem := update s.mem m a } := by
  have hmem : ∀ u r', (s.pc u).req = some r' → update s.mem m a r'.nam = s.mem r'.nam := by
    intro u r' hu
    refine update_of_ne ?_ _ _
    intro hm
    rw [← hm, (h.busy u r' hu).1] at hfree
    cases hfree
  have hkey : ∀ u r', (s.pc u).req = some r' →
      State.key { s with mem := update s.mem m a } r' = s.key r' := by
    intro u r' hu
    unfold State.key
    dsimp only
    rw [hmem u r' hu]
  refine ⟨h.lru, h.nodup, ?_, h.made, ?_, ?_, ?_, h.holder, ?_, h.nam⟩
  · intro b j hj
    have hf := h.filed b j hj
    refine ⟨hf.hash, ?_, hf.xid, hf.proc, hf.inet, hf.used⟩
    by_cases hm : (s.entries j).nam = m
    · dsimp only
      rw [hm, update_self]
      exact (hok j ⟨b, hj⟩ hm).symm
    · dsimp only
      rw [update_of_ne hm]
      exact hf.addr
  · intro u r' hu
    obtain ⟨j, hj, hm, hst⟩ := h.inprog u r' hu
    exact ⟨j, hj, hm.trans (hkey u r' (Pc.req_of_executing hu)).symm, hst⟩
  · intro u v r1 r2 hu hv hk
    rw [hkey u r1 (Pc.req_of_executing hu), hkey v r2 (Pc.req_of_executing hv)] at hk
    exact h.single u v r1 r2 hu hv hk
  · intro u r' j hu
    obtain ⟨hj, hlk, hm⟩ := h.held u r' j hu
    exact ⟨hj, hlk, hm.trans (hkey u r' (Pc.req_of_holding hu)).symm⟩
  · intro u r' hu
    refine ⟨(h.busy u r' hu).1, ?_⟩
    dsimp only
    rw [hmem u r' hu]
    exact (h.busy u r' hu).2

theorem Inv.change {p : Pc} {busy : ℕ → Bool} (hex : p.executing = none) (hho : p.holding = none)
    (hbusy : ∀ u r', u ≠ t → (s.pc u).req = some r' → busy r'.nam = true)
    (hreq : ∀ r', p.req = some r' → busy r'.nam = true ∧ (s.mem r'.nam).family = afInet ∧ ∀ u r'',
      u ≠ t → (s.pc u).req = some r'' → r''.nam ≠ r'.nam) :
    Inv ({ s with busy := busy }.goto t p) := by
  have hpc : ∀ u, u ≠ t → ({ s with busy := busy }.goto t p).pc u = s.pc u :=
    fun u hu => update_of_ne hu _ _
  have hpct : ({ s with busy := busy }.goto t p).pc t = p := update_self _ _ _
  have hexec : ∀ u r', (({ s with busy := busy }.goto t p).pc u).executing = some r' →
      (s.pc u).executing = some r' := by
    intro u r' hu
    by_cases hut : u = t
    · rw [hut, hpct, hex] at hu
      cases hu
    · rw [hpc u hut] at hu
      exact hu
  have hhold : ∀ u x, (({ s with busy := busy }.goto t p).pc u).holding = some x →
      (s.pc u).holding = some x := by
    intro u x hu
    by_cases hut : u = t
    · rw [hut, hpct, hho] at hu
      cases hu
    · rw [hpc u hut] at hu
      exact hu
  refine ⟨h.lru, h.nodup, ?_, h.made, ?_, ?_, ?_, ?_, ?_, ?_⟩
  · intro b j hj
    obtain ⟨h1, h2, h3, h4, h5, h6⟩ := h.filed b j hj
    exact ⟨h1, h2, h3, h4, h5, h6⟩
  · exact fun u r' hu => h.inprog u r' (hexec u r' hu)
  · exact fun u v r1 r2 hu hv hk => h.single u v r1 r2 (hexec u r1 hu) (hexec v r2 hv) hk
  · exact fun u r' j hu => h.held u r' j (hhold u (r', j) hu)
  · exact fun u v r1 r2 j hu hv => h.holder u v r1 r2 j (hhold u (r1, j) hu) (hhold v (r2, j) hv)
  · intro u r' hu
    by_cases hut : u = t
    · rw [hut, hpct] at hu
      exact ⟨(hreq r' hu).1, (hreq r' hu).2.1⟩
    · rw [hpc u hut] at hu
      exact ⟨hbusy u r' hut hu, (h.busy u r' hu).2⟩
  · intro u v r1 r2 hu hv hn
    by_cases hut : u = t
    · by_cases hvt : v = t
      · rw [hut, hvt]
      · rw [hut, hpct] at hu
        rw [hpc v hvt] at hv
        exact absurd hn.symm ((hreq r1 hu).2.2 v r2 hvt hv)
    rw [hpc u hut] at hu
    by_cases hvt : v = t
    · rw [hvt, hpct] at hv
      exact absurd hn ((hreq r2 hv).2.2 u r1 hut hu)
    · rw [hpc v hvt] at hv
      exact h.nam u v r1 r2 hu hv hn

theorem Inv.receive {s' : State} {p : Pc} {nam : ℕ} (hstep : receive s t nam p = some s')
    (hp : ∀ r', p.req = some r' → r'.nam = nam) (hex : p.executing = none) (hho : p.holding = none)
    (hinet : (s.mem nam).family = afInet) : Inv s' := by
  unfold Nfs.receive at hstep
  by_cases hc : s.pc t = .idle ∧ s.busy nam = false
  · rw [if_pos hc] at hstep
    rw [← some.inj hstep]
    refine h.change hex hho ?_ ?_
    · intro u r' _ hu
      by_cases hn : r'.nam = nam
      · rw [hn, update_self]
      · rw [update_of_ne hn]
        exact (h.busy u r' hu).1
    · intro r' hr'
      rw [hp r' hr', update_self]
      refine ⟨rfl, hinet, ?_⟩
      intro u r'' _ hu hn
      have hbusy := (h.busy u r'' hu).1
      rw [hn, hc.2] at hbusy
      cases hbusy
  · rw [if_neg hc] at hstep
    cases hstep

theorem Inv.free (hpc : s.pc t = .leaving r) :
    Inv ({ s with busy := update s.busy r.nam false }.goto t .idle) := by
  refine h.change rfl rfl ?_ ?_
  · intro u r' hut hu
    have hn : r'.nam ≠ r.nam := fun hn => hut (h.nam u t r' r hu (by rw [hpc, Pc.req]) hn)
    rw [update_of_ne hn]
    exact (h.busy u r' hu).1
  · intro r' hr'
    cases hr'

theorem Inv.not_holding (hlock : (s.entries rp).locked = false) (u : ℕ) (r' : Request) :
    (s.pc u).holding ≠ some (r', rp) := by
  intro hu
  have hlk := (h.held u r' rp hu).2.1
  rw [hlock] at hlk
  cases hlk

theorem Inv.release (hho : (s.pc t).holding = some (r, rp)) {e : Entry} (he : (s.entries rp).Same e)
    (hstate : e.state = (s.entries rp).state) :
    Inv (((s.setEntry rp e).unlock rp).goto t (.leaving r)) := by
  obtain ⟨w, hw⟩ := unlock_goto (s.setEntry rp e) rp t (.leaving r)
  rw [hw, setEntry_touch]
  have hself : (s.setEntry rp e).entries rp = e := update_self _ _ _
  rw [hself]
  refine h.touch h.lru ⟨he.nam, he.xid, he.proc, he.made⟩ ?_ (Pc.req_of_holding hho).symm ?_ ?_ ?_ ?_
  · rintro ⟨b, hb⟩
    rw [hstate]
    exact (h.filed b rp hb).used
  · intro r' hr'
    cases hr'
  · intro u r' _ _ _ hst
    rw [hstate, hst]
  · intro u r' hut hu
    exact absurd (h.holder u t r' r rp hu hho) hut
  · intro r' j hr'
    cases hr'

/-! ## The two functions -/

theorem Inv.waitTail (hreq : (s.pc t).req = some r)
    (hok : (s.entries rp).locked = false → (s.entries rp).state ≠ .inprog ∧ s.lookup r = none) :
    Inv (waitTail s t r rp) := by
  unfold Nfs.waitTail
  by_cases hlock : (s.entries rp).locked = true
  · rw [if_pos hlock]
    refine h.sleep hreq.symm ?_ rfl
    intro r' hr'
    cases hr'
  · rw [if_neg hlock]
    obtain ⟨hst, hnone⟩ := hok (Bool.not_eq_true _ |>.mp hlock)
    exact h.recycle hreq hnone (Bool.not_eq_true _ |>.mp hlock) hst

theorem Inv.found {s' : State} (hpc : s.pc t = .look r) (hrp : s.lookup r = some rp)
    (hlock : (s.entries rp).locked = false) (hstep : found s t r rp = some s') : Inv s' := by
  have hreq : (s.pc t).req = some r := by rw [hpc, Pc.req]
  obtain ⟨hch, hm⟩ := h.of_lookup (h.busy t r hreq).2 hrp
  have hused : (s.entries rp).state ≠ .unused := by
    obtain ⟨b, hb⟩ := hch
    exact (h.filed b rp hb).used
  unfold Nfs.found at hstep
  rw [if_neg hused] at hstep
  by_cases hin : (s.entries rp).state = .inprog
  · rw [if_pos hin] at hstep
    rw [← some.inj hstep]
    obtain ⟨w, hw⟩ := unlock_goto
      ((s.setEntry rp { s.entries rp with locked := true }).putAtHead rp) rp t (.leaving r)
    rw [hw]
    unfold State.putAtHead
    have hself : (s.setEntry rp { s.entries rp with locked := true }).entries rp =
      { s.entries rp with locked := true } := update_self _ _ _
    rw [hself]
    have hq : Inv (s.touch rp t { s.entries rp with locked := false, wanted := false } (.leaving r)
        (rp :: s.lru.erase rp) w) := by
      refine h.quiet (cons_ne_nil _ _) ⟨rfl, rfl, rfl, rfl⟩ rfl hlock.symm hreq.symm ?_ rfl
      intro r' hr'
      cases hr'
    rw [← setEntry_touch s rp t _ { s.entries rp with locked := true }] at hq
    exact hq
  · rw [if_neg hin] at hstep
    by_cases hrep : ((s.entries rp).repstatus || (s.entries rp).repmbuf) = true
    · rw [if_pos hrep] at hstep
      rw [← some.inj hstep]
      have hq : Inv (s.touch rp t { s.entries rp with locked := true } (.copying r rp)
          (rp :: s.lru.erase rp) s.wchan) := by
        refine h.touch (cons_ne_nil _ _) ⟨rfl, rfl, rfl, rfl⟩ (fun _ => hused) hreq.symm ?_ ?_ ?_ ?_
        · intro r' hr'
          cases hr'
        · exact fun _ _ _ _ _ hst => hst
        · exact fun _ _ _ _ => rfl
        · intro r' j hr'
          obtain ⟨rfl, rfl⟩ := Prod.mk.inj (some.inj hr')
          exact ⟨rfl, hch, rfl, hm, fun u r2 _ => h.not_holding hlock u r2⟩
      exact hq
    · rw [if_neg hrep] at hstep
      rw [← some.inj hstep]
      obtain ⟨s1, hs1⟩ : ∃ s1, (s.setEntry rp { s.entries rp with locked := true }).putAtHead rp = s1 :=
        ⟨_, rfl⟩
      obtain ⟨w, hw⟩ := unlock_goto
        (s1.setEntry rp { s.entries rp with locked := true, state := .inprog }) rp t (.doing r true)
      have hself : (s1.setEntry rp { s.entries rp with locked := true, state := .inprog }).entries rp =
        { s.entries rp with locked := true, state := .inprog } := update_self _ _ _
      rw [hs1, hw, hself, setEntry_touch, ← hs1]
      have hq : Inv (s.touch rp t
          { s.entries rp with locked := false, wanted := false, state := .inprog } (.doing r true)
          (rp :: s.lru.erase rp) w) := by
        refine h.touch (cons_ne_nil _ _) ⟨rfl, rfl, rfl, rfl⟩ (fun _ hu => by cases hu) hreq.symm
          ?_ ?_ ?_ ?_
        · intro r' hr'
          obtain rfl := some.inj hr'
          refine ⟨⟨rp, hch, hm, by rw [update_self]⟩, ?_⟩
          -- another server that does the request has this entry in progress
          intro u r2 _ hu hk
          obtain ⟨j, hj, hmj, hst⟩ := h.inprog u r2 hu
          rw [h.made j rp hj hch (hmj.trans (hk.symm.trans hm.symm))] at hst
          exact hin hst
        · exact fun _ _ _ _ _ _ => rfl
        · exact fun u r2 _ hu => absurd hu (h.not_holding hlock u r2)
        · intro r' j hr'
          cases hr'
      rw [← setEntry_touch s rp t _ { s.entries rp with locked := true }] at hq
      exact hq

theorem Inv.getcache {s' : State} (hpc : s.pc t = .look r)
    (hok : s.lookup r = none → ∀ i ∈ s.lru.getLast?, (s.entries i).locked = false →
      (s.entries i).state ≠ .inprog) (hstep : getcache s t r = some s') : Inv s' := by
  have hreq : (s.pc t).req = some r := by rw [hpc, Pc.req]
  unfold Nfs.getcache at hstep
  cases hl : s.lookup r with
  | some rp =>
    rw [hl] at hstep
    dsimp only at hstep
    by_cases hlock : (s.entries rp).locked = true
    · rw [if_pos hlock] at hstep
      rw [← some.inj hstep]
      exact h.sleepHere (by rw [hpc]; rfl)
    · rw [if_neg hlock] at hstep
      exact h.found hpc hl (Bool.not_eq_true _ |>.mp hlock) hstep
  | none =>
    rw [hl] at hstep
    obtain ⟨i, hi, rfl⟩ := map_eq_some_iff.mp hstep
    refine h.waitTail hreq ?_
    intro hlock
    exact ⟨hok hl i hi hlock, hl⟩

theorem Inv.updated {repvalid : Bool} {repstat reply : ℕ} (hreq : (s.pc t).req = some r)
    (hrp : s.lookup r = some rp) (hlock : (s.entries rp).locked = false)
    (hfree : ∀ u r', u ≠ t → (s.pc u).executing = some r' → (s.entries rp).made = s.key r' →
      (s.entries rp).state ≠ .inprog) : Inv (updated s t r repvalid repstat reply rp) := by
  obtain ⟨hch, hm⟩ := h.of_lookup (h.busy t r hreq).2 hrp
  -- the three ends with the entry unlocked differ in what they store
  have hend : ∀ e : Entry, (s.entries rp).Same e → e.state ≠ .unused →
      Inv (((s.setEntry rp e).unlock rp).goto t (.leaving r)) := by
    intro e he hused
    obtain ⟨w, hw⟩ := unlock_goto (s.setEntry rp e) rp t (.leaving r)
    have hself : (s.setEntry rp e).entries rp = e := update_self _ _ _
    rw [hw, setEntry_touch, hself]
    refine h.touch h.lru ⟨he.nam, he.xid, he.proc, he.made⟩ (fun _ => hused) hreq.symm ?_ ?_ ?_ ?_
    · intro r' hr'
      cases hr'
    · exact fun u r' hut hu hm' hst => absurd hst (hfree u r' hut hu hm')
    · exact fun u r' _ hu => absurd hu (h.not_holding hlock u r')
    · intro r' j hr'
      cases hr'
  unfold Nfs.updated
  split_ifs with h1 h2 h3
  · have hq : Inv (s.touch rp t { s.entries rp with locked := true, state := .done }
        (.saving r rp reply) s.lru s.wchan) := by
      refine h.touch h.lru ⟨rfl, rfl, rfl, rfl⟩ (fun _ hu => by cases hu) hreq.symm ?_ ?_ ?_ ?_
      · intro r' hr'
        cases hr'
      · exact fun u r' hut hu hm' hst => absurd hst (hfree u r' hut hu hm')
      · exact fun _ _ _ _ => rfl
      · intro r' j hr'
        obtain ⟨rfl, rfl⟩ := Prod.mk.inj (some.inj hr')
        exact ⟨rfl, hch, rfl, hm, fun u r2 _ => h.not_holding hlock u r2⟩
    exact hq
  · exact hend _ ⟨rfl, rfl, rfl, rfl⟩ (fun hu => by cases hu)
  · exact hend _ ⟨rfl, rfl, rfl, rfl⟩ (fun hu => by cases hu)
  · exact hend _ ⟨rfl, rfl, rfl, rfl⟩ (fun hu => by cases hu)

theorem Inv.updatecache {doit repvalid : Bool} {repstat reply : ℕ}
    (hpc : s.pc t = .updating r doit repvalid repstat reply)
    (hok : doit = false → ∀ i, s.lookup r = some i → (s.entries i).state ≠ .inprog) :
    Inv (updatecache s t r repvalid repstat reply) := by
  have hreq : (s.pc t).req = some r := by rw [hpc, Pc.req]
  unfold Nfs.updatecache
  cases hl : s.lookup r with
  | some rp =>
    dsimp only
    by_cases hlock : (s.entries rp).locked = true
    · rw [if_pos hlock]
      exact h.sleepHere (by rw [hpc]; rfl)
    rw [if_neg hlock]
    refine h.updated hreq hl (Bool.not_eq_true _ |>.mp hlock) ?_
    intro u r' hut hu hm'
    cases doit with
    | false => exact hok rfl rp hl
    | true =>
      have hm := (h.of_lookup (h.busy t r hreq).2 hl).2
      have hex : (s.pc t).executing = some r := by rw [hpc, Pc.executing]
      exact absurd (h.single u t r' r hu hex (hm'.symm.trans hm)) hut
  | none =>
    have hq : Inv (s.touch 0 t (s.entries 0) (.leaving r) s.lru s.wchan) := by
      refine h.quiet h.lru ⟨rfl, rfl, rfl, rfl⟩ rfl rfl hreq.symm ?_ rfl
      intro r' hr'
      cases hr'
    unfold State.touch at hq
    rw [update_eq_self] at hq
    exact hq

/-! ## Runs -/

theorem Inv.go {s' : State} (hok : Ok s (.go t)) (hstep : go s t = some s') : Inv s' := by
  unfold Ok at hok
  dsimp only at hok
  unfold Nfs.go at hstep
  cases hpc : s.pc t with
  | idle =>
    rw [hpc] at hstep
    cases hstep
  | look r =>
    rw [hpc] at hok hstep
    exact h.getcache hpc hok hstep
  | tail r rp =>
    rw [hpc] at hok hstep
    rw [← some.inj hstep]
    exact h.waitTail (by rw [hpc, Pc.req]) hok
  | copying r rp =>
    rw [hpc] at hstep
    rw [← some.inj hstep]
    have hq := h.release (e := s.entries rp) (by rw [hpc]; rfl) ⟨rfl, rfl, rfl, rfl⟩ rfl
    unfold State.setEntry at hq
    rw [update_eq_self] at hq
    exact hq
  | doing r doit =>
    rw [hpc] at hstep
    cases hstep
  | updating r doit repvalid repstat reply =>
    rw [hpc] at hok hstep
    rw [← some.inj hstep]
    refine h.updatecache hpc ?_
    rintro rfl
    exact hok
  | saving r rp reply =>
    rw [hpc] at hstep
    rw [← some.inj hstep]
    exact h.release (by rw [hpc]; rfl) ⟨rfl, rfl, rfl, rfl⟩ rfl
  | leaving r =>
    rw [hpc] at hstep
    rw [← some.inj hstep]
    exact h.free hpc

theorem Inv.step {s' : State} {a : Action} (hok : Ok s a) (hstep : step s a = some s') :
    Inv s' := by
  unfold Nfs.step at hstep
  cases a with
  | store m a =>
    dsimp only at hstep
    by_cases hb : s.busy m = true
    · rw [if_pos hb] at hstep
      cases hstep
    · rw [if_neg hb] at hstep
      rw [← some.inj hstep]
      exact h.store (Bool.not_eq_true _ |>.mp hb) hok
  | arrive t r =>
    refine h.receive hstep ?_ rfl rfl hok
    intro r' hr'
    rw [← some.inj hr']
  | skip t nam xid =>
    refine h.receive hstep ?_ rfl rfl hok
    intro r' hr'
    rw [← some.inj hr']
  | finish t repvalid repstat reply =>
    dsimp only at hstep
    split at hstep
    · rename_i r doit hpc
      rw [← some.inj hstep]
      have hq : Inv (s.touch 0 t (s.entries 0) (.updating r doit repvalid repstat reply) s.lru
          s.wchan) := by
        refine h.quiet h.lru ⟨rfl, rfl, rfl, rfl⟩ rfl rfl (by rw [hpc]; rfl) ?_ rfl
        intro r' hr'
        rw [hpc]
        cases doit with
        | false => cases hr'
        | true => exact hr'
      unfold State.touch at hq
      rw [update_eq_self] at hq
      exact hq
    · cases hstep
  | go t =>
    dsimp only at hstep
    by_cases hw : s.wchan t = none
    · rw [if_pos hw] at hstep
      exact h.go hok hstep
    · rw [if_neg hw] at hstep
      cases hstep

end

theorem inv_initcache : Inv initcache where
  lru := by decide
  nodup := fun _ => List.nodup_nil
  filed := fun _ i hi => absurd hi (List.not_mem_nil (a := i))
  made := fun i _ hi => absurd hi.choose_spec (List.not_mem_nil (a := i))
  inprog := fun _ _ h => by cases h
  single := fun _ _ _ _ h => by cases h
  held := fun _ _ _ h => by cases h
  holder := fun _ _ _ _ _ h => by cases h
  busy := fun _ _ h => by cases h
  nam := fun _ _ _ _ h => by cases h

end steps

/-- **At most one execution.** Whatever the order of the servers' steps: in a run whose steps all meet
`Ok`, no two entries are for one request, no two servers do the same request, and a server finds, holds
and updates the entry of its own request only.
Source: nfsrv_getcache, nfsrv_updatecache. Kind: C -/
theorem exclusive_of_reach {s : State}
    (h : Transition.Reach (· = initcache) (fun s s' => ∃ a, Ok s a ∧ step s a = some s') s) :
    Exclusive s := by
  have hinv : Inv s := by
    refine h.invariant ?_ ?_
    · rintro s rfl
      exact inv_initcache
    · rintro s s' - hs ⟨a, hok, hstep⟩
      exact hs.step hok hstep
  exact hinv.exclusive

/-- A run of actions. Source: nfssvc -/
def runActions : List Action → State → Option State
  | [], s => some s
  | a :: as, s => (step s a).bind (runActions as)

theorem reach_runActions {as : List Action} {s s' : State}
    (hs : Transition.Reach (· = initcache) (fun s s' => ∃ a, step s a = some s') s)
    (h : runActions as s = some s') :
    Transition.Reach (· = initcache) (fun s s' => ∃ a, step s a = some s') s' := by
  induction as generalizing s with
  | nil =>
    rw [← some.inj h]
    exact hs
  | cons a as ih =>
    obtain ⟨s1, h1, h2⟩ := bind_eq_some_iff.mp h
    exact ih (.step hs ⟨a, h1⟩) h2

/-- Server 0 does request 0 of host 1 for a long time, while server 1 does one request after another of
host 2. Then host 1 sends request 0 again.
Source: none: what is claimed -/
def slowRequest : List Action :=
  [.store 0 ⟨afInet, 1⟩, .store 1 ⟨afInet, 2⟩, .store 2 ⟨afInet, 1⟩, .arrive 0 ⟨0, 0, 4⟩, .go 0] ++
    (List.range nfsrvcachesiz).flatMap (fun k =>
      [.arrive 1 ⟨1, BitVec.ofNat 32 (k + 1), 4⟩, .go 1, .finish 1 true 0 0, .go 1, .go 1]) ++
    [.arrive 1 ⟨2, 0, 4⟩, .go 1]

/-- Both servers do request 0 of host 1: its entry has been taken for the last request of host 2.
Source: nfsrv_getcache. Kind: C -/
theorem not_exclusive_slowRequest :
    ∃ s, Transition.Reach (· = initcache) (fun s s' => ∃ a, step s a = some s') s ∧ ¬ Exclusive s := by
  have hrun : (runActions slowRequest initcache).map (fun s => (s.pc 0, s.pc 1, s.mem 0, s.mem 2)) =
      some (.doing ⟨0, 0, 4⟩ true, .doing ⟨2, 0, 4⟩ true, ⟨afInet, 1⟩, ⟨afInet, 1⟩) := by
    decide +kernel
  obtain ⟨s, hs, heq⟩ := map_eq_some_iff.mp hrun
  obtain ⟨h0, h1, h2, h3⟩ : s.pc 0 = _ ∧ s.pc 1 = _ ∧ s.mem 0 = _ ∧ s.mem 2 = _ := by
    simpa only [Prod.mk.injEq] using heq
  refine ⟨s, reach_runActions (.start rfl) hs, ?_⟩
  intro hex
  have h01 := hex.execution 0 1 ⟨0, 0, 4⟩ ⟨2, 0, 4⟩ (by rw [h0]; rfl) (by rw [h1]; rfl) (by
    unfold State.key
    rw [h2, h3])
  cases h01

/-- A request is received and looked up in the empty cache. Kind: C -/
theorem exclusive_doing : ∃ s, (s.pc 0).executing = some ⟨0, 7, 9⟩ ∧ Exclusive s := by
  refine ⟨_, ?_, exclusive_of_reach (.step (.step (.step (.start rfl)
    ⟨.store 0 ⟨afInet, 1⟩, ?_, rfl⟩) ⟨.arrive 0 ⟨0, 7, 9⟩, ?_, rfl⟩) ⟨.go 0, ?_, rfl⟩)⟩
  · rfl
  · intro i hi
    exact absurd hi.choose_spec (not_mem_nil (a := i))
  · rfl
  · intro _ i hi _ hst
    cases hst

end Bsd386.Nfs
