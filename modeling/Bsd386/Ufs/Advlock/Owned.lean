import Bsd386.Ufs.Advlock.Moves

/-!
# The bytes an owner holds

`Holds k L o b t` says that a lock of the list `L` gives the owner `o` the type `t` on byte `b`. The
loops of `lf_setlock` and `lf_clearlock` change this only inside the range asked for:

* `setLoop_keeps`, `clearLoop_keeps`: outside the range `r` what the owner held is held still
  (`Keeps r`). Each case of the loops takes one lock and leaves the parts of it outside `r`, so this
  needs neither the order of the locks nor that some cases cannot follow others.

That nothing is gained elsewhere follows from `Edit.sub`, and that the other owners keep theirs from
`Edit.others`.
-/

namespace Bsd386.Ufs.Advlock

open Function List

/-- A lock of `L` gives the owner `o` the type `t` on byte `b`. -/
def Holds (k : Kernel) (L : List Addr) (o : Id) (b : ℤ) (t : LfType) : Prop :=
  ∃ x ∈ L, (k.lock x).id = o ∧ (k.lock x).Covers b ∧ (k.lock x).type = t

/-- Outside the range of `r` its owner holds no less on `L` than it did on `U`. -/
def Keeps (r : Lockf) (k : Kernel) (U : List Addr) (k' : Kernel) (L : List Addr) : Prop :=
  ∀ b t, ¬ r.Covers b → Holds k U r.id b t → Holds k' L r.id b t

section keeps

variable {r : Lockf} {a b x : Addr} {m : Malloc} {k k1 k' : Kernel} {S U L L' : List Addr} {o : Id}
  {t : LfType} {c : ℤ}

theorem Holds.mono (h : Holds k L o c t) (hL : ∀ y ∈ L, y ∈ L') : Holds k L' o c t := by
  obtain ⟨x, hx, hrest⟩ := h
  exact ⟨x, hL x hx, hrest⟩

theorem Holds.congr (h : Holds k L o c t) (hL : ∀ y ∈ L, k'.lock y = k.lock y) :
    Holds k' L o c t := by
  obtain ⟨x, hx, hrest⟩ := h
  exact ⟨x, hx, by rwa [hL x hx]⟩

theorem Lockf.Sub.covers {l l' : Lockf} (h : l.Sub l') (hc : l.Covers c) : l'.Covers c := by
  have h1 := h.start
  have h2 := h.stop
  obtain ⟨g1, g2⟩ := hc
  exact ⟨by omega, by omega⟩

theorem Keeps.refl (r : Lockf) (k : Kernel) (U : List Addr) : Keeps r k U k U := fun _ _ _ h => h

theorem Keeps.mono (h : Keeps r k U k' L) (hL : ∀ y ∈ L, y ∈ L') : Keeps r k U k' L' :=
  fun b t hb hU => (h b t hb hU).mono hL

theorem Keeps.of_congr (h : Keeps r k1 U k' L) (hU : ∀ y ∈ U, k1.lock y = k.lock y) :
    Keeps r k U k' L :=
  fun b t hb hold => h b t hb (hold.congr hU)

theorem Keeps.append_left (h : Keeps r k U k' L) (hS : ∀ y ∈ S, k'.lock y = k.lock y) :
    Keeps r k (S ++ U) k' (S ++ L) := by
  rintro b t hb ⟨x, hx, hrest⟩
  rcases mem_append.mp hx with hx | hx
  · exact ⟨x, mem_append_left _ hx, by rwa [hS x hx]⟩
  · exact (h b t hb ⟨x, hx, hrest⟩).mono fun y hy => mem_append_right _ hy

theorem Keeps.cons (h : Keeps r k U k' L) (hL : ∀ y ∈ L, y ∈ L')
    (hx : ∀ b, ¬ r.Covers b → (k.lock x).id = r.id → (k.lock x).Covers b →
      Holds k' L' r.id b (k.lock x).type) : Keeps r k (x :: U) k' L' := by
  rintro b t hb ⟨y, hy, hid, hcov, rfl⟩
  rcases mem_cons.mp hy with rfl | hy
  · exact hx b hb hid hcov
  · exact (h b _ hb ⟨y, hy, hid, hcov, rfl⟩).mono hL

theorem offSucc_of_lt {l x : Lockf} (hl : l.RangeOk) (hx : x.Ok)
    (hmax : ¬ (l.stop = maxOff ∧ x.stop = -1)) (hstop : l.stop ≠ -1) (hlt : x.stop = -1 ∨ l.stop < x.stop) : offSucc l.stop = l.stop + 1 := by
  obtain ⟨h1, h2, h3⟩ := hl
  obtain ⟨⟨g1, g2, g3⟩, -⟩ := hx
  exact offSucc_eq (by omega) (by omega)

theorem offSucc_of_not_wrapsSet {l : Lockf} (hw : ¬ WrapsSet k l U) (hl : l.RangeOk) (hx : x ∈ U)
    (hok : (k.lock x).Ok) (hid : (k.lock x).id = l.id)
    (hne : ¬ ((k.lock x).start ≤ l.start ∧ (k.lock x).type = l.type)) (hstop : l.stop ≠ -1)
    (hlt : (k.lock x).stop = -1 ∨ l.stop < (k.lock x).stop) : offSucc l.stop = l.stop + 1 :=
  offSucc_of_lt hl hok (fun hmax => hw ⟨hmax.1, x, hx, hid, hmax.2, hne⟩) hstop hlt

theorem WrapsSet.of_tail {l : Lockf} (h : WrapsSet k1 l U) (S : List Addr) (x : Addr)
    (hU : ∀ y ∈ U, k1.lock y = k.lock y) : WrapsSet k l (S ++ x :: U) := by
  obtain ⟨hmax, y, hy, hrest⟩ := h
  rw [hU y hy] at hrest
  exact ⟨hmax, y, by simp [hy], hrest⟩

/-- The locks of a list, apart from the request and from the new address. -/
structure Apart (k : Kernel) (b a : Addr) (U : List Addr) : Prop where
  nodup : (a :: U).Nodup
  fresh : b ∉ a :: U
  range : (k.lock a).RangeOk
  ok : ∀ y ∈ U, (k.lock y).Ok

theorem Apart.ne (h : Apart k b a U) {y : Addr} (hy : y ∈ U) : y ≠ a ∧ y ≠ b := by
  constructor
  · rintro rfl
    exact (nodup_cons.mp h.nodup).1 hy
  · rintro rfl
    exact h.fresh (mem_cons_of_mem _ hy)

theorem Apart.found {c : OvCase} {skip rest : List Addr} (h : Apart k b a (skip ++ rest))
    (hr : lfFindoverlap k .self (k.lock a) (skip ++ rest) = (c, skip, rest)) (hc : c ≠ .none) :
    ∃ x rest', rest = x :: rest' ∧ (k.lock x).id = (k.lock a).id ∧ x ∈ skip ++ rest ∧ (k.lock x).Ok ∧
      c.Means (k.lock x) (k.lock a) ∧ x ≠ a ∧ x ≠ b := by
  obtain ⟨x, rest', rfl, hwants, hov⟩ := lfFindoverlap_found hr hc
  have hx : x ∈ skip ++ x :: rest' := mem_append_cons_self
  have hok := h.ok x hx
  exact ⟨x, rest', rfl, by simpa [Whose.wants] using hwants, hx, hok, hov ▸ ovcase_means,
    h.ne hx⟩

theorem Apart.rest (h : Apart k b a (S ++ x :: U)) (k1 : Kernel)
    (hk : ∀ y, y ≠ x → k1.lock y = k.lock y) :
    Apart k1 b a U ∧ k1.lock a = k.lock a ∧ (∀ y ∈ U, k1.lock y = k.lock y) ∧
      (∀ y ∈ S, y ∉ U ∧ y ≠ x) ∧ x ∉ U := by
  have hxa : x ≠ a := (h.ne (y := x) (by simp)).1
  obtain ⟨hnd, hSxU⟩ := nodup_cons.mp h.nodup
  obtain ⟨-, hxU, hdis⟩ := nodup_append.mp hSxU
  obtain ⟨hx, hU⟩ := nodup_cons.mp hxU
  have hUk : ∀ y ∈ U, k1.lock y = k.lock y := fun y hy => hk y fun heq => hx (heq ▸ hy)
  refine ⟨⟨nodup_cons.mpr ⟨fun ha => hnd (by simp [ha]), hU⟩, ?_, ?_, ?_⟩, hk a hxa.symm, hUk, ?_,
    hx⟩
  · intro hb
    refine h.fresh ?_
    rcases mem_cons.mp hb with rfl | hb
    · exact mem_cons_self
    · simp [hb]
  · rw [hk a hxa.symm]
    exact h.range
  · intro y hy
    rw [hUk y hy]
    exact h.ok y (by simp [hy])
  · intro y hy
    exact ⟨fun hyU => hdis y hy y (mem_cons_of_mem _ hyU) rfl,
      fun heq => hdis y hy x mem_cons_self heq⟩

theorem splitThree_holds (hxb : x ≠ b) (hsucc : offSucc (k.lock a).stop = (k.lock a).stop + 1)
    (hpred : offPred (k.lock a).start = (k.lock a).start - 1) (hnc : ¬ (k.lock a).Covers c)
    (hcov : (k.lock x).Covers c) (hxL : x ∈ L) (hbL : b ∈ L) :
    Holds (splitThree k x a b) L (k.lock x).id c (k.lock x).type := by
  obtain ⟨hlx, hlb, -⟩ := splitThree_lock (k := k) (a := a) hxb
  obtain ⟨h1, h2⟩ := hcov
  by_cases hc : c < (k.lock a).start
  · refine ⟨x, hxL, by rw [hlx], ?_, by rw [hlx]⟩
    rw [hlx]
    exact ⟨h1, .inr (show c ≤ offPred _ by omega)⟩
  refine ⟨b, hbL, by rw [hlb], ?_, by rw [hlb]⟩
  rw [hlb]
  have hgt : (k.lock a).stop < c := by
    by_contra hle
    exact hnc ⟨by omega, .inr (by omega)⟩
  exact ⟨show offSucc _ ≤ c by omega, h2⟩

theorem Lockf.lt_or_lt_of_not_covers {l : Lockf} (h : ¬ l.Covers c) :
    c < l.start ∨ l.stop ≠ -1 ∧ l.stop < c := by
  by_contra hcon
  push Not at hcon
  refine h ⟨hcon.1, ?_⟩
  by_cases hs : l.stop = -1
  · exact .inl hs
  · exact .inr (hcon.2 hs)

theorem holds_trimStop (hlx : k'.lock x = { k.lock x with stop := offPred r.start })
    (hpred : offPred r.start = r.start - 1)
    (hend : r.stop = -1 ∨ (k.lock x).stop ≠ -1 ∧ (k.lock x).stop ≤ r.stop) (hc : ¬ r.Covers c)
    (hcov : (k.lock x).Covers c) (hx : x ∈ L) : Holds k' L (k.lock x).id c (k.lock x).type := by
  have hlt : c < r.start := by
    have := Lockf.lt_or_lt_of_not_covers hc
    have := hcov.2
    omega
  refine ⟨x, hx, by rw [hlx], ?_, by rw [hlx]⟩
  rw [hlx]
  exact ⟨hcov.1, .inr (show c ≤ offPred _ by omega)⟩

theorem holds_trimStart (hlx : k'.lock x = { k.lock x with start := offSucc r.stop })
    (hsucc : offSucc r.stop = r.stop + 1) (hstart : r.start ≤ (k.lock x).start) (hc : ¬ r.Covers c)
    (hcov : (k.lock x).Covers c) (hx : x ∈ L) : Holds k' L (k.lock x).id c (k.lock x).type := by
  have hgt : r.stop < c := by
    have := Lockf.lt_or_lt_of_not_covers hc
    have := hcov.1
    omega
  refine ⟨x, hx, by rw [hlx], ?_, by rw [hlx]⟩
  rw [hlx]
  exact ⟨show offSucc _ ≤ c by omega, hcov.2⟩

theorem setStop_lock {k2 : Kernel} {e : ℤ} (hk : k1 = k2) (hlock : k2.lock = (k.setStop x e).lock) :
    (∀ y, y ≠ x → k1.lock y = k.lock y) ∧ k1.lock x = { k.lock x with stop := e } := by
  rw [hk, hlock]
  exact ⟨fun y hy => update_of_ne hy _ _, update_self _ _ _⟩

theorem Apart.keeps (h : Apart k b a (S ++ x :: U))
    (hframe : ∀ y, y ∉ x :: U → y ≠ b → k'.lock y = k.lock y) (hkeep : Keeps r k U k' L)
    (hL : ∀ y ∈ L, y ∈ L')
    (hx : ∀ b, ¬ r.Covers b → (k.lock x).id = r.id → (k.lock x).Covers b →
      Holds k' L' r.id b (k.lock x).type) :
    (∀ y, y ∉ S ++ x :: U → y ≠ b → k'.lock y = k.lock y) ∧
      Keeps r k (S ++ x :: U) k' (S ++ L') := by
  refine ⟨fun y hy hyb => hframe y (fun h' => hy (mem_append_right _ h')) hyb,
    (hkeep.cons hL hx).append_left fun y hy => hframe y (fun h' => ?_) ?_⟩
  · exact (nodup_append.mp (nodup_cons.mp h.nodup).2).2.2 y hy y h' rfl
  · exact (h.ne (mem_append_left _ hy)).2

theorem Apart.keeps_rest (h : Apart k b a (S ++ x :: U))
    (hframe : ∀ y, y ≠ x → y ≠ b → k'.lock y = k.lock y) (hL : ∀ y ∈ U, y ∈ L')
    (hx : ∀ b, ¬ r.Covers b → (k.lock x).id = r.id → (k.lock x).Covers b →
      Holds k' L' r.id b (k.lock x).type) :
    (∀ y, y ∉ S ++ x :: U → y ≠ b → k'.lock y = k.lock y) ∧
      Keeps r k (S ++ x :: U) k' (S ++ L') := by
  have hxU : x ∉ U := (h.rest k fun _ _ => rfl).2.2.2.2
  have hU : ∀ y ∈ U, k'.lock y = k.lock y := fun y hy =>
    hframe y (fun heq => hxU (heq ▸ hy)) (h.ne (y := y) (by simp [hy])).2
  exact h.keeps (fun y hy hyb => hframe y (fun heq => hy (heq ▸ mem_cons_self)) hyb)
    ((Keeps.refl r k' U).of_congr hU) hL hx

/-! ## Granting -/

theorem setLoop_keeps {n : ℕ} {needtolink : Bool} {block : List Addr} (h : Apart k m.addr a block)
    (hw : ¬ WrapsSet k (k.lock a) block) {sp : Option Addr}
    (hrun : setLoop a m n k needtolink block = (k', L, sp)) :
    (∀ y, y ∉ block → y ≠ m.addr → k'.lock y = k.lock y) ∧ Keeps (k.lock a) k block k' L := by
  induction n generalizing k needtolink block k' L sp with
  | zero =>
    obtain ⟨rfl, rfl, rfl⟩ : k = k' ∧ block = L ∧ none = sp := by
      simpa only [setLoop, Prod.mk.injEq] using hrun
    exact ⟨fun _ _ _ => rfl, .refl _ _ _⟩
  | succ n ih =>
    rcases hr : lfFindoverlap k .self (k.lock a) block with ⟨c, skip, rest⟩
    obtain rfl := lfFindoverlap_append hr
    by_cases hc : c = .none
    · subst hc
      simp only [setLoop, hr, Prod.mk.injEq] at hrun
      obtain ⟨rfl, rfl, -⟩ := hrun
      refine ⟨fun _ _ _ => rfl, (Keeps.refl _ _ _).mono fun y hy => ?_⟩
      rcases mem_append.mp hy with hy | hy
      · exact mem_append_left _ hy
      · cases needtolink <;> simp [hy]
    obtain ⟨x, rest', rfl, hid, hxm, hxok, hmeans, hxa, hxb⟩ := h.found hr hc
    have hpred := offPred_eq h.range.1 h.range.2.1
    have hin : ∀ {k2 : Kernel} {M : List Addr} {b : ℤ}, ¬ (k.lock a).Covers b →
        (k.lock x).Covers b → ((k.lock a).Covers b) → Holds k2 M (k.lock a).id b (k.lock x).type :=
      fun hb _ hcov => absurd hcov hb
    cases c with
    | none => exact absurd rfl hc
    | panic => exact hmeans.elim
    | equal =>
      obtain ⟨hm1, hm2⟩ := hmeans
      simp only [setLoop, hr, Prod.mk.injEq] at hrun
      obtain ⟨rfl, rfl, -⟩ := hrun
      refine h.keeps_rest (fun y hy _ => ?_) (fun y hy => mem_cons_of_mem _ hy) ?_
      · refine (update_of_ne hy _ _).trans ?_
        split <;> rfl
      · exact fun b hb _ hcov => hin hb hcov ⟨hm1 ▸ hcov.1, hm2 ▸ hcov.2⟩
    | contains =>
      obtain ⟨hm1, hm2, hm3, hm4⟩ := hmeans
      by_cases hty : (k.lock x).type = (k.lock a).type
      · simp only [setLoop, hr, if_pos hty, Prod.mk.injEq] at hrun
        obtain ⟨rfl, rfl, -⟩ := hrun
        exact ⟨fun _ _ _ => rfl, .refl _ _ _⟩
      have hsucc : (k.lock x).stop ≠ (k.lock a).stop →
          offSucc (k.lock a).stop = (k.lock a).stop + 1 := fun hs =>
        offSucc_of_not_wrapsSet hw h.range hxm hxok hid (fun hne => hty hne.2) hm2 (by omega)
      by_cases hst : (k.lock x).start = (k.lock a).start
      · simp only [setLoop, hr, if_neg hty, if_pos hst, Prod.mk.injEq] at hrun
        obtain ⟨rfl, rfl, -⟩ := hrun
        refine h.keeps_rest (fun y hy _ => update_of_ne hy _ _)
          (fun y hy => by simp [hy]) fun b hb _ hcov => ?_
        exact hid ▸ holds_trimStart (update_self _ _ _) (hsucc (hm4 hst)) (by omega) hb hcov
          (by simp)
      by_cases hsp : (k.lock x).stop = (k.lock a).stop
      · simp only [setLoop, hr, if_neg hty, if_neg hst, if_pos hsp, Prod.mk.injEq] at hrun
        obtain ⟨rfl, rfl, -⟩ := hrun
        refine h.keeps_rest (fun y hy _ => update_of_ne hy _ _)
          (fun y hy => by simp [hy]) fun b hb _ hcov => ?_
        exact hid ▸ holds_trimStop (update_self _ _ _) hpred (by omega) hb hcov (by simp)
      simp only [setLoop, hr, if_neg hty, if_neg hst, if_neg hsp] at hrun
      by_cases hsl : m.sleeps = true
      · simp only [hsl, if_true, Prod.mk.injEq] at hrun
        obtain ⟨rfl, rfl, -⟩ := hrun
        exact ⟨fun _ _ _ => rfl, .refl _ _ _⟩
      simp only [hsl] at hrun
      obtain ⟨rfl, rfl, -⟩ := hrun
      refine h.keeps_rest (fun y hy hyb => ?_) (fun y hy => by simp [hy]) fun b hb _ hcov => ?_
      · exact (splitThree_lock hxb).2.2 y hy hyb
      · have hsplit := splitThree_holds (L := x :: a :: m.addr :: rest') hxb (hsucc hsp) hpred hb
          hcov (by simp) (by simp)
        exact hid ▸ hsplit
    | within =>
      obtain ⟨hm1, hm2⟩ := hmeans
      obtain ⟨k1, hk1, hlock⟩ : ∃ k1, k1 = (if (k.lock a).type = .rdlck ∧ (k.lock x).type = .wrlck
          then lfWakelock k x
          else { k with lfBlock := update k.lfBlock a (k.lfBlock x ++ k.lfBlock a) }).free x ∧
          k1.lock = k.lock := by
        refine ⟨_, rfl, ?_⟩
        split <;> rfl
      simp only [setLoop, hr, ← hk1, Prod.mk.injEq] at hrun
      obtain ⟨rfl, rfl, -⟩ := hrun
      obtain ⟨h1, hla, hU, -, -⟩ := h.rest k1 fun y _ => congrFun hlock y
      obtain ⟨hframe, hkeep⟩ := ih h1 (fun hwr => hw (hla ▸ hwr.of_tail skip x hU)) rfl
      rw [hla] at hkeep
      refine h.keeps (fun y hy hyb => ?_) (hkeep.of_congr hU) (fun y hy => ?_) fun b hb _ hcov => ?_
      · exact (hframe y (fun h' => hy (mem_cons_of_mem _ h')) hyb).trans (congrFun hlock y)
      · cases needtolink <;> simp [hy]
      · refine hin hb hcov ⟨hm1.trans hcov.1, ?_⟩
        have := hcov.2
        omega
    | startsBefore =>
      obtain ⟨hm1, hm2, hm3⟩ := hmeans
      obtain ⟨k1, hk1⟩ : ∃ k1, k1 = lfWakelock (k.setStop x (offPred (k.lock a).start)) x := ⟨_, rfl⟩
      obtain ⟨hlock, hlx⟩ := setStop_lock hk1 rfl
      simp only [setLoop, hr, ← hk1, Prod.mk.injEq] at hrun
      obtain ⟨rfl, rfl, -⟩ := hrun
      obtain ⟨h1, hla, hU, -, hxU⟩ := h.rest k1 hlock
      obtain ⟨hframe, hkeep⟩ := ih h1 (fun hwr => hw (hla ▸ hwr.of_tail skip x hU)) rfl
      rw [hla] at hkeep
      refine h.keeps (fun y hy hyb => ?_) (hkeep.of_congr hU) (fun y hy => by simp [hy])
        fun b hb _ hcov => ?_
      · exact (hframe y (fun h' => hy (mem_cons_of_mem _ h')) hyb).trans
          (hlock y fun heq => hy (heq ▸ mem_cons_self))
      · exact hid ▸ holds_trimStop ((hframe x hxU hxb).trans hlx) hpred (by omega) hb hcov (by simp)
    | endsAfter =>
      obtain ⟨hm1, hm2, hm3, hm4⟩ := hmeans
      have hsucc := offSucc_of_not_wrapsSet hw h.range hxm hxok hid (by omega) hm2 hm4
      simp only [setLoop, hr, Prod.mk.injEq] at hrun
      obtain ⟨rfl, rfl, -⟩ := hrun
      refine h.keeps_rest (fun y hy _ => update_of_ne hy _ _) (fun y hy => ?_)
        fun b hb _ hcov => ?_
      · cases needtolink <;> simp [hy]
      · exact hid ▸ holds_trimStart (update_self _ _ _) hsucc (by omega) hb hcov
          (by cases needtolink <;> simp)

theorem setLoop_grants {n : ℕ} {block : List Addr} (h : Apart k m.addr a block)
    (hw : ¬ WrapsSet k (k.lock a) block)
    (hrun : setLoop a m (n + 1) k true block = (k', L, none)) {b : ℤ} (hb : (k.lock a).Covers b) :
    Holds k' L (k.lock a).id b (k.lock a).type := by
  -- it is enough that the request is on the list as it was
  have hlinked : a ∈ L → Holds k' L (k.lock a).id b (k.lock a).type := by
    intro ha
    have haU : a ∉ block := (nodup_cons.mp h.nodup).1
    have ham : a ≠ m.addr := fun heq => h.fresh (heq ▸ mem_cons_self)
    have hla := (setLoop_keeps h hw hrun).1 a haU ham
    exact ⟨a, ha, by rw [hla], by rwa [hla], by rw [hla]⟩
  rcases hr : lfFindoverlap k .self (k.lock a) block with ⟨c, skip, rest⟩
  obtain rfl := lfFindoverlap_append hr
  by_cases hc : c = .none
  · subst hc
    simp only [setLoop, hr, Prod.mk.injEq] at hrun
    obtain ⟨rfl, rfl, -⟩ := hrun
    exact hlinked (by simp)
  obtain ⟨x, rest', rfl, hid, -, hxok, hmeans, -, -⟩ := h.found hr hc
  cases c with
  | none => exact absurd rfl hc
  | panic => exact hmeans.elim
  | equal =>
    obtain ⟨hm1, hm2⟩ := hmeans
    simp only [setLoop, hr, Prod.mk.injEq] at hrun
    obtain ⟨rfl, rfl, -⟩ := hrun
    refine ⟨x, by simp, ?_⟩
    have hlx : ∀ (k2 : Kernel), k2.lock = k.lock →
        ((k2.setType x (k.lock a).type).free a).lock x = { k.lock x with type := (k.lock a).type } := by
      intro k2 hk2
      refine (update_self _ _ _).trans ?_
      rw [hk2]
    rw [hlx _ (by split <;> rfl)]
    exact ⟨hid, ⟨hm1.symm ▸ hb.1, hm2.symm ▸ hb.2⟩, rfl⟩
  | contains =>
    obtain ⟨hm1, hm2, hm3, hm4⟩ := hmeans
    by_cases hty : (k.lock x).type = (k.lock a).type
    · simp only [setLoop, hr, if_pos hty, Prod.mk.injEq] at hrun
      obtain ⟨rfl, rfl, -⟩ := hrun
      refine ⟨x, by simp, hid, ⟨hm1.trans hb.1, ?_⟩, hty⟩
      have := hb.2
      show (k.lock x).stop = -1 ∨ b ≤ (k.lock x).stop
      omega
    · simp only [setLoop, hr, if_neg hty] at hrun
      refine hlinked ?_
      split_ifs at hrun
      · obtain ⟨-, rfl, -⟩ := hrun
        simp
      · obtain ⟨-, rfl, -⟩ := hrun
        simp
      · cases congrArg (·.2.2) hrun
      · obtain ⟨-, rfl, -⟩ := hrun
        simp
  | within =>
    simp only [setLoop, hr, Prod.mk.injEq] at hrun
    obtain ⟨-, rfl, -⟩ := hrun
    exact hlinked (by simp)
  | startsBefore =>
    simp only [setLoop, hr, Prod.mk.injEq] at hrun
    obtain ⟨-, rfl, -⟩ := hrun
    exact hlinked (by simp)
  | endsAfter =>
    simp only [setLoop, hr, Prod.mk.injEq] at hrun
    obtain ⟨-, rfl, -⟩ := hrun
    exact hlinked (by simp)

/-! ## Clearing -/

theorem clearLoop_keeps {n : ℕ} {lf : List Addr} (h : Apart k m.addr a lf)
    (hw : ¬ WrapsClear k (k.lock a) lf) {sp : Option Addr} (hrun : clearLoop a m n k lf = (k', L, sp)) :
    (∀ y, y ∉ lf → y ≠ m.addr → k'.lock y = k.lock y) ∧ Keeps (k.lock a) k lf k' L := by
  induction n generalizing k lf k' L sp with
  | zero =>
    obtain ⟨rfl, rfl, rfl⟩ : k = k' ∧ lf = L ∧ none = sp := by
      simpa only [clearLoop, Prod.mk.injEq] using hrun
    exact ⟨fun _ _ _ => rfl, .refl _ _ _⟩
  | succ n ih =>
    rcases hr : lfFindoverlap k .self (k.lock a) lf with ⟨c, skip, rest⟩
    obtain rfl := lfFindoverlap_append hr
    by_cases hc : c = .none
    · subst hc
      simp only [clearLoop, hr, Prod.mk.injEq] at hrun
      obtain ⟨rfl, rfl, -⟩ := hrun
      exact ⟨fun _ _ _ => rfl, .refl _ _ _⟩
    obtain ⟨x, rest', rfl, hid, hxm, hxok, hmeans, hxa, hxb⟩ := h.found hr hc
    have hpred := offPred_eq h.range.1 h.range.2.1
    have hsucc := offSucc_of_lt h.range hxok fun hmax => hw ⟨hmax.1, x, hxm, hid, hmax.2⟩
    have hin : ∀ {k2 : Kernel} {M : List Addr} {b : ℤ}, ¬ (k.lock a).Covers b →
        (k.lock a).Covers b → Holds k2 M (k.lock a).id b (k.lock x).type :=
      fun hb hcov => absurd hcov hb
    cases c with
    | none => exact absurd rfl hc
    | panic => exact hmeans.elim
    | equal =>
      obtain ⟨hm1, hm2⟩ := hmeans
      simp only [clearLoop, hr, Prod.mk.injEq] at hrun
      obtain ⟨rfl, rfl, -⟩ := hrun
      exact h.keeps_rest (fun _ _ _ => rfl) (fun _ hy => hy) fun b hb _ hcov =>
        hin hb ⟨hm1 ▸ hcov.1, hm2 ▸ hcov.2⟩
    | contains =>
      obtain ⟨hm1, hm2, hm3, hm4⟩ := hmeans
      by_cases hst : (k.lock x).start = (k.lock a).start
      · have := hm4 hst
        simp only [clearLoop, hr, if_pos hst, Prod.mk.injEq] at hrun
        obtain ⟨rfl, rfl, -⟩ := hrun
        refine h.keeps_rest (fun y hy _ => update_of_ne hy _ _)
          (fun y hy => mem_cons_of_mem _ hy) fun b hb _ hcov => ?_
        exact hid ▸ holds_trimStart (update_self _ _ _) (hsucc hm2 (by omega)) (by omega) hb hcov
          (by simp)
      by_cases hsp : (k.lock x).stop = (k.lock a).stop
      · simp only [clearLoop, hr, if_neg hst, if_pos hsp, Prod.mk.injEq] at hrun
        obtain ⟨rfl, rfl, -⟩ := hrun
        refine h.keeps_rest (fun y hy _ => update_of_ne hy _ _)
          (fun y hy => mem_cons_of_mem _ hy) fun b hb _ hcov => ?_
        exact hid ▸ holds_trimStop (update_self _ _ _) hpred (by omega) hb hcov (by simp)
      simp only [clearLoop, hr, if_neg hst, if_neg hsp] at hrun
      by_cases hsl : m.sleeps = true
      · simp only [hsl, if_true, Prod.mk.injEq] at hrun
        obtain ⟨rfl, rfl, -⟩ := hrun
        exact ⟨fun _ _ _ => rfl, Keeps.of_congr (.refl _ _ _) fun _ _ => rfl⟩
      simp only [hsl] at hrun
      obtain ⟨rfl, rfl, -⟩ := hrun
      refine h.keeps_rest (fun y hy hyb => ?_) (fun y hy => by simp [hy]) fun b hb _ hcov => ?_
      · exact (splitThree_lock hxb).2.2 y hy hyb
      · have hsplit := splitThree_holds (k := lfWakelock k x) (L := x :: m.addr :: rest') hxb
          (hsucc hm2 (by omega)) hpred hb hcov (by simp) (by simp)
        exact hid ▸ hsplit
    | within =>
      obtain ⟨hm1, hm2⟩ := hmeans
      simp only [clearLoop, hr, Prod.mk.injEq] at hrun
      obtain ⟨rfl, rfl, -⟩ := hrun
      obtain ⟨h1, hla, hU, -, -⟩ := h.rest ((lfWakelock k x).free x) fun _ _ => rfl
      obtain ⟨hframe, hkeep⟩ := ih h1 (fun hwr => hw (WrapsClear.of_tail hwr skip x hU)) rfl
      refine h.keeps (fun y hy hyb => ?_) (hkeep.of_congr hU) (fun _ hy => hy) fun b hb _ hcov => ?_
      · exact hframe y (fun h' => hy (mem_cons_of_mem _ h')) hyb
      · refine hin hb ⟨hm1.trans hcov.1, ?_⟩
        have := hcov.2
        omega
    | startsBefore =>
      obtain ⟨hm1, hm2, hm3⟩ := hmeans
      obtain ⟨k1, hk1⟩ : ∃ k1, k1 = (lfWakelock k x).setStop x (offPred (k.lock a).start) := ⟨_, rfl⟩
      obtain ⟨hlock, hlx⟩ := setStop_lock hk1 rfl
      simp only [clearLoop, hr, ← hk1, Prod.mk.injEq] at hrun
      obtain ⟨rfl, rfl, -⟩ := hrun
      obtain ⟨h1, hla, hU, -, hxU⟩ := h.rest k1 hlock
      obtain ⟨hframe, hkeep⟩ := ih h1 (fun hwr => hw (WrapsClear.of_tail (hla ▸ hwr) skip x hU)) rfl
      rw [hla] at hkeep
      refine h.keeps (fun y hy hyb => ?_) (hkeep.of_congr hU) (fun y hy => by simp [hy])
        fun b hb _ hcov => ?_
      · exact (hframe y (fun h' => hy (mem_cons_of_mem _ h')) hyb).trans
          (hlock y fun heq => hy (heq ▸ mem_cons_self))
      · exact hid ▸ holds_trimStop ((hframe x hxU hxb).trans hlx) hpred (by omega) hb hcov (by simp)
    | endsAfter =>
      obtain ⟨hm1, hm2, hm3, hm4⟩ := hmeans
      simp only [clearLoop, hr, Prod.mk.injEq] at hrun
      obtain ⟨rfl, rfl, -⟩ := hrun
      refine h.keeps_rest (fun y hy _ => update_of_ne hy _ _)
        (fun y hy => mem_cons_of_mem _ hy) fun b hb _ hcov => ?_
      exact hid ▸ holds_trimStart (update_self _ _ _) (hsucc hm2 hm4) (by omega) hb hcov (by simp)

/-- Nothing is held inside the range. -/
def Clears (l : Lockf) (k : Kernel) (L : List Addr) : Prop :=
  ∀ x ∈ L, (k.lock x).id = l.id → ∀ b, l.Covers b → ¬ (k.lock x).Covers b

theorem Clears.congr {l : Lockf} (h : Clears l k L) (hL : ∀ y ∈ L, k'.lock y = k.lock y) :
    Clears l k' L := by
  intro x hx
  rw [hL x hx]
  exact h x hx

theorem Clears.append {l : Lockf} (h : Clears l k S) (h' : Clears l k L) : Clears l k (S ++ L) :=
  fun x hx => (mem_append.mp hx).elim (h x) (h' x)

theorem Clears.cons {l : Lockf} (hx : (k.lock x).stop ≠ -1 ∧ (k.lock x).stop < l.start ∨
    l.stop ≠ -1 ∧ l.stop < (k.lock x).start) (h : Clears l k L) : Clears l k (x :: L) := by
  intro y hy hid b hb hcov
  rcases mem_cons.mp hy with rfl | hy
  · obtain ⟨h1, h2⟩ := hb
    obtain ⟨g1, g2⟩ := hcov
    omega
  · exact h y hy hid b hb hcov

theorem Clears.of_sorted {l : Lockf} (hs : Sorted k (x :: U)) (hid : (k.lock x).id = l.id)
    (hx : (k.lock x).stop = -1 ∨ l.stop ≠ -1 ∧ l.stop ≤ (k.lock x).stop) : Clears l k U := by
  intro y hy hyo b ⟨h1, h2⟩ ⟨g1, g2⟩
  obtain ⟨hstop, hlt⟩ := List.rel_of_pairwise_cons hs hy (hid.trans hyo.symm)
  omega

theorem clearLoop_clears {n : ℕ} {lf : List Addr} (hn : lf.length < n) (h : Apart k m.addr a lf)
    (hs : Sorted k lf) (hw : ¬ WrapsClear k (k.lock a) lf)
    (hrun : clearLoop a m n k lf = (k', L, none)) : Clears (k.lock a) k' L := by
  induction n generalizing k lf k' L with
  | zero => omega
  | succ n ih =>
    rcases hr : lfFindoverlap k .self (k.lock a) lf with ⟨c, skip, rest⟩
    obtain rfl := lfFindoverlap_append hr
    obtain ⟨hskip, hrest⟩ := lfFindoverlap_self_skip hr
    obtain ⟨-, hsR, -⟩ := pairwise_append.mp hs
    have hclear : Clears (k.lock a) k skip := by
      intro y hy hid b ⟨h1, h2⟩ ⟨g1, g2⟩
      have := hskip y hy hid
      omega
    by_cases hc : c = .none
    · subst hc
      simp only [clearLoop, hr, Prod.mk.injEq] at hrun
      obtain ⟨rfl, rfl, -⟩ := hrun
      refine hclear.append ?_
      rcases rest with _ | ⟨x, rest'⟩
      · exact fun _ hx => absurd hx not_mem_nil
      · obtain ⟨hid, hstop, hlt⟩ := hrest rfl x rest' rfl
        obtain ⟨⟨_, _, h3⟩, _⟩ := h.ok x (by simp)
        exact .cons (.inr ⟨hstop, hlt⟩) (.of_sorted hsR hid (by omega))
    obtain ⟨x, rest', rfl, hid, hxm, hxok, hmeans, hxa, hxb⟩ := h.found hr hc
    have hpred := offPred_eq h.range.1 h.range.2.1
    have hsucc := offSucc_of_lt h.range hxok fun hmax => hw ⟨hmax.1, x, hxm, hid, hmax.2⟩
    -- a case that ends the loop
    have hdone : ∀ {k2 : Kernel} {M : List Addr}, (∀ y, y ≠ x → y ≠ m.addr → k2.lock y = k.lock y) →
        (Clears (k.lock a) k2 rest' → Clears (k.lock a) k2 M) →
        ((k.lock x).stop = -1 ∨ (k.lock a).stop ≠ -1 ∧ (k.lock a).stop ≤ (k.lock x).stop) →
        Clears (k.lock a) k2 (skip ++ M) := by
      intro k2 M hframe hM hx
      obtain ⟨-, -, -, hS, hxU⟩ := h.rest k fun _ _ => rfl
      refine (hclear.congr fun y hy => hframe y (hS y hy).2 (h.ne (by simp [hy])).2).append (hM ?_)
      exact (Clears.of_sorted hsR hid hx).congr fun y hy =>
        hframe y (fun heq => hxU (heq ▸ hy)) (h.ne (y := y) (by simp [hy])).2
    cases c with
    | none => exact absurd rfl hc
    | panic => exact hmeans.elim
    | equal =>
      obtain ⟨hm1, hm2⟩ := hmeans
      simp only [clearLoop, hr, Prod.mk.injEq] at hrun
      obtain ⟨rfl, rfl, -⟩ := hrun
      exact hdone (fun _ _ _ => rfl) (fun hM => hM) (by omega)
    | contains =>
      obtain ⟨hm1, hm2, hm3, hm4⟩ := hmeans
      by_cases hst : (k.lock x).start = (k.lock a).start
      · have := hm4 hst
        simp only [clearLoop, hr, if_pos hst, Prod.mk.injEq] at hrun
        obtain ⟨rfl, rfl, -⟩ := hrun
        refine hdone (fun y hy _ => update_of_ne hy _ _) (.cons (.inr ⟨hm2, ?_⟩)) (by omega)
        rw [show ((lfWakelock k x).setStart x _).lock x = _ from update_self _ _ _]
        show _ < offSucc _
        omega
      by_cases hsp : (k.lock x).stop = (k.lock a).stop
      · simp only [clearLoop, hr, if_neg hst, if_pos hsp, Prod.mk.injEq] at hrun
        obtain ⟨rfl, rfl, -⟩ := hrun
        refine hdone (fun y hy _ => update_of_ne hy _ _) (.cons (.inl ?_)) (by omega)
        rw [show ((lfWakelock k x).setStop x _).lock x = _ from update_self _ _ _]
        show offPred _ ≠ -1 ∧ offPred _ < _
        have := hxok.1.1
        omega
      · simp only [clearLoop, hr, if_neg hst, if_neg hsp] at hrun
        by_cases hsl : m.sleeps = true
        · simp only [hsl, if_true] at hrun
          cases congrArg (·.2.2) hrun
        simp only [hsl] at hrun
        obtain ⟨rfl, rfl, -⟩ := hrun
        obtain ⟨hlx, hlb, hlne⟩ := splitThree_lock (k := lfWakelock k x) (a := a) hxb
        refine hdone hlne (fun hM => .cons (.inl ?_) (.cons (.inr ⟨hm2, ?_⟩) hM)) (by omega)
        · rw [hlx]
          show offPred (k.lock a).start ≠ -1 ∧ offPred (k.lock a).start < _
          have := hxok.1.1
          omega
        · rw [hlb]
          show _ < offSucc (k.lock a).stop
          omega
    | within =>
      simp only [clearLoop, hr, Prod.mk.injEq] at hrun
      obtain ⟨rfl, rfl, hsp⟩ := hrun
      obtain ⟨h1, hla, hU, hS, -⟩ := h.rest ((lfWakelock k x).free x) fun _ _ => rfl
      have hw1 := fun hwr => hw (WrapsClear.of_tail hwr skip x hU)
      have hframe := (clearLoop_keeps (n := n) h1 hw1 rfl).1
      refine (hclear.congr fun y hy => hframe y (hS y hy).1 (h.ne (by simp [hy])).2).append ?_
      refine ih (k := (lfWakelock k x).free x) ?_ h1
        (Sorted.congr (List.Pairwise.of_cons hsR) fun _ _ => rfl) hw1
        (Prod.ext rfl (Prod.ext rfl hsp))
      simp only [length_append, length_cons] at hn
      omega
    | startsBefore =>
      obtain ⟨hm1, hm2, hm3⟩ := hmeans
      obtain ⟨k1, hk1⟩ : ∃ k1, k1 = (lfWakelock k x).setStop x (offPred (k.lock a).start) := ⟨_, rfl⟩
      obtain ⟨hlock, hlx⟩ := setStop_lock hk1 rfl
      simp only [clearLoop, hr, ← hk1, Prod.mk.injEq] at hrun
      obtain ⟨rfl, rfl, hsp⟩ := hrun
      obtain ⟨h1, hla, hU, hS, hxU⟩ := h.rest k1 hlock
      have hw1 := fun hwr => hw (WrapsClear.of_tail (hla ▸ hwr) skip x hU)
      have hframe := (clearLoop_keeps (n := n) h1 hw1 rfl).1
      refine (hclear.congr fun y hy => ?_).append (.cons (.inl ?_) ?_)
      · exact (hframe y (hS y hy).1 (h.ne (by simp [hy])).2).trans (hlock y (hS y hy).2)
      · rw [hframe x hxU hxb, hlx]
        show offPred _ ≠ -1 ∧ offPred _ < _
        have := hxok.1.1
        omega
      · rw [← hla]
        refine ih ?_ h1 (Sorted.congr (List.Pairwise.of_cons hsR) hU) hw1
          (Prod.ext rfl (Prod.ext rfl hsp))
        simp only [length_append, length_cons] at hn
        omega
    | endsAfter =>
      obtain ⟨hm1, hm2, hm3, hm4⟩ := hmeans
      simp only [clearLoop, hr, Prod.mk.injEq] at hrun
      obtain ⟨rfl, rfl, -⟩ := hrun
      refine hdone (fun y hy _ => update_of_ne hy _ _) (.cons (.inr ⟨hm2, ?_⟩)) (by omega)
      rw [show ((lfWakelock k x).setStart x _).lock x = _ from update_self _ _ _]
      show _ < offSucc _
      omega

theorem clearLoop_not_sleeps {n : ℕ} {lf : List Addr} (h : Apart k m.addr a lf)
    (hafter : ∀ z ∈ lf, (k.lock z).id = (k.lock a).id → (k.lock a).start < (k.lock z).start) :
    (clearLoop a m n k lf).2.2 = none := by
  induction n generalizing k lf with
  | zero => rfl
  | succ n ih =>
    rcases hr : lfFindoverlap k .self (k.lock a) lf with ⟨c, skip, rest⟩
    obtain rfl := lfFindoverlap_append hr
    by_cases hc : c = .none
    · subst hc
      simp only [clearLoop, hr]
    obtain ⟨x, rest', rfl, hid, hxm, -, hmeans, -, -⟩ := h.found hr hc
    have hstart := hafter x hxm hid
    cases c with
    | none => exact absurd rfl hc
    | panic => exact hmeans.elim
    | equal => simp only [clearLoop, hr]
    | contains =>
      have := hmeans.1
      omega
    | within =>
      obtain ⟨h1, hla, hU, -, -⟩ := h.rest ((lfWakelock k x).free x) fun _ _ => rfl
      simp only [clearLoop, hr]
      exact ih h1 fun z hz => hafter z (by simp [hz])
    | startsBefore =>
      have := hmeans.1
      omega
    | endsAfter => simp only [clearLoop, hr]

theorem clearLoop_sleeps {n : ℕ} {lf : List Addr} (h : Apart k m.addr a lf) (hs : Sorted k lf)
    {y : Addr} (hrun : clearLoop a m n k lf = (k', L, some y)) : k'.lock = k.lock ∧ L = lf := by
  obtain _ | n := n
  · cases congrArg (·.2.2) hrun
  rcases hr : lfFindoverlap k .self (k.lock a) lf with ⟨c, skip, rest⟩
  obtain rfl := lfFindoverlap_append hr
  by_cases hc : c = .none
  · subst hc
    simp only [clearLoop, hr] at hrun
    cases congrArg (·.2.2) hrun
  obtain ⟨x, rest', rfl, hid, -, hxok, hmeans, -, -⟩ := h.found hr hc
  obtain ⟨-, hsR, -⟩ := pairwise_append.mp hs
  -- the owner's locks after one that reaches into the range
  have hafter : (k.lock x).stop = -1 ∨ (k.lock a).start ≤ (k.lock x).stop →
      ∀ z ∈ rest', (k.lock z).id = (k.lock a).id → (k.lock a).start < (k.lock z).start := by
    intro hx z hz hzo
    obtain ⟨hstop, hlt⟩ := List.rel_of_pairwise_cons hsR hz (hid.trans hzo.symm)
    omega
  cases c with
  | none => exact absurd rfl hc
  | panic => exact hmeans.elim
  | equal =>
    simp only [clearLoop, hr] at hrun
    cases congrArg (·.2.2) hrun
  | contains =>
    simp only [clearLoop, hr] at hrun
    split_ifs at hrun
    · cases congrArg (·.2.2) hrun
    · cases congrArg (·.2.2) hrun
    · obtain ⟨rfl, rfl, -⟩ := hrun
      exact ⟨rfl, rfl⟩
    · cases congrArg (·.2.2) hrun
  | within =>
    obtain ⟨hm1, hm2⟩ := hmeans
    obtain ⟨h1, hla, hU, -, -⟩ := h.rest ((lfWakelock k x).free x) fun _ _ => rfl
    have hnone := clearLoop_not_sleeps (n := n) h1 (hafter (by
      obtain ⟨⟨_, _, h3⟩, _⟩ := hxok
      omega))
    simp only [clearLoop, hr] at hrun
    cases hnone.symm.trans (congrArg (·.2.2) hrun)
  | startsBefore =>
    obtain ⟨hm1, hm2, hm3⟩ := hmeans
    obtain ⟨h1, hla, hU, -, -⟩ := h.rest
      ((lfWakelock k x).setStop x (offPred (k.lock a).start)) fun y hy =>
        update_of_ne hy _ _
    have hnone := clearLoop_not_sleeps (n := n) h1 fun z hz hzo => by
      rw [hla, hU z hz] at hzo ⊢
      exact hafter hm2 z hz hzo
    simp only [clearLoop, hr] at hrun
    cases hnone.symm.trans (congrArg (·.2.2) hrun)
  | endsAfter =>
    simp only [clearLoop, hr] at hrun
    cases congrArg (·.2.2) hrun

end keeps

end Bsd386.Ufs.Advlock
