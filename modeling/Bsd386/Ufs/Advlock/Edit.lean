import Bsd386.Ufs.Advlock.Setlock

/-!
# What granting and clearing do to a list of locks

`Edit s o b k U k' L W` says what a stretch of `lf_setlock` or `lf_clearlock` for the owner `o`
may do: it goes from the locks `U` in the state `k` to the list `L` in the state `k'`, waking the
requests `W`; `b` is the address `MALLOC` hands out. Locks of other owners are left alone, every
lock of `L` covers part of a lock of `U` (`Lockf.Sub`), and a lock whose waiters are not woken
keeps them and, if `s` holds, does not become weaker.
-/

namespace Bsd386.Ufs.Advlock

open Function List

/-! ## The six cases -/

/-- The owner is a process. Source: fcntl, flock -/
def Id.isProc : Id → Bool
  | .proc _ => true
  | .file _ => false

/-- A lock as the callers make it: a proper range, and `F_POSIX` set exactly for processes.
Source: fcntl, flock; ufs_advlock -/
def Lockf.Ok (l : Lockf) : Prop := l.RangeOk ∧ l.posix = l.id.isProc

/-- The meaning of the cases. Source: lf_findoverlap -/
def OvCase.Means : OvCase → Lockf → Lockf → Prop
  | .none, lf, l => lf.stop ≠ -1 ∧ lf.stop < l.start ∨ l.stop ≠ -1 ∧ l.stop < lf.start
  | .equal, lf, l => lf.start = l.start ∧ lf.stop = l.stop
  | .contains, lf, l =>
    lf.start ≤ l.start ∧ l.stop ≠ -1 ∧ (lf.stop = -1 ∨ l.stop ≤ lf.stop) ∧
      (lf.start = l.start → lf.stop ≠ l.stop)
  | .within, lf, l => l.start ≤ lf.start ∧ (l.stop = -1 ∨ lf.stop ≠ -1 ∧ lf.stop ≤ l.stop)
  | .startsBefore, lf, l =>
    lf.start < l.start ∧ (lf.stop = -1 ∨ l.start ≤ lf.stop) ∧
      (l.stop = -1 ∨ lf.stop ≠ -1 ∧ lf.stop < l.stop)
  | .endsAfter, lf, l =>
    l.start < lf.start ∧ l.stop ≠ -1 ∧ lf.start ≤ l.stop ∧ (lf.stop = -1 ∨ l.stop < lf.stop)
  | .panic, _, _ => False

theorem ovcase_means {lf l : Lockf} : (ovcase lf l).Means lf l := by
  by_cases hno : noOverlap lf l = true
  · rw [ovcase_eq_none_iff.mpr hno]
    simpa only [OvCase.Means, noOverlap, Bool.or_eq_true, Bool.and_eq_true,
      decide_eq_true_eq] using hno
  have hov := hno
  simp only [noOverlap, Bool.or_eq_true, Bool.and_eq_true, decide_eq_true_eq] at hov
  unfold ovcase
  rw [if_neg hno]
  split_ifs with c1 c2 c3 c4 c5 <;> simp only [OvCase.Means] <;> omega

theorem lfFindoverlap_self_skip {k : Kernel} {lock : Lockf} {l skip rest : List Addr} {c : OvCase}
    (h : lfFindoverlap k .self lock l = (c, skip, rest)) :
    (∀ x ∈ skip, (k.lock x).id = lock.id → (k.lock x).stop ≠ -1 ∧ (k.lock x).stop < lock.start) ∧
      (c = .none → ∀ x xs, rest = x :: xs →
        (k.lock x).id = lock.id ∧ lock.stop ≠ -1 ∧ lock.stop < (k.lock x).start) := by
  induction l generalizing skip with
  | nil =>
    obtain ⟨-, rfl, rfl⟩ := h
    exact ⟨by simp, by simp⟩
  | cons x xs ih =>
    rcases hr : lfFindoverlap k .self lock xs with ⟨c', skip', rest'⟩
    simp only [lfFindoverlap, hr] at h
    split_ifs at h with hw hno hstop <;>
      (simp only [Prod.mk.injEq] at h
       obtain ⟨rfl, rfl, rfl⟩ := h)
    · obtain ⟨hskip, hrest⟩ := ih hr
      refine ⟨?_, hrest⟩
      intro y hy hid
      rcases mem_cons.mp hy with rfl | hy
      · simp [Whose.wants, hid] at hw
      · exact hskip y hy hid
    · refine ⟨by simp, ?_⟩
      rintro - y ys ⟨rfl, rfl⟩
      exact ⟨by simpa [Whose.wants] using hw, hstop.2⟩
    · obtain ⟨hskip, hrest⟩ := ih hr
      refine ⟨?_, hrest⟩
      intro y hy hid
      rcases mem_cons.mp hy with rfl | hy
      · simp only [noOverlap, Bool.or_eq_true, Bool.and_eq_true, decide_eq_true_eq] at hno
        rcases hno with hno | hno
        · exact hno
        · exact absurd ⟨trivial, hno⟩ hstop
      · exact hskip y hy hid
    · refine ⟨by simp, fun hnone => ?_⟩
      exact absurd (ovcase_eq_none_iff.mp hnone) hno

/-! ## Parts of locks -/

/-- `m` is a lock of the same kind as `l`, on a part of its range. -/
structure Lockf.Sub (m l : Lockf) : Prop where
  ok : m.Ok
  id : m.id = l.id
  inode : m.inode = l.inode
  type : m.type = l.type
  start : l.start ≤ m.start
  stop : l.stop = -1 ∨ m.stop ≠ -1 ∧ m.stop ≤ l.stop

/-- `m` has the range of `l` and is not a downgrade of it. -/
structure Lockf.Stronger (l m : Lockf) : Prop where
  id : m.id = l.id
  start : m.start = l.start
  stop : m.stop = l.stop
  type : l.type = .wrlck → m.type = .wrlck

theorem Lockf.Sub.refl {l : Lockf} (h : l.Ok) : l.Sub l := by
  refine ⟨h, rfl, rfl, rfl, le_rfl, ?_⟩
  by_cases hs : l.stop = -1
  · exact .inl hs
  · exact .inr ⟨hs, le_rfl⟩

theorem Lockf.Sub.trans {l m n : Lockf} (h : l.Sub m) (h' : m.Sub n) : l.Sub n := by
  refine ⟨h.ok, h.id.trans h'.id, h.inode.trans h'.inode, h.type.trans h'.type,
    h'.start.trans h.start, ?_⟩
  have := h.stop
  have := h'.stop
  omega

theorem Lockf.Stronger.refl (l : Lockf) : l.Stronger l := ⟨rfl, rfl, rfl, fun h => h⟩

theorem Lockf.Stronger.trans {l m n : Lockf} (h : l.Stronger m) (h' : m.Stronger n) :
    l.Stronger n :=
  ⟨h'.id.trans h.id, h'.start.trans h.start, h'.stop.trans h.stop, fun ht => h'.type (h.type ht)⟩

theorem Lockf.Sub.blocks {m l w : Lockf} (h : m.Sub l) (hb : Blocks m w) : Blocks l w := by
  obtain ⟨hid, hov, hty⟩ := hb
  refine ⟨h.id ▸ hid, ?_, by rwa [← h.type]⟩
  have hstart := h.start
  have hstop := h.stop
  simp only [noOverlap, Bool.or_eq_false_iff, Bool.and_eq_false_iff, decide_eq_false_iff_not,
    not_not, not_lt] at hov ⊢
  omega

theorem Lockf.Stronger.blocks {l m w : Lockf} (h : l.Stronger m) (hb : Blocks l w) :
    Blocks m w := by
  obtain ⟨hid, hov, hty⟩ := hb
  refine ⟨h.id ▸ hid, ?_, hty.imp_right h.type⟩
  rwa [noOverlap, h.start, h.stop]

theorem Blocks.symm {l m : Lockf} (h : Blocks l m) : Blocks m l := by
  obtain ⟨hid, hov, hty⟩ := h
  refine ⟨hid.symm, ?_, hty.symm⟩
  rw [noOverlap, Bool.or_comm]
  exact hov

theorem offPred_eq {x : ℤ} (h0 : 0 ≤ x) (h1 : x ≤ maxOff) : offPred x = x - 1 := by
  unfold maxOff at h1
  unfold offPred
  rw [Int.bmod_eq_of_le] <;> omega

theorem offSucc_eq {x : ℤ} (h0 : 0 ≤ x) (h1 : x < maxOff) : offSucc x = x + 1 := by
  unfold maxOff at h1
  unfold offSucc
  rw [Int.bmod_eq_of_le] <;> omega

theorem Lockf.Sub.trimStop {x l : Lockf} (hx : x.Ok) (hl : l.RangeOk) (h : x.start < l.start)
    (h' : x.stop = -1 ∨ l.start ≤ x.stop) : { x with stop := offPred l.start }.Sub x := by
  obtain ⟨⟨hx1, hx2, hx3⟩, hposix⟩ := hx
  obtain ⟨hl1, hl2, hl3⟩ := hl
  have hp := offPred_eq hl1 hl2
  refine ⟨⟨⟨hx1, hx2, ?_⟩, hposix⟩, rfl, rfl, rfl, le_rfl, ?_⟩
  · show offPred l.start = -1 ∨ x.start ≤ offPred l.start ∧ offPred l.start ≤ maxOff
    omega
  · show x.stop = -1 ∨ offPred l.start ≠ -1 ∧ offPred l.start ≤ x.stop
    omega

theorem Lockf.Sub.trimStart {x l : Lockf} (hx : x.Ok) (hl : l.RangeOk)
    (hw : l.stop ≠ maxOff ∨ x.stop ≠ -1) (h : x.start ≤ l.stop)
    (h' : x.stop = -1 ∨ l.stop < x.stop) :
    { x with start := offSucc l.stop }.Sub x ∧ offSucc l.stop = l.stop + 1 := by
  obtain ⟨⟨hx1, hx2, hx3⟩, hposix⟩ := hx
  obtain ⟨hl1, hl2, hl3⟩ := hl
  have hs := offSucc_eq (x := l.stop) (by omega) (by omega)
  refine ⟨⟨⟨⟨?_, ?_, ?_⟩, hposix⟩, rfl, rfl, rfl, ?_, ?_⟩, hs⟩
  · show 0 ≤ offSucc l.stop
    omega
  · show offSucc l.stop ≤ maxOff
    omega
  · show x.stop = -1 ∨ offSucc l.stop ≤ x.stop ∧ x.stop ≤ maxOff
    omega
  · show x.start ≤ offSucc l.stop
    omega
  · show x.stop = -1 ∨ x.stop ≠ -1 ∧ x.stop ≤ x.stop
    omega

/-! ## Edits -/

/-- What a stretch of code for the owner `o` may do to the locks `U`. -/
structure Edit (s : Prop) (o : Id) (b : Addr) (k : Kernel) (U : List Addr) (k' : Kernel)
    (L W : List Addr) : Prop where
  list : k'.iLockf = k.iLockf
  /-- Only the owner's locks change. -/
  lock : ∀ y, y ≠ b → (y ∈ U → (k.lock y).id ≠ o) → k'.lock y = k.lock y
  ident : ∀ y, y ≠ b → (k'.lock y).id = (k.lock y).id
  live : ∀ y ∈ k.live, y ≠ b → y ∉ U → y ∈ k'.live
  mem_live : (∀ y ∈ U, y ∈ k.live) → ∀ y ∈ L, y ∈ k'.live
  mem : ∀ y ∈ L, y ∈ U ∨ y = b
  others : ∀ y ∈ U, (k.lock y).id ≠ o → y ∈ L
  sub : ∀ y ∈ L, ∃ z ∈ U, (k'.lock y).Sub (k.lock z)
  proc : ∀ q, k'.proc q = wakeup W (k.proc q)
  next : ∀ w, w ≠ b → w ∉ W → k'.lfNext w = k.lfNext w
  block : ∀ y, y ≠ b → k'.lfBlock y = k.lfBlock y ∨ k'.lfBlock y = []
  block_new : b ∈ L → k'.lfBlock b = []
  block_frame : ∀ y, y ≠ b → y ∉ U → y ∉ W → k'.lfBlock y = k.lfBlock y
  /-- The requests woken waited for a lock of the owner, which has no waiters left. -/
  woken : ∀ w ∈ W, ∃ y ∈ U, (k.lock y).id = o ∧ w ∈ k.lfBlock y ∧ k'.lfBlock y = []
  /-- A request that is not woken still waits for the same lock. -/
  stay : ∀ y ∈ U, ∀ w ∈ k.lfBlock y, w ∉ W → y ∈ L ∧ w ∈ k'.lfBlock y
  /-- A lock that keeps its waiters does not become weaker. -/
  strong : s → ∀ y ∈ U, y ∈ L → k'.lfBlock y = [] ∨ (k.lock y).Stronger (k'.lock y)

theorem wakeup_nil (s : PState) : wakeup [] s = s := by
  cases s <;> simp [wakeup]

theorem wakeup_wakeup (V W : List Addr) (s : PState) :
    wakeup W (wakeup V s) = wakeup (V ++ W) s := by
  cases s with
  | asleep w =>
    by_cases hV : w ∈ V
    · simp [wakeup, hV]
    · simp [wakeup, hV]
  | _ => rfl

/-- The addresses of a list of locks, as the loops find them. -/
structure Listed (k : Kernel) (b : Addr) (U : List Addr) : Prop where
  nodup : U.Nodup
  fresh : b ∉ U
  ok : ∀ y ∈ U, (k.lock y).Ok
  /-- A lock of the list waits for none of them. -/
  off : ∀ y ∈ U, ∀ z ∈ U, y ∉ k.lfBlock z

section edit

variable {s : Prop} {o : Id} {a b x : Addr} {k k1 k2 : Kernel} {U L M V W : List Addr}

theorem Listed.tail (h : Listed k b (x :: U)) : Listed k b U :=
  ⟨(nodup_cons.mp h.nodup).2, fun hb => h.fresh (mem_cons_of_mem _ hb),
    fun y hy => h.ok y (mem_cons_of_mem _ hy),
    fun y hy z hz => h.off y (mem_cons_of_mem _ hy) z (mem_cons_of_mem _ hz)⟩

theorem Listed.of_append_right (h : Listed k b (L ++ U)) : Listed k b U := by
  induction L with
  | nil => exact h
  | cons x L ih => exact ih h.tail

theorem Listed.congr (h : Listed k b U) (hp : L.Perm U) : Listed k b L :=
  ⟨hp.nodup_iff.mpr h.nodup, fun hb => h.fresh (hp.mem_iff.mp hb),
    fun y hy => h.ok y (hp.mem_iff.mp hy),
    fun y hy z hz => h.off y (hp.mem_iff.mp hy) z (hp.mem_iff.mp hz)⟩

theorem Listed.of_append_left (h : Listed k b (U ++ L)) : Listed k b U :=
  (h.congr List.perm_append_comm).of_append_right

theorem Edit.refl (h : ∀ y ∈ U, (k.lock y).Ok) (hb : b ∉ U) : Edit s o b k U k U [] where
  list := rfl
  lock := fun _ _ _ => rfl
  ident := fun _ _ => rfl
  live := fun _ hy _ _ => hy
  mem_live := fun hU => hU
  mem := fun _ hy => .inl hy
  others := fun _ hy _ => hy
  sub := fun y hy => ⟨y, hy, .refl (h y hy)⟩
  proc := fun _ => (wakeup_nil _).symm
  next := fun _ _ _ => rfl
  block := fun _ _ => .inl rfl
  block_new := fun h => absurd h hb
  block_frame := fun _ _ _ _ => rfl
  woken := fun _ hw => absurd hw not_mem_nil
  stay := fun _ hy _ hw _ => ⟨hy, hw⟩
  strong := fun _ _ _ _ => .inr (.refl _)

theorem Edit.trans (hb : b ∉ U) (h : Edit s o b k U k1 L V) (h' : Edit s o b k1 L k2 M W) :
    Edit s o b k U k2 M (V ++ W) where
  list := h'.list.trans h.list
  lock := by
    intro y hyb hy
    rw [h'.lock y hyb ?_, h.lock y hyb hy]
    intro hyL
    rw [h.lock y hyb hy]
    exact hy ((h.mem y hyL).resolve_right hyb)
  ident := fun y hyb => (h'.ident y hyb).trans (h.ident y hyb)
  live := fun y hy hyb hyU =>
    h'.live y (h.live y hy hyb hyU) hyb fun hyL => hyU ((h.mem y hyL).resolve_right hyb)
  mem_live := fun hU => h'.mem_live (h.mem_live hU)
  mem := by
    intro y hy
    rcases h'.mem y hy with hy | rfl
    · exact h.mem y hy
    · exact .inr rfl
  others := by
    intro y hy hid
    have hyb : y ≠ b := fun heq => hb (heq ▸ hy)
    refine h'.others y (h.others y hy hid) ?_
    rwa [h.lock y hyb fun _ => hid]
  sub := by
    intro y hy
    obtain ⟨z, hz, hyz⟩ := h'.sub y hy
    obtain ⟨u, hu, hzu⟩ := h.sub z hz
    exact ⟨u, hu, hyz.trans hzu⟩
  proc := by
    intro q
    rw [h'.proc, h.proc, wakeup_wakeup]
  next := by
    intro w hwb hw
    rw [h'.next w hwb fun hw' => hw (mem_append_right _ hw'),
      h.next w hwb fun hw' => hw (mem_append_left _ hw')]
  block := by
    intro y hyb
    rcases h'.block y hyb with h2 | h2
    · rw [h2]
      exact h.block y hyb
    · exact .inr h2
  block_new := h'.block_new
  block_frame := by
    intro y hyb hyU hy
    rw [h'.block_frame y hyb (fun hyL => hyU ((h.mem y hyL).resolve_right hyb))
        fun hy' => hy (mem_append_right _ hy'),
      h.block_frame y hyb hyU fun hy' => hy (mem_append_left _ hy')]
  woken := by
    intro w hw
    rcases mem_append.mp hw with hw | hw
    · obtain ⟨y, hy, hid, hwy, hnil⟩ := h.woken w hw
      refine ⟨y, hy, hid, hwy, ?_⟩
      rcases h'.block y (fun heq => hb (heq ▸ hy)) with h2 | h2
      · rw [h2, hnil]
      · exact h2
    obtain ⟨y, hy, hid, hwy, hnil⟩ := h'.woken w hw
    have hyb : y ≠ b := by
      rintro rfl
      rw [h.block_new hy] at hwy
      exact not_mem_nil hwy
    refine ⟨y, (h.mem y hy).resolve_right hyb, ?_, ?_, hnil⟩
    · by_contra hne
      rw [h.lock y hyb fun _ => hne] at hid
      exact hne hid
    · rcases h.block y hyb with h2 | h2
      · rwa [← h2]
      · rw [h2] at hwy
        exact absurd hwy not_mem_nil
  stay := by
    intro y hy w hw hW
    obtain ⟨hyL, hwL⟩ := h.stay y hy w hw fun hw' => hW (mem_append_left _ hw')
    exact h'.stay y hyL w hwL fun hw' => hW (mem_append_right _ hw')
  strong := by
    intro hs y hy hyM
    have hyb : y ≠ b := fun heq => hb (heq ▸ hy)
    have hyL : y ∈ L := (h'.mem y hyM).resolve_right hyb
    rcases h'.strong hs y hyL hyM with h2 | h2
    · exact .inl h2
    rcases h.strong hs y hy hyL with h1 | h1
    · rcases h'.block y hyb with h3 | h3
      · exact .inl (h3.trans h1)
      · exact .inl h3
    · exact .inr (h1.trans h2)

theorem Edit.congr (h : Edit s o b k U k1 L W) (hU : ∀ y, y ∈ V ↔ y ∈ U)
    (hL : ∀ y, y ∈ M ↔ y ∈ L) : Edit s o b k V k1 M W where
  list := h.list
  lock := fun y hyb hy => h.lock y hyb fun hyU => hy ((hU y).mpr hyU)
  ident := h.ident
  live := fun y hy hyb hyV => h.live y hy hyb fun hyU => hyV ((hU y).mpr hyU)
  mem_live := fun hV y hy => h.mem_live (fun y hy => hV y ((hU y).mpr hy)) y ((hL y).mp hy)
  mem := fun y hy => (h.mem y ((hL y).mp hy)).imp_left (hU y).mpr
  others := fun y hy hid => (hL y).mpr (h.others y ((hU y).mp hy) hid)
  sub := by
    intro y hy
    obtain ⟨z, hz, hyz⟩ := h.sub y ((hL y).mp hy)
    exact ⟨z, (hU z).mpr hz, hyz⟩
  proc := h.proc
  next := h.next
  block := h.block
  block_new := fun hb => h.block_new ((hL b).mp hb)
  block_frame := fun y hyb hyV => h.block_frame y hyb fun hyU => hyV ((hU y).mpr hyU)
  woken := by
    intro w hw
    obtain ⟨y, hy, hyw⟩ := h.woken w hw
    exact ⟨y, (hU y).mpr hy, hyw⟩
  stay := by
    intro y hy w hw hW
    obtain ⟨hyL, hwL⟩ := h.stay y ((hU y).mp hy) w hw hW
    exact ⟨(hL y).mpr hyL, hwL⟩
  strong := fun hs y hy hyM => h.strong hs y ((hU y).mp hy) ((hL y).mp hyM)

theorem Edit.cons (hl : Listed k b (x :: U)) (h : Edit s o b k U k1 L W) :
    Edit s o b k (x :: U) k1 (x :: L) W := by
  have hxU : x ∉ U := (nodup_cons.mp hl.nodup).1
  have hxb : x ≠ b := fun heq => hl.fresh (heq ▸ mem_cons_self)
  have hlock : k1.lock x = k.lock x := h.lock x hxb fun hx => absurd hx hxU
  have hxW : x ∉ W := by
    intro hx
    obtain ⟨y, hy, -, hxy, -⟩ := h.woken x hx
    exact hl.off x mem_cons_self y (mem_cons_of_mem _ hy) hxy
  have hblock : k1.lfBlock x = k.lfBlock x := h.block_frame x hxb hxU hxW
  exact {
    list := h.list
    lock := fun y hyb hy => h.lock y hyb fun hyU => hy (mem_cons_of_mem _ hyU)
    ident := h.ident
    live := fun y hy hyb hyU => h.live y hy hyb fun hyU' => hyU (mem_cons_of_mem _ hyU')
    mem_live := by
      intro hU y hy
      rcases mem_cons.mp hy with rfl | hy
      · exact h.live y (hU y mem_cons_self) hxb hxU
      · exact h.mem_live (fun z hz => hU z (mem_cons_of_mem _ hz)) y hy
    mem := by
      intro y hy
      rcases mem_cons.mp hy with rfl | hy
      · exact .inl mem_cons_self
      · exact (h.mem y hy).imp_left (mem_cons_of_mem _)
    others := by
      intro y hy hid
      rcases mem_cons.mp hy with rfl | hy
      · exact mem_cons_self
      · exact mem_cons_of_mem _ (h.others y hy hid)
    sub := by
      intro y hy
      rcases mem_cons.mp hy with rfl | hy
      · refine ⟨y, mem_cons_self, ?_⟩
        rw [hlock]
        exact .refl (hl.ok y mem_cons_self)
      · obtain ⟨z, hz, hyz⟩ := h.sub y hy
        exact ⟨z, mem_cons_of_mem _ hz, hyz⟩
    proc := h.proc
    next := h.next
    block := h.block
    block_new := fun hb => h.block_new ((mem_cons.mp hb).resolve_left hxb.symm)
    block_frame := fun y hyb hyU hyW =>
      h.block_frame y hyb (fun hyU' => hyU (mem_cons_of_mem _ hyU')) hyW
    woken := by
      intro w hw
      obtain ⟨y, hy, hyw⟩ := h.woken w hw
      exact ⟨y, mem_cons_of_mem _ hy, hyw⟩
    stay := by
      intro y hy w hw hW
      rcases mem_cons.mp hy with rfl | hy
      · exact ⟨mem_cons_self, hblock ▸ hw⟩
      · obtain ⟨hyL, hwL⟩ := h.stay y hy w hw hW
        exact ⟨mem_cons_of_mem _ hyL, hwL⟩
    strong := by
      intro hs y hy hyL
      by_cases hyx : y = x
      · subst hyx
        exact .inr (hlock ▸ .refl _)
      · exact h.strong hs y ((mem_cons.mp hy).resolve_left hyx)
          ((mem_cons.mp hyL).resolve_left hyx) }

theorem Edit.append_left {S : List Addr} (hl : Listed k b (S ++ U)) (h : Edit s o b k U k1 L W) :
    Edit s o b k (S ++ U) k1 (S ++ L) W := by
  induction S with
  | nil => exact h
  | cons x S ih => exact (ih hl.tail).cons hl

theorem Edit.append_right {S : List Addr} (hl : Listed k b (U ++ S)) (h : Edit s o b k U k1 L W) :
    Edit s o b k (U ++ S) k1 (L ++ S) W := by
  have hl' : Listed k b (S ++ U) := hl.congr List.perm_append_comm
  exact (h.append_left hl').congr (fun y => by simp [or_comm]) (fun y => by simp [or_comm])

theorem Edit.lock_of_not_mem (h : Edit s o b k U k1 L W) {y : Addr} (hyb : y ≠ b) (hyU : y ∉ U) :
    k1.lock y = k.lock y := h.lock y hyb fun hy => absurd hy hyU

theorem Edit.listed (hl : Listed k b U) (h : Edit s o b k U k1 L W) (hL : L.Nodup) (hb : b ∉ L) :
    Listed k1 b L := by
  have hmem : ∀ y ∈ L, y ∈ U := fun y hy =>
    (h.mem y hy).resolve_right fun heq => hb (heq ▸ hy)
  refine ⟨hL, hb, ?_, ?_⟩
  · intro y hy
    obtain ⟨z, -, hyz⟩ := h.sub y hy
    exact hyz.ok
  · intro y hy z hz hyz
    rcases h.block z (fun heq => hb (heq ▸ hz)) with h1 | h1
    · exact hl.off y (hmem y hy) z (hmem z hz) (h1 ▸ hyz)
    · rw [h1] at hyz
      exact not_mem_nil hyz

/-! ## The single operations -/

theorem Edit.drop (hl : Listed k b (x :: U)) (hid : (k.lock x).id = o) (hx : k.lfBlock x = []) :
    Edit s o b k (x :: U) (k.free x) U [] where
  list := rfl
  lock := fun _ _ _ => rfl
  ident := fun _ _ => rfl
  live := by
    intro y hy _ hyU
    exact Finset.mem_erase.mpr ⟨fun heq => hyU (heq ▸ mem_cons_self), hy⟩
  mem_live := by
    intro hU y hy
    refine Finset.mem_erase.mpr ⟨?_, hU y (mem_cons_of_mem _ hy)⟩
    rintro rfl
    exact (nodup_cons.mp hl.nodup).1 hy
  mem := fun _ hy => .inl (mem_cons_of_mem _ hy)
  others := by
    intro y hy hne
    rcases mem_cons.mp hy with rfl | hy
    · exact absurd hid hne
    · exact hy
  sub := fun y hy => ⟨y, mem_cons_of_mem _ hy, .refl (hl.tail.ok y hy)⟩
  proc := fun _ => (wakeup_nil _).symm
  next := fun _ _ _ => rfl
  block := fun _ _ => .inl rfl
  block_new := fun hb => absurd hb hl.tail.fresh
  block_frame := fun _ _ _ _ => rfl
  woken := fun _ hw => absurd hw not_mem_nil
  stay := by
    intro y hy w hw _
    rcases mem_cons.mp hy with rfl | hy
    · rw [hx] at hw
      exact absurd hw not_mem_nil
    · exact ⟨hy, hw⟩
  strong := fun _ _ _ _ => .inr (.refl _)

theorem Edit.wake (hl : Listed k b U) (hx : x ∈ U) (hid : (k.lock x).id = o) :
    Edit s o b k U (lfWakelock k x) U (k.lfBlock x) where
  list := rfl
  lock := fun _ _ _ => rfl
  ident := fun _ _ => rfl
  live := fun _ hy _ _ => hy
  mem_live := fun hU => hU
  mem := fun _ hy => .inl hy
  others := fun _ hy _ => hy
  sub := fun y hy => ⟨y, hy, .refl (hl.ok y hy)⟩
  proc := fun _ => rfl
  next := fun w _ hw => if_neg hw
  block := by
    intro y _
    by_cases h : y = x ∨ y ∈ k.lfBlock x
    · exact .inr (if_pos h)
    · exact .inl (if_neg h)
  block_new := fun hb => absurd hb hl.fresh
  block_frame := by
    intro y _ hyU hyW
    refine if_neg ?_
    rintro (rfl | hy)
    · exact hyU hx
    · exact hyW hy
  woken := fun w hw => ⟨x, hx, hid, hw, if_pos (.inl rfl)⟩
  stay := by
    intro y hy w hw hW
    refine ⟨hy, ?_⟩
    have hne : ¬ (y = x ∨ y ∈ k.lfBlock x) := by
      rintro (rfl | hyx)
      · exact hW hw
      · exact hl.off y hy x hx hyx
    show w ∈ (if y = x ∨ y ∈ k.lfBlock x then [] else k.lfBlock y)
    rwa [if_neg hne]
  strong := fun _ _ _ _ => .inr (.refl _)

theorem lfWakelock_lfBlock (k : Kernel) (x : Addr) : (lfWakelock k x).lfBlock x = [] :=
  if_pos (.inl rfl)

theorem Edit.setLock {m : Lockf} {z : Addr} (hok : ∀ y ∈ U, (k.lock y).Ok)
    (hb : b ∈ U → k.lfBlock b = []) (hx : x ∈ U) (hid : (k.lock x).id = o) (hz : z ∈ U)
    (hm : m.Sub (k.lock z)) (hmo : m.id = o) (hs : s → k.lfBlock x = [] ∨ (k.lock x).Stronger m) :
    Edit s o b k U (k.setLock x m) U [] := by
  have hne : ∀ y, y ≠ x → (k.setLock x m).lock y = k.lock y := fun y hy =>
    update_of_ne hy _ _
  have hself : (k.setLock x m).lock x = m := update_self _ _ _
  exact {
    list := rfl
    lock := by
      intro y _ hy
      refine hne y ?_
      rintro rfl
      exact hy hx hid
    ident := by
      intro y _
      by_cases hyx : y = x
      · subst hyx
        rw [hself, hmo, hid]
      · rw [hne y hyx]
    live := fun _ hy _ _ => hy
    mem_live := fun hU => hU
    mem := fun _ hy => .inl hy
    others := fun _ hy _ => hy
    sub := by
      intro y hy
      by_cases hyx : y = x
      · subst hyx
        exact ⟨z, hz, by rwa [hself]⟩
      · exact ⟨y, hy, by rw [hne y hyx]; exact .refl (hok y hy)⟩
    proc := fun _ => (wakeup_nil _).symm
    next := fun _ _ _ => rfl
    block := fun _ _ => .inl rfl
    block_new := hb
    block_frame := fun _ _ _ _ => rfl
    woken := fun _ hw => absurd hw not_mem_nil
    stay := fun _ hy _ hw _ => ⟨hy, hw⟩
    strong := by
      intro hs' y hy _
      by_cases hyx : y = x
      · subst hyx
        rw [hself]
        exact hs hs'
      · exact .inr (hne y hyx ▸ .refl _) }

theorem Edit.alloc {m : Lockf} {z : Addr} (hl : Listed k b U) (hz : z ∈ U)
    (hm : m.Sub (k.lock z)) : Edit s o b k U (k.alloc b m) (b :: U) [] := by
  have hlock : ∀ y, y ≠ b → (k.alloc b m).lock y = k.lock y := fun y hy =>
    update_of_ne hy _ _
  have hblock : ∀ y, y ≠ b → (k.alloc b m).lfBlock y = k.lfBlock y := fun y hy =>
    update_of_ne hy _ _
  have hne : ∀ y ∈ U, y ≠ b := fun y hy heq => hl.fresh (heq ▸ hy)
  exact {
    list := rfl
    lock := fun y hyb _ => hlock y hyb
    ident := fun y hyb => by rw [hlock y hyb]
    live := fun y hy _ _ => Finset.mem_insert_of_mem hy
    mem_live := by
      intro hU y hy
      rcases mem_cons.mp hy with rfl | hy
      · exact Finset.mem_insert_self _ _
      · exact Finset.mem_insert_of_mem (hU y hy)
    mem := fun y hy => (mem_cons.mp hy).symm
    others := fun _ hy _ => mem_cons_of_mem _ hy
    sub := by
      intro y hy
      rcases mem_cons.mp hy with rfl | hy
      · refine ⟨z, hz, ?_⟩
        show (update k.lock y m y).Sub (k.lock z)
        rwa [update_self]
      · exact ⟨y, hy, by rw [hlock y (hne y hy)]; exact .refl (hl.ok y hy)⟩
    proc := fun _ => (wakeup_nil _).symm
    next := fun w hw _ => update_of_ne hw _ _
    block := fun y hy => .inl (hblock y hy)
    block_new := fun _ => update_self _ _ _
    block_frame := fun y hy _ _ => hblock y hy
    woken := fun _ hw => absurd hw not_mem_nil
    stay := fun y hy w hw _ => ⟨mem_cons_of_mem _ hy, by rwa [hblock y (hne y hy)]⟩
    strong := fun _ y hy _ => .inr (hlock y (hne y hy) ▸ .refl _) }

theorem Edit.trim {m : Lockf} (hl : Listed k b U) (hx : x ∈ U) (hid : (k.lock x).id = o)
    (hm : m.Sub (k.lock x)) :
    Edit s o b k U ((lfWakelock k x).setLock x m) U (k.lfBlock x) := by
  have hw : Edit s o b k U (lfWakelock k x) U (k.lfBlock x) := .wake hl hx hid
  have hset : Edit s o b (lfWakelock k x) U ((lfWakelock k x).setLock x m) U [] :=
    .setLock hl.ok (fun hb => absurd hb hl.fresh) hx hid hx hm (hm.id.trans hid)
      fun _ => .inl (lfWakelock_lfBlock k x)
  simpa using hw.trans hl.fresh hset

theorem Edit.delete (hl : Listed k b (x :: U)) (hid : (k.lock x).id = o) :
    Edit s o b k (x :: U) ((lfWakelock k x).free x) U (k.lfBlock x) := by
  have hw : Edit s o b k (x :: U) (lfWakelock k x) (x :: U) (k.lfBlock x) :=
    .wake hl mem_cons_self hid
  have hd := Edit.drop (s := s) (hw.listed hl hl.nodup hl.fresh) hid (lfWakelock_lfBlock k x)
  simpa using hw.trans hl.fresh hd

/-- The tests under which `lf_split(x, l)` makes three locks, and `off_t` does not overflow.
Source: lf_split -/
structure Splits (x l : Lockf) : Prop where
  id : x.id = l.id
  start : x.start < l.start
  stop : l.stop ≠ -1
  stop' : x.stop = -1 ∨ l.stop < x.stop
  nowrap : l.stop ≠ maxOff ∨ x.stop ≠ -1

theorem Splits.parts {x l : Lockf} (h : Splits x l) (hx : x.Ok) (hl : l.RangeOk) :
    { x with stop := offPred l.start }.Sub x ∧ { x with start := offSucc l.stop }.Sub x ∧
      offPred l.start = l.start - 1 ∧ offSucc l.stop = l.stop + 1 := by
  obtain ⟨hl1, hl2, hl3⟩ := hl
  have hstart := h.start
  have hstop := h.stop
  have hstop' := h.stop'
  have hleft := Lockf.Sub.trimStop hx ⟨hl1, hl2, hl3⟩ h.start (by omega)
  obtain ⟨hright, hs⟩ := Lockf.Sub.trimStart hx ⟨hl1, hl2, hl3⟩ h.nowrap (by omega) h.stop'
  exact ⟨hleft, hright, offPred_eq hl1 hl2, hs⟩

theorem splitThree_eq (hxb : x ≠ b) :
    splitThree k x a b =
      (k.alloc b { k.lock x with start := offSucc (k.lock a).stop }).setLock x
        { k.lock x with stop := offPred (k.lock a).start } := by
  have hlock : ∀ m, (k.alloc b m).lock x = k.lock x := fun m => update_of_ne hxb _ _
  unfold splitThree Kernel.setStop
  simp only [hlock]

theorem splitThree_lock (hxb : x ≠ b) :
    (splitThree k x a b).lock x = { k.lock x with stop := offPred (k.lock a).start } ∧
      (splitThree k x a b).lock b = { k.lock x with start := offSucc (k.lock a).stop } ∧
      ∀ y, y ≠ x → y ≠ b → (splitThree k x a b).lock y = k.lock y := by
  rw [splitThree_eq hxb]
  exact ⟨update_self _ _ _,
    (update_of_ne hxb.symm _ _).trans (update_self _ _ _),
    fun y hy hyb => (update_of_ne hy _ _).trans (update_of_ne hyb _ _)⟩

theorem Edit.splitThree (hl : Listed k b U) (hx : x ∈ U) (hid : (k.lock x).id = o)
    (ha : (k.lock a).RangeOk) (hsp : Splits (k.lock x) (k.lock a))
    (hs : s → k.lfBlock x = []) : Edit s o b k U (splitThree k x a b) (b :: U) [] := by
  obtain ⟨hleft, hright, -, -⟩ := hsp.parts (hl.ok x hx) ha
  have hxb : x ≠ b := fun heq => hl.fresh (heq ▸ hx)
  have hnew := Edit.alloc (s := s) (o := o) hl hx hright
  have hlock : ∀ m, (k.alloc b m).lock x = k.lock x := fun m => update_of_ne hxb _ _
  rw [splitThree_eq hxb]
  refine hnew.trans hl.fresh (.setLock ?_ ?_ (mem_cons_of_mem _ hx) ?_
    (mem_cons_of_mem _ hx) ?_ hid ?_)
  · intro y hy
    obtain ⟨z, -, hz⟩ := hnew.sub y hy
    exact hz.ok
  · exact hnew.block_new
  · rwa [hlock]
  · rwa [hlock]
  · intro hs'
    rcases hnew.block x hxb with h | h
    · exact .inl (h.trans (hs hs'))
    · exact .inl h

theorem lfWakelock_alloc (hxb : x ≠ b) (m : Lockf) :
    lfWakelock (k.alloc b m) x = (lfWakelock k x).alloc b m := by
  have hws : (k.alloc b m).lfBlock x = k.lfBlock x := update_of_ne hxb _ _
  refine Kernel.ext rfl rfl rfl ?_ ?_ ?_
  · funext y
    simp only [lfWakelock, hws]
    by_cases hy : y = b
    · subst hy
      simp [Kernel.alloc]
    · simp [Kernel.alloc, update_of_ne hy]
  · funext w
    simp only [lfWakelock, hws]
    by_cases hw : w = b
    · subst hw
      simp [Kernel.alloc]
    · simp [Kernel.alloc, update_of_ne hw]
  · funext q
    simp only [lfWakelock, hws]
    rfl

theorem lfWakelock_splitThree (hxb : x ≠ b) :
    lfWakelock (splitThree k x a b) x = splitThree (lfWakelock k x) x a b := by
  rw [splitThree_eq hxb, splitThree_eq hxb, ← lfWakelock_alloc hxb]
  rfl

end edit

/-! ## The order of an owner's locks -/

/-- If `x` and `y` have one owner, `x` ends before `y` starts. -/
def Before (k : Kernel) (x y : Addr) : Prop :=
  (k.lock x).id = (k.lock y).id → (k.lock x).stop ≠ -1 ∧ (k.lock x).stop < (k.lock y).start

/-- The locks of each owner are disjoint and in order. -/
def Sorted (k : Kernel) (L : List Addr) : Prop := L.Pairwise (Before k)

section sorted

variable {s : Prop} {o : Id} {a b x : Addr} {k k1 : Kernel} {U L M S W : List Addr}

theorem Before.of_sub {y z u : Addr} (h : Before k y z) (hy : k1.lock y = k.lock y)
    (hu : (k1.lock u).Sub (k.lock z)) : Before k1 y u := by
  intro hid
  rw [hy] at hid ⊢
  obtain ⟨hstop, hlt⟩ := h (hid.trans hu.id)
  exact ⟨hstop, hlt.trans_le hu.start⟩

theorem Sorted.congr (h : Sorted k L) (hL : ∀ y ∈ L, k1.lock y = k.lock y) : Sorted k1 L := by
  refine List.Pairwise.imp_of_mem ?_ h
  intro y z hy hz hyz
  unfold Before
  rw [hL y hy, hL z hz]
  exact hyz

theorem Edit.sorted_append (h : Edit s o b k U k1 M W) (hl : Listed k b (S ++ U))
    (hS : Sorted k S) (hSU : ∀ y ∈ S, ∀ z ∈ U, Before k y z) (hM : Sorted k1 M) :
    Sorted k1 (S ++ M) := by
  have hlock : ∀ y ∈ S, k1.lock y = k.lock y := by
    intro y hy
    refine h.lock y ?_ fun hyU => ?_
    · rintro rfl
      exact hl.fresh (mem_append_left _ hy)
    · exact absurd rfl ((nodup_append.mp hl.nodup).2.2 y hy y hyU)
  refine pairwise_append.mpr ⟨hS.congr hlock, hM, ?_⟩
  intro y hy u hu
  obtain ⟨z, hz, huz⟩ := h.sub u hu
  exact (hSU y hy z hz).of_sub (hlock y hy) huz

theorem Edit.nodup_append (h : Edit s o b k U k1 M W) (hl : Listed k b (S ++ U))
    (hM : M.Nodup) : (S ++ M).Nodup := by
  obtain ⟨hS, -, hSU⟩ := List.nodup_append.mp hl.nodup
  refine List.nodup_append.mpr ⟨hS, hM, ?_⟩
  intro y hy z hz
  rcases h.mem z hz with hz | rfl
  · exact hSU y hy z hz
  · rintro rfl
    exact hl.fresh (mem_append_left _ hy)

end sorted

end Bsd386.Ufs.Advlock
