import Bsd386.Net.Ip.Reass
import Mathlib.Data.List.Basic

/-!
# Reassembly of arbitrary fragments

What `ip_reass` keeps for fragments of any offsets and lengths: its queue is in order and without overlap,
each fragment on it holds `ip_len` bytes, and so does a datagram that is returned. Offsets are the shorts
that they are in the source, and what a fragment ends at is the `int` that the source computes.
-/

namespace Bsd386.Net.Ip

open List Lib BitVec Option

/-! ## Fragments as intervals -/

/-- Where a fragment begins. Source: ip_reass -/
def Ipasfrag.start (e : Ipasfrag) : ℤ := e.off.toInt

/-- Where a fragment ends: `ip_off + ip_len`. Source: ip_reass -/
def Ipasfrag.stop (e : Ipasfrag) : ℤ := e.off.toInt + e.len.toInt

/-- A fragment holds exactly `ip_len` bytes. Source: ip_reass -/
def Ipasfrag.Ok (e : Ipasfrag) : Prop := (e.data.length : ℤ) = e.len.toInt

/-- A datagram holds exactly `ip_len` bytes. Source: ip_reass -/
def Datagram.Ok (d : Datagram) : Prop := (d.data.length : ℤ) = d.len.toInt

/-- In order of offset and without overlap. Source: ip_reass -/
def InOrder (qs : List Ipasfrag) : Prop := qs.Pairwise fun e e' => e.stop ≤ e'.start

/-- The queue: in order, without overlap, and each fragment holds `ip_len` bytes.
Source: ip_reass -/
structure QueueOk (qs : List Ipasfrag) : Prop where
  order : InOrder qs
  ok : ∀ e ∈ qs, e.Ok

theorem stop_eq (e : Ipasfrag) : e.stop = e.start + e.len.toInt := rfl

theorem Ipasfrag.Ok.start_le {e : Ipasfrag} (he : e.Ok) : e.start ≤ e.stop := by
  unfold Ipasfrag.Ok at he
  rw [stop_eq]
  omega

theorem toInt_addShort (x : BitVec 16) (i : ℤ) : (addShort x i).toInt = (x.toInt + i).bmod 65536 := by
  rw [addShort, toInt_add, toInt_ofInt, Int.add_bmod_bmod]

theorem short_bounds (x : BitVec 16) : -32768 ≤ x.toInt ∧ x.toInt ≤ 32767 := by
  have hlo : -2 ^ 15 ≤ x.toInt := le_toInt x
  have hhi : x.toInt < 2 ^ 15 := toInt_lt
  omega

section trim

variable {e : Ipasfrag} {i : ℤ}

theorem ok_trim (he : e.Ok) (hpos : 0 < i) (hlt : i < e.len.toInt) :
    (ops.trim e i).Ok ∧ (ops.trim e i).len.toInt = e.len.toInt - i := by
  obtain ⟨-, hhi⟩ := short_bounds e.len
  have hlen : (ops.trim e i).len.toInt = e.len.toInt - i := by
    change (addShort e.len (-i)).toInt = _
    rw [toInt_addShort, Int.bmod_def]
    omega
  refine ⟨?_, hlen⟩
  unfold Ipasfrag.Ok at he ⊢
  rw [hlen]
  change ((e.data.drop i.toNat).length : ℤ) = _
  rw [length_drop]
  omega

theorem start_trim (hpos : 0 < i) (hfit : e.start + i ≤ 32767) : (ops.trim e i).start = e.start + i := by
  obtain ⟨hlo, -⟩ := short_bounds e.off
  unfold Ipasfrag.start at hfit ⊢
  change (addShort e.off i).toInt = _
  rw [toInt_addShort, Int.bmod_def]
  omega

theorem start_trim_wrap (hlt : i < e.len.toInt) (hwrap : 32767 < e.start + i) :
    (ops.trim e i).start = e.start + i - 65536 := by
  obtain ⟨-, hhi⟩ := short_bounds e.off
  obtain ⟨-, hlen⟩ := short_bounds e.len
  unfold Ipasfrag.start at hwrap ⊢
  change (addShort e.off i).toInt = _
  rw [toInt_addShort, Int.bmod_def]
  omega

theorem stop_trim (he : e.Ok) (hpos : 0 < i) (hlt : i < e.len.toInt) (hfit : e.start + i ≤ 32767) :
    (ops.trim e i).stop = e.stop := by
  rw [stop_eq, start_trim hpos hfit, (ok_trim he hpos hlt).2, stop_eq]
  omega

end trim

/-! ## Where a fragment is put -/

/-- A fragment of the queue that begins at or before `p` has all of it.
Source: ip_reass -/
def Contained (qs : List Ipasfrag) (p : Ipasfrag) : Prop :=
  ∃ q ∈ qs, q.start ≤ p.start ∧ p.start < q.stop ∧ p.stop ≤ q.stop

/-- No fragment is trimmed to begin past 32767: not `p` by one before it, and none after it by `p`.
Source: ip_reass -/
structure NoWrap (qs : List Ipasfrag) (p : Ipasfrag) : Prop where
  front : ∀ q ∈ qs, q.start ≤ p.start → p.start < q.stop → q.stop < p.stop → q.stop ≤ 32767
  back : ∀ q ∈ qs, p.start < q.start → q.start < p.stop → p.stop < q.stop → p.stop ≤ 32767

/-- What `ip_reass` makes of the queue: `pre` stays, `p` or the rest of it follows, `mid` is covered by it,
and `suf` or the rest of it follows that.
Source: ip_reass -/
structure Put (qs : List Ipasfrag) (p : Ipasfrag) (pre mid suf : List Ipasfrag) (p' : Ipasfrag)
    (suf' : List Ipasfrag) : Prop where
  queue : qs = pre ++ (mid ++ suf)
  before : ∀ q ∈ pre, q.start ≤ p.start
  within : ∀ q ∈ mid, p.start < q.start ∧ q.start < p.stop ∧ q.stop ≤ p.stop
  after : ∀ q ∈ suf, p.start < q.start
  front : (p' = p ∧ ∀ q ∈ pre, q.stop ≤ p.start) ∨
    ∃ l ∈ pre, p.start < l.stop ∧ l.stop < p.stop ∧ p' = ops.trim p (l.stop - p.start) ∧
      (∀ q ∈ pre, q.stop ≤ l.stop) ∧ ∀ q ∈ mid ++ suf, l.stop ≤ q.start
  back : (suf' = suf ∧ ∀ q ∈ suf, p.stop ≤ q.start) ∨
    ∃ q rest, suf = q :: rest ∧ q.start < p.stop ∧ p.stop < q.stop ∧
      suf' = ops.trim q (p.stop - q.start) :: rest

section put

variable {qs : List Ipasfrag} {p : Ipasfrag}

theorem trimNext_put {p' : Ipasfrag} (hstop : p'.stop = p.stop) {post : List Ipasfrag}
    (hpost : QueueOk post) (hafter : ∀ q ∈ post, p.start < q.start) :
    ∃ mid suf, post = mid ++ suf ∧
      (∀ q ∈ mid, p.start < q.start ∧ q.start < p.stop ∧ q.stop ≤ p.stop) ∧
      ((Reassembly.trimNext ops p' post = suf ∧ ∀ q ∈ suf, p.stop ≤ q.start) ∨
        ∃ q rest, suf = q :: rest ∧ q.start < p.stop ∧ p.stop < q.stop ∧
          Reassembly.trimNext ops p' post = ops.trim q (p.stop - q.start) :: rest) := by
  have hbeyond : ∀ q, ops.beyond p' q = p.stop - q.start := fun q => by
    rw [← hstop]
    rfl
  obtain ⟨mid, suf, heq, hmid, hcases⟩ := Reassembly.trimNext_cases ops p' post
  refine ⟨mid, suf, heq, ?_, ?_⟩
  · intro q hq
    obtain ⟨hpos, hsize⟩ := hmid q hq
    rw [hbeyond] at hpos hsize
    change q.len.toInt ≤ _ at hsize
    refine ⟨hafter q (heq ▸ mem_append_left _ hq), by omega, ?_⟩
    rw [stop_eq q]
    omega
  · have horder : InOrder suf := (pairwise_append.mp (heq ▸ hpost.order)).2.1
    have hok : ∀ q ∈ suf, q.Ok := fun q hq => hpost.ok q (heq ▸ mem_append_right _ hq)
    rcases hcases with ⟨hhead, htrim⟩ | ⟨q, rest, hsuf, hpos, hlt, htrim⟩
    · refine .inl ⟨htrim, ?_⟩
      cases suf with
      | nil => exact fun q hq => absurd hq not_mem_nil
      | cons q rest =>
        have hle := hhead q rest rfl
        rw [hbeyond] at hle
        have hq := (hok q mem_cons_self).start_le
        intro e he
        rcases mem_cons.mp he with rfl | he
        · omega
        · have := (pairwise_cons.mp horder).1 e he
          omega
    · rw [hbeyond] at hpos hlt htrim
      change _ < q.len.toInt at hlt
      refine .inr ⟨q, rest, hsuf, by omega, ?_, htrim⟩
      rw [stop_eq q]
      omega

theorem insert_put (hqs : QueueOk qs) (hp : p.Ok) :
    (Reassembly.insert ops p qs = none ∧ Contained qs p) ∨
    (∃ l ∈ qs, l.start ≤ p.start ∧ p.start < l.stop ∧ l.stop < p.stop ∧ 32767 < l.stop ∧
      ∃ r, Reassembly.insert ops p qs = some r ∧ ¬ InOrder r) ∨
    ∃ pre mid suf p' suf', Put qs p pre mid suf p' suf' ∧ ¬ Contained qs p ∧
      (∀ q ∈ qs, q.start ≤ p.start → p.start < q.stop → q.stop < p.stop → q.stop ≤ 32767) ∧
      Reassembly.insert ops p qs = some (pre ++ p' :: suf') := by
  obtain ⟨pre, post, rfl, hpre, hhead, hcases⟩ := Reassembly.insert_cases ops p qs
  obtain ⟨horderpre, horderpost, hcross⟩ := pairwise_append.mp hqs.order
  have hokpre : ∀ q ∈ pre, q.Ok := fun q hq => hqs.ok q (mem_append_left _ hq)
  have hokpost : ∀ q ∈ post, q.Ok := fun q hq => hqs.ok q (mem_append_right _ hq)
  have hbefore : ∀ q ∈ pre, q.start ≤ p.start :=
    fun q hq => Int.not_lt.mp (of_decide_eq_false (hpre q hq))
  have hafter : ∀ q ∈ post, p.start < q.start := by
    cases post with
    | nil => exact fun q hq => absurd hq not_mem_nil
    | cons q0 rest =>
      have hq0 : p.start < q0.start := of_decide_eq_true (hhead q0 rest rfl)
      have hle := (hokpost q0 mem_cons_self).start_le
      intro q hq
      rcases mem_cons.mp hq with rfl | hq
      · exact hq0
      · have := (pairwise_cons.mp horderpost).1 q hq
        omega
  -- the fragments before the last one that begins at or before `p` end at or before it begins
  have hlast : ∀ l, pre.getLast? = some l → ∀ q ∈ pre, q = l ∨ q.stop ≤ l.start := by
    intro l hl q hq
    obtain ⟨init, rfl⟩ := getLast?_eq_some_iff.mp hl
    rcases mem_append.mp hq with hq | hq
    · exact .inr ((pairwise_append.mp horderpre).2.2 q hq l (mem_singleton_self l))
    · exact .inl (mem_singleton.mp hq)
  rcases hcases with ⟨l, hl, hpos, hsize, hins⟩ | ⟨l, hl, hpos, hlt, hins⟩ | ⟨hno, hins⟩
  · have hmem := mem_of_getLast? hl
    change 0 < l.stop - p.start at hpos
    change p.len.toInt ≤ l.stop - p.start at hsize
    refine .inl ⟨hins, l, mem_append_left _ hmem, hbefore l hmem, by omega, ?_⟩
    rw [stop_eq p]
    omega
  · have hmem := mem_of_getLast? hl
    change l.stop - p.start < p.len.toInt at hlt
    have hstop : l.stop < p.stop := by
      rw [stop_eq p]
      omega
    have hle := hbefore l hmem
    have hcut : ops.beyond l p = l.stop - p.start := rfl
    rw [hcut] at hins
    by_cases hwrap : 32767 < l.stop
    · refine .inr (.inl ⟨l, mem_append_left _ hmem, hle, by omega, hstop, hwrap, _, hins, ?_⟩)
      -- what is left of `p` begins before `l`
      intro horder
      have hlp := (pairwise_append.mp horder).2.2 l hmem _ mem_cons_self
      rw [start_trim_wrap hlt (by omega)] at hlp
      omega
    · have hfit : p.start + (l.stop - p.start) ≤ 32767 := by omega
      obtain ⟨mid, suf, hpost, hmid, hback⟩ := trimNext_put
        (stop_trim hp hpos hlt hfit) ⟨horderpost, hokpost⟩ hafter
      have hup : ∀ q ∈ pre, q.stop ≤ l.stop := by
        intro q hq
        rcases hlast l hl q hq with rfl | hql
        · omega
        · omega
      subst hpost
      refine .inr (.inr ⟨pre, mid, suf, _, _, ⟨rfl, hbefore, hmid, fun q hq =>
        hafter q (mem_append_right _ hq), .inr ⟨l, hmem, by omega, hstop, rfl, hup,
          fun q hq => hcross l hmem q hq⟩, hback⟩, ?_, ?_, hins⟩)
      · rintro ⟨q, hq, hqle, hqpos, hqstop⟩
        rcases mem_append.mp hq with hq | hq
        · have := hup q hq
          omega
        · have := hafter q hq
          omega
      · intro q hq hqle _ _
        rcases mem_append.mp hq with hq | hq
        · have := hup q hq
          omega
        · have := hafter q hq
          omega
  · have hup : ∀ q ∈ pre, q.stop ≤ p.start := by
      intro q hq
      rcases eq_nil_or_concat pre with rfl | ⟨init, l, rfl⟩
      · exact absurd hq not_mem_nil
      have hl : (init.concat l).getLast? = some l := by
        rw [concat_eq_append]
        exact getLast?_concat
      have hnol : l.stop - p.start ≤ 0 := hno l hl
      have hmem := mem_of_getLast? hl
      have hl' := (hokpre l hmem).start_le
      rcases hlast l hl q hq with rfl | hql
      · omega
      · omega
    obtain ⟨mid, suf, hpost, hmid, hback⟩ := trimNext_put rfl ⟨horderpost, hokpost⟩ hafter
    subst hpost
    refine .inr (.inr ⟨pre, mid, suf, _, _, ⟨rfl, hbefore, hmid, fun q hq =>
      hafter q (mem_append_right _ hq), .inl ⟨rfl, hup⟩, hback⟩, ?_, ?_, hins⟩)
    · rintro ⟨q, hq, hqle, hqpos, -⟩
      rcases mem_append.mp hq with hq | hq
      · have := hup q hq
        omega
      · have := hafter q hq
        omega
    · intro q hq hqle hqpos _
      rcases mem_append.mp hq with hq | hq
      · have := hup q hq
        omega
      · have := hafter q hq
        omega

end put

/-! ## Order after a fragment is put -/

section order

variable {qs pre mid suf suf' : List Ipasfrag} {p p' : Ipasfrag}

section

variable (h : Put qs p pre mid suf p' suf')
include h

theorem Put.piece (hp : p.Ok)
    (hfront : ∀ q ∈ qs, q.start ≤ p.start → p.start < q.stop → q.stop < p.stop → q.stop ≤ 32767) :
    p'.Ok ∧ p.start ≤ p'.start ∧ p'.stop = p.stop ∧ p'.mff = p.mff ∧ (∀ q ∈ pre, q.stop ≤ p'.start) ∧
      (∀ q ∈ mid ++ suf, p'.start ≤ q.start) := by
  rcases h.front with ⟨rfl, hup⟩ | ⟨l, hl, hpos, hlt, rfl, hup, hdown⟩
  · refine ⟨hp, Int.le_refl _, rfl, rfl, hup, fun q hq => ?_⟩
    rcases mem_append.mp hq with hq | hq
    · exact Int.le_of_lt (h.within q hq).1
    · exact Int.le_of_lt (h.after q hq)
  have hmem : l ∈ qs := h.queue ▸ mem_append_left _ hl
  have hfit := hfront l hmem (h.before l hl) hpos hlt
  have hpos' : 0 < l.stop - p.start := by omega
  have hlt' : l.stop - p.start < p.len.toInt := by
    rw [stop_eq p] at hlt
    omega
  have hstart : (ops.trim p (l.stop - p.start)).start = l.stop := by
    rw [start_trim hpos' (by omega)]
    omega
  refine ⟨(ok_trim hp hpos' hlt').1, ?_, stop_trim hp hpos' hlt' (by omega), rfl, ?_, ?_⟩
  · omega
  · rw [hstart]
    exact hup
  · rw [hstart]
    exact hdown

theorem Put.rest (hqs : QueueOk qs) (hw : NoWrap qs p) :
    QueueOk suf' ∧ (∀ q ∈ suf', p.stop ≤ q.start) := by
  have hsuf : QueueOk suf := by
    have horder := hqs.order
    rw [h.queue] at horder
    refine ⟨(pairwise_append.mp (pairwise_append.mp horder).2.1).2.1, fun q hq => ?_⟩
    exact hqs.ok q (h.queue ▸ mem_append_right _ (mem_append_right _ hq))
  rcases h.back with ⟨rfl, hafter⟩ | ⟨q, rest, rfl, hpos, hlt, rfl⟩
  · exact ⟨hsuf, hafter⟩
  have hmem : q ∈ qs :=
    h.queue ▸ mem_append_right _ mem_append_cons_self
  have hfit := hw.back q hmem (h.after q mem_cons_self) hpos hlt
  have hq := hsuf.ok q mem_cons_self
  have hpos' : 0 < p.stop - q.start := by omega
  have hlt' : p.stop - q.start < q.len.toInt := by
    rw [stop_eq q] at hlt
    omega
  obtain ⟨hhead, htail⟩ := pairwise_cons.mp hsuf.order
  refine ⟨⟨pairwise_cons.mpr ⟨fun e he => ?_, htail⟩, fun e he => ?_⟩, fun e he => ?_⟩
  · rw [stop_trim hq hpos' hlt' (by omega)]
    exact hhead e he
  · rcases mem_cons.mp he with rfl | he
    · exact (ok_trim hq hpos' hlt').1
    · exact hsuf.ok e (mem_cons_of_mem q he)
  · rcases mem_cons.mp he with rfl | he
    · rw [start_trim hpos' (by omega)]
      omega
    · have := hhead e he
      omega

theorem Put.queueOk (hqs : QueueOk qs) (hp : p.Ok) (hw : NoWrap qs p) :
    QueueOk (pre ++ p' :: suf') := by
  obtain ⟨hp', hstart, hstop, -, hup, -⟩ := h.piece hp hw.front
  obtain ⟨hrest, hafter⟩ := h.rest hqs hw
  have horder := hqs.order
  rw [h.queue] at horder
  have hle := hp'.start_le
  refine ⟨pairwise_append.mpr ⟨(pairwise_append.mp horder).1,
    pairwise_cons.mpr ⟨fun e he => hstop ▸ hafter e he, hrest.order⟩, fun a ha b hb => ?_⟩,
    fun e he => ?_⟩
  · have := hup a ha
    rcases mem_cons.mp hb with rfl | hb
    · exact this
    · have := hafter b hb
      omega
  · rcases mem_append.mp he with he | he
    · exact hqs.ok e (h.queue ▸ mem_append_left _ he)
    · rcases mem_cons.mp he with rfl | he
      · exact hp'
      · exact hrest.ok e he

theorem Put.not_inOrder (hp : p.Ok)
    (hfront : ∀ q ∈ qs, q.start ≤ p.start → p.start < q.stop → q.stop < p.stop → q.stop ≤ 32767)
    (hwrap : ¬ NoWrap qs p) : ¬ InOrder (pre ++ p' :: suf') := by
  obtain ⟨q, hq, hstart, hpos, hlt, hbig⟩ : ∃ q ∈ qs, p.start < q.start ∧ q.start < p.stop ∧
      p.stop < q.stop ∧ 32767 < p.stop := by
    by_contra hno
    exact hwrap ⟨hfront, fun q hq hs hp' hl => Int.not_lt.mp fun hb => hno ⟨q, hq, hs, hp', hl, hb⟩⟩
  have hmem : q ∈ suf := by
    rw [h.queue] at hq
    rcases mem_append.mp hq with hq | hq
    · have := h.before q hq
      omega
    rcases mem_append.mp hq with hq | hq
    · have := (h.within q hq).2.2
      omega
    · exact hq
  intro horder
  rcases h.back with ⟨-, hafter⟩ | ⟨q', rest, rfl, hpos', hlt', rfl⟩
  · have := hafter q hmem
    omega
  -- the first fragment that remains begins before `p` after it is trimmed
  have hlen : p.stop - q'.start < q'.len.toInt := by
    rw [stop_eq q'] at hlt'
    omega
  have hin := (pairwise_append.mp horder).2.1
  have hpq := (pairwise_cons.mp hin).1 _ mem_cons_self
  rw [start_trim_wrap hlen (by omega), (h.piece hp hfront).2.2.1] at hpq
  omega

end

end order

/-! ## Completion -/

/-- The fragments fill the bytes from `a` to `b`, and lie there.
Source: ip_reass -/
structure Fills (a b : ℤ) (es : List Ipasfrag) : Prop where
  le : a ≤ b
  inside : ∀ e ∈ es, a ≤ e.start ∧ e.stop ≤ b
  covered : ∀ x, a ≤ x → x < b → ∃ e ∈ es, e.start ≤ x ∧ x < e.stop

theorem contiguous_iff {r : List Ipasfrag} (hr : QueueOk r) {a b : ℤ} :
    contiguous a r = some b ↔ Fills a b r := by
  induction r generalizing a with
  | nil =>
    constructor
    · intro h
      obtain rfl := some.inj h
      refine ⟨Int.le_refl _, fun e he => absurd he not_mem_nil, fun x hx hx' => ?_⟩
      omega
    · intro h
      have hle := h.le
      by_cases hlt : a < b
      · obtain ⟨e, he, -⟩ := h.covered a (Int.le_refl _) hlt
        exact absurd he not_mem_nil
      · exact congrArg some (by omega)
  | cons q qs ih =>
    obtain ⟨hhead, htail⟩ := pairwise_cons.mp hr.order
    have hq := (hr.ok q mem_cons_self).start_le
    have hqs : QueueOk qs := ⟨htail, fun e he => hr.ok e (mem_cons_of_mem q he)⟩
    rw [contiguous]
    by_cases heq : q.off.toInt = a
    · rw [if_pos heq]
      have hstop : a + q.len.toInt = q.stop := by
        rw [← heq]
        rfl
      have hstart : q.start = a := heq
      rw [hstop, ih hqs]
      constructor
      · intro h
        have hle := h.le
        refine ⟨by omega, fun e he => ?_, fun x hx hx' => ?_⟩
        · rcases mem_cons.mp he with rfl | he
          · exact ⟨by omega, hle⟩
          · have hin := h.inside e he
            exact ⟨by omega, hin.2⟩
        · by_cases hxq : x < q.stop
          · exact ⟨q, mem_cons_self, by omega, hxq⟩
          · obtain ⟨e, he, hxe⟩ := h.covered x (by omega) hx'
            exact ⟨e, mem_cons_of_mem q he, hxe⟩
      · intro h
        refine ⟨(h.inside q mem_cons_self).2,
          fun e he => ⟨hhead e he, (h.inside e (mem_cons_of_mem q he)).2⟩, fun x hx hx' => ?_⟩
        obtain ⟨e, he, hxe⟩ := h.covered x (by omega) hx'
        rcases mem_cons.mp he with rfl | he
        · omega
        · exact ⟨e, he, hxe⟩
    · rw [if_neg heq]
      refine iff_of_false nofun fun h => ?_
      -- nothing on the queue has the byte `a`
      obtain ⟨hqa, hqb⟩ := h.inside q mem_cons_self
      have hne : q.start ≠ a := heq
      obtain ⟨e, he, hea, -⟩ := h.covered a (Int.le_refl _) (by omega)
      rcases mem_cons.mp he with rfl | he
      · omega
      · have := hhead e he
        omega

/-- Whether there is more behind the fragment that is last on the queue once `p` is put: `p` itself unless
one reaches past it or begins where it ends.
Source: ip_reass -/
def LastMore (qs : List Ipasfrag) (p : Ipasfrag) : Prop :=
  ((∃ q ∈ qs, p.start < q.start ∧ (p.stop ≤ q.start ∨ p.stop < q.stop)) ∧
      qs.getLast?.any (·.mff) = true) ∨
    ((¬ ∃ q ∈ qs, p.start < q.start ∧ (p.stop ≤ q.start ∨ p.stop < q.stop)) ∧ p.mff = true)

/-- The fragment `p` completes a datagram of `n` bytes: it brings something, together with those on the
queue it fills the bytes before `n`, and there is no more behind the last.
Source: ip_reass -/
structure Completes (qs : List Ipasfrag) (p : Ipasfrag) (n : ℤ) : Prop where
  new : ¬ Contained qs p
  fills : Fills 0 n (p :: qs)
  last : ¬ LastMore qs p

section complete

variable {qs pre mid suf suf' : List Ipasfrag} {p p' : Ipasfrag}

section

variable (h : Put qs p pre mid suf p' suf')
include h

theorem Put.suf_match (hqs : QueueOk qs) (hw : NoWrap qs p) :
    (∀ e ∈ suf', ∃ q ∈ suf, q.start ≤ e.start ∧ e.stop = q.stop) ∧
      ∀ q ∈ suf, ∃ e ∈ suf', e.stop = q.stop ∧ ∀ x, q.start ≤ x → p.stop ≤ x → e.start ≤ x := by
  rcases h.back with ⟨rfl, -⟩ | ⟨q, rest, rfl, hpos, hlt, rfl⟩
  · exact ⟨fun e he => ⟨e, he, Int.le_refl _, rfl⟩, fun q hq => ⟨q, hq, rfl, fun x hx _ => hx⟩⟩
  have hmem : q ∈ qs :=
    h.queue ▸ mem_append_right _ mem_append_cons_self
  have hfit := hw.back q hmem (h.after q mem_cons_self) hpos hlt
  have hpos' : 0 < p.stop - q.start := by omega
  have hlt' : p.stop - q.start < q.len.toInt := by
    rw [stop_eq q] at hlt
    omega
  have hstart : (ops.trim q (p.stop - q.start)).start = p.stop := by
    rw [start_trim hpos' (by omega)]
    omega
  have hstop := stop_trim (hqs.ok q hmem) hpos' hlt' (by omega)
  constructor
  · intro e he
    rcases mem_cons.mp he with rfl | he
    · exact ⟨q, mem_cons_self, by omega, hstop⟩
    · exact ⟨e, mem_cons_of_mem q he, Int.le_refl _, rfl⟩
  · intro e he
    rcases mem_cons.mp he with rfl | he
    · exact ⟨_, mem_cons_self, hstop, fun x _ hx => Int.le_trans (Int.le_of_eq hstart) hx⟩
    · exact ⟨e, mem_cons_of_mem _ he, rfl, fun x hx _ => hx⟩

theorem Put.front_match
    (hfront : ∀ q ∈ qs, q.start ≤ p.start → p.start < q.stop → q.stop < p.stop → q.stop ≤ 32767) :
    p' = p ∨ ∃ l ∈ pre, l.start ≤ p.start ∧ p'.start = l.stop := by
  rcases h.front with ⟨rfl, -⟩ | ⟨l, hl, hpos, hlt, rfl, -⟩
  · exact .inl rfl
  have hfit := hfront l (h.queue ▸ mem_append_left _ hl) (h.before l hl) hpos hlt
  refine .inr ⟨l, hl, h.before l hl, ?_⟩
  rw [start_trim (by omega) (by omega)]
  omega

theorem Put.fills_iff (hqs : QueueOk qs) (hp : p.Ok) (hw : NoWrap qs p) {n : ℤ} :
    Fills 0 n (pre ++ p' :: suf') ↔ Fills 0 n (p :: qs) := by
  obtain ⟨hp', hstart, hstop, -, -, hdown⟩ := h.piece hp hw.front
  obtain ⟨hsuf', hsuf⟩ := h.suf_match hqs hw
  have hfront := h.front_match hw.front
  have hin' : p' ∈ pre ++ p' :: suf' := mem_append_cons_self
  have hpre : ∀ e ∈ pre, e ∈ p :: qs := fun e he =>
    mem_cons_of_mem p (h.queue ▸ mem_append_left _ he)
  have hsufqs : ∀ e ∈ suf, e ∈ p :: qs := fun e he =>
    mem_cons_of_mem p (h.queue ▸ mem_append_right _ (mem_append_right _ he))
  constructor
  · intro hr
    have hp0 : 0 ≤ p.start := by
      rcases hfront with rfl | ⟨l, hl, hle, -⟩
      · exact (hr.inside _ hin').1
      · have := (hr.inside l (mem_append_left _ hl)).1
        omega
    have hpn : p.stop ≤ n := hstop ▸ (hr.inside p' hin').2
    refine ⟨hr.le, fun e he => ?_, fun x hx hx' => ?_⟩
    · rcases mem_cons.mp he with rfl | he
      · exact ⟨hp0, hpn⟩
      · rw [h.queue] at he
        rcases mem_append.mp he with he | he
        · exact hr.inside e (mem_append_left _ he)
        rcases mem_append.mp he with he | he
        · obtain ⟨h1, -, h3⟩ := h.within e he
          exact ⟨by omega, by omega⟩
        have h1 := h.after e he
        obtain ⟨e', he', hstop', -⟩ := hsuf e he
        have := (hr.inside e' (mem_append_right _ (mem_cons_of_mem _ he'))).2
        exact ⟨by omega, by omega⟩
    · obtain ⟨e, he, hxe⟩ := hr.covered x hx hx'
      rcases mem_append.mp he with he | he
      · exact ⟨e, hpre e he, hxe⟩
      rcases mem_cons.mp he with rfl | he
      · exact ⟨p, mem_cons_self, by omega, by omega⟩
      · obtain ⟨q, hq, hle, hstop'⟩ := hsuf' e he
        exact ⟨q, hsufqs q hq, by omega, by omega⟩
  · intro hr
    obtain ⟨hp0, hpn⟩ := hr.inside p mem_cons_self
    refine ⟨hr.le, fun e he => ?_, fun x hx hx' => ?_⟩
    · rcases mem_append.mp he with he | he
      · exact hr.inside e (hpre e he)
      · rcases mem_cons.mp he with rfl | he
        · exact ⟨by omega, by omega⟩
        · obtain ⟨q, hq, hle, hstop'⟩ := hsuf' e he
          obtain ⟨h1, h2⟩ := hr.inside q (hsufqs q hq)
          exact ⟨by omega, by omega⟩
    · obtain ⟨e, he, hxe, hxe'⟩ := hr.covered x hx hx'
      rcases mem_cons.mp he with rfl | he
      · by_cases hxp : p'.start ≤ x
        · exact ⟨p', hin', hxp, by omega⟩
        · rcases hfront with rfl | ⟨l, hl, hle, heq⟩
          · omega
          · exact ⟨l, mem_append_left _ hl, by omega, by omega⟩
      rw [h.queue] at he
      rcases mem_append.mp he with he | he
      · exact ⟨e, mem_append_left _ he, hxe, hxe'⟩
      have hpe := hdown e he
      by_cases hxp : x < p.stop
      · exact ⟨p', hin', by omega, by omega⟩
      rcases mem_append.mp he with he | he
      · have := (h.within e he).2.2
        omega
      · obtain ⟨e', he', hstop', hle⟩ := hsuf e he
        exact ⟨e', mem_append_right _ (mem_cons_of_mem _ he'),
          hle x hxe (by omega), by omega⟩

theorem Put.last_iff (hp : p.Ok) (hw : NoWrap qs p) :
    (pre ++ p' :: suf').getLast?.any (·.mff) = true ↔ LastMore qs p := by
  have hmff := (h.piece hp hw.front).2.2.2.1
  -- a fragment that is not covered by `p` remains after it
  have hbehind : (∃ q ∈ qs, p.start < q.start ∧ (p.stop ≤ q.start ∨ p.stop < q.stop)) ↔ suf ≠ [] := by
    constructor
    · rintro ⟨q, hq, hlt, hpast⟩ rfl
      rw [h.queue, append_nil] at hq
      rcases mem_append.mp hq with hq | hq
      · have := h.before q hq
        omega
      · have := h.within q hq
        omega
    · intro hne
      obtain ⟨q, rest, rfl⟩ := exists_cons_of_ne_nil hne
      refine ⟨q, h.queue ▸ mem_append_right _ mem_append_cons_self,
        h.after q mem_cons_self, ?_⟩
      rcases h.back with ⟨-, hafter⟩ | ⟨q', rest', heq, -, hlt, -⟩
      · exact .inl (hafter q mem_cons_self)
      · obtain ⟨rfl, -⟩ := cons.inj heq
        exact .inr hlt
  unfold LastMore
  rw [hbehind]
  by_cases hne : suf = []
  · subst hne
    have hnil : suf' = [] := by
      rcases h.back with ⟨heq, -⟩ | ⟨q, rest, heq, -⟩
      · exact heq
      · exact absurd heq nofun
    rw [hnil, getLast?_concat, any_some, hmff]
    simp
  · have hlast : (pre ++ p' :: suf').getLast?.any (·.mff) = qs.getLast?.any (·.mff) := by
      rw [h.queue, getLast?_append_of_ne_nil _ (cons_ne_nil p' suf'),
        getLast?_append_of_ne_nil _ (append_ne_nil_of_right_ne_nil mid hne),
        getLast?_append_of_ne_nil _ hne]
      rcases h.back with ⟨rfl, -⟩ | ⟨q, rest, rfl, -, -, rfl⟩
      · rw [getLast?_cons_of_ne_nil hne]
      rw [getLast?_cons_of_ne_nil (cons_ne_nil _ _)]
      cases rest with
      | nil => rfl
      | cons e es => rfl
    rw [hlast]
    simp [hne]

end

end complete

/-! ## One fragment -/

/-- The step keeps the queue and returns nothing wrong: no trimmed offset wraps, and no datagram that ends
past 32767 is completed.
Source: ip_reass -/
structure FragFits (qs : List Ipasfrag) (p : Ipasfrag) : Prop where
  noWrap : NoWrap qs p
  whole : ∀ n, Completes qs p n → n ≤ 32767

/-- What the claim of the queue is about a result of `ip_reass`.
Source: ip_reass -/
structure ResultOk (r : Option (List Ipasfrag) × Option Datagram) : Prop where
  queue : ∀ qs, r.1 = some qs → QueueOk qs
  datagram : ∀ d, r.2 = some d → d.Ok

theorem length_flatMap_data {r : List Ipasfrag} (hr : ∀ e ∈ r, e.Ok) {a b : ℤ}
    (h : contiguous a r = some b) : ((r.flatMap Ipasfrag.data).length : ℤ) = b - a := by
  induction r generalizing a with
  | nil =>
    obtain rfl := some.inj h
    rw [Int.sub_self]
    rfl
  | cons q qs ih =>
    rw [contiguous] at h
    by_cases heq : q.off.toInt = a
    · rw [if_pos heq] at h
      have hqs := ih (fun e he => hr e (mem_cons_of_mem q he)) h
      have hq : (q.data.length : ℤ) = q.len.toInt := hr q mem_cons_self
      rw [flatMap_cons, length_append]
      omega
    · rw [if_neg heq] at h
      exact absurd h nofun

theorem checkComplete_iff {r : List Ipasfrag} (hr : QueueOk r) : ResultOk (checkComplete r) ↔
    ∀ n, Fills 0 n r → ¬ r.getLast?.any (·.mff) = true → n ≤ 32767 := by
  unfold checkComplete
  cases hc : contiguous 0 r with
  | none =>
    refine iff_of_true ⟨fun qs h => ?_, nofun⟩ fun n hn => ?_
    · obtain rfl := some.inj h
      exact hr
    · rw [(contiguous_iff hr).mpr hn] at hc
      exact absurd hc nofun
  | some b =>
    have hfills := (contiguous_iff hr).mp hc
    dsimp only
    by_cases hmore : r.getLast?.any (·.mff) = true
    · rw [if_pos hmore]
      refine iff_of_true ⟨fun qs h => ?_, nofun⟩ fun n _ hlast => absurd hmore hlast
      obtain rfl := some.inj h
      exact hr
    rw [if_neg hmore]
    have hlen := length_flatMap_data hr.ok hc
    have hdlen : Datagram.Ok ⟨BitVec.ofInt 16 b, r.flatMap Ipasfrag.data⟩ ↔ b ≤ 32767 := by
      unfold Datagram.Ok
      dsimp only
      rw [toInt_ofInt, Int.bmod_def]
      omega
    constructor
    · intro h n hn _
      have := (contiguous_iff hr).mpr hn
      rw [hc] at this
      obtain rfl := some.inj this
      exact hdlen.mp (h.datagram _ rfl)
    · intro h
      refine ⟨nofun, fun d hd => ?_⟩
      obtain rfl := some.inj hd
      exact hdlen.mpr (h b hfills hmore)

theorem inOrder_of_contiguous {r : List Ipasfrag} (hr : ∀ e ∈ r, e.Ok) {a b : ℤ}
    (h : contiguous a r = some b) : InOrder r ∧ ∀ e ∈ r, a ≤ e.start := by
  induction r generalizing a with
  | nil => exact ⟨List.Pairwise.nil, fun e he => absurd he not_mem_nil⟩
  | cons q qs ih =>
    rw [contiguous] at h
    by_cases heq : q.off.toInt = a
    · rw [if_pos heq] at h
      obtain ⟨horder, hle⟩ := ih (fun e he => hr e (mem_cons_of_mem q he)) h
      have hq := (hr q mem_cons_self).start_le
      have hstart : q.start = a := heq
      have hstop := stop_eq q
      refine ⟨pairwise_cons.mpr ⟨fun e he => ?_, horder⟩, fun e he => ?_⟩
      · have := hle e he
        omega
      · rcases mem_cons.mp he with rfl | he
        · omega
        · have := hle e he
          omega
    · rw [if_neg heq] at h
      exact absurd h nofun

theorem inOrder_of_resultOk {r : List Ipasfrag} (hr : ∀ e ∈ r, e.Ok) (h : ResultOk (checkComplete r)) :
    InOrder r := by
  unfold checkComplete at h
  cases hc : contiguous 0 r with
  | none =>
    rw [hc] at h
    exact (h.queue r rfl).order
  | some b => exact (inOrder_of_contiguous hr hc).1

theorem InOrder.apart {qs : List Ipasfrag} (h : InOrder qs) {a b : Ipasfrag} (ha : a ∈ qs) (hb : b ∈ qs)
    (hne : a ≠ b) : a.stop ≤ b.start ∨ b.stop ≤ a.start := by
  induction qs with
  | nil => exact absurd ha not_mem_nil
  | cons q qs ih =>
    obtain ⟨hhead, htail⟩ := pairwise_cons.mp h
    rcases mem_cons.mp ha with rfl | ha'
    · rcases mem_cons.mp hb with rfl | hb'
      · exact absurd rfl hne
      · exact .inl (hhead b hb')
    · rcases mem_cons.mp hb with rfl | hb'
      · exact .inr (hhead a ha')
      · exact ih htail ha' hb'

theorem noWrap_of_contained {qs : List Ipasfrag} {p : Ipasfrag} (hqs : QueueOk qs)
    (h : Contained qs p) : NoWrap qs p := by
  obtain ⟨c, hc, hle, hpos, hstop⟩ := h
  constructor
  · intro q hq hqle hqpos hlt
    have hne : q ≠ c := by
      rintro rfl
      omega
    rcases hqs.order.apart hq hc hne with hqc | hcq
    · omega
    · omega
  · intro q hq hpq hqp hlt
    have hne : q ≠ c := by
      rintro rfl
      omega
    rcases hqs.order.apart hq hc hne with hqc | hcq
    · omega
    · omega

theorem ok_insert {qs r : List Ipasfrag} {p : Ipasfrag} (hqs : ∀ e ∈ qs, e.Ok) (hp : p.Ok)
    (h : Reassembly.insert ops p qs = some r) : ∀ e ∈ r, e.Ok :=
  @Reassembly.insert_forall Ipasfrag ops Ipasfrag.Ok
    (fun _ _ _ hq hpos hlt => (ok_trim hq hpos hlt).1) p hp qs r hqs h

theorem ipReass_some_iff {mget : Bool} {qs : List Ipasfrag} {p : Ipasfrag} (hqs : QueueOk qs)
    (hp : p.Ok) : ResultOk (ipReass mget (some qs) p) ↔ FragFits qs p := by
  unfold ipReass
  dsimp only
  rcases insert_put hqs hp with ⟨hins, hin⟩ | ⟨l, hl, hle, hpos, hlt, hbig, r, hins, hr⟩ |
    ⟨pre, mid, suf, p', suf', hput, hnew, hfront, hins⟩
  · rw [hins]
    refine iff_of_true ⟨fun qs' h => ?_, (by rintro _ ⟨⟩)⟩
      ⟨noWrap_of_contained hqs hin, fun n hn => absurd hin hn.new⟩
    obtain rfl := some.inj h
    exact hqs
  · have hok := ok_insert hqs.ok hp hins
    rw [hins]
    refine iff_of_false (fun h => hr (inOrder_of_resultOk hok h)) fun h => ?_
    have := h.noWrap.front l hl hle hpos hlt
    omega
  · have hok := ok_insert hqs.ok hp hins
    rw [hins]
    by_cases hw : NoWrap qs p
    · dsimp only
      rw [checkComplete_iff (hput.queueOk hqs hp hw), hput.last_iff hp hw]
      constructor
      · intro h
        exact ⟨hw, fun n hn => h n ((hput.fills_iff hqs hp hw).mpr hn.fills) hn.last⟩
      · intro h n hn hlast
        exact h.whole n ⟨hnew, (hput.fills_iff hqs hp hw).mp hn, hlast⟩
    · exact iff_of_false (fun h => hput.not_inOrder hp hfront hw (inOrder_of_resultOk hok h))
        fun h => hw h.noWrap

/-! ## A run -/

/-- What `ipintr` hands to `ip_reass`, if its checks pass and the packet is a fragment.
Source: ipintr -/
def Packet.fragment (p : Packet) : Option Ipasfrag :=
  if p.len.toInt < p.hlen ∨ ((p.hlen + p.data.length : ℕ) : ℤ) < p.len.toInt then none
  else if p.off &&& ipMf ≠ 0 ∨ p.off <<< 3 ≠ 0 then
    some ⟨p.off <<< 3, addShort p.len (-(p.hlen : ℤ)), p.off &&& ipMf ≠ 0,
      p.data.take (p.len.toInt.toNat - p.hlen)⟩
  else none

/-- What happens to the queue of a datagram: a packet with its id, addresses and protocol comes, with an
mbuf for a new queue or not; or `ip_freef` discards it, from `ip_slowtimo` or `ip_drain`. -/
inductive Event where
  | packet (mget : Bool) (p : Packet)
  | freef

/-- One event: the queue after it, and what goes to the protocol. -/
def step (fp : Option (List Ipasfrag)) : Event → Option (List Ipasfrag) × Option Datagram
  | .packet mget p => ipintr mget fp p
  | .freef => (none, none)

/-- A condition on the queue before an event: that the fragment that comes fits.
Source: ip_reass -/
def StepFits (fp : Option (List Ipasfrag)) (e : Event) : Prop :=
  ∀ mget p, e = .packet mget p → ∀ f, p.fragment = some f → ∀ qs, fp = some qs → FragFits qs f

/-- In every state of a run the queue is right, and so is every datagram that goes to the protocol. -/
def Keeps : Option (List Ipasfrag) → List Event → Prop
  | _, [] => True
  | fp, e :: es => ResultOk (step fp e) ∧ Keeps (step fp e).1 es

/-- In every step of a run the fragment that comes fits. -/
def FitsAll : Option (List Ipasfrag) → List Event → Prop
  | _, [] => True
  | fp, e :: es => StepFits fp e ∧ FitsAll (step fp e).1 es

section run

variable {fp : Option (List Ipasfrag)} {p : Packet}

theorem length_take_data (h : ¬ (p.len.toInt < p.hlen ∨ ((p.hlen + p.data.length : ℕ) : ℤ) < p.len.toInt)) :
    ((p.data.take (p.len.toInt.toNat - p.hlen)).length : ℤ) = (addShort p.len (-(p.hlen : ℤ))).toInt := by
  obtain ⟨hlo, hhi⟩ := short_bounds p.len
  rw [toInt_addShort, Int.bmod_def, length_take]
  omega

theorem ok_of_fragment {f : Ipasfrag} (h : p.fragment = some f) : f.Ok := by
  unfold Packet.fragment at h
  split_ifs at h with hbad hfrag
  obtain rfl := some.inj h
  exact length_take_data hbad

theorem off_eq_zero {x : BitVec 16} (h : x &&& ~~~ipDf = 0) : x &&& ipMf = 0 ∧ x <<< 3 = 0 := by
  have hx : x = x &&& ipDf := by
    calc x = x &&& (ipDf ||| ~~~ipDf) := and_allOnes.symm
      _ = (x &&& ipDf) ||| (x &&& ~~~ipDf) := and_or_distrib_left
      _ = x &&& ipDf := by
        rw [h]
        exact or_zero
  constructor
  · rw [hx, BitVec.and_assoc]
    exact and_zero
  · rw [hx, shiftLeft_and_distrib]
    exact and_zero

theorem ipintr_fragment {mget : Bool} {f : Ipasfrag} (h : p.fragment = some f) :
    ipintr mget fp p = ipReass mget fp f := by
  unfold Packet.fragment at h
  split_ifs at h with hbad hfrag
  obtain rfl := some.inj h
  obtain ⟨hlen, hdata⟩ := not_or.mp hbad
  have hoff : ¬ p.off &&& ~~~ipDf = 0 := by
    intro hzero
    obtain ⟨hmf, hshift⟩ := off_eq_zero hzero
    exact hfrag.elim (fun h => h hmf) (fun h => h hshift)
  have hor : decide (p.off &&& ipMf ≠ 0) = true ∨ p.off <<< 3 ≠ 0 := hfrag.imp decide_eq_true id
  unfold ipintr
  rw [if_neg hlen, if_neg hdata, if_neg hoff, if_pos hor]

theorem ipintr_other {mget : Bool} (hfp : ∀ qs, fp = some qs → QueueOk qs) (h : p.fragment = none) :
    ResultOk (ipintr mget fp p) := by
  unfold ipintr
  by_cases hlen : p.len.toInt < p.hlen
  · rw [if_pos hlen]
    exact ⟨hfp, nofun⟩
  rw [if_neg hlen]
  by_cases hdata : ((p.hlen + p.data.length : ℕ) : ℤ) < p.len.toInt
  · rw [if_pos hdata]
    exact ⟨hfp, nofun⟩
  have hbad := not_or.mpr ⟨hlen, hdata⟩
  have hwhole : ∀ d, some (Datagram.mk (addShort p.len (-(p.hlen : ℤ)))
      (p.data.take (p.len.toInt.toNat - p.hlen))) = some d → d.Ok := by
    intro d hd
    obtain rfl := some.inj hd
    exact length_take_data hbad
  unfold Packet.fragment at h
  rw [if_neg hbad] at h
  rw [if_neg hdata]
  by_cases hoff : p.off &&& ~~~ipDf = 0
  · rw [if_pos hoff]
    exact ⟨hfp, hwhole⟩
  rw [if_neg hoff]
  have hfrag : ¬ (p.off &&& ipMf ≠ 0 ∨ p.off <<< 3 ≠ 0) := by
    intro hfrag
    rw [if_pos hfrag] at h
    exact absurd h nofun
  rw [if_neg fun hor => hfrag (hor.imp of_decide_eq_true id)]
  exact ⟨nofun, hwhole⟩

theorem ipReass_none {mget : Bool} {f : Ipasfrag} (hf : f.Ok) : ResultOk (ipReass mget none f) := by
  cases mget with
  | false => exact ⟨nofun, nofun⟩
  | true =>
    have hone : QueueOk [f] := by
      refine ⟨pairwise_singleton _ f, fun e he => ?_⟩
      rw [mem_singleton.mp he]
      exact hf
    refine (checkComplete_iff hone).mpr fun n hn _ => ?_
    obtain ⟨-, hhi⟩ := short_bounds f.len
    -- a datagram of one fragment ends where this fragment does
    have hone' := (contiguous_iff hone).mpr hn
    rw [contiguous] at hone'
    by_cases hzero : f.off.toInt = 0
    · rw [if_pos hzero] at hone'
      have := some.inj hone'
      omega
    · rw [if_neg hzero] at hone'
      exact absurd hone' nofun

theorem step_iff (hfp : ∀ qs, fp = some qs → QueueOk qs) (e : Event) :
    ResultOk (step fp e) ↔ StepFits fp e := by
  cases e with
  | freef => exact iff_of_true ⟨nofun, nofun⟩ nofun
  | packet mget p =>
    cases hfrag : p.fragment with
    | none =>
      refine iff_of_true (ipintr_other hfp hfrag) fun mget' p' heq f hf => ?_
      obtain ⟨-, rfl⟩ := Event.packet.inj heq
      rw [hfrag] at hf
      exact absurd hf nofun
    | some f =>
      have hf := ok_of_fragment hfrag
      rw [step, ipintr_fragment hfrag]
      cases fp with
      | none => exact iff_of_true (ipReass_none hf) fun _ _ _ _ _ _ h => absurd h nofun
      | some qs =>
        rw [ipReass_some_iff (hfp qs rfl) hf]
        constructor
        · intro h mget' p' heq f' hf' qs' hqs'
          obtain ⟨-, rfl⟩ := Event.packet.inj heq
          rw [hfrag] at hf'
          obtain rfl := some.inj hf'
          obtain rfl := some.inj hqs'
          exact h
        · intro h
          exact h mget p rfl f hfrag qs rfl

theorem keeps_iff (hfp : ∀ qs, fp = some qs → QueueOk qs) (es : List Event) :
    Keeps fp es ↔ FitsAll fp es := by
  induction es generalizing fp with
  | nil => exact Iff.rfl
  | cons e es ih =>
    rw [Keeps, FitsAll]
    constructor
    · rintro ⟨hstep, hrest⟩
      exact ⟨(step_iff hfp e).mp hstep, (ih hstep.queue).mp hrest⟩
    · rintro ⟨hfits, hrest⟩
      have hstep := (step_iff hfp e).mpr hfits
      exact ⟨hstep, (ih hstep.queue).mpr hrest⟩

end run

/-- Two fragments at 32760: 16 bytes, then 24. Source: ip_reass. -/
def lateFrags : List Event :=
  [.packet true ⟨20, 36, 12287, List.replicate 16 0⟩, .packet true ⟨20, 44, 12287, List.replicate 24 0⟩]

end Bsd386.Net.Ip
