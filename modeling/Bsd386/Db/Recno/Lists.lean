import Bsd386.Db.Recno.Records

/-!
# A recno database is a list

`listCall` is what a call does with a list of byte strings, and `call` what it does with the database. The
two agree under `Meets`: a record is not to be inserted behind one that is not there, the number of records
stays below 2^32, and when a leaf page is split the new record fits on the page it is put on.
-/

namespace Bsd386.Db.Recno

open List Btree
open BitVec (eq_of_toNat_eq le_def lt_def)

variable {b : Recno} {H k n : ℕ} {cs : List Cell} {key : BitVec 32} {data : List UInt8} {flags : Flag}
  {l : List (List UInt8)}

/-! ## Calls -/

/-- The calls. -/
inductive Req where
  | put (flags : Flag) (key : BitVec 32) (data : List UInt8)
  | delete (key : BitVec 32)
  | get (key : BitVec 32)

/-- What a call returns, and the data that it gives. -/
structure Reply where
  ret : Ret
  data : Option (List UInt8)
  deriving DecidableEq

/-- A call. `none` when it reads or writes where there is no record. -/
def call (b : Recno) : Req → Option (Reply × Recno)
  | .put flags key data => (recPut b key data flags).map fun (ret, _, b) => (⟨ret, none⟩, b)
  | .delete key => (recDelete b key .zero).map fun (ret, b) => (⟨ret, none⟩, b)
  | .get key => (recGet b key .zero).map fun (ret, data) => (⟨ret, data⟩, b)

def run : List Req → Recno → Option (List Reply × Recno)
  | [], b => some ([], b)
  | req :: reqs, b =>
    match call b req with
    | none => none
    | some (reply, b) => (run reqs b).map fun (replies, b) => (reply :: replies, b)

/-- The flags of a put: `0`, `R_NOOVERWRITE`, `R_IAFTER` and `R_IBEFORE`.
Source: __rec_put -/
def Req.Listed : Req → Prop
  | .put flags _ _ => flags = .zero ∨ flags = .rNooverwrite ∨ flags = .rIafter ∨ flags = .rIbefore
  | _ => True

/-! ## Lists of byte strings -/

/-- The list with empty strings behind it, so that there are `n`. -/
def padded (l : List (List UInt8)) (n : ℕ) : List (List UInt8) := l ++ List.replicate (n - l.length) []

def listCall (l : List (List UInt8)) : Req → Reply × List (List UInt8)
  | .put flags key data =>
    let n := key.toNat
    match flags with
    | .zero =>
      if n = 0 then (⟨.error, none⟩, l) else (⟨.success, none⟩, (padded l n).set (n - 1) data)
    | .rNooverwrite =>
      if n = 0 then (⟨.error, none⟩, l)
      else if n ≤ l.length then (⟨.special, none⟩, l)
      else (⟨.success, none⟩, (padded l n).set (n - 1) data)
    | .rIbefore =>
      if n = 0 then (⟨.error, none⟩, l)
      else (⟨.success, none⟩, (padded l (n - 1)).insertIdx (n - 1) data)
    | .rIafter => (⟨.success, none⟩, (padded l n).insertIdx n data)
    | _ => (⟨.error, none⟩, l)
  | .delete key =>
    let n := key.toNat
    if n = 0 then (⟨.error, none⟩, l)
    else if l.length < n then (⟨.special, none⟩, l)
    else (⟨.success, none⟩, l.eraseIdx (n - 1))
  | .get key =>
    let n := key.toNat
    if n = 0 then (⟨.error, none⟩, l)
    else
      match l[n - 1]? with
      | none => (⟨.special, none⟩, l)
      | some data => (⟨.success, some data⟩, l)

/-- What a sequence of calls does with a list. -/
def listRun : List Req → List (List UInt8) → List Reply × List (List UInt8)
  | [], l => ([], l)
  | req :: reqs, l =>
    let (reply, l) := listCall l req
    let (replies, l) := listRun reqs l
    (reply :: replies, l)

/-! ## The condition -/

/-- There is room for the record of a put. When the number is beyond the end the records that are skipped
come first; a record that is replaced is deleted first. -/
def PutRoom (b : Recno) (flags : Flag) (key : BitVec 32) (data : List UInt8) : Prop :=
  if b.nrecs < key then
    let skipped := key.toNat - b.nrecs.toNat - 1
    RoomFor b b.nrecs data fun index xs =>
      (index + skipped, xs ++ List.replicate skipped (RLeaf.data []))
  else
    match flags with
    | .zero => RoomFor b (key - 1) data fun index xs => (index, xs.eraseIdx index)
    | .rIbefore => RoomFor b (key - 1) data fun index xs => (index, xs)
    | .rIafter =>
      if key = 0 then RoomFor b 0 data fun index xs => (index, xs)
      else RoomFor b (key - 1) data fun index xs => (index + 1, xs)
    | _ => True

/-- The condition for a call: with `R_IAFTER` the record to insert behind is there, a record is not inserted
when there are 2^32 - 1 already, and there is room for the record of a put where its leaf page is split. -/
def Meets (b : Recno) : Req → Prop
  | .put flags key data =>
    (flags = .rIafter → key ≤ b.nrecs) ∧
    (flags = .rIafter ∨ flags = .rIbefore → b.nrecs ≠ BitVec.allOnes 32) ∧
    (key ≠ 0 ∨ flags = .rIafter → PutRoom b flags key data)
  | _ => True

/-- Each call of a sequence meets the condition in the state that it is made in. -/
def MeetsAll : List Req → Recno → Prop
  | [], _ => True
  | req :: reqs, b => Meets b req ∧ ∀ reply b', call b req = some (reply, b') → MeetsAll reqs b'

def Models (b : Recno) (l : List (List UInt8)) : Prop := ∃ H cs, Stored b H cs ∧ cs.map Cell.bytes = l

/-! ## Skipping records -/

theorem roomAt_empty {t : Tree RLeaf RInternal} (hmin : 512 ≤ t.psize) (pg ovflsize : ℕ) (xs : List RLeaf) :
    RoomAt t pg xs.length xs (recBytes ovflsize []) := by
  intro _ hno m hend
  have hlen : (recLayout.sizes (.leaf xs)).length = xs.length := length_map _
  have hused := recLayout.used_eq (.leaf xs)
  have hge := sumTo_ge (S := recLayout.sizes (.leaf xs)) fun y hy => by
    obtain ⟨z, -, rfl⟩ := mem_map.mp hy
    exact nrleaf_ge z
  have hbefore := hend.before
  have hbytes : recBytes ovflsize [] = 8 := by
    rw [recBytes, length_nil, if_neg (Nat.not_lt_zero _)]
    rfl
  rw [hlen] at hused hge
  rw [hbytes, indxSize] at hno
  rw [btdataoff] at hno hbefore
  omega

/-- An empty record. Source: __rec_put -/
def emptyCell : Cell := ⟨.data [], [], []⟩

theorem Stored.toNat_succ (h : Stored b H cs)
    (hlt : cs.length + 1 < 2 ^ 32) : (b.nrecs + 1).toNat = cs.length + 1 := by
  have hone : (1 : BitVec 32).toNat = 1 := rfl
  rw [BitVec.toNat_add, h.toNat_nrecs, hone, Nat.mod_eq_of_lt hlt]

theorem skipRecords_spec (h : Stored b H cs)
    (hkey : key.toNat = cs.length + k + 1) {fuel : ℕ} (hfuel : k ≤ fuel) :
    ∃ b' H', skipRecords fuel key b = some b' ∧ Stored b' H' (cs ++ List.replicate k emptyCell) ∧ H ≤ H' ∧
      b'.tree.psize = b.tree.psize := by
  induction k generalizing b H cs fuel with
  | zero =>
    refine ⟨b, H, ?_, by simpa using h, Nat.le_refl _, rfl⟩
    have hno : ¬ b.nrecs + 1 < key := by
      rw [lt_def, h.toNat_succ (by omega), hkey]
      omega
    cases fuel with
    | zero => rfl
    | succ fuel => rw [skipRecords, if_neg hno]
  | succ k ih =>
    obtain ⟨fuel, rfl⟩ : ∃ m, fuel = m + 1 := ⟨fuel - 1, by omega⟩
    have hyes : b.nrecs + 1 < key := by
      rw [lt_def, h.toNat_succ (by omega), hkey]
      omega
    have hroom : H = 0 →
        RoomAt b.tree pRoot cs.length (cs.map Cell.item) (recBytes b.tree.ovflsize []) := fun _ => by
      rw [← length_map Cell.item]
      exact roomAt_empty h.min_psize _ _ _
    obtain ⟨b1, H1, c, hput, hdone⟩ := recIput_append h (.inl rfl) (by omega) (h.room_end hroom)
    obtain rfl : c = emptyCell := hdone.inline (Nat.zero_le _)
    obtain ⟨b', H', hskip, hstored, hH, hps⟩ := ih hdone.stored
      (by rw [length_append, length_singleton, hkey]; omega) (by omega : k ≤ fuel)
    rw [skipRecords, if_pos hyes, hput]
    refine ⟨b', H', hskip, ?_, Nat.le_trans hdone.height hH, hps.trans hdone.psize⟩
    rw [append_assoc, singleton_append, ← replicate_succ] at hstored
    exact hstored

/-! ## Putting -/

theorem insertAt_eq_insertIdx {γ : Type} {xs : List γ} (h : n ≤ xs.length) (x : γ) :
    insertAt n x xs = xs.insertIdx n x := by
  induction n generalizing xs with
  | zero => rfl
  | succ n ih =>
    cases xs with
    | nil => exact absurd h (Nat.not_succ_le_zero n)
    | cons y xs =>
      rw [insertIdx_succ_cons, ← ih (Nat.le_of_succ_le_succ h)]
      rfl

theorem bytes_insertAt {c : Cell} (h : n ≤ cs.length) :
    (insertAt n c cs).map Cell.bytes = (cs.map Cell.bytes).insertIdx n c.bytes := by
  rw [map_insertAt, insertAt_eq_insertIdx (by rw [length_map]; exact h)]

theorem Stored.no_skip (h : Stored b H cs)
    (hkey : key.toNat ≤ cs.length + 1) :
    (if b.nrecs < key then skipRecords key.toNat key b else some b) = some b := by
  by_cases hlt : b.nrecs < key
  · have hlt' := hlt
    rw [lt_def, h.toNat_nrecs] at hlt'
    obtain ⟨n, hn⟩ : ∃ n, key.toNat = n + 1 := ⟨key.toNat - 1, by omega⟩
    have hno : ¬ b.nrecs + 1 < key := by
      rw [lt_def, h.toNat_succ (by omega)]
      omega
    rw [if_pos hlt, hn, skipRecords, if_neg hno]
  · rw [if_neg hlt]

theorem putAt_eq {b1 b2 : Recno}
    (hflags : flags ≠ .rSetcursor)
    (hskip : (if b.nrecs < key then skipRecords key.toNat key b else some b) = some b1)
    (hput : recIput b1 (key - 1) data flags = some b2) :
    putAt b key data flags = some (.success, key, b2) := by
  rw [putAt, hskip]
  dsimp only
  rw [hput]
  dsimp only
  rw [if_neg hflags]

theorem putAt_replace (h : Stored b H cs)
    (hkey : key ≠ 0) (hle : key.toNat ≤ cs.length)
    (hroom : RoomFor b (key - 1) data fun index xs => (index, xs.eraseIdx index)) :
    ∃ b', putAt b key data .zero = some (.success, key, b') ∧
      Models b' ((cs.map Cell.bytes).set (key.toNat - 1) data) := by
  have hpos : key.toNat ≠ 0 := fun h => hkey (eq_of_toNat_eq (h.trans rfl))
  have hpred := toNat_pred hkey
  obtain ⟨b', H', c, hput, hdone⟩ := recIput_replace h (by rw [hpred]; omega) hroom
  refine ⟨b', putAt_eq (by decide) (h.no_skip (by omega)) hput, H', _, hdone.stored, ?_⟩
  rw [hpred, bytes_insertAt (by rw [length_eraseIdx_of_lt (by omega)]; omega), hdone.bytes,
    map_eraseIdx, insertIdx_eraseIdx_self (by rw [length_map]; omega)]

theorem putAt_before (h : Stored b H cs)
    (hkey : key ≠ 0) (hle : key.toNat ≤ cs.length + 1) (hsmall : cs.length + 1 < 2 ^ 32)
    (hroom : RoomFor b (key - 1) data fun index xs => (index, xs)) :
    ∃ b', putAt b key data .rIbefore = some (.success, key, b') ∧
      Models b' ((cs.map Cell.bytes).insertIdx (key.toNat - 1) data) := by
  have hpred := toNat_pred hkey
  obtain ⟨b', H', c, hput, hdone⟩ := recIput_before h (by rw [hpred]; omega) hsmall hroom
  refine ⟨b', putAt_eq (by decide) (h.no_skip hle) hput, H', _, hdone.stored, ?_⟩
  rw [hpred, bytes_insertAt (by omega), hdone.bytes]

theorem putAt_after (h : Stored b H cs)
    (hkey : key ≠ 0) (hle : key.toNat ≤ cs.length) (hsmall : cs.length + 1 < 2 ^ 32)
    (hroom : RoomFor b (key - 1) data fun index xs => (index + 1, xs)) :
    ∃ b', putAt b key data .rIafter = some (.success, key, b') ∧
      Models b' ((cs.map Cell.bytes).insertIdx key.toNat data) := by
  have hpos : key.toNat ≠ 0 := fun h => hkey (eq_of_toNat_eq (h.trans rfl))
  have hpred := toNat_pred hkey
  obtain ⟨b', H', c, hput, hdone⟩ := recIput_after h (by rw [hpred]; omega) hsmall hroom
  refine ⟨b', putAt_eq (by decide) (h.no_skip (by omega)) hput, H', _, hdone.stored, ?_⟩
  rw [hpred, Nat.sub_add_cancel (by omega), bytes_insertAt hle, hdone.bytes]

theorem Stored.room_root (h : Stored b 0 cs)
    (hroom : RoomFor b b.nrecs data fun index xs =>
      (index + k, xs ++ List.replicate k (RLeaf.data []))) :
    RoomAt b.tree pRoot (cs.length + k) (cs.map Cell.item ++ List.replicate k (RLeaf.data []))
      (recBytes b.tree.ovflsize data) := by
  obtain ⟨c, t1, e, t, pre, xs, post, last, around, -, -, ⟨t0, hres0⟩, hr⟩ :=
    h.ready .search (Nat.le_of_eq h.toNat_nrecs) data
  have hroom' := hroom e t0 hres0
  rw [hr.page] at hroom'
  have habove := hr.above
  rw [length_eq_zero_iff.mp hr.height] at habove
  obtain ⟨hpg, hpre, hpost, -⟩ := habove.nil
  have hitems := hr.items
  have hindex := hr.index
  rw [hpre, hpost, nil_append, append_nil] at hitems
  rw [hpre, length_nil, Nat.sub_zero, h.toNat_nrecs] at hindex
  rw [hpg, hindex, ← hitems] at hroom'
  exact hroom'

theorem putAt_beyond (h : Stored b H cs)
    (hflags : flags = .zero ∨ flags = .rNooverwrite ∨ flags = .rIbefore)
    (hkey : key.toNat = cs.length + k + 1)
    (hroom : RoomFor b b.nrecs data fun index xs =>
      (index + k, xs ++ List.replicate k (RLeaf.data []))) :
    ∃ b', putAt b key data flags = some (.success, key, b') ∧
      Models b' (cs.map Cell.bytes ++ List.replicate k [] ++ [data]) := by
  have hne : key ≠ 0 := by
    rintro rfl
    exact absurd hkey.symm (Nat.succ_ne_zero _)
  have hpred := toNat_pred hne
  have hlt : b.nrecs < key := by
    rw [lt_def, h.toNat_nrecs]
    omega
  obtain ⟨b1, H1, hskip, hstored, hH, hps⟩ := skipRecords_spec h hkey (by omega : k ≤ key.toNat)
  have hlen : (cs ++ replicate k emptyCell).length = cs.length + k := by
    rw [length_append, length_replicate]
  have hcut : b1.tree.ovflsize = b.tree.ovflsize := by rw [hstored.cutoff, h.cutoff, hps]
  have hnrecs : key - 1 = b1.nrecs := by
    refine eq_of_toNat_eq ?_
    rw [hstored.toNat_nrecs, hlen, hpred]
    omega
  have hend : RoomFor b1 b1.nrecs data fun index xs => (index, xs) := by
    refine hstored.room_end fun hzero => ?_
    obtain rfl : H = 0 := by omega
    have hroot := h.room_root hroom
    rw [hlen, map_append, map_replicate, hcut]
    intro _ hno
    rw [hps] at hno ⊢
    exact hroot (.inl rfl) hno
  have hskip' : (if b.nrecs < key then skipRecords key.toNat key b else some b) = some b1 := by
    rw [if_pos hlt, hskip]
  have hbytes : ∀ c : Cell, c.bytes = data → (cs ++ replicate k emptyCell ++ [c]).map Cell.bytes =
      cs.map Cell.bytes ++ replicate k [] ++ [data] := by
    intro c hc
    rw [map_append, map_append, map_replicate, map_singleton, hc]
    rfl
  rcases hflags with hf | hf | rfl
  · obtain ⟨b', H', c, hput, hdone⟩ := recIput_append hstored (.inl hf) (by omega) hend
    exact ⟨b', putAt_eq (by rw [hf]; decide) hskip' (hnrecs ▸ hput), H', _, hdone.stored,
      hbytes c hdone.bytes⟩
  · obtain ⟨b', H', c, hput, hdone⟩ := recIput_append hstored (.inr hf) (by omega) hend
    exact ⟨b', putAt_eq (by rw [hf]; decide) hskip' (hnrecs ▸ hput), H', _, hdone.stored,
      hbytes c hdone.bytes⟩
  · obtain ⟨b', H', c, hput, hdone⟩ := recIput_before hstored (Nat.le_of_eq hstored.toNat_nrecs) (by omega) hend
    refine ⟨b', putAt_eq (by decide) hskip' (hnrecs ▸ hput), H', _, hdone.stored, ?_⟩
    have happend := insertAt_append (cs ++ replicate k emptyCell) c []
    rw [append_nil] at happend
    rw [hstored.toNat_nrecs, happend]
    exact hbytes c hdone.bytes

/-! ## One call -/

theorem padded_of_le (h : n ≤ l.length) : padded l n = l := by
  rw [padded, Nat.sub_eq_zero_of_le h, replicate_zero, append_nil]

theorem padded_add (l : List (List UInt8)) (k : ℕ) : padded l (l.length + k) = l ++ List.replicate k [] := by
  rw [padded, Nat.add_sub_cancel_left]

theorem padded_set (l : List (List UInt8)) (k : ℕ) (x : List UInt8) :
    (padded l (l.length + k + 1)).set (l.length + k) x = l ++ List.replicate k [] ++ [x] := by
  have hlen : l.length + k = (l ++ replicate k ([] : List UInt8)).length := by
    rw [length_append, length_replicate]
  rw [Nat.add_assoc, padded_add, replicate_succ', ← append_assoc, hlen,
    set_append_right _ _ (Nat.le_refl _), Nat.sub_self]
  rfl

theorem padded_insertIdx (l : List (List UInt8)) (k : ℕ) (x : List UInt8) :
    (padded l (l.length + k)).insertIdx (l.length + k) x = l ++ List.replicate k [] ++ [x] := by
  have hlen : l.length + k = (l ++ replicate k ([] : List UInt8)).length := by
    rw [length_append, length_replicate]
  rw [padded_add, hlen, insertIdx_length_self]

theorem recPut_list (h : Models b l)
    (hlisted : (Req.put flags key data).Listed) (hmeets : Meets b (.put flags key data)) :
    ∃ ret key' b', recPut b key data flags = some (ret, key', b') ∧
      (listCall l (.put flags key data)).1 = ⟨ret, none⟩ ∧
      Models b' (listCall l (.put flags key data)).2 := by
  obtain ⟨H, cs, hstored, rfl⟩ := h
  obtain ⟨hafter, hfull, hroom⟩ := hmeets
  have hnrecs := hstored.toNat_nrecs
  have hlen : (cs.map Cell.bytes).length = cs.length := length_map _
  have hzero : key = 0 ↔ key.toNat = 0 :=
    ⟨fun h => by rw [h]; rfl, fun h => eq_of_toNat_eq (h.trans rfl)⟩
  have hless : b.nrecs < key ↔ cs.length < key.toNat := by rw [lt_def, hnrecs]
  have hsmall : b.nrecs ≠ BitVec.allOnes 32 → cs.length + 1 < 2 ^ 32 := fun hne => by
    have hne' : cs.length ≠ 2 ^ 32 - 1 := fun heq =>
      hne (eq_of_toNat_eq (by rw [hnrecs, heq, BitVec.toNat_allOnes]))
    omega
  -- beyond the end
  have hbeyond : cs.length < key.toNat → flags = .zero ∨ flags = .rNooverwrite ∨ flags = .rIbefore →
      ∃ b', putAt b key data flags = some (.success, key, b') ∧
        Models b' (cs.map Cell.bytes ++ replicate (key.toNat - cs.length - 1) [] ++ [data]) := by
    intro hlt hflags
    have hne : key ≠ 0 := fun h => by rw [hzero.mp h] at hlt; exact Nat.not_lt_zero _ hlt
    have hroom' := hroom (.inl hne)
    unfold PutRoom at hroom'
    rw [if_pos (hless.mpr hlt), hnrecs] at hroom'
    exact putAt_beyond hstored hflags (by omega) hroom'
  rcases hlisted with rfl | rfl | rfl | rfl
  · rw [recPut, listCall]
    by_cases h0 : key = 0
    · rw [if_pos h0, if_pos (hzero.mp h0)]
      exact ⟨_, _, _, rfl, rfl, H, cs, hstored, rfl⟩
    rw [if_neg h0, if_neg fun h => h0 (hzero.mpr h)]
    by_cases hlt : cs.length < key.toNat
    · obtain ⟨b', hput, hmodels⟩ := hbeyond hlt (.inl rfl)
      refine ⟨_, _, b', hput, rfl, ?_⟩
      have hset := padded_set (cs.map Cell.bytes) (key.toNat - cs.length - 1) data
      rw [hlen, (by omega : cs.length + (key.toNat - cs.length - 1) + 1 = key.toNat),
        (by omega : cs.length + (key.toNat - cs.length - 1) = key.toNat - 1)] at hset
      rw [hset]
      exact hmodels
    · have hroom' := hroom (.inl h0)
      rw [PutRoom, if_neg fun h => hlt (hless.mp h)] at hroom'
      obtain ⟨b', hput, hmodels⟩ := putAt_replace hstored h0 (by omega) hroom'
      refine ⟨_, _, b', hput, rfl, ?_⟩
      rw [padded_of_le (by rw [hlen]; omega)]
      exact hmodels
  · rw [recPut, listCall]
    by_cases h0 : key = 0
    · rw [if_pos h0, if_pos (hzero.mp h0)]
      exact ⟨_, _, _, rfl, rfl, H, cs, hstored, rfl⟩
    rw [if_neg h0, if_neg fun h => h0 (hzero.mpr h), hlen]
    by_cases hlt : cs.length < key.toNat
    · have hle : ¬ key ≤ b.nrecs := by
        rw [le_def, hnrecs]
        omega
      obtain ⟨b', hput, hmodels⟩ := hbeyond hlt (.inr (.inl rfl))
      rw [if_neg hle, if_neg (by omega)]
      refine ⟨_, _, b', hput, rfl, ?_⟩
      have hset := padded_set (cs.map Cell.bytes) (key.toNat - cs.length - 1) data
      rw [hlen, (by omega : cs.length + (key.toNat - cs.length - 1) + 1 = key.toNat),
        (by omega : cs.length + (key.toNat - cs.length - 1) = key.toNat - 1)] at hset
      rw [hset]
      exact hmodels
    · have hle : key ≤ b.nrecs := by
        rw [le_def, hnrecs]
        omega
      rw [if_pos hle, if_pos (by omega)]
      exact ⟨_, _, _, rfl, rfl, H, cs, hstored, rfl⟩
  · have hkey := hafter rfl
    rw [le_def, hnrecs] at hkey
    have hs := hsmall (hfull (.inl rfl))
    have hroom' := hroom (.inr rfl)
    rw [PutRoom, if_neg fun h => Nat.not_lt.mpr hkey (hless.mp h)] at hroom'
    rw [recPut, listCall]
    rw [padded_of_le (by rw [hlen]; exact hkey)]
    by_cases h0 : key = 0
    · rw [if_pos h0] at hroom' ⊢
      have h1 : (1 : BitVec 32) ≠ 0 := by decide
      obtain ⟨b', hput, hmodels⟩ :=
        putAt_before hstored h1 (Nat.succ_le_succ (Nat.zero_le _)) hs hroom'
      refine ⟨_, _, b', hput, rfl, ?_⟩
      rw [hzero.mp h0]
      exact hmodels
    · rw [if_neg h0] at hroom' ⊢
      obtain ⟨b', hput, hmodels⟩ := putAt_after hstored h0 hkey hs hroom'
      exact ⟨_, _, b', hput, rfl, hmodels⟩
  · have hs := hsmall (hfull (.inr rfl))
    rw [recPut, listCall]
    by_cases h0 : key = 0
    · rw [if_pos h0, if_pos (hzero.mp h0)]
      exact ⟨_, _, _, rfl, rfl, H, cs, hstored, rfl⟩
    rw [if_neg h0, if_neg fun h => h0 (hzero.mpr h)]
    by_cases hlt : cs.length < key.toNat
    · obtain ⟨b', hput, hmodels⟩ := hbeyond hlt (.inr (.inr rfl))
      refine ⟨_, _, b', hput, rfl, ?_⟩
      have hins := padded_insertIdx (cs.map Cell.bytes) (key.toNat - cs.length - 1) data
      rw [hlen, (by omega : cs.length + (key.toNat - cs.length - 1) = key.toNat - 1)] at hins
      rw [hins]
      exact hmodels
    · have hroom' := hroom (.inl h0)
      rw [PutRoom, if_neg fun h => hlt (hless.mp h)] at hroom'
      obtain ⟨b', hput, hmodels⟩ := putAt_before hstored h0 (by omega) hs hroom'
      refine ⟨_, _, b', hput, rfl, ?_⟩
      rw [padded_of_le (by rw [hlen]; omega)]
      exact hmodels

theorem call_list (h : Models b l) {req : Req} (hlisted : req.Listed)
    (hmeets : Meets b req) :
    ∃ b', call b req = some ((listCall l req).1, b') ∧ Models b' (listCall l req).2 := by
  cases req with
  | put flags key data =>
    obtain ⟨ret, key', b', hput, hreply, hmodels⟩ := recPut_list h hlisted hmeets
    refine ⟨b', ?_, hmodels⟩
    rw [call, hput, hreply, Option.map_some]
  | delete key =>
    obtain ⟨H, cs, hstored, rfl⟩ := h
    have hnrecs := hstored.toNat_nrecs
    have hlen : (cs.map Cell.bytes).length = cs.length := length_map _
    have hzero : key = 0 ↔ key.toNat = 0 :=
      ⟨fun h => by rw [h]; rfl, fun h => eq_of_toNat_eq (h.trans rfl)⟩
    have hless : b.nrecs < key ↔ cs.length < key.toNat := by rw [lt_def, hnrecs]
    rw [call, recDelete, listCall]
    rw [hlen]
    by_cases h0 : key = 0
    · rw [if_pos h0, if_pos (hzero.mp h0)]
      exact ⟨b, rfl, H, cs, hstored, rfl⟩
    have hpos : key.toNat ≠ 0 := fun h => h0 (hzero.mpr h)
    rw [if_neg h0, if_neg hpos]
    by_cases hlt : cs.length < key.toNat
    · rw [if_pos (hless.mpr hlt), if_pos hlt]
      exact ⟨b, rfl, H, cs, hstored, rfl⟩
    have hpred := toNat_pred h0
    obtain ⟨b', hdel, hstored'⟩ := recRdelete_spec hstored (by rw [hpred]; omega)
    rw [if_neg fun h => hlt (hless.mp h), if_neg hlt, hdel]
    refine ⟨b', rfl, H, _, hstored', ?_⟩
    rw [map_eraseIdx, hpred]
  | get key =>
    obtain ⟨H, cs, hstored, rfl⟩ := h
    have hnrecs := hstored.toNat_nrecs
    have hzero : key = 0 ↔ key.toNat = 0 :=
      ⟨fun h => by rw [h]; rfl, fun h => eq_of_toNat_eq (h.trans rfl)⟩
    rw [call, listCall]
    by_cases h0 : key = 0
    · rw [if_pos (hzero.mp h0), recGet, if_pos (.inr h0)]
      exact ⟨b, rfl, H, cs, hstored, rfl⟩
    have hpos : key.toNat ≠ 0 := fun h => h0 (hzero.mpr h)
    rw [if_neg hpos]
    by_cases hle : key.toNat ≤ cs.length
    · obtain ⟨c, hget, hres⟩ := recGet_spec hstored h0 hle
      rw [hres, getElem?_map, hget]
      exact ⟨b, rfl, H, cs, hstored, rfl⟩
    have hlt : b.nrecs < key := by
      rw [lt_def, hnrecs]
      omega
    have hnone : (cs.map Cell.bytes)[key.toNat - 1]? = none := by
      rw [getElem?_eq_none_iff, length_map]
      omega
    rw [hnone, recGet, if_neg fun hor => hor.elim (fun hne => hne rfl) h0, if_pos hlt]
    exact ⟨b, rfl, H, cs, hstored, rfl⟩

/-! ## Sequences of calls -/

theorem run_models {reqs : List Req} (h : Models b l)
    (hlisted : ∀ req ∈ reqs, req.Listed) (hmeets : MeetsAll reqs b) :
    ∃ b', run reqs b = some ((listRun reqs l).1, b') ∧ Models b' (listRun reqs l).2 := by
  induction reqs generalizing b l with
  | nil => exact ⟨b, rfl, h⟩
  | cons req reqs ih =>
    obtain ⟨hreq, hrest⟩ := hmeets
    obtain ⟨b1, hcall, hmodels⟩ := call_list h (hlisted req mem_cons_self) hreq
    obtain ⟨b', hrun, hmodels'⟩ := ih hmodels (fun r hr => hlisted r (mem_cons_of_mem req hr))
      (hrest _ b1 hcall)
    rw [run, hcall]
    dsimp only
    rw [hrun, Option.map_some]
    exact ⟨b', rfl, hmodels'⟩

theorem recOpen_models {psize blksize : ℕ} (h : recOpen psize blksize = some b) : Models b [] := by
  have hnew : ∀ n, 512 ≤ n → n ≤ 65536 → Models
      { tree := ⟨n, ovflsizeOf n defminkeypage, fun _ => ⟨0, 0, false, .leaf []⟩, 2, 0⟩
        nrecs := 0
        rcursor := 0
        seqinit := false } [] := by
    intro n hmin hmax
    refine ⟨0, [], ⟨?_, ?_, rfl, Nat.two_pow_pos 32, hmin, hmax, by dsimp only⟩, rfl⟩
    · refine ⟨[pRoot], ⟨rfl, rfl, ⟨Nat.zero_le _, ?_⟩, fun _ => rfl⟩, [], rfl, nodup_singleton pRoot,
        fun p hp => ?_⟩
      · exact fun x hx => nomatch hx
      · obtain rfl : p = pRoot := mem_singleton.mp hp
        exact ⟨Nat.zero_lt_one, Nat.lt_succ_self 1⟩
    · exact fun c hc => nomatch hc
  rw [recOpen] at h
  by_cases hbad : psize ≠ 0 ∧ (psize < minpsize ∨ maxPageOffset + 1 < psize ∨ psize % indxSize ≠ 0)
  · rw [if_pos hbad] at h
    exact absurd h (by simp)
  rw [if_neg hbad] at h
  obtain rfl := Option.some.inj h
  refine hnew _ ?_ ?_
  · rw [minpsize, maxPageOffset] at hbad ⊢
    dsimp only
    split_ifs <;> omega
  · rw [minpsize, maxPageOffset] at hbad ⊢
    dsimp only
    split_ifs <;> omega

/-- **A recno database is a list**: from the new database on, a sequence of calls that meet the condition
returns what it does for a list of byte strings, `bt_nrecs` is the length of the list, and getting the record
`n` returns element `n` of it.
Source: __rec_put. Kind: C -/
theorem run_list {psize blksize : ℕ} {b : Recno} (hopen : recOpen psize blksize = some b) {reqs : List Req}
    (hlisted : ∀ req ∈ reqs, req.Listed) (hmeets : MeetsAll reqs b) :
    ∃ b', run reqs b = some ((listRun reqs []).1, b') ∧
      b'.nrecs.toNat = (listRun reqs []).2.length ∧
      ∀ key, call b' (.get key) = some ((listCall (listRun reqs []).2 (.get key)).1, b') := by
  obtain ⟨b', hrun, hmodels⟩ := run_models (recOpen_models hopen) hlisted hmeets
  refine ⟨b', hrun, ?_, fun key => ?_⟩
  · obtain ⟨H, cs, hstored, hcs⟩ := hmodels
    rw [hstored.toNat_nrecs, ← hcs, length_map]
  · have hget_listed : (Req.get key).Listed := trivial
    have hget_meets : Meets b' (.get key) := trivial
    obtain ⟨b1, hget, -⟩ := call_list hmodels hget_listed hget_meets
    have hsame : b1 = b' := by
      rw [call] at hget
      obtain ⟨found, -, heq⟩ := Option.map_eq_some_iff.mp hget
      exact (congrArg Prod.snd heq).symm
    rw [hget, hsame]

/-- A record before another one, which is then deleted.
Source: __rec_put. Kind: C -/
theorem run_list_before : ∃ b b', recOpen 512 0 = some b ∧
    run [.put .zero 1 [65], .put .rIbefore 1 [66], .delete 2, .get 1] b =
      some ([⟨.success, none⟩, ⟨.success, none⟩, ⟨.success, none⟩, ⟨.success, some [66]⟩], b') ∧
    b'.nrecs.toNat = 1 := by
  obtain ⟨b, hopen⟩ : ∃ b, recOpen 512 0 = some b := ⟨_, rfl⟩
  have hroom : ∀ (b : Recno) (nrec : BitVec 32) (x : UInt8), b.tree.psize = 512 → b.tree.ovflsize = 232 →
      (∀ e t, recSearch .search nrec b.tree = some (e, t) →
        recLayout.used (.leaf (b.tree.pages e.pgno).body.items) < 400) →
      RoomFor b nrec [x] fun index xs => (index, xs) := by
    intro b nrec x hps hov hused e t hres _ hno
    have hlt := hused e t hres
    rw [hps, hov] at hno
    have hbytes : recBytes 232 [x] = 8 := by
      rw [recBytes, length_singleton, if_neg (by decide)]
      rfl
    rw [hbytes, btdataoff, indxSize] at hno
    omega
  have hlisted : ∀ req ∈ [Req.put .zero 1 [65], .put .rIbefore 1 [66], .delete 2, .get 1],
      req.Listed := by
    intro req hreq
    simp only [mem_cons, not_mem_nil, or_false] at hreq
    rcases hreq with rfl | rfl | rfl | rfl <;> simp [Req.Listed]
  obtain ⟨b', hrun, hnrecs, -⟩ := run_list hopen hlisted
    (by
      obtain rfl := Option.some.inj hopen
      refine ⟨⟨by decide, by decide, fun _ => ?_⟩, fun reply b1 hcall => ?_⟩
      · refine hroom _ _ _ rfl rfl fun e t hres => ?_
        cases hres
        decide
      · cases hcall
        refine ⟨⟨by decide, by decide, fun _ => ?_⟩, fun reply b2 hcall => ⟨trivial, fun _ _ _ =>
          ⟨trivial, fun _ _ _ => trivial⟩⟩⟩
        refine hroom _ _ _ rfl rfl fun e t hres => ?_
        cases hres
        decide)
  exact ⟨b, b', hopen, hrun, hnrecs⟩

theorem not_answers_of_isNone {reqs : List Req} (h : ((recOpen 512 0).bind (run reqs)).isNone = true) :
    ∃ b, recOpen 512 0 = some b ∧ ¬∃ b', run reqs b = some ((listRun reqs []).1, b') := by
  obtain ⟨b, hopen⟩ : ∃ b, recOpen 512 0 = some b := ⟨_, rfl⟩
  refine ⟨b, hopen, fun ⟨b', hrun⟩ => ?_⟩
  rw [hopen, Option.bind_some, hrun] at h
  exact absurd h (by simp)

/-- `R_IAFTER` with the number 1 in an empty database leaves an offset that nothing is written to; and when
the 30 empty records that a put of the record 31 has skipped are on the only page, the record is put on the
left page with them, where it is written over their offsets.
Source: __rec_put; bt_psplit. Kind: C -/
theorem not_run_list :
    ((Req.put .rIafter 1 [65]).Listed ∧ ∃ b, recOpen 512 0 = some b ∧
      ¬∃ b', run [.put .rIafter 1 [65]] b = some ((listRun [.put .rIafter 1 [65]] []).1, b')) ∧
    (Req.put .zero 31 (List.replicate 227 65)).Listed ∧ ∃ b, recOpen 512 0 = some b ∧
      ¬∃ b', run [.put .zero 31 (List.replicate 227 65)] b =
        some ((listRun [.put .zero 31 (List.replicate 227 65)] []).1, b') := by
  have hfirst : ((recOpen 512 0).bind (run [.put .rIafter 1 [65]])).isNone = true := by
    decide +kernel
  have hlarge : ((recOpen 512 0).bind (run [.put .zero 31 (replicate 227 65)])).isNone = true := by
    decide +kernel
  exact ⟨⟨by simp [Req.Listed], not_answers_of_isNone hfirst⟩, by simp [Req.Listed],
    not_answers_of_isNone hlarge⟩

end Bsd386.Db.Recno
