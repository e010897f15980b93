import Mathlib.Tactic.IntervalCases

/-!
# DOS times

`unix2dostime` and `dos2unixtime` (`sys/msdosfs/msdosfs_conv.c`), and the variables in which each keeps its
last conversion. Times are `u_long`s of 32 bits.

**Result** (`dostime_of_run`): in every run whose calls do not meet a stale variable (`Fresh`), each call
answers what it would answer alone, and the two conversions are inverse up to the odd second.
-/

namespace Bsd386.Msdosfs

open BitVec

/-! ## The conversions -/

/-- The bit fields of a date word. Source: union dosdate -/
structure DosDate where
  day : Fin 32
  month : Fin 16
  year : Fin 128
deriving DecidableEq

/-- The bit fields of a time word. Source: union dostime -/
structure DosTime where
  twoSeconds : Fin 32
  minutes : Fin 64
  hours : Fin 32
deriving DecidableEq

/-- Days of a year. Source: unix2dostime, dos2unixtime -/
def yearLen (year : ℕ) : ℕ := if year % 4 ≠ 0 then 365 else 366

/-- Days in each month. Source: regyear, leapyear -/
def months (year : ℕ) : List ℕ :=
  if year % 4 ≠ 0 then [31, 28, 31, 30, 31, 30, 31, 31, 30, 31, 30, 31]
  else [31, 29, 31, 30, 31, 30, 31, 31, 30, 31, 30, 31]

/-- The year, and the days into it. The first argument bounds the number of years.
Source: unix2dostime -/
def yearLoop : ℕ → ℕ → ℕ → ℕ × ℕ
  | 0, year, days => (year, days)
  | n + 1, year, days =>
    if days < yearLen year then (year, days) else yearLoop n (year + 1) (days - yearLen year)

/-- The month, and the days into it. Source: unix2dostime -/
def monthLoop : List ℕ → ℕ → ℕ → ℕ × ℕ
  | [], month, days => (month, days)
  | len :: lens, month, days =>
    if days < len then (month, days) else monthLoop lens (month + 1) (days - len)

/-- The date of a number of days since 1970. Source: unix2dostime -/
def dosDate (days : ℕ) : DosDate :=
  let (year, days) := yearLoop (days + 1) 1970 days
  let (month, days) := monthLoop (months year) 0 days
  ⟨Fin.ofNat 32 (days + 1), Fin.ofNat 16 (month + 1), Fin.ofNat 128 (if year < 1980 then 0 else year - 1980)⟩

/-- Source: unix2dostime -/
def dosTime (time : ℕ) : DosTime :=
  ⟨Fin.ofNat 32 (time % 60 / 2), Fin.ofNat 64 (time / 60 % 60), Fin.ofNat 32 (time / 3600 % 24)⟩

/-- The days of the years before. Source: dos2unixtime -/
def daysBefore : ℕ → ℕ
  | 0 => 0
  | yr + 1 => daysBefore yr + yearLen yr

/-- `SECONDSTO1980`. -/
def secondsTo1980 : BitVec 32 := BitVec.ofNat 32 ((8 * 365 + 2 * 366) * (24 * 60 * 60))

-- what lies behind the table of months, and `tz.tz_minuteswest`
variable (past : ℕ → ℕ) (tz : BitVec 32)

/-- The second at which a date begins. Source: dos2unixtime -/
def dateSeconds (d : DosDate) : BitVec 32 :=
  let month : ℕ := if d.month = 0 then 1 else d.month
  let before := ((List.range (month - 1)).map fun i => (months d.year).getD i (past i)).sum
  let days := BitVec.ofNat 32 (daysBefore d.year + before) + (BitVec.ofNat 32 d.day - 1)
  days * BitVec.ofNat 32 (24 * 60 * 60) + secondsTo1980

/-- Source: dos2unixtime -/
def timeSeconds (t : DosTime) : ℕ := t.twoSeconds * 2 + t.minutes * 60 + t.hours * (60 * 60)

/-! ## The calls -/

/-- What is remembered of the last conversions. -/
structure Conv where
  lasttime : BitVec 32
  lastday : ℕ
  lastddate : DosDate
  lastdtime : DosTime
  lastdosdate : DosDate
  lastseconds : BitVec 32

/-- Source: msdosfs_conv.c -/
def Conv.initial : Conv := ⟨0, 0, ⟨0, 0, 0⟩, ⟨0, 0, 0⟩, ⟨0, 0, 0⟩, 0⟩

/-- A time in GMT in local time. Source: unix2dostime -/
def localTime (tvSec : BitVec 32) : BitVec 32 := tvSec - tz * 60

/-- Source: unix2dostime -/
def unix2dostime (c : Conv) (tvSec : BitVec 32) : Conv :=
  if c.lasttime ≠ tvSec then
    let lasttime := localTime tz tvSec
    let days := lasttime.toNat / (24 * 60 * 60)
    let c := { c with lasttime := lasttime, lastdtime := dosTime lasttime.toNat }
    if days ≠ c.lastday then { c with lastday := days, lastddate := dosDate days } else c
  else c

/-- Source: dos2unixtime -/
def dos2unixtime (c : Conv) (dd : DosDate) : Conv :=
  if c.lastdosdate ≠ dd then { c with lastdosdate := dd, lastseconds := dateSeconds past dd } else c

/-- A month of 0 is changed in the word that the caller passes. Source: dos2unixtime -/
def repaired (dd : DosDate) : DosDate := if dd.month = 0 then { dd with month := 1 } else dd

/-- Source: msdosfs_conv.c -/
inductive Call where
  | unix2dostime (tvSec : BitVec 32)
  | dos2unixtime (dd : DosDate) (dt : DosTime)

/-- The words of a time, or the time of two words and the date word after the call. -/
inductive Answer where
  | words (dd : DosDate) (dt : DosTime)
  | time (tvSec : BitVec 32) (dd : DosDate)
deriving DecidableEq

def call (c : Conv) : Call → Answer × Conv
  | .unix2dostime tvSec =>
    let c := unix2dostime tz c tvSec
    (.words c.lastddate c.lastdtime, c)
  | .dos2unixtime dd dt =>
    let c' := dos2unixtime past c dd
    (.time (BitVec.ofNat 32 (timeSeconds dt) + c'.lastseconds + tz * 60)
      (if c.lastdosdate ≠ dd then repaired dd else dd), c')

/-- The answers of the calls of a run. -/
def run : Conv → List Call → List Answer
  | _, [] => []
  | c, op :: ops => (call past tz c op).1 :: run (call past tz c op).2 ops

/-! ## Runs -/

/-- The answer of a call alone. Source: none: what is claimed -/
def answer : Call → Answer
  | .unix2dostime tvSec =>
    .words (dosDate ((localTime tz tvSec).toNat / (24 * 60 * 60))) (dosTime (localTime tz tvSec).toNat)
  | .dos2unixtime dd dt =>
    .time (BitVec.ofNat 32 (timeSeconds dt) + dateSeconds past dd + tz * 60) (repaired dd)

/-- No stale variable is met: a time is not the local time of the last one, unless there is no time zone,
nor is it in 1970 before any date was saved; and a date word of month 0 is not the last one again. -/
def Fresh (c : Conv) : Call → Prop
  | .unix2dostime tvSec => (c.lasttime = tvSec → tz * 60 = 0) ∧
    ((localTime tz tvSec).toNat / (24 * 60 * 60) = c.lastday → c.lastddate.day ≠ 0)
  | .dos2unixtime dd _ => c.lastdosdate = dd → dd.month ≠ 0

/-- The calls of a run meet no stale variable. -/
def AllFresh : Conv → List Call → Prop
  | _, [] => True
  | c, op :: ops => Fresh tz c op ∧ AllFresh (call past tz c op).2 ops

/-- What the variables hold is the last conversion, except what they hold at first. -/
structure Saved (c : Conv) : Prop where
  lastday : c.lastday = c.lasttime.toNat / (24 * 60 * 60)
  lastdtime : c.lastdtime = dosTime c.lasttime.toNat
  lastddate : c.lastddate.day ≠ 0 → c.lastddate = dosDate c.lastday
  lastseconds : c.lastdosdate.month ≠ 0 → c.lastseconds = dateSeconds past c.lastdosdate

variable {past tz}

theorem Saved.call {c : Conv} (h : Saved past c) {op : Call} (hop : Fresh tz c op) :
    (call past tz c op).1 = answer past tz op ∧ Saved past (call past tz c op).2 := by
  cases op with
  | unix2dostime tvSec =>
    obtain ⟨hsame, hday⟩ := hop
    dsimp only [Msdosfs.call, answer, unix2dostime]
    by_cases htime : c.lasttime = tvSec
    · -- without a time zone the last time is the local one
      have hlocal : localTime tz tvSec = c.lasttime := by
        rw [localTime, hsame htime, htime]
        exact BitVec.sub_zero tvSec
      rw [hlocal, ← h.lastday] at hday ⊢
      rw [if_neg (not_not.mpr htime)]
      exact ⟨by rw [h.lastddate (hday rfl), h.lastdtime], h⟩
    · rw [if_pos htime]
      by_cases hlast : (localTime tz tvSec).toNat / (24 * 60 * 60) = c.lastday
      · rw [if_neg (not_not.mpr hlast), hlast]
        exact ⟨by rw [h.lastddate (hday hlast)], hlast.symm, rfl, h.lastddate, h.lastseconds⟩
      · rw [if_pos hlast]
        exact ⟨rfl, rfl, rfl, fun _ => rfl, h.lastseconds⟩
  | dos2unixtime dd dt =>
    dsimp only [Msdosfs.call, answer, dos2unixtime]
    by_cases hdate : c.lastdosdate = dd
    · have hmonth := hop hdate
      subst hdate
      rw [if_neg (not_not.mpr rfl), if_neg (not_not.mpr rfl), h.lastseconds hmonth, repaired, if_neg hmonth]
      exact ⟨rfl, h⟩
    · rw [if_pos hdate, if_pos hdate]
      exact ⟨rfl, h.lastday, h.lastdtime, h.lastddate, fun _ => rfl⟩

theorem Saved.run {c : Conv} (h : Saved past c) {ops : List Call} (hops : AllFresh past tz c ops) :
    run past tz c ops = ops.map (answer past tz) := by
  induction ops generalizing c with
  | nil => rfl
  | cons op ops ih =>
    obtain ⟨heq, hnext⟩ := h.call hops.1
    rw [Msdosfs.run, heq, ih hnext hops.2, List.map_cons]

/-! ## There and back -/

theorem daysBefore_eq (yr : ℕ) : daysBefore yr = 365 * yr + (yr + 3) / 4 := by
  induction yr with
  | zero => rfl
  | succ yr ih =>
    rw [daysBefore, ih, yearLen]
    split_ifs <;> omega

theorem yearLoop_spec {n year days y d : ℕ} (hn : days < n) (h : yearLoop n year days = (y, d)) :
    d < yearLen y ∧ days + daysBefore year = d + daysBefore y := by
  induction n generalizing year days with
  | zero => omega
  | succ n ih =>
    rw [yearLoop] at h
    split_ifs at h with hlt
    · cases h
      exact ⟨hlt, rfl⟩
    have hlen : 0 < yearLen year := by
      rw [yearLen]
      split_ifs <;> decide
    obtain ⟨hd, hsum⟩ := ih (by omega) h
    rw [daysBefore] at hsum
    exact ⟨hd, by omega⟩

theorem monthLoop_spec {y d : ℕ} (hd : d < yearLen y) :
    (monthLoop (months y) 0 d).1 < 12 ∧ (monthLoop (months y) 0 d).2 < 31 ∧
      ((months y).take (monthLoop (months y) 0 d).1).sum + (monthLoop (months y) 0 d).2 = d := by
  have hall : ∀ y < 4, ∀ d < yearLen y, (monthLoop (months y) 0 d).1 < 12 ∧
      (monthLoop (months y) 0 d).2 < 31 ∧
        ((months y).take (monthLoop (months y) 0 d).1).sum + (monthLoop (months y) 0 d).2 = d := by
    decide +kernel
  have hlen : yearLen y = yearLen (y % 4) := by rw [yearLen, yearLen, Nat.mod_mod]
  have hmonths : months y = months (y % 4) := by rw [months, months, Nat.mod_mod]
  rw [hmonths]
  exact hall _ (Nat.mod_lt _ (by decide)) d (hlen ▸ hd)

theorem sum_months {y m : ℕ} (hm : m < 12) :
    ((List.range m).map fun i => (months y).getD i (past i)).sum = ((months y).take m).sum := by
  rw [months]
  split_ifs <;> interval_cases m <;> rfl

theorem dosDate_spec {days : ℕ} (hlo : 3652 ≤ days) (hhi : days < 49711) : ∃ y m r,
    dosDate days = ⟨Fin.ofNat 32 (r + 1), Fin.ofNat 16 (m + 1), Fin.ofNat 128 y⟩ ∧ y < 128 ∧ m < 12 ∧
      r < 31 ∧ daysBefore y + ((months y).take m).sum + r + 3652 = days := by
  obtain ⟨y, d, hy⟩ : ∃ y d, yearLoop (days + 1) 1970 days = (y, d) := ⟨_, _, rfl⟩
  obtain ⟨hd, hsum⟩ := yearLoop_spec (Nat.lt_succ_self _) hy
  obtain ⟨m, r, hm⟩ : ∃ m r, monthLoop (months y) 0 d = (m, r) := ⟨_, _, rfl⟩
  obtain ⟨hmlt, hr, hmsum⟩ := monthLoop_spec hd
  rw [hm] at hmlt hr hmsum
  dsimp only at hmlt hr hmsum
  rw [daysBefore_eq, daysBefore_eq] at hsum
  have hyear : 1980 ≤ y ∧ y < 1980 + 128 := by
    rw [yearLen] at hd
    split_ifs at hd <;> omega
  have hmonths : months (y - 1980) = months y := by
    rw [months, months, show (y - 1980) % 4 = y % 4 by omega]
  refine ⟨y - 1980, m, r, ?_, by omega, hmlt, hr, ?_⟩
  · rw [dosDate, hy]
    dsimp only
    rw [hm, if_neg (by omega)]
  · rw [hmonths, daysBefore_eq]
    omega

theorem month_ne_zero {m : ℕ} (hm : m < 12) : Fin.ofNat 16 (m + 1) ≠ 0 := by
  intro h
  have hval := congrArg Fin.val h
  rw [Fin.val_ofNat, Nat.mod_eq_of_lt (by omega)] at hval
  exact Nat.succ_ne_zero m hval

theorem dateSeconds_dosDate {days : ℕ} (hlo : 3652 ≤ days) (hhi : days < 49711) :
    dateSeconds past (dosDate days) = BitVec.ofNat 32 (days * (24 * 60 * 60)) ∧
      repaired (dosDate days) = dosDate days := by
  obtain ⟨y, m, r, hdate, hy, hm, hr, hdays⟩ := dosDate_spec hlo hhi
  have hmonth := month_ne_zero hm
  have hday : BitVec.ofNat 32 (r + 1) - 1 = BitVec.ofNat 32 r := by
    rw [BitVec.ofNat_add]
    exact add_sub_cancel _ _
  rw [hdate]
  refine ⟨?_, if_neg hmonth⟩
  rw [dateSeconds]
  rw [if_neg hmonth, Fin.val_ofNat, Fin.val_ofNat, Fin.val_ofNat, Nat.mod_eq_of_lt (by omega : m + 1 < 16),
    Nat.mod_eq_of_lt (by omega : r + 1 < 32), Nat.mod_eq_of_lt hy, Nat.add_sub_cancel, sum_months hm, hday,
    secondsTo1980, ← BitVec.ofNat_add, ← BitVec.ofNat_mul, ← BitVec.ofNat_add, ← hdays]
  exact congrArg (BitVec.ofNat 32) (by omega)

theorem timeSeconds_dosTime (time : ℕ) :
    timeSeconds (dosTime time) + time / (24 * 60 * 60) * (24 * 60 * 60) = time - time % 2 := by
  rw [timeSeconds, dosTime]
  simp only [Fin.val_ofNat]
  omega

theorem localTime_mod (t : BitVec 32) : (localTime tz t).toNat % 2 = t.toNat % 2 := by
  have hmul : (tz * 60).toNat = tz.toNat * 60 % 2 ^ 32 := toNat_mul tz 60
  rw [localTime, toNat_sub, hmul]
  omega

/-- **DOS times.** In every time zone and every run of calls that meet no stale variable, each call answers
what it would alone; and from the words of a time from 1980 on, its even second comes back.
Source: unix2dostime, dos2unixtime. Kind: C -/
theorem dostime_of_run (past : ℕ → ℕ) (tz : BitVec 32) {ops : List Call}
    (hops : AllFresh past tz .initial ops) :
    run past tz .initial ops = ops.map (answer past tz) ∧
      ∀ t dd dt, 3652 * (24 * 60 * 60) ≤ (localTime tz t).toNat →
        answer past tz (.unix2dostime t) = .words dd dt →
          answer past tz (.dos2unixtime dd dt) = .time (t - BitVec.ofNat 32 (t.toNat % 2)) dd := by
  refine ⟨Saved.run ⟨rfl, rfl, fun h => absurd rfl h, fun h => absurd rfl h⟩ hops, fun t dd dt hlo hwords => ?_⟩
  obtain ⟨rfl, rfl⟩ := Answer.words.inj hwords
  have hmod := @localTime_mod tz t
  obtain ⟨hsec, hrep⟩ := @dateSeconds_dosDate past _
    (by omega : 3652 ≤ (localTime tz t).toNat / (24 * 60 * 60)) (by omega)
  rw [answer, hsec, hrep, ← ofNat_add, timeSeconds_dosTime]
  refine congrArg (Answer.time · _) (eq_of_toNat_eq ?_)
  rw [localTime, toNat_sub] at hmod ⊢
  rw [toNat_add, toNat_sub, toNat_ofNat, toNat_ofNat]
  omega

/-- One hour east: the words of a time, and the time that they give back. Kind: C -/
theorem dostime_of_run_east :
    run (fun _ => 0) (-60) .initial [.unix2dostime 1000000001, .dos2unixtime ⟨9, 9, 21⟩ ⟨20, 46, 2⟩] =
        [.unix2dostime 1000000001, .dos2unixtime ⟨9, 9, 21⟩ ⟨20, 46, 2⟩].map (answer (fun _ => 0) (-60)) ∧
      answer (fun _ => 0) (-60) (.dos2unixtime ⟨9, 9, 21⟩ ⟨20, 46, 2⟩) = .time 1000000000 ⟨9, 9, 21⟩ := by
  have hops : AllFresh (fun _ => 0) (-60) .initial
      [.unix2dostime 1000000001, .dos2unixtime ⟨9, 9, 21⟩ ⟨20, 46, 2⟩] :=
    ⟨⟨fun h => absurd h (by decide), fun h => absurd h (by decide)⟩, fun _ => by decide, trivial⟩
  obtain ⟨hrun, hback⟩ := dostime_of_run (fun _ => 0) (-60) hops
  exact ⟨hrun, hback 1000000001 ⟨9, 9, 21⟩ ⟨20, 46, 2⟩ (by decide) (by decide +kernel)⟩

/-- One hour east, a time one hour after another gets its words. Source: unix2dostime. Kind: C -/
theorem not_dostime_of_run : ¬ ∀ past tz ops, run past tz .initial ops = ops.map (answer past tz) := by
  intro h
  have hrun := h (fun _ => 0) (-60) [.unix2dostime 1000000000, .unix2dostime 1000003600]
  revert hrun
  decide +kernel

end Bsd386.Msdosfs
