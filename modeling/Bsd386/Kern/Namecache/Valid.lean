import Bsd386.Kern.Namecache.Basic

/-!
# What the entries of the name cache are believed for

`record (d, n)` is what the latest `cache_enter` for the name `n` in the directory `d` recorded, `none`
when there is none or it has been purged since. `Valid` says of the entries on the hash chains that one
whose capability numbers are those of its vnodes records just that.
-/

namespace Bsd386.Kern.Namecache

open Lib.Bytes
open Function (update update_of_ne update_self)

/-- What the calls have recorded, for each directory and name.
Source: cache_enter -/
abbrev Record := Vnode × List Byte → Option (Option Vnode)

/-- What is left of the record. Source: cache_purge -/
def Record.keep (record : Record) (P : Vnode → Option Vnode → Bool) : Record := fun p =>
  (record p).filter (P p.1)

/-- The entries `on` the chains, the numbers of the vnodes, what is recorded, and the names whose latest
call was a lookup that returned 0. -/
structure Valid (ncp : Entry → Ncp) (vId : Vnode → BitVec 32) (on : Entry → Prop) (record : Record)
    (asked : Vnode × List Byte → Bool) : Prop where
  /-- an entry whose numbers are those of its vnodes is what is recorded. -/
  current : ∀ e, on e → ∀ d, (ncp e).ncDvp = some d → (ncp e).ncDvpid = vId d →
    (∀ v, (ncp e).ncVp = some v → (ncp e).ncVpid = vId v) →
    record (d, (ncp e).ncName) = some (ncp e).ncVp
  /-- a name of a directory has one entry with the number of the directory. -/
  unique : ∀ e, on e → ∀ e', on e' → ∀ d, (ncp e).ncDvp = some d → (ncp e').ncDvp = some d →
    (ncp e).ncDvpid = vId d → (ncp e').ncDvpid = vId d → (ncp e).ncName = (ncp e').ncName → e = e'
  /-- and none when it has just not been found. -/
  absent : ∀ d n, asked (d, n) = true → ∀ e, on e → (ncp e).ncDvp = some d → (ncp e).ncName = n →
    (ncp e).ncDvpid ≠ vId d
  /-- a vnode without a number was entered without one. -/
  zeroDvp : ∀ e, on e → ∀ d, (ncp e).ncDvp = some d → vId d = 0 → (ncp e).ncDvpid = 0
  zeroVp : ∀ e, on e → ∀ v, (ncp e).ncVp = some v → vId v = 0 → (ncp e).ncVpid = 0

namespace Valid

variable {ncp ncp' : Entry → Ncp} {vId vId' : Vnode → BitVec 32} {on on' : Entry → Prop}
  {record : Record} {asked : Vnode × List Byte → Bool} {d vp : Vnode} {n : List Byte} {e : Entry}

theorem mono (h : Valid ncp vId on record asked) (hon : ∀ e, on' e → on e)
    (hncp : ∀ e, on' e → ncp' e = ncp e) : Valid ncp' vId on' record asked where
  current := by
    intro e he
    rw [hncp e he]
    exact h.current e (hon e he)
  unique := by
    intro e he e' he'
    rw [hncp e he, hncp e' he']
    exact h.unique e (hon e he) e' (hon e' he')
  absent := by
    intro d n hask e he
    rw [hncp e he]
    exact h.absent d n hask e (hon e he)
  zeroDvp := by
    intro e he
    rw [hncp e he]
    exact h.zeroDvp e (hon e he)
  zeroVp := by
    intro e he
    rw [hncp e he]
    exact h.zeroVp e (hon e he)

theorem of_empty (hon : ∀ e, ¬ on e) : Valid ncp vId on record asked where
  current := fun e he => absurd he (hon e)
  unique := fun e he => absurd he (hon e)
  absent := fun _ _ _ e he => absurd he (hon e)
  zeroDvp := fun e he => absurd he (hon e)
  zeroVp := fun e he => absurd he (hon e)

section

variable (h : Valid ncp vId on record asked)
include h

theorem ask (hnone : ∀ e, on e → (ncp e).ncDvp = some d → (ncp e).ncName = n → (ncp e).ncDvpid ≠ vId d) :
    Valid ncp vId on record (Function.update asked (d, n) true) := by
  refine ⟨h.current, h.unique, fun d' n' hask e he hd hn => ?_, h.zeroDvp, h.zeroVp⟩
  by_cases heq : (d', n') = (d, n)
  · obtain ⟨rfl, rfl⟩ := Prod.mk.inj heq
    exact hnone e he hd hn
  · rw [update_of_ne heq] at hask
    exact h.absent d' n' hask e he hd hn

theorem answer (p : Vnode × List Byte) :
    Valid ncp vId on record (Function.update asked p false) := by
  refine ⟨h.current, h.unique, fun d n hask => h.absent d n ?_, h.zeroDvp, h.zeroVp⟩
  by_cases heq : (d, n) = p
  · rw [heq, update_self] at hask
    exact absurd hask Bool.false_ne_true
  · rwa [update_of_ne heq] at hask

theorem forget {P : Vnode → Option Vnode → Bool}
    (hP : ∀ e, on e → ∀ d, (ncp e).ncDvp = some d → P d (ncp e).ncVp = true) :
    Valid ncp vId on (record.keep P) asked := by
  refine ⟨fun e he d hd hid hv => ?_, h.unique, h.absent, h.zeroDvp, h.zeroVp⟩
  rw [Record.keep, h.current e he d hd hid hv, Option.filter_some, if_pos (hP e he d hd)]

theorem enter {new : Ncp} (hask : asked (d, n) = true) (hon : ∀ x, on' x → x = e ∨ on x)
    (hd : new.ncDvp = some d) (hname : new.ncName = n) (hdvpid : new.ncDvpid = vId d)
    (hvpid : ∀ v, new.ncVp = some v → new.ncVpid = vId v) :
    Valid (Function.update ncp e new) vId on' (Function.update record (d, n) (some new.ncVp))
      (Function.update asked (d, n) false) := by
  have hself : update ncp e new e = new := update_self ..
  -- an old entry for the name does not have the number of the directory
  have hold : ∀ x, x ≠ e → on' x → on x ∧ update ncp e new x = ncp x := by
    intro x hx hon'
    exact ⟨(hon x hon').resolve_left hx, update_of_ne hx ..⟩
  have hno : ∀ x, x ≠ e → on' x → (ncp x).ncDvp = some d → (ncp x).ncDvpid = vId d →
      (ncp x).ncName ≠ n := fun x hx hon' hxd hxid hxn =>
    h.absent d n hask x (hold x hx hon').1 hxd hxn hxid
  refine ⟨?_, ?_, ?_, ?_, ?_⟩
  · intro x hx d' hd' hid hv
    by_cases hxe : x = e
    · subst hxe
      rw [hself] at hd' ⊢
      obtain rfl := Option.some.inj (hd.symm.trans hd')
      rw [hname, update_self]
    obtain ⟨hxon, hxeq⟩ := hold x hxe hx
    rw [hxeq] at hd' hid hv ⊢
    rw [update_of_ne]
    · exact h.current x hxon d' hd' hid hv
    · intro heq
      obtain ⟨rfl, hn⟩ := Prod.mk.inj heq
      exact hno x hxe hx hd' hid hn
  · intro x hx y hy d' hxd hyd hxid hyid hn
    by_cases hxe : x = e <;> by_cases hye : y = e
    · exact hxe.trans hye.symm
    · subst hxe
      rw [hself] at hxd hn
      rw [(hold y hye hy).2] at hyd hyid hn
      obtain rfl := Option.some.inj (hd.symm.trans hxd)
      exact absurd (hn.symm.trans hname) (hno y hye hy hyd hyid)
    · subst hye
      rw [hself] at hyd hn
      rw [(hold x hxe hx).2] at hxd hxid hn
      obtain rfl := Option.some.inj (hd.symm.trans hyd)
      exact absurd (hn.trans hname) (hno x hxe hx hxd hxid)
    · obtain ⟨hxon, hxeq⟩ := hold x hxe hx
      obtain ⟨hyon, hyeq⟩ := hold y hye hy
      rw [hxeq] at hxd hxid hn
      rw [hyeq] at hyd hyid hn
      exact h.unique x hxon y hyon d' hxd hyd hxid hyid hn
  · intro d' n' hask' x hx hxd hxn
    have hne : (d', n') ≠ (d, n) := by
      intro heq
      rw [heq, update_self] at hask'
      exact absurd hask' Bool.false_ne_true
    rw [update_of_ne hne] at hask'
    by_cases hxe : x = e
    · subst hxe
      rw [hself] at hxd hxn
      obtain rfl := Option.some.inj (hd.symm.trans hxd)
      exact absurd (by rw [← hxn, hname]) hne
    · obtain ⟨hxon, hxeq⟩ := hold x hxe hx
      rw [hxeq] at hxd hxn ⊢
      exact h.absent d' n' hask' x hxon hxd hxn
  · intro x hx d' hd' hzero
    by_cases hxe : x = e
    · subst hxe
      rw [hself] at hd' ⊢
      obtain rfl := Option.some.inj (hd.symm.trans hd')
      exact hdvpid.trans hzero
    · obtain ⟨hxon, hxeq⟩ := hold x hxe hx
      rw [hxeq] at hd' ⊢
      exact h.zeroDvp x hxon d' hd' hzero
  · intro x hx v hv hzero
    by_cases hxe : x = e
    · subst hxe
      rw [hself] at hv ⊢
      exact (hvpid v hv).trans hzero
    · obtain ⟨hxon, hxeq⟩ := hold x hxe hx
      rw [hxeq] at hv ⊢
      exact h.zeroVp x hxon v hv hzero

end

/-- What is left when a vnode is purged: the names of other directories, for other vnodes.
Source: cache_purge -/
def apartFrom (vp d : Vnode) (r : Option Vnode) : Bool := d != vp && r != some vp

theorem purge (h : Valid ncp vId on record asked)
    (hsame : ∀ e, on e → (ncp' e).ncDvp = (ncp e).ncDvp ∧ (ncp' e).ncVp = (ncp e).ncVp ∧
      (ncp' e).ncName = (ncp e).ncName)
    (hdvp : ∀ e, on e → ∀ d, (ncp e).ncDvp = some d → (ncp' e).ncDvpid = vId' d →
      d ≠ vp ∧ (ncp e).ncDvpid = vId d)
    (hvp : ∀ e, on e → ∀ v, (ncp e).ncVp = some v → (ncp' e).ncVpid = vId' v →
      v ≠ vp ∧ (ncp e).ncVpid = vId v)
    (hzd : ∀ e, on e → ∀ d, (ncp e).ncDvp = some d → vId' d = 0 → (ncp' e).ncDvpid = 0)
    (hzv : ∀ e, on e → ∀ v, (ncp e).ncVp = some v → vId' v = 0 → (ncp' e).ncVpid = 0) :
    Valid ncp' vId' on (record.keep (apartFrom vp)) asked := by
  refine ⟨?_, ?_, ?_, ?_, ?_⟩
  · intro e he d hd hid hv
    obtain ⟨hd', hv', hn'⟩ := hsame e he
    rw [hd'] at hd
    rw [hv'] at hv
    obtain ⟨hne, hold⟩ := hdvp e he d hd hid
    have hcur := h.current e he d hd hold fun v hev => (hvp e he v hev (hv v hev)).2
    have hother : (ncp e).ncVp ≠ some vp := fun heq => (hvp e he vp heq (hv vp heq)).1 rfl
    rw [hn', hv', Record.keep, hcur, Option.filter_some, if_pos]
    rw [apartFrom, bne_iff_ne.mpr hne, bne_iff_ne.mpr hother, Bool.and_self]
  · intro e he e' he' d hd hd' hid hid' hn
    obtain ⟨hs, -, hsn⟩ := hsame e he
    obtain ⟨hs', -, hsn'⟩ := hsame e' he'
    rw [hs] at hd
    rw [hs'] at hd'
    rw [hsn, hsn'] at hn
    exact h.unique e he e' he' d hd hd' (hdvp e he d hd hid).2 (hdvp e' he' d hd' hid').2 hn
  · intro d n hask e he hd hn hid
    obtain ⟨hs, -, hsn⟩ := hsame e he
    rw [hs] at hd
    rw [hsn] at hn
    exact h.absent d n hask e he hd hn (hdvp e he d hd hid).2
  · intro e he d hd hzero
    rw [(hsame e he).1] at hd
    exact hzd e he d hd hzero
  · intro e he v hv hzero
    rw [(hsame e he).2.1] at hv
    exact hzv e he v hv hzero

theorem renumber (h : Valid ncp vId on record asked) {id : BitVec 32} (hid : id ≠ 0)
    (hdvp : ∀ e, on e → (ncp e).ncDvp = some vp → (ncp e).ncDvpid ≠ id)
    (hvp : ∀ e, on e → (ncp e).ncVp = some vp → (ncp e).ncVpid ≠ id) :
    Valid ncp (Function.update vId vp id) on (record.keep (apartFrom vp)) asked := by
  refine h.purge (fun _ _ => ⟨rfl, rfl, rfl⟩) ?_ ?_ ?_ ?_
  · intro e he d hd hcur
    by_cases hdv : d = vp
    · subst hdv
      rw [update_self] at hcur
      exact absurd hcur (hdvp e he hd)
    · rw [update_of_ne hdv] at hcur
      exact ⟨hdv, hcur⟩
  · intro e he v hv hcur
    by_cases hdv : v = vp
    · subst hdv
      rw [update_self] at hcur
      exact absurd hcur (hvp e he hv)
    · rw [update_of_ne hdv] at hcur
      exact ⟨hdv, hcur⟩
  · intro e he d hd hzero
    by_cases hdv : d = vp
    · subst hdv
      rw [update_self] at hzero
      exact absurd hzero hid
    · rw [update_of_ne hdv] at hzero
      exact h.zeroDvp e he d hd hzero
  · intro e he v hv hzero
    by_cases hdv : v = vp
    · subst hdv
      rw [update_self] at hzero
      exact absurd hzero hid
    · rw [update_of_ne hdv] at hzero
      exact h.zeroVp e he v hv hzero

/-- **The numbers start again**: those in the entries are cleared, and only a vnode that never had a number
matches them. -/
theorem wrap (h : Valid ncp vId on record asked) {id : BitVec 32} (hid : id ≠ 0)
    (hclear : ∀ e, on e → ncp' e = { ncp e with ncVpid := 0, ncDvpid := 0 }) :
    Valid ncp' (Function.update vId vp id) on (record.keep (apartFrom vp)) asked := by
  have hzero : ∀ v, 0 = update vId vp id v → v ≠ vp ∧ vId v = 0 := by
    intro v hv
    by_cases hne : v = vp
    · subst hne
      rw [update_self] at hv
      exact absurd hv.symm hid
    · rw [update_of_ne hne] at hv
      exact ⟨hne, hv.symm⟩
  refine h.purge (fun e he => ?_) ?_ ?_ ?_ ?_
  · rw [hclear e he]
    exact ⟨rfl, rfl, rfl⟩
  · intro e he d hd hcur
    rw [hclear e he] at hcur
    obtain ⟨hne, hd0⟩ := hzero d hcur
    exact ⟨hne, (h.zeroDvp e he d hd hd0).trans hd0.symm⟩
  · intro e he v hv hcur
    rw [hclear e he] at hcur
    obtain ⟨hne, hv0⟩ := hzero v hcur
    exact ⟨hne, (h.zeroVp e he v hv hv0).trans hv0.symm⟩
  · intro e he d _ _
    rw [hclear e he]
  · intro e he v _ _
    rw [hclear e he]

end Valid

end Bsd386.Kern.Namecache
