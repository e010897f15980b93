import Mathlib.Data.Nat.Notation

/-!
# Sleep locks

The locks of `sys/vm/kern_lock.c` as one thread uses them that finds them free: `mine` says that the field
`thread` is this thread, which makes the lock recursive. A `none` is a wait for ever, on oneself, or the
panic of `lock_set_recursive` and `lock_clear_recursive`. The interlock and the wakeups are left out.
-/

namespace Bsd386.Vm

/-- Source: lock.h, struct lock -/
structure Lock where
  wantWrite : Bool
  wantUpgrade : Bool
  readCount : ℕ
  recursionDepth : ℕ
  mine : Bool
deriving DecidableEq

namespace Lock

/-- Source: lock_init -/
def free : Lock where
  wantWrite := false
  wantUpgrade := false
  readCount := 0
  recursionDepth := 0
  mine := false

/-- Source: lock_write -/
def write (l : Lock) : Option Lock :=
  if l.mine then some { l with recursionDepth := l.recursionDepth + 1 }
  else if l.wantWrite then none
  else if l.readCount ≠ 0 ∨ l.wantUpgrade = true then none
  else some { l with wantWrite := true }

/-- Source: lock_done -/
def done (l : Lock) : Lock :=
  if l.readCount ≠ 0 then { l with readCount := l.readCount - 1 }
  else if l.recursionDepth ≠ 0 then { l with recursionDepth := l.recursionDepth - 1 }
  else if l.wantUpgrade then { l with wantUpgrade := false }
  else { l with wantWrite := false }

/-- Source: lock_write_to_read -/
def writeToRead (l : Lock) : Lock :=
  if l.recursionDepth ≠ 0 then
    { l with readCount := l.readCount + 1, recursionDepth := l.recursionDepth - 1 }
  else if l.wantUpgrade then { l with readCount := l.readCount + 1, wantUpgrade := false }
  else { l with readCount := l.readCount + 1, wantWrite := false }

/-- Source: lock_set_recursive -/
def setRecursive (l : Lock) : Option Lock := if l.wantWrite then some { l with mine := true } else none

/-- Source: lock_clear_recursive -/
def clearRecursive (l : Lock) : Option Lock :=
  if l.mine then some { l with mine := decide (l.recursionDepth ≠ 0) } else none

/-- A free lock that has been taken. Source: lock_write -/
def taken : Lock := { free with wantWrite := true }

@[simp] theorem write_free : free.write = some taken := rfl

end Lock

end Bsd386.Vm
