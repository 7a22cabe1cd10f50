import Mathlib.Logic.Function.Basic
import Mathlib.Algebra.Group.Int

/-!
# Parties and waiter states

The synchronization primitives of `src/src/co/co.cc` are called by two kinds of parties: a
coroutine, which `gSched` is set for and which is identified by its `Coroutine*`, and an OS
thread, for which `gSched` is null.  `Party` is the pair of cases, with a natural number standing
for the coroutine pointer or the thread.

A blocking operation of a coroutine publishes a `waitx` record whose `state` moves from
`st_wait` to `st_ready` (the party that completes the operation won) or to `st_timeout` (the
timer won), always by `compare_exchange_strong` from `st_wait`.  `WaitState` and `casWait` model
that field and that exchange.  The enumeration itself is declared in `sched.h`, which is not
part of the sources; its three values are the ones the spec names.
-/

namespace Coost

/-- The caller of a primitive: a coroutine (`gSched` is set, `co` is the running coroutine) or
an OS thread (`gSched` is null). -/
inductive Party
  | co (id : Nat)
  | thread (id : Nat)
  deriving DecidableEq, Repr

/-- `st_wait`, `st_ready` and `st_timeout`, the values of a waiter's atomic `state`. -/
inductive WaitState
  | wait
  | ready
  | timeout
  deriving DecidableEq, Repr

/-- `state.compare_exchange_strong(expected = st_wait, desired)`: the new state and whether the
exchange won. -/
def casWait (s desired : WaitState) : WaitState × Bool :=
  if s = .wait then (desired, true) else (s, false)

@[simp] theorem casWait_wait (desired : WaitState) : casWait .wait desired = (desired, true) := rfl

theorem casWait_of_ne {s : WaitState} (h : s ≠ .wait) (desired : WaitState) :
    casWait s desired = (s, false) := if_neg h

/-- `(uint32_t)-1`, the `ms` of a wait without timeout. -/
def msInfinite : Nat := 4294967295

/-- An exchange wins exactly when the state was `st_wait`. -/
@[simp] theorem casWait_snd (s desired : WaitState) : (casWait s desired).2 = decide (s = .wait) := by
  unfold casWait; split <;> simp_all

/-! ## `uint32_t` -/

theorem uint32_eq_of_toNat {a b : UInt32} (h : a.toNat = b.toNat) : a = b :=
  UInt32.eq_of_toBitVec_eq (BitVec.eq_of_toNat_eq h)

theorem uint32_toNat_ofNat {m : Nat} (h : m < 2 ^ 32) : (UInt32.ofNat m).toNat = m :=
  UInt32.toNat_ofNat_of_lt h

/-- `+ 1` below `2^32 - 1` does not wrap. -/
theorem uint32_toNat_add_one {r : UInt32} (h : r.toNat + 1 < 2 ^ 32) :
    (r + 1).toNat = r.toNat + 1 := by
  show (r.toBitVec + (1 : UInt32).toBitVec).toNat = r.toBitVec.toNat + 1
  rw [BitVec.toNat_add]
  exact Nat.mod_eq_of_lt h

/-- `- 1` on a positive value does not wrap. -/
theorem uint32_toNat_sub_one {r : UInt32} (h : 0 < r.toNat) : (r - 1).toNat = r.toNat - 1 :=
  UInt32.toNat_sub_of_le r 1 h

end Coost
