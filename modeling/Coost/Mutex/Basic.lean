import Coost.Basic

/-!
# The model of `mutex_impl`

`co::mutex` is a handle on a `mutex_impl` (`src/src/co/co.cc`): an OS mutex `_m` that guards a
waiter queue `_wq` and a lock byte `_lock`, and a condition variable `_cv` that waiting threads
block on.  `_lock` is `0` while the mutex is free, `1` while it is held or handed to a coroutine,
and `2` after `unlock` has released it to a waiting thread that has not woken yet.

Every critical section under `_m` is one step here, so an interleaving of the parties is a list
of `Action`s.  A party's own control state, where it is inside `lock` and `unlock`, is its
`Phase`; it is not a field of `mutex_impl`, and the steps change it only where the code returns
or suspends.

* `tryLock`, `lock`, `unlock`: the three member functions, one step each.  `lock` has the two
  branches of the source, a coroutine that pushes itself and yields, and a thread that pushes
  `nullptr` and blocks on `_cv`.
* `wake`: one return of `_cv.wait(g)` in the thread branch of `lock`.  The condition variable may
  wake any waiting thread, on `notify_one` or spuriously, so the step is enabled for every thread
  that waits.
* `resume`: the scheduler resumes a coroutine that `unlock` put in its mailbox; `yield` returns
  and so does `lock`.

`step` adds the preconditions of the callers (a party calls in only when it is idle, and only
the holder unlocks) and `run` folds it over an interleaving.

The chunked queue type `mutex_impl::queue` is kept abstract as a list: `push_back` is `++ [x]`,
`pop_front` takes the head and `empty` is `= []`.
-/

namespace Coost

/-- The pointer a party pushes on `_wq` in `mutex_impl::lock`: its `Coroutine*`, or `nullptr`
for a thread. -/
def Party.entry : Party → Option Nat
  | .co c => some c
  | .thread _ => none

@[simp] theorem Party.entry_co (c : Nat) : (Party.co c).entry = some c := rfl
@[simp] theorem Party.entry_thread (t : Nat) : (Party.thread t).entry = none := rfl

end Coost

namespace Coost.Mutex

/-- Where a party is with respect to one mutex. -/
inductive Phase
  /-- Not inside `lock` or `unlock`, and not holding the mutex. -/
  | idle
  /-- Queued in `_wq`: a coroutine suspended in `yield`, or a thread blocked in `_cv.wait`. -/
  | waiting
  /-- A coroutine popped by `unlock` and put in its scheduler's mailbox. -/
  | ready
  /-- Returned from `lock`, or from `try_lock` with `true`. -/
  | holding
  deriving DecidableEq, Repr

/-- The state of one `mutex_impl` together with the phases of all parties. -/
structure MutexImpl where
  /-- `_wq`, front first. -/
  wq : List (Option Nat)
  /-- `_lock`. -/
  lock : Nat
  /-- The parties' control state. -/
  phase : Party → Phase

/-- `mutex_impl()`: `_lock(0)` and an empty queue; every party is idle. -/
def MutexImpl.init : MutexImpl := ⟨[], 0, fun _ => .idle⟩

/-- `mutex_impl::try_lock`: under `_m`, `_lock ? false : (_lock = 1)`. -/
def tryLock (m : MutexImpl) (p : Party) : MutexImpl :=
  if m.lock = 0 then { m with lock := 1, phase := Function.update m.phase p .holding } else m

/-- `mutex_impl::lock`, up to the point where the caller holds the mutex or waits.  A caller
that finds `_lock` nonzero pushes its entry and waits: a coroutine yields, a thread enters its
`_cv.wait` loop. -/
def lock (m : MutexImpl) (p : Party) : MutexImpl :=
  if m.lock = 0 then { m with lock := 1, phase := Function.update m.phase p .holding }
  else { m with wq := m.wq ++ [p.entry], phase := Function.update m.phase p .waiting }

/-- One turn of the `for (;;)` loop of a waiting thread in `lock`, after `_cv.wait(g)` returns:
with `_lock == 2` the thread sets `_lock = 1` and holds the mutex, otherwise it waits again. -/
def wake (m : MutexImpl) (t : Nat) : MutexImpl :=
  if m.lock = 2 then { m with lock := 1, phase := Function.update m.phase (.thread t) .holding }
  else m

/-- `mutex_impl::unlock` by the holder `p`.  With an empty queue `_lock` becomes `0`.  Otherwise
the head is popped: a coroutine goes to its scheduler's mailbox with `_lock` left at `1`, and for
`nullptr` `_lock` becomes `2` before `notify_one`. -/
def unlock (m : MutexImpl) (p : Party) : MutexImpl :=
  match m.wq with
  | [] => { m with lock := 0, phase := Function.update m.phase p .idle }
  | some c :: rest =>
    { m with wq := rest,
             phase := Function.update (Function.update m.phase p .idle) (.co c) .ready }
  | none :: rest => { m with wq := rest, lock := 2, phase := Function.update m.phase p .idle }

/-- The scheduler resumes coroutine `c` from its mailbox; `lock` returns. -/
def resume (m : MutexImpl) (c : Nat) : MutexImpl :=
  { m with phase := Function.update m.phase (.co c) .holding }

/-- One step of one party. -/
inductive Action
  | tryLock (p : Party)
  | lock (p : Party)
  | unlock (p : Party)
  | wake (t : Nat)
  | resume (c : Nat)
  deriving DecidableEq, Repr

/-- The party that takes the step. -/
def Action.party : Action → Party
  | .tryLock p | .lock p | .unlock p => p
  | .wake t => .thread t
  | .resume c => .co c

/-- A step, with the callers' preconditions: `try_lock` and `lock` are called by a party that is
not inside the mutex, `unlock` by the holder, a thread wakes only while it waits, and a coroutine
is resumed only from the mailbox. -/
def step (m : MutexImpl) : Action → Option MutexImpl
  | .tryLock p => if m.phase p = .idle then some (tryLock m p) else none
  | .lock p => if m.phase p = .idle then some (lock m p) else none
  | .unlock p => if m.phase p = .holding then some (unlock m p) else none
  | .wake t => if m.phase (.thread t) = .waiting then some (wake m t) else none
  | .resume c => if m.phase (.co c) = .ready then some (resume m c) else none

/-- An interleaving of steps; `none` if some step is not enabled. -/
def run (m : MutexImpl) : List Action → Option MutexImpl
  | [] => some m
  | a :: as => (step m a).bind fun m' => run m' as

@[simp] theorem run_nil (m : MutexImpl) : run m [] = some m := rfl

theorem run_cons (m : MutexImpl) (a : Action) (as : List Action) :
    run m (a :: as) = (step m a).bind fun m' => run m' as := rfl

/-- `step` either refuses or takes the named transition. -/
theorem step_cases {m m' : MutexImpl} {a : Action} (h : step m a = some m') :
    (∃ p, a = .tryLock p ∧ m.phase p = .idle ∧ m' = tryLock m p) ∨
    (∃ p, a = .lock p ∧ m.phase p = .idle ∧ m' = lock m p) ∨
    (∃ p, a = .unlock p ∧ m.phase p = .holding ∧ m' = unlock m p) ∨
    (∃ t, a = .wake t ∧ m.phase (.thread t) = .waiting ∧ m' = wake m t) ∨
    (∃ c, a = .resume c ∧ m.phase (.co c) = .ready ∧ m' = resume m c) := by
  cases a <;> simp only [step, Option.ite_none_right_eq_some, Option.some.injEq] at h <;>
    simp [h.1, h.2]

/-- A property that every step keeps holds after every run. -/
theorem run_preserves {P : MutexImpl → Prop}
    (hstep : ∀ m m' a, P m → step m a = some m' → P m') :
    ∀ (as : List Action) (m m' : MutexImpl), P m → run m as = some m' → P m'
  | [], m, m', hm, h => by simp only [run_nil, Option.some.injEq] at h; exact h ▸ hm
  | a :: as, m, m', hm, h => by
    rw [run_cons, Option.bind_eq_some] at h
    obtain ⟨m₁, h₁, h₂⟩ := h
    exact run_preserves hstep as m₁ m' (hstep m m₁ a hm h₁) h₂

end Coost.Mutex
