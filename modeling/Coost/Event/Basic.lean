import Coost.Basic

/-!
# The model of `event_impl` and `wait_group`

`co::event` and `co::wait_group` are handles on an `event_impl` (`src/src/co/co.cc`).  Under its
mutex `_m` it keeps the latch `_signaled`, the list `_wc` of the `waitx_t` records of waiting
coroutines, the count `_wt` of waiting threads and the serial `_sn` of `signal` calls that woke
threads; `_wg` is the counter of a wait group.  A waiting coroutine publishes a `waitx_t`
(`make_waitx(co)`: the coroutine and the state `st_wait`) and yields; a waiting thread blocks on
the condition variable `_cv`.

The model is one `EventImpl` record with the scheduler state the event touches: the `waitx` field
of each coroutine, the records on the heap, and the ready mailbox that `add_ready_task` posts
to.  Each critical section under `_m` is one step.  The steps of the environment are these:

* `expire c`: the scheduler's `check_timeout` finds the timer of coroutine `c` due.  Without a
  waitx the coroutine is resumed with `timeout()` true; otherwise the exchange `wait → timeout`
  decides, and only a win resumes it.
* `resume c`: the scheduler resumes `c` from its mailbox, with `timeout()` false.
* `wake t` and `timeout t`: `_cv.wait` or `_cv.wait_for` of thread `t` returns.  The condition
  variable is modelled by its contract: any wait may return at any time, as on `notify_all` or
  spuriously, and a timed wait may report a timeout at any time, whether or not a notification
  raced with its deadline.
* `signalOutside x`: the loop of `signal` after the lock is released, on one waitx of the list
  it took from `_wc`.

`wait_group::done` decrements `_wg` and, on reaching zero, calls `signal`; the model takes both
in one step.

`SyncEventImpl` is `sync_event_impl`, the thread-only event: the same latch, `_wt` and `_sn`,
with no coroutine waiters.
-/

namespace Coost.Event

/-- A `waitx_t` record of `event_impl`: the waiting coroutine and its atomic state. -/
structure Waitx where
  co : Nat
  state : WaitState
  deriving DecidableEq, Repr

/-- Changing a record's state keeps the coroutine of every record. -/
@[simp] theorem update_state_co (w : Nat → Waitx) (x : Nat) (st : WaitState) (y : Nat) :
    (Function.update w x { w x with state := st } y).co = (w y).co := by
  by_cases h : y = x
  · subst h; simp
  · simp [h]

/-- Where a party is with respect to one event. -/
inductive Phase
  /-- Not inside `wait`. -/
  | idle
  /-- A coroutine suspended in `wait`; `timer` while the timer it armed is pending. -/
  | coWait (timer : Bool)
  /-- A thread blocked on `_cv` in `wait`, with the serial `sn` it read on entry; `timed` for
  `wait_for`, with a deadline. -/
  | threadWait (sn : Nat) (timed : Bool)
  /-- `wait` returned `r`. -/
  | returned (r : Bool)
  deriving DecidableEq, Repr

/-- One `event_impl`, with the scheduler state it touches and the phases of the parties. -/
structure EventImpl where
  /-- `_manual_reset`. -/
  manualReset : Bool
  /-- `_signaled`. -/
  signaled : Bool
  /-- `_wc`, front first: waitx records by address. -/
  wc : List Nat
  /-- `_wt`. -/
  wt : Nat
  /-- `_sn`, a `uint32_t`. -/
  sn : Nat
  /-- `_wg`, a `uint32_t`. -/
  wg : Nat
  /-- The waitx records on the heap, by address. -/
  waitx : Nat → Waitx
  /-- The next address `make_waitx` returns. -/
  next : Nat
  /-- `co->waitx` of each coroutine. -/
  coWaitx : Nat → Option Nat
  /-- The coroutines that `add_ready_task` posted and the scheduler has not resumed yet. -/
  mailbox : List Nat
  /-- Waitx records that `signal` took from `_wc` and still has to handle after the lock. -/
  outside : List Nat
  /-- The parties' control state. -/
  phase : Party → Phase

/-- `event_impl(m, s, wg)`. -/
def EventImpl.make (m s : Bool) (wg : Nat) : EventImpl where
  manualReset := m
  signaled := s
  wc := []
  wt := 0
  sn := 0
  wg := wg
  waitx := fun _ => ⟨0, .wait⟩
  next := 0
  coWaitx := fun _ => none
  mailbox := []
  outside := []
  phase := fun _ => .idle

/-- The `while (!_wc.empty())` loop of the coroutine branch of `wait`: pop the timed-out records
at the front of `_wc`.  The first popped is kept for reuse, the others are freed. -/
def popTimedOut (waitx : Nat → Waitx) : List Nat → Option Nat × List Nat
  | [] => (none, [])
  | w :: ws => if (waitx w).state = .timeout then (some w, (popTimedOut waitx ws).2) else (none, w :: ws)

/-- The fast path shared by both branches of `wait`: a set `_signaled` is consumed (unless the
event is manual-reset) and `wait` returns `true`. -/
def takeSignal (e : EventImpl) (p : Party) : EventImpl :=
  { e with signaled := e.manualReset, phase := Function.update e.phase p (.returned true) }

/-- `event_impl::wait(ms)` from coroutine `c`, up to its `yield`.  A timed-out record at the
front of `_wc` is reused with only its `state` reset to `st_wait`; otherwise `make_waitx(co)`
allocates one for `c`. -/
def waitCo (e : EventImpl) (c : Nat) (ms : Nat) : EventImpl :=
  if e.signaled then takeSignal e (.co c)
  else if ms = 0 then { e with phase := Function.update e.phase (.co c) (.returned false) }
  else
    let (x, wc) := popTimedOut e.waitx e.wc
    let (x, waitx, next) := match x with
      | some x => (x, Function.update e.waitx x { e.waitx x with state := .wait }, e.next)
      | none => (e.next, Function.update e.waitx e.next ⟨c, .wait⟩, e.next + 1)
    { e with wc := wc ++ [x], waitx := waitx, next := next,
             coWaitx := Function.update e.coWaitx c (some x),
             phase := Function.update e.phase (.co c) (.coWait (ms ≠ msInfinite)) }

/-- `event_impl::wait(ms)` from thread `t`, up to its `_cv.wait` or `_cv.wait_for`. -/
def waitThread (e : EventImpl) (t : Nat) (ms : Nat) : EventImpl :=
  if e.signaled then takeSignal e (.thread t)
  else if ms = 0 then { e with phase := Function.update e.phase (.thread t) (.returned false) }
  else { e with wt := e.wt + 1,
                phase := Function.update e.phase (.thread t) (.threadWait e.sn (ms ≠ msInfinite)) }

/-- `event_impl::wait(ms)`. -/
def wait (e : EventImpl) : Party → Nat → EventImpl
  | .co c, ms => waitCo e c ms
  | .thread t, ms => waitThread e t ms

/-- `_cv.wait(g)` or `_cv.wait_for(g, ms)` of thread `t` returns without a timeout: `wait`
returns `true`. -/
def wake (e : EventImpl) (t : Nat) : EventImpl :=
  { e with phase := Function.update e.phase (.thread t) (.returned true) }

/-- `_cv.wait_for` of thread `t` reports a timeout: unless `_sn` moved since the thread read it,
`_wt` is decremented; `wait` returns `false`. -/
def timeout (e : EventImpl) (t : Nat) (sn : Nat) : EventImpl :=
  { e with wt := if sn = e.sn then e.wt - 1 else e.wt,
           phase := Function.update e.phase (.thread t) (.returned false) }

/-- The `do ... while (h)` loop of `signal` under the lock: exchange `wait → ready` down the list
until one wins, freeing the records that lost.  It returns the heap, the coroutine of the winner,
and the records after it. -/
def signalFirst (waitx : Nat → Waitx) : List Nat → (Nat → Waitx) × Option Nat × List Nat
  | [] => (waitx, none, [])
  | w :: ws =>
    if (waitx w).state = .wait then
      (Function.update waitx w { waitx w with state := .ready }, some (waitx w).co, ws)
    else signalFirst waitx ws

/-- `event_impl::signal()`, the critical section.  Waiting threads are released by clearing
`_wt`, bumping `_sn` and `notify_all`; then the whole of `_wc` is taken.  Without waiting
threads the first record whose exchange wins is woken under the lock; every other record is left
for the loop after the lock (`outside`).  `_signaled` is set only when nobody was woken. -/
def signal (e : EventImpl) : EventImpl :=
  let hasWt := decide (0 < e.wt)
  let (waitx, woken, rest) := if hasWt then (e.waitx, none, e.wc) else signalFirst e.waitx e.wc
  let hasWc := woken.isSome
  { e with wt := if hasWt then 0 else e.wt,
           sn := if hasWt then (e.sn + 1) % 2 ^ 32 else e.sn,
           wc := [],
           waitx := waitx,
           mailbox := e.mailbox ++ woken.toList,
           outside := e.outside ++ rest,
           signaled := if hasWt || hasWc then e.signaled && e.manualReset else true }

/-- The loop of `signal` after the lock, on record `x`: the exchange `wait → ready` wakes its
coroutine, a lost exchange frees it. -/
def signalOutside (e : EventImpl) (x : Nat) : EventImpl :=
  if (e.waitx x).state = .wait then
    { e with outside := e.outside.erase x,
             waitx := Function.update e.waitx x { e.waitx x with state := .ready },
             mailbox := e.mailbox ++ [(e.waitx x).co] }
  else { e with outside := e.outside.erase x }

/-- `TimerManager::check_timeout` finds the timer of coroutine `c` due.  With no waitx the
coroutine resumes with `timeout()` true; otherwise only a won exchange `wait → timeout` resumes
it.  Resumed with `timeout()` true, `wait` clears `co->waitx` and returns `false`, leaving the
record in `_wc`. -/
def expire (e : EventImpl) (c : Nat) : EventImpl :=
  match e.coWaitx c with
  | none => { e with phase := Function.update e.phase (.co c) (.returned false) }
  | some x =>
    if (e.waitx x).state = .wait then
      { e with waitx := Function.update e.waitx x { e.waitx x with state := .timeout },
               coWaitx := Function.update e.coWaitx c none,
               phase := Function.update e.phase (.co c) (.returned false) }
    else { e with phase := Function.update e.phase (.co c) (.coWait false) }

/-- The scheduler resumes coroutine `c` from its mailbox (removing its timer first).  A
coroutine suspended in `wait` sees `timeout()` false, frees its record, clears `co->waitx` and
returns `true`.  A coroutine that is not waiting on this event is resumed wherever it is. -/
def resume (e : EventImpl) (c : Nat) : EventImpl :=
  match e.phase (.co c) with
  | .coWait _ => { e with mailbox := e.mailbox.erase c,
                          coWaitx := Function.update e.coWaitx c none,
                          phase := Function.update e.phase (.co c) (.returned true) }
  | _ => { e with mailbox := e.mailbox.erase c }

/-- `event_impl::reset()`. -/
def reset (e : EventImpl) : EventImpl := { e with signaled := false }

/-- `wait_group::add(n)`: `_wg.fetch_add(n)` on a `uint32_t`. -/
def add (e : EventImpl) (n : Nat) : EventImpl := { e with wg := (e.wg + n) % 2 ^ 32 }

/-- `wait_group::done()`: `--_wg`, `CHECK(x != (uint32_t)-1)`, and `signal()` when the counter
reaches zero.  A failed `CHECK` aborts the program (`none`). -/
def done (e : EventImpl) : Option EventImpl :=
  let x := (e.wg + (2 ^ 32 - 1)) % 2 ^ 32
  if x = 2 ^ 32 - 1 then none
  else
    let e := { e with wg := x }
    some (if x = 0 then signal e else e)

/-- One step of a party or of the environment. -/
inductive Action
  | wait (p : Party) (ms : Nat)
  | wake (t : Nat)
  | timeout (t : Nat)
  | signal
  | signalOutside (x : Nat)
  | expire (c : Nat)
  | resume (c : Nat)
  | reset
  | add (n : Nat)
  | done
  deriving DecidableEq, Repr

/-- The party may call `wait`: it is not already inside it. -/
def Phase.isFree : Phase → Bool
  | .idle | .returned _ => true
  | _ => false

/-- A step, with its preconditions: a party calls `wait` only when it is not already waiting,
a thread's wait returns only while it waits (and reports a timeout only for `wait_for`), a timer
expires only while it is armed, and the loop after `signal`'s lock handles only the records it
took. -/
def step (e : EventImpl) : Action → Option EventImpl
  | .wait p ms => if (e.phase p).isFree then some (wait e p ms) else none
  | .wake t => match e.phase (.thread t) with
    | .threadWait _ _ => some (wake e t)
    | _ => none
  | .timeout t => match e.phase (.thread t) with
    | .threadWait sn true => some (timeout e t sn)
    | _ => none
  | .signal => some (signal e)
  | .signalOutside x => if x ∈ e.outside then some (signalOutside e x) else none
  | .expire c => if e.phase (.co c) = .coWait true then some (expire e c) else none
  | .resume c => if c ∈ e.mailbox then some (resume e c) else none
  | .reset => some (reset e)
  | .add n => some (add e n)
  | .done => done e

/-- An interleaving of steps; `none` if some step is not enabled or the program aborts. -/
def run (e : EventImpl) : List Action → Option EventImpl
  | [] => some e
  | a :: as => (step e a).bind fun e' => run e' as

@[simp] theorem run_nil (e : EventImpl) : run e [] = some e := rfl

theorem run_cons (e : EventImpl) (a : Action) (as : List Action) :
    run e (a :: as) = (step e a).bind fun e' => run e' as := rfl

/-! ## `sync_event_impl` -/

/-- One `sync_event_impl` with the phases of the threads that use it. -/
structure SyncEventImpl where
  /-- `_manual_reset`. -/
  manualReset : Bool
  /-- `_signaled`. -/
  signaled : Bool
  /-- `_wt`. -/
  wt : Nat
  /-- `_sn`, a `uint32_t`. -/
  sn : Nat
  /-- The threads' control state. -/
  phase : Nat → Phase

/-- `sync_event_impl(m, s)`. -/
def SyncEventImpl.make (m s : Bool) : SyncEventImpl := ⟨m, s, 0, 0, fun _ => .idle⟩

namespace SyncEventImpl

/-- The fast path of both `wait`s: a set `_signaled` is consumed unless the event is
manual-reset. -/
def takeSignal (e : SyncEventImpl) (t : Nat) : SyncEventImpl :=
  { e with signaled := e.manualReset, phase := Function.update e.phase t (.returned true) }

/-- `sync_event_impl::wait()`, up to its `_cv.wait(g)`; it returns `void`, recorded as `true`. -/
def wait (e : SyncEventImpl) (t : Nat) : SyncEventImpl :=
  if e.signaled then e.takeSignal t
  else { e with wt := e.wt + 1, phase := Function.update e.phase t (.threadWait e.sn false) }

/-- `sync_event_impl::wait(ms)`, up to its `_cv.wait_for`. -/
def waitFor (e : SyncEventImpl) (t : Nat) (ms : Nat) : SyncEventImpl :=
  if e.signaled then e.takeSignal t
  else if ms = 0 then { e with phase := Function.update e.phase t (.returned false) }
  else { e with wt := e.wt + 1, phase := Function.update e.phase t (.threadWait e.sn true) }

/-- The condition variable wait of thread `t` returns without a timeout. -/
def wake (e : SyncEventImpl) (t : Nat) : SyncEventImpl :=
  { e with phase := Function.update e.phase t (.returned true) }

/-- `_cv.wait_for` of thread `t` reports a timeout. -/
def timeout (e : SyncEventImpl) (t : Nat) (sn : Nat) : SyncEventImpl :=
  { e with wt := if sn = e.sn then e.wt - 1 else e.wt,
           phase := Function.update e.phase t (.returned false) }

/-- `sync_event_impl::signal()`. -/
def signal (e : SyncEventImpl) : SyncEventImpl :=
  if 0 < e.wt then { e with wt := 0, signaled := e.signaled && e.manualReset,
                            sn := (e.sn + 1) % 2 ^ 32 }
  else { e with signaled := true }

/-- `sync_event_impl::reset()`. -/
def reset (e : SyncEventImpl) : SyncEventImpl := { e with signaled := false }

/-- One step of a thread. -/
inductive Action
  | wait (t : Nat)
  | waitFor (t : Nat) (ms : Nat)
  | wake (t : Nat)
  | timeout (t : Nat)
  | signal
  | reset
  deriving DecidableEq, Repr

/-- A step, with the preconditions of `Event.step`. -/
def step (e : SyncEventImpl) : Action → Option SyncEventImpl
  | .wait t => if (e.phase t).isFree then some (e.wait t) else none
  | .waitFor t ms => if (e.phase t).isFree then some (e.waitFor t ms) else none
  | .wake t => match e.phase t with
    | .threadWait _ _ => some (e.wake t)
    | _ => none
  | .timeout t => match e.phase t with
    | .threadWait sn true => some (e.timeout t sn)
    | _ => none
  | .signal => some e.signal
  | .reset => some e.reset

/-- An interleaving of steps. -/
def run (e : SyncEventImpl) : List Action → Option SyncEventImpl
  | [] => some e
  | a :: as => (e.step a).bind fun e' => run e' as

end SyncEventImpl

end Coost.Event
