import Coost.Basic

/-!
# The model of `pipe_impl`

A pipe (`src/src/co/co.cc`) is a ring buffer of `_buf_size` bytes holding elements of
`_blk_size` bytes, read at `_rx` and written at `_wx`; `_full` tells a full ring from an empty
one when `_rx == _wx`.  A reader that finds the ring empty, or a writer that finds it full,
publishes a `waitx` on the queue `_wq` and blocks.  The other side serves it: a writer that
finds the ring empty hands its element to the first waiting reader, and a reader that empties a
full ring moves the first waiting writer's element into it.  A waiter whose timer fired first
is a tombstone in the queue: the exchange `wait → ready` loses on it, and it is freed.
`close()` wakes the readers of an empty pipe with `done = 2`.

Every operation holds `_m` for its whole critical section, so each one is a single step here:

* `PipeImpl.read`, `PipeImpl.write`: one call up to its return or its enqueue.
* `PipeImpl.closeEnd`: the part of `close()` after its exchange `_closed: 0 → 1` won.
* The returns from a block: `resumeCo` for a coroutine, resumed as a ready task or by its
  timer; `wakeThread` and `timeoutThread` for a thread whose `_cv.wait_for` returned.

A step also yields the events it performs (`Event`): the element it commits to the channel or
receives from it, and the returns with their `g_done`.  These are the observations the
properties of the channel speak of; they do not change the state.

Elements are of any type `α` (the code copies a block with the user's `_c`); the bytes of the
ring are kept by the byte offset of their block.  A waiter's element is its `buf`.
-/

namespace Coost.Pipe

open Function

/-- A `pipe_impl::waitx`: the state of its exchange, `x.done` (0 pending, 1 served, 2 channel
closed), and the element in `buf`. -/
structure Waitx (α : Type) where
  state : WaitState
  done : Nat
  val : α

/-- Where a party is: not in a pipe call, or blocked in `read` or `write` on a waitx. -/
inductive Phase
  | idle
  | reading (w : Nat)
  | writing (w : Nat)
  deriving DecidableEq, Repr

/-- The steps of the parties. -/
inductive Action (α : Type)
  /-- A party calls `read`. -/
  | read (q : Party)
  /-- A party calls `write` with an element. -/
  | write (q : Party) (x : α)
  /-- `close()` runs its exchange `_closed: 0 → 1`. -/
  | closeBegin
  /-- `close()`, having won that exchange, runs its critical section. -/
  | closeEnd
  /-- The timer of blocked coroutine `c` fires: `check_timeout` tries `wait → timeout`. -/
  | expire (c : Nat)
  /-- Blocked coroutine `c` is resumed. -/
  | resume (c : Nat)
  /-- The `_cv.wait` of blocked thread `t` returns with no timeout, notified or spuriously. -/
  | wake (t : Nat)
  /-- The `_cv.wait_for` of blocked thread `t` reports a timeout. -/
  | timeout (t : Nat)

/-- What a step does to the channel and what it returns. -/
inductive Event (α : Type)
  /-- An element enters the channel: appended to the ring, or handed to a waiting reader. -/
  | commit (x : α)
  /-- A reader takes an element: from the ring, or by a hand-off. -/
  | receive (x : α)
  /-- `read` returns with `g_done = ok`, and its element when `ok`. -/
  | readDone (q : Party) (ok : Bool) (x : Option α)
  /-- `write` of `x` returns with `g_done = ok`. -/
  | writeDone (q : Party) (ok : Bool) (x : α)
  deriving DecidableEq, Repr

/-- The constants of a pipe, set by its constructor. -/
structure PipeConf where
  /-- `_buf_size`. -/
  bufSize : Nat
  /-- `_blk_size`. -/
  blkSize : Nat
  /-- `_ms`. -/
  ms : Nat

/-- The fields of `pipe_impl` that `read`, `write` and `close` change. -/
structure PipeImpl (α : Type) where
  /-- `_buf`: the element of the block at each byte offset. -/
  buf : Nat → α
  /-- `_rx`. -/
  rx : Nat
  /-- `_wx`. -/
  wx : Nat
  /-- `_full`. -/
  full : Bool
  /-- `_closed`. -/
  closed : Nat
  /-- `_wq`, by waitx identity. -/
  wq : List Nat
  /-- The waitx records. -/
  waitx : Nat → Waitx α
  /-- The identity of the next waitx `create_waitx` allocates. -/
  next : Nat
  /-- Where each party is. -/
  phase : Party → Phase

variable {α : Type}

/-- A new pipe: `_rx = _wx = 0`, not full, not closed, no waiter; the bytes of `malloc`. -/
def PipeImpl.make [Inhabited α] : PipeImpl α :=
  ⟨fun _ => default, 0, 0, false, 0, [], fun _ => ⟨.wait, 0, default⟩, 0, fun _ => .idle⟩

/-- `_ms == (uint32_t)-1`: no timeout. -/
def PipeConf.inf (cf : PipeConf) : Bool := cf.ms = msInfinite

/-- `x += _blk_size; if (x == _buf_size) x = 0;` -/
def PipeConf.adv (cf : PipeConf) (x : Nat) : Nat :=
  if x + cf.blkSize = cf.bufSize then 0 else x + cf.blkSize

namespace PipeImpl

/-- `_write_block(p)`: the element goes to the block at `_wx`, which advances. -/
def writeBlock (s : PipeImpl α) (cf : PipeConf) (x : α) : PipeImpl α :=
  { s with buf := update s.buf s.wx x, wx := cf.adv s.wx }

/-- `_read_block`'s move of `_rx`; the element is the block at `_rx`. -/
def readBlock (s : PipeImpl α) (cf : PipeConf) : PipeImpl α := { s with rx := cf.adv s.rx }

/-- `s` with the record of waitx `w` replaced. -/
def setWaitx (s : PipeImpl α) (w : Nat) (x : Waitx α) : PipeImpl α :=
  { s with waitx := update s.waitx w x }

/-- `s` with party `q` at `ph`. -/
def setPhase (s : PipeImpl α) (q : Party) (ph : Phase) : PipeImpl α :=
  { s with phase := update s.phase q ph }

/-- `create_waitx` and `_wq.push_back(w)`: a new pending waitx holding `x` at the back of the
queue, and the party blocked on it. -/
def enqueue (s : PipeImpl α) (q : Party) (x : α) (ph : Nat → Phase) : PipeImpl α :=
  { s with wq := s.wq ++ [s.next], waitx := update s.waitx s.next ⟨.wait, 0, x⟩,
           next := s.next + 1, phase := update s.phase q (ph s.next) }

end PipeImpl

/-- The `while (!_wq.empty())` loop of `read` and `write`: pop waiters until one is served,
that is, until the exchange `wait → ready` wins, or at once when `_ms` is `(uint32_t)-1`.  The
popped waiters that lost are timed out and freed.  The served waiter, if any, and what is left
of the queue. -/
def popLive (inf : Bool) (waitx : Nat → Waitx α) : List Nat → Option Nat × List Nat
  | [] => (none, [])
  | w :: ws => if inf || decide ((waitx w).state = .wait) then (some w, ws)
    else popLive inf waitx ws

/-- A served waiter: the exchange `wait → ready` (skipped when `_ms` is `(uint32_t)-1`),
`x.done = 1`, and the element in `buf`. -/
def served (inf : Bool) (w : Waitx α) (x : α) : Waitx α :=
  ⟨if inf then w.state else .ready, 1, x⟩

/-- The loop of `close()` over the readers of an empty pipe: each exchange `wait → ready` that
wins sets `x.done = 2`; the others are freed. -/
def closeAll (waitx : Nat → Waitx α) : List Nat → Nat → Waitx α
  | [] => waitx
  | w :: ws => closeAll (if (waitx w).state = .wait then update waitx w ⟨.ready, 2, (waitx w).val⟩
      else waitx) ws

namespace PipeImpl

/-- `pipe_impl::read` by party `q`, up to its return or its block. -/
def read [Inhabited α] (s : PipeImpl α) (cf : PipeConf) (q : Party) :
    PipeImpl α × List (Event α) :=
  if s.rx ≠ s.wx then
    (s.readBlock cf, [.receive (s.buf s.rx), .readDone q true (some (s.buf s.rx))])
  else if s.full then
    match popLive cf.inf s.waitx s.wq with
    | (some w, ws) =>
      ({ ((s.readBlock cf).writeBlock cf (s.waitx w).val) with
          wq := ws, waitx := update s.waitx w (served cf.inf (s.waitx w) (s.waitx w).val) },
        [.receive (s.buf s.rx), .commit (s.waitx w).val, .readDone q true (some (s.buf s.rx))])
    | (none, _) =>
      ({ s.readBlock cf with wq := [], full := false },
        [.receive (s.buf s.rx), .readDone q true (some (s.buf s.rx))])
  else if s.closed ≠ 0 then (s, [.readDone q false none])
  else (s.enqueue q default .reading, [])

/-- `pipe_impl::write` of `x` by party `q`, up to its return or its block. -/
def write (s : PipeImpl α) (cf : PipeConf) (q : Party) (x : α) : PipeImpl α × List (Event α) :=
  if s.closed ≠ 0 then (s, [.writeDone q false x])
  else if s.rx ≠ s.wx then
    ({ s.writeBlock cf x with full := s.full || decide (s.rx = cf.adv s.wx) },
      [.commit x, .writeDone q true x])
  else if !s.full then
    match popLive cf.inf s.waitx s.wq with
    | (some w, ws) =>
      ({ s with wq := ws, waitx := update s.waitx w (served cf.inf (s.waitx w) x) },
        [.commit x, .receive x, .writeDone q true x])
    | (none, _) =>
      ({ s.writeBlock cf x with wq := [], full := s.full || decide (s.rx = cf.adv s.wx) },
        [.commit x, .writeDone q true x])
  else (s.enqueue q x .writing, [])

/-- The critical section of `close()` after its exchange `0 → 1` won: an empty pipe wakes its
readers with `done = 2`; then `_closed = 2`. -/
def closeEnd (s : PipeImpl α) : PipeImpl α :=
  if s.rx = s.wx ∧ s.full = false then { s with wq := [], waitx := closeAll s.waitx s.wq, closed := 2 }
  else { s with closed := 2 }

/-- The return of a blocked read or write whose waitx is `w`, once `w` is served or closed
(`x.done ≠ 0`): a read returns its element when `done = 1` and fails when `done = 2`
(channel closed); a write succeeds. -/
def finish (s : PipeImpl α) (q : Party) (ph : Phase) (w : Nat) : PipeImpl α × List (Event α) :=
  (s.setPhase q .idle,
    match ph with
    | .writing _ => [.writeDone q true (s.waitx w).val]
    | _ => if (s.waitx w).done = 1 then [.readDone q true (some (s.waitx w).val)]
      else [.readDone q false none])

/-- The failing return of a blocked call whose exchange `wait → timeout` won. -/
def fail (s : PipeImpl α) (q : Party) (ph : Phase) (w : Nat) : PipeImpl α × List (Event α) :=
  (s.setPhase q .idle,
    match ph with
    | .writing _ => [.writeDone q false (s.waitx w).val]
    | _ => [.readDone q false none])

end PipeImpl

/-- The waitx a party is blocked on. -/
def Phase.waitx? : Phase → Option Nat
  | .idle => none
  | .reading w => some w
  | .writing w => some w

namespace PipeImpl

/-- Coroutine `c` returns from `sched->yield()`: with `sched->timeout()` when its timer's
exchange won, otherwise because a reader, a writer or `close()` served it and called
`add_ready_task`. -/
def resumeCo (s : PipeImpl α) (c : Nat) : Option (PipeImpl α × List (Event α)) :=
  match (s.phase (.co c)).waitx? with
  | none => none
  | some w =>
    if (s.waitx w).state = .timeout then some (s.fail (.co c) (s.phase (.co c)) w)
    else if (s.waitx w).done ≠ 0 then some (s.finish (.co c) (s.phase (.co c)) w)
    else none

/-- The `_cv.wait` of thread `t` returns with no timeout: it returns when `x.done` is set and
waits again otherwise. -/
def wakeThread (s : PipeImpl α) (t : Nat) : Option (PipeImpl α × List (Event α)) :=
  match (s.phase (.thread t)).waitx? with
  | none => none
  | some w => some (if (s.waitx w).done ≠ 0 then s.finish (.thread t) (s.phase (.thread t)) w
      else (s, []))

/-- The `_cv.wait_for` of thread `t` times out: the exchange `wait → timeout` fails the call
when it wins; otherwise the call was served and returns as from `wakeThread`. -/
def timeoutThread (s : PipeImpl α) (cf : PipeConf) (t : Nat) :
    Option (PipeImpl α × List (Event α)) :=
  match (s.phase (.thread t)).waitx? with
  | none => none
  | some w =>
    if cf.inf then none
    else if (s.waitx w).state = .wait then
      some ((s.setWaitx w { s.waitx w with state := .timeout }).fail (.thread t)
        (s.phase (.thread t)) w)
    else some (if (s.waitx w).done ≠ 0 then s.finish (.thread t) (s.phase (.thread t)) w
      else (s, []))

/-- The exchange `wait → timeout` of `check_timeout` on the waitx of blocked coroutine `c`,
when it wins; the coroutine is then resumed with `sched->timeout()`. -/
def expire (s : PipeImpl α) (cf : PipeConf) (c : Nat) : Option (PipeImpl α × List (Event α)) :=
  match (s.phase (.co c)).waitx? with
  | none => none
  | some w =>
    if !cf.inf && decide ((s.waitx w).state = .wait) then
      some (s.setWaitx w { s.waitx w with state := .timeout }, [])
    else none

end PipeImpl

/-- A step of a pipe with constants `cf`.  A party calls `read` or `write` only when it is not
blocked. -/
def step [Inhabited α] (cf : PipeConf) (s : PipeImpl α) :
    Action α → Option (PipeImpl α × List (Event α))
  | .read q => if s.phase q = .idle then some (s.read cf q) else none
  | .write q x => if s.phase q = .idle then some (s.write cf q x) else none
  | .closeBegin => some (if s.closed = 0 then ({ s with closed := 1 }, []) else (s, []))
  | .closeEnd => if s.closed = 1 then some (s.closeEnd, []) else none
  | .expire c => s.expire cf c
  | .resume c => s.resumeCo c
  | .wake t => s.wakeThread t
  | .timeout t => s.timeoutThread cf t

/-- An interleaving of steps and the events it performs. -/
def run [Inhabited α] (cf : PipeConf) (s : PipeImpl α) :
    List (Action α) → Option (PipeImpl α × List (Event α))
  | [] => some (s, [])
  | a :: as => (step cf s a).bind fun r => (run cf r.1 as).map fun r' => (r'.1, r.2 ++ r'.2)

end Coost.Pipe
