import Coost.Basic

/-!
# The model of a scheduler: `Sched::resume` and the timer manager

A scheduler (`src/src/co/sched.cc`) shares a few stack slots among its coroutines.  `resume(co)`
switches to a coroutine: it allocates the slot on first use, saves the live region of the slot's
previous owner into that coroutine's `buf`, copies `co`'s own `buf` back, and jumps.  When the
jump returns, the coroutine either yielded (its context is saved) or terminated (the slot is
freed and the coroutine recycled).  Before resuming a suspended coroutine, `resume` deletes its
timer.  `TimerManager::check_timeout` expires the due entries of the ordered timer map.

The model keeps what these functions read and write:

* `Stack`: `p` (allocated), the slot's bytes `mem` by offset from `s->p` (so `s->top` is
  `stackSize`), and the owner `co`.
* `Coroutine`: the saved stack pointer `ctx` as an offset in its slot (`none` for null), the
  saved bytes `buf`, the timer handle `it` (`none` for `_timer.end()`), and the state of the
  waitx it is suspended on (`none` for a null `waitx`).
* `TimerManager`: the map `_timer` as a list of entries in map order, each with its own identity
  standing for its iterator, the hint `_it`, and a counter that hands out identities.
* `now`: the value of the monotonic clock `now::ms()` that the scheduler read last.  `add_timer`
  and `check_timeout` read it, and a step never reads an earlier time than the one before.

`resume` is cut at the jump: `resumeIn` is everything before it, and `yieldOut` and `finishOut`
are the two ways the jump returns.  In between, the coroutine runs: `Action.write` overwrites any
bytes of its slot.  A coroutine arms its timer with `add_timer` right before it yields, so the
model takes the timer and the waitx as part of `yieldOut`.

`save_stack`, `add_timer`, `del_timer`, `recycle`, and the slot of a coroutine are in `sched.h`,
which is not part of the sources; they are modelled from the spec and marked so.
-/

namespace Coost.Scheduler

open Function

/-- The bytes `[lo, hi)` of a slot. -/
def slice (mem : Nat → UInt8) (lo hi : Nat) : List UInt8 :=
  (List.range (hi - lo)).map fun i => mem (lo + i)

/-- `memcpy(dst, src.data(), src.size())` into a slot. -/
def memcpy (mem : Nat → UInt8) (dst : Nat) (src : List UInt8) : Nat → UInt8 :=
  fun a => if dst ≤ a ∧ a < dst + src.length then src.getD (a - dst) 0 else mem a

@[simp] theorem slice_length (mem : Nat → UInt8) (lo hi : Nat) :
    (slice mem lo hi).length = hi - lo := by
  simp [slice]

/-- `Stack`, one shared stack slot. -/
structure Stack where
  /-- `s->p != 0`. -/
  p : Bool
  /-- The bytes of the slot by offset from `s->p`. -/
  mem : Nat → UInt8
  /-- `s->co`, `none` for null. -/
  co : Option Nat

/-- The fields of `Coroutine` that `resume` and the timer manager use. -/
structure Coroutine where
  /-- `co->ctx`, as an offset in the slot; `none` for null. -/
  ctx : Option Nat
  /-- `co->buf`. -/
  buf : List UInt8
  /-- `co->it`, the identity of its timer entry; `none` for `_timer.end()`. -/
  it : Option Nat
  /-- The state of `co->waitx`; `none` for a null `waitx`. -/
  waitx : Option WaitState

/-- An entry of `_timer`: its identity, its deadline in ms and its coroutine. -/
structure Entry where
  id : Nat
  deadline : Int
  co : Nat
  deriving DecidableEq, Repr

/-- `TimerManager`. -/
structure TimerManager where
  /-- `_timer`, in map order. -/
  timer : List Entry
  /-- `_it`, `none` for `_timer.end()`. -/
  it : Option Nat
  /-- The identity of the next entry. -/
  next : Nat

/-- One scheduler. -/
structure Sched where
  /-- `_stack_size`: the offset of `s->top`. -/
  stackSize : Nat
  /-- `_stack_num`. -/
  stackNum : Nat
  /-- `_stack`. -/
  stack : Nat → Stack
  /-- The coroutines of `_co_pool`, by id. -/
  cos : Nat → Coroutine
  /-- `_timer_mgr`. -/
  timerMgr : TimerManager
  /-- The coroutine between `resumeIn` and the return of its jump. -/
  running : Option Nat
  /-- The last value of the monotonic clock `now::ms()` that the scheduler read. -/
  now : Int

/-- `s` with slot `i` replaced. -/
def Sched.setStack (s : Sched) (i : Nat) (st : Stack) : Sched := { s with stack := update s.stack i st }

/-- `s` with coroutine `c` replaced. -/
def Sched.setCo (s : Sched) (c : Nat) (co : Coroutine) : Sched := { s with cos := update s.cos c co }

@[simp] theorem setStack_stack (s : Sched) (i : Nat) (st : Stack) (j : Nat) :
    (s.setStack i st).stack j = if j = i then st else s.stack j := by
  by_cases h : j = i
  · subst h; simp [Sched.setStack]
  · simp [Sched.setStack, h]

@[simp] theorem setCo_cos (s : Sched) (c : Nat) (co : Coroutine) (d : Nat) :
    (s.setCo c co).cos d = if d = c then co else s.cos d := by
  by_cases h : d = c
  · subst h; simp [Sched.setCo]
  · simp [Sched.setCo, h]

/-- `s` with `_running` replaced. -/
def Sched.setRunning (s : Sched) (r : Option Nat) : Sched := { s with running := r }

@[simp] theorem setRunning_stack (s : Sched) (r : Option Nat) : (s.setRunning r).stack = s.stack := rfl
@[simp] theorem setRunning_cos (s : Sched) (r : Option Nat) : (s.setRunning r).cos = s.cos := rfl
@[simp] theorem setRunning_stackSize (s : Sched) (r : Option Nat) :
    (s.setRunning r).stackSize = s.stackSize := rfl
@[simp] theorem setRunning_stackNum (s : Sched) (r : Option Nat) :
    (s.setRunning r).stackNum = s.stackNum := rfl
@[simp] theorem setRunning_timerMgr (s : Sched) (r : Option Nat) :
    (s.setRunning r).timerMgr = s.timerMgr := rfl
@[simp] theorem setRunning_running (s : Sched) (r : Option Nat) : (s.setRunning r).running = r := rfl

/-- `s` with `_timer_mgr` replaced. -/
def Sched.setTimerMgr (s : Sched) (m : TimerManager) : Sched := { s with timerMgr := m }

@[simp] theorem setTimerMgr_stack (s : Sched) (m : TimerManager) :
    (s.setTimerMgr m).stack = s.stack := rfl
@[simp] theorem setTimerMgr_cos (s : Sched) (m : TimerManager) : (s.setTimerMgr m).cos = s.cos := rfl
@[simp] theorem setTimerMgr_stackSize (s : Sched) (m : TimerManager) :
    (s.setTimerMgr m).stackSize = s.stackSize := rfl
@[simp] theorem setTimerMgr_stackNum (s : Sched) (m : TimerManager) :
    (s.setTimerMgr m).stackNum = s.stackNum := rfl
@[simp] theorem setTimerMgr_timerMgr (s : Sched) (m : TimerManager) :
    (s.setTimerMgr m).timerMgr = m := rfl
@[simp] theorem setTimerMgr_running (s : Sched) (m : TimerManager) :
    (s.setTimerMgr m).running = s.running := rfl

@[simp] theorem setRunning_now (s : Sched) (r : Option Nat) : (s.setRunning r).now = s.now := rfl
@[simp] theorem setTimerMgr_now (s : Sched) (m : TimerManager) : (s.setTimerMgr m).now = s.now := rfl
@[simp] theorem setStack_now (s : Sched) (i : Nat) (st : Stack) : (s.setStack i st).now = s.now := rfl
@[simp] theorem setCo_now (s : Sched) (c : Nat) (co : Coroutine) : (s.setCo c co).now = s.now := rfl

@[simp] theorem setStack_cos (s : Sched) (i : Nat) (st : Stack) : (s.setStack i st).cos = s.cos := rfl
@[simp] theorem setCo_stack (s : Sched) (c : Nat) (co : Coroutine) : (s.setCo c co).stack = s.stack := rfl
@[simp] theorem setStack_stackSize (s : Sched) (i : Nat) (st : Stack) :
    (s.setStack i st).stackSize = s.stackSize := rfl
@[simp] theorem setCo_stackSize (s : Sched) (c : Nat) (co : Coroutine) :
    (s.setCo c co).stackSize = s.stackSize := rfl
@[simp] theorem setStack_stackNum (s : Sched) (i : Nat) (st : Stack) :
    (s.setStack i st).stackNum = s.stackNum := rfl
@[simp] theorem setCo_stackNum (s : Sched) (c : Nat) (co : Coroutine) :
    (s.setCo c co).stackNum = s.stackNum := rfl
@[simp] theorem setStack_timerMgr (s : Sched) (i : Nat) (st : Stack) :
    (s.setStack i st).timerMgr = s.timerMgr := rfl
@[simp] theorem setCo_timerMgr (s : Sched) (c : Nat) (co : Coroutine) :
    (s.setCo c co).timerMgr = s.timerMgr := rfl
@[simp] theorem setStack_running (s : Sched) (i : Nat) (st : Stack) :
    (s.setStack i st).running = s.running := rfl
@[simp] theorem setCo_running (s : Sched) (c : Nat) (co : Coroutine) :
    (s.setCo c co).running = s.running := rfl

/-- A scheduler before its first `resume`: the slots are `calloc`ed, no coroutine has run, and
no timer is armed. -/
def Sched.init (stackSize stackNum : Nat) : Sched where
  stackSize := stackSize
  stackNum := stackNum
  stack := fun _ => ⟨false, fun _ => 0, none⟩
  cos := fun _ => ⟨none, [], none, none⟩
  timerMgr := ⟨[], none, 0⟩
  running := none
  now := 0

/-! ## The timer map -/

/-- The identity of the entry after entry `id`, in map order. -/
def nextId : List Entry → Nat → Option Nat
  | [], _ => none
  | e :: es, id => if e.id = id then es.head?.map (·.id) else nextId es id

/-- Insert an entry after all entries with a deadline not later than its own. -/
def insertEntry (e : Entry) : List Entry → List Entry
  | [] => [e]
  | x :: xs => if e.deadline < x.deadline then e :: x :: xs else x :: insertEntry e xs

/-- Modelled from the spec: `TimerManager::add_timer` (in `sched.h`) inserts an entry at the
deadline and returns its handle; ties keep insertion order, and the hint `_it` is set to the new
entry. -/
def TimerManager.addTimer (t : TimerManager) (deadline : Int) (c : Nat) : TimerManager :=
  ⟨insertEntry ⟨t.next, deadline, c⟩ t.timer, some t.next, t.next + 1⟩

/-- Modelled from the spec: `TimerManager::del_timer` (in `sched.h`) erases the entry and moves
the hint `_it` past it when it pointed there, so the next wakeup is computed from a live
entry. -/
def TimerManager.delTimer (t : TimerManager) (id : Nat) : TimerManager :=
  ⟨t.timer.filter (·.id ≠ id), if t.it = some id then nextId t.timer id else t.it, t.next⟩

/-- The `for` loop of `check_timeout` over the due entries, front first.  Each entry clears its
coroutine's handle (`if (co->it != _timer.end()) co->it = _timer.end()`), and the coroutine is
pushed on `res` when it has no waitx or when its exchange `wait → timeout` wins. -/
def expireDue (cos : Nat → Coroutine) : List Entry → (Nat → Coroutine) × List Nat
  | [] => (cos, [])
  | e :: es =>
    let fire : Bool := match (cos e.co).waitx with
      | none => true
      | some st => (casWait st .timeout).2
    let c := { cos e.co with it := none,
                             waitx := (cos e.co).waitx.map fun st => (casWait st .timeout).1 }
    let r := expireDue (update cos e.co c) es
    (r.1, if fire then e.co :: r.2 else r.2)

/-- `expireDue` changes handles and waitx states only. -/
theorem expireDue_cos (cos : Nat → Coroutine) (l : List Entry) (c : Nat) :
    ((expireDue cos l).1 c).ctx = (cos c).ctx ∧ ((expireDue cos l).1 c).buf = (cos c).buf := by
  induction l generalizing cos with
  | nil => exact ⟨rfl, rfl⟩
  | cons e es ih =>
    obtain ⟨h1, h2⟩ := ih (update cos e.co _)
    refine ⟨h1.trans ?_, h2.trans ?_⟩ <;>
    · by_cases hc : c = e.co
      · subst hc; simp
      · simp [hc]

/-- `expireDue` clears the handle of every coroutine with a due entry. -/
theorem expireDue_it (cos : Nat → Coroutine) (l : List Entry) (c : Nat) :
    ((expireDue cos l).1 c).it = if ∃ e ∈ l, e.co = c then none else (cos c).it := by
  induction l generalizing cos with
  | nil => simp [expireDue]
  | cons e es ih =>
    simp only [expireDue, ih, List.mem_cons, exists_eq_or_imp]
    by_cases hc : e.co = c
    · subst hc; simp
    · simp [hc, Ne.symm hc]

/-- `res` holds only coroutines with a due entry. -/
theorem mem_expireDue_res {cos : Nat → Coroutine} {l : List Entry} {c : Nat}
    (h : c ∈ (expireDue cos l).2) : ∃ e ∈ l, e.co = c := by
  induction l generalizing cos with
  | nil => simp [expireDue] at h
  | cons e es ih =>
    simp only [expireDue] at h
    split at h
    · rcases List.mem_cons.1 h with rfl | h
      · exact ⟨e, List.mem_cons_self _ _, rfl⟩
      · obtain ⟨e', he', rfl⟩ := ih h; exact ⟨e', List.mem_cons_of_mem _ he', rfl⟩
    · obtain ⟨e', he', rfl⟩ := ih h; exact ⟨e', List.mem_cons_of_mem _ he', rfl⟩

/-- The deadline of entry `id`, if it is in the map. -/
def deadlineOf (timer : List Entry) (id : Nat) : Option Int :=
  (timer.find? (·.id = id)).map (·.deadline)

/-- The hint after `check_timeout` erased the due prefix `due` of `timer`, leaving `rest`:
`if (_it != _timer.end() && _it->first <= now_ms) _it = it;`, where `it` is the first entry of
`rest`; nothing changes when nothing was due. -/
def hintAfter (timer : List Entry) (hint : Option Nat) (now : Int) (due rest : List Entry) :
    Option Nat :=
  if due = [] then hint
  else match hint with
    | some h => if (deadlineOf timer h).any (· ≤ now) then rest.head?.map (·.id) else some h
    | none => none

/-- The value `check_timeout` returns for the entries left: `(uint32_t)-1` for none, else
`(uint32_t)(_timer.begin()->first - now_ms)`. -/
def waitMs (now : Int) : List Entry → Nat
  | [] => 2 ^ 32 - 1
  | e :: _ => ((e.deadline - now) % 2 ^ 32).toNat

/-- `TimerManager::check_timeout(res)` at time `now`: the new scheduler, `res`, and the returned
wait in ms.  The loop visits the entries up to the first whose deadline is after `now`; those
are erased. -/
def Sched.checkTimeout (s : Sched) (now : Int) : Sched × List Nat × Nat :=
  if s.timerMgr.timer = [] then (s, [], 2 ^ 32 - 1)
  else
    let due := s.timerMgr.timer.takeWhile (·.deadline ≤ now)
    let rest := s.timerMgr.timer.dropWhile (·.deadline ≤ now)
    let r := expireDue s.cos due
    ({ s with cos := r.1,
              timerMgr := ⟨rest, hintAfter s.timerMgr.timer s.timerMgr.it now due rest,
                s.timerMgr.next⟩ },
      r.2, waitMs now rest)

/-! ## `Sched::resume` -/

/-- Modelled from the spec: a coroutine is assigned the slot `id mod stack_num` (in
`new_coroutine`, `sched.h`). -/
def Sched.slotOf (s : Sched) (c : Nat) : Nat := c % s.stackNum

@[simp] theorem slotOf_setStack (s : Sched) (i : Nat) (st : Stack) (c : Nat) :
    (s.setStack i st).slotOf c = s.slotOf c := rfl

@[simp] theorem slotOf_setRunning (s : Sched) (r : Option Nat) (c : Nat) :
    (s.setRunning r).slotOf c = s.slotOf c := rfl

@[simp] theorem slotOf_setCo (s : Sched) (d : Nat) (co : Coroutine) (c : Nat) :
    (s.setCo d co).slotOf c = s.slotOf c := rfl

/-- Modelled from the spec: `Sched::save_stack` (in `sched.h`) copies the live region
`[co->ctx, top)` of the coroutine's slot into `co->buf`; a null coroutine has nothing to save. -/
def Sched.saveStack (s : Sched) : Option Nat → Sched
  | none => s
  | some c => s.setCo c { s.cos c with
      buf := slice (s.stack (s.slotOf c)).mem ((s.cos c).ctx.getD s.stackSize) s.stackSize }

@[simp] theorem saveStack_none (s : Sched) : s.saveStack none = s := rfl
@[simp] theorem saveStack_stack (s : Sched) (o : Option Nat) : (s.saveStack o).stack = s.stack := by
  cases o <;> rfl
@[simp] theorem saveStack_running (s : Sched) (o : Option Nat) :
    (s.saveStack o).running = s.running := by cases o <;> rfl
@[simp] theorem saveStack_stackSize (s : Sched) (o : Option Nat) :
    (s.saveStack o).stackSize = s.stackSize := by cases o <;> rfl
@[simp] theorem saveStack_stackNum (s : Sched) (o : Option Nat) :
    (s.saveStack o).stackNum = s.stackNum := by cases o <;> rfl
@[simp] theorem saveStack_timerMgr (s : Sched) (o : Option Nat) :
    (s.saveStack o).timerMgr = s.timerMgr := by cases o <;> rfl
@[simp] theorem saveStack_now (s : Sched) (o : Option Nat) : (s.saveStack o).now = s.now := by
  cases o <;> rfl
@[simp] theorem slotOf_saveStack (s : Sched) (o : Option Nat) (c : Nat) :
    (s.saveStack o).slotOf c = s.slotOf c := by cases o <;> rfl

/-- `save_stack(d)` touches only `d`. -/
theorem saveStack_cos_of_ne (s : Sched) {o : Option Nat} {c : Nat} (h : o ≠ some c) :
    (s.saveStack o).cos c = s.cos c := by
  cases o with
  | none => rfl
  | some d => simp [Sched.saveStack, show c ≠ d from fun e => h (e ▸ rfl)]

/-- `save_stack(d)` fills `d->buf` from `[d->ctx, top)`. -/
theorem saveStack_buf (s : Sched) (d : Nat) :
    ((s.saveStack (some d)).cos d).buf =
      slice (s.stack (s.slotOf d)).mem ((s.cos d).ctx.getD s.stackSize) s.stackSize := by
  simp [Sched.saveStack]

theorem saveStack_ctx (s : Sched) (o : Option Nat) (c : Nat) :
    ((s.saveStack o).cos c).ctx = (s.cos c).ctx := by
  cases o with
  | none => rfl
  | some d => by_cases h : c = d <;> simp [Sched.saveStack, h]

theorem saveStack_it (s : Sched) (o : Option Nat) (c : Nat) :
    ((s.saveStack o).cos c).it = (s.cos c).it := by
  cases o with
  | none => rfl
  | some d => by_cases h : c = d <;> simp [Sched.saveStack, h]

/-- `if (s->p == 0)`: allocate the slot's memory (its bytes are whatever `malloc` returns) and
give the slot to `co`. -/
def Sched.initStack (s : Sched) (c : Nat) : Sched :=
  if (s.stack (s.slotOf c)).p then s
  else s.setStack (s.slotOf c) { s.stack (s.slotOf c) with p := true, co := some c }

theorem initStack_of_p (s : Sched) {c : Nat} (h : (s.stack (s.slotOf c)).p = true) :
    s.initStack c = s := if_pos h

@[simp] theorem initStack_cos (s : Sched) (c : Nat) : (s.initStack c).cos = s.cos := by
  unfold Sched.initStack; split <;> rfl
@[simp] theorem initStack_now (s : Sched) (c : Nat) : (s.initStack c).now = s.now := by
  unfold Sched.initStack; split <;> rfl

theorem saveStack_setRunning (s : Sched) (o r : Option Nat) :
    (s.setRunning r).saveStack o = (s.saveStack o).setRunning r := by
  cases o <;> rfl

/-- `if (s->co != co) { save_stack(s->co); s->co = co; }`, the branch of a new coroutine. -/
def Sched.takeSlot (s : Sched) (c : Nat) : Sched :=
  if (s.stack (s.slotOf c)).co = some c then s
  else
    let s' := s.saveStack (s.stack (s.slotOf c)).co
    s'.setStack (s.slotOf c) { s'.stack (s.slotOf c) with co := some c }

@[simp] theorem initStack_timerMgr (s : Sched) (c : Nat) : (s.initStack c).timerMgr = s.timerMgr := by
  unfold Sched.initStack; split <;> rfl

/-- Taking a slot moves bytes only. -/
theorem takeSlot_frame (s : Sched) (c : Nat) : (s.takeSlot c).timerMgr = s.timerMgr ∧
    (s.takeSlot c).running = s.running ∧ (s.takeSlot c).stackSize = s.stackSize ∧
    ∀ d, ((s.takeSlot c).cos d).ctx = (s.cos d).ctx ∧ ((s.takeSlot c).cos d).it = (s.cos d).it := by
  unfold Sched.takeSlot
  split
  · exact ⟨rfl, rfl, rfl, fun _ => ⟨rfl, rfl⟩⟩
  · exact ⟨by simp, by simp, by simp, fun d => ⟨by simp [saveStack_ctx], by simp [saveStack_it]⟩⟩

/-- `if (co->it != _timer.end()) { del_timer(co->it); co->it = _timer.end(); }` -/
def Sched.removeTimer (s : Sched) (c : Nat) : Sched :=
  match (s.cos c).it with
  | none => s
  | some id => (s.setCo c { s.cos c with it := none }).setTimerMgr (s.timerMgr.delTimer id)

@[simp] theorem removeTimer_stack (s : Sched) (c : Nat) : (s.removeTimer c).stack = s.stack := by
  unfold Sched.removeTimer; split <;> rfl
@[simp] theorem removeTimer_running (s : Sched) (c : Nat) :
    (s.removeTimer c).running = s.running := by unfold Sched.removeTimer; split <;> rfl
@[simp] theorem removeTimer_stackSize (s : Sched) (c : Nat) :
    (s.removeTimer c).stackSize = s.stackSize := by unfold Sched.removeTimer; split <;> rfl
@[simp] theorem removeTimer_stackNum (s : Sched) (c : Nat) :
    (s.removeTimer c).stackNum = s.stackNum := by unfold Sched.removeTimer; split <;> rfl
@[simp] theorem removeTimer_now (s : Sched) (c : Nat) : (s.removeTimer c).now = s.now := by
  unfold Sched.removeTimer; split <;> rfl
@[simp] theorem slotOf_removeTimer (s : Sched) (c d : Nat) :
    (s.removeTimer c).slotOf d = s.slotOf d := by unfold Sched.removeTimer; split <;> rfl

/-- `del_timer` changes the handle only. -/
theorem removeTimer_cos (s : Sched) (c d : Nat) :
    ((s.removeTimer c).cos d).ctx = (s.cos d).ctx ∧ ((s.removeTimer c).cos d).buf = (s.cos d).buf := by
  unfold Sched.removeTimer
  split
  · exact ⟨rfl, rfl⟩
  · by_cases h : d = c
    · subst h; simp
    · simp [h]

/-- `if (s->co != co) { save_stack(s->co); CHECK_EQ(s->top, co->ctx + co->buf.size());
memcpy(co->ctx, co->buf.data(), co->buf.size()); s->co = co; }` for a suspended coroutine whose
context is at offset `x`.  A failed `CHECK_EQ` aborts (`none`). -/
def Sched.loadStack (s : Sched) (c x : Nat) : Option Sched :=
  if (s.stack (s.slotOf c)).co = some c then some s
  else
    let s' := s.saveStack (s.stack (s.slotOf c)).co
    if s'.stackSize = x + (s'.cos c).buf.length then
      some (s'.setStack (s.slotOf c) { s'.stack (s.slotOf c) with
        mem := memcpy (s'.stack (s.slotOf c)).mem x (s'.cos c).buf, co := some c })
    else none

/-- Loading a stack moves bytes only. -/
theorem loadStack_frame {s s' : Sched} {c x : Nat} (h : s.loadStack c x = some s') :
    s'.timerMgr = s.timerMgr ∧ s'.running = s.running ∧
    ∀ d, (s'.cos d).ctx = (s.cos d).ctx ∧ (s'.cos d).it = (s.cos d).it := by
  unfold Sched.loadStack at h
  split at h
  · cases h; exact ⟨rfl, rfl, fun _ => ⟨rfl, rfl⟩⟩
  · dsimp only at h
    split at h
    · cases h; exact ⟨by simp, by simp, fun d => ⟨by simp [saveStack_ctx], by simp [saveStack_it]⟩⟩
    · cases h

theorem removeTimer_setRunning (s : Sched) (c : Nat) (r : Option Nat) :
    (s.setRunning r).removeTimer c = (s.removeTimer c).setRunning r := by
  simp only [Sched.removeTimer, setRunning_cos]
  split <;> rfl

/-- `resume` reads no clock. -/
theorem loadStack_now {s s' : Sched} {c x : Nat} (h : s.loadStack c x = some s') :
    s'.now = s.now := by
  unfold Sched.loadStack at h
  split at h
  · cases h; rfl
  · dsimp only at h
    split at h
    · cases h; simp
    · cases h

/-- `Sched::resume(co)` up to `tb_context_jump`.  A new coroutine (`ctx` null) takes the slot and
gets a context from `tb_context_make` on the slot (its frame near `top`, here offset `top`); a
suspended one has its timer removed and its stack loaded. -/
def Sched.resumeIn (s : Sched) (c : Nat) : Option Sched :=
  let s := (s.initStack c).setRunning (some c)
  match (s.cos c).ctx with
  | none =>
    let s := s.takeSlot c
    some (s.setCo c { s.cos c with ctx := some s.stackSize })
  | some x => (s.removeTimer c).loadStack c x

theorem resumeIn_now {s s' : Sched} {c : Nat} (h : s.resumeIn c = some s') : s'.now = s.now := by
  simp only [Sched.resumeIn] at h
  split at h
  · cases h; simp only [setCo_now, Sched.takeSlot]; split <;> simp
  · exact (loadStack_now h).trans (by simp)

/-- The jump returns from a `yield` of the running coroutine `r` at stack offset `sp`:
`_running->ctx = from.ctx`.  Before yielding, `r` published its waitx (`wx`) and, for
`timer = some (now, ms)`, called `add_timer(uint32_t ms)` when the clock read `now`; it stores
the new entry's handle in `r->it`. -/
def Sched.yieldOut (s : Sched) (r sp : Nat) (timer : Option (Int × UInt32)) (wx : Bool) : Sched :=
  let s := match timer with
    | none => s
    | some (now, ms) => { (s.setCo r { s.cos r with it := some s.timerMgr.next }).setTimerMgr
        (s.timerMgr.addTimer (now + ms.toNat) r) with now := now }
  (s.setCo r { s.cos r with ctx := some sp, waitx := if wx then some .wait else none }).setRunning
    none

/-- The jump returns from the end of `r`'s closure: `_running->stack->co = 0` and, modelled
from the spec, `recycle` returns the coroutine to the pool with a null context. -/
def Sched.finishOut (s : Sched) (r : Nat) : Sched :=
  ((s.setStack (s.slotOf r) { s.stack (s.slotOf r) with co := none }).setCo r
      { s.cos r with ctx := none }).setRunning none

/-- A step of the scheduler thread, or of another party on a waitx. -/
inductive Action
  /-- The loop calls `resume(co)`: for a new task, a ready task, an I/O event or a timeout. -/
  | resume (c : Nat)
  /-- The running coroutine overwrites bytes of its slot. -/
  | write (f : (Nat → UInt8) → Nat → UInt8)
  /-- The running coroutine yields at stack offset `sp`, after arming a timer and a waitx. -/
  | yield (sp : Nat) (timer : Option (Int × UInt32)) (wx : Bool)
  /-- The running coroutine's closure returns. -/
  | finish
  /-- The loop's timeout phase calls `check_timeout`, which reads the clock as `now`. -/
  | checkTimeout (now : Int)
  /-- Another party wins the exchange `wait → ready` on coroutine `c`'s waitx. -/
  | ready (c : Nat)

/-- A step.  `resume` is called from the loop, so with no coroutine running; the running
coroutine's stack pointer stays inside its slot; the clock never goes back. -/
def step (s : Sched) : Action → Option Sched
  | .resume c => if s.running = none then s.resumeIn c else none
  | .write f => match s.running with
    | some r => some (s.setStack (s.slotOf r)
        { s.stack (s.slotOf r) with mem := f (s.stack (s.slotOf r)).mem })
    | none => none
  | .yield sp timer wx => match s.running with
    | some r =>
      if sp ≤ s.stackSize ∧ timer.all (s.now ≤ ·.1) then some (s.yieldOut r sp timer wx) else none
    | none => none
  | .finish => match s.running with
    | some r => some (s.finishOut r)
    | none => none
  | .checkTimeout now =>
    if s.running = none ∧ s.now ≤ now then some { (s.checkTimeout now).1 with now := now } else none
  | .ready c => match (s.cos c).waitx with
    | some st => some (s.setCo c { s.cos c with waitx := some (casWait st .ready).1 })
    | none => none

/-- An interleaving of steps. -/
def run (s : Sched) : List Action → Option Sched
  | [] => some s
  | a :: as => (step s a).bind fun s' => run s' as

@[simp] theorem run_nil (s : Sched) : run s [] = some s := rfl

theorem run_cons (s : Sched) (a : Action) (as : List Action) :
    run s (a :: as) = (step s a).bind fun s' => run s' as := rfl

end Coost.Scheduler
