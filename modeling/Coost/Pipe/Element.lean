import Mathlib.Logic.Function.Basic

/-!
# Where the element of a pipe write goes

`Coost.Pipe.PipeImpl.write` moves the written element as a value.  This module follows the
element in memory instead.  A channel of `T` gives `pipe_impl` two callbacks.  `_c(dst, src, v)`
constructs at `dst` a copy (`v = 0`) or a move (`v = 1`) of the object at `src`, and `_d(p)`
destroys the object at `p`.  A move leaves its source in the moved-from state of `T`, given
here by a function `moved`.

`pipe_impl::write(p, v)` (`src/src/co/co.cc`) does one of three things with the object at `p`.

* It returns `done = false` at once on a closed channel.
* It constructs the element from `p` in a block of the ring (`_write_block(p, v)`) or in the
  buffer of a waiting reader (`_c(w->buf, p, v)`), and returns `done = true`.
* It blocks on a full buffer.  `create_waitx(co, p)` sets the waitx's `buf` to an inline buffer
  after the waitx header when the caller is a coroutine and `p` is on its stack
  (`gSched->on_stack(p)`), and to `p` otherwise.  With the inline buffer, write constructs the
  element there with `_c(w->buf, p, v)` before it yields, and sets `x.v = 1 | 2`; otherwise
  `x.v = v`.  A reader that pops the waitx and wins the exchange `wait → ready` does
  `_write_block(w->buf, w->x.v & 1)` and then `_d(w->buf)` when `x.v & 2`; the write returns
  `done = true`.  When the timer wins, the write returns `done = false`, and a reader that later
  pops the waitx only does `_d(w->buf)` when `x.v & 2`.

* `writeElem_done_false`: a write fails exactly when the channel was closed or the timer won.
* `writeElem_block_of_failed`: a failed write puts nothing in the channel.
* `writeElem_caller_of_failed`: a failed write leaves the object at `p` as it was, except when
  a coroutine moved an element on its stack: then `p` holds the moved-from object.
* `failed_write_empties_caller`: a coroutine moves a `std::unique_ptr<int>` on its stack into a
  full channel and times out.  The write reports `done = false`, and the caller's pointer is
  null.
-/

namespace Coost.Pipe

open Function

variable {α : Type}

/-- The places the element of one write can be in. -/
inductive Loc
  /-- The object at `p`. -/
  | caller
  /-- The inline buffer after the waitx header of a blocked coroutine. -/
  | inline
  /-- Where a reader gets the element: a block of the ring, or the reader's own buffer. -/
  | block
  deriving DecidableEq, Repr

/-- What a place holds: no object, or a live object of the element type. -/
inductive Cell (α : Type)
  | raw
  | obj (x : α)
  deriving DecidableEq, Repr

/-- `_c(dst, src, v)`: construct at `dst` a copy (`v = 0`) or a move (`v = 1`) of the object at
`src`; a move leaves `moved x` at `src`. -/
def construct (moved : α → α) (m : Loc → Cell α) (dst src : Loc) (v : Nat) : Loc → Cell α :=
  match m src with
  | .obj x => update (if v = 1 then update m src (.obj (moved x)) else m) dst (.obj x)
  | .raw => m

/-- `_d(p)`: destroy the object at `p`. -/
def destruct (m : Loc → Cell α) (p : Loc) : Loc → Cell α := update m p .raw

/-- The element fields of a waitx: `buf` and `x.v`. -/
structure WaitxBuf where
  /-- `w->buf`: the inline buffer or `p` itself. -/
  buf : Loc
  /-- `w->x.v`: bit 0 asks the reader to move, bit 1 to destroy `buf` after. -/
  v : Nat
  deriving DecidableEq, Repr

/-- `create_waitx(co, p)`: the inline buffer for a coroutine (`co` non-null) whose `p` is on its
stack, and `p` itself otherwise. -/
def createWaitx (co onStack : Bool) : Loc := if co && onStack then .inline else .caller

/-- The full-buffer branch of `write` up to the yield or the wait: with the inline buffer,
`_c(w->buf, p, v)` and `x.v = 1 | 2`; otherwise `x.v = v`.  The thread branch calls
`create_waitx(nullptr, p)`, which is `co = false`. -/
def enqueueWrite (moved : α → α) (m : Loc → Cell α) (co onStack : Bool) (v : Nat) :
    (Loc → Cell α) × WaitxBuf :=
  let buf := createWaitx co onStack
  if buf ≠ .caller then (construct moved m buf .caller v, ⟨buf, 1 ||| 2⟩) else (m, ⟨buf, v⟩)

/-- A reader pops the waitx and wins `wait → ready`: `_write_block(w->buf, w->x.v & 1)`, then
`_d(w->buf)` when `x.v & 2`. -/
def serveWriter (moved : α → α) (m : Loc → Cell α) (w : WaitxBuf) : Loc → Cell α :=
  let m := construct moved m .block w.buf (w.v &&& 1)
  if w.v &&& 2 ≠ 0 then destruct m w.buf else m

/-- A reader pops the waitx of a writer that timed out: `_d(w->buf)` when `x.v & 2`, then
`free(w)`. -/
def discardWriter (m : Loc → Cell α) (w : WaitxBuf) : Loc → Cell α :=
  if w.v &&& 2 ≠ 0 then destruct m w.buf else m

/-- How a call of `write` ends. -/
inductive WriteEnd
  /-- `is_closed()` at entry. -/
  | closed
  /-- `_write_block(p, v)`, or `_c(w->buf, p, v)` into a waiting reader's buffer. -/
  | stored
  /-- Blocked on a full buffer; a reader took the element. -/
  | served
  /-- Blocked on a full buffer; the timer won, and a reader later discarded the waitx. -/
  | timedOut
  deriving DecidableEq, Repr

/-- The memory after a call of `write(p, v)` that ends as `e`, and the `done` it reports. -/
def writeElem (moved : α → α) (m : Loc → Cell α) (co onStack : Bool) (v : Nat) :
    WriteEnd → (Loc → Cell α) × Bool
  | .closed => (m, false)
  | .stored => (construct moved m .block .caller v, true)
  | .served =>
    let r := enqueueWrite moved m co onStack v
    (serveWriter moved r.1 r.2, true)
  | .timedOut =>
    let r := enqueueWrite moved m co onStack v
    (discardWriter r.1 r.2, false)

/-! ## The callbacks -/

@[simp] theorem construct_dst (moved : α → α) {m : Loc → Cell α} {src : Loc} {x : α}
    (h : m src = .obj x) (dst : Loc) (v : Nat) : construct moved m dst src v dst = .obj x := by
  simp [construct, h]

theorem construct_other (moved : α → α) (m : Loc → Cell α) {dst src l : Loc} (hd : l ≠ dst)
    (hs : l ≠ src) (v : Nat) : construct moved m dst src v l = m l := by
  cases h : m src with
  | raw => simp [construct, h]
  | obj x =>
    simp only [construct, h, update_noteq hd]
    split_ifs
    · exact update_noteq hs _ _
    · rfl

/-- A copy leaves its source as it was, and a move leaves the moved-from object. -/
theorem construct_src (moved : α → α) {m : Loc → Cell α} {dst src : Loc} {x : α}
    (h : m src = .obj x) (hd : src ≠ dst) (v : Nat) :
    construct moved m dst src v src = if v = 1 then .obj (moved x) else .obj x := by
  simp only [construct, h, update_noteq hd]
  split <;> simp_all

/-- What `create_waitx` and the full-buffer branch set up. -/
theorem enqueueWrite_eq (moved : α → α) (m : Loc → Cell α) (co onStack : Bool) (v : Nat) :
    enqueueWrite moved m co onStack v =
      if co && onStack then (construct moved m .inline .caller v, ⟨.inline, 3⟩)
      else (m, ⟨.caller, v⟩) := by
  unfold enqueueWrite createWaitx
  cases co && onStack <;> rfl

/-! ## Failed writes -/

/-- A write reports `done = false` exactly when the channel was closed or the timer won. -/
theorem writeElem_done_false (moved : α → α) (m : Loc → Cell α) (co onStack : Bool) (v : Nat)
    (e : WriteEnd) :
    (writeElem moved m co onStack v e).2 = false ↔ e = .closed ∨ e = .timedOut := by
  cases e <;> simp [writeElem]

/-- A write that blocked and timed out, after a reader discarded its waitx: the inline buffer
holds nothing, and everything else is as the full-buffer branch left it.  A copy or move flag
`v` (`0` or `1`) never has bit 1, so a waitx with `buf = p` is freed without touching `p`. -/
theorem writeElem_timedOut (moved : α → α) (m : Loc → Cell α) (co onStack : Bool) {v : Nat}
    (hv : v ≤ 1) : (writeElem moved m co onStack v .timedOut).1 =
      if co && onStack then destruct (construct moved m .inline .caller v) .inline else m := by
  simp only [writeElem, discardWriter, enqueueWrite_eq]
  by_cases hcs : (co && onStack) = true
  · simp only [hcs, if_true]
    exact if_pos (by decide)
  · simp only [hcs, if_false, Bool.false_eq_true]
    obtain rfl | rfl : v = 0 ∨ v = 1 := by omega
    all_goals rfl

/-- A failed write leaves the channel's side as it was: no reader gets its element. -/
theorem writeElem_block_of_failed (moved : α → α) (m : Loc → Cell α) (co onStack : Bool)
    {v : Nat} (hv : v ≤ 1) {e : WriteEnd} (he : (writeElem moved m co onStack v e).2 = false) :
    (writeElem moved m co onStack v e).1 .block = m .block := by
  rcases (writeElem_done_false moved m co onStack v e).1 he with rfl | rfl
  · rfl
  · rw [writeElem_timedOut moved m co onStack hv]
    split
    · rw [destruct, update_noteq (show Loc.block ≠ .inline by decide)]
      exact construct_other moved m (by decide) (by decide) v
    · rfl

/-- A failed write leaves the object at `p` as it was, except for a coroutine that moved an
element on its stack into the inline buffer and then timed out: `p` then holds the moved-from
object. -/
theorem writeElem_caller_of_failed (moved : α → α) {m : Loc → Cell α} {x : α}
    (hx : m .caller = .obj x) (co onStack : Bool) {v : Nat} (hv : v ≤ 1) {e : WriteEnd}
    (he : (writeElem moved m co onStack v e).2 = false) :
    (writeElem moved m co onStack v e).1 .caller =
      if e = .timedOut ∧ co = true ∧ onStack = true ∧ v = 1 then .obj (moved x)
      else .obj x := by
  rcases (writeElem_done_false moved m co onStack v e).1 he with rfl | rfl
  · simp [writeElem, hx]
  · rw [writeElem_timedOut moved m co onStack hv]
    by_cases hcs : (co && onStack) = true
    · rw [Bool.and_eq_true] at hcs
      rw [if_pos (by simp [hcs]), destruct, update_noteq (show Loc.caller ≠ .inline by decide),
        construct_src moved hx (by decide)]
      simp [hcs]
    · rw [if_neg hcs, if_neg (by simp_all), hx]

/-- A coroutine writes `std::move(p)` of a `std::unique_ptr<int>` that holds the pointer `7` and
lives on its stack, into a full channel, and the timer wins.  A moved-from `unique_ptr` is
null.  The write reports `done = false`, the channel gets nothing, and `p` is null. -/
theorem failed_write_empties_caller :
    (writeElem (fun _ => none) (fun l => if l = .caller then .obj (some 7) else .raw)
        true true 1 .timedOut).2 = false ∧
    (writeElem (fun _ => none) (fun l => if l = .caller then .obj (some 7) else .raw)
        true true 1 .timedOut).1 .block = .raw ∧
    (writeElem (fun _ : Option Nat => none) (fun l => if l = .caller then .obj (some 7) else .raw)
        true true 1 .timedOut).1 .caller = .obj none := by
  decide

end Coost.Pipe
