import Mathlib.Data.List.Basic
import Mathlib.Logic.Function.Basic

/-!
# The chunked waiter queue of `mutex_impl`

`mutex_impl::queue` (`src/src/co/co.cc`) is the type of `_wq`.  It stores `void*` entries in
chunks `_memb` of `N` slots each, linked in a `clist` `_q`.  A chunk has a read index `rx`, a
write index `wx` and a `size` field.  The queue is a union of `_q` with `_m`, and `_m` overlays
the list's head pointer, so `_m` is always the front chunk.  Only the front chunk's `size` is
read: `push_back` increments it, `pop_front` decrements it, and when `pop_front` frees the front
chunk it hands the count to the next one.

The model keeps the chunks front first.  `push_back` writes into the back chunk and links a
fresh one when the back is full.  `pop_front` reads from the front.  An exhausted sole chunk is
reset to `rx = wx = 0`; an exhausted front chunk with a successor is unlinked.  An entry is a
`void*`, here `Option α` with `none` for null: thread waiters push `nullptr`.

* `Queue.toList`: the abstraction function, the slots `[rx, wx)` of each chunk, front first.
* `Queue.Inv`: indices in range, a chunk is empty only when it is the only chunk, and the front
  chunk's `size` counts all the elements.
* `toList_pushBack`, `toList_popFront`, `popFront_fst`, `size_eq_length`, `empty_iff`: each
  call does to `toList` what a FIFO list does.  `Queue.Inv.pushBack` and `Queue.Inv.popFront`
  keep the invariant.
* `queue_fifo`: for every sequence of calls from the empty queue, every result is the FIFO list's
  result, `size()` counts the pushes not yet popped, and `empty()` holds exactly when that count
  is `0`.

`Coost.Mutex.MutexImpl.wq` keeps `_wq` as a list, and this module justifies that choice:
`empty()` followed by `pop_front()` in `mutex_impl::unlock` reads exactly the head of `toList`.
-/

namespace Coost.Mutex

open Function

variable {α : Type}

/-- `N = (128 - sizeof(_memb)) / sizeof(void*)`, with the LP64 sizes: `_memb` is two links, a
`size_t` and two `uint8_t`, padded to 32 bytes. -/
def membN : Nat := (128 - 32) / 8

/-- `mutex_impl::queue::_memb`: one chunk. -/
structure Memb (α : Type) where
  /-- `size`: the number of queued entries; meaningful in the front chunk only. -/
  size : Nat
  /-- `rx`: the next slot to read. -/
  rx : Nat
  /-- `wx`: the next slot to write. -/
  wx : Nat
  /-- `q[]`: the slots. -/
  q : Nat → Option α

/-- `_make_memb()`: `size`, `rx` and `wx` are `0`.  The slots are whatever `malloc` returns;
the model fills them with null, and `toList` never reads a slot outside `[rx, wx)`. -/
def Memb.make : Memb α := ⟨0, 0, 0, fun _ => none⟩

/-- `m->q[m->wx++] = x`. -/
def Memb.put (m : Memb α) (x : Option α) : Memb α := { m with q := update m.q m.wx x, wx := m.wx + 1 }

/-- The entries a chunk holds, oldest first: its slots `[rx, wx)`. -/
def Memb.elems (m : Memb α) : List (Option α) := (List.range' m.rx (m.wx - m.rx)).map m.q

/-- `mutex_impl::queue`: the chunks of `_q`, front first.  `_m` is the front chunk. -/
structure Queue (α : Type) where
  chunks : List (Memb α)

/-- `queue() : _m(0)`. -/
def Queue.init : Queue α := ⟨[]⟩

/-- `size()`: `_m ? _m->size : 0`. -/
def Queue.size (Q : Queue α) : Nat :=
  match Q.chunks with
  | [] => 0
  | m :: _ => m.size

/-- `empty()`: `size() == 0`. -/
def Queue.empty (Q : Queue α) : Bool := Q.size == 0

/-- `push_back(x)`: `m = _q.back()`; with no chunk or a full one (`m->wx == N`) a fresh chunk is
linked at the back; then `m->q[m->wx++] = x` and `++_m->size` on the front chunk. -/
def Queue.pushBack (N : Nat) (Q : Queue α) (x : Option α) : Queue α :=
  let cs := match Q.chunks.getLast? with
    | some m => if m.wx = N then Q.chunks ++ [Memb.make] else Q.chunks
    | none => [Memb.make]
  ⟨((cs.modifyLast (·.put x)).modifyHead fun m => { m with size := m.size + 1 })⟩

/-- `pop_front()`: with entries left in the front chunk, read `_m->q[_m->rx++]` and decrement
`_m->size`.  A chunk read to its end is reset to `rx = wx = 0`; when it is not the back chunk it
is unlinked, and the next chunk receives its `size`.  With nothing to read, return null. -/
def Queue.popFront (Q : Queue α) : Option α × Queue α :=
  match Q.chunks with
  | [] => (none, Q)
  | m :: ms =>
    if m.rx < m.wx then
      let x := m.q m.rx
      let m := { m with rx := m.rx + 1, size := m.size - 1 }
      if m.rx = m.wx then
        let m := { m with rx := 0, wx := 0 }
        match ms with
        | [] => (x, ⟨[m]⟩)
        | m' :: ms' => (x, ⟨{ m' with size := m.size } :: ms'⟩)
      else (x, ⟨m :: ms⟩)
    else (none, Q)

/-- The queue as the list of entries it stands for, oldest first. -/
def Queue.toList (Q : Queue α) : List (Option α) := Q.chunks.flatMap Memb.elems

/-! ## Chunk lemmas -/

@[simp] theorem Memb.make_elems : (Memb.make : Memb α).elems = [] := rfl

theorem Memb.elems_eq_nil {m : Memb α} (h : m.rx ≤ m.wx) : m.elems = [] ↔ m.rx = m.wx := by
  simp [Memb.elems]; omega

@[simp] theorem Memb.elems_length (m : Memb α) : m.elems.length = m.wx - m.rx := by
  simp [Memb.elems]

/-- A write at `wx` appends to the chunk's entries. -/
theorem Memb.put_elems (m : Memb α) (x : Option α) (h : m.rx ≤ m.wx) :
    (m.put x).elems = m.elems ++ [x] := by
  have hlen : m.wx + 1 - m.rx = (m.wx - m.rx) + 1 := by omega
  simp only [Memb.elems, Memb.put, hlen, List.range'_concat, List.map_append, List.map_singleton,
    Nat.one_mul, Nat.add_sub_cancel' h, update_same]
  congr 1
  exact List.map_congr_left fun i hi => update_noteq (by simp [List.mem_range'] at hi; omega) _ _

/-- A read at `rx` takes the chunk's first entry. -/
theorem Memb.elems_of_lt (m : Memb α) (h : m.rx < m.wx) :
    m.elems = m.q m.rx :: { m with rx := m.rx + 1 }.elems := by
  obtain ⟨k, hk⟩ : ∃ k, m.wx - m.rx = k + 1 := ⟨m.wx - m.rx - 1, by omega⟩
  have hk' : m.wx - (m.rx + 1) = k := by omega
  simp only [Memb.elems, hk, hk', List.range'_succ, List.map_cons]

/-- The entries do not depend on `size`. -/
@[simp] theorem Memb.elems_size (m : Memb α) (n : Nat) :
    { m with size := n }.elems = m.elems := rfl

@[simp] theorem Queue.init_toList : (Queue.init : Queue α).toList = [] := rfl

@[simp] theorem Queue.toList_mk (cs : List (Memb α)) :
    (Queue.mk cs).toList = cs.flatMap Memb.elems := rfl

theorem flatMap_modifyHead_size (cs : List (Memb α)) (f : Nat → Nat) :
    (cs.modifyHead fun m => { m with size := f m.size }).flatMap Memb.elems =
      cs.flatMap Memb.elems := by
  cases cs <;> rfl

/-- `modifyHead` on `size` keeps every chunk's indices. -/
theorem mem_modifyHead_size {cs : List (Memb α)} {f : Nat → Nat} {m : Memb α}
    (hm : m ∈ cs.modifyHead fun m => { m with size := f m.size }) :
    ∃ m₀ ∈ cs, m.rx = m₀.rx ∧ m.wx = m₀.wx := by
  cases cs with
  | nil => simp at hm
  | cons c cs =>
    rcases List.mem_cons.1 hm with rfl | hm
    · exact ⟨c, List.mem_cons_self _ _, rfl, rfl⟩
    · exact ⟨m, List.mem_cons_of_mem _ hm, rfl, rfl⟩

/-! ## The invariant -/

/-- The representation invariant of `mutex_impl::queue` with chunks of `N` slots. -/
structure Queue.Inv (N : Nat) (Q : Queue α) : Prop where
  /-- `rx ≤ wx ≤ N` in every chunk: every slot written lies in `q[N]`. -/
  bounds : ∀ m ∈ Q.chunks, m.rx ≤ m.wx ∧ m.wx ≤ N
  /-- A chunk with nothing to read is the only chunk, reset to `wx = 0`. -/
  sole : ∀ m ∈ Q.chunks, m.rx = m.wx → Q.chunks = [m] ∧ m.wx = 0
  /-- The front chunk's `size` counts every entry. -/
  size : Q.size = Q.toList.length

theorem Queue.init_inv (N : Nat) : (Queue.init : Queue α).Inv N :=
  ⟨by simp [Queue.init], by simp [Queue.init], rfl⟩

/-- `size()` is the length of the list. -/
theorem size_eq_length {N : Nat} {Q : Queue α} (h : Q.Inv N) : Q.size = Q.toList.length := h.size

/-- `empty()` holds exactly when the list is empty. -/
theorem empty_iff {N : Nat} {Q : Queue α} (h : Q.Inv N) : Q.empty = true ↔ Q.toList = [] := by
  rw [Queue.empty, beq_iff_eq, h.size, List.length_eq_zero]

/-- A chunk that is not the only one has something to read. -/
theorem Queue.Inv.live {N : Nat} {Q : Queue α} (h : Q.Inv N) {m : Memb α} (hm : m ∈ Q.chunks)
    (hne : Q.chunks ≠ [m]) : m.rx < m.wx :=
  lt_of_le_of_ne (h.bounds m hm).1 fun he => hne (h.sole m hm he).1

/-- Behind the front chunk, every chunk has something to read. -/
theorem Queue.Inv.live_tail {N : Nat} {Q : Queue α} (h : Q.Inv N) {m : Memb α}
    {ms : List (Memb α)} (hc : Q.chunks = m :: ms) {c : Memb α} (hcm : c ∈ ms) : c.rx < c.wx :=
  h.live (hc ▸ List.mem_cons_of_mem _ hcm) fun he => by
    rw [hc, List.cons_eq_cons] at he
    rw [he.2] at hcm
    simp at hcm

/-- A queue whose chunks all have something to read, with indices in range and the count in the
front chunk, satisfies the invariant. -/
theorem Queue.Inv.of_live {N : Nat} {Q : Queue α}
    (hl : ∀ m ∈ Q.chunks, m.rx < m.wx ∧ m.wx ≤ N) (hs : Q.size = Q.toList.length) : Q.Inv N :=
  ⟨fun m hm => ⟨(hl m hm).1.le, (hl m hm).2⟩, fun m hm he => absurd he (hl m hm).1.ne, hs⟩

/-! ## `push_back` -/

/-- What `push_back` does to the chunks, before `++_m->size`: the back chunk receives the entry
when it has room, and otherwise a fresh chunk linked at the back does. -/
theorem pushBack_chunks (N : Nat) (Q : Queue α) (x : Option α) :
    ∃ cs, (Q.pushBack N x).chunks = cs.modifyHead (fun m => { m with size := m.size + 1 }) ∧
      ((∃ init m, Q.chunks = init ++ [m] ∧ m.wx ≠ N ∧ cs = init ++ [m.put x]) ∨
       (Q.chunks.getLast?.all (·.wx = N) ∧ cs = Q.chunks ++ [Memb.make.put x])) := by
  refine ⟨_, rfl, ?_⟩
  rcases List.eq_nil_or_concat Q.chunks with hc | ⟨init, m, hc⟩
  · right; simp only [hc, List.getLast?_nil, Option.all_none, true_and, List.nil_append]
    exact List.modifyLast_append_one _ _ []
  · rw [List.concat_eq_append] at hc
    rw [hc, List.getLast?_concat]
    dsimp only
    by_cases hm : m.wx = N
    · right; simp [hm, List.modifyLast_append_one, ← List.append_assoc]
    · left; exact ⟨init, m, rfl, hm, by simp [hm, List.modifyLast_append_one]⟩

/-- `push_back` appends its entry to the list. -/
theorem toList_pushBack {N : Nat} {Q : Queue α} (h : Q.Inv N) (x : Option α) :
    (Q.pushBack N x).toList = Q.toList ++ [x] := by
  obtain ⟨cs, hq, hcs⟩ := pushBack_chunks N Q x
  rw [Queue.toList, hq, flatMap_modifyHead_size cs (· + 1), Queue.toList]
  rcases hcs with ⟨init, m, hc, -, rfl⟩ | ⟨-, rfl⟩
  · have hm := (h.bounds m (by simp [hc])).1
    simp [hc, Memb.put_elems m x hm]
  · simp [Memb.put_elems (Memb.make : Memb α) x (Nat.le_refl 0)]

/-- `push_back` increments the front chunk's count. -/
theorem pushBack_size (N : Nat) (Q : Queue α) (x : Option α) :
    (Q.pushBack N x).size = Q.size + 1 := by
  obtain ⟨cs, hq, hcs⟩ := pushBack_chunks N Q x
  unfold Queue.size
  rw [hq]
  rcases hcs with ⟨init, b, hc, -, rfl⟩ | ⟨-, rfl⟩
  · rw [hc]; cases init <;> rfl
  · cases Q.chunks <;> rfl

/-- After `push_back` every chunk has something to read and its write index in range: the chunk
that took the entry had room, and an empty chunk before the call was a sole chunk reset to
`wx = 0`, so it was not full. -/
theorem pushBack_live {N : Nat} {Q : Queue α} (h : Q.Inv N) (hN : 0 < N) (x : Option α) :
    ∀ m ∈ (Q.pushBack N x).chunks, m.rx < m.wx ∧ m.wx ≤ N := by
  obtain ⟨cs, hq, hcs⟩ := pushBack_chunks N Q x
  suffices hcs' : ∀ m ∈ cs, m.rx < m.wx ∧ m.wx ≤ N by
    intro m hm
    rw [hq] at hm
    obtain ⟨m₀, hm₀, hrx, hwx⟩ := mem_modifyHead_size hm
    rw [hrx, hwx]; exact hcs' m₀ hm₀
  rcases hcs with ⟨init, b, hc, hb, rfl⟩ | ⟨hl, rfl⟩
  · intro m hm
    rcases List.mem_append.1 hm with hm | hm
    · refine ⟨h.live (by simp [hc, hm]) fun he => ?_, (h.bounds m (by simp [hc, hm])).2⟩
      have hlen := congrArg List.length (hc.symm.trans he)
      simp only [List.length_append, List.length_singleton] at hlen
      exact absurd (List.length_pos_of_mem hm) (by omega)
    · rw [List.mem_singleton] at hm; subst hm
      have := h.bounds b (by simp [hc])
      simp only [Memb.put]; omega
  · intro m hm
    rcases List.mem_append.1 hm with hm | hm
    · refine ⟨lt_of_le_of_ne (h.bounds m hm).1 fun he => ?_, (h.bounds m hm).2⟩
      obtain ⟨hs, hw⟩ := h.sole m hm he
      rw [hs] at hl
      simp only [List.getLast?_singleton, Option.all_some, decide_eq_true_eq] at hl
      omega
    · rw [List.mem_singleton] at hm; subst hm
      simp only [Memb.put, Memb.make]; omega

theorem Queue.Inv.pushBack {N : Nat} {Q : Queue α} (h : Q.Inv N) (hN : 0 < N) (x : Option α) :
    (Q.pushBack N x).Inv N :=
  .of_live (pushBack_live h hN x)
    (by rw [pushBack_size, toList_pushBack h, List.length_append, h.size]; rfl)

/-! ## `pop_front` -/

/-- `pop_front` returns the oldest entry, or null when there is none, leaves the rest of the
list, and keeps the invariant: through the reset of an exhausted sole chunk and the hand-over of
`size` when the front chunk is unlinked. -/
theorem popFront_spec {N : Nat} {Q : Queue α} (h : Q.Inv N) :
    Q.popFront.1 = Q.toList.headD none ∧ Q.popFront.2.toList = Q.toList.tail ∧
      Q.popFront.2.Inv N := by
  obtain ⟨chunks⟩ := Q
  cases chunks with
  | nil => exact ⟨rfl, rfl, h⟩
  | cons m ms =>
    have hb := h.bounds m (List.mem_cons_self _ _)
    have hlive : ∀ c ∈ ms, c.rx < c.wx := fun c hc => h.live_tail rfl hc
    have hsize : m.size = (m.wx - m.rx) + (ms.flatMap Memb.elems).length := by
      have := h.size
      simp only [Queue.size, Queue.toList, List.flatMap_cons, List.length_append,
        Memb.elems_length] at this
      exact this
    by_cases hlt : m.rx < m.wx
    · have hl : (Queue.mk (m :: ms)).toList =
          m.q m.rx :: ({ m with rx := m.rx + 1 }.elems ++ ms.flatMap Memb.elems) := by
        simp [Memb.elems_of_lt m hlt]
      rw [hl, List.headD_cons, List.tail_cons]
      by_cases heq : m.rx + 1 = m.wx
      · have he : ({ m with rx := m.rx + 1 } : Memb α).elems = [] := by simp [Memb.elems, heq]
        rw [he, List.nil_append]
        cases ms with
        | nil =>
          have hp : (Queue.mk [m]).popFront =
              (m.q m.rx, ⟨[{ m with rx := 0, wx := 0, size := m.size - 1 }]⟩) := by
            simp [Queue.popFront, hlt, heq]
          rw [hp]
          refine ⟨rfl, rfl, ⟨by simp, fun c hc _ => ?_, ?_⟩⟩
          · simp only [List.mem_singleton] at hc; subst hc; exact ⟨rfl, rfl⟩
          · simp only [List.flatMap_nil, List.length_nil] at hsize
            simp only [Queue.size, Queue.toList, List.flatMap_cons, List.flatMap_nil,
              List.length_append, Memb.elems_length, List.length_nil]
            omega
        | cons m' ms' =>
          have hp : (Queue.mk (m :: m' :: ms')).popFront =
              (m.q m.rx, ⟨{ m' with size := m.size - 1 } :: ms'⟩) := by
            simp [Queue.popFront, hlt, heq]
          rw [hp]
          refine ⟨rfl, rfl, .of_live (fun c hc => ?_) ?_⟩
          · rcases List.mem_cons.1 hc with rfl | hc
            · exact ⟨hlive m' (List.mem_cons_self _ _), (h.bounds m' (by simp)).2⟩
            · exact ⟨hlive c (List.mem_cons_of_mem _ hc), (h.bounds c (by simp [hc])).2⟩
          · simp only [List.flatMap_cons, List.length_append, Memb.elems_length] at hsize
            simp only [Queue.size, Queue.toList, List.flatMap_cons, List.length_append,
              Memb.elems_length]
            omega
      · have hp : (Queue.mk (m :: ms)).popFront =
            (m.q m.rx, ⟨{ m with rx := m.rx + 1, size := m.size - 1 } :: ms⟩) := by
          simp [Queue.popFront, hlt, heq]
        rw [hp]
        refine ⟨rfl, rfl, .of_live (fun c hc => ?_) ?_⟩
        · rcases List.mem_cons.1 hc with rfl | hc
          · exact ⟨by dsimp only; omega, hb.2⟩
          · exact ⟨hlive c hc, (h.bounds c (List.mem_cons_of_mem _ hc)).2⟩
        · simp only [Queue.size, Queue.toList, List.flatMap_cons, List.length_append,
            Memb.elems_length]
          omega
    · obtain ⟨hs, -⟩ := h.sole m (List.mem_cons_self _ _) (by omega)
      cases hs
      have he : m.elems = [] := (Memb.elems_eq_nil hb.1).2 (by omega)
      simp [Queue.popFront, hlt, Queue.toList, he, h]

/-- What `mutex_impl::unlock` reads from `_wq`: `empty()`, then `pop_front()` when it is false.
Together they read the head of `toList` and leave its tail, as `Coost.Mutex.unlock` does on the
list `wq`. -/
theorem unlock_reads_head {N : Nat} {Q : Queue α} (h : Q.Inv N) :
    (if Q.empty then none else some Q.popFront.1) = Q.toList.head? ∧
      Q.popFront.2.toList = Q.toList.tail := by
  obtain ⟨h1, h2, -⟩ := popFront_spec h
  refine ⟨?_, h2⟩
  cases hl : Q.toList with
  | nil => simp [(empty_iff h).2 hl]
  | cons y l =>
    have : Q.empty = false := by
      rw [← Bool.not_eq_true, empty_iff h, hl]; exact List.cons_ne_nil _ _
    simp [this, h1, hl]

/-! ## Every sequence of calls -/

/-- A call on `_wq`. -/
inductive Call (α : Type)
  | pushBack (x : Option α)
  | popFront

/-- One call and what it returns: `pop_front`'s entry, and null for `push_back`. -/
def Queue.call (N : Nat) (Q : Queue α) : Call α → Option α × Queue α
  | .pushBack x => (none, Q.pushBack N x)
  | .popFront => Q.popFront

/-- A sequence of calls: what each returns, and the queue after the last. -/
def Queue.calls (N : Nat) (Q : Queue α) : List (Call α) → List (Option α) × Queue α
  | [] => ([], Q)
  | c :: cs =>
    let r := Q.call N c
    let s := r.2.calls N cs
    (r.1 :: s.1, s.2)

/-- The FIFO list the queue stands for: `push_back` appends, and `pop_front` removes and returns
the oldest entry, or returns null when there is none. -/
def fifoCall (l : List (Option α)) : Call α → Option α × List (Option α)
  | .pushBack x => (none, l ++ [x])
  | .popFront => (l.headD none, l.tail)

/-- A sequence of calls on the FIFO list. -/
def fifoCalls (l : List (Option α)) : List (Call α) → List (Option α) × List (Option α)
  | [] => ([], l)
  | c :: cs =>
    let r := fifoCall l c
    let s := fifoCalls r.2 cs
    (r.1 :: s.1, s.2)

/-- The number of `push_back` calls. -/
def pushes : List (Call α) → Nat
  | [] => 0
  | .pushBack _ :: cs => pushes cs + 1
  | .popFront :: cs => pushes cs

/-- The number of `pop_front` calls that find an entry, starting from the list `l`. -/
def fifoPops (l : List (Option α)) : List (Call α) → Nat
  | [] => 0
  | .pushBack x :: cs => fifoPops (l ++ [x]) cs
  | .popFront :: cs => match l with
    | [] => fifoPops [] cs
    | _ :: t => fifoPops t cs + 1

/-- One call of the queue is one call of the FIFO list on `toList`. -/
theorem call_spec {N : Nat} (hN : 0 < N) {Q : Queue α} (h : Q.Inv N) (c : Call α) :
    (Q.call N c).1 = (fifoCall Q.toList c).1 ∧ (Q.call N c).2.toList = (fifoCall Q.toList c).2 ∧
      (Q.call N c).2.Inv N := by
  cases c with
  | pushBack x => exact ⟨rfl, toList_pushBack h x, h.pushBack hN x⟩
  | popFront => exact popFront_spec h

/-- The queue runs every sequence of calls as the FIFO list does. -/
theorem calls_spec {N : Nat} (hN : 0 < N) :
    ∀ (cs : List (Call α)) {Q : Queue α}, Q.Inv N →
      (Q.calls N cs).1 = (fifoCalls Q.toList cs).1 ∧
      (Q.calls N cs).2.toList = (fifoCalls Q.toList cs).2 ∧ (Q.calls N cs).2.Inv N
  | [], _, h => ⟨rfl, rfl, h⟩
  | c :: cs, Q, h => by
    obtain ⟨h1, h2, h3⟩ := call_spec hN h c
    obtain ⟨ih1, ih2, ih3⟩ := calls_spec hN cs h3
    refine ⟨?_, ?_, ih3⟩
    · simp only [Queue.calls, fifoCalls]; rw [h1, ih1, h2]
    · simp only [Queue.calls, fifoCalls]; rw [ih2, h2]

/-- The FIFO list gains an entry per push and loses one per pop that finds one. -/
theorem fifoCalls_length (l : List (Option α)) (cs : List (Call α)) :
    (fifoCalls l cs).2.length + fifoPops l cs = l.length + pushes cs := by
  induction cs generalizing l with
  | nil => simp [fifoCalls, fifoPops, pushes]
  | cons c cs ih =>
    cases c with
    | pushBack x =>
      have := ih (l ++ [x])
      simp only [fifoCalls, fifoCall, fifoPops, pushes, List.length_append,
        List.length_singleton] at this ⊢
      omega
    | popFront =>
      cases l with
      | nil => simpa [fifoCalls, fifoCall, fifoPops, pushes] using ih []
      | cons y l =>
        have := ih l
        simp only [fifoCalls, fifoCall, fifoPops, pushes, List.tail_cons,
          List.length_cons] at this ⊢
        omega

/-- `mutex_impl::queue` behaves as a FIFO list.  For every sequence of `push_back` and
`pop_front` calls from the empty queue, null entries included: every call returns what it
returns on the list, so `pop_front` returns the oldest entry not yet popped, and null when there
is none; the queue stands for the list after the calls; `size()` is the number of pushes minus
the number of pops that found an entry; and `empty()` holds exactly when that difference is
`0`. -/
theorem queue_fifo (N : Nat) (hN : 0 < N) (cs : List (Call α)) :
    ((Queue.init : Queue α).calls N cs).1 = (fifoCalls [] cs).1 ∧
    ((Queue.init : Queue α).calls N cs).2.toList = (fifoCalls [] cs).2 ∧
    ((Queue.init : Queue α).calls N cs).2.size = pushes cs - fifoPops [] cs ∧
    (((Queue.init : Queue α).calls N cs).2.empty = true ↔ pushes cs - fifoPops [] cs = 0) := by
  obtain ⟨h1, h2, h3⟩ := calls_spec hN cs (Queue.init_inv N)
  rw [Queue.init_toList] at h1 h2
  have hlen := fifoCalls_length ([] : List (Option α)) cs
  have hsize : ((Queue.init : Queue α).calls N cs).2.size = pushes cs - fifoPops [] cs := by
    rw [size_eq_length h3, h2]
    simp only [List.length_nil, Nat.zero_add] at hlen
    omega
  refine ⟨h1, h2, hsize, ?_⟩
  rw [← hsize, Queue.empty, beq_iff_eq]

/-- Chunks of two slots: three pushes fill one chunk and open a second, four pops empty both,
unlink the first and reset the second, and the queue takes entries again. -/
theorem queue_fifo_two_chunks : 0 < 2 ∧
    ((Queue.init : Queue Nat).calls 2 [.pushBack (some 1), .pushBack none, .pushBack (some 3),
        .popFront, .popFront, .popFront, .popFront, .pushBack (some 4)]).1 =
      (fifoCalls [] [.pushBack (some 1), .pushBack none, .pushBack (some 3),
        .popFront, .popFront, .popFront, .popFront, .pushBack (some 4)]).1 ∧
    ((Queue.init : Queue Nat).calls 2 [.pushBack (some 1), .pushBack none, .pushBack (some 3),
        .popFront, .popFront, .popFront, .popFront, .pushBack (some 4)]).2.toList =
      (fifoCalls [] [.pushBack (some 1), .pushBack none, .pushBack (some 3),
        .popFront, .popFront, .popFront, .popFront, .pushBack (some 4)]).2 ∧
    ((Queue.init : Queue Nat).calls 2 [.pushBack (some 1), .pushBack none, .pushBack (some 3),
        .popFront, .popFront, .popFront, .popFront, .pushBack (some 4)]).2.size =
      pushes ([.pushBack (some 1), .pushBack none, .pushBack (some 3),
        .popFront, .popFront, .popFront, .popFront, .pushBack (some 4)] : List (Call Nat)) -
      fifoPops [] [.pushBack (some 1), .pushBack none, .pushBack (some 3),
        .popFront, .popFront, .popFront, .popFront, .pushBack (some 4)] ∧
    (((Queue.init : Queue Nat).calls 2 [.pushBack (some 1), .pushBack none, .pushBack (some 3),
        .popFront, .popFront, .popFront, .popFront, .pushBack (some 4)]).2.empty = true ↔
      pushes ([.pushBack (some 1), .pushBack none, .pushBack (some 3),
        .popFront, .popFront, .popFront, .popFront, .pushBack (some 4)] : List (Call Nat)) -
      fifoPops [] [.pushBack (some 1), .pushBack none, .pushBack (some 3),
        .popFront, .popFront, .popFront, .popFront, .pushBack (some 4)] = 0) :=
  ⟨by decide, queue_fifo 2 (by decide) [.pushBack (some 1), .pushBack none, .pushBack (some 3),
    .popFront, .popFront, .popFront, .popFront, .pushBack (some 4)]⟩

end Coost.Mutex
