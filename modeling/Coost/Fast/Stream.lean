import Coost.Fast.Itoa
import Mathlib.Data.List.Forall2

/-!
# The byte buffer `fast::stream`

`fast::stream` of `src/include/co/fast.h` is a `malloc`ed buffer `_p` of `_cap` bytes whose first
`_size` bytes are the contents.  Every append first calls `ensure`, which grows the buffer by half
plus what is needed, keeping a byte free for the terminating NUL of `c_str`:

    void ensure(size_t n) {
        if (_cap < _size + n + 1) {
            _cap += ((_cap >> 1) + n + 1);
            _p = (char*)::realloc(_p, _cap);
        }
    }

`realloc` may move the buffer.  `append(s, n)` therefore checks whether `s` points into the
contents, and if so copies from the offset in the new buffer; `append_nomchk` does not check.

The heap model keeps the bytes of every live block.  `realloc` always moves the block (the case
that leaves pointers into the old block dangling); the bytes past the old block are not
specified, and the model fills them with NULs, on which no result depends.  Reading or writing a
freed block, or past the end of a block, fails.  The sizes the code computes are `size_t`, and
wrap modulo `2 ^ 64`: `_size + n + 1` and the new `_cap` in `ensure`, `n + 1` in `resize`, and
`pos + n` in the check of `append`.

`St.Wf` says that the stream and the heap are well formed; `St.Inv` adds that `_cap` leaves room
to grow, so that `ensure` of up to `_cap` bytes computes without wrapping.

* `runOps_ok`: on every run of the stream's operations from a new stream, where each append
  reads readable bytes, each `<<` is given a value of its type, and each capacity the stream
  grows to leaves room to grow, every operation succeeds: no access to a freed block and no
  write past the buffer.  `_size < _cap` holds whenever `_p` is set, which is the assertion of
  `c_str`, and the contents refine the abstract byte list, where bytes that `resize` exposes are
  unknown.  Where the `size_t` arithmetic wraps this fails: `resize((size_t)-1)` leaves
  `_size ≥ _cap`, and an append whose `_size + n + 1` is `2 ^ 64` does not grow the buffer and
  writes past it.
* `append_self`: appending a piece of the stream's own contents copies those bytes, even when
  `ensure` moves the buffer; `append_nomchk`, which does not check, reads the freed block on the
  same call whenever `ensure` grows the buffer.
-/

namespace Coost.Fast

/-- A byte pointer: a block of the heap and an offset in it. -/
abbrev Ptr := Nat × Nat

/-- The heap: the bytes of each live block by address, and the next address `malloc` returns. -/
structure Heap where
  blocks : Nat → Option (List Char)
  next : Nat

/-- `n` bytes at `q`, if they lie in a live block. -/
def Heap.read (h : Heap) (q : Ptr) (n : Nat) : Option (List Char) :=
  match h.blocks q.1 with
  | some b => if q.2 + n ≤ b.length then some ((b.drop q.2).take n) else none
  | none => none

/-- `memcpy`/`memset` of `bs` at offset `off` of block `a`, if they fit in it. -/
def Heap.write (h : Heap) (a off : Nat) (bs : List Char) : Option Heap :=
  match h.blocks a with
  | some b =>
    if off + bs.length ≤ b.length then
      some { h with blocks := Function.update h.blocks a (some (b.take off ++ bs ++
        b.drop (off + bs.length))) }
    else none
  | none => none

/-- The bytes of the block `p` points to; none for a null or a freed `p`. -/
def Heap.bytes (h : Heap) : Option Nat → List Char
  | some a => (h.blocks a).getD []
  | none => []

/-- `realloc(p, n)`, `malloc(n)` for a null `p`: a new block that starts with the old bytes, and
the old block freed. -/
def Heap.realloc (h : Heap) (p : Option Nat) (n : Nat) : Heap × Nat :=
  let old := h.bytes p
  let blocks := match p with
    | some a => Function.update h.blocks a none
    | none => h.blocks
  ({ blocks := Function.update blocks h.next
      (some (old.take n ++ List.replicate (n - old.length) '\x00')), next := h.next + 1 }, h.next)

/-- `::free(p)`. -/
def Heap.free (h : Heap) (a : Nat) : Heap := { h with blocks := Function.update h.blocks a none }

/-- A `fast::stream` and the heap: `_cap`, `_size` and `_p`. -/
structure St where
  heap : Heap
  cap : Nat
  size : Nat
  p : Option Nat

/-- `_p = (char*)::realloc(_p, c)` and `_cap = c`, as `reserve` and `ensure` grow the buffer. -/
def St.grow (st : St) (c : Nat) : St :=
  let r := st.heap.realloc st.p c
  { st with heap := r.1, cap := c, p := some r.2 }

/-- `stream()`, or `stream(cap)`: `malloc(cap)` unless `cap` is 0. -/
def St.make (h : Heap) (cap : Nat) : St :=
  if cap > 0 then St.grow ⟨h, 0, 0, none⟩ cap else ⟨h, 0, 0, none⟩

/-- `reserve(n)`. -/
def reserve (st : St) (n : Nat) : St :=
  if st.cap < n then st.grow n else st

/-- `ensure(n)`: `_cap += ((_cap >> 1) + n + 1)`, then `realloc`, in `size_t`. -/
def ensure (st : St) (n : Nat) : St :=
  if st.cap < (st.size + n + 1) % 2 ^ 64 then st.grow ((st.cap + (st.cap / 2 + n + 1)) % 2 ^ 64)
  else st

/-- Bytes written at `_p + _size`, then `_size += n`. -/
def put (st : St) (bs : List Char) : Option St :=
  match st.p with
  | some a => (st.heap.write a st.size bs).map fun h =>
      { st with heap := h, size := st.size + bs.length }
  | none => none

/-- `append(char c)`. -/
def appendChar (st : St) (c : Char) : Option St := put (ensure st 1) [c]

/-- `append(size_t n, char c)`. -/
def appendFill (st : St) (n : Nat) (c : Char) : Option St := put (ensure st n) (List.replicate n c)

/-- `append_nomchk(p, n)`: `ensure(n)`, then `memcpy` from `p`. -/
def appendNomchk (st : St) (q : Ptr) (n : Nat) : Option St :=
  let st' := ensure st n
  (st'.heap.read q n).bind (put st')

/-- `append(s, n)`: a pointer into the contents is kept as an offset across `ensure`. -/
def append (st : St) (q : Ptr) (n : Nat) : Option St :=
  if st.p = some q.1 ∧ q.2 < st.size then
    if (q.2 + n) % 2 ^ 64 ≤ st.size then
      let st' := ensure st n
      match st'.p with
      | some a => (st'.heap.read (a, q.2) n).bind (put st')
      | none => none
    else none
  else appendNomchk st q n

/-- An `operator<<` that writes the bytes of a literal (`"true"`, `"false"`, `"0x0"`): their
storage is never freed. -/
def appendLit (st : St) (bs : List Char) : Option St := put (ensure st bs.length) bs

/-- `operator<<` on a value `v` of an integer or pointer type `t`: `ensure(sizeof(v) * 3)`, then
the digits at `_p + _size`. -/
def shift (st : St) (t : Shown) (v : Int) : Option St := put (ensure st (3 * t.size)) (t.render v)

/-- `clear()`. -/
def clear (st : St) : St := { st with size := 0 }

/-- `clear(char c)`: `memset(_p, c, _size)`, then `_size = 0`. -/
def clearFill (st : St) (c : Char) : Option St :=
  match st.p with
  | some a => (st.heap.write a 0 (List.replicate st.size c)).map fun h =>
      { st with heap := h, size := 0 }
  | none => if st.size = 0 then some (clear st) else none

/-- `resize(n)`: `reserve(n + 1)`, then `_size = n`; the bytes past the old size are not set. -/
def resize (st : St) (n : Nat) : St := { reserve st ((n + 1) % 2 ^ 64) with size := n }

/-- `resize(n, c)`: the bytes from the old size up to `n` become `c`. -/
def resizeFill (st : St) (n : Nat) (c : Char) : Option St :=
  if st.size < n then
    let st' := reserve st ((n + 1) % 2 ^ 64)
    match st'.p with
    | some a => (st'.heap.write a st'.size (List.replicate (n - st'.size) c)).map fun h =>
        { st' with heap := h, size := n }
    | none => none
  else some { st with size := n }

/-- `reset()`. -/
def reset (st : St) : St :=
  match st.p with
  | some a => { heap := st.heap.free a, cap := 0, size := 0, p := none }
  | none => st

/-- `c_str()`: `assert(_size < _cap)`, then a NUL at `_p[_size]` unless one is there. -/
def cStr (st : St) : Option St :=
  match st.p with
  | some a =>
    if st.size < st.cap then
      match st.heap.read (a, st.size) 1 with
      | some ['\x00'] => some st
      | some _ => (st.heap.write a st.size ['\x00']).map fun h => { st with heap := h }
      | none => none
    else none
  | none => some st

/-- The contents: the first `_size` bytes of the buffer. -/
def St.contents (st : St) : List Char := (st.heap.bytes st.p).take st.size

/-! ## The heap -/

section Heap

variable {h : Heap}

theorem realloc_blocks (h : Heap) (p : Option Nat) (n x : Nat) :
    (h.realloc p n).1.blocks x = if x = h.next then
      some ((h.bytes p).take n ++ List.replicate (n - (h.bytes p).length) '\x00')
    else if p = some x then none else h.blocks x := by
  cases p with
  | none => simp [Heap.realloc, Function.update_apply]
  | some a => by_cases hx : x = a <;> simp [Heap.realloc, Function.update_apply, hx, eq_comm]

theorem read_of_block {b : List Char} {q : Ptr} {n : Nat} (hb : h.blocks q.1 = some b)
    (hn : q.2 + n ≤ b.length) : h.read q n = some ((b.drop q.2).take n) := by
  simp [Heap.read, hb, hn]

/-- A read sees only the block it reads. -/
theorem read_congr {h' : Heap} {q : Ptr} (n : Nat) (hb : h'.blocks q.1 = h.blocks q.1) :
    h'.read q n = h.read q n := by
  simp only [Heap.read, hb]

end Heap

/-! ## The invariant -/

/-- The stream over a heap that started as `h0`: the buffer is `_cap` bytes long, a null `_p` has
no contents, a set one leaves a byte past them, the stream's blocks lie past `h0`'s, no block lies
at or past the next address, and `h0`'s blocks are as they were. -/
structure St.Wf (h0 : Heap) (st : St) : Prop where
  len : (st.heap.bytes st.p).length = st.cap
  null : st.p = none → st.size = 0
  room : st.p ≠ none → st.size < st.cap
  past : ∀ a, st.p = some a → h0.next ≤ a
  fresh : ∀ a, st.heap.next ≤ a → st.heap.blocks a = none
  nextLe : h0.next ≤ st.heap.next
  ext : ∀ x, x < h0.next → st.heap.blocks x = h0.blocks x

/-- A well-formed stream whose `_cap` leaves room to grow: `ensure` of up to `_cap` bytes computes
`_size + n + 1` and its new `_cap` below `2 ^ 64`. -/
structure St.Inv (h0 : Heap) (st : St) extends St.Wf h0 st : Prop where
  capRoom : 3 * st.cap < 2 ^ 64

/-- `ensure(n)` needs not grow, or grows to a capacity that leaves room to grow. -/
def RoomFor (st : St) (n : Nat) : Prop :=
  st.size + n + 1 ≤ st.cap ∨ 3 * (st.cap + (st.cap / 2 + n + 1)) < 2 ^ 64

instance (st : St) (n : Nat) : Decidable (RoomFor st n) :=
  inferInstanceAs (Decidable (_ ∨ _))

/-- What the abstract contents say of the bytes: each is known, or `none` where `resize` exposed
a byte it did not set. -/
def Refines (l : List (Option Char)) (bs : List Char) : Prop :=
  List.Forall₂ (fun o b => o = none ∨ o = some b) l bs

section Inv

variable {h0 : Heap} {st : St}

@[simp] theorem grow_cap (c : Nat) : (st.grow c).cap = c := rfl
@[simp] theorem grow_size (c : Nat) : (st.grow c).size = st.size := rfl
@[simp] theorem grow_p (c : Nat) : (st.grow c).p = some st.heap.next := rfl
@[simp] theorem grow_next (c : Nat) : (st.grow c).heap.next = st.heap.next + 1 := rfl

theorem St.Wf.size_le (hi : st.Wf h0) : st.size ≤ st.cap := by
  by_cases hp : st.p = none
  · rw [hi.null hp]; exact Nat.zero_le _
  · exact (hi.room hp).le

theorem St.Wf.lt_cap (hi : st.Wf h0) {a : Nat} (ha : st.p = some a) : st.size < st.cap :=
  hi.room (by simp [ha])

/-- A set `_p` names a live block, below the next address. -/
theorem St.Wf.block (hi : st.Wf h0) {a : Nat} (ha : st.p = some a) :
    st.heap.blocks a = some (st.heap.bytes st.p) ∧ a < st.heap.next := by
  have hr := hi.lt_cap ha
  cases hb : st.heap.blocks a with
  | none =>
    have := hi.len
    simp only [ha, Heap.bytes, hb, Option.getD_none, List.length_nil] at this
    omega
  | some b =>
    refine ⟨by simp [ha, Heap.bytes, hb], Nat.lt_of_not_le fun hle => ?_⟩
    rw [hi.fresh a hle] at hb; cases hb

theorem St.Wf.contents_length (hi : st.Wf h0) : st.contents.length = st.size := by
  rw [St.contents, List.length_take, hi.len]; exact Nat.min_eq_left hi.size_le

/-- `realloc` to a larger buffer keeps the invariant and the contents. -/
theorem grow_spec (hi : st.Wf h0) {c : Nat} (hc : st.cap ≤ c) (hs : st.size < c) :
    (st.grow c).Wf h0 ∧ (st.grow c).contents = st.contents := by
  have hnew : (st.grow c).heap.bytes (st.grow c).p = (st.heap.bytes st.p).take c ++
      List.replicate (c - (st.heap.bytes st.p).length) '\x00' := by
    show ((st.heap.realloc st.p c).1.blocks st.heap.next).getD [] = _
    rw [realloc_blocks, if_pos rfl]; rfl
  have hold : ∀ x, x ≠ st.heap.next → x < h0.next ∨ st.heap.next ≤ x →
      (st.grow c).heap.blocks x = st.heap.blocks x := fun x hx hlt => by
    rw [St.grow, realloc_blocks, if_neg hx, if_neg]
    intro hp
    rcases hlt with hlt | hle
    · have := hi.past x hp; omega
    · have := (hi.block hp).2; omega
  have hsz := hi.size_le
  refine ⟨⟨?_, by simp, fun _ => hs, ?_, fun a ha => ?_, by simp; have := hi.nextLe; omega,
    fun x hx => ?_⟩, ?_⟩
  · simp only [hnew, grow_cap, List.length_append, List.length_take, List.length_replicate, hi.len]
    omega
  · simp only [grow_p, Option.some.injEq]; rintro a rfl; exact hi.nextLe
  · simp only [grow_next] at ha
    rw [hold a (by omega) (.inr (by omega)), hi.fresh a (by omega)]
  · rw [hold x (by have := hi.nextLe; omega) (.inl hx), hi.ext x hx]
  · have hle : st.size ≤ ((st.heap.bytes st.p).take c).length := by
      rw [List.length_take, hi.len]; omega
    rw [St.contents, St.contents, hnew, grow_size, List.take_append_of_le_length hle,
      List.take_take, Nat.min_eq_left (by omega)]

theorem reserve_cap (n : Nat) : (reserve st n).cap = max st.cap n := by
  unfold reserve; split
  · rw [grow_cap]; omega
  · omega

/-- `reserve(n)` leaves at least `n` bytes and keeps the contents. -/
theorem reserve_spec (hi : st.Wf h0) (n : Nat) :
    (reserve st n).Wf h0 ∧ (reserve st n).contents = st.contents ∧
      (reserve st n).size = st.size ∧ n ≤ (reserve st n).cap := by
  unfold reserve
  split
  · have := hi.size_le
    obtain ⟨hi', hc⟩ := grow_spec hi (c := n) (by omega) (by omega)
    exact ⟨hi', hc, rfl, le_rfl⟩
  · exact ⟨hi, rfl, rfl, by omega⟩

/-- `reserve(n)` to a capacity that leaves room keeps the invariant. -/
theorem St.Inv.reserve (hi : st.Inv h0) {n : Nat} (hr : n ≤ st.cap ∨ 3 * n < 2 ^ 64) :
    (reserve st n).Inv h0 :=
  ⟨(reserve_spec hi.toWf n).1, by rw [reserve_cap]; have := hi.capRoom; omega⟩

/-- `ensure(n)` when its `size_t` sums do not wrap. -/
theorem ensure_eq {n : Nat} (hs : st.size ≤ st.cap)
    (hw : st.cap + (st.cap / 2 + n + 1) < 2 ^ 64) :
    ensure st n =
      if st.cap < st.size + n + 1 then st.grow (st.cap + (st.cap / 2 + n + 1)) else st := by
  rw [ensure, Nat.mod_eq_of_lt (show st.size + n + 1 < 2 ^ 64 by omega), Nat.mod_eq_of_lt hw]

/-- `ensure(n)` leaves room for `n` bytes and the NUL, and keeps the contents, when its sums do
not wrap. -/
theorem ensure_spec (hi : st.Wf h0) {n : Nat} (hw : st.cap + (st.cap / 2 + n + 1) < 2 ^ 64) :
    (ensure st n).Wf h0 ∧ (ensure st n).contents = st.contents ∧
      (ensure st n).size = st.size ∧ st.size + n < (ensure st n).cap := by
  rw [ensure_eq hi.size_le hw]
  split
  · have := hi.size_le
    obtain ⟨hi', hc⟩ := grow_spec hi (c := st.cap + (st.cap / 2 + n + 1)) (by omega) (by omega)
    exact ⟨hi', hc, rfl, by simp; omega⟩
  · exact ⟨hi, rfl, rfl, by omega⟩

/-- `ensure` moves nothing when the room is there. -/
theorem ensure_of_le {n : Nat} (h : st.size + n + 1 ≤ st.cap) (hc : st.cap < 2 ^ 64) :
    ensure st n = st := by
  rw [ensure, Nat.mod_eq_of_lt (by omega), if_neg (Nat.not_lt.2 h)]

/-- With room for it, `ensure(n)` computes without wrapping. -/
theorem St.Inv.noWrap (hi : st.Inv h0) {n : Nat} (hr : RoomFor st n) :
    st.cap + (st.cap / 2 + n + 1) < 2 ^ 64 := by
  have := hi.capRoom; unfold RoomFor at hr; omega

/-- `ensure(n)` with room for it keeps the invariant. -/
theorem St.Inv.ensure (hi : st.Inv h0) {n : Nat} (hr : RoomFor st n) :
    (ensure st n).Inv h0 ∧ (ensure st n).contents = st.contents ∧
      (ensure st n).size = st.size ∧ st.size + n < (ensure st n).cap := by
  have hc := hi.capRoom
  have hs := hi.size_le
  have hw := hi.noWrap hr
  obtain ⟨hwf, hct, hsz, hn⟩ := ensure_spec hi.toWf hw
  refine ⟨⟨hwf, ?_⟩, hct, hsz, hn⟩
  rw [ensure_eq hs hw]
  split
  · unfold RoomFor at hr; simp only [grow_cap]; omega
  · exact hc

/-- A write within the buffer of the stream keeps the invariant, with any size below `_cap`. -/
theorem write_spec (hi : st.Wf h0) {a : Nat} (ha : st.p = some a) (off s : Nat) (bs : List Char)
    (hb : off + bs.length ≤ st.cap) (hs : s < st.cap) :
    ∃ h', st.heap.write a off bs = some h' ∧ ({ st with heap := h', size := s } : St).Wf h0 ∧
      h'.bytes (some a) = (st.heap.bytes st.p).take off ++ bs ++
        (st.heap.bytes st.p).drop (off + bs.length) := by
  obtain ⟨hblk, hlt⟩ := hi.block ha
  have hlen := hi.len
  let h' : Heap := ⟨Function.update st.heap.blocks a
    (some ((st.heap.bytes st.p).take off ++ bs ++ (st.heap.bytes st.p).drop (off + bs.length))),
    st.heap.next⟩
  have hother : ∀ x, x ≠ a → h'.blocks x = st.heap.blocks x :=
    fun x hx => Function.update_noteq hx _ _
  have hbytes : h'.bytes (some a) = (st.heap.bytes st.p).take off ++ bs ++
      (st.heap.bytes st.p).drop (off + bs.length) := by simp [h', Heap.bytes]
  refine ⟨h', by simp [Heap.write, hblk, hlen, hb, h'], ⟨?_, fun h => by simp [ha] at h,
    fun _ => hs, hi.past, fun x hx => ?_, hi.nextLe, fun x hx => ?_⟩, hbytes⟩
  · change (h'.bytes st.p).length = st.cap
    rw [ha, hbytes]
    simp only [List.length_append, List.length_take, List.length_drop, hlen]
    omega
  · change st.heap.next ≤ x at hx
    change h'.blocks x = none
    rw [hother x (by omega), hi.fresh x hx]
  · change h'.blocks x = h0.blocks x
    rw [hother x (by have := hi.past a ha; omega), hi.ext x hx]

/-- The bytes written sit right after the first `off` bytes. -/
theorem take_write (b bs : List Char) {off : Nat} (h : off ≤ b.length) :
    (b.take off ++ bs ++ b.drop (off + bs.length)).take (off + bs.length) = b.take off ++ bs :=
  List.take_left' (by simp; omega)

/-- `put` appends its bytes to the contents when they fit before the last byte. -/
theorem put_spec (hi : st.Wf h0) (bs : List Char) (hb : st.size + bs.length < st.cap) :
    ∃ st', put st bs = some st' ∧ st'.Wf h0 ∧ st'.cap = st.cap ∧
      st'.contents = st.contents ++ bs := by
  cases ha : st.p with
  | none => have := hi.len; simp [ha, Heap.bytes] at this; omega
  | some a =>
    obtain ⟨h', hw, hi', hbytes⟩ := write_spec hi ha st.size (st.size + bs.length) bs
      hb.le hb
    have hsz : st.size ≤ (st.heap.bytes st.p).length := hi.len ▸ hi.size_le
    refine ⟨_, by simp [put, ha, hw], hi', rfl, ?_⟩
    rw [St.contents, St.contents, ha, hbytes, take_write _ _ hsz, ha]

/-- `ensure(k)` then `k` bytes or fewer: the append pattern of every writer of the stream. -/
theorem ensurePut_spec (hi : st.Inv h0) {k : Nat} (hr : RoomFor st k) (bs : List Char)
    (hb : bs.length ≤ k) :
    ∃ st', put (ensure st k) bs = some st' ∧ st'.Inv h0 ∧ st'.contents = st.contents ++ bs := by
  obtain ⟨he, hc, hs, hk⟩ := hi.ensure hr
  obtain ⟨st', hp, hi', hcap, hc'⟩ := put_spec he.toWf bs (by omega)
  exact ⟨st', hp, ⟨hi', hcap ▸ he.capRoom⟩, by rw [hc', hc]⟩

/-- Reading the stream's own block within the contents reads the contents. -/
theorem read_contents (hi : st.Wf h0) {a off n : Nat} (ha : st.p = some a)
    (hn : off + n ≤ st.size) : st.heap.read (a, off) n = some ((st.contents.drop off).take n) := by
  have := hi.size_le
  rw [read_of_block (hi.block ha).1 (by rw [hi.len]; omega), St.contents, List.drop_take,
    List.take_take, Nat.min_eq_left (by omega)]

/-- Setting `_size` within the buffer keeps the invariant. -/
theorem St.Wf.setSize (hi : st.Wf h0) {n : Nat} (hz : st.p = none → n = 0)
    (hn : st.p ≠ none → n < st.cap) : ({ st with size := n } : St).Wf h0 :=
  ⟨hi.len, hz, hn, hi.past, hi.fresh, hi.nextLe, hi.ext⟩

/-- A buffer of `n` bytes or more is set. -/
theorem St.Wf.p_ne_none (hi : st.Wf h0) (h : 0 < st.cap) : st.p ≠ none := fun hp => by
  have := hi.len; simp only [hp, Heap.bytes, List.length_nil] at this; omega

/-- `reset()` frees the buffer and empties the stream. -/
theorem reset_spec (hi : st.Inv h0) : (reset st).Inv h0 ∧ (reset st).contents = [] := by
  cases ha : st.p with
  | none => simp only [reset, ha]; exact ⟨hi, by simp [St.contents, ha, Heap.bytes]⟩
  | some a =>
    have hpast := hi.past a ha
    have hlt := (hi.block ha).2
    have hfree : ∀ x, x ≠ a → (st.heap.free a).blocks x = st.heap.blocks x :=
      fun x hx => Function.update_noteq hx _ _
    rw [show reset st = ⟨st.heap.free a, 0, 0, none⟩ by simp [reset, ha]]
    refine ⟨⟨⟨rfl, fun _ => rfl, fun h => absurd rfl h, fun _ h => Option.noConfusion h,
      fun x hx => ?_, hi.nextLe, fun x hx => ?_⟩, by simp⟩, rfl⟩
    · by_cases hxa : x = a
      · subst hxa; exact Function.update_same _ _ _
      · rw [hfree x hxa]; exact hi.fresh x hx
    · rw [hfree x (by omega)]; exact hi.ext x hx

/-- `clear(c)` overwrites the contents and empties the stream. -/
theorem clearFill_spec (hi : st.Inv h0) (c : Char) :
    ∃ st', clearFill st c = some st' ∧ st'.Inv h0 ∧ st'.contents = [] := by
  cases ha : st.p with
  | none =>
    have hz := hi.null ha
    refine ⟨clear st, by simp [clearFill, ha, hz],
      ⟨hi.setSize (fun _ => rfl) fun h => absurd ha h, hi.capRoom⟩, by simp [St.contents, clear]⟩
  | some a =>
    have hr := hi.lt_cap ha
    obtain ⟨h', hw, hi', -⟩ := write_spec hi.toWf ha 0 0 (List.replicate st.size c)
      (by simp; exact hi.size_le) (by omega)
    exact ⟨_, by simp [clearFill, ha, hw], ⟨hi', hi.capRoom⟩, by simp [St.contents]⟩

/-- `c_str()` passes its assertion and keeps the contents. -/
theorem cStr_spec (hi : st.Inv h0) :
    ∃ st', cStr st = some st' ∧ st'.Inv h0 ∧ st'.contents = st.contents := by
  cases ha : st.p with
  | none => exact ⟨st, by simp [cStr, ha], hi, rfl⟩
  | some a =>
    have hr := hi.lt_cap ha
    have hlen := hi.len
    obtain ⟨h', hw, hi', hbytes⟩ := write_spec hi.toWf ha st.size st.size ['\x00']
      (by simp; omega) hr
    simp only [cStr, ha, if_pos hr,
      read_of_block (q := (a, st.size)) (hi.block ha).1 (show st.size + 1 ≤ _ by omega)]
    split
    · exact ⟨st, rfl, hi, rfl⟩
    · refine ⟨_, by rw [hw, Option.map_some', ha], ⟨hi', hi.capRoom⟩, ?_⟩
      simp only [St.contents, ha] at hbytes hlen ⊢
      rw [hbytes, List.append_assoc, List.take_left' (by simp; omega)]
    · contradiction

/-- The abstract bytes refine a prefix of the concrete ones. -/
theorem refines_take {l : List (Option Char)} {B : List Char} {s n : Nat}
    (hr : Refines l (B.take s)) (h : n ≤ s) : Refines (l.take n) (B.take n) := by
  have := List.forall₂_take n hr
  rwa [List.take_take, Nat.min_eq_left h] at this

theorem refines_some (bs : List Char) : Refines (bs.map some) bs := by
  induction bs with
  | nil => exact .nil
  | cons _ _ ih => exact .cons (.inr rfl) ih

theorem refines_none (bs : List Char) : Refines (List.replicate bs.length none) bs := by
  induction bs with
  | nil => exact .nil
  | cons _ _ ih => exact .cons (.inl rfl) ih

/-- Bytes appended to the contents are known. -/
theorem Refines.append_some {l : List (Option Char)} {bs cs : List Char} (hr : Refines l bs)
    (cs' : List Char) (h : cs = bs ++ cs') : Refines (l ++ cs'.map some) cs :=
  h ▸ List.rel_append hr (refines_some cs')

/-- `resize((size_t)-1)` asks `reserve(0)`, since `n + 1` wraps, and sets `_size` to
`SIZE_MAX`: `c_str`'s assertion `_size < _cap` then fails on every stream with a buffer. -/
theorem cStr_resize_max (hp : st.p ≠ none) (hc : st.cap < 2 ^ 64) :
    cStr (resize st (2 ^ 64 - 1)) = none := by
  obtain ⟨a, ha⟩ := Option.ne_none_iff_exists'.1 hp
  have hr : resize st (2 ^ 64 - 1) = { st with size := 2 ^ 64 - 1 } := by
    simp [resize, reserve]
  rw [hr, cStr, ha]
  dsimp only
  rw [if_neg (by omega)]

/-- `resize(n)` with `n + 1` below `2 ^ 64`: `reserve(n + 1)`, then `_size = n`. -/
theorem resize_eq {n : Nat} (h : n + 1 < 2 ^ 64) :
    resize st n = { reserve st (n + 1) with size := n } := by
  rw [resize, Nat.mod_eq_of_lt h]

/-- `resize(n)`: the first `n` bytes, where those past the old contents are unknown. -/
theorem resize_spec (hi : st.Inv h0) {l : List (Option Char)} (hr : Refines l st.contents)
    {n : Nat} (hn : n + 1 ≤ st.cap ∨ 3 * (n + 1) < 2 ^ 64) : (resize st n).Inv h0 ∧
      Refines (l.take n ++ List.replicate (n - l.length) none) (resize st n).contents := by
  have hl : l.length = st.size := hr.length_eq.trans hi.contents_length
  rw [resize_eq (by have := hi.capRoom; omega)]
  obtain ⟨hi', hc, hs, hn'⟩ := reserve_spec hi.toWf (n + 1)
  have hp := hi'.p_ne_none (by omega)
  refine ⟨⟨hi'.setSize (fun h => absurd h hp) fun _ => by omega, (hi.reserve hn).capRoom⟩, ?_⟩
  rw [← hc, St.contents, hs] at hr
  have hlen := hi'.len
  show Refines _ (((reserve st (n + 1)).heap.bytes (reserve st (n + 1)).p).take n)
  generalize (reserve st (n + 1)).heap.bytes (reserve st (n + 1)).p = B at hr hlen
  rcases Nat.le_total n st.size with h | h
  · rw [Nat.sub_eq_zero_of_le (hl ▸ h), List.replicate_zero, List.append_nil]
    exact refines_take hr h
  · have hsplit : B.take n = B.take st.size ++ (B.drop st.size).take (n - st.size) := by
      rw [← List.take_add, Nat.add_sub_cancel' h]
    have hnone : n - l.length = ((B.drop st.size).take (n - st.size)).length := by simp; omega
    rw [List.take_of_length_le (hl ▸ h), hsplit, hnone]
    exact List.rel_append hr (refines_none _)

/-- `resize(n, c)`: the first `n` bytes, where those past the old contents are `c`. -/
theorem resizeFill_spec (hi : st.Inv h0) {l : List (Option Char)} (hr : Refines l st.contents)
    {n : Nat} (hn : n + 1 ≤ st.cap ∨ 3 * (n + 1) < 2 ^ 64) (c : Char) :
    ∃ st', resizeFill st n c = some st' ∧ st'.Inv h0 ∧
      Refines (l.take n ++ List.replicate (n - l.length) (some c)) st'.contents := by
  have hl : l.length = st.size := hr.length_eq.trans hi.contents_length
  have hroom := (hi.reserve hn).capRoom
  unfold resizeFill
  rw [Nat.mod_eq_of_lt (show n + 1 < 2 ^ 64 by have := hi.capRoom; omega)]
  split
  · rename_i hlt
    obtain ⟨hi', hc, hs, hn⟩ := reserve_spec hi.toWf (n + 1)
    obtain ⟨a, ha⟩ := Option.ne_none_iff_exists'.1 (hi'.p_ne_none (by omega))
    obtain ⟨h', hw, hi'', hbytes⟩ := write_spec hi' ha (reserve st (n + 1)).size n
      (List.replicate (n - (reserve st (n + 1)).size) c) (by simp; omega) (by omega)
    refine ⟨_, by simp only [ha, hw]; rfl, ⟨hi'', hroom⟩, ?_⟩
    have hsz : (reserve st (n + 1)).size ≤ ((reserve st (n + 1)).heap.bytes
        (reserve st (n + 1)).p).length := by rw [hi'.len]; omega
    have hcon : ({ reserve st (n + 1) with heap := h', size := n } : St).contents =
        st.contents ++ List.replicate (n - st.size) c := by
      show (h'.bytes (reserve st (n + 1)).p).take n = _
      rw [ha, hbytes, List.take_left' (by simp [hs]; omega), ← hc, St.contents, hs]
    rw [List.take_of_length_le (by omega), hl, ← List.map_replicate]
    exact hr.append_some _ hcon
  · rename_i hge
    have hn : n ≤ st.size := by omega
    refine ⟨_, rfl, ⟨hi.setSize (fun h => by have := hi.null h; omega) fun h => by
      have := hi.room h; omega, hi.capRoom⟩, ?_⟩
    rw [Nat.sub_eq_zero_of_le (hl ▸ hn), List.replicate_zero, List.append_nil]
    exact refines_take hr hn

/-- The bytes `read` returns are as many as asked. -/
theorem read_length {h : Heap} {q : Ptr} {n : Nat} {bs : List Char} (hr : h.read q n = some bs) :
    bs.length = n := by
  unfold Heap.read at hr
  split at hr
  · split at hr
    · cases hr; simp; omega
    · cases hr
  · cases hr

/-- `append` from a block of `h0`: the bytes there. -/
theorem append_ext (hi : st.Inv h0) {q : Ptr} {n : Nat} {bs : List Char} (hq : q.1 < h0.next)
    (hread : h0.read q n = some bs) (hr : RoomFor st n) :
    ∃ st', append st q n = some st' ∧ st'.Inv h0 ∧ st'.contents = st.contents ++ bs := by
  have hp : ¬ (st.p = some q.1 ∧ q.2 < st.size) := fun h => by have := hi.past _ h.1; omega
  have he := (hi.ensure hr).1
  rw [append, if_neg hp, appendNomchk, read_congr n (he.ext _ hq), hread, Option.some_bind]
  exact ensurePut_spec hi hr bs (read_length hread).le

/-- `append` from the stream's own contents, when `ensure(n)` does not wrap: the bytes at the
offset, read after `ensure`. -/
theorem append_own (hi : st.Wf h0) {a off n : Nat} (ha : st.p = some a) (hn : off + n ≤ st.size)
    (hw : st.cap + (st.cap / 2 + n + 1) < 2 ^ 64) :
    ∃ st', append st (a, off) n = some st' ∧ st'.Wf h0 ∧ st'.cap = (ensure st n).cap ∧
      st'.contents = st.contents ++ (st.contents.drop off).take n := by
  obtain ⟨he, hc, hs, hk⟩ := ensure_spec hi hw
  have hmod : (off + n) % 2 ^ 64 = off + n := Nat.mod_eq_of_lt (by have := hi.size_le; omega)
  by_cases hin : off < st.size
  · obtain ⟨a', ha'⟩ := Option.ne_none_iff_exists'.1 (he.p_ne_none (by omega))
    simp only [append, if_pos (And.intro ha hin), hmod, if_pos hn, ha']
    rw [read_contents he ha' (by omega), Option.some_bind, hc]
    obtain ⟨st', hput, hi', hcap, hc'⟩ := put_spec he ((st.contents.drop off).take n)
      (by simp; omega)
    exact ⟨st', hput, hi', hcap, by rw [hc', hc]⟩
  · have hoff : off = st.size := by omega
    have h0n : n = 0 := by omega
    subst h0n
    have hr := hi.lt_cap ha
    have hen : ensure st 0 = st := ensure_of_le (by omega) (by omega)
    rw [append, if_neg (fun h => hin h.2), appendNomchk, hen, read_contents hi ha (by omega),
      Option.some_bind]
    exact put_spec hi _ (by simp; omega)

end Inv

/-! ## Runs of the stream -/

/-- The operations of `fast::stream`; `append q n` is `append(s, n)` with `s` at `q`. -/
inductive Op
  | reserve (n : Nat)
  | resize (n : Nat)
  | resizeFill (n : Nat) (c : Char)
  | clear
  | clearFill (c : Char)
  | reset
  | appendChar (c : Char)
  | appendFill (n : Nat) (c : Char)
  | append (q : Ptr) (n : Nat)
  | appendLit (bs : List Char)
  | shift (t : Shown) (v : Int)
  | cStr

/-- One operation; `none` is an access to a freed block or past a block, or a failed
assertion. -/
def step (st : St) : Op → Option St
  | .reserve n => some (reserve st n)
  | .resize n => some (resize st n)
  | .resizeFill n c => resizeFill st n c
  | .clear => some (clear st)
  | .clearFill c => clearFill st c
  | .reset => some (reset st)
  | .appendChar c => appendChar st c
  | .appendFill n c => appendFill st n c
  | .append q n => append st q n
  | .appendLit bs => appendLit st bs
  | .shift t v => shift st t v
  | .cStr => cStr st

/-- A run of operations, stopping at the first that fails. -/
def runOps : St → List Op → Option St
  | st, [] => some st
  | st, op :: ops => (step st op).bind (runOps · ops)

/-- What the stream is for: the contents as a list of bytes, `none` for a byte `resize` exposed
without setting it.  An append from the blocks of the heap `h0` the stream started on reads
their bytes; any other pointer points into the contents. -/
def absStep (h0 : Heap) (l : List (Option Char)) : Op → List (Option Char)
  | .reserve _ | .cStr => l
  | .resize n => l.take n ++ List.replicate (n - l.length) none
  | .resizeFill n c => l.take n ++ List.replicate (n - l.length) (some c)
  | .clear | .clearFill _ | .reset => []
  | .appendChar c => l ++ [some c]
  | .appendFill n c => l ++ List.replicate n (some c)
  | .append q n =>
    l ++ if q.1 < h0.next then ((h0.read q n).getD []).map some else (l.drop q.2).take n
  | .appendLit bs => l ++ bs.map some
  | .shift t v => l ++ (t.render v).map some

/-- A legal operation appends readable bytes of `h0`, or bytes of the contents, and gives `<<` a
value of its type; every capacity it grows to leaves room to grow, so no `size_t` sum wraps. -/
def Legal (h0 : Heap) (st : St) : Op → Prop
  | .reserve n => n ≤ st.cap ∨ 3 * n < 2 ^ 64
  | .resize n | .resizeFill n _ => n + 1 ≤ st.cap ∨ 3 * (n + 1) < 2 ^ 64
  | .appendChar _ => RoomFor st 1
  | .appendFill n _ => RoomFor st n
  | .append q n =>
    (q.1 < h0.next ∧ (h0.read q n).isSome ∨ st.p = some q.1 ∧ q.2 + n ≤ st.size) ∧ RoomFor st n
  | .appendLit bs => RoomFor st bs.length
  | .shift t v => t.Values v ∧ RoomFor st (3 * t.size)
  | .clear | .clearFill _ | .reset | .cStr => True

instance (h0 : Heap) (st : St) : (op : Op) → Decidable (Legal h0 st op)
  | .reserve n => inferInstanceAs (Decidable (n ≤ st.cap ∨ 3 * n < 2 ^ 64))
  | .resize n | .resizeFill n _ => inferInstanceAs (Decidable (n + 1 ≤ st.cap ∨ 3 * (n + 1) < 2 ^ 64))
  | .appendChar _ => inferInstanceAs (Decidable (RoomFor st 1))
  | .appendFill n _ => inferInstanceAs (Decidable (RoomFor st n))
  | .append q n => inferInstanceAs (Decidable
      ((q.1 < h0.next ∧ (h0.read q n).isSome ∨ st.p = some q.1 ∧ q.2 + n ≤ st.size) ∧ RoomFor st n))
  | .appendLit bs => inferInstanceAs (Decidable (RoomFor st bs.length))
  | .shift t v => inferInstanceAs (Decidable (t.Values v ∧ RoomFor st (3 * t.size)))
  | .clear | .clearFill _ | .reset | .cStr => isTrue trivial

/-- Every operation of the run is legal where it happens. -/
def LegalRun (h0 : Heap) : St → List Op → Prop
  | _, [] => True
  | st, op :: ops => Legal h0 st op ∧ LegalRun h0 ((step st op).getD st) ops

def decLegalRun (h0 : Heap) : (st : St) → (ops : List Op) → Decidable (LegalRun h0 st ops)
  | _, [] => isTrue trivial
  | st, op :: ops => @instDecidableAnd _ _ _ (decLegalRun h0 ((step st op).getD st) ops)

instance (h0 : Heap) (st : St) (ops : List Op) : Decidable (LegalRun h0 st ops) :=
  decLegalRun h0 st ops

section Run

variable {h0 : Heap}

/-- A legal operation succeeds, keeps the invariant, and does to the contents what the abstract
step does. -/
theorem step_spec {st : St} {l : List (Option Char)} (hi : st.Inv h0) (hr : Refines l st.contents)
    {op : Op} (hl : Legal h0 st op) :
    ∃ st', step st op = some st' ∧ st'.Inv h0 ∧ Refines (absStep h0 l op) st'.contents := by
  cases op with
  | reserve n =>
    obtain ⟨-, hc, -, -⟩ := reserve_spec hi.toWf n
    exact ⟨_, rfl, hi.reserve hl, hc ▸ hr⟩
  | resize n => exact ⟨_, rfl, resize_spec hi hr hl⟩
  | resizeFill n c => exact resizeFill_spec hi hr hl c
  | clear =>
    exact ⟨_, rfl, ⟨hi.setSize (fun _ => rfl) fun h => by have := hi.room h; omega, hi.capRoom⟩,
      by simp [absStep, St.contents, clear]; exact .nil⟩
  | clearFill c =>
    obtain ⟨st', h, hi', hc⟩ := clearFill_spec hi c
    exact ⟨st', h, hi', hc ▸ .nil⟩
  | reset => exact ⟨_, rfl, (reset_spec hi).1, (reset_spec hi).2 ▸ .nil⟩
  | appendChar c =>
    obtain ⟨st', h, hi', hc⟩ := ensurePut_spec hi hl [c] le_rfl
    exact ⟨st', h, hi', hr.append_some [c] hc⟩
  | appendFill n c =>
    obtain ⟨st', h, hi', hc⟩ := ensurePut_spec hi hl (List.replicate n c) (by simp)
    refine ⟨st', h, hi', ?_⟩
    simpa [absStep] using hr.append_some _ hc
  | append q n =>
    obtain ⟨hl, hroom⟩ := hl
    rcases hl with ⟨hq, hs⟩ | ⟨hp, hn⟩
    · obtain ⟨bs, hread⟩ := Option.isSome_iff_exists.1 hs
      obtain ⟨st', h, hi', hc⟩ := append_ext hi hq hread hroom
      refine ⟨st', h, hi', ?_⟩
      simpa [absStep, hq, hread] using hr.append_some _ hc
    · obtain ⟨a, off⟩ := q
      obtain ⟨st', h, hi', hcap, hc⟩ := append_own hi.toWf hp hn (hi.noWrap hroom)
      have hq : ¬ a < h0.next := by have := hi.past a hp; omega
      refine ⟨st', h, ⟨hi', hcap ▸ (hi.ensure hroom).1.capRoom⟩, ?_⟩
      simp only [absStep, if_neg hq]
      rw [hc]
      exact List.rel_append hr (List.forall₂_take n (List.forall₂_drop off hr))
  | appendLit bs =>
    obtain ⟨st', h, hi', hc⟩ := ensurePut_spec hi hl bs le_rfl
    exact ⟨st', h, hi', hr.append_some bs hc⟩
  | shift t v =>
    obtain ⟨st', h, hi', hc⟩ := ensurePut_spec hi hl.2 _ (render_fits t hl.1)
    exact ⟨st', h, hi', hr.append_some _ hc⟩
  | cStr =>
    obtain ⟨st', h, hi', hc⟩ := cStr_spec hi
    exact ⟨st', h, hi', hc ▸ hr⟩

/-- Every legal run succeeds, keeps the invariant, and refines the abstract run. -/
theorem run_spec : ∀ {st : St} {l : List (Option Char)} {ops : List Op}, st.Inv h0 →
    Refines l st.contents → LegalRun h0 st ops →
      ∃ st', runOps st ops = some st' ∧ st'.Inv h0 ∧
        Refines (ops.foldl (absStep h0) l) st'.contents
  | _, _, [], hi, hr, _ => ⟨_, rfl, hi, hr⟩
  | _, _, _ :: _, hi, hr, ⟨hl, hrest⟩ => by
    obtain ⟨st', hs, hi', hr'⟩ := step_spec hi hr hl
    rw [hs, Option.getD_some] at hrest
    obtain ⟨st'', hrun, hi'', hr''⟩ := run_spec hi' hr' hrest
    exact ⟨st'', by simp [runOps, hs, hrun], hi'', hr''⟩

/-- A new stream: empty, over a heap with nothing at or past its next address. -/
theorem make_spec (hfresh : ∀ a, h0.next ≤ a → h0.blocks a = none) {cap : Nat}
    (hcap : 3 * cap < 2 ^ 64) : (St.make h0 cap).Inv h0 ∧ (St.make h0 cap).contents = [] := by
  have hi : St.Wf h0 ⟨h0, 0, 0, none⟩ :=
    ⟨rfl, fun _ => rfl, fun h => absurd rfl h, fun _ h => Option.noConfusion h, hfresh, le_rfl,
      fun _ _ => rfl⟩
  unfold St.make
  split
  · obtain ⟨hw, hc⟩ := grow_spec hi (Nat.zero_le cap) ‹_›
    exact ⟨⟨hw, hcap⟩, hc⟩
  · exact ⟨⟨hi, by simp⟩, rfl⟩

/-- Every legal run of a new stream succeeds: no access to a freed block and no write past the
buffer.  `_size < _cap` whenever `_p` is set, so `c_str`'s assertion holds, and the contents
refine the abstract contents. -/
theorem runOps_ok (hfresh : ∀ a, h0.next ≤ a → h0.blocks a = none) (cap : Nat)
    (hcap : 3 * cap < 2 ^ 64) (ops : List Op) (hl : LegalRun h0 (St.make h0 cap) ops) :
    ∃ st, runOps (St.make h0 cap) ops = some st ∧ (st.p ≠ none → st.size < st.cap) ∧
      Refines (ops.foldl (absStep h0) []) st.contents := by
  obtain ⟨hi, hc⟩ := make_spec hfresh hcap
  obtain ⟨st, h, hi', hr⟩ := run_spec hi (by rw [hc]; exact .nil) hl
  exact ⟨st, h, hi'.room, hr⟩

/-- A new stream over a heap holding `"hi"` at address 0: a character, `"hi"`, its own three
bytes while `ensure` moves the buffer, `(short)-32768`, both `resize`s, `c_str`, `clear('-')`, a
literal and `reset`. -/
theorem runOps_ok_hi :
    ∃ st, runOps (St.make ⟨fun a => if a = 0 then some ['h', 'i'] else none, 1⟩ 0)
        [.appendChar 'a', .append (0, 0) 2, .append (2, 0) 3, .shift .short (-32768), .resize 20,
          .resizeFill 25 'x', .cStr, .clearFill '-', .appendLit ['o', 'k'], .reset] = some st ∧
      (st.p ≠ none → st.size < st.cap) ∧
      Refines ([.appendChar 'a', .append (0, 0) 2, .append (2, 0) 3, .shift .short (-32768),
          .resize 20, .resizeFill 25 'x', .cStr, .clearFill '-', .appendLit ['o', 'k'], .reset].foldl
        (absStep ⟨fun a => if a = 0 then some ['h', 'i'] else none, 1⟩) []) st.contents :=
  runOps_ok (fun _ ha => if_neg (Nat.pos_iff_ne_zero.1 ha)) 0 (by decide) _ (by decide)

/-- An append of `n` bytes with `_size + n + 1 = 2 ^ 64`: `ensure` computes `0`, does not grow,
and the bytes would go past the buffer. -/
theorem appendFill_wraps {st : St} (hi : st.Inv h0) (c : Char) :
    appendFill st (2 ^ 64 - 1 - st.size) c = none := by
  have hs := hi.size_le
  have hc := hi.capRoom
  have hen : ensure st (2 ^ 64 - 1 - st.size) = st := by
    rw [ensure, show (st.size + (2 ^ 64 - 1 - st.size) + 1) % 2 ^ 64 = 0 by omega,
      if_neg (Nat.not_lt_zero _)]
  rw [appendFill, hen]
  cases ha : st.p with
  | none => simp [put, ha]
  | some a =>
    simp only [put, ha, Heap.write, (hi.block ha).1, List.length_replicate]
    rw [if_neg (by rw [← ha, hi.len]; omega)]
    rfl

/-- `append` of the stream's own bytes copies them, even when `ensure` moves the buffer;
`append_nomchk` on the same bytes reads the freed block whenever `ensure` grows it. -/
theorem append_self {st : St} (hi : st.Inv h0) {a off n : Nat} (ha : st.p = some a)
    (hn : off + n ≤ st.size) :
    (∃ st', append st (a, off) n = some st' ∧
      st'.contents = st.contents ++ (st.contents.drop off).take n) ∧
    (st.cap < st.size + n + 1 → appendNomchk st (a, off) n = none) := by
  have hw : st.cap + (st.cap / 2 + n + 1) < 2 ^ 64 := by
    have := hi.capRoom; have := hi.lt_cap ha; omega
  obtain ⟨st', h, -, -, hc⟩ := append_own hi.toWf ha hn hw
  refine ⟨⟨st', h, hc⟩, fun hg => ?_⟩
  have hfreed : (ensure st n).heap.blocks a = none := by
    rw [ensure_eq hi.size_le hw, if_pos hg, St.grow, realloc_blocks, if_neg (hi.block ha).2.ne,
      if_pos ha]
  simp [appendNomchk, Heap.read, hfreed]

/-- `"ab"` of a three-byte buffer appended to itself: `ensure` moves the buffer, `append` still
copies `"ab"`, and `append_nomchk` reads the freed block. -/
theorem append_self_ab :
    (∃ st', append ⟨⟨fun a => if a = 0 then some ['a', 'b', 'c'] else none, 1⟩, 3, 2, some 0⟩
      (0, 0) 2 = some st' ∧ st'.contents = ['a', 'b', 'a', 'b']) ∧
    appendNomchk ⟨⟨fun a => if a = 0 then some ['a', 'b', 'c'] else none, 1⟩, 3, 2, some 0⟩
      (0, 0) 2 = none := by
  obtain ⟨⟨st', h, hc⟩, hn⟩ := @append_self ⟨fun _ => none, 0⟩
    ⟨⟨fun a => if a = 0 then some ['a', 'b', 'c'] else none, 1⟩, 3, 2, some 0⟩
    ⟨⟨rfl, fun h => Option.noConfusion h, fun _ => by decide, fun _ _ => Nat.zero_le _,
      fun _ ha => if_neg (Nat.pos_iff_ne_zero.1 ha), Nat.zero_le _,
      fun _ h => absurd h (Nat.not_lt_zero _)⟩, by decide⟩ 0 0 2 rfl (by decide)
  exact ⟨⟨st', h, hc.trans (by decide)⟩, hn (by decide)⟩

end Run

end Coost.Fast
