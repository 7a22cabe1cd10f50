import Coost.Pipe.Invariant

/-!
# The ring of a pipe as a FIFO list

`PipeImpl.contents` reads the elements of the ring oldest first: `count` blocks from `_rx`,
around the ring of `buf_size / blk_size` blocks.  The two block moves of the code act on it as
a queue: `_read_block` on a ring that holds an element takes its head (`contents_pop`), and
`_write_block` on a ring that is not full appends (`contents_push`).  Offsets are turned into
block indices once (`RingOk.idx`, `PipeConf.Ok.adv_mul`), so the arithmetic is on indices below
the number of blocks.
-/

namespace Coost.Pipe

open Function

variable {α : Type}

/-- The number of blocks of the ring. -/
def PipeConf.blocks (cf : PipeConf) : Nat := cf.bufSize / cf.blkSize

/-- The block after block `r` of a ring of `n` blocks. -/
def advIdx (n r : Nat) : Nat := if r + 1 = n then 0 else r + 1

/-- Block `i` after block `r`. -/
def ringIdx (n r i : Nat) : Nat := if r + i < n then r + i else r + i - n

/-- The number of blocks from block `r` on to block `w`. -/
def ringDist (n r w : Nat) : Nat := if r ≤ w then w - r else w + n - r

/-- The number of blocks the ring holds. -/
def PipeImpl.count (s : PipeImpl α) (cf : PipeConf) : Nat :=
  if s.full then cf.blocks else ringDist cf.blocks (s.rx / cf.blkSize) (s.wx / cf.blkSize)

/-- The elements the ring holds, oldest first. -/
def PipeImpl.contents (s : PipeImpl α) (cf : PipeConf) : List α :=
  (List.range (s.count cf)).map fun i => s.buf (ringIdx cf.blocks (s.rx / cf.blkSize) i * cf.blkSize)

@[simp] theorem contents_length (s : PipeImpl α) (cf : PipeConf) :
    (s.contents cf).length = s.count cf := by
  simp [PipeImpl.contents]

/-! ## Block indices -/

section Idx

variable {n r w i : Nat}

theorem ringIdx_zero (hr : r < n) : ringIdx n r 0 = r := by unfold ringIdx; split_ifs <;> omega

theorem ringIdx_adv (hi : i + 1 < n) :
    ringIdx n (advIdx n r) i = ringIdx n r (i + 1) := by
  unfold ringIdx advIdx; split_ifs <;> omega

theorem ringDist_lt (hr : r < n) (hw : w < n) : ringDist n r w < n := by
  unfold ringDist; split_ifs <;> omega

/-- Taking a block from a ring that holds some. -/
theorem ringDist_adv_left (hr : r < n) (hw : w < n) (hne : r ≠ w) :
    ringDist n (advIdx n r) w + 1 = ringDist n r w := by
  unfold ringDist advIdx; split_ifs <;> omega

/-- Taking a block from a full ring. -/
theorem ringDist_adv_self (hr : r < n) : ringDist n (advIdx n r) r + 1 = n := by
  unfold ringDist advIdx; split_ifs <;> omega

/-- Adding a block to a ring that does not become full. -/
theorem ringDist_adv_right (hr : r < n) (hne : r ≠ advIdx n w) :
    ringDist n r (advIdx n w) = ringDist n r w + 1 := by
  unfold ringDist advIdx at *; split_ifs at * <;> omega

/-- Adding a block that fills the ring. -/
theorem ringDist_adv_full (hr : r < n) (he : r = advIdx n w) :
    ringDist n r w + 1 = n := by
  unfold ringDist advIdx at *; split_ifs at * <;> omega

/-- The block after the held ones is the write block. -/
theorem ringIdx_dist (hr : r < n) (hw : w < n) : ringIdx n r (ringDist n r w) = w := by
  unfold ringIdx ringDist; split_ifs <;> omega

/-- The held blocks are not the write block. -/
theorem ringIdx_ne (hr : r < n) (hi : i < ringDist n r w) : ringIdx n r i ≠ w := by
  unfold ringIdx ringDist at *; split_ifs at * <;> omega

end Idx

/-! ## Offsets and block indices -/

variable {cf : PipeConf}

theorem PipeConf.Ok.size_eq (hc : cf.Ok) : cf.bufSize = cf.blocks * cf.blkSize :=
  (Nat.div_mul_cancel (Nat.dvd_of_mod_eq_zero hc.size_blk)).symm

/-- On block offsets, `x += _blk_size; if (x == _buf_size) x = 0;` is `advIdx`. -/
theorem PipeConf.Ok.adv_mul (hc : cf.Ok) (r : Nat) :
    cf.adv (r * cf.blkSize) = advIdx cf.blocks r * cf.blkSize := by
  have hb := hc.blk_pos
  unfold PipeConf.adv advIdx
  rw [hc.size_eq, show r * cf.blkSize + cf.blkSize = (r + 1) * cf.blkSize from
    (Nat.succ_mul r _).symm]
  by_cases h : r + 1 = cf.blocks
  · rw [if_pos (by rw [h]), if_pos h, Nat.zero_mul]
  · rw [if_neg fun e => h (Nat.eq_of_mul_eq_mul_right hb e), if_neg h]

/-- The positions of a ring are block indices times the block size. -/
theorem RingOk.idx (hc : cf.Ok) {s : PipeImpl α} (h : RingOk cf s) :
    s.rx = s.rx / cf.blkSize * cf.blkSize ∧ s.rx / cf.blkSize < cf.blocks ∧
    s.wx = s.wx / cf.blkSize * cf.blkSize ∧ s.wx / cf.blkSize < cf.blocks := by
  have hb := hc.blk_pos
  have hs := hc.size_eq
  refine ⟨(Nat.div_mul_cancel (Nat.dvd_of_mod_eq_zero h.rx_blk)).symm,
    (Nat.div_lt_iff_lt_mul hb).2 (hs ▸ h.rx_lt),
    (Nat.div_mul_cancel (Nat.dvd_of_mod_eq_zero h.wx_blk)).symm,
    (Nat.div_lt_iff_lt_mul hb).2 (hs ▸ h.wx_lt)⟩

theorem mul_blk_div (hc : cf.Ok) (r : Nat) : r * cf.blkSize / cf.blkSize = r :=
  Nat.mul_div_cancel r hc.blk_pos

/-! ## The queue view -/

/-- `contents` reads only the bytes, the positions and `_full`. -/
theorem contents_congr {s s' : PipeImpl α} (hb : s'.buf = s.buf) (hr : s'.rx = s.rx)
    (hw : s'.wx = s.wx) (hf : s'.full = s.full) : s'.contents cf = s.contents cf := by
  simp only [PipeImpl.contents, PipeImpl.count, hb, hr, hw, hf]

@[simp] theorem contents_setPhase (s : PipeImpl α) (q : Party) (ph : Phase) :
    (s.setPhase q ph).contents cf = s.contents cf := contents_congr rfl rfl rfl rfl

@[simp] theorem contents_setWaitx (s : PipeImpl α) (w : Nat) (x : Waitx α) :
    (s.setWaitx w x).contents cf = s.contents cf := contents_congr rfl rfl rfl rfl

@[simp] theorem contents_enqueue (s : PipeImpl α) (q : Party) (x : α) (ph : Nat → Phase) :
    (s.enqueue q x ph).contents cf = s.contents cf := contents_congr rfl rfl rfl rfl

/-- A ring whose positions meet and that is not full holds nothing. -/
theorem contents_eq_nil {s : PipeImpl α} (he : s.rx = s.wx) (hf : s.full = false) :
    s.contents cf = [] := by
  simp [PipeImpl.contents, PipeImpl.count, hf, he, ringDist]

/-- `_read_block` on a ring that holds an element takes the oldest. -/
theorem contents_pop (hc : cf.Ok) {s s' : PipeImpl α} (h : RingOk cf s)
    (hne : s.rx ≠ s.wx ∨ s.full = true) (hb : s'.buf = s.buf) (hr : s'.rx = cf.adv s.rx)
    (hw : s'.wx = s.wx) (hf : s'.full = false) :
    s.contents cf = s.buf s.rx :: s'.contents cf := by
  obtain ⟨erx, hri, ewx, hwi⟩ := h.idx hc
  have hri' : s'.rx / cf.blkSize = advIdx cf.blocks (s.rx / cf.blkSize) := by
    rw [hr, erx, hc.adv_mul, mul_blk_div hc, mul_blk_div hc]
  have hc' : s.count cf = s'.count cf + 1 := by
    simp only [PipeImpl.count, hf, hri', hw, Bool.false_eq_true, if_false]
    cases hfs : s.full
    · have hne : s.rx / cf.blkSize ≠ s.wx / cf.blkSize := fun e => by
        rcases hne with hne | hne
        · exact hne (by rw [erx, ewx, e])
        · rw [hfs] at hne; cases hne
      exact (ringDist_adv_left hri hwi hne).symm
    · rw [← h.full_eq hfs]
      exact (ringDist_adv_self hri).symm
  have hle : s'.count cf + 1 ≤ cf.blocks := by
    rw [← hc']; unfold PipeImpl.count; split
    · exact le_refl _
    · exact (ringDist_lt hri hwi).le
  simp only [PipeImpl.contents, hc', List.range_succ_eq_map, List.map_cons, List.map_map, hb,
    hri', ringIdx_zero hri, ← erx]
  congr 1
  refine List.map_congr_left fun i hi => ?_
  rw [comp_apply, ringIdx_adv (by have := List.mem_range.1 hi; omega)]

/-- `_write_block` on a ring that is not full appends. -/
theorem contents_push (hc : cf.Ok) {s s' : PipeImpl α} (h : RingOk cf s) (hnf : s.full = false)
    (x : α) (hb : s'.buf = update s.buf s.wx x) (hr : s'.rx = s.rx) (hw : s'.wx = cf.adv s.wx)
    (hf : s'.full = decide (s.rx = cf.adv s.wx)) :
    s'.contents cf = s.contents cf ++ [x] := by
  obtain ⟨erx, hri, ewx, hwi⟩ := h.idx hc
  have hadv : cf.adv s.wx = advIdx cf.blocks (s.wx / cf.blkSize) * cf.blkSize := by
    rw [ewx, hc.adv_mul, mul_blk_div hc]
  have hwi' : s'.wx / cf.blkSize = advIdx cf.blocks (s.wx / cf.blkSize) := by
    rw [hw, hadv, mul_blk_div hc]
  have hfull : s'.full = decide (s.rx / cf.blkSize = advIdx cf.blocks (s.wx / cf.blkSize)) := by
    rw [hf, hadv]
    exact decide_eq_decide.2 ⟨fun e => by rw [e, mul_blk_div hc], fun e => by rw [erx, e]⟩
  have hcount : s.count cf = ringDist cf.blocks (s.rx / cf.blkSize) (s.wx / cf.blkSize) := by
    simp [PipeImpl.count, hnf]
  have hc' : s'.count cf = s.count cf + 1 := by
    rw [hcount]
    simp only [PipeImpl.count, hfull, hr, hwi']
    by_cases he : s.rx / cf.blkSize = advIdx cf.blocks (s.wx / cf.blkSize)
    · simp only [he, decide_True, if_true]; rw [← he]; exact (ringDist_adv_full hri he).symm
    · simp only [he, decide_False, Bool.false_eq_true, if_false]
      exact ringDist_adv_right hri he
  rw [PipeImpl.contents, hc', List.range_succ, List.map_append, hr]
  congr 1
  · refine List.map_congr_left fun i hi => ?_
    rw [hb, update_noteq]
    intro e
    rw [ewx] at e
    exact ringIdx_ne hri (hcount ▸ List.mem_range.1 hi) (Nat.eq_of_mul_eq_mul_right hc.blk_pos e)
  · rw [List.map_singleton, hb, hcount, ringIdx_dist hri hwi, ← ewx, update_same]

end Coost.Pipe
