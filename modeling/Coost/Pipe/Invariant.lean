import Coost.Pipe.Basic
import Mathlib.Data.List.Nodup

/-!
# The representation invariant of `pipe_impl`

`_rx` and `_wx` are block offsets of the ring, and `_full` is set only when they meet.  A
waiter in `_wq` whose exchange can still win (`st_wait`, a live waiter) is a reader only while
the ring is empty and the pipe not closed, and a writer only while the ring is full: so a party
stays blocked only while its request cannot be served, and the queue never holds live readers
and live writers together.

The invariant has three parts, each with the lemma that every step uses to keep it:

* `RingOk`: the positions are blocks of the ring (`RingOk.adv`).
* `QueueOk`: the queue has no duplicate and only allocated waitx identities, and no party is
  blocked on an identity not yet allocated (`QueueOk.sub`, `QueueOk.enqueue`).
* `WaitOk`: the live readers and writers against the ring (`WaitOk.transfer`: a step that adds
  no live waiter and keeps the state of the ring for those it keeps).

`step_cases` says once what a step can do (`StepCase`); `step_inv` and the channel invariant of
`Coost.Pipe.Linear` are case analyses over it.  `pipe_waiters_consistent` states the invariant
for every reachable state.
-/

namespace Coost.Pipe

open Function

variable {α : Type}

/-- Waitx `w` is in the queue and its exchange can still win. -/
def Live (s : PipeImpl α) (w : Nat) : Prop := w ∈ s.wq ∧ (s.waitx w).state = .wait

/-! ## Positions -/

/-- The next block after a block below a multiple of the block size is still inside it. -/
theorem add_blk_le {x n b : Nat} (hx : x % b = 0) (hn : n % b = 0) (hlt : x < n) : x + b ≤ n := by
  have ex := Nat.div_add_mod x b
  have en := Nat.div_add_mod n b
  rw [hx, Nat.add_zero] at ex
  rw [hn, Nat.add_zero] at en
  rw [← ex, ← en] at hlt ⊢
  calc b * (x / b) + b = b * (x / b + 1) := (Nat.mul_succ _ _).symm
    _ ≤ b * (n / b) := Nat.mul_le_mul_left _ (Nat.lt_of_mul_lt_mul_left hlt)

/-- The constants of a pipe whose `buf_size` is `k * blk_size` with `k ≥ 1`. -/
structure PipeConf.Ok (cf : PipeConf) : Prop where
  blk_pos : 0 < cf.blkSize
  size_blk : cf.bufSize % cf.blkSize = 0
  size_pos : 0 < cf.bufSize

/-- `_rx` and `_wx` move from block to block inside the ring. -/
theorem PipeConf.Ok.adv {cf : PipeConf} (hc : cf.Ok) {x : Nat} (hx : x % cf.blkSize = 0)
    (hlt : x < cf.bufSize) : cf.adv x % cf.blkSize = 0 ∧ cf.adv x < cf.bufSize := by
  unfold PipeConf.adv
  split
  · exact ⟨Nat.zero_mod _, hc.size_pos⟩
  · have := add_blk_le hx hc.size_blk hlt
    exact ⟨by rw [Nat.add_mod_right]; exact hx, by omega⟩

variable {cf : PipeConf} {s : PipeImpl α}

/-- The positions are blocks of the ring, and `_full` only where they meet. -/
structure RingOk (cf : PipeConf) (s : PipeImpl α) : Prop where
  rx_blk : s.rx % cf.blkSize = 0
  rx_lt : s.rx < cf.bufSize
  wx_blk : s.wx % cf.blkSize = 0
  wx_lt : s.wx < cf.bufSize
  full_eq : s.full = true → s.rx = s.wx

/-- `RingOk` reads only the positions and `_full`. -/
theorem RingOk.of_eq (h : RingOk cf s) {s' : PipeImpl α} (hr : s'.rx = s.rx) (hw : s'.wx = s.wx)
    (hf : s'.full = s.full) : RingOk cf s' := by
  obtain ⟨h1, h2, h3, h4, h5⟩ := h
  exact ⟨hr ▸ h1, hr ▸ h2, hw ▸ h3, hw ▸ h4, hf ▸ hr ▸ hw ▸ h5⟩

/-! ## The queue -/

/-- The queue has no duplicate and holds allocated identities; no party is blocked on an
identity not yet allocated. -/
structure QueueOk (s : PipeImpl α) : Prop where
  nodup : s.wq.Nodup
  fresh : ∀ w ∈ s.wq, w < s.next
  phase_fresh : ∀ q w, (s.phase q).waitx? = some w → w < s.next

/-- A step that keeps part of the queue, allocates nothing and blocks nobody keeps `QueueOk`. -/
theorem QueueOk.sub (h : QueueOk s) {s' : PipeImpl α} (hwq : s'.wq.Sublist s.wq) (hn : s'.next = s.next)
    (hph : ∀ q w, (s'.phase q).waitx? = some w → (s.phase q).waitx? = some w) : QueueOk s' :=
  ⟨h.nodup.sublist hwq, fun w hw => hn ▸ h.fresh w (hwq.subset hw),
    fun q w hq => hn ▸ h.phase_fresh q w (hph q w hq)⟩

theorem QueueOk.enqueue (h : QueueOk s) (q : Party) (x : α) (ph : Nat → Phase)
    (hph : (ph s.next).waitx? = some s.next) : QueueOk (s.enqueue q x ph) := by
  refine ⟨?_, fun w hw => ?_, fun q' w hw => ?_⟩
  · refine List.nodup_append.2 ⟨h.nodup, List.nodup_singleton _, fun a ha hb => ?_⟩
    rw [List.mem_singleton] at hb
    subst hb
    exact Nat.lt_irrefl _ (h.fresh _ ha)
  · simp only [PipeImpl.enqueue, List.mem_append, List.mem_singleton] at hw
    rcases hw with hw | rfl
    · exact Nat.lt_succ_of_lt (h.fresh w hw)
    · exact Nat.lt_succ_self _
  · simp only [PipeImpl.enqueue] at hw ⊢
    by_cases hq : q' = q
    · subst hq; rw [update_same, hph] at hw; cases hw; exact Nat.lt_succ_self _
    · rw [update_noteq hq] at hw; exact Nat.lt_succ_of_lt (h.phase_fresh q' w hw)

/-! ## Live waiters against the ring -/

/-- A live reader finds the ring empty and the pipe not closed; a live writer finds it full. -/
structure WaitOk (s : PipeImpl α) : Prop where
  reader_empty : ∀ q w, s.phase q = .reading w → Live s w →
    s.rx = s.wx ∧ s.full = false ∧ s.closed ≠ 2
  writer_full : ∀ q w, s.phase q = .writing w → Live s w → s.full = true

/-- A step that adds no live waiter keeps `WaitOk` when it keeps an empty ring empty (and the
pipe not closed) and a full ring full. -/
theorem WaitOk.transfer (h : WaitOk s) {s' : PipeImpl α}
    (hr : ∀ q w, s'.phase q = .reading w → Live s' w → s.phase q = .reading w ∧ Live s w)
    (hw : ∀ q w, s'.phase q = .writing w → Live s' w → s.phase q = .writing w ∧ Live s w)
    (he : s.rx = s.wx ∧ s.full = false ∧ s.closed ≠ 2 →
      s'.rx = s'.wx ∧ s'.full = false ∧ s'.closed ≠ 2)
    (hf : s.full = true → s'.full = true) : WaitOk s' :=
  ⟨fun q w hq hl => he (h.reader_empty q w (hr q w hq hl).1 (hr q w hq hl).2),
    fun q w hq hl => hf (h.writer_full q w (hw q w hq hl).1 (hw q w hq hl).2)⟩

/-- The waiter that `enqueue` adds is the only new live waiter. -/
theorem WaitOk.enqueue (h : WaitOk s) (hq : QueueOk s) {q : Party} (hq0 : s.phase q = .idle)
    (x : α) (ph : Nat → Phase)
    (hr : ∀ w, ph s.next = .reading w → s.rx = s.wx ∧ s.full = false ∧ s.closed ≠ 2)
    (hw : ∀ w, ph s.next = .writing w → s.full = true) : WaitOk (s.enqueue q x ph) := by
  have hold : ∀ q' w, q' ≠ q → (s.phase q').waitx? = some w → Live (s.enqueue q x ph) w →
      Live s w := by
    intro q' w hq' hph ⟨hw', hst⟩
    have hne : w ≠ s.next := fun e => Nat.lt_irrefl _ (e ▸ hq.phase_fresh q' w hph)
    simp only [PipeImpl.enqueue, List.mem_append, List.mem_singleton, hne, or_false] at hw'
    simp only [PipeImpl.enqueue, update_noteq hne] at hst
    exact ⟨hw', hst⟩
  constructor
  · intro q' w hph hl
    by_cases hq' : q' = q
    · subst hq'; simp only [PipeImpl.enqueue, update_same] at hph; exact hr w hph
    · simp only [PipeImpl.enqueue, update_noteq hq'] at hph
      exact h.reader_empty q' w hph (hold q' w hq' (by rw [hph]; rfl) hl)
  · intro q' w hph hl
    by_cases hq' : q' = q
    · subst hq'; simp only [PipeImpl.enqueue, update_same] at hph; exact hw w hph
    · simp only [PipeImpl.enqueue, update_noteq hq'] at hph
      exact h.writer_full q' w hph (hold q' w hq' (by rw [hph]; rfl) hl)

/-- `WaitOk.transfer` for a step that moves no party. -/
theorem WaitOk.of_live (h : WaitOk s) {s' : PipeImpl α} (hp : s'.phase = s.phase)
    (hl : ∀ v, Live s' v → Live s v)
    (he : s.rx = s.wx ∧ s.full = false ∧ s.closed ≠ 2 →
      s'.rx = s'.wx ∧ s'.full = false ∧ s'.closed ≠ 2)
    (hf : s.full = true → s'.full = true) : WaitOk s' :=
  h.transfer (fun _ w hq hv => ⟨hp ▸ hq, hl w hv⟩) (fun _ w hq hv => ⟨hp ▸ hq, hl w hv⟩) he hf

/-- An empty queue has no live waiter. -/
theorem WaitOk.of_nil {s' : PipeImpl α} (h : s'.wq = []) : WaitOk s' :=
  ⟨fun _ w _ hl => absurd (h ▸ hl.1) (List.not_mem_nil w),
    fun _ w _ hl => absurd (h ▸ hl.1) (List.not_mem_nil w)⟩

/-- The invariant of a pipe. -/
structure PipeInv (cf : PipeConf) (s : PipeImpl α) : Prop where
  ring : RingOk cf s
  queue : QueueOk s
  wait : WaitOk s

/-! ## The queue loops -/

theorem popLive_some {inf : Bool} {waitx : Nat → Waitx α} :
    ∀ {l : List Nat} {w : Nat} {ws : List Nat}, popLive inf waitx l = (some w, ws) →
    ∃ pre, l = pre ++ w :: ws ∧ (inf = true ∨ (waitx w).state = .wait) ∧
      ∀ v ∈ pre, inf = false ∧ (waitx v).state ≠ .wait
  | [], _, _, h => by simp [popLive] at h
  | v :: vs, w, ws, h => by
    unfold popLive at h
    split at h
    · rename_i hv
      simp only [Prod.mk.injEq, Option.some.injEq] at h
      obtain ⟨rfl, rfl⟩ := h
      exact ⟨[], rfl, by simpa using hv, by simp⟩
    · rename_i hv
      obtain ⟨pre, rfl, hw, hpre⟩ := popLive_some h
      refine ⟨v :: pre, rfl, hw, ?_⟩
      simp only [Bool.or_eq_true, decide_eq_true_eq, not_or, Bool.not_eq_true] at hv
      simpa [hv] using hpre

theorem popLive_none {inf : Bool} {waitx : Nat → Waitx α} :
    ∀ {l : List Nat} {ws : List Nat}, popLive inf waitx l = (none, ws) → ws = []
  | [], _, h => by simp [popLive] at h; exact h
  | v :: vs, ws, h => by
    unfold popLive at h
    split at h
    · simp at h
    · exact popLive_none h

/-- What the pop of a served waiter leaves is part of the queue, without the served one. -/
theorem QueueOk.pop (h : QueueOk s) {w : Nat} {ws : List Nat}
    (hp : popLive cf.inf s.waitx s.wq = (some w, ws)) :
    ws.Sublist s.wq ∧ w ∉ ws := by
  obtain ⟨pre, he, -, -⟩ := popLive_some hp
  have hnd := h.nodup
  rw [he] at hnd ⊢
  exact ⟨(List.sublist_cons_self w ws).trans (List.sublist_append_right pre _),
    (List.nodup_cons.1 (List.nodup_append.1 hnd).2.1).1⟩

/-- After a pop, a waiter live in what is left was live before. -/
theorem live_of_pop {s' : PipeImpl α} {w : Nat} {y : Waitx α} (hwq : s'.wq.Sublist s.wq)
    (hnot : w ∉ s'.wq) (hx : s'.waitx = update s.waitx w y) {v : Nat} (hv : Live s' v) :
    Live s v := by
  obtain ⟨hv, hst⟩ := hv
  have hvw : v ≠ w := fun e => hnot (e ▸ hv)
  rw [hx, update_noteq hvw] at hst
  exact ⟨hwq.subset hv, hst⟩

/-! ## The steps -/

/-- A party leaving its call keeps the invariant. -/
theorem PipeInv.setPhase_idle (h : PipeInv cf s) (q : Party) : PipeInv cf (s.setPhase q .idle) := by
  have hph : ∀ q' ph, (s.setPhase q .idle).phase q' = ph → ph ≠ .idle → s.phase q' = ph := by
    intro q' ph h' hne
    by_cases hq : q' = q
    · subst hq; simp [PipeImpl.setPhase] at h'; exact absurd h'.symm hne
    · simpa [PipeImpl.setPhase, hq] using h'
  refine ⟨h.ring.of_eq rfl rfl rfl, h.queue.sub (List.Sublist.refl _) rfl fun q' w hw => ?_,
    h.wait.transfer (fun q' w hq' hl => ⟨hph q' _ hq' (by simp), hl⟩)
      (fun q' w hq' hl => ⟨hph q' _ hq' (by simp), hl⟩) id id⟩
  cases hp : (s.setPhase q .idle).phase q' with
  | idle => rw [hp] at hw; cases hw
  | reading v => rw [hp] at hw; rw [hph q' _ hp (by simp)]; exact hw
  | writing v => rw [hp] at hw; rw [hph q' _ hp (by simp)]; exact hw

/-- A lost exchange `wait → timeout` turns a waiter into a tombstone. -/
theorem PipeInv.timeout (h : PipeInv cf s) (w : Nat) :
    PipeInv cf (s.setWaitx w { s.waitx w with state := .timeout }) := by
  have hl : ∀ v, Live (s.setWaitx w { s.waitx w with state := .timeout }) v → Live s v := by
    rintro v ⟨hv, hst⟩
    by_cases hvw : v = w
    · subst hvw; simp [PipeImpl.setWaitx] at hst
    · exact ⟨hv, by simpa [PipeImpl.setWaitx, hvw] using hst⟩
  exact ⟨h.ring.of_eq rfl rfl rfl, h.queue.sub (List.Sublist.refl _) rfl fun _ _ => id,
    h.wait.transfer (fun q v hq hv => ⟨hq, hl v hv⟩) (fun q v hq hv => ⟨hq, hl v hv⟩) id id⟩

theorem read_inv [Inhabited α] (hc : cf.Ok) (h : PipeInv cf s) {q : Party}
    (hq : s.phase q = .idle) : PipeInv cf (s.read cf q).1 := by
  obtain ⟨hr, hqk, hw⟩ := h
  unfold PipeImpl.read
  split
  · rename_i hne
    have hf : s.full = false := Bool.eq_false_iff.2 fun hf => hne (hr.full_eq hf)
    obtain ⟨ha, hb⟩ := hc.adv hr.rx_blk hr.rx_lt
    exact ⟨⟨ha, hb, hr.wx_blk, hr.wx_lt,
      fun h' => absurd h' (by simp [PipeImpl.readBlock, hf])⟩,
      hqk.sub (List.Sublist.refl _) rfl fun _ _ => id,
      hw.of_live rfl (fun _ => id) (fun he => absurd he.1 hne) fun h' => absurd (hr.full_eq h') hne⟩
  · rename_i hne
    have heq : s.rx = s.wx := not_not.1 hne
    split
    · rename_i hfull
      obtain ⟨ha, hb⟩ := hc.adv hr.rx_blk hr.rx_lt
      obtain ⟨hc, hd⟩ := hc.adv hr.wx_blk hr.wx_lt
      split
      · rename_i w ws hp
        obtain ⟨hsub, hnot⟩ := hqk.pop hp
        exact ⟨⟨ha, hb, hc, hd,
          fun _ => by simp [PipeImpl.readBlock, PipeImpl.writeBlock, PipeConf.adv, heq]⟩,
          hqk.sub hsub rfl fun _ _ => id,
          hw.of_live rfl (fun v hv => live_of_pop hsub hnot rfl hv)
            (fun he => absurd hfull (by simp [he.2.1])) fun _ => hfull⟩
      · exact ⟨⟨ha, hb, hr.wx_blk, hr.wx_lt,
          fun h' => by cases h'⟩, hqk.sub (List.nil_sublist _) rfl fun _ _ => id, WaitOk.of_nil rfl⟩
    · rename_i hfull
      split
      · exact ⟨hr, hqk, hw⟩
      · rename_i hc
        refine ⟨hr.of_eq rfl rfl rfl, hqk.enqueue q _ _ rfl,
          hw.enqueue hqk hq _ _ (fun _ _ => ⟨heq, by simpa using hfull, by simp_all⟩)
            fun _ h' => by cases h'⟩

theorem write_inv (hc : cf.Ok) (h : PipeInv cf s) {q : Party} (hq : s.phase q = .idle) (x : α) :
    PipeInv cf (s.write cf q x).1 := by
  obtain ⟨hr, hqk, hw⟩ := h
  unfold PipeImpl.write
  split
  · exact ⟨hr, hqk, hw⟩
  · obtain ⟨hc, hd⟩ := hc.adv hr.wx_blk hr.wx_lt
    split
    · rename_i hne
      have hf : s.full = false := Bool.eq_false_iff.2 fun hf => hne (hr.full_eq hf)
      exact ⟨⟨hr.rx_blk, hr.rx_lt, hc, hd,
        fun h' => by simpa [PipeImpl.writeBlock, hf] using h'⟩,
        hqk.sub (List.Sublist.refl _) rfl fun _ _ => id,
        hw.of_live rfl (fun _ => id) (fun he => absurd he.1 hne) fun h' => absurd (hr.full_eq h') hne⟩
    · rename_i hne
      split
      · rename_i hnf
        have hf : s.full = false := by simpa using hnf
        split
        · rename_i w ws hp
          obtain ⟨hsub, hnot⟩ := hqk.pop hp
          exact ⟨hr.of_eq rfl rfl rfl, hqk.sub hsub rfl fun _ _ => id,
            hw.of_live rfl (fun v hv => live_of_pop hsub hnot rfl hv) id id⟩
        · exact ⟨⟨hr.rx_blk, hr.rx_lt, hc, hd,
            fun h' => by simpa [PipeImpl.writeBlock, hf] using h'⟩,
            hqk.sub (List.nil_sublist _) rfl fun _ _ => id, WaitOk.of_nil rfl⟩
      · rename_i hnf
        have hf : s.full = true := by simpa using hnf
        exact ⟨hr.of_eq rfl rfl rfl, hqk.enqueue q _ _ rfl,
          hw.enqueue hqk hq _ _ (fun _ h' => by cases h') fun _ _ => hf⟩

/-- `close()` wakes every queued waiter whose exchange `wait → ready` wins, and only those. -/
theorem closeAll_apply (waitx : Nat → Waitx α) (l : List Nat) (w : Nat) :
    closeAll waitx l w =
      if w ∈ l ∧ (waitx w).state = .wait then ⟨.ready, 2, (waitx w).val⟩ else waitx w := by
  induction l generalizing waitx with
  | nil => simp [closeAll]
  | cons v vs ih =>
    rw [closeAll, ih]
    by_cases hw : w = v
    · subst hw
      by_cases hv : (waitx w).state = .wait <;> simp [hv]
    · by_cases hv : (waitx v).state = .wait <;> simp [hv, hw, update_noteq hw]

theorem closeEnd_inv (h : PipeInv cf s) : PipeInv cf s.closeEnd := by
  obtain ⟨hr, hqk, hw⟩ := h
  unfold PipeImpl.closeEnd
  split
  · exact ⟨hr.of_eq rfl rfl rfl, hqk.sub (List.nil_sublist _) rfl fun _ _ => id,
      WaitOk.of_nil rfl⟩
  · rename_i hne
    exact ⟨hr.of_eq rfl rfl rfl, hqk.sub (List.Sublist.refl _) rfl fun _ _ => id,
      hw.of_live rfl (fun _ => id) (fun he => absurd ⟨he.1, he.2.1⟩ hne) id⟩

/-- What one step of a pipe does, case by case: a call, the two halves of `close()`, or a
blocked party's timer or return.  `step_cases` inverts `step` into these. -/
inductive StepCase [Inhabited α] (cf : PipeConf) (s : PipeImpl α) :
    Action α → PipeImpl α × List (Event α) → Prop
  | read (q : Party) (hq : s.phase q = .idle) : StepCase cf s (.read q) (s.read cf q)
  | write (q : Party) (x : α) (hq : s.phase q = .idle) : StepCase cf s (.write q x) (s.write cf q x)
  | closeBegin (h : s.closed = 0) : StepCase cf s .closeBegin ({ s with closed := 1 }, [])
  | closeEnd (h : s.closed = 1) : StepCase cf s .closeEnd (s.closeEnd, [])
  /-- The exchange `wait → timeout` of blocked party `q` wins. -/
  | expire {a : Action α} (ha : ∀ q x, a ≠ .write q x) (q : Party) {w : Nat}
      (hw : (s.phase q).waitx? = some w) (hi : cf.inf = false) (hst : (s.waitx w).state = .wait) :
      StepCase cf s a (s.setWaitx w { s.waitx w with state := .timeout }, [])
  /-- Blocked party `q` returns after its exchange `wait → timeout` won. -/
  | fail {a : Action α} (ha : ∀ q x, a ≠ .write q x) (q : Party) {w : Nat}
      (hw : (s.phase q).waitx? = some w) (hst : (s.waitx w).state = .timeout) :
      StepCase cf s a (s.fail q (s.phase q) w)
  /-- Blocked party `q` returns after it was served or closed. -/
  | finish {a : Action α} (ha : ∀ q x, a ≠ .write q x) (q : Party) {w : Nat}
      (hw : (s.phase q).waitx? = some w) (hd : (s.waitx w).done ≠ 0) :
      StepCase cf s a (s.finish q (s.phase q) w)
  /-- A blocked thread's `wait_for` times out and its exchange `wait → timeout` wins. -/
  | expireFail {a : Action α} (ha : ∀ q x, a ≠ .write q x) (q : Party) {w : Nat}
      (hw : (s.phase q).waitx? = some w) (hi : cf.inf = false) (hst : (s.waitx w).state = .wait) :
      StepCase cf s a ((s.setWaitx w { s.waitx w with state := .timeout }).fail q (s.phase q) w)
  /-- A thread wakes with nothing to return, or `close()` finds the pipe closing. -/
  | stay {a : Action α} (ha : ∀ q x, a ≠ .write q x) : StepCase cf s a (s, [])

theorem step_cases [Inhabited α] {a : Action α} {r : PipeImpl α × List (Event α)}
    (hs : step cf s a = some r) : StepCase cf s a r := by
  cases a with
  | read q =>
    simp only [step] at hs
    split at hs
    · cases hs; exact .read q ‹_›
    · cases hs
  | write q x =>
    simp only [step] at hs
    split at hs
    · cases hs; exact .write q x ‹_›
    · cases hs
  | closeBegin =>
    simp only [step, Option.some.injEq] at hs
    subst hs
    split
    · exact .closeBegin ‹_›
    · exact .stay nofun
  | closeEnd =>
    simp only [step] at hs
    split at hs
    · cases hs; exact .closeEnd ‹_›
    · cases hs
  | expire c =>
    simp only [step, PipeImpl.expire] at hs
    split at hs
    · cases hs
    · split at hs
      · rename_i hi
        simp only [Bool.and_eq_true, Bool.not_eq_true', decide_eq_true_eq] at hi
        cases hs; exact .expire nofun _ ‹_› hi.1 hi.2
      · cases hs
  | resume c =>
    simp only [step, PipeImpl.resumeCo] at hs
    split at hs
    · cases hs
    · split at hs
      · cases hs; exact .fail nofun _ ‹_› ‹_›
      · split at hs
        · cases hs; exact .finish nofun _ ‹_› ‹_›
        · cases hs
  | wake t =>
    simp only [step, PipeImpl.wakeThread] at hs
    split at hs
    · cases hs
    · cases hs
      split
      · exact .finish nofun _ ‹_› ‹_›
      · exact .stay nofun
  | timeout t =>
    simp only [step, PipeImpl.timeoutThread] at hs
    split at hs
    · cases hs
    · split at hs
      · cases hs
      · rename_i hi
        split at hs
        · cases hs; exact .expireFail nofun _ ‹_› (by simpa using hi) ‹_›
        · cases hs
          split
          · exact .finish nofun _ ‹_› ‹_›
          · exact .stay nofun

/-- Every step keeps the invariant. -/
theorem step_inv [Inhabited α] (hc : cf.Ok) (h : PipeInv cf s) {a : Action α}
    {r : PipeImpl α × List (Event α)} (hs : step cf s a = some r) : PipeInv cf r.1 := by
  cases step_cases hs with
  | read q hq => exact read_inv hc h hq
  | write q x hq => exact write_inv hc h hq x
  | closeBegin =>
    exact ⟨h.ring.of_eq rfl rfl rfl, h.queue.sub (List.Sublist.refl _) rfl fun _ _ => id,
      h.wait.of_live rfl (fun _ => id) (fun he => ⟨he.1, he.2.1, by simp⟩) id⟩
  | closeEnd => exact closeEnd_inv h
  | expire _ q => exact h.timeout _
  | fail _ q => exact h.setPhase_idle q
  | finish _ q => exact h.setPhase_idle q
  | expireFail _ q => exact (h.timeout _).setPhase_idle q
  | stay => exact h

theorem run_inv [Inhabited α] (hc : cf.Ok) : ∀ (as : List (Action α)) {s : PipeImpl α}
    {r : PipeImpl α × List (Event α)}, PipeInv cf s → run cf s as = some r → PipeInv cf r.1
  | [], _, _, h, hs => by cases hs; exact h
  | a :: as, _, _, h, hs => by
    simp only [run, Option.bind_eq_some, Option.map_eq_some'] at hs
    obtain ⟨r1, h1, r2, h2, rfl⟩ := hs
    have := run_inv hc as (step_inv hc h h1) h2
    exact this

theorem make_inv [Inhabited α] (hc : cf.Ok) : PipeInv cf (PipeImpl.make : PipeImpl α) :=
  ⟨⟨Nat.zero_mod _, hc.size_pos, Nat.zero_mod _, hc.size_pos, fun h => by cases h⟩,
    ⟨List.nodup_nil, fun _ h => (by cases h), fun _ _ h => (by cases h)⟩,
    WaitOk.of_nil rfl⟩

/-! ## Every run -/

/-- The representation invariant of a pipe with `buf_size = k * blk_size`, `k ≥ 1`, in every
reachable state: `_rx` and `_wx` are blocks of the ring, `_full` only where they meet, a live
reader only on an empty pipe that is not closed, a live writer only on a full one, and never
both at once. -/
theorem pipe_waiters_consistent [Inhabited α] (k blk ms : Nat) (hk : 0 < k) (hb : 0 < blk)
    (as : List (Action α)) (s : PipeImpl α) (tr : List (Event α))
    (h : run ⟨k * blk, blk, ms⟩ PipeImpl.make as = some (s, tr)) :
    s.rx % blk = 0 ∧ s.rx < k * blk ∧ s.wx % blk = 0 ∧ s.wx < k * blk ∧
    (s.full = true → s.rx = s.wx) ∧
    (∀ q w, s.phase q = .reading w → Live s w → s.rx = s.wx ∧ s.full = false ∧ s.closed ≠ 2) ∧
    (∀ q w, s.phase q = .writing w → Live s w → s.full = true) ∧
    ¬((∃ q w, s.phase q = .reading w ∧ Live s w) ∧ (∃ q w, s.phase q = .writing w ∧ Live s w)) := by
  have hc : PipeConf.Ok ⟨k * blk, blk, ms⟩ := ⟨hb, Nat.mul_mod_left k blk, Nat.mul_pos hk hb⟩
  obtain ⟨hr, -, hw⟩ := run_inv hc as (make_inv hc) h
  refine ⟨hr.rx_blk, hr.rx_lt, hr.wx_blk, hr.wx_lt, hr.full_eq, hw.reader_empty, hw.writer_full, ?_⟩
  rintro ⟨⟨q, w, hq, hl⟩, ⟨q', w', hq', hl'⟩⟩
  have := (hw.reader_empty q w hq hl).2.1
  rw [hw.writer_full q' w' hq' hl'] at this
  cases this

/-- A pipe of two blocks of 4 bytes, filled by two coroutines; a third blocks as a live
writer. -/
theorem pipe_waiters_consistent_blocked_writer : ∃ s tr,
    run ⟨2 * 4, 4, msInfinite⟩ PipeImpl.make
      [.write (.co 1) 5, .write (.co 2) 6, .write (.co 3) (7 : Nat)] = some (s, tr) ∧
    (s.rx % 4 = 0 ∧ s.rx < 2 * 4 ∧ s.wx % 4 = 0 ∧ s.wx < 2 * 4 ∧
    (s.full = true → s.rx = s.wx) ∧
    (∀ q w, s.phase q = .reading w → Live s w → s.rx = s.wx ∧ s.full = false ∧ s.closed ≠ 2) ∧
    (∀ q w, s.phase q = .writing w → Live s w → s.full = true) ∧
    ¬((∃ q w, s.phase q = .reading w ∧ Live s w) ∧ (∃ q w, s.phase q = .writing w ∧ Live s w))) :=
  ⟨_, _, rfl, pipe_waiters_consistent 2 4 msInfinite (by decide) (by decide)
    [.write (.co 1) 5, .write (.co 2) 6, .write (.co 3) 7] _ _ rfl⟩

end Coost.Pipe