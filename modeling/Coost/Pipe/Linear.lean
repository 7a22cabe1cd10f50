import Coost.Pipe.Ring
import Coost.Pipe.Failure

/-!
# A pipe is a bounded FIFO queue with close

The events of a run say what the channel did: `commit x` when an element enters it (appended to
the ring, or handed to a waiting reader), `receive x` when a reader takes one, and the returns
of the calls.  Against them a pipe behaves as a FIFO queue whose contents are the ring:

* the received elements followed by the ring are exactly the committed ones, in order
  (`Ledger.fifo`), so the ring holds committed writes minus successful reads;
* each element is committed at most once; each write returns once, `false` when it committed
  nothing and `true` when it committed its element, and every committed element belongs to a
  write that returned `true` or to a blocked writer that was served and will (`Writes`);
* each read that returns `true` returns a received element, no two return the same one, and
  every received element is returned or held by a served reader (`Reads`);
* a call fails only once `close()` has begun or when the pipe has a timeout
  (`Coost.Pipe.Failure`).

Elements are told apart by value: the statement assumes the elements written are distinct, as
tagging each write would make them.  The pipe never inspects an element, it only moves it.

`ChanInv` is `PipeInv` with the `Ledger`: the shape of the queue (`Shape`), the FIFO equation,
and the accounting of writes and reads.  Each group has one lemma per kind of transition
(`Writes.push`, `Reads.handoff`, ...); `ChanInv.take`, `refill`, `push`, `handoff`, `close`,
`timeout`, `finish` and `fail` assemble them per transition, `step_chanInv` follows
`step_cases`, and `pipe_linearizable` states the invariant for every reachable state.
-/

namespace Coost.Pipe

open Function

variable {α : Type}

/-! ## The observations -/

/-- The elements committed to the channel, in order. -/
def committed : List (Event α) → List α
  | [] => []
  | .commit x :: es => x :: committed es
  | _ :: es => committed es

/-- The elements received from the channel, in order. -/
def received : List (Event α) → List α
  | [] => []
  | .receive x :: es => x :: received es
  | _ :: es => received es

/-- The elements returned by the reads that succeeded. -/
def readValues : List (Event α) → List α
  | [] => []
  | .readDone _ true (some x) :: es => x :: readValues es
  | _ :: es => readValues es

/-- The elements of the writes that returned. -/
def doneValues : List (Event α) → List α
  | [] => []
  | .writeDone _ _ x :: es => x :: doneValues es
  | _ :: es => doneValues es

/-- The elements of the writes of an interleaving. -/
def written : List (Action α) → List α
  | [] => []
  | .write _ x :: as => x :: written as
  | _ :: as => written as

@[simp] theorem committed_append (l l' : List (Event α)) :
    committed (l ++ l') = committed l ++ committed l' := by
  induction l with
  | nil => rfl
  | cons e es ih => cases e <;> simp [committed, ih]

@[simp] theorem received_append (l l' : List (Event α)) :
    received (l ++ l') = received l ++ received l' := by
  induction l with
  | nil => rfl
  | cons e es ih => cases e <;> simp [received, ih]

@[simp] theorem readValues_append (l l' : List (Event α)) :
    readValues (l ++ l') = readValues l ++ readValues l' := by
  induction l with
  | nil => rfl
  | cons e es ih =>
    cases e with
    | readDone q ok x => cases ok <;> cases x <;> simp [readValues, ih]
    | _ => simp [readValues, ih]

@[simp] theorem doneValues_append (l l' : List (Event α)) :
    doneValues (l ++ l') = doneValues l ++ doneValues l' := by
  induction l with
  | nil => rfl
  | cons e es ih => cases e <;> simp [doneValues, ih]

theorem mem_doneValues {l : List (Event α)} {x : α} :
    x ∈ doneValues l ↔ ∃ q b, .writeDone q b x ∈ l := by
  induction l with
  | nil => simp [doneValues]
  | cons e es ih =>
    cases e with
    | writeDone q b y =>
      simp only [doneValues, List.mem_cons, ih, Event.writeDone.injEq]
      constructor
      · rintro (rfl | ⟨q', b', h⟩)
        · exact ⟨q, b, .inl ⟨rfl, rfl, rfl⟩⟩
        · exact ⟨q', b', .inr h⟩
      · rintro ⟨q', b', ⟨-, -, rfl⟩ | h⟩
        · exact .inl rfl
        · exact .inr ⟨q', b', h⟩
    | _ => simp only [doneValues, ih, List.mem_cons, reduceCtorEq, false_or]

theorem doneValues_eq_nil {l : List (Event α)} (h : ∀ q b x, .writeDone q b x ∉ l) :
    doneValues l = [] :=
  List.eq_nil_iff_forall_not_mem.2 fun x hx => by
    obtain ⟨q, b, hm⟩ := mem_doneValues.1 hx
    exact h q b x hm

theorem nodup_append_singleton {l : List α} {x : α} (h : l.Nodup) (hx : x ∉ l) :
    (l ++ [x]).Nodup := by
  rw [← List.concat_eq_append]
  exact h.concat hx

/-! ## What the blocked parties hold -/

namespace PipeImpl

/-- `x.done` and the element of the waitx a blocked writer waits on. -/
def blockedWrite (s : PipeImpl α) (q : Party) : Option (Nat × α) :=
  match s.phase q with
  | .writing w => some ((s.waitx w).done, (s.waitx w).val)
  | _ => none

/-- `x.done` and the element of the waitx a blocked reader waits on. -/
def blockedRead (s : PipeImpl α) (q : Party) : Option (Nat × α) :=
  match s.phase q with
  | .reading w => some ((s.waitx w).done, (s.waitx w).val)
  | _ => none

end PipeImpl

section Views

variable {s s' : PipeImpl α} {q : Party}

/-- What a blocked writer holds depends only on its phase and on the `done` and the element of
the record it waits on. -/
theorem blockedWrite_congr (hp : s'.phase q = s.phase q)
    (hw : ∀ w, s.phase q = .writing w →
      (s'.waitx w).done = (s.waitx w).done ∧ (s'.waitx w).val = (s.waitx w).val) :
    s'.blockedWrite q = s.blockedWrite q := by
  unfold PipeImpl.blockedWrite
  rw [hp]
  cases h : s.phase q with
  | writing w => simp only [(hw w h).1, (hw w h).2]
  | _ => rfl

theorem blockedRead_congr (hp : s'.phase q = s.phase q)
    (hw : ∀ w, s.phase q = .reading w →
      (s'.waitx w).done = (s.waitx w).done ∧ (s'.waitx w).val = (s.waitx w).val) :
    s'.blockedRead q = s.blockedRead q := by
  unfold PipeImpl.blockedRead
  rw [hp]
  cases h : s.phase q with
  | reading w => simp only [(hw w h).1, (hw w h).2]
  | _ => rfl

theorem blockedWrite_eq_of (hp : s'.phase = s.phase) (hw : s'.waitx = s.waitx) :
    s'.blockedWrite = s.blockedWrite :=
  funext fun _ => blockedWrite_congr (congrFun hp _) fun w _ => by rw [hw]; exact ⟨rfl, rfl⟩

theorem blockedRead_eq_of (hp : s'.phase = s.phase) (hw : s'.waitx = s.waitx) :
    s'.blockedRead = s.blockedRead :=
  funext fun _ => blockedRead_congr (congrFun hp _) fun w _ => by rw [hw]; exact ⟨rfl, rfl⟩

theorem blockedWrite_of_idle (hq : s.phase q = .idle) : s.blockedWrite q = none := by
  simp [PipeImpl.blockedWrite, hq]

theorem blockedRead_of_idle (hq : s.phase q = .idle) : s.blockedRead q = none := by
  simp [PipeImpl.blockedRead, hq]

theorem blockedWrite_of_reading {w : Nat} (hq : s.phase q = .reading w) :
    s.blockedWrite q = none := by
  simp [PipeImpl.blockedWrite, hq]

theorem blockedRead_of_writing {w : Nat} (hq : s.phase q = .writing w) :
    s.blockedRead q = none := by
  simp [PipeImpl.blockedRead, hq]

theorem blockedWrite_of_writing {w : Nat} (hq : s.phase q = .writing w) :
    s.blockedWrite q = some ((s.waitx w).done, (s.waitx w).val) := by
  simp [PipeImpl.blockedWrite, hq]

theorem blockedRead_of_reading {w : Nat} (hq : s.phase q = .reading w) :
    s.blockedRead q = some ((s.waitx w).done, (s.waitx w).val) := by
  simp [PipeImpl.blockedRead, hq]

/-- A party that leaves its call holds nothing. -/
theorem blockedWrite_setPhase_idle (q : Party) :
    (s.setPhase q .idle).blockedWrite = update s.blockedWrite q none := by
  funext q'
  by_cases hq : q' = q
  · subst hq; simp [PipeImpl.blockedWrite, PipeImpl.setPhase]
  · rw [update_noteq hq]
    exact blockedWrite_congr (by simp [PipeImpl.setPhase, hq]) fun _ _ => ⟨rfl, rfl⟩

theorem blockedRead_setPhase_idle (q : Party) :
    (s.setPhase q .idle).blockedRead = update s.blockedRead q none := by
  funext q'
  by_cases hq : q' = q
  · subst hq; simp [PipeImpl.blockedRead, PipeImpl.setPhase]
  · rw [update_noteq hq]
    exact blockedRead_congr (by simp [PipeImpl.setPhase, hq]) fun _ _ => ⟨rfl, rfl⟩

/-- A lost exchange `wait → timeout` changes no `done` and no element. -/
theorem timeout_done_val (w v : Nat) :
    ((s.setWaitx w { s.waitx w with state := .timeout }).waitx v).done = (s.waitx v).done ∧
    ((s.setWaitx w { s.waitx w with state := .timeout }).waitx v).val = (s.waitx v).val := by
  by_cases hv : v = w
  · subst hv; simp [PipeImpl.setWaitx]
  · simp [PipeImpl.setWaitx, update_noteq hv]

end Views

/-! ## The invariant -/

/-- The shape of the queue and of the blocked parties' waitx records. -/
structure Shape (cf : PipeConf) (s : PipeImpl α) : Prop where
  /-- Queued waiters are not served yet. -/
  pending : ∀ w ∈ s.wq, (s.waitx w).done = 0
  /-- A queued waiter that can still win belongs to a blocked party. -/
  owned : ∀ w ∈ s.wq, (s.waitx w).state = .wait → ∃ q, (s.phase q).waitx? = some w
  /-- Without a timeout no queued waiter loses. -/
  inf_wait : cf.inf = true → ∀ w ∈ s.wq, (s.waitx w).state = .wait
  /-- Two parties are never blocked on one waitx. -/
  unique : ∀ q q' w, (s.phase q).waitx? = some w → (s.phase q').waitx? = some w → q = q'
  /-- A blocked party whose exchange `wait → timeout` won was not served. -/
  timeout_pending : ∀ q w, (s.phase q).waitx? = some w → (s.waitx w).state = .timeout →
    (s.waitx w).done = 0
  /-- With a timeout, a served waiter has left `st_wait`. -/
  wait_pending : cf.inf = false → ∀ q w, (s.phase q).waitx? = some w →
    (s.waitx w).state = .wait → (s.waitx w).done = 0

/-- The accounting of the writes: `W` are the elements written so far. -/
structure Writes (s : PipeImpl α) (tr : List (Event α)) (W : List α) : Prop where
  commit_nodup : (committed tr).Nodup
  commit_mem : ∀ x ∈ committed tr, x ∈ W
  /-- A blocked writer holds one of the written elements, committed exactly once it is
  served. -/
  writer_mem : ∀ q d x, s.blockedWrite q = some (d, x) → x ∈ W ∧ (d = 0 ↔ x ∉ committed tr)
  writer_distinct : ∀ q q' d d' x, s.blockedWrite q = some (d, x) →
    s.blockedWrite q' = some (d', x) → q = q'
  /-- A write that returned wrote one of the written elements and returned whether it was
  committed. -/
  done_mem : ∀ q b x, .writeDone q b x ∈ tr → x ∈ W ∧ (b = true ↔ x ∈ committed tr)
  /-- A blocked writer has not returned. -/
  done_fresh : ∀ q d x q' b, s.blockedWrite q = some (d, x) → .writeDone q' b x ∉ tr
  /-- A committed element's write returned `true`, or it is blocked and was served. -/
  commit_done : ∀ x ∈ committed tr, (∃ q, .writeDone q true x ∈ tr) ∨
    ∃ q d, s.blockedWrite q = some (d, x) ∧ d ≠ 0
  /-- Each write returns once. -/
  done_nodup : (doneValues tr).Nodup

/-- The accounting of the reads. -/
structure Reads (s : PipeImpl α) (tr : List (Event α)) : Prop where
  read_mem : ∀ x ∈ readValues tr, x ∈ received tr
  read_nodup : (readValues tr).Nodup
  /-- A blocked reader that was served holds a received element no read returned yet. -/
  reader_served : ∀ q x, s.blockedRead q = some (1, x) → x ∈ received tr ∧ x ∉ readValues tr
  reader_distinct : ∀ q q' x, s.blockedRead q = some (1, x) → s.blockedRead q' = some (1, x) →
    q = q'
  /-- A received element was returned by a read, or is held by a served reader. -/
  received_done : ∀ x ∈ received tr, x ∈ readValues tr ∨ ∃ q, s.blockedRead q = some (1, x)

/-- The accounting of a pipe with constants `cf` in state `s` against the events `tr` of a run
whose writes wrote `W`. -/
structure Ledger (cf : PipeConf) (s : PipeImpl α) (tr : List (Event α)) (W : List α) :
    Prop where
  shape : Shape cf s
  /-- The received elements followed by the ring are the committed ones. -/
  fifo : received tr ++ s.contents cf = committed tr
  writes : Writes s tr W
  reads : Reads s tr

/-- The channel invariant: the representation invariant and the accounting. -/
structure ChanInv (cf : PipeConf) (s : PipeImpl α) (tr : List (Event α)) (W : List α) :
    Prop where
  pipe : PipeInv cf s
  ledger : Ledger cf s tr W

variable {cf : PipeConf} {s : PipeImpl α} {tr : List (Event α)} {W : List α}

/-- The waiter a reader serves on a full ring is a blocked writer. -/
theorem ChanInv.pop_writer (h : ChanInv cf s tr W) (hfull : s.full = true) {w : Nat}
    {ws : List Nat} (hp : popLive cf.inf s.waitx s.wq = (some w, ws)) :
    ∃ q, s.phase q = .writing w := by
  obtain ⟨pre, he, hlive, -⟩ := popLive_some hp
  have hw : w ∈ s.wq := by rw [he]; simp
  have hst : (s.waitx w).state = .wait := by
    rcases hlive with hi | hst
    · exact h.ledger.shape.inf_wait hi w hw
    · exact hst
  obtain ⟨q, hq⟩ := h.ledger.shape.owned w hw hst
  cases hph : s.phase q with
  | idle => rw [hph] at hq; cases hq
  | reading v =>
    rw [hph] at hq; cases hq
    have := (h.pipe.wait.reader_empty q w hph ⟨hw, hst⟩).2.1
    rw [hfull] at this; cases this
  | writing v => rw [hph] at hq; cases hq; exact ⟨q, hph⟩

/-- The waiter a writer serves on an empty ring is a blocked reader. -/
theorem ChanInv.pop_reader (h : ChanInv cf s tr W) (hfull : s.full = false) {w : Nat}
    {ws : List Nat} (hp : popLive cf.inf s.waitx s.wq = (some w, ws)) :
    ∃ q, s.phase q = .reading w := by
  obtain ⟨pre, he, hlive, -⟩ := popLive_some hp
  have hw : w ∈ s.wq := by rw [he]; simp
  have hst : (s.waitx w).state = .wait := by
    rcases hlive with hi | hst
    · exact h.ledger.shape.inf_wait hi w hw
    · exact hst
  obtain ⟨q, hq⟩ := h.ledger.shape.owned w hw hst
  cases hph : s.phase q with
  | idle => rw [hph] at hq; cases hq
  | reading v => rw [hph] at hq; cases hq; exact ⟨q, hph⟩
  | writing v =>
    rw [hph] at hq; cases hq
    have := h.pipe.wait.writer_full q w hph ⟨hw, hst⟩
    rw [hfull] at this; cases this

/-! ## The accounting of the writes -/

section WritesSteps

variable {s s' : PipeImpl α} {tr es : List (Event α)} {W : List α}

/-- `Writes` reads the state only through the blocked writers. -/
theorem Writes.of_view (h : Writes s tr W) (hv : s'.blockedWrite = s.blockedWrite) :
    Writes s' tr W := by
  obtain ⟨h1, h2, h3, h4, h5, h6, h7, h8⟩ := h
  exact ⟨h1, h2, hv ▸ h3, hv ▸ h4, h5, hv ▸ h6, hv ▸ h7, h8⟩

/-- A step that commits nothing, returns no write and keeps the blocked writers. -/
theorem Writes.frame (h : Writes s tr W) (hv : s'.blockedWrite = s.blockedWrite)
    (hc : committed es = []) (hd : ∀ q b x, .writeDone q b x ∉ es) : Writes s' (tr ++ es) W := by
  have hm : ∀ q b x, .writeDone q b x ∈ tr ++ es ↔ .writeDone q b x ∈ tr := fun q b x => by
    simp [hd q b x]
  have hC : committed (tr ++ es) = committed tr := by rw [committed_append, hc, List.append_nil]
  obtain ⟨h1, h2, h3, h4, h5, h6, h7, h8⟩ := h.of_view hv
  refine ⟨hC ▸ h1, hC ▸ h2, hC ▸ h3, h4, fun q b x hx => hC ▸ h5 q b x ((hm q b x).1 hx),
    fun q d x q' b hq hx => h6 q d x q' b hq ((hm q' b x).1 hx), fun x hx => ?_,
    by rw [doneValues_append, doneValues_eq_nil hd, List.append_nil]; exact h8⟩
  simp only [hm]
  exact h7 x (hC ▸ hx)

/-- A write of a new element `x` that commits it and returns `true`. -/
theorem Writes.push (h : Writes s tr W) (q : Party) {x : α} (hx : x ∉ W)
    (hv : s'.blockedWrite = s.blockedWrite) (hc : committed es = [x]) (hdv : doneValues es = [x])
    (hd : ∀ q' b y, .writeDone q' b y ∈ es ↔ q' = q ∧ b = true ∧ y = x) :
    Writes s' (tr ++ es) (W ++ [x]) := by
  have hC : committed (tr ++ es) = committed tr ++ [x] := by rw [committed_append, hc]
  have hmem : ∀ y ∈ W, y ∈ committed tr ++ [x] ↔ y ∈ committed tr := fun y hy => by
    have hyx : y ≠ x := fun e => hx (e ▸ hy)
    simp [hyx]
  refine Writes.of_view ⟨?_, fun y hy => ?_, fun q' d y hq' => ?_, h.writer_distinct,
    fun q' b y hy => ?_, fun q' d y q'' b hq' hy => ?_, fun y hy => ?_, ?_⟩ hv
  · rw [hC]
    exact nodup_append_singleton h.commit_nodup fun hm => hx (h.commit_mem x hm)
  · rw [hC, List.mem_append, List.mem_singleton] at hy
    rcases hy with hy | rfl
    · exact List.mem_append_left _ (h.commit_mem y hy)
    · exact List.mem_append_right _ (List.mem_singleton_self y)
  · obtain ⟨hy, hd'⟩ := h.writer_mem q' d y hq'
    rw [hC, hmem y hy]
    exact ⟨List.mem_append_left _ hy, hd'⟩
  · rw [hC]
    rcases List.mem_append.1 hy with hy | hy
    · obtain ⟨hyW, hb⟩ := h.done_mem q' b y hy
      exact ⟨List.mem_append_left _ hyW, by rw [hmem y hyW]; exact hb⟩
    · obtain ⟨-, rfl, rfl⟩ := (hd q' b y).1 hy
      simp
  · rcases List.mem_append.1 hy with hy | hy
    · exact h.done_fresh q' d y q'' b hq' hy
    · obtain ⟨-, -, rfl⟩ := (hd q'' b y).1 hy
      exact hx (h.writer_mem q' d _ hq').1
  · rw [hC, List.mem_append, List.mem_singleton] at hy
    rcases hy with hy | rfl
    · rcases h.commit_done y hy with ⟨q', hq'⟩ | hb
      · exact .inl ⟨q', List.mem_append_left _ hq'⟩
      · exact .inr hb
    · exact .inl ⟨q, List.mem_append_right _ ((hd q true y).2 ⟨rfl, rfl, rfl⟩)⟩
  · rw [doneValues_append, hdv]
    refine nodup_append_singleton h.done_nodup fun hm => ?_
    obtain ⟨q', b, hm⟩ := mem_doneValues.1 hm
    exact hx (h.done_mem q' b x hm).1

/-- A reader moves the element of a blocked writer `q₀` into the ring: it is committed, and
the writer is served. -/
theorem Writes.refill (h : Writes s tr W) {q₀ : Party} {y : α}
    (hq : s.blockedWrite q₀ = some (0, y))
    (hv : s'.blockedWrite = update s.blockedWrite q₀ (some (1, y)))
    (hc : committed es = [y]) (hd : ∀ q b x, .writeDone q b x ∉ es) :
    Writes s' (tr ++ es) W := by
  obtain ⟨hyW, hy⟩ := h.writer_mem q₀ 0 y hq
  have hyc : y ∉ committed tr := hy.1 rfl
  have hC : committed (tr ++ es) = committed tr ++ [y] := by rw [committed_append, hc]
  have hm : ∀ q b x, .writeDone q b x ∈ tr ++ es ↔ .writeDone q b x ∈ tr := fun q b x => by
    simp [hd q b x]
  -- the other blocked writers keep their record, and hold another element
  have hother : ∀ q d x, s'.blockedWrite q = some (d, x) →
      (q = q₀ ∧ d = 1 ∧ x = y) ∨ (q ≠ q₀ ∧ s.blockedWrite q = some (d, x) ∧ x ≠ y) := by
    intro q d x hq'
    by_cases hqq : q = q₀
    · subst hqq
      rw [hv, update_same] at hq'
      cases hq'
      exact .inl ⟨rfl, rfl, rfl⟩
    · rw [hv, update_noteq hqq] at hq'
      exact .inr ⟨hqq, hq', fun e => hqq (h.writer_distinct q q₀ d 0 x hq' (e ▸ hq))⟩
  refine ⟨?_, fun x hx => ?_, fun q d x hq' => ?_, fun q q' d d' x hq' hq'' => ?_,
    fun q b x hx => ?_, fun q d x q' b hq' => ?_, fun x hx => ?_,
    by rw [doneValues_append, doneValues_eq_nil hd, List.append_nil]; exact h.done_nodup⟩
  · rw [hC]
    exact nodup_append_singleton h.commit_nodup hyc
  · rw [hC] at hx
    rcases List.mem_append.1 hx with hx | hx
    · exact h.commit_mem x hx
    · exact List.mem_singleton.1 hx ▸ hyW
  · rw [hC]
    rcases hother q d x hq' with ⟨-, rfl, rfl⟩ | ⟨-, hq', hxy⟩
    · simp [hyW]
    · obtain ⟨hxW, hx⟩ := h.writer_mem q d x hq'
      simpa [hxy] using And.intro hxW hx
  · rcases hother q d x hq' with ⟨rfl, -, rfl⟩ | ⟨-, hq', hxy⟩ <;>
      rcases hother q' d' x hq'' with ⟨rfl, -, hx'⟩ | ⟨-, hq'', hxy'⟩
    · rfl
    · exact absurd rfl hxy'
    · exact absurd hx' hxy
    · exact h.writer_distinct q q' d d' x hq' hq''
  · rw [hm] at hx
    rw [hC]
    obtain ⟨hxW, hb⟩ := h.done_mem q b x hx
    have hxy : x ≠ y := fun e => h.done_fresh q₀ 0 y q b hq (e ▸ hx)
    simpa [hxy] using And.intro hxW hb
  · rw [hm]
    rcases hother q d x hq' with ⟨-, -, rfl⟩ | ⟨-, hq', -⟩
    · exact h.done_fresh q₀ 0 _ q' b hq
    · exact h.done_fresh q d x q' b hq'
  · rw [hC] at hx
    simp only [hm]
    rcases List.mem_append.1 hx with hx | hx
    · rcases h.commit_done x hx with hw | ⟨q, d, hq', hd0⟩
      · exact .inl hw
      · have hqq : q ≠ q₀ := fun e => hd0 (by rw [e, hq] at hq'; cases hq'; rfl)
        exact .inr ⟨q, d, by rw [hv, update_noteq hqq]; exact hq', hd0⟩
    · rw [List.mem_singleton.1 hx]
      exact .inr ⟨q₀, 1, by rw [hv, update_same], Nat.one_ne_zero⟩

/-- A blocked writer `q₀` returns: `true` when it was served, `false` when not. -/
theorem Writes.retire (h : Writes s tr W) {q₀ : Party} {d : Nat} {y : α}
    (hq : s.blockedWrite q₀ = some (d, y)) (hv : s'.blockedWrite = update s.blockedWrite q₀ none) :
    Writes s' (tr ++ [.writeDone q₀ (d != 0) y]) W := by
  obtain ⟨hyW, hy⟩ := h.writer_mem q₀ d y hq
  have hold : ∀ q d' x, s'.blockedWrite q = some (d', x) →
      q ≠ q₀ ∧ s.blockedWrite q = some (d', x) := by
    intro q d' x hq'
    by_cases hqq : q = q₀
    · subst hqq; rw [hv, update_same] at hq'; cases hq'
    · rw [hv, update_noteq hqq] at hq'; exact ⟨hqq, hq'⟩
  have hC : committed (tr ++ [.writeDone q₀ (d != 0) y]) = committed tr := by
    simp [committed]
  refine ⟨hC ▸ h.commit_nodup, hC ▸ h.commit_mem,
    fun q d' x hq' => hC ▸ h.writer_mem q d' x (hold q d' x hq').2,
    fun q q' d' d'' x hq' hq'' =>
      h.writer_distinct q q' d' d'' x (hold _ _ _ hq').2 (hold _ _ _ hq'').2,
    fun q b x hx => ?_, fun q d' x q' b hq' hx => ?_, fun x hx => ?_, ?_⟩
  · rw [hC]
    rcases List.mem_append.1 hx with hx | hx
    · exact h.done_mem q b x hx
    · simp only [List.mem_singleton, Event.writeDone.injEq] at hx
      obtain ⟨rfl, rfl, rfl⟩ := hx
      refine ⟨hyW, ?_⟩
      rw [bne_iff_ne, ne_eq, hy, not_not]
  · obtain ⟨hqq, hq'⟩ := hold q d' x hq'
    rcases List.mem_append.1 hx with hx | hx
    · exact h.done_fresh q d' x q' b hq' hx
    · simp only [List.mem_singleton, Event.writeDone.injEq] at hx
      obtain ⟨rfl, -, rfl⟩ := hx
      exact hqq (h.writer_distinct q _ d' d x hq' hq)
  · rw [hC] at hx
    rcases h.commit_done x hx with ⟨q, hq'⟩ | ⟨q, d', hq', hd0⟩
    · exact .inl ⟨q, List.mem_append_left _ hq'⟩
    · by_cases hqq : q = q₀
      · subst hqq
        rw [hq] at hq'
        cases hq'
        exact .inl ⟨q, List.mem_append_right _ (by simp [hd0])⟩
      · exact .inr ⟨q, d', by rw [hv, update_noteq hqq]; exact hq', hd0⟩
  · rw [doneValues_append]
    refine nodup_append_singleton h.done_nodup fun hm => ?_
    obtain ⟨q', b, hm⟩ := mem_doneValues.1 hm
    exact h.done_fresh q₀ d y q' b hq hm

/-- A write of a new element `x` that blocks. -/
theorem Writes.block (h : Writes s tr W) {q : Party} {x : α} (hx : x ∉ W)
    (hq : s.blockedWrite q = none) (hv : s'.blockedWrite = update s.blockedWrite q (some (0, x))) :
    Writes s' tr (W ++ [x]) := by
  have hxc : x ∉ committed tr := fun hc => hx (h.commit_mem x hc)
  have hcases : ∀ q' d y, s'.blockedWrite q' = some (d, y) →
      (q' = q ∧ d = 0 ∧ y = x) ∨ (q' ≠ q ∧ s.blockedWrite q' = some (d, y)) := by
    intro q' d y hq'
    by_cases hqq : q' = q
    · subst hqq; rw [hv, update_same] at hq'; cases hq'; exact .inl ⟨rfl, rfl, rfl⟩
    · rw [hv, update_noteq hqq] at hq'; exact .inr ⟨hqq, hq'⟩
  refine ⟨h.commit_nodup, fun y hy => List.mem_append_left _ (h.commit_mem y hy),
    fun q' d y hq' => ?_, fun q' q'' d d' y hq' hq'' => ?_,
    fun q' b y hy => ?_, fun q' d y q'' b hq' hy => ?_, fun y hy => ?_, h.done_nodup⟩
  · rcases hcases q' d y hq' with ⟨-, rfl, rfl⟩ | ⟨-, hq'⟩
    · simp [hxc]
    · obtain ⟨hyW, hy⟩ := h.writer_mem q' d y hq'
      exact ⟨List.mem_append_left _ hyW, hy⟩
  · rcases hcases q' d y hq' with ⟨rfl, -, rfl⟩ | ⟨-, hq'⟩ <;>
      rcases hcases q'' d' y hq'' with ⟨rfl, -, hy⟩ | ⟨-, hq''⟩
    · rfl
    · exact absurd (h.writer_mem _ _ _ hq'').1 hx
    · exact absurd (hy ▸ (h.writer_mem _ _ _ hq').1) hx
    · exact h.writer_distinct q' q'' d d' y hq' hq''
  · obtain ⟨hyW, hb⟩ := h.done_mem q' b y hy
    exact ⟨List.mem_append_left _ hyW, hb⟩
  · rcases hcases q' d y hq' with ⟨-, -, rfl⟩ | ⟨-, hq'⟩
    · exact hx (h.done_mem q'' b _ hy).1
    · exact h.done_fresh q' d y q'' b hq' hy
  · rcases h.commit_done y hy with hw | ⟨q', d, hq', hd0⟩
    · exact .inl hw
    · have hqq : q' ≠ q := fun e => by rw [e, hq] at hq'; cases hq'
      exact .inr ⟨q', d, by rw [hv, update_noteq hqq]; exact hq', hd0⟩

/-- A write of a new element `x` that fails at once, on a closed pipe. -/
theorem Writes.reject (h : Writes s tr W) {q : Party} {x : α} (hx : x ∉ W)
    (hv : s'.blockedWrite = s.blockedWrite) : Writes s' (tr ++ [.writeDone q false x]) (W ++ [x]) := by
  have hxc : x ∉ committed tr := fun hc => hx (h.commit_mem x hc)
  have hC : committed (tr ++ [.writeDone q false x]) = committed tr := by simp [committed]
  refine Writes.of_view ⟨hC ▸ h.commit_nodup,
    fun y hy => List.mem_append_left _ (h.commit_mem y (hC ▸ hy)),
    fun q' d y hq' => ?_, h.writer_distinct, fun q' b y hy => ?_,
    fun q' d y q'' b hq' hy => ?_, fun y hy => ?_, ?_⟩ hv
  · obtain ⟨hyW, hy⟩ := h.writer_mem q' d y hq'
    exact ⟨List.mem_append_left _ hyW, hC ▸ hy⟩
  · rw [hC]
    rcases List.mem_append.1 hy with hy | hy
    · obtain ⟨hyW, hb⟩ := h.done_mem q' b y hy
      exact ⟨List.mem_append_left _ hyW, hb⟩
    · simp only [List.mem_singleton, Event.writeDone.injEq] at hy
      obtain ⟨rfl, rfl, rfl⟩ := hy
      simp [hxc]
  · rcases List.mem_append.1 hy with hy | hy
    · exact h.done_fresh q' d y q'' b hq' hy
    · simp only [List.mem_singleton, Event.writeDone.injEq] at hy
      obtain ⟨-, -, rfl⟩ := hy
      exact hx (h.writer_mem q' d _ hq').1
  · rw [hC] at hy
    rcases h.commit_done y hy with ⟨q', hq'⟩ | hb
    · exact .inl ⟨q', List.mem_append_left _ hq'⟩
    · exact .inr hb
  · rw [doneValues_append]
    refine nodup_append_singleton h.done_nodup fun hm => ?_
    obtain ⟨q', b, hm⟩ := mem_doneValues.1 hm
    exact hx (h.done_mem q' b x hm).1

end WritesSteps

/-! ## The accounting of the reads -/

section ReadsSteps

variable {s s' : PipeImpl α} {tr es : List (Event α)}

/-- `Reads` reads the state only through the served readers. -/
theorem Reads.of_view (h : Reads s tr)
    (hv : ∀ q x, s'.blockedRead q = some (1, x) ↔ s.blockedRead q = some (1, x)) : Reads s' tr :=
  ⟨h.read_mem, h.read_nodup, fun q x hq => h.reader_served q x ((hv q x).1 hq),
    fun q q' x hq hq' => h.reader_distinct q q' x ((hv _ _).1 hq) ((hv _ _).1 hq'),
    fun x hx => (h.received_done x hx).imp_right fun ⟨q, hq⟩ => ⟨q, (hv q x).2 hq⟩⟩

/-- A step that takes no element, returns no read and serves no reader. -/
theorem Reads.frame (h : Reads s tr)
    (hv : ∀ q x, s'.blockedRead q = some (1, x) ↔ s.blockedRead q = some (1, x))
    (hr : received es = []) (hrv : readValues es = []) : Reads s' (tr ++ es) := by
  have hR : received (tr ++ es) = received tr := by rw [received_append, hr, List.append_nil]
  have hV : readValues (tr ++ es) = readValues tr := by
    rw [readValues_append, hrv, List.append_nil]
  obtain ⟨h1, h2, h3, h4, h5⟩ := h.of_view hv
  exact ⟨hR ▸ hV ▸ h1, hV ▸ h2, hR ▸ hV ▸ h3, h4, hR ▸ hV ▸ h5⟩

/-- A read that takes the element `x` from the ring and returns it. -/
theorem Reads.take (h : Reads s tr) {x : α}
    (hv : ∀ q y, s'.blockedRead q = some (1, y) ↔ s.blockedRead q = some (1, y))
    (hr : received es = [x]) (hrv : readValues es = [x]) (hx : x ∉ received tr) :
    Reads s' (tr ++ es) := by
  have hR : received (tr ++ es) = received tr ++ [x] := by rw [received_append, hr]
  have hV : readValues (tr ++ es) = readValues tr ++ [x] := by rw [readValues_append, hrv]
  have hxv : x ∉ readValues tr := fun hm => hx (h.read_mem x hm)
  obtain ⟨h1, h2, h3, h4, h5⟩ := h.of_view hv
  refine ⟨?_, by rw [hV]; exact nodup_append_singleton h2 hxv, fun q y hq => ?_, h4, ?_⟩
  · rw [hR, hV]
    intro y hy
    rcases List.mem_append.1 hy with hy | hy
    · exact List.mem_append_left _ (h1 y hy)
    · exact List.mem_append_right _ hy
  · obtain ⟨hy, hyv⟩ := h3 q y hq
    have hyx : y ≠ x := fun e => hx (e ▸ hy)
    rw [hR, hV]
    simp [hy, hyv, hyx]
  · rw [hR, hV]
    intro y hy
    rcases List.mem_append.1 hy with hy | hy
    · exact (h5 y hy).imp_left (List.mem_append_left _)
    · exact .inl (List.mem_append_right _ hy)

/-- A writer hands the element `x` to the blocked reader `q₀`. -/
theorem Reads.handoff (h : Reads s tr) {q₀ : Party} {x : α}
    (hv : ∀ q y, s'.blockedRead q = some (1, y) ↔ s.blockedRead q = some (1, y) ∨ (q = q₀ ∧ y = x))
    (hr : received es = [x]) (hrv : readValues es = []) (hx : x ∉ received tr) :
    Reads s' (tr ++ es) := by
  have hR : received (tr ++ es) = received tr ++ [x] := by rw [received_append, hr]
  have hV : readValues (tr ++ es) = readValues tr := by
    rw [readValues_append, hrv, List.append_nil]
  refine ⟨?_, by rw [hV]; exact h.read_nodup, fun q y hq => ?_, fun q q' y hq hq' => ?_, ?_⟩
  · rw [hR, hV]
    exact fun y hy => List.mem_append_left _ (h.read_mem y hy)
  · rw [hR, hV]
    rcases (hv q y).1 hq with hq | ⟨-, rfl⟩
    · obtain ⟨hy, hyv⟩ := h.reader_served q y hq
      exact ⟨List.mem_append_left _ hy, hyv⟩
    · exact ⟨List.mem_append_right _ (List.mem_singleton_self _), fun hm => hx (h.read_mem _ hm)⟩
  · rcases (hv q y).1 hq with hq | ⟨hq, hy⟩ <;> rcases (hv q' y).1 hq' with hq' | ⟨hq', hy'⟩
    · exact h.reader_distinct q q' y hq hq'
    · exact absurd (hy' ▸ (h.reader_served q y hq).1) hx
    · exact absurd (hy ▸ (h.reader_served q' y hq').1) hx
    · rw [hq, hq']
  · rw [hR, hV]
    intro y hy
    rcases List.mem_append.1 hy with hy | hy
    · exact (h.received_done y hy).imp_right fun ⟨q, hq⟩ => ⟨q, (hv q y).2 (.inl hq)⟩
    · exact .inr ⟨q₀, (hv q₀ y).2 (.inr ⟨rfl, List.mem_singleton.1 hy⟩)⟩

/-- A served reader `q₀` returns its element. -/
theorem Reads.retire (h : Reads s tr) {q₀ : Party} {x : α} (hq : s.blockedRead q₀ = some (1, x))
    (hv : ∀ q y, s'.blockedRead q = some (1, y) ↔ s.blockedRead q = some (1, y) ∧ q ≠ q₀)
    (hr : received es = []) (hrv : readValues es = [x]) : Reads s' (tr ++ es) := by
  obtain ⟨hx, hxv⟩ := h.reader_served q₀ x hq
  have hR : received (tr ++ es) = received tr := by rw [received_append, hr, List.append_nil]
  have hV : readValues (tr ++ es) = readValues tr ++ [x] := by rw [readValues_append, hrv]
  refine ⟨?_, by rw [hV]; exact nodup_append_singleton h.read_nodup hxv, fun q y hq' => ?_,
    fun q q' y hq' hq'' => h.reader_distinct q q' y ((hv _ _).1 hq').1 ((hv _ _).1 hq'').1, ?_⟩
  · rw [hR, hV]
    intro y hy
    rcases List.mem_append.1 hy with hy | hy
    · exact h.read_mem y hy
    · exact List.mem_singleton.1 hy ▸ hx
  · obtain ⟨hq', hqq⟩ := (hv q y).1 hq'
    obtain ⟨hy, hyv⟩ := h.reader_served q y hq'
    have hyx : y ≠ x := fun e => hqq (h.reader_distinct q q₀ y hq' (e ▸ hq))
    rw [hR, hV]
    simp [hy, hyv, hyx]
  · rw [hR, hV]
    intro y hy
    rcases h.received_done y hy with hy | ⟨q, hq'⟩
    · exact .inl (List.mem_append_left _ hy)
    · by_cases hqq : q = q₀
      · subst hqq
        rw [hq] at hq'
        cases hq'
        exact .inl (List.mem_append_right _ (List.mem_singleton_self _))
      · exact .inr ⟨q, (hv q y).2 ⟨hq', hqq⟩⟩

end ReadsSteps

/-! ## The shape of the queue -/

section ShapeSteps

variable {cf : PipeConf} {s s' : PipeImpl α}

/-- A step that keeps the parties and the records and drops part of the queue. -/
theorem Shape.of_eq (h : Shape cf s) (hp : s'.phase = s.phase) (hw : s'.waitx = s.waitx)
    (hwq : s'.wq.Sublist s.wq) : Shape cf s' := by
  obtain ⟨h1, h2, h3, h4, h5, h6⟩ := h
  refine ⟨fun w hm => ?_, fun w hm hs => ?_, fun hi w hm => ?_, ?_, ?_, ?_⟩ <;>
    simp only [hp, hw] at * <;> try assumption
  · exact h1 w (hwq.subset hm)
  · exact h2 w (hwq.subset hm) hs
  · exact h3 hi w (hwq.subset hm)

/-- The pop of the served waiter `w` by the other side. -/
theorem Shape.serve (h : Shape cf s) {w : Nat} {ws : List Nat} {v : α} (hw : w ∈ s.wq)
    (hws : ws.Sublist s.wq) (hnot : w ∉ ws) (hp : s'.phase = s.phase) (hwq : s'.wq = ws)
    (hx : s'.waitx = update s.waitx w (served cf.inf (s.waitx w) v)) : Shape cf s' := by
  have hold : ∀ w' ∈ s'.wq, w' ∈ s.wq ∧ s'.waitx w' = s.waitx w' := fun w' hm => by
    rw [hwq] at hm
    exact ⟨hws.subset hm, by rw [hx, update_noteq fun (e : w' = w) => hnot (e ▸ hm)]⟩
  -- the served record left `st_wait` unless there is no timeout, and did not time out
  have hst : (s'.waitx w).state ≠ .timeout ∧ (cf.inf = false → (s'.waitx w).state ≠ .wait) := by
    rw [hx, update_same]
    unfold served
    cases hi : cf.inf
    · simp
    · simp [h.inf_wait hi w hw]
  have hother : ∀ w', w' ≠ w → s'.waitx w' = s.waitx w' := fun w' hne => by
    rw [hx, update_noteq hne]
  refine ⟨fun w' hm => ?_, fun w' hm hs => ?_, fun hi w' hm => ?_, hp ▸ h.unique,
    fun q w' hq hs => ?_, fun hi q w' hq hs => ?_⟩
  · rw [(hold w' hm).2]; exact h.pending w' (hold w' hm).1
  · rw [(hold w' hm).2] at hs; rw [hp]; exact h.owned w' (hold w' hm).1 hs
  · rw [(hold w' hm).2]; exact h.inf_wait hi w' (hold w' hm).1
  · by_cases hww : w' = w
    · subst hww; exact absurd hs hst.1
    · rw [hother w' hww] at hs ⊢; exact h.timeout_pending q w' (hp ▸ hq) hs
  · by_cases hww : w' = w
    · subst hww; exact absurd hs (hst.2 hi)
    · rw [hother w' hww] at hs ⊢; exact h.wait_pending hi q w' (hp ▸ hq) hs

/-- The blocked parties after `enqueue`: the caller on the new waitx, and the others as
before, none of them on the new waitx. -/
theorem enqueue_blocked (hq : QueueOk s) {q : Party} {x : α} {ph : Nat → Phase}
    (hph : (ph s.next).waitx? = some s.next) {q' : Party} {w : Nat}
    (h : ((s.enqueue q x ph).phase q').waitx? = some w) :
    (q' = q ∧ w = s.next) ∨ (q' ≠ q ∧ (s.phase q').waitx? = some w ∧ w ≠ s.next) := by
  by_cases hqq : q' = q
  · subst hqq
    simp only [PipeImpl.enqueue, update_same, hph, Option.some.injEq] at h
    exact .inl ⟨rfl, h.symm⟩
  · simp only [PipeImpl.enqueue, update_noteq hqq] at h
    exact .inr ⟨hqq, h, fun e => Nat.lt_irrefl _ (e ▸ hq.phase_fresh q' w h)⟩

/-- A call that blocks on a new waitx. -/
theorem Shape.enqueue (h : Shape cf s) (hq : QueueOk s) {q : Party} (hq0 : s.phase q = .idle)
    (x : α) {ph : Nat → Phase} (hph : (ph s.next).waitx? = some s.next) :
    Shape cf (s.enqueue q x ph) := by
  have hfresh : ∀ w ∈ s.wq, w ≠ s.next := fun w hw e => Nat.lt_irrefl _ (e ▸ hq.fresh w hw)
  have hmem : ∀ w ∈ (s.enqueue q x ph).wq, w = s.next ∨ (w ∈ s.wq ∧ w ≠ s.next) := fun w hw => by
    simp only [PipeImpl.enqueue, List.mem_append, List.mem_singleton] at hw
    rcases hw with hw | rfl
    · exact .inr ⟨hw, hfresh w hw⟩
    · exact .inl rfl
  have hnew : (s.enqueue q x ph).waitx s.next = ⟨.wait, 0, x⟩ := by simp [PipeImpl.enqueue]
  have hold : ∀ w, w ≠ s.next → (s.enqueue q x ph).waitx w = s.waitx w := fun w hne => by
    simp [PipeImpl.enqueue, update_noteq hne]
  refine ⟨fun w hw => ?_, fun w hw hs => ?_, fun hi w hw => ?_, fun q1 q2 w h1 h2 => ?_,
    fun q' w hq' hs => ?_, fun hi q' w hq' hs => ?_⟩
  · rcases hmem w hw with rfl | ⟨hw, hne⟩
    · rw [hnew]
    · rw [hold w hne]; exact h.pending w hw
  · rcases hmem w hw with rfl | ⟨hw, hne⟩
    · exact ⟨q, by simp [PipeImpl.enqueue, hph]⟩
    · rw [hold w hne] at hs
      obtain ⟨q', hq'⟩ := h.owned w hw hs
      have hqq : q' ≠ q := fun e => by rw [e, hq0] at hq'; cases hq'
      exact ⟨q', by simpa [PipeImpl.enqueue, update_noteq hqq] using hq'⟩
  · rcases hmem w hw with rfl | ⟨hw, hne⟩
    · rw [hnew]
    · rw [hold w hne]; exact h.inf_wait hi w hw
  · rcases enqueue_blocked hq hph h1 with ⟨rfl, rfl⟩ | ⟨hq1, h1, hne1⟩ <;>
      rcases enqueue_blocked hq hph h2 with ⟨rfl, hw2⟩ | ⟨hq2, h2, hne2⟩
    · rfl
    · exact absurd rfl hne2
    · exact absurd hw2 hne1
    · exact h.unique q1 q2 w h1 h2
  · rcases enqueue_blocked hq hph hq' with ⟨-, rfl⟩ | ⟨-, hq', hne⟩
    · rw [hnew] at hs; cases hs
    · rw [hold w hne] at hs ⊢; exact h.timeout_pending q' w hq' hs
  · rcases enqueue_blocked hq hph hq' with ⟨-, rfl⟩ | ⟨-, hq', hne⟩
    · rw [hnew]
    · rw [hold w hne] at hs ⊢; exact h.wait_pending hi q' w hq' hs

/-- The exchange `wait → timeout` on the waitx `w` of a blocked party wins. -/
theorem Shape.timeout (h : Shape cf s) (hi : cf.inf = false) {q₀ : Party} {w : Nat}
    (hq : (s.phase q₀).waitx? = some w) (hst : (s.waitx w).state = .wait) :
    Shape cf (s.setWaitx w { s.waitx w with state := .timeout }) := by
  set y : Waitx α := { s.waitx w with state := .timeout }
  have hnew : (s.setWaitx w y).waitx w = y := update_same _ _ _
  have hold : ∀ v, v ≠ w → (s.setWaitx w y).waitx v = s.waitx v := fun v hv => update_noteq hv _ _
  refine ⟨fun v hv => ?_, fun v hv hs => ?_, fun hi' => absurd hi' (by simp [hi]), h.unique,
    fun q v hq' hs => ?_, fun _ q v hq' hs => ?_⟩ <;> by_cases hvw : v = w
  · rw [hvw, hnew]; exact h.pending w (hvw ▸ hv)
  · rw [hold v hvw]; exact h.pending v hv
  · rw [hvw, hnew] at hs; cases hs
  · rw [hold v hvw] at hs; exact h.owned v hv hs
  · rw [hvw, hnew]; exact h.wait_pending hi q₀ w hq hst
  · rw [hold v hvw] at hs ⊢; exact h.timeout_pending q v hq' hs
  · rw [hvw, hnew] at hs; cases hs
  · rw [hold v hvw] at hs ⊢; exact h.wait_pending hi q v hq' hs

/-- The parties blocked after party `q₀` left its call. -/
theorem setPhase_idle_blocked {q₀ q : Party} {w : Nat}
    (h : ((s.setPhase q₀ .idle).phase q).waitx? = some w) :
    q ≠ q₀ ∧ (s.phase q).waitx? = some w := by
  by_cases hqq : q = q₀
  · subst hqq; simp [PipeImpl.setPhase, Phase.waitx?] at h
  · exact ⟨hqq, by simpa [PipeImpl.setPhase, update_noteq hqq] using h⟩

/-- A blocked party leaves its call once its waitx is no longer live in the queue. -/
theorem Shape.retire (h : Shape cf s) {q₀ : Party}
    (hq : ∀ w, (s.phase q₀).waitx? = some w → w ∈ s.wq → (s.waitx w).state ≠ .wait) :
    Shape cf (s.setPhase q₀ .idle) := by
  refine ⟨h.pending, fun w hw hs => ?_, h.inf_wait, fun q q' w h1 h2 => ?_,
    fun q w hq' hs => h.timeout_pending q w (setPhase_idle_blocked hq').2 hs,
    fun hi q w hq' hs => h.wait_pending hi q w (setPhase_idle_blocked hq').2 hs⟩
  · obtain ⟨q, hq'⟩ := h.owned w hw hs
    have hqq : q ≠ q₀ := fun e => hq w (e ▸ hq') hw hs
    exact ⟨q, by simpa [PipeImpl.setPhase, update_noteq hqq] using hq'⟩
  · exact h.unique q q' w (setPhase_idle_blocked h1).2 (setPhase_idle_blocked h2).2

/-- `close()` on an empty pipe empties the queue and wakes its live waiters. -/
theorem Shape.closeAll (h : Shape cf s) (hp : s'.phase = s.phase) (hwq : s'.wq = [])
    (hx : s'.waitx = closeAll s.waitx s.wq) : Shape cf s' := by
  -- a record `close()` changed is neither timed out nor waiting
  have hold : ∀ w, (s'.waitx w).state = .wait ∨ (s'.waitx w).state = .timeout →
      s'.waitx w = s.waitx w := fun w hs => by
    rw [hx, closeAll_apply] at hs ⊢
    split at hs
    · simp at hs
    · rw [if_neg ‹_›]
  refine ⟨fun w hw => by simp [hwq] at hw, fun w hw => by simp [hwq] at hw,
    fun _ w hw => by simp [hwq] at hw, hp ▸ h.unique, fun q w hq hs => ?_,
    fun hi q w hq hs => ?_⟩
  · have e := hold w (.inr hs)
    rw [e] at hs ⊢; exact h.timeout_pending q w (hp ▸ hq) hs
  · have e := hold w (.inl hs)
    rw [e] at hs ⊢; exact h.wait_pending hi q w (hp ▸ hq) hs

end ShapeSteps

/-! ## The transitions -/

section Transitions

variable {cf : PipeConf} {s s' : PipeImpl α} {tr : List (Event α)} {W : List α}

/-- Serving the waitx `w` of party `q₀` leaves what every other party holds. -/
theorem Shape.serve_view (h : Shape cf s) {q₀ : Party} {w : Nat}
    (hq₀ : (s.phase q₀).waitx? = some w) {y : Waitx α} (hp : s'.phase = s.phase)
    (hx : s'.waitx = update s.waitx w y) {q : Party} (hq : q ≠ q₀) :
    s'.blockedWrite q = s.blockedWrite q ∧ s'.blockedRead q = s.blockedRead q := by
  have hne : ∀ v, (s.phase q).waitx? = some v → s'.waitx v = s.waitx v := fun v hv => by
    rw [hx, update_noteq fun (e : v = w) => hq (h.unique q q₀ v hv (e ▸ hq₀))]
  exact ⟨blockedWrite_congr (congrFun hp q) fun v hv => by
      rw [hne v (by rw [hv]; rfl)]; exact ⟨rfl, rfl⟩,
    blockedRead_congr (congrFun hp q) fun v hv => by
      rw [hne v (by rw [hv]; rfl)]; exact ⟨rfl, rfl⟩⟩

/-- The head of the ring has not been received yet. -/
theorem ChanInv.head_fresh (h : ChanInv cf s tr W) {x : α} {t : List α}
    (hc : s.contents cf = x :: t) : x ∉ received tr := by
  have hnd := h.ledger.fifo ▸ h.ledger.writes.commit_nodup
  rw [hc] at hnd
  exact fun hm => (List.nodup_append.1 hnd).2.2 hm (List.mem_cons_self x t)

/-- A received element was committed, so it was written. -/
theorem ChanInv.received_mem (h : ChanInv cf s tr W) {x : α} (hx : x ∈ received tr) : x ∈ W :=
  h.ledger.writes.commit_mem x (h.ledger.fifo ▸ List.mem_append_left (s.contents cf) hx)

/-- A read that takes the head of a ring that holds an element. -/
theorem ChanInv.take (h : ChanInv cf s tr W) (q : Party) (hp : s'.phase = s.phase)
    (hw : s'.waitx = s.waitx) (hwq : s'.wq.Sublist s.wq)
    (hcont : s.contents cf = s.buf s.rx :: s'.contents cf) :
    Ledger cf s' (tr ++ [.receive (s.buf s.rx), .readDone q true (some (s.buf s.rx))]) W :=
  ⟨h.ledger.shape.of_eq hp hw hwq, by simp [received, committed, ← h.ledger.fifo, hcont],
    h.ledger.writes.frame (blockedWrite_eq_of hp hw) (by simp [committed]) (by simp),
    h.ledger.reads.take (fun q y => by rw [blockedRead_eq_of hp hw]) (by simp [received])
      (by simp [readValues]) (h.head_fresh hcont)⟩

/-- A read that empties a full ring and moves the element of the first live writer into it. -/
theorem ChanInv.refill (hc : cf.Ok) (h : ChanInv cf s tr W) (q : Party) (heq : s.rx = s.wx)
    (hfull : s.full = true) {w : Nat} {ws : List Nat}
    (hp : popLive cf.inf s.waitx s.wq = (some w, ws)) :
    Ledger cf
      { ((s.readBlock cf).writeBlock cf (s.waitx w).val) with
        wq := ws, waitx := update s.waitx w (served cf.inf (s.waitx w) (s.waitx w).val) }
      (tr ++ [.receive (s.buf s.rx), .commit (s.waitx w).val,
        .readDone q true (some (s.buf s.rx))]) W := by
  obtain ⟨q₀, hq₀⟩ := h.pop_writer hfull hp
  obtain ⟨hsub, hnot⟩ := h.pipe.queue.pop hp
  obtain ⟨pre, hwq, -, -⟩ := popLive_some hp
  have hw : w ∈ s.wq := by rw [hwq]; simp
  have hr := h.pipe.ring
  -- the ring loses its head, then gains the writer's element
  have h₁ : s.contents cf = s.buf s.rx :: ({ s.readBlock cf with full := false }).contents cf :=
    contents_pop hc hr (.inr hfull) rfl rfl rfl rfl
  have hr₁ : RingOk cf { s.readBlock cf with full := false } :=
    ⟨(hc.adv hr.rx_blk hr.rx_lt).1, (hc.adv hr.rx_blk hr.rx_lt).2, hr.wx_blk, hr.wx_lt,
      fun h => by cases h⟩
  set s' : PipeImpl α := { ((s.readBlock cf).writeBlock cf (s.waitx w).val) with
    wq := ws, waitx := update s.waitx w (served cf.inf (s.waitx w) (s.waitx w).val) }
  have h₂ : s'.contents cf = ({ s.readBlock cf with full := false }).contents cf ++
      [(s.waitx w).val] :=
    contents_push hc hr₁ rfl _ rfl rfl rfl
      (by simp [s', PipeImpl.readBlock, PipeImpl.writeBlock, hfull, heq])
  have hq₀' : (s.phase q₀).waitx? = some w := by rw [hq₀]; rfl
  have hp' : s'.phase = s.phase := rfl
  have hx' : s'.waitx = update s.waitx w (served cf.inf (s.waitx w) (s.waitx w).val) := rfl
  have hwrite : s'.blockedWrite = update s.blockedWrite q₀ (some (1, (s.waitx w).val)) := by
    funext q'
    by_cases hq : q' = q₀
    · subst hq
      rw [update_same, blockedWrite_of_writing (show s'.phase q' = .writing w from hq₀)]
      simp [s', served]
    · rw [update_noteq hq]; exact (h.ledger.shape.serve_view hq₀' hp' hx' hq).1
  have hread : s'.blockedRead = s.blockedRead := by
    funext q'
    by_cases hq : q' = q₀
    · subst hq
      rw [blockedRead_of_writing (show s'.phase q' = .writing w from hq₀),
        blockedRead_of_writing hq₀]
    · exact (h.ledger.shape.serve_view hq₀' hp' hx' hq).2
  refine ⟨h.ledger.shape.serve hw hsub hnot rfl rfl rfl, ?_, ?_,
    h.ledger.reads.take (fun q y => by rw [hread]) (by simp [received]) (by simp [readValues])
      (h.head_fresh h₁)⟩
  · rw [h₂]
    simp [received, committed, ← h.ledger.fifo, h₁]
  · refine h.ledger.writes.refill ?_ hwrite (by simp [committed]) (by simp)
    rw [blockedWrite_of_writing hq₀, h.ledger.shape.pending w hw]

/-- A write that appends its element to a ring that is not full. -/
theorem ChanInv.push (h : ChanInv cf s tr W) (q : Party) {x : α} (hx : x ∉ W)
    (hp : s'.phase = s.phase) (hw : s'.waitx = s.waitx) (hwq : s'.wq.Sublist s.wq)
    (hcont : s'.contents cf = s.contents cf ++ [x]) :
    Ledger cf s' (tr ++ [.commit x, .writeDone q true x]) (W ++ [x]) :=
  ⟨h.ledger.shape.of_eq hp hw hwq, by simp [received, committed, ← h.ledger.fifo, hcont],
    h.ledger.writes.push q hx (blockedWrite_eq_of hp hw) (by simp [committed])
      (by simp [doneValues]) (by simp),
    h.ledger.reads.frame (fun q y => by rw [blockedRead_eq_of hp hw]) (by simp [received])
      (by simp [readValues])⟩

/-- A write on an empty ring that hands its element to the first live reader. -/
theorem ChanInv.handoff (h : ChanInv cf s tr W) (q : Party) {x : α} (hx : x ∉ W)
    (heq : s.rx = s.wx) (hfull : s.full = false) {w : Nat} {ws : List Nat}
    (hp : popLive cf.inf s.waitx s.wq = (some w, ws)) :
    Ledger cf { s with wq := ws, waitx := update s.waitx w (served cf.inf (s.waitx w) x) }
      (tr ++ [.commit x, .receive x, .writeDone q true x]) (W ++ [x]) := by
  obtain ⟨q₀, hq₀⟩ := h.pop_reader hfull hp
  obtain ⟨hsub, hnot⟩ := h.pipe.queue.pop hp
  obtain ⟨pre, hwq, -, -⟩ := popLive_some hp
  have hw : w ∈ s.wq := by rw [hwq]; simp
  set s' : PipeImpl α := { s with wq := ws, waitx := update s.waitx w (served cf.inf (s.waitx w) x) }
  have hq₀' : (s.phase q₀).waitx? = some w := by rw [hq₀]; rfl
  have hp' : s'.phase = s.phase := rfl
  have hx' : s'.waitx = update s.waitx w (served cf.inf (s.waitx w) x) := rfl
  have hwrite : s'.blockedWrite = s.blockedWrite := by
    funext q'
    by_cases hq : q' = q₀
    · subst hq
      rw [blockedWrite_of_reading (show s'.phase q' = .reading w from hq₀),
        blockedWrite_of_reading hq₀]
    · exact (h.ledger.shape.serve_view hq₀' hp' hx' hq).1
  have hread : ∀ q' y, s'.blockedRead q' = some (1, y) ↔
      s.blockedRead q' = some (1, y) ∨ (q' = q₀ ∧ y = x) := by
    intro q' y
    by_cases hq : q' = q₀
    · subst hq
      rw [blockedRead_of_reading (show s'.phase q' = .reading w from hq₀),
        blockedRead_of_reading hq₀, h.ledger.shape.pending w hw]
      simp only [s', update_same, served, Option.some.injEq, Prod.mk.injEq, true_and,
        Nat.zero_ne_one, false_and, false_or]
      exact ⟨Eq.symm, Eq.symm⟩
    · rw [(h.ledger.shape.serve_view hq₀' hp' hx' hq).2]
      simp [hq]
  have hnil : s.contents cf = [] := contents_eq_nil heq hfull
  have hrc : received tr = committed tr := by simpa [hnil] using h.ledger.fifo
  refine ⟨h.ledger.shape.serve hw hsub hnot rfl rfl rfl, ?_,
    h.ledger.writes.push q hx hwrite (by simp [committed]) (by simp [doneValues]) (by simp),
    h.ledger.reads.handoff hread (by simp [received]) (by simp [readValues])
      fun hm => hx (h.received_mem hm)⟩
  rw [show s'.contents cf = s.contents cf from contents_congr rfl rfl rfl rfl, hnil]
  simp [received, committed, hrc]

/-- A step that moves no element and no party. -/
theorem ChanInv.quiet (h : ChanInv cf s tr W) {es : List (Event α)} (hp : s'.phase = s.phase)
    (hw : s'.waitx = s.waitx) (hwq : s'.wq.Sublist s.wq) (hcont : s'.contents cf = s.contents cf)
    (hc : committed es = []) (hr : received es = []) (hrv : readValues es = [])
    (hd : ∀ q b x, .writeDone q b x ∉ es) : Ledger cf s' (tr ++ es) W :=
  ⟨h.ledger.shape.of_eq hp hw hwq, by simp [hc, hr, hcont, h.ledger.fifo],
    h.ledger.writes.frame (blockedWrite_eq_of hp hw) hc hd,
    h.ledger.reads.frame (fun q y => by rw [blockedRead_eq_of hp hw]) hr hrv⟩

/-- A write on a closed pipe, which fails at once. -/
theorem ChanInv.reject (h : ChanInv cf s tr W) (q : Party) {x : α} (hx : x ∉ W) :
    Ledger cf s (tr ++ [.writeDone q false x]) (W ++ [x]) :=
  ⟨h.ledger.shape, by simp [received, committed, h.ledger.fifo], h.ledger.writes.reject hx rfl,
    h.ledger.reads.frame (fun _ _ => Iff.rfl) (by simp [received]) (by simp [readValues])⟩

/-- The other parties hold what they held before an `enqueue`. -/
theorem enqueue_view (hq : QueueOk s) {q : Party} (x : α) (ph : Nat → Phase) {q' : Party}
    (hne : q' ≠ q) :
    (s.enqueue q x ph).blockedWrite q' = s.blockedWrite q' ∧
    (s.enqueue q x ph).blockedRead q' = s.blockedRead q' := by
  have hp : (s.enqueue q x ph).phase q' = s.phase q' := by
    simp [PipeImpl.enqueue, update_noteq hne]
  have hw : ∀ w, (s.phase q').waitx? = some w → (s.enqueue q x ph).waitx w = s.waitx w :=
    fun w hw => by
      simp [PipeImpl.enqueue,
        update_noteq fun (e : w = s.next) => Nat.lt_irrefl _ (e ▸ hq.phase_fresh q' w hw)]
  exact ⟨blockedWrite_congr hp fun w h' => by rw [hw w (by rw [h']; rfl)]; exact ⟨rfl, rfl⟩,
    blockedRead_congr hp fun w h' => by rw [hw w (by rw [h']; rfl)]; exact ⟨rfl, rfl⟩⟩

/-- A read on an empty pipe that is not closed blocks. -/
theorem ChanInv.enqueue_read [Inhabited α] (h : ChanInv cf s tr W) {q : Party}
    (hq : s.phase q = .idle) : Ledger cf (s.enqueue q default .reading) tr W := by
  have hwrite : (s.enqueue q default .reading).blockedWrite = s.blockedWrite := by
    funext q'
    by_cases hqq : q' = q
    · subst hqq; rw [blockedWrite_of_idle hq]; simp [PipeImpl.blockedWrite, PipeImpl.enqueue]
    · exact (enqueue_view h.pipe.queue _ _ hqq).1
  refine ⟨h.ledger.shape.enqueue h.pipe.queue hq _ rfl, by simpa using h.ledger.fifo,
    h.ledger.writes.of_view hwrite, h.ledger.reads.of_view fun q' y => ?_⟩
  by_cases hqq : q' = q
  · subst hqq
    rw [blockedRead_of_idle hq]
    simp [PipeImpl.blockedRead, PipeImpl.enqueue]
  · rw [(enqueue_view h.pipe.queue _ _ hqq).2]

/-- A write on a full pipe blocks. -/
theorem ChanInv.enqueue_write (h : ChanInv cf s tr W) {q : Party} (hq : s.phase q = .idle)
    {x : α} (hx : x ∉ W) : Ledger cf (s.enqueue q x .writing) tr (W ++ [x]) := by
  have hwrite : (s.enqueue q x .writing).blockedWrite = update s.blockedWrite q (some (0, x)) := by
    funext q'
    by_cases hqq : q' = q
    · subst hqq; simp [PipeImpl.blockedWrite, PipeImpl.enqueue]
    · rw [update_noteq hqq]; exact (enqueue_view h.pipe.queue _ _ hqq).1
  refine ⟨h.ledger.shape.enqueue h.pipe.queue hq _ rfl, by simpa using h.ledger.fifo,
    h.ledger.writes.block hx (blockedWrite_of_idle hq) hwrite,
    h.ledger.reads.of_view fun q' y => ?_⟩
  by_cases hqq : q' = q
  · subst hqq
    rw [blockedRead_of_idle hq]
    simp [PipeImpl.blockedRead, PipeImpl.enqueue]
  · rw [(enqueue_view h.pipe.queue _ _ hqq).2]

/-- `close()` on an empty pipe wakes its live readers with `done = 2`. -/
theorem ChanInv.close (h : ChanInv cf s tr W) (hfull : s.full = false) :
    Ledger cf { s with wq := [], waitx := closeAll s.waitx s.wq, closed := 2 } tr W := by
  set s' : PipeImpl α := { s with wq := [], waitx := closeAll s.waitx s.wq, closed := 2 }
  -- a record `close()` changes is live, so pending, and gets `done = 2`
  have hx : ∀ w, s'.waitx w = s.waitx w ∨
      (Live s w ∧ (s.waitx w).done = 0 ∧ (s'.waitx w).done = 2) := fun w => by
    show closeAll s.waitx s.wq w = s.waitx w ∨
      (Live s w ∧ (s.waitx w).done = 0 ∧ (closeAll s.waitx s.wq w).done = 2)
    rw [closeAll_apply]
    split
    · exact .inr ⟨‹_›, h.ledger.shape.pending w (‹Live s w›).1, rfl⟩
    · exact .inl rfl
  have hwrite : s'.blockedWrite = s.blockedWrite := funext fun q =>
    blockedWrite_congr rfl fun w hq => by
      rcases hx w with e | ⟨hl, -⟩
      · rw [e]; exact ⟨rfl, rfl⟩
      · have := h.pipe.wait.writer_full q w hq hl
        rw [hfull] at this; cases this
  refine ⟨h.ledger.shape.closeAll rfl rfl rfl,
    by rw [show s'.contents cf = s.contents cf from contents_congr rfl rfl rfl rfl]
       exact h.ledger.fifo,
    h.ledger.writes.of_view hwrite, h.ledger.reads.of_view fun q y => ?_⟩
  cases hph : s.phase q with
  | reading w =>
    rw [blockedRead_of_reading (show s'.phase q = .reading w from hph), blockedRead_of_reading hph]
    rcases hx w with e | ⟨-, h0, h2⟩
    · rw [e]
    · rw [h0, h2]; simp
  | idle =>
    rw [blockedRead_of_idle hph, blockedRead_of_idle (show s'.phase q = .idle from hph)]
  | writing w =>
    rw [blockedRead_of_writing hph, blockedRead_of_writing (show s'.phase q = .writing w from hph)]

/-- The exchange `wait → timeout` on the waitx of a blocked party wins. -/
theorem ChanInv.timeout (h : ChanInv cf s tr W) (hi : cf.inf = false) {q₀ : Party} {w : Nat}
    (hq : (s.phase q₀).waitx? = some w) (hst : (s.waitx w).state = .wait) :
    ChanInv cf (s.setWaitx w { s.waitx w with state := .timeout }) tr W := by
  have hwrite : (s.setWaitx w { s.waitx w with state := .timeout }).blockedWrite =
      s.blockedWrite := funext fun _ => blockedWrite_congr rfl fun v _ => timeout_done_val w v
  have hread : (s.setWaitx w { s.waitx w with state := .timeout }).blockedRead =
      s.blockedRead := funext fun _ => blockedRead_congr rfl fun v _ => timeout_done_val w v
  exact ⟨h.pipe.timeout w, h.ledger.shape.timeout hi hq hst,
    by simpa using h.ledger.fifo, h.ledger.writes.of_view hwrite,
    h.ledger.reads.of_view fun q y => by rw [hread]⟩

/-- A party leaving its call, with events that move no element. -/
theorem ChanInv.fifo_retire (h : ChanInv cf s tr W) (q : Party) {es : List (Event α)}
    (hc : committed es = []) (hr : received es = []) :
    received (tr ++ es) ++ (s.setPhase q .idle).contents cf = committed (tr ++ es) := by
  simp [hc, hr, h.ledger.fifo]

/-- The served readers after party `q₀` left its call. -/
theorem setPhase_idle_served (q₀ q : Party) (y : α) :
    (s.setPhase q₀ .idle).blockedRead q = some (1, y) ↔ s.blockedRead q = some (1, y) ∧ q ≠ q₀ := by
  rw [blockedRead_setPhase_idle]
  by_cases hqq : q = q₀
  · subst hqq; simp
  · simp [update_noteq hqq, hqq]

theorem retire_read_view {q₀ : Party} (hq : ∀ y, s.blockedRead q₀ ≠ some (1, y)) (q : Party)
    (y : α) : (s.setPhase q₀ .idle).blockedRead q = some (1, y) ↔ s.blockedRead q = some (1, y) := by
  rw [setPhase_idle_served]
  exact ⟨And.left, fun h' => ⟨h', fun e => hq y (e ▸ h')⟩⟩

theorem retire_write_view {q₀ : Party} {w : Nat} (hq : s.phase q₀ = .reading w) :
    (s.setPhase q₀ .idle).blockedWrite = s.blockedWrite := by
  rw [blockedWrite_setPhase_idle, ← blockedWrite_of_reading hq, update_eq_self]

theorem Phase.waitx?_eq_some {ph : Phase} {w : Nat} (h : ph.waitx? = some w) :
    ph = .reading w ∨ ph = .writing w := by
  cases ph <;> simp_all [Phase.waitx?]

/-- A blocked writer leaves its call and returns whether it was served. -/
theorem ChanInv.leave_writer (h : ChanInv cf s tr W) {q : Party} {w : Nat}
    (hph : s.phase q = .writing w) (hshape : Shape cf (s.setPhase q .idle)) :
    Ledger cf (s.setPhase q .idle)
      (tr ++ [.writeDone q ((s.waitx w).done != 0) (s.waitx w).val]) W :=
  ⟨hshape, h.fifo_retire q (by simp [committed]) (by simp [received]),
    h.ledger.writes.retire (blockedWrite_of_writing hph) (blockedWrite_setPhase_idle q),
    h.ledger.reads.frame (retire_read_view (by simp [blockedRead_of_writing hph]))
      (by simp [received]) (by simp [readValues])⟩

/-- A blocked reader leaves its call, with its element when it was served. -/
theorem ChanInv.leave_reader (h : ChanInv cf s tr W) {q : Party} {w : Nat}
    (hph : s.phase q = .reading w) (hshape : Shape cf (s.setPhase q .idle)) :
    Ledger cf (s.setPhase q .idle) (tr ++ if (s.waitx w).done = 1
      then [.readDone q true (some (s.waitx w).val)] else [.readDone q false none]) W := by
  have hw := retire_write_view hph
  by_cases h1 : (s.waitx w).done = 1
  · rw [if_pos h1]
    exact ⟨hshape, h.fifo_retire q (by simp [committed]) (by simp [received]),
      h.ledger.writes.frame hw (by simp [committed]) (by simp),
      h.ledger.reads.retire (by rw [blockedRead_of_reading hph, h1]) (setPhase_idle_served q)
        (by simp [received]) (by simp [readValues])⟩
  · rw [if_neg h1]
    exact ⟨hshape, h.fifo_retire q (by simp [committed]) (by simp [received]),
      h.ledger.writes.frame hw (by simp [committed]) (by simp),
      h.ledger.reads.frame (retire_read_view (by simp [blockedRead_of_reading hph, h1]))
        (by simp [received]) (by simp [readValues])⟩

/-- A blocked party whose waitx was served or closed returns. -/
theorem ChanInv.finish (h : ChanInv cf s tr W) {q : Party} {w : Nat}
    (hq : (s.phase q).waitx? = some w) (hd : (s.waitx w).done ≠ 0) :
    Ledger cf (s.finish q (s.phase q) w).1 (tr ++ (s.finish q (s.phase q) w).2) W := by
  have hshape := h.ledger.shape.retire fun v hv hm => by
    rw [hq, Option.some.injEq] at hv; subst hv; exact absurd (h.ledger.shape.pending _ hm) hd
  rcases Phase.waitx?_eq_some hq with hph | hph <;> rw [hph]
  · exact h.leave_reader hph hshape
  · have hl := h.leave_writer hph hshape
    rwa [show ((s.waitx w).done != 0) = true by simpa using hd] at hl

/-- A blocked party whose exchange `wait → timeout` won returns `false`. -/
theorem ChanInv.fail (h : ChanInv cf s tr W) {q : Party} {w : Nat}
    (hq : (s.phase q).waitx? = some w) (hst : (s.waitx w).state = .timeout) :
    Ledger cf (s.fail q (s.phase q) w).1 (tr ++ (s.fail q (s.phase q) w).2) W := by
  have hd := h.ledger.shape.timeout_pending q w hq hst
  have hshape := h.ledger.shape.retire fun v hv _ => by
    rw [hq, Option.some.injEq] at hv; subst hv; rw [hst]; simp
  rcases Phase.waitx?_eq_some hq with hph | hph <;> rw [hph]
  · have hl := h.leave_reader hph hshape
    rwa [if_neg (by omega)] at hl
  · have hl := h.leave_writer hph hshape
    rwa [hd] at hl

end Transitions

/-! ## The calls -/

section Calls

variable {cf : PipeConf} {s : PipeImpl α} {tr : List (Event α)} {W : List α}

theorem ChanInv.read_ledger [Inhabited α] (hc : cf.Ok) (h : ChanInv cf s tr W) {q : Party}
    (hq : s.phase q = .idle) : Ledger cf (s.read cf q).1 (tr ++ (s.read cf q).2) W := by
  have hr := h.pipe.ring
  unfold PipeImpl.read
  split
  · rename_i hne
    have hf : s.full = false := Bool.eq_false_iff.2 fun hf => hne (hr.full_eq hf)
    exact h.take q rfl rfl (List.Sublist.refl _) (contents_pop hc hr (.inl hne) rfl rfl rfl hf)
  · have heq : s.rx = s.wx := not_not.1 ‹_›
    split
    · rename_i hfull
      split
      · exact h.refill hc q heq hfull ‹_›
      · exact h.take q rfl rfl (List.nil_sublist _)
          (contents_pop hc hr (.inr hfull) rfl rfl rfl rfl)
    · split
      · exact h.quiet rfl rfl (List.Sublist.refl _) rfl (by simp [committed])
          (by simp [received]) (by simp [readValues]) (by simp)
      · rw [List.append_nil]
        exact h.enqueue_read hq

theorem ChanInv.write_ledger (hc : cf.Ok) (h : ChanInv cf s tr W) {q : Party}
    (hq : s.phase q = .idle) {x : α} (hx : x ∉ W) :
    Ledger cf (s.write cf q x).1 (tr ++ (s.write cf q x).2) (W ++ [x]) := by
  have hr := h.pipe.ring
  unfold PipeImpl.write
  split
  · exact h.reject q hx
  · split
    · rename_i hne
      have hf : s.full = false := Bool.eq_false_iff.2 fun hf => hne (hr.full_eq hf)
      exact h.push q hx rfl rfl (List.Sublist.refl _)
        (contents_push hc hr hf x rfl rfl rfl (by simp [hf]))
    · have heq : s.rx = s.wx := not_not.1 ‹_›
      split
      · rename_i hnf
        have hf : s.full = false := by simpa using hnf
        split
        · exact h.handoff q hx heq hf ‹_›
        · exact h.push q hx rfl rfl (List.nil_sublist _)
            (contents_push hc hr hf x rfl rfl rfl (by simp [hf]))
      · rw [List.append_nil]
        exact h.enqueue_write hq hx

/-- A step that changes nothing the channel invariant reads. -/
theorem ChanInv.stay (h : ChanInv cf s tr W) {s' : PipeImpl α} (hp : s'.phase = s.phase)
    (hw : s'.waitx = s.waitx) (hwq : s'.wq = s.wq) (hcont : s'.contents cf = s.contents cf) :
    Ledger cf s' tr W := by
  have hl : Ledger cf s' (tr ++ []) W :=
    h.quiet hp hw (hwq ▸ List.Sublist.refl _) hcont rfl rfl rfl (by simp)
  rwa [List.append_nil] at hl

theorem ChanInv.closeEnd_ledger (h : ChanInv cf s tr W) : Ledger cf s.closeEnd tr W := by
  unfold PipeImpl.closeEnd
  split
  · exact h.close ‹_ ∧ _›.2
  · exact h.stay rfl rfl rfl (contents_congr rfl rfl rfl rfl)

end Calls

theorem written_cons (a : Action α) (as : List (Action α)) :
    written (a :: as) = written [a] ++ written as := by
  cases a <;> rfl

theorem written_of_ne {a : Action α} (ha : ∀ q x, a ≠ .write q x) : written [a] = [] := by
  cases a with
  | write q x => exact absurd rfl (ha q x)
  | _ => rfl

variable {cf : PipeConf} {s : PipeImpl α} {tr : List (Event α)} {W : List α}

/-- Every step keeps the channel invariant; a write adds its element to the written ones. -/
theorem step_chanInv [Inhabited α] (hc : cf.Ok) (h : ChanInv cf s tr W) {a : Action α}
    {r : PipeImpl α × List (Event α)} (hs : step cf s a = some r)
    (hW : ∀ x ∈ written [a], x ∉ W) : ChanInv cf r.1 (tr ++ r.2) (W ++ written [a]) := by
  refine ⟨step_inv hc h.pipe hs, ?_⟩
  cases step_cases hs with
  | read q hq => simp only [written, List.append_nil]; exact h.read_ledger hc hq
  | write q x hq => exact h.write_ledger hc hq (hW x (by simp [written]))
  | closeBegin =>
    simp only [written, List.append_nil]; exact h.stay rfl rfl rfl (contents_congr rfl rfl rfl rfl)
  | closeEnd => simp only [written, List.append_nil]; exact h.closeEnd_ledger
  | expire ha q hw hi hst =>
    simp only [written_of_ne ha, List.append_nil]; exact (h.timeout hi hw hst).ledger
  | fail ha q hw hst => simp only [written_of_ne ha, List.append_nil]; exact h.fail hw hst
  | finish ha q hw hd => simp only [written_of_ne ha, List.append_nil]; exact h.finish hw hd
  | expireFail ha q hw hi hst =>
    simp only [written_of_ne ha, List.append_nil]
    exact (h.timeout hi hw hst).fail hw (by simp [PipeImpl.setWaitx])
  | stay ha => simp only [written_of_ne ha, List.append_nil]; exact h.stay rfl rfl rfl rfl

/-- A run keeps the channel invariant when the elements written are distinct. -/
theorem run_chanInv [Inhabited α] (hc : cf.Ok) : ∀ (as : List (Action α)) {s : PipeImpl α}
    {tr : List (Event α)} {W : List α} {r : PipeImpl α × List (Event α)},
    ChanInv cf s tr W → (W ++ written as).Nodup → run cf s as = some r →
    ChanInv cf r.1 (tr ++ r.2) (W ++ written as)
  | [], _, _, _, _, h, _, hs => by cases hs; simpa [written] using h
  | a :: as, s, tr, W, r, h, hW, hs => by
    simp only [run, Option.bind_eq_some, Option.map_eq_some'] at hs
    obtain ⟨r₁, h₁, r₂, h₂, rfl⟩ := hs
    rw [written_cons, ← List.append_assoc] at hW ⊢
    have hdis : ∀ x ∈ written [a], x ∉ W := fun x hx hxW =>
      (List.nodup_append.1 (List.nodup_append.1 hW).1).2.2 hxW hx
    have := run_chanInv hc as (step_chanInv hc h h₁ hdis) hW h₂
    simpa [List.append_assoc] using this

theorem make_chanInv [Inhabited α] (hc : cf.Ok) :
    ChanInv cf (PipeImpl.make : PipeImpl α) [] [] := by
  have hp : ∀ q w, ((PipeImpl.make : PipeImpl α).phase q).waitx? ≠ some w := fun _ _ h => by
    cases h
  have hw : ∀ q, (PipeImpl.make : PipeImpl α).blockedWrite q = none := fun _ => blockedWrite_of_idle rfl
  have hr : ∀ q, (PipeImpl.make : PipeImpl α).blockedRead q = none := fun _ => blockedRead_of_idle rfl
  refine ⟨make_inv hc, ⟨⟨fun _ h => (by cases h), fun _ h => (by cases h),
    fun _ _ h => (by cases h), fun _ _ _ h => absurd h (hp _ _),
    fun _ _ h => absurd h (hp _ _), fun _ _ _ h => absurd h (hp _ _)⟩,
    by simp [PipeImpl.contents, PipeImpl.count, PipeImpl.make, ringDist, received, committed],
    ⟨List.nodup_nil, fun _ h => (by cases h), fun q _ _ h => (by rw [hw] at h; cases h),
      fun q _ _ _ _ h => (by rw [hw] at h; cases h), fun _ _ _ h => (by cases h),
      fun q _ _ _ _ h => (by rw [hw] at h; cases h), fun _ h => (by cases h), List.nodup_nil⟩,
    ⟨fun _ h => (by cases h), List.nodup_nil, fun q _ h => (by rw [hr] at h; cases h),
      fun q _ _ h => (by rw [hr] at h; cases h), fun _ h => (by cases h)⟩⟩⟩

/-! ## Every run -/

/-- A pipe with `buf_size = k * blk_size`, `k ≥ 1`, is a FIFO channel along every interleaving
whose writes write distinct elements: the received elements then the ring are the committed
ones in order; nothing is committed, received or returned twice, and what is committed was
written; each read that returns `true` returns a received element, and each received element is
returned or held by a served reader; each write returns once, `true` exactly when its element
was committed, and each committed element belongs to a write that returned `true` or to a
served blocked writer; the ring holds the committed elements that were not received.  A write
on a closed pipe fails at once, and so does a read on a closed pipe whose ring is empty; a read
or a write fails only once `close()` has begun or when the pipe has a timeout. -/
theorem pipe_linearizable [Inhabited α] (k blk ms : Nat) (hk : 0 < k) (hb : 0 < blk)
    (as : List (Action α)) (hd : (written as).Nodup) (s : PipeImpl α) (tr : List (Event α))
    (h : run ⟨k * blk, blk, ms⟩ PipeImpl.make as = some (s, tr)) :
    received tr ++ s.contents ⟨k * blk, blk, ms⟩ = committed tr ∧
    (committed tr).Nodup ∧ (received tr).Nodup ∧ (readValues tr).Nodup ∧
    (∀ x ∈ committed tr, x ∈ written as) ∧
    (∀ x ∈ readValues tr, x ∈ received tr) ∧
    (∀ x ∈ received tr, x ∈ readValues tr ∨ ∃ q, s.blockedRead q = some (1, x)) ∧
    (doneValues tr).Nodup ∧
    (∀ q b x, .writeDone q b x ∈ tr → (b = true ↔ x ∈ committed tr)) ∧
    (∀ x ∈ committed tr, (∃ q, .writeDone q true x ∈ tr) ∨
      ∃ q d, s.blockedWrite q = some (d, x) ∧ d ≠ 0) ∧
    s.count ⟨k * blk, blk, ms⟩ + (received tr).length = (committed tr).length ∧
    (∀ q x, s.phase q = .idle → s.closed ≠ 0 →
      step ⟨k * blk, blk, ms⟩ s (.write q x) = some (s, [.writeDone q false x])) ∧
    (∀ q, s.phase q = .idle → s.closed ≠ 0 → s.rx = s.wx → s.full = false →
      step ⟨k * blk, blk, ms⟩ s (.read q) = some (s, [.readDone q false none])) ∧
    (∀ q o, .readDone q false o ∈ tr → s.closed ≠ 0 ∨ ms ≠ msInfinite) ∧
    (∀ q x, .writeDone q false x ∈ tr → s.closed ≠ 0 ∨ ms ≠ msInfinite) := by
  have hc : PipeConf.Ok ⟨k * blk, blk, ms⟩ := ⟨hb, Nat.mul_mod_left k blk, Nat.mul_pos hk hb⟩
  have hi := run_chanInv hc as (make_chanInv hc) (by simpa using hd) h
  have hfail := run_failInv as make_failInv h
  simp only [List.nil_append] at hi hfail
  obtain ⟨-, -, hf, hw, hr⟩ := hi
  have hrn : (received tr).Nodup := (List.nodup_append.1 (hf ▸ hw.commit_nodup)).1
  have hlen := congrArg List.length hf
  rw [List.length_append, contents_length] at hlen
  exact ⟨hf, hw.commit_nodup, hrn, hr.read_nodup, hw.commit_mem, hr.read_mem, hr.received_done,
    hw.done_nodup, fun q b x hx => (hw.done_mem q b x hx).2, hw.commit_done, by omega,
    fun _ x hq hc => step_write_closed hq hc x, fun _ hq hc he hf => step_read_closed hq hc he hf,
    fun q o ho => (hfail.read q o ho).closed_or_ms, fun q x hx => (hfail.write q x hx).closed_or_ms⟩

/-- A pipe of one block of 4 bytes: the first write fills it, the second blocks, a read takes
the first element and moves the second in, the blocked writer returns, and a second read takes
the second element. -/
theorem pipe_linearizable_refill : ∃ s tr,
    run ⟨1 * 4, 4, msInfinite⟩ PipeImpl.make
      [.write (.co 1) 1, .write (.co 2) 2, .read (.co 3), .resume 2, .read (.co 3)] =
        some (s, tr) ∧
    (written [.write (.co 1) 1, .write (.co 2) 2, .read (.co 3), .resume 2,
      .read (.co 3)] : List Nat).Nodup ∧
    (received tr ++ s.contents ⟨1 * 4, 4, msInfinite⟩ = committed tr ∧
    (committed tr).Nodup ∧ (received tr).Nodup ∧ (readValues tr).Nodup ∧
    (∀ x ∈ committed tr, x ∈ written [.write (.co 1) 1, .write (.co 2) 2, .read (.co 3),
      .resume 2, .read (.co 3)]) ∧
    (∀ x ∈ readValues tr, x ∈ received tr) ∧
    (∀ x ∈ received tr, x ∈ readValues tr ∨ ∃ q, s.blockedRead q = some (1, x)) ∧
    (doneValues tr).Nodup ∧
    (∀ q b x, .writeDone q b x ∈ tr → (b = true ↔ x ∈ committed tr)) ∧
    (∀ x ∈ committed tr, (∃ q, .writeDone q true x ∈ tr) ∨
      ∃ q d, s.blockedWrite q = some (d, x) ∧ d ≠ 0) ∧
    s.count ⟨1 * 4, 4, msInfinite⟩ + (received tr).length = (committed tr).length ∧
    (∀ q x, s.phase q = .idle → s.closed ≠ 0 →
      step ⟨1 * 4, 4, msInfinite⟩ s (.write q x) = some (s, [.writeDone q false x])) ∧
    (∀ q, s.phase q = .idle → s.closed ≠ 0 → s.rx = s.wx → s.full = false →
      step ⟨1 * 4, 4, msInfinite⟩ s (.read q) = some (s, [.readDone q false none])) ∧
    (∀ q o, .readDone q false o ∈ tr → s.closed ≠ 0 ∨ msInfinite ≠ msInfinite) ∧
    (∀ q x, .writeDone q false x ∈ tr → s.closed ≠ 0 ∨ msInfinite ≠ msInfinite)) := by
  obtain ⟨s, tr, h⟩ : ∃ s tr, run ⟨1 * 4, 4, msInfinite⟩ PipeImpl.make
      [.write (.co 1) 1, .write (.co 2) (2 : Nat), .read (.co 3), .resume 2, .read (.co 3)] =
        some (s, tr) := ⟨_, _, rfl⟩
  exact ⟨s, tr, h, by decide, pipe_linearizable 1 4 msInfinite (by decide) (by decide) _
    (by decide) s tr h⟩

end Coost.Pipe
