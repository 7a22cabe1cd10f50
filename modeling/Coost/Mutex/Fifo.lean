import Coost.Mutex.Safety

/-!
# The order in which `mutex_impl` hands the mutex on

`unlock` pops the head of `_wq`.  A coroutine entry names the coroutine, and `unlock` sends that
coroutine to its mailbox.  A thread entry is `nullptr`: `unlock` sets `_lock = 2` and calls
`notify_one`, and whichever waiting thread sees `_lock == 2` first takes the mutex.  The
condition variable may wake any of the waiting threads, so the queue order of the thread entries
is kept, but not which thread fills which entry.

`Event` is what a step shows of the party that takes it: it blocked (`enq`), it took the free
mutex (`fast`), or it acquired the mutex after blocking (`handoff`).  `runLog` is `run` that
records them.

* `FifoHandoff` is the order the spec promises, party by party.  `thread_overtakes` is an
  interleaving of three threads that breaks it: the second thread to block acquires first.
* `FifoEntries` is the order the code keeps: the acquisitions after blocking follow the queue
  order of the entries, a coroutine in its own place and a thread in some thread entry, and no
  party takes the mutex without blocking while an earlier party is still queued or being handed
  the mutex.  `mutexImpl_fifo_entries` proves it of every interleaving, from `LogInv`, which ties
  the recorded events to `_wq` and to the hand-off in flight.
-/

namespace Coost.Mutex

open Function

/-- What one step shows of the party that takes it. -/
inductive Event
  /-- The party found the mutex taken and pushed its entry on `_wq`. -/
  | enq (p : Party)
  /-- The party took the free mutex in `lock` or `try_lock`. -/
  | fast (p : Party)
  /-- The party had blocked and now holds the mutex: a resumed coroutine or a woken thread. -/
  | handoff (p : Party)
  deriving DecidableEq, Repr

/-- The event of a party whose phase goes from `a` to `b`. -/
def observe (p : Party) : Phase → Phase → List Event
  | .idle, .waiting => [.enq p]
  | .idle, .holding => [.fast p]
  | .waiting, .holding => [.handoff p]
  | .ready, .holding => [.handoff p]
  | _, _ => []

/-- `run`, recording the events of the interleaving after `log`. -/
def runLog (m : MutexImpl) (log : List Event) : List Action → Option (MutexImpl × List Event)
  | [] => some (m, log)
  | a :: as => (step m a).bind fun m' =>
      runLog m' (log ++ observe a.party (m.phase a.party) (m'.phase a.party)) as

/-- The parties that blocked, in the order they pushed their entries. -/
def enqueued (log : List Event) : List Party :=
  log.filterMap fun | .enq p => some p | _ => none

/-- The parties that acquired the mutex after blocking, in the order they acquired it. -/
def handedOff (log : List Event) : List Party :=
  log.filterMap fun | .handoff p => some p | _ => none

@[simp] theorem enqueued_append (l l' : List Event) :
    enqueued (l ++ l') = enqueued l ++ enqueued l' := List.filterMap_append l l' _

@[simp] theorem handedOff_append (l l' : List Event) :
    handedOff (l ++ l') = handedOff l ++ handedOff l' := List.filterMap_append l l' _

@[simp] theorem enqueued_enq (p : Party) : enqueued [.enq p] = [p] := rfl
@[simp] theorem enqueued_fast (p : Party) : enqueued [.fast p] = [] := rfl
@[simp] theorem enqueued_handoff (p : Party) : enqueued [.handoff p] = [] := rfl
@[simp] theorem handedOff_enq (p : Party) : handedOff [.enq p] = [] := rfl
@[simp] theorem handedOff_fast (p : Party) : handedOff [.fast p] = [] := rfl
@[simp] theorem handedOff_handoff (p : Party) : handedOff [.handoff p] = [p] := rfl

/-- Strict FIFO, party by party: the parties that block acquire in the order they blocked, and
a party that takes the mutex without blocking does so only once every party that blocked before
it has acquired. -/
def FifoHandoff (log : List Event) : Prop :=
  handedOff log <+: enqueued log ∧
  ∀ pre p, pre ++ [.fast p] <+: log → (handedOff pre).length = (enqueued pre).length

/-- FIFO by queue entry: as `FifoHandoff`, with each party replaced by the entry it pushes, its
`Coroutine*` or `nullptr`. -/
def FifoEntries (log : List Event) : Prop :=
  (handedOff log).map Party.entry <+: (enqueued log).map Party.entry ∧
  ∀ pre p, pre ++ [.fast p] <+: log → (handedOff pre).length = (enqueued pre).length

/-- Three threads: thread 0 takes the mutex, threads 1 and 2 block in that order, thread 0
unlocks, and the condition variable wakes thread 2 first. -/
theorem thread_overtakes :
    (runLog MutexImpl.init []
        [.lock (.thread 0), .lock (.thread 1), .lock (.thread 2), .unlock (.thread 0), .wake 2]).map
        Prod.snd =
      some [.fast (.thread 0), .enq (.thread 1), .enq (.thread 2), .handoff (.thread 2)] ∧
    ¬ FifoHandoff [.fast (.thread 0), .enq (.thread 1), .enq (.thread 2), .handoff (.thread 2)] :=
  ⟨by decide, fun h => absurd h.1 (by decide)⟩

/-! ## The recorded events against the queue -/

/-- The entry of the hand-off in flight: none, a coroutine in its mailbox, or a thread entry
whose `nullptr` `unlock` popped and answered with `_lock = 2`. -/
def PendingEntry (m : MutexImpl) : List (Option Nat) → Prop
  | [] => (∀ p, m.phase p ≠ .ready) ∧ m.lock ≠ 2
  | [some c] => m.phase (.co c) = .ready
  | [none] => m.lock = 2
  | _ => False

/-- The recorded events against the state: every entry ever pushed has been acquired, is in
flight, or is still in `_wq`, in that order; and no party took the mutex without blocking while
an entry was outstanding. -/
structure LogInv (m : MutexImpl) (log : List Event) : Prop where
  queue : ∃ pend, PendingEntry m pend ∧
    (enqueued log).map Party.entry = (handedOff log).map Party.entry ++ pend ++ m.wq
  fast : ∀ pre p, pre ++ [.fast p] <+: log → (handedOff pre).length = (enqueued pre).length

variable {m m' : MutexImpl} {log : List Event}

theorem LogInv.fast_append (hl : LogInv m log) {obs : List Event}
    (hobs : ∀ p, obs = [.fast p] → (handedOff log).length = (enqueued log).length)
    (hlen : obs = [] ∨ ∃ e, obs = [e]) :
    ∀ pre p, pre ++ [.fast p] <+: log ++ obs → (handedOff pre).length = (enqueued pre).length := by
  intro pre p hpre
  rcases hlen with rfl | ⟨e, rfl⟩
  · exact hl.fast pre p (by simpa using hpre)
  · rcases List.prefix_concat_iff.mp hpre with h | h
    · obtain ⟨rfl, he⟩ := List.append_inj' h rfl
      obtain rfl : Event.fast p = e := List.singleton_inj.mp he
      exact hobs p rfl
    · exact hl.fast pre p h

/-- With `_lock = 0` nothing is outstanding, so the counts of blocked and served parties agree. -/
theorem LogInv.balanced (hi : Inv m) (hl : LogInv m log) (h0 : m.lock = 0) :
    (handedOff log).length = (enqueued log).length := by
  obtain ⟨pend, hp, heq⟩ := hl.queue
  have hpend : pend = [] := by
    match pend, hp with
    | [], _ => rfl
    | [some c], hp => exact absurd (hi.owns_lock _ (Or.inr hp)) (by omega)
    | [none], hp => exact absurd (show m.lock = 2 from hp) (by omega)
  have := congrArg List.length heq
  simp [hpend, hi.free_empty h0] at this
  omega

/-- The hand-off in flight is determined by the state: none while some party holds the mutex or
it is free, a `nullptr` entry while `_lock = 2`, and a coroutine's entry while it is in its
mailbox. -/
theorem PendingEntry.eq (hi : Inv m) {pend : List (Option Nat)} (hp : PendingEntry m pend) :
    ((∃ p, m.phase p = .holding) ∨ m.lock = 0 → pend = []) ∧
    (m.lock = 2 → pend = [none]) ∧
    (∀ c, m.phase (.co c) = .ready → pend = [some c]) := by
  match pend, hp with
  | [], hp => exact ⟨fun _ => rfl, fun h2 => absurd h2 hp.2, fun c hc => absurd hc (hp.1 _)⟩
  | [some d], hp =>
    have hr : m.phase (.co d) = .ready := hp
    have hl : m.lock = 1 := hi.owns_lock _ (Or.inr hr)
    refine ⟨?_, fun h2 => by omega, fun c hc => ?_⟩
    · rintro (⟨p, hp'⟩ | h0)
      · have := hi.owns_unique _ _ (Or.inr hr) (Or.inl hp')
        subst this
        rw [hr] at hp'
        cases hp'
      · omega
    · have := hi.owns_unique _ _ (Or.inr hp) (Or.inr hc)
      injection this with this
      rw [this]
  | [none], hp =>
    have h2 : m.lock = 2 := hp
    refine ⟨?_, fun _ => rfl, fun c hc => absurd (hi.owns_lock _ (Or.inr hc)) (by omega)⟩
    rintro (⟨p, hp'⟩ | h0)
    · exact absurd (hi.owns_lock _ (Or.inl hp')) (by omega)
    · omega

/-- Moving party `p` to a phase other than `ready` puts no other party in its mailbox. -/
theorem update_ne_ready {f : Party → Phase} {p : Party} {x : Phase} (hx : x ≠ .ready)
    (hf : ∀ q, q ≠ p → f q ≠ .ready) (q : Party) : update f p x q ≠ .ready := by
  by_cases hq : q = p
  · subst hq; rwa [update_same]
  · rw [update_noteq hq]; exact hf q hq

/-- With no hand-off in flight after a step, the recorded events stay tied to the queue. -/
theorem pendingEntry_nil_of {m' : MutexImpl} (h2 : m'.lock ≠ 2) (hr : ∀ p, m'.phase p ≠ .ready) :
    PendingEntry m' [] := ⟨hr, h2⟩

/-- Every step keeps `LogInv`. -/
theorem step_logInv (hi : Inv m) (hl : LogInv m log) {a : Action} (h : step m a = some m') :
    LogInv m' (log ++ observe a.party (m.phase a.party) (m'.phase a.party)) := by
  obtain ⟨pend, hp, heq⟩ := hl.queue
  have hpe := PendingEntry.eq hi hp
  /- the fast path of `try_lock` and `lock` -/
  have take : ∀ p, m.phase p = .idle → m.lock = 0 →
      LogInv { m with lock := 1, phase := update m.phase p .holding } (log ++ [.fast p]) := by
    intro p hp0 h0
    have hnil := hpe.1 (Or.inr h0)
    subst hnil
    exact ⟨⟨[], pendingEntry_nil_of (by simp) (update_ne_ready nofun fun q _ => hp.1 q),
      by simpa using heq⟩, hl.fast_append (fun _ _ => hl.balanced hi h0) (Or.inr ⟨_, rfl⟩)⟩
  rcases step_cases h with ⟨p, rfl, hp0, rfl⟩ | ⟨p, rfl, hp0, rfl⟩ | ⟨p, rfl, hp0, rfl⟩ |
    ⟨t, rfl, hp0, rfl⟩ | ⟨c, rfl, hp0, rfl⟩
  · -- `try_lock`
    unfold tryLock
    split
    · simpa [Action.party, hp0, observe] using take p hp0 ‹_›
    · simpa [Action.party, hp0, observe] using hl
  · -- `lock`
    unfold lock
    split
    · simpa [Action.party, hp0, observe] using take p hp0 ‹_›
    · rename_i h0
      simp only [Action.party, update_same, hp0, observe]
      refine ⟨⟨pend, ?_, by simp [heq]⟩, hl.fast_append (fun _ h => by simp at h) (Or.inr ⟨_, rfl⟩)⟩
      match pend, hp with
      | [], hp => exact pendingEntry_nil_of hp.2 (update_ne_ready nofun fun q _ => hp.1 q)
      | [some c], hp =>
        have hcp : Party.co c ≠ p := by
          rintro rfl
          have hr : m.phase (.co c) = .ready := hp
          rw [hp0] at hr
          cases hr
        show update m.phase p .waiting (.co c) = .ready
        rw [update_noteq hcp]; exact hp
      | [none], hp => exact hp
  · -- `unlock`
    have hnil := hpe.1 (Or.inl ⟨p, hp0⟩)
    subst hnil
    unfold unlock
    split
    · rename_i hwq
      simp only [Action.party, update_same, hp0, observe, List.append_nil]
      exact ⟨⟨[], pendingEntry_nil_of (by simp) (update_ne_ready nofun fun q _ => hp.1 q),
        by simpa [hwq] using heq⟩, hl.fast⟩
    · rename_i c rest hwq
      have hcp : Party.co c ≠ p := by
        intro e
        have := hi.queued c (by simp [hwq])
        rw [e, hp0] at this
        cases this
      simp only [Action.party, update_noteq hcp.symm, update_same, hp0, observe, List.append_nil]
      exact ⟨⟨[some c], by simp [PendingEntry], by simpa [hwq] using heq⟩, hl.fast⟩
    · rename_i rest hwq
      simp only [Action.party, update_same, hp0, observe, List.append_nil]
      exact ⟨⟨[none], rfl, by simpa [hwq] using heq⟩, hl.fast⟩
  · -- a waiting thread wakes
    unfold wake
    split
    · rename_i h2
      have hnone := hpe.2.1 h2
      subst hnone
      simp only [Action.party, update_same, hp0, observe]
      exact ⟨⟨[], pendingEntry_nil_of (by simp)
        (update_ne_ready nofun fun q _ hr => hi.not_owns (by omega) q (Or.inr hr)),
        by simpa using heq⟩, hl.fast_append (fun _ h => by simp at h) (Or.inr ⟨_, rfl⟩)⟩
    · simpa [Action.party, hp0, observe] using hl
  · -- a coroutine returns from `lock`
    have hc := hpe.2.2 c hp0
    subst hc
    simp only [Action.party, resume, update_same, hp0, observe]
    have := hi.owns_lock _ (Or.inr hp0)
    exact ⟨⟨[], pendingEntry_nil_of (show m.lock ≠ 2 by omega)
      (update_ne_ready nofun fun q hq hr => hq (hi.owns_unique _ _ (Or.inr hr) (Or.inr hp0))),
      by simpa using heq⟩, hl.fast_append (fun _ h => by simp at h) (Or.inr ⟨_, rfl⟩)⟩

theorem init_logInv : LogInv MutexImpl.init [] :=
  ⟨⟨[], pendingEntry_nil_of (by simp [MutexImpl.init]) (by simp [MutexImpl.init]), rfl⟩,
    fun pre p h => by simpa using h.length_le⟩

/-- `runLog` keeps `Inv` and `LogInv`. -/
theorem runLog_inv : ∀ (as : List Action) (m : MutexImpl) (log : List Event) (m' : MutexImpl)
    (log' : List Event), Inv m → LogInv m log → runLog m log as = some (m', log') →
      Inv m' ∧ LogInv m' log'
  | [], m, log, m', log', hi, hl, h => by
    simp only [runLog, Option.some.injEq, Prod.mk.injEq] at h
    obtain ⟨rfl, rfl⟩ := h
    exact ⟨hi, hl⟩
  | a :: as, m, log, m', log', hi, hl, h => by
    simp only [runLog, Option.bind_eq_some] at h
    obtain ⟨m₁, h₁, h₂⟩ := h
    exact runLog_inv as _ _ _ _ (step_inv hi h₁) (step_logInv hi hl h₁) h₂

/-- The states of `runLog` are those of `run`. -/
theorem runLog_fst : ∀ (as : List Action) (m : MutexImpl) (log : List Event),
    (runLog m log as).map Prod.fst = run m as
  | [], _, _ => rfl
  | a :: as, m, log => by
    simp only [runLog, run_cons]
    cases step m a with
    | none => rfl
    | some m' => exact runLog_fst as m' _

/-- FIFO by queue entry over every interleaving: the parties that acquire the mutex after
blocking do so in the queue order of their entries, a coroutine in its own place and a thread in
the place of some thread entry, and a party that takes the mutex without blocking does so only
when every party that blocked before it has acquired. -/
theorem mutexImpl_fifo_entries (as : List Action) (m : MutexImpl) (log : List Event)
    (h : runLog MutexImpl.init [] as = some (m, log)) : FifoEntries log := by
  obtain ⟨-, hl⟩ := runLog_inv as _ _ _ _ init_inv init_logInv h
  obtain ⟨pend, -, heq⟩ := hl.queue
  exact ⟨⟨pend ++ m.wq, by rw [heq, List.append_assoc]⟩, hl.fast⟩

/-- Thread 0 takes the mutex, thread 1 and coroutine 2 block in that order, thread 0 unlocks
and thread 1 wakes with the mutex, then it unlocks and coroutine 2 is resumed with it. -/
theorem mutexImpl_fifo_entries_mixed : ∃ m log,
    runLog MutexImpl.init []
      [.lock (.thread 0), .lock (.thread 1), .lock (.co 2), .unlock (.thread 0), .wake 1,
        .unlock (.thread 1), .resume 2] = some (m, log) ∧ FifoEntries log := by
  obtain ⟨m, log, h⟩ : ∃ m log, runLog MutexImpl.init []
      [.lock (.thread 0), .lock (.thread 1), .lock (.co 2), .unlock (.thread 0), .wake 1,
        .unlock (.thread 1), .resume 2] = some (m, log) := ⟨_, _, rfl⟩
  exact ⟨m, log, h, mutexImpl_fifo_entries _ m log h⟩

end Coost.Mutex
