import Coost.Event.Basic

/-!
# What `event_impl`, `sync_event_impl` and `wait_group` guarantee

Four properties of the events, three of which the code breaks.

* A reused record keeps the coroutine that timed out.  `event_impl::wait` reuses a timed-out
  `waitx_t` from the front of `_wc` and resets only its `state`; `make_waitx(co)`, the other
  path, also records `co`.  `signal_resumes_stale_coroutine` is the interleaving: coroutine 1
  times out, coroutine 2 waits without timeout and reuses the record, and `signal` posts
  coroutine 1.  `Stranded` and `run_stranded` show that coroutine 2 then waits forever.
* Thread waits.  A thread that waits without timeout returns `true` from any return of
  `_cv.wait`, spurious ones included, and a timed wait that reports a timeout returns `false`
  even when `signal` already counted it in `_wt` (`_sn` moved): `thread_wait_phantom_and_lost`.
* `wait_group::wait` is `event_impl::wait((uint32_t)-1)` and never reads `_wg`:
  `waitGroup_wait_ignores_counter`.
* Manual reset.  `signal` sets `_signaled` only when it wakes nobody
  (`manual_signal_with_waiter_not_latched`); once set, it stays set until `reset`, and every
  `wait` that starts meanwhile returns `true` at once (`manualReset_latch`).
-/

namespace Coost.Event

open Function

/-! ## A reused record keeps the coroutine that timed out -/

/-- Coroutine `b` is suspended in `wait` with no timer, is not in the mailbox, and no record on
the heap names it, so neither `signal` nor a timer can resume it. -/
def Stranded (b : Nat) (e : EventImpl) : Prop :=
  e.phase (.co b) = .coWait false ∧ b ∉ e.mailbox ∧ ∀ x, (e.waitx x).co ≠ b

/-- `signalFirst` changes the state of records, never their coroutine. -/
theorem signalFirst_co (waitx : Nat → Waitx) (l : List Nat) (x : Nat) :
    ((signalFirst waitx l).1 x).co = (waitx x).co := by
  induction l with
  | nil => rfl
  | cons w ws ih =>
    unfold signalFirst
    split
    · by_cases hx : x = w
      · subst hx; simp
      · simp [hx]
    · exact ih

/-- The coroutine `signalFirst` wakes is the coroutine of some record. -/
theorem signalFirst_woken (waitx : Nat → Waitx) (l : List Nat) {c : Nat}
    (h : (signalFirst waitx l).2.1 = some c) : ∃ x, (waitx x).co = c := by
  induction l with
  | nil => simp [signalFirst] at h
  | cons w ws ih =>
    unfold signalFirst at h
    split at h
    · exact ⟨w, by simpa using h⟩
    · exact ih h

variable {b : Nat} {e e' : EventImpl}

theorem signal_stranded (hs : Stranded b e) : Stranded b (signal e) := by
  obtain ⟨hp, hm, hx⟩ := hs
  refine ⟨hp, ?_, fun x => ?_⟩
  · simp only [signal]
    split
    · simpa using hm
    · rename_i hwt
      cases hw : (signalFirst e.waitx e.wc).2.1 with
      | none => simpa [hw] using hm
      | some c =>
        obtain ⟨x, rfl⟩ := signalFirst_woken _ _ hw
        simpa [hw, hm] using (hx x).symm
  · simp only [signal]
    split
    · exact hx x
    · rw [signalFirst_co]; exact hx x

/-- Once stranded, a coroutine stays stranded whatever the other parties do. -/
theorem step_stranded (hs : Stranded b e) {a : Action} (h : step e a = some e') :
    Stranded b e' := by
  obtain ⟨hp, hm, hx⟩ := hs
  cases a with
  | wait p ms =>
    simp only [step] at h
    split at h
    · rename_i hfree
      cases h
      have hpb : p ≠ .co b := by rintro rfl; simp [hp, Phase.isFree] at hfree
      cases p with
      | co c =>
        have hcb : c ≠ b := fun e => hpb (e ▸ rfl)
        simp only [wait, waitCo]
        split_ifs
        · exact ⟨by simp [takeSignal, hpb.symm, hp], hm, hx⟩
        · exact ⟨by simp [hpb.symm, hp], hm, hx⟩
        · refine ⟨by simp [hpb.symm, hp], hm, fun x => ?_⟩
          cases hpop : (popTimedOut e.waitx e.wc).1 with
          | none =>
            by_cases hxn : x = e.next
            · subst hxn; simp [hcb]
            · simp [hxn, hx x]
          | some y => simpa using hx x
      | thread t =>
        simp only [wait, waitThread]
        split_ifs <;> exact ⟨by simp [takeSignal, hp], hm, hx⟩
    · cases h
  | wake t =>
    simp only [step] at h
    split at h <;> cases h
    exact ⟨by simp [wake, hp], hm, hx⟩
  | timeout t =>
    simp only [step] at h
    split at h <;> cases h
    exact ⟨by simp [timeout, hp], hm, hx⟩
  | signal =>
    cases h
    exact signal_stranded ⟨hp, hm, hx⟩
  | signalOutside x =>
    simp only [step] at h
    split at h
    · cases h
      unfold signalOutside
      split
      · exact ⟨hp, by simpa [hm] using (hx x).symm, fun y => by simpa using hx y⟩
      · exact ⟨hp, hm, hx⟩
    · cases h
  | expire c =>
    simp only [step] at h
    split at h
    · rename_i hc
      cases h
      have hcb : Party.co c ≠ .co b := by
        intro hcb
        rw [hcb, hp] at hc
        cases hc
      unfold expire
      split
      · exact ⟨by simp [hcb.symm, hp], hm, hx⟩
      · split
        · exact ⟨by simp [hcb.symm, hp], hm, fun y => by simpa using hx y⟩
        · exact ⟨by simp [hcb.symm, hp], hm, hx⟩
    · cases h
  | resume c =>
    simp only [step] at h
    split at h
    · rename_i hc
      cases h
      have hcb : Party.co c ≠ .co b := by
        intro hcb
        injection hcb with hcb
        exact hm (hcb ▸ hc)
      have hm' : b ∉ e.mailbox.erase c := fun hb => hm (List.mem_of_mem_erase hb)
      unfold resume
      split
      · exact ⟨by simp [hcb.symm, hp], hm', hx⟩
      · exact ⟨hp, hm', hx⟩
    · cases h
  | reset => cases h; exact ⟨hp, hm, hx⟩
  | add n => cases h; exact ⟨hp, hm, hx⟩
  | done =>
    simp only [step, done] at h
    split at h
    · cases h
    · injection h with h
      subst h
      split
      · exact signal_stranded ⟨hp, hm, hx⟩
      · exact ⟨hp, hm, hx⟩

theorem run_stranded :
    ∀ (as : List Action) (e e' : EventImpl), Stranded b e → run e as = some e' → Stranded b e'
  | [], e, e', hs, h => by simp only [run_nil, Option.some.injEq] at h; exact h ▸ hs
  | a :: as, e, e', hs, h => by
    rw [run_cons, Option.bind_eq_some] at h
    obtain ⟨e₁, h₁, h₂⟩ := h
    exact run_stranded as e₁ e' (step_stranded hs h₁) h₂

/-- Coroutine 1 waits with a timeout of 10 ms and times out, leaving its record in `_wc`;
coroutine 2 waits without timeout and reuses the record, which still names coroutine 1; `signal`
wins the record's exchange and posts coroutine 1.  Coroutine 1 is resumed on account of a wait
that is not its own, and coroutine 2, whose record is now `st_ready` and out of `_wc`, is never
resumed by any later interleaving. -/
theorem signal_resumes_stale_coroutine :
    ∃ e, run (EventImpl.make false false 0)
        [.wait (.co 1) 10, .expire 1, .wait (.co 2) msInfinite, .signal] = some e ∧
      e.mailbox = [1] ∧ e.phase (.co 1) = .returned false ∧ e.coWaitx 2 = some 0 ∧
      e.waitx 0 = ⟨1, .ready⟩ ∧
      ∀ as e', run e as = some e' → e'.phase (.co 2) = .coWait false := by
  refine ⟨_, rfl, rfl, rfl, rfl, rfl, fun as e' h => (run_stranded as _ e' ?_ h).1⟩
  refine ⟨rfl, by decide, fun x => ?_⟩
  by_cases hx : x = 0
  · subst hx; decide
  · simp [run, step, wait, waitCo, expire, signal, signalFirst, popTimedOut, EventImpl.make,
      Phase.isFree, msInfinite, update, hx]

/-! ## Thread waits -/

/-- Two thread interleavings on a fresh auto-reset event, and the same two on a
`sync_event_impl`.  In the first a thread waits without timeout and its `_cv.wait` returns
spuriously: `wait` returns `true` though nothing signalled.  In the second a thread waits 10 ms,
`signal` releases it (`_wt = 0`, `_sn` bumped), and its `wait_for` then reports the deadline:
`wait` returns `false` and `_signaled` stays clear, so the signal is lost. -/
theorem thread_wait_phantom_and_lost :
    (run (EventImpl.make false false 0) [.wait (.thread 0) msInfinite, .wake 0]).map
        (fun e => (e.signaled, e.phase (.thread 0))) = some (false, .returned true) ∧
    (run (EventImpl.make false false 0) [.wait (.thread 0) 10, .signal, .timeout 0]).map
        (fun e => (e.signaled, e.phase (.thread 0))) = some (false, .returned false) ∧
    ((SyncEventImpl.make false false).run [.wait 0, .wake 0]).map
        (fun e => (e.signaled, e.phase 0)) = some (false, .returned true) ∧
    ((SyncEventImpl.make false false).run [.waitFor 0 10, .signal, .timeout 0]).map
        (fun e => (e.signaled, e.phase 0)) = some (false, .returned false) := by
  decide

/-! ## `wait_group` -/

/-- `wait_group::wait()` never reads the counter.  On a default `wait_group` (counter `0`) a
coroutine's `wait` blocks; after `wait_group(1)`, `done()` (no waiter, so `signal` latches) and
`add(1)`, a `wait` returns at once although the counter is `1`. -/
theorem waitGroup_wait_ignores_counter :
    (run (EventImpl.make false false 0) [.wait (.co 0) msInfinite]).map
        (fun e => (e.wg, e.phase (.co 0))) = some (0, .coWait false) ∧
    (run (EventImpl.make false false 1) [.done, .add 1, .wait (.co 0) msInfinite]).map
        (fun e => (e.wg, e.phase (.co 0))) = some (1, .returned true) := by
  decide

/-! ## Manual reset -/

/-- On a manual-reset event, coroutine 0 waits, `signal` wakes it, and a later `wait(0)` of
coroutine 1, before any `reset`, returns `false`: the signal did not latch. -/
theorem manual_signal_with_waiter_not_latched :
    (run (EventImpl.make true false 0) [.wait (.co 0) msInfinite, .signal, .wait (.co 1) 0]).map
        (fun e => (e.signaled, e.phase (.co 1))) = some (false, .returned false) := by
  decide

/-- Without a live record in the list, `signalFirst` wakes nobody. -/
theorem signalFirst_none (waitx : Nat → Waitx) (l : List Nat)
    (h : ∀ x ∈ l, (waitx x).state ≠ .wait) : (signalFirst waitx l).2.1 = none := by
  induction l with
  | nil => rfl
  | cons w ws ih =>
    unfold signalFirst
    rw [if_neg (h w (by simp))]
    exact ih fun x hx => h x (by simp [hx])

/-- With a live record in the list, `signalFirst` wakes someone. -/
theorem signalFirst_isSome (waitx : Nat → Waitx) (l : List Nat)
    (h : ∃ x ∈ l, (waitx x).state = .wait) : (signalFirst waitx l).2.1.isSome := by
  induction l with
  | nil => simp at h
  | cons w ws ih =>
    unfold signalFirst
    split
    · rfl
    · rename_i hw
      obtain ⟨x, hx, hxs⟩ := h
      rcases List.mem_cons.mp hx with rfl | hx
      · exact absurd hxs hw
      · exact ih ⟨x, hx, hxs⟩

/-- `signal` latches `_signaled` exactly when it finds no waiting thread and no live record;
otherwise it leaves a manual-reset event's latch as it was. -/
theorem signal_signaled (hm : e.manualReset = true) :
    ((e.wt = 0 ∧ ∀ x ∈ e.wc, (e.waitx x).state ≠ .wait) → (signal e).signaled = true) ∧
    ((0 < e.wt ∨ ∃ x ∈ e.wc, (e.waitx x).state = .wait) → (signal e).signaled = e.signaled) := by
  refine ⟨fun ⟨hwt, hwc⟩ => ?_, fun h => ?_⟩
  · simp [signal, hwt, signalFirst_none _ _ hwc]
  · by_cases hwt : 0 < e.wt
    · simp [signal, hwt, hm]
    · have := signalFirst_isSome e.waitx e.wc (h.resolve_left hwt)
      simp [signal, hwt, hm, this]

/-- On a manual-reset event no step but `reset` clears `_signaled`, and none changes
`_manual_reset`. -/
theorem step_latch {a : Action} (h : step e a = some e') (ha : a ≠ .reset)
    (hm : e.manualReset = true) (hs : e.signaled = true) :
    e'.manualReset = true ∧ e'.signaled = true := by
  cases a with
  | wait p ms =>
    simp only [step] at h
    split at h
    · cases h
      cases p <;> simp [wait, waitCo, waitThread, takeSignal, hm, hs]
    · cases h
  | wake t | timeout t =>
    simp only [step] at h
    split at h <;> cases h
    all_goals simp [wake, timeout, hm, hs]
  | signal => cases h; simp [signal, hm, hs]
  | signalOutside x =>
    simp only [step] at h
    split at h
    · cases h; unfold signalOutside; split <;> simp [hm, hs]
    · cases h
  | expire c =>
    simp only [step] at h
    split at h
    · cases h; unfold expire; split
      · simp [hm, hs]
      · split <;> simp [hm, hs]
    · cases h
  | resume c =>
    simp only [step] at h
    split at h
    · cases h; unfold resume; split <;> simp [hm, hs]
    · cases h
  | reset => exact absurd rfl ha
  | add n => cases h; simp [add, hm, hs]
  | done =>
    simp only [step, done] at h
    split at h
    · cases h
    · injection h with h
      subst h
      split <;> simp [signal, hm, hs]

theorem run_latch : ∀ (as : List Action) (e e' : EventImpl), run e as = some e' →
    Action.reset ∉ as → e.manualReset = true → e.signaled = true → e'.signaled = true
  | [], e, e', h, _, _, hs => by simp only [run_nil, Option.some.injEq] at h; exact h ▸ hs
  | a :: as, e, e', h, hr, hm, hs => by
    rw [run_cons, Option.bind_eq_some] at h
    obtain ⟨e₁, h₁, h₂⟩ := h
    have hne : a ≠ .reset := fun ha => hr (ha ▸ List.mem_cons_self _ _)
    obtain ⟨hm₁, hs₁⟩ := step_latch h₁ hne hm hs
    exact run_latch as e₁ e' h₂ (fun h => hr (List.mem_cons_of_mem _ h)) hm₁ hs₁

/-- A `wait` that starts on a set latch returns `true` in its first step. -/
theorem wait_of_signaled (hs : e.signaled = true) (p : Party) (ms : Nat) :
    (wait e p ms).phase p = .returned true := by
  cases p <;> simp [wait, waitCo, waitThread, takeSignal, hs]

namespace SyncEventImpl

variable {e e' : SyncEventImpl}

/-- `signal` latches `_signaled` exactly when no thread waits, and otherwise leaves a
manual-reset event's latch as it was. -/
theorem signal_signaled (hm : e.manualReset = true) :
    (e.wt = 0 → e.signal.signaled = true) ∧ (0 < e.wt → e.signal.signaled = e.signaled) :=
  ⟨fun h => by simp [signal, h], fun h => by simp [signal, h, hm]⟩

theorem step_latch {a : Action} (h : e.step a = some e') (ha : a ≠ .reset)
    (hm : e.manualReset = true) (hs : e.signaled = true) :
    e'.manualReset = true ∧ e'.signaled = true := by
  cases a with
  | wait t | waitFor t ms =>
    simp only [step] at h
    split at h
    · cases h; simp [wait, waitFor, takeSignal, hm, hs]
    · cases h
  | wake t | timeout t =>
    simp only [step] at h
    split at h <;> cases h
    all_goals simp [wake, timeout, hm, hs]
  | signal => cases h; unfold signal; split <;> simp [hm, hs]
  | reset => exact absurd rfl ha

theorem run_latch : ∀ (as : List Action) (e e' : SyncEventImpl), e.run as = some e' →
    Action.reset ∉ as → e.manualReset = true → e.signaled = true → e'.signaled = true
  | [], e, e', h, _, _, hs => by simp only [run, Option.some.injEq] at h; exact h ▸ hs
  | a :: as, e, e', h, hr, hm, hs => by
    simp only [run, Option.bind_eq_some] at h
    obtain ⟨e₁, h₁, h₂⟩ := h
    have hne : a ≠ .reset := fun ha => hr (ha ▸ List.mem_cons_self _ _)
    obtain ⟨hm₁, hs₁⟩ := step_latch h₁ hne hm hs
    exact run_latch as e₁ e' h₂ (fun h => hr (List.mem_cons_of_mem _ h)) hm₁ hs₁

theorem wait_of_signaled (hs : e.signaled = true) (t ms : Nat) :
    (e.wait t).phase t = .returned true ∧ (e.waitFor t ms).phase t = .returned true := by
  simp [wait, waitFor, takeSignal, hs]

end SyncEventImpl

/-- Manual reset, as the code has it, for `event_impl` and `sync_event_impl`.  `signal` latches
`_signaled` when it finds no waiting thread and no live coroutine record, and leaves it as it was
when it wakes a waiter.  Once `_signaled` is set it stays set along every interleaving without
`reset`, and a `wait` (any `ms`, any party) that starts while it is set returns `true` in its
first step. -/
theorem manualReset_latch (e : EventImpl) (s : SyncEventImpl) (hm : e.manualReset = true)
    (hms : s.manualReset = true) :
    ((e.wt = 0 ∧ ∀ x ∈ e.wc, (e.waitx x).state ≠ .wait) → (signal e).signaled = true) ∧
    ((0 < e.wt ∨ ∃ x ∈ e.wc, (e.waitx x).state = .wait) → (signal e).signaled = e.signaled) ∧
    (e.signaled = true → ∀ as e', run e as = some e' → Action.reset ∉ as → e'.signaled = true) ∧
    (e.signaled = true → ∀ p ms, (wait e p ms).phase p = .returned true) ∧
    (s.wt = 0 → s.signal.signaled = true) ∧ (0 < s.wt → s.signal.signaled = s.signaled) ∧
    (s.signaled = true → ∀ as s', s.run as = some s' → SyncEventImpl.Action.reset ∉ as →
      s'.signaled = true) ∧
    (s.signaled = true → ∀ t ms,
      (s.wait t).phase t = .returned true ∧ (s.waitFor t ms).phase t = .returned true) :=
  ⟨(signal_signaled hm).1, (signal_signaled hm).2,
    fun hs as e' h hr => run_latch as e e' h hr hm hs, fun hs => wait_of_signaled hs,
    (SyncEventImpl.signal_signaled hms).1, (SyncEventImpl.signal_signaled hms).2,
    fun hs as s' h hr => SyncEventImpl.run_latch as s s' h hr hms hs,
    fun hs => SyncEventImpl.wait_of_signaled hs⟩

/-- `manualReset_latch` at the two events constructed manual-reset and signalled. -/
theorem manualReset_latch_signaled :
    (EventImpl.make true true 0).manualReset = true ∧ (SyncEventImpl.make true true).manualReset = true ∧
    (((EventImpl.make true true 0).wt = 0 ∧ ∀ x ∈ (EventImpl.make true true 0).wc,
        ((EventImpl.make true true 0).waitx x).state ≠ .wait) →
      (signal (EventImpl.make true true 0)).signaled = true) ∧
    ((0 < (EventImpl.make true true 0).wt ∨ ∃ x ∈ (EventImpl.make true true 0).wc,
        ((EventImpl.make true true 0).waitx x).state = .wait) →
      (signal (EventImpl.make true true 0)).signaled = (EventImpl.make true true 0).signaled) ∧
    ((EventImpl.make true true 0).signaled = true → ∀ as e', run (EventImpl.make true true 0) as =
      some e' → Action.reset ∉ as → e'.signaled = true) ∧
    ((EventImpl.make true true 0).signaled = true → ∀ p ms,
      (wait (EventImpl.make true true 0) p ms).phase p = .returned true) ∧
    ((SyncEventImpl.make true true).wt = 0 → (SyncEventImpl.make true true).signal.signaled = true) ∧
    (0 < (SyncEventImpl.make true true).wt →
      (SyncEventImpl.make true true).signal.signaled = (SyncEventImpl.make true true).signaled) ∧
    ((SyncEventImpl.make true true).signaled = true → ∀ as s',
      (SyncEventImpl.make true true).run as = some s' → SyncEventImpl.Action.reset ∉ as →
      s'.signaled = true) ∧
    ((SyncEventImpl.make true true).signaled = true → ∀ t ms,
      ((SyncEventImpl.make true true).wait t).phase t = .returned true ∧
      ((SyncEventImpl.make true true).waitFor t ms).phase t = .returned true) :=
  ⟨rfl, rfl, manualReset_latch _ _ rfl rfl⟩

end Coost.Event
