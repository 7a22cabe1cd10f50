import Coost.Scheduler.Basic
import Mathlib.Data.List.Nodup

/-!
# Timer handles: every coroutine holds the handle of its own entry

A coroutine arms a timer with `add_timer` right before it yields, and stores the returned
iterator in `co->it`.  `Sched::resume` deletes that entry through `co->it` before it resumes a
suspended coroutine, and `TimerManager::check_timeout` erases the due entries after clearing
their coroutines' handles.  The iterator is used without a lookup, so the three must agree at
every step: a stale handle would erase a foreign entry, and a second entry would resume its
coroutine a second time.

`TimerInv` is the invariant: the entries and the handles are in bijection, entry identities are
distinct and below the counter, the hint `_it` names a live entry, and a coroutine with no
context or that is running has no timer.

* `insertEntry_perm`, `nextId_spec`, `hintAfter_live`: the map operations.
* One lemma per step keeps `TimerInv`: `resumeIn_timerInv` (through `removeTimer_timerInv`),
  `yieldOut_timerInv`, `finishOut_timerInv`, `checkTimeout_timerInv`, and `TimerInv.congr` for
  the steps that do not touch timers.
* `timer_handles_exact`: in every state a run reaches, each coroutine has at most one entry,
  its handle is set exactly when it has one and names it, `resume` erases exactly the
  coroutine's own entries, and `check_timeout` resumes only coroutines with a due entry.
-/

namespace Coost.Scheduler

open Function

/-! ## The map operations -/

/-- `insertEntry` puts the entry somewhere in the map and keeps the others. -/
theorem insertEntry_perm (e : Entry) : ∀ l, (insertEntry e l).Perm (e :: l)
  | [] => List.Perm.refl _
  | x :: xs => by
    unfold insertEntry
    split
    · exact List.Perm.refl _
    · exact ((insertEntry_perm e xs).cons x).trans (List.Perm.swap e x xs)

/-- The identity after `id` in map order is another live identity. -/
theorem nextId_spec : ∀ {l : List Entry} {id j : Nat}, (l.map (·.id)).Nodup →
    nextId l id = some j → (∃ e ∈ l, e.id = j) ∧ j ≠ id
  | [], _, _, _, h => by simp [nextId] at h
  | e :: es, id, j, hnd, h => by
    rw [List.map_cons, List.nodup_cons] at hnd
    simp only [nextId] at h
    split at h
    · rename_i he
      cases es with
      | nil => simp at h
      | cons f fs =>
        simp only [List.head?_cons, Option.map_some', Option.some.injEq] at h
        subst h he
        exact ⟨⟨f, by simp⟩, fun e' => hnd.1 (by simp [e'])⟩
    · obtain ⟨⟨f, hf, rfl⟩, hne⟩ := nextId_spec hnd.2 h
      exact ⟨⟨f, List.mem_cons_of_mem _ hf, rfl⟩, hne⟩

/-- After `check_timeout` erased the due prefix, the hint is `end` or a live entry. -/
theorem hintAfter_live {timer due rest : List Entry} {hint : Option Nat} {now : Int}
    (hsplit : due ++ rest = timer) (hrest : ∀ e ∈ timer, ¬e.deadline ≤ now → e ∈ rest)
    (hh : ∀ id, hint = some id → ∃ e ∈ timer, e.id = id) :
    ∀ id, hintAfter timer hint now due rest = some id → ∃ e ∈ rest, e.id = id := by
  intro id h
  unfold hintAfter at h
  split at h
  · subst due
    rw [List.nil_append] at hsplit
    exact hsplit ▸ hh id h
  · split at h
    · split at h
      · cases rest with
        | nil => simp at h
        | cons f fs =>
          simp only [List.head?_cons, Option.map_some', Option.some.injEq] at h
          exact ⟨f, by simp, h⟩
      · rename_i hd
        cases h
        obtain ⟨e, he, rfl⟩ := hh _ rfl
        obtain ⟨f, hf⟩ : ∃ f, timer.find? (·.id = e.id) = some f :=
          Option.ne_none_iff_exists'.1 (by simpa using ⟨e, he, rfl⟩)
        have hfid : f.id = e.id := by simpa using List.find?_some hf
        refine ⟨f, hrest f (List.mem_of_find?_eq_some hf) fun hle => hd ?_, hfid⟩
        simp [deadlineOf, hf, hle]
    · cases h

/-! ## The invariant -/

/-- The timer-handle invariant. -/
structure TimerInv (s : Sched) : Prop where
  /-- Every entry's coroutine holds the entry's handle. -/
  entry_handle : ∀ e ∈ s.timerMgr.timer, (s.cos e.co).it = some e.id
  /-- Every handle names an entry of its coroutine. -/
  handle_entry : ∀ c id, (s.cos c).it = some id → ∃ e ∈ s.timerMgr.timer, e.id = id ∧ e.co = c
  /-- Entries have distinct identities. -/
  ids_nodup : (s.timerMgr.timer.map (·.id)).Nodup
  /-- Identities are handed out from `next` up. -/
  ids_fresh : ∀ e ∈ s.timerMgr.timer, e.id < s.timerMgr.next
  /-- The hint `_it` is `end` or a live entry. -/
  hint : ∀ id, s.timerMgr.it = some id → ∃ e ∈ s.timerMgr.timer, e.id = id
  /-- A coroutine with no context has no timer. -/
  fresh_idle : ∀ c, (s.cos c).ctx = none → (s.cos c).it = none
  /-- The running coroutine has no timer. -/
  running_idle : ∀ r, s.running = some r → (s.cos r).it = none

variable {s : Sched}

/-- The entry a handle names is the coroutine's, and only the coroutine's. -/
theorem TimerInv.entry_iff (h : TimerInv s) {c id : Nat} (hc : (s.cos c).it = some id)
    {e : Entry} (he : e ∈ s.timerMgr.timer) : e.id = id ↔ e.co = c := by
  constructor
  · rintro rfl
    obtain ⟨e', he', hid, rfl⟩ := h.handle_entry c _ hc
    rw [List.inj_on_of_nodup_map h.ids_nodup he he' hid.symm]
  · rintro rfl
    exact Option.some.inj ((h.entry_handle e he).symm.trans hc)

/-- A coroutine with no handle has no entry. -/
theorem TimerInv.no_entry (h : TimerInv s) {c : Nat} (hc : (s.cos c).it = none) {e : Entry}
    (he : e ∈ s.timerMgr.timer) : e.co ≠ c := by
  rintro rfl
  simp [h.entry_handle e he] at hc

/-- The invariant reads only the map, the handles, which coroutines have no context, and the
running coroutine: a step that keeps the map and the handles keeps it when every coroutine that
it leaves running or without a context had no timer. -/
theorem TimerInv.congr {s' : Sched} (h : TimerInv s) (hm : s'.timerMgr = s.timerMgr)
    (hit : ∀ c, (s'.cos c).it = (s.cos c).it)
    (hr : ∀ r, s'.running = some r → (s.cos r).it = none)
    (hctx : ∀ c, (s'.cos c).ctx = none → (s.cos c).it = none) : TimerInv s' where
  entry_handle e he := by rw [hit]; exact h.entry_handle e (hm ▸ he)
  handle_entry c id hc := hm ▸ h.handle_entry c id (hit c ▸ hc)
  ids_nodup := hm ▸ h.ids_nodup
  ids_fresh := hm ▸ h.ids_fresh
  hint := hm ▸ h.hint
  fresh_idle c hc := by rw [hit]; exact hctx c hc
  running_idle r hr' := by rw [hit]; exact hr r hr'

/-- A step that changes no handle, context, running coroutine or map keeps the invariant. -/
theorem TimerInv.frame {s' : Sched} (h : TimerInv s) (hm : s'.timerMgr = s.timerMgr)
    (hrun : s'.running = s.running)
    (hc : ∀ c, (s'.cos c).ctx = (s.cos c).ctx ∧ (s'.cos c).it = (s.cos c).it) : TimerInv s' :=
  h.congr hm (fun c => (hc c).2) (fun r hr => h.running_idle r (hrun ▸ hr))
    fun c hx => h.fresh_idle c ((hc c).1 ▸ hx)

theorem init_timerInv (n k : Nat) : TimerInv (Sched.init n k) where
  entry_handle e he := by simp [Sched.init] at he
  handle_entry c id hc := by simp [Sched.init] at hc
  ids_nodup := List.nodup_nil
  ids_fresh e he := by simp [Sched.init] at he
  hint id hi := by simp [Sched.init] at hi
  fresh_idle _ _ := rfl
  running_idle r hr := by simp [Sched.init] at hr

/-! ## The steps -/

/-- `del_timer(co->it)` erases exactly the coroutine's own entries. -/
theorem removeTimer_timer (h : TimerInv s) (c : Nat) :
    (s.removeTimer c).timerMgr.timer = s.timerMgr.timer.filter (·.co ≠ c) := by
  unfold Sched.removeTimer
  split
  · rename_i hc
    exact (List.filter_eq_self.2 fun e he => by simpa using h.no_entry hc he).symm
  · rename_i id hc
    exact List.filter_congr fun e he => by simp [h.entry_iff hc he]

theorem removeTimer_it (s : Sched) (c : Nat) : ((s.removeTimer c).cos c).it = none := by
  unfold Sched.removeTimer
  split
  · assumption
  · simp

theorem removeTimer_timerInv (h : TimerInv s) (c : Nat) : TimerInv (s.removeTimer c) := by
  unfold Sched.removeTimer
  split
  · exact h
  · rename_i id hc
    have hne : ∀ e ∈ s.timerMgr.timer, e.id ≠ id → e.co ≠ c := fun e he hid hco =>
      hid ((h.entry_iff hc he).2 hco)
    refine ⟨fun e he => ?_, fun d j hd => ?_, ?_, fun e he => ?_, fun j hj => ?_,
      fun d hd => ?_, fun r hr => ?_⟩
    · simp only [setTimerMgr_timerMgr, TimerManager.delTimer, List.mem_filter,
        decide_eq_true_eq] at he
      simpa [hne e he.1 he.2] using h.entry_handle e he.1
    · by_cases hdc : d = c
      · subst hdc; simp at hd
      · simp only [setTimerMgr_cos, setCo_cos, hdc, if_false] at hd
        obtain ⟨e, he, rfl, rfl⟩ := h.handle_entry d _ hd
        refine ⟨e, ?_, rfl, rfl⟩
        simp only [setTimerMgr_timerMgr, TimerManager.delTimer, List.mem_filter,
          decide_eq_true_eq]
        exact ⟨he, fun hid => hdc ((h.entry_iff hc he).1 hid)⟩
    · exact h.ids_nodup.sublist ((List.filter_sublist _).map _)
    · simp only [setTimerMgr_timerMgr, TimerManager.delTimer, List.mem_filter] at he ⊢
      exact h.ids_fresh e he.1
    · simp only [setTimerMgr_timerMgr, TimerManager.delTimer, List.mem_filter,
        decide_eq_true_eq] at hj ⊢
      split at hj
      · obtain ⟨⟨e, he, rfl⟩, hne'⟩ := nextId_spec h.ids_nodup hj
        exact ⟨e, ⟨he, hne'⟩, rfl⟩
      · obtain ⟨e, he, rfl⟩ := h.hint _ hj
        exact ⟨e, ⟨he, fun hid => by simp_all⟩, rfl⟩
    · by_cases hdc : d = c
      · subst hdc; simp
      · simp only [setTimerMgr_cos, setCo_cos, hdc, if_false] at hd ⊢; exact h.fresh_idle d hd
    · by_cases hrc : r = c
      · subst hrc; simp
      · simp only [setTimerMgr_cos, setCo_cos, hrc, if_false] at hr ⊢
        exact h.running_idle r hr

/-- `resume` keeps the invariant and erases exactly the resumed coroutine's entries: a new
coroutine has none, and a suspended one loses its own through `del_timer(co->it)`. -/
theorem resumeIn_timerInv (h : TimerInv s) {c : Nat} {s' : Sched} (hs : s.resumeIn c = some s') :
    TimerInv s' ∧ s'.timerMgr.timer = s.timerMgr.timer.filter (·.co ≠ c) := by
  have hi : TimerInv (s.initStack c) := h.frame (by simp) (by unfold Sched.initStack; split <;> rfl)
    fun d => by simp
  simp only [Sched.resumeIn, setRunning_cos, initStack_cos] at hs
  cases hx : (s.cos c).ctx with
  | none =>
    simp only [hx, Option.some.injEq] at hs
    subst hs
    have hc := h.fresh_idle c hx
    obtain ⟨hm, -, -, hcos⟩ := takeSlot_frame ((s.initStack c).setRunning (some c)) c
    refine ⟨hi.congr (by simp [hm]) (fun d => ?_) (fun r hr => ?_) (fun d hd => ?_), ?_⟩
    · by_cases hdc : d = c
      · subst hdc; simp [(hcos d).2]
      · simp [hdc, (hcos d).2]
    · simp only [setCo_running, (takeSlot_frame _ c).2.1, setRunning_running,
        Option.some.injEq] at hr
      subst hr; simpa using hc
    · by_cases hdc : d = c
      · subst hdc; simpa using hc
      · simp only [setCo_cos, hdc, if_false, (hcos d).1, setRunning_cos, initStack_cos] at hd
        simpa using h.fresh_idle d hd
    · simp only [setCo_timerMgr, hm, setRunning_timerMgr, initStack_timerMgr]
      exact (List.filter_eq_self.2 fun e he => by simpa using h.no_entry hc he).symm
  | some x =>
    simp only [hx, removeTimer_setRunning] at hs
    obtain ⟨hm, hrun, hcos⟩ := loadStack_frame hs
    have hr := removeTimer_timerInv hi c
    refine ⟨hr.congr (by simpa using hm) (fun d => by simpa using (hcos d).2) (fun r hr' => ?_)
      (fun d hd => hr.fresh_idle d (by simpa [(hcos d).1] using hd)), ?_⟩
    · rw [hrun, setRunning_running] at hr'
      rw [← Option.some.inj hr']
      exact removeTimer_it _ c
    · rw [hm, setRunning_timerMgr, removeTimer_timer hi c, initStack_timerMgr]

/-- `add_timer` before a yield gives the yielding coroutine its only entry. -/
theorem yieldOut_timerInv (h : TimerInv s) {r : Nat} (hr : s.running = some r) (sp : Nat)
    (timer : Option (Int × UInt32)) (wx : Bool) : TimerInv (s.yieldOut r sp timer wx) := by
  have hrit := h.running_idle r hr
  cases timer with
  | none =>
    refine h.congr rfl (fun d => ?_) (fun _ h' => by simp [Sched.yieldOut] at h') (fun d hd => ?_)
    · by_cases hdr : d = r
      · subst hdr; simp [Sched.yieldOut]
      · simp [Sched.yieldOut, hdr]
    · by_cases hdr : d = r
      · subst hdr; simp [Sched.yieldOut] at hd
      · simp only [Sched.yieldOut, setRunning_cos, setCo_cos, hdr, if_false] at hd
        exact h.fresh_idle d hd
  | some p =>
    obtain ⟨now, ms⟩ := p
    let s' := s.yieldOut r sp (some (now, ms)) wx
    have hcos : ∀ d, d ≠ r → s'.cos d = s.cos d := fun d hd => by simp [s', Sched.yieldOut, hd]
    have hcr : (s'.cos r).it = some s.timerMgr.next := by simp [s', Sched.yieldOut]
    have hmem : ∀ e, e ∈ s'.timerMgr.timer ↔
        e = ⟨s.timerMgr.next, now + ms.toNat, r⟩ ∨ e ∈ s.timerMgr.timer := fun e =>
      (insertEntry_perm _ _).mem_iff.trans List.mem_cons
    have hnext : s'.timerMgr.next = s.timerMgr.next + 1 := rfl
    refine ⟨fun e he => ?_, fun d j hd => ?_, ?_, fun e he => ?_, fun j hj => ?_,
      fun d hd => ?_, fun _ h' => by simp [s', Sched.yieldOut] at h'⟩
    · rcases (hmem e).1 he with rfl | he
      · exact hcr
      · rw [hcos _ (h.no_entry hrit he)]; exact h.entry_handle e he
    · by_cases hdr : d = r
      · subst hdr
        rw [hcr] at hd
        cases hd
        exact ⟨_, (hmem _).2 (Or.inl rfl), rfl, rfl⟩
      · rw [hcos d hdr] at hd
        obtain ⟨e, he, hid, hco⟩ := h.handle_entry d j hd
        exact ⟨e, (hmem e).2 (Or.inr he), hid, hco⟩
    · refine ((insertEntry_perm _ _).map _).nodup_iff.2 (List.nodup_cons.2 ⟨fun hm => ?_, h.ids_nodup⟩)
      obtain ⟨e, he, hid⟩ := List.mem_map.1 hm
      exact absurd (h.ids_fresh e he) (by simp [hid])
    · rw [hnext]
      rcases (hmem e).1 he with rfl | he
      · exact Nat.lt_succ_self _
      · exact Nat.lt_succ_of_lt (h.ids_fresh e he)
    · cases hj
      exact ⟨_, (hmem _).2 (Or.inl rfl), rfl⟩
    · by_cases hdr : d = r
      · subst hdr; simp [s', Sched.yieldOut] at hd
      · rw [hcos d hdr] at hd ⊢; exact h.fresh_idle d hd

/-- A terminating coroutine had no timer. -/
theorem finishOut_timerInv (h : TimerInv s) {r : Nat} (hr : s.running = some r) :
    TimerInv (s.finishOut r) := by
  refine h.congr rfl (fun d => ?_) (fun _ h' => by simp [Sched.finishOut] at h') (fun d hd => ?_)
  · by_cases hdr : d = r
    · subst hdr; simp [Sched.finishOut]
    · simp [Sched.finishOut, hdr]
  · by_cases hdr : d = r
    · subst hdr; exact h.running_idle d hr
    · simp only [Sched.finishOut, setRunning_cos, setCo_cos, hdr, if_false, setStack_cos] at hd
      exact h.fresh_idle d hd

/-- Expiring a prefix `due` of the map, with a hint into what is left, keeps the invariant. -/
theorem expire_timerInv (h : TimerInv s) {due rest : List Entry} {hint : Option Nat}
    (hsplit : due ++ rest = s.timerMgr.timer)
    (hhint : ∀ id, hint = some id → ∃ e ∈ rest, e.id = id) :
    TimerInv { s with cos := (expireDue s.cos due).1, timerMgr := ⟨rest, hint, s.timerMgr.next⟩ } := by
  have hnd := h.ids_nodup
  rw [← hsplit, List.map_append, List.nodup_append] at hnd
  have hmem : ∀ e, e ∈ s.timerMgr.timer ↔ e ∈ due ∨ e ∈ rest := fun e => by
    rw [← hsplit, List.mem_append]
  refine ⟨fun e he => ?_, fun c j hc => ?_, hnd.2.1, fun e he => h.ids_fresh e ((hmem e).2 (.inr he)),
    hhint, fun c hc => ?_, fun r hr => ?_⟩
  · have he' := (hmem e).2 (.inr he)
    show ((expireDue s.cos due).1 e.co).it = _
    rw [expireDue_it, if_neg]
    · exact h.entry_handle e he'
    · rintro ⟨d, hd, hde⟩
      have hid : d.id = e.id := (h.entry_iff (h.entry_handle e he') ((hmem d).2 (.inl hd))).2 hde
      exact hnd.2.2 (List.mem_map_of_mem _ hd) (hid ▸ List.mem_map_of_mem _ he)
  · change ((expireDue s.cos due).1 c).it = _ at hc
    rw [expireDue_it] at hc
    split at hc
    · cases hc
    · rename_i hnot
      obtain ⟨e, he, rfl, rfl⟩ := h.handle_entry c j hc
      rcases (hmem e).1 he with he | he
      · exact absurd ⟨e, he, rfl⟩ hnot
      · exact ⟨e, he, rfl, rfl⟩
  · change ((expireDue s.cos due).1 c).ctx = none at hc
    change ((expireDue s.cos due).1 c).it = none
    rw [(expireDue_cos _ _ c).1] at hc
    rw [expireDue_it]
    split
    · rfl
    · exact h.fresh_idle c hc
  · change ((expireDue s.cos due).1 r).it = none
    rw [expireDue_it]
    split
    · rfl
    · exact h.running_idle r hr

theorem checkTimeout_timerInv (h : TimerInv s) (now : Int) : TimerInv (s.checkTimeout now).1 := by
  unfold Sched.checkTimeout
  split
  · exact h
  · have hsplit := List.takeWhile_append_dropWhile (fun e : Entry => decide (e.deadline ≤ now))
      s.timerMgr.timer
    refine expire_timerInv h hsplit (hintAfter_live hsplit (fun e he hlt => ?_) h.hint)
    rw [← hsplit, List.mem_append] at he
    rcases he with he | he
    · exact absurd (by simpa using List.mem_takeWhile_imp he) hlt
    · exact he

/-- `check_timeout` resumes only coroutines with a due entry in the map. -/
theorem mem_checkTimeout_res {c : Nat} {now : Int} (h : c ∈ (s.checkTimeout now).2.1) :
    ∃ e ∈ s.timerMgr.timer, e.co = c ∧ e.deadline ≤ now := by
  unfold Sched.checkTimeout at h
  split at h
  · simp at h
  · obtain ⟨e, he, rfl⟩ := mem_expireDue_res h
    exact ⟨e, (List.takeWhile_sublist _).subset he, rfl, by simpa using List.mem_takeWhile_imp he⟩

/-! ## Every run -/

/-- Every step keeps the invariant. -/
theorem step_timerInv (h : TimerInv s) {a : Action} {s' : Sched} (hs : step s a = some s') :
    TimerInv s' := by
  cases a with
  | resume c =>
    simp only [step] at hs
    split at hs
    · exact (resumeIn_timerInv h hs).1
    · cases hs
  | checkTimeout now =>
    simp only [step] at hs
    split at hs
    · cases hs; exact (checkTimeout_timerInv h now).frame rfl rfl fun _ => ⟨rfl, rfl⟩
    · cases hs
  | ready c =>
    simp only [step] at hs
    split at hs
    · cases hs
      refine h.frame rfl rfl fun d => ?_
      by_cases hd : d = c
      · subst hd; simp
      · simp [hd]
    · cases hs
  | write f =>
    cases hr : s.running with
    | none => simp [step, hr] at hs
    | some r =>
      simp only [step, hr, Option.some.injEq] at hs
      subst hs
      exact h.frame rfl rfl fun d => ⟨rfl, rfl⟩
  | yield sp timer wx =>
    cases hr : s.running with
    | none => simp [step, hr] at hs
    | some r =>
      simp only [step, hr] at hs
      split at hs
      · cases hs; exact yieldOut_timerInv h hr sp timer wx
      · cases hs
  | finish =>
    cases hr : s.running with
    | none => simp [step, hr] at hs
    | some r =>
      simp only [step, hr, Option.some.injEq] at hs
      subst hs
      exact finishOut_timerInv h hr

theorem run_timerInv : ∀ (as : List Action) {s s' : Sched}, TimerInv s → run s as = some s' →
    TimerInv s'
  | [], _, _, h, hs => by cases hs; exact h
  | a :: as, _, _, h, hs => by
    simp only [run_cons, Option.bind_eq_some] at hs
    obtain ⟨s1, h1, h2⟩ := hs
    exact run_timerInv as (step_timerInv h h1) h2

/-- At most one entry per coroutine. -/
theorem TimerInv.entries_le_one (h : TimerInv s) (c : Nat) :
    (s.timerMgr.timer.filter (·.co = c)).length ≤ 1 := by
  cases hc : (s.cos c).it with
  | none =>
    rw [List.filter_eq_nil_iff.2 fun e he => by simpa using h.no_entry hc he]
    exact Nat.zero_le _
  | some id =>
    have hnd : ((s.timerMgr.timer.filter (·.co = c)).map (·.id)).Nodup :=
      h.ids_nodup.sublist ((List.filter_sublist _).map _)
    have hall : ∀ j ∈ (s.timerMgr.timer.filter (·.co = c)).map (·.id), j = id := by
      intro j hj
      obtain ⟨e, he, rfl⟩ := List.mem_map.1 hj
      rw [List.mem_filter, decide_eq_true_eq] at he
      exact (h.entry_iff hc he.1).2 he.2
    rw [List.eq_replicate_of_mem hall, List.nodup_replicate, List.length_map] at hnd
    exact hnd

/-- The timer-handle invariant for every reachable state: each coroutine has at most one entry;
its handle is set exactly when it has one, and then names that entry and no other; `resume`
erases exactly the resumed coroutine's entries; and `check_timeout` resumes only coroutines
that still have a due entry, so never one whose timer `resume` already removed. -/
theorem timer_handles_exact (n k : Nat) (as : List Action) (s : Sched)
    (h : run (Sched.init n k) as = some s) :
    (∀ c, (s.timerMgr.timer.filter (·.co = c)).length ≤ 1) ∧
    (∀ c, (s.cos c).it ≠ none ↔ ∃ e ∈ s.timerMgr.timer, e.co = c) ∧
    (∀ c id, (s.cos c).it = some id → ∀ e ∈ s.timerMgr.timer, e.id = id ↔ e.co = c) ∧
    (∀ c s', s.resumeIn c = some s' → s'.timerMgr.timer = s.timerMgr.timer.filter (·.co ≠ c)) ∧
    (∀ now c, c ∈ (s.checkTimeout now).2.1 →
      ∃ e ∈ s.timerMgr.timer, e.co = c ∧ e.deadline ≤ now) := by
  have hi := run_timerInv as (init_timerInv n k) h
  refine ⟨hi.entries_le_one, fun c => ⟨fun hc => ?_, ?_⟩, fun c id hc e he => hi.entry_iff hc he,
    fun c s' hs => (resumeIn_timerInv hi hs).2, fun now c hc => mem_checkTimeout_res hc⟩
  · obtain ⟨id, hid⟩ := Option.ne_none_iff_exists'.1 hc
    obtain ⟨e, he, -, rfl⟩ := hi.handle_entry c id hid
    exact ⟨e, he, rfl⟩
  · rintro ⟨e, he, rfl⟩
    simp [hi.entry_handle e he]

/-- Two coroutines on two slots arm timers and yield; then the map holds one entry for each. -/
theorem timer_handles_exact_armed : ∃ s, run (Sched.init 4 2)
      [.resume 1, .yield 2 (some (0, 10)) true, .resume 2, .yield 3 (some (0, 5)) true] = some s ∧
    ((∀ c, (s.timerMgr.timer.filter (·.co = c)).length ≤ 1) ∧
    (∀ c, (s.cos c).it ≠ none ↔ ∃ e ∈ s.timerMgr.timer, e.co = c) ∧
    (∀ c id, (s.cos c).it = some id → ∀ e ∈ s.timerMgr.timer, e.id = id ↔ e.co = c) ∧
    (∀ c s', s.resumeIn c = some s' → s'.timerMgr.timer = s.timerMgr.timer.filter (·.co ≠ c)) ∧
    (∀ now c, c ∈ (s.checkTimeout now).2.1 →
      ∃ e ∈ s.timerMgr.timer, e.co = c ∧ e.deadline ≤ now)) :=
  ⟨_, rfl, timer_handles_exact 4 2
    [.resume 1, .yield 2 (some (0, 10)) true, .resume 2, .yield 3 (some (0, 5)) true] _ rfl⟩

end Coost.Scheduler
