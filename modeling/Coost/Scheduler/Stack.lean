import Coost.Scheduler.Basic

/-!
# Shared stacks: a resumed coroutine finds its stack as it left it

Several coroutines share one slot.  When `resume` switches a slot from its owner `s->co` to
another coroutine, it saves the owner's live region `[ctx, top)` into the owner's `buf`, and it
copies the incoming coroutine's `buf` back to `[ctx, top)`.  The question is whether the owner
tracking through `s->co` is right for every order of creation, resumption, yields and
termination: whether a resumed coroutine always finds the bytes it left.

`Traced` adds to a scheduler a ghost record that the code does not keep: the bytes of each
coroutine's slot at the moment it last yielded (`snap`).  `StackInv` is the
invariant: a suspended coroutine's bytes are on its slot if it owns the slot and in its `buf`
otherwise, and every slot's owner lives on it and has a context.

* `memcpy_slice`, `slice_congr`: the two facts about bytes that the proofs use.
* One lemma per step keeps `StackInv`: `resumeIn_inv` (with `takeSlot_inv` and `loadStack_inv`
  for the two branches), `write_inv`, `yieldOut_inv`, `finishOut_inv`, and the steps that do not
  touch stacks.
* `resumeIn_restores`: from a state satisfying the invariant, `resume` of a suspended coroutine
  passes its `CHECK_EQ` and leaves the coroutine's bytes `[ctx, top)` as they were when it
  yielded.  `resume_restores_slot`: the same in every state a run reaches.
-/

namespace Coost.Scheduler

open Function

/-! ## Bytes -/

theorem slice_congr {f g : Nat → UInt8} {lo hi : Nat}
    (h : ∀ a, lo ≤ a → a < hi → f a = g a) : slice f lo hi = slice g lo hi := by
  simp only [slice]
  exact List.map_congr_left fun i hi' => h _ (by omega) (by simp at hi'; omega)

/-- Copying a saved region back restores every byte of it. -/
theorem memcpy_slice (mem g : Nat → UInt8) {x hi a : Nat} (hx : x ≤ a) (ha : a < hi) :
    memcpy mem x (slice g x hi) a = g a := by
  have hlt : a - x < hi - x := by omega
  have hin : x ≤ a ∧ a < x + (slice g x hi).length := ⟨hx, by simp; omega⟩
  rw [memcpy, if_pos hin]
  simp only [slice, List.getD_eq_getElem?_getD, List.getElem?_map, List.getElem?_range hlt,
    Option.map_some', Option.getD_some, Nat.add_sub_cancel' hx]

/-! ## The traced scheduler -/

/-- A scheduler and, for each coroutine, the bytes of its slot when it last yielded. -/
structure Traced where
  s : Sched
  snap : Nat → Nat → UInt8

/-- A step of the scheduler; a `yield` records the yielding coroutine's slot. -/
def Traced.step (t : Traced) (a : Action) : Option Traced :=
  (Scheduler.step t.s a).map fun s' => ⟨s', match a, t.s.running with
    | .yield _ _ _, some r => update t.snap r (t.s.stack (t.s.slotOf r)).mem
    | _, _ => t.snap⟩

/-- An interleaving of traced steps. -/
def Traced.run (t : Traced) : List Action → Option Traced
  | [] => some t
  | a :: as => (t.step a).bind fun t' => t'.run as

/-- The traced scheduler before its first `resume`. -/
def Traced.init (stackSize stackNum : Nat) : Traced := ⟨Sched.init stackSize stackNum, fun _ _ => 0⟩

/-- The traced runs are the runs of the scheduler. -/
theorem Traced.run_s : ∀ (as : List Action) (t : Traced),
    (t.run as).map Traced.s = Scheduler.run t.s as
  | [], _ => rfl
  | a :: as, t => by
    simp only [Traced.run, Scheduler.run_cons, Traced.step]
    cases Scheduler.step t.s a with
    | none => rfl
    | some s' => exact Traced.run_s as _

/-- `c` has yielded at offset `x` and is not running. -/
def Suspended (s : Sched) (c x : Nat) : Prop := (s.cos c).ctx = some x ∧ s.running ≠ some c

/-- The stack-sharing invariant. -/
structure StackInv (t : Traced) : Prop where
  /-- A suspended coroutine's slot is allocated and its context lies in the slot. -/
  alloc : ∀ c x, Suspended t.s c x → (t.s.stack (t.s.slotOf c)).p = true ∧ x ≤ t.s.stackSize
  /-- The owner of a slot still has its bytes there. -/
  owner : ∀ c x, Suspended t.s c x → (t.s.stack (t.s.slotOf c)).co = some c →
    ∀ a, x ≤ a → a < t.s.stackSize → (t.s.stack (t.s.slotOf c)).mem a = t.snap c a
  /-- A suspended coroutine that does not own its slot has its bytes in `buf`. -/
  saved : ∀ c x, Suspended t.s c x → (t.s.stack (t.s.slotOf c)).co ≠ some c →
    (t.s.cos c).buf = slice (t.snap c) x t.s.stackSize
  /-- A slot's owner lives on it and has a context. -/
  owner_slot : ∀ i c, (t.s.stack i).co = some c → t.s.slotOf c = i ∧ (t.s.cos c).ctx ≠ none
  /-- The running coroutine owns its allocated slot. -/
  running : ∀ r, t.s.running = some r →
    (t.s.stack (t.s.slotOf r)).co = some r ∧ (t.s.stack (t.s.slotOf r)).p = true

/-- The invariant reads only the slots, the running coroutine, the sizes, the snapshots and each
coroutine's `ctx` and `buf`. -/
theorem StackInv.congr {t t' : Traced} (h : StackInv t) (hs : t'.s.stack = t.s.stack)
    (hr : t'.s.running = t.s.running) (hsz : t'.s.stackSize = t.s.stackSize)
    (hn : t'.s.stackNum = t.s.stackNum) (hsnap : t'.snap = t.snap)
    (hc : ∀ c, (t'.s.cos c).ctx = (t.s.cos c).ctx ∧ (t'.s.cos c).buf = (t.s.cos c).buf) :
    StackInv t' := by
  have hsl : t'.s.slotOf = t.s.slotOf := by funext c; simp [Sched.slotOf, hn]
  have hsus : ∀ c x, Suspended t'.s c x ↔ Suspended t.s c x := by
    intro c x; simp [Suspended, (hc c).1, hr]
  refine ⟨fun c x hx => ?_, fun c x hx => ?_, fun c x hx => ?_, fun i c => ?_, fun r => ?_⟩
  · rw [hs, hsl, hsz]; exact h.alloc c x ((hsus c x).1 hx)
  · rw [hs, hsl, hsz, hsnap]; exact h.owner c x ((hsus c x).1 hx)
  · rw [hs, hsl, hsz, hsnap, (hc c).2]; exact h.saved c x ((hsus c x).1 hx)
  · rw [hs, hsl, (hc c).1]; exact h.owner_slot i c
  · rw [hs, hsl, hr]; exact h.running r

variable {t : Traced}

theorem checkTimeout_inv (h : StackInv t) (now : Int) :
    StackInv ⟨(t.s.checkTimeout now).1, t.snap⟩ := by
  unfold Sched.checkTimeout
  split
  · exact h
  · exact h.congr rfl rfl rfl rfl rfl fun c => expireDue_cos _ _ c

theorem ready_inv (h : StackInv t) (c : Nat) (st : WaitState) :
    StackInv ⟨t.s.setCo c { t.s.cos c with waitx := some st }, t.snap⟩ := by
  refine h.congr rfl rfl rfl rfl rfl fun d => ?_
  by_cases hd : d = c
  · subst hd; simp
  · simp [hd]

theorem write_inv (h : StackInv t) {r : Nat} (hr : t.s.running = some r)
    (f : (Nat → UInt8) → Nat → UInt8) :
    StackInv ⟨t.s.setStack (t.s.slotOf r) { t.s.stack (t.s.slotOf r) with
      mem := f (t.s.stack (t.s.slotOf r)).mem }, t.snap⟩ := by
  obtain ⟨hown, hp⟩ := h.running r hr
  refine ⟨fun c x hx => ?_, fun c x hx hco => ?_, fun c x hx hco => ?_, fun i c hi => ?_,
    fun r' hr' => ?_⟩
  · have := h.alloc c x hx
    simp only [slotOf_setStack]
    by_cases hi : t.s.slotOf c = t.s.slotOf r
    · simp [hi, hp, this.2]
    · simpa [hi] using this
  · simp only [slotOf_setStack] at hco ⊢
    by_cases hi : t.s.slotOf c = t.s.slotOf r
    · simp only [setStack_stack, hi, if_true] at hco
      rw [hco] at hown
      cases hown
      exact absurd hr hx.2
    · simpa [hi] using h.owner c x hx (by simpa [hi] using hco)
  · simp only [slotOf_setStack] at hco ⊢
    by_cases hi : t.s.slotOf c = t.s.slotOf r
    · refine h.saved c x hx ?_
      rw [hi, hown]
      intro e
      cases e
      exact hx.2 hr
    · exact h.saved c x hx (by simpa [hi] using hco)
  · by_cases hir : i = t.s.slotOf r
    · subst hir
      simp only [setStack_stack, if_true] at hi
      rw [hown] at hi
      cases hi
      exact h.owner_slot _ _ hown
    · exact h.owner_slot i c (by simpa [hir] using hi)
  · simp only [setStack_running] at hr'
    rw [hr] at hr'
    cases hr'
    simp [hown, hp]

/-- After `resume` switched slot `slotOf c` to `c`, the invariant holds again, given what the
switch did: the other slots are as they were, the slot is `c`'s and allocated, only `c`'s
context changed, and the slot's previous owner, if any, saved its bytes. -/
theorem switch_inv (h : StackInv t) (hr : t.s.running = none) (c : Nat) {s' : Sched}
    (hrun : s'.running = some c) (hsz : s'.stackSize = t.s.stackSize)
    (hn : s'.stackNum = t.s.stackNum)
    (hother : ∀ j, j ≠ t.s.slotOf c → s'.stack j = t.s.stack j)
    (hslot : (s'.stack (t.s.slotOf c)).co = some c ∧ (s'.stack (t.s.slotOf c)).p = true)
    (hctx : ∀ d, d ≠ c → (s'.cos d).ctx = (t.s.cos d).ctx) (hcctx : (s'.cos c).ctx ≠ none)
    (hbuf : ∀ d, d ≠ c → (t.s.stack (t.s.slotOf c)).co ≠ some d → (s'.cos d).buf = (t.s.cos d).buf)
    (hsaved : ∀ d y, (t.s.stack (t.s.slotOf c)).co = some d → d ≠ c → (t.s.cos d).ctx = some y →
      (s'.cos d).buf = slice (t.snap d) y t.s.stackSize) :
    StackInv ⟨s', t.snap⟩ := by
  have hsl : ∀ d, s'.slotOf d = t.s.slotOf d := fun d => by simp [Sched.slotOf, hn]
  have hsus : ∀ d x, Suspended s' d x → d ≠ c ∧ Suspended t.s d x := by
    rintro d x ⟨hx, hd⟩
    have hdc : d ≠ c := fun e => hd (e ▸ hrun)
    exact ⟨hdc, by rw [← hctx d hdc]; exact hx, by simp [hr]⟩
  refine ⟨fun d x hx => ?_, fun d x hx hco => ?_, fun d x hx hco => ?_, fun j d hj => ?_,
    fun r hr' => ?_⟩
  · obtain ⟨hdc, hx⟩ := hsus d x hx
    simp only [hsl, hsz]
    by_cases hj : t.s.slotOf d = t.s.slotOf c
    · exact ⟨hj ▸ hslot.2, (h.alloc d x hx).2⟩
    · rw [hother _ hj]; exact h.alloc d x hx
  · obtain ⟨hdc, hx⟩ := hsus d x hx
    simp only [hsl, hsz] at hco ⊢
    by_cases hj : t.s.slotOf d = t.s.slotOf c
    · rw [hj, hslot.1] at hco
      exact absurd (Option.some.inj hco).symm hdc
    · rw [hother _ hj] at hco ⊢; exact h.owner d x hx hco
  · obtain ⟨hdc, hx⟩ := hsus d x hx
    simp only [hsl, hsz] at hco ⊢
    by_cases hj : t.s.slotOf d = t.s.slotOf c
    · by_cases ho : (t.s.stack (t.s.slotOf c)).co = some d
      · exact hsaved d x ho hdc hx.1
      · rw [hbuf d hdc ho]; exact h.saved d x hx (hj ▸ ho)
    · have ho : (t.s.stack (t.s.slotOf c)).co ≠ some d := fun ho =>
        hj ((h.owner_slot _ _ ho).1)
      rw [hbuf d hdc ho]; exact h.saved d x hx (by rw [← hother _ hj]; exact hco)
  · rw [hsl]
    by_cases hjc : j = t.s.slotOf c
    · subst hjc
      rw [hslot.1] at hj
      cases hj
      exact ⟨rfl, hcctx⟩
    · rw [hother _ hjc] at hj
      obtain ⟨hs, hc⟩ := h.owner_slot j d hj
      have hdc : d ≠ c := by rintro rfl; exact hjc hs.symm
      exact ⟨hs, by rw [hctx d hdc]; exact hc⟩
  · rw [hrun] at hr'
    cases hr'
    rw [hsl]
    exact hslot

theorem yieldOut_inv (h : StackInv t) {r : Nat} (hr : t.s.running = some r) {sp : Nat}
    (hsp : sp ≤ t.s.stackSize) (timer : Option (Int × UInt32)) (wx : Bool) :
    StackInv ⟨t.s.yieldOut r sp timer wx, update t.snap r (t.s.stack (t.s.slotOf r)).mem⟩ := by
  obtain ⟨hown, hp⟩ := h.running r hr
  have hcos : ∀ c, ((t.s.yieldOut r sp timer wx).cos c).ctx =
      (if c = r then some sp else (t.s.cos c).ctx) ∧
      ((t.s.yieldOut r sp timer wx).cos c).buf = (t.s.cos c).buf := by
    intro c
    by_cases hc : c = r
    · subst hc; cases timer <;> simp [Sched.yieldOut]
    · cases timer <;> simp [Sched.yieldOut, hc]
  have hst : (t.s.yieldOut r sp timer wx).stack = t.s.stack := by cases timer <;> rfl
  have hsl : ∀ c, (t.s.yieldOut r sp timer wx).slotOf c = t.s.slotOf c := by
    intro c; cases timer <;> rfl
  have hsz : (t.s.yieldOut r sp timer wx).stackSize = t.s.stackSize := by cases timer <;> rfl
  have hrun : (t.s.yieldOut r sp timer wx).running = none := by cases timer <;> rfl
  have hsus : ∀ c x, c ≠ r → Suspended (t.s.yieldOut r sp timer wx) c x → Suspended t.s c x := by
    rintro c x hc ⟨hx, -⟩
    refine ⟨by rw [← hx, (hcos c).1, if_neg hc], fun e => hc ?_⟩
    rw [hr] at e; exact (Option.some.inj e).symm
  refine ⟨fun c x hx => ?_, fun c x hx hco a ha hb => ?_, fun c x hx hco => ?_,
    fun i c hi => ?_, fun r' hr' => by rw [hrun] at hr'; cases hr'⟩
  · simp only [hst, hsl, hsz]
    by_cases hc : c = r
    · subst hc
      have : x = sp := by
        have := hx.1; rw [(hcos c).1, if_pos rfl] at this; exact (Option.some.inj this).symm
      exact ⟨hp, this ▸ hsp⟩
    · exact h.alloc c x (hsus c x hc hx)
  · simp only [hst, hsl, hsz] at hco hb ⊢
    by_cases hc : c = r
    · subst hc; simp
    · rw [update_noteq hc]; exact h.owner c x (hsus c x hc hx) hco a ha hb
  · simp only [hst, hsl, hsz] at hco ⊢
    by_cases hc : c = r
    · subst hc; exact absurd hown hco
    · rw [(hcos c).2, update_noteq hc]; exact h.saved c x (hsus c x hc hx) hco
  · rw [hst] at hi
    obtain ⟨hs, hctx⟩ := h.owner_slot i c hi
    refine ⟨by rw [hsl]; exact hs, ?_⟩
    rw [(hcos c).1]
    split
    · simp
    · exact hctx

theorem finishOut_inv (h : StackInv t) {r : Nat} (hr : t.s.running = some r) :
    StackInv ⟨t.s.finishOut r, t.snap⟩ := by
  obtain ⟨hown, hp⟩ := h.running r hr
  have hcos : ∀ c, c ≠ r → ((t.s.finishOut r).cos c) = t.s.cos c := fun c hc => by
    simp [Sched.finishOut, hc]
  have hsus : ∀ c x, Suspended (t.s.finishOut r) c x → c ≠ r ∧ Suspended t.s c x := by
    rintro c x ⟨hx, -⟩
    have hc : c ≠ r := by rintro rfl; simp [Sched.finishOut] at hx
    refine ⟨hc, by rw [← hcos c hc]; exact hx, fun e => hc ?_⟩
    rw [hr] at e; exact (Option.some.inj e).symm
  have hst : ∀ i, ((t.s.finishOut r).stack i) =
      if i = t.s.slotOf r then { t.s.stack i with co := none } else t.s.stack i := by
    intro i; by_cases hi : i = t.s.slotOf r
    · subst hi; simp [Sched.finishOut]
    · simp [Sched.finishOut, hi]
  have hsl : ∀ c, (t.s.finishOut r).slotOf c = t.s.slotOf c := fun _ => rfl
  refine ⟨fun c x hx => ?_, fun c x hx hco => ?_, fun c x hx hco => ?_, fun i c hi => ?_,
    fun r' hr' => by simp [Sched.finishOut] at hr'⟩
  · obtain ⟨hc, hx⟩ := hsus c x hx
    rw [hsl, hst]
    have := h.alloc c x hx
    split <;> simpa using this
  · obtain ⟨hc, hx⟩ := hsus c x hx
    rw [hsl, hst] at hco ⊢
    split at hco
    · simp at hco
    · rename_i hi
      simpa [hi] using h.owner c x hx hco
  · obtain ⟨hc, hx⟩ := hsus c x hx
    show ((t.s.finishOut r).cos c).buf = _
    rw [hcos c hc]
    refine h.saved c x hx fun hco' => ?_
    by_cases hi : t.s.slotOf c = t.s.slotOf r
    · rw [hi, hown] at hco'; exact hc (Option.some.inj hco').symm
    · exact hco (by rw [hsl, hst, if_neg hi]; exact hco')
  · rw [hst] at hi
    split at hi
    · simp at hi
    · rename_i hir
      obtain ⟨hs, hctx⟩ := h.owner_slot i c hi
      have hc : c ≠ r := by rintro rfl; exact hir hs.symm
      exact ⟨by rw [hsl]; exact hs, by rw [hcos c hc]; exact hctx⟩

/-- A slot's owner is suspended on it, and the slot is allocated. -/
theorem StackInv.owner_suspended (h : StackInv t) (hr : t.s.running = none) {i d : Nat}
    (hd : (t.s.stack i).co = some d) :
    t.s.slotOf d = i ∧ (t.s.stack i).p = true ∧ ∃ y, Suspended t.s d y := by
  obtain ⟨hs, hctx⟩ := h.owner_slot i d hd
  obtain ⟨y, hy⟩ := Option.ne_none_iff_exists'.1 hctx
  have hsus : Suspended t.s d y := ⟨hy, by simp [hr]⟩
  exact ⟨hs, hs ▸ (h.alloc d y hsus).1, y, hsus⟩

/-- A slot's owner finds the bytes it yielded with on its slot. -/
theorem StackInv.owner_bytes (h : StackInv t) (hr : t.s.running = none) {i d y : Nat}
    (hd : (t.s.stack i).co = some d) (hy : (t.s.cos d).ctx = some y) :
    slice (t.s.stack (t.s.slotOf d)).mem y t.s.stackSize = slice (t.snap d) y t.s.stackSize := by
  obtain ⟨hs, -⟩ := h.owner_slot i d hd
  exact slice_congr fun a ha hb => h.owner d y ⟨hy, by simp [hr]⟩ (hs ▸ hd) a ha hb

/-- `resume` keeps the invariant: a new coroutine takes its slot, on a fresh slot or from the
slot's previous owner; a suspended one keeps its slot or takes it back. -/
theorem resumeIn_inv (h : StackInv t) (hr : t.s.running = none) {c : Nat} {s' : Sched}
    (hs : t.s.resumeIn c = some s') : StackInv ⟨s', t.snap⟩ := by
  simp only [Sched.resumeIn, setRunning_cos, initStack_cos] at hs
  cases hx : (t.s.cos c).ctx with
  | none =>
    simp only [hx] at hs
    have hno : (t.s.stack (t.s.slotOf c)).co ≠ some c := fun e => (h.owner_slot _ c e).2 hx
    by_cases hp : (t.s.stack (t.s.slotOf c)).p = true
    · rw [initStack_of_p _ hp] at hs
      simp only [Sched.takeSlot, setRunning_stack, slotOf_setRunning, hno, if_false,
        saveStack_setRunning, Option.some.injEq] at hs
      subst hs
      exact switch_inv h hr c (by simp) (by simp) (by simp) (fun j hj => by simp [hj])
        (by simp [hp]) (fun d hd => by simp [hd, saveStack_ctx]) (by simp)
        (fun d hd ho => by simp [hd, saveStack_cos_of_ne _ ho])
        (fun d y ho hd hy => by simp [hd, ho, saveStack_buf, hy, h.owner_bytes hr ho hy])
    · have hfree : (t.s.stack (t.s.slotOf c)).co = none := by
        cases ho : (t.s.stack (t.s.slotOf c)).co with
        | none => rfl
        | some d => exact absurd (h.owner_suspended hr ho).2.1 hp
      simp [Sched.initStack, hp, Sched.takeSlot] at hs
      subst hs
      exact switch_inv h hr c (by simp) (by simp) (by simp) (fun j hj => by simp [hj]) (by simp)
        (fun d hd => by simp [hd]) (by simp) (fun d hd _ => by simp [hd])
        (fun d y ho => by simp [hfree] at ho)
  | some x =>
    simp only [hx] at hs
    have hsus : Suspended t.s c x := ⟨hx, by simp [hr]⟩
    obtain ⟨hp, hxs⟩ := h.alloc c x hsus
    rw [initStack_of_p _ hp] at hs
    by_cases hco : (t.s.stack (t.s.slotOf c)).co = some c
    · simp [Sched.loadStack, hco] at hs
      subst hs
      exact switch_inv h hr c (by simp) (by simp) (by simp) (fun j _ => by simp) (by simp [hco, hp])
        (fun d _ => (removeTimer_cos _ c d).1) (by simp [(removeTimer_cos _ c c).1, hx])
        (fun d _ _ => (removeTimer_cos _ c d).2)
        (fun d y ho hd => by simp [hco] at ho; exact absurd ho.symm hd)
    · simp [Sched.loadStack, hco] at hs
      obtain ⟨-, rfl⟩ := hs
      exact switch_inv h hr c (by simp) (by simp) (by simp) (fun j hj => by simp [hj]) (by simp [hp])
        (fun d _ => by simp [saveStack_ctx, (removeTimer_cos _ c d).1])
        (by simp [saveStack_ctx, (removeTimer_cos _ c c).1, hx])
        (fun d hd ho => by simp [hd, saveStack_cos_of_ne _ ho, (removeTimer_cos _ c d).2])
        (fun d y ho hd hy => by
          simp [ho, saveStack_buf, (removeTimer_cos _ c d).1, hy, h.owner_bytes hr ho hy])

/-- From a state satisfying the invariant, `resume` of a suspended coroutine passes its
`CHECK_EQ` and leaves the bytes `[ctx, top)` of its slot as they were when it yielded. -/
theorem resumeIn_restores (h : StackInv t) (hr : t.s.running = none) {c x : Nat}
    (hx : (t.s.cos c).ctx = some x) :
    ∃ s', t.s.resumeIn c = some s' ∧
      ∀ a, x ≤ a → a < t.s.stackSize → (s'.stack (t.s.slotOf c)).mem a = t.snap c a := by
  have hsus : Suspended t.s c x := ⟨hx, by simp [hr]⟩
  obtain ⟨hp, hxs⟩ := h.alloc c x hsus
  simp only [Sched.resumeIn, setRunning_cos, initStack_cos, hx, initStack_of_p _ hp]
  by_cases hco : (t.s.stack (t.s.slotOf c)).co = some c
  · simpa [Sched.loadStack, hco] using h.owner c x hsus hco
  · have hbuf := h.saved c x hsus hco
    simp [Sched.loadStack, hco, saveStack_cos_of_ne _ hco, (removeTimer_cos _ c c).2, hbuf, hxs]
    exact fun a ha hb => memcpy_slice _ _ ha hb
/-! ## Every run -/

theorem Traced.init_inv (n k : Nat) : StackInv (Traced.init n k) where
  alloc _ _ hx := by simp [Traced.init, Sched.init, Suspended] at hx
  owner _ _ hx := by simp [Traced.init, Sched.init, Suspended] at hx
  saved _ _ hx := by simp [Traced.init, Sched.init, Suspended] at hx
  owner_slot _ _ hi := by simp [Traced.init, Sched.init] at hi
  running _ hr := by simp [Traced.init, Sched.init] at hr

/-- Every step keeps the invariant. -/
theorem Traced.step_inv (h : StackInv t) {a : Action} {t' : Traced} (hs : t.step a = some t') :
    StackInv t' := by
  simp only [Traced.step, Option.map_eq_some'] at hs
  obtain ⟨s', hs, rfl⟩ := hs
  cases a with
  | resume c =>
    simp only [Scheduler.step] at hs
    split at hs
    · exact resumeIn_inv h ‹_› hs
    · cases hs
  | checkTimeout now =>
    simp only [Scheduler.step] at hs
    split at hs
    · cases hs
      exact (checkTimeout_inv h now).congr rfl rfl rfl rfl rfl fun _ => ⟨rfl, rfl⟩
    · cases hs
  | ready c =>
    simp only [Scheduler.step] at hs
    split at hs
    · cases hs; exact ready_inv h c _
    · cases hs
  | write f =>
    cases hr : t.s.running with
    | none => simp [Scheduler.step, hr] at hs
    | some r => simp only [Scheduler.step, hr, Option.some.injEq] at hs; subst hs; exact write_inv h hr f
  | yield sp timer wx =>
    cases hr : t.s.running with
    | none => simp [Scheduler.step, hr] at hs
    | some r =>
      simp only [Scheduler.step, hr] at hs
      split at hs
      · cases hs; exact yieldOut_inv h hr (‹_ ∧ _›).1 timer wx
      · cases hs
  | finish =>
    cases hr : t.s.running with
    | none => simp [Scheduler.step, hr] at hs
    | some r => simp only [Scheduler.step, hr, Option.some.injEq] at hs; subst hs; exact finishOut_inv h hr

theorem Traced.run_inv : ∀ (as : List Action) {t t' : Traced}, StackInv t → t.run as = some t' →
    StackInv t'
  | [], _, _, h, hs => by cases hs; exact h
  | a :: as, _, _, h, hs => by
    simp only [Traced.run, Option.bind_eq_some] at hs
    obtain ⟨t1, h1, h2⟩ := hs
    exact Traced.run_inv as (Traced.step_inv h h1) h2

/-- Stack-sharing integrity: at every point of every run where the loop may call `resume`, the
resume of any coroutine succeeds (its `CHECK_EQ` holds), and a suspended coroutine finds the
bytes `[ctx, top)` of its slot as they were when it last yielded. -/
theorem resume_restores_slot (n k : Nat) (as : List Action) (t : Traced)
    (h : (Traced.init n k).run as = some t) (hr : t.s.running = none) (c : Nat) :
    t.s.resumeIn c ≠ none ∧
    ∀ x, (t.s.cos c).ctx = some x → ∃ s', t.s.resumeIn c = some s' ∧
      ∀ a, x ≤ a → a < t.s.stackSize → (s'.stack (t.s.slotOf c)).mem a = t.snap c a := by
  have hi := Traced.run_inv as (Traced.init_inv n k) h
  refine ⟨?_, fun x hx => resumeIn_restores hi hr hx⟩
  cases hx : (t.s.cos c).ctx with
  | none => simp [Sched.resumeIn, hx]
  | some x =>
    obtain ⟨s', hs, -⟩ := resumeIn_restores hi hr hx
    simp [hs]

/-- Coroutines 1 and 2 share one slot: 1 yields, 2 starts on the slot, overwrites it and
terminates, leaving the slot with no owner; resuming 1 then restores its bytes. -/
theorem resume_restores_slot_shared : ∃ t, (Traced.init 4 1).run
      [.resume 1, .write (fun _ _ => 7), .yield 2 none false,
       .resume 2, .write (fun _ _ => 9), .finish] = some t ∧ t.s.running = none ∧
    (t.s.resumeIn 1 ≠ none ∧
    ∀ x, (t.s.cos 1).ctx = some x → ∃ s', t.s.resumeIn 1 = some s' ∧
      ∀ a, x ≤ a → a < t.s.stackSize → (s'.stack (t.s.slotOf 1)).mem a = t.snap 1 a) :=
  ⟨_, rfl, rfl, resume_restores_slot 4 1 [.resume 1, .write (fun _ _ => 7), .yield 2 none false,
    .resume 2, .write (fun _ _ => 9), .finish] _ rfl rfl 1⟩

end Coost.Scheduler
