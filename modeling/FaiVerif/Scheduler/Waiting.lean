import FaiVerif.Lib.Tally
import FaiVerif.Scheduler.Formed

/-!
# Registrations and notifications

The invariant behind the channels' progress. A notification is a token: it is carried by a thread
that is about to take a registration, or by one whose registration was taken and that is on its way
back to the channel. While any registration is active there are at least as many tokens as values to
receive, or as slots to fill, and a thread that sleeps on a registration already taken is about to
be woken.
-/

namespace Fai.Scheduler

variable {α : Type}

/-- The registration of a channel operation in progress. -/
def Doing.waiter : Doing α → Option WaiterId
  | .channel _ _ (.registered w) | .channel _ _ (.asleep w) | .channel _ _ (.removing w) => some w
  | _ => none

/-- The channel, the waiting list and the registration a thread waits on. -/
def Doing.waitsOn : Doing α → Option (ChanId × Side × WaiterId)
  | .channel c op (.registered w) | .channel c op (.asleep w) => some (c, op.side, w)
  | _ => none

/-- Whether a thread has registered and is about to suspend. -/
def Doing.parking : Doing α → Bool
  | .channel _ _ (.registered _) => true
  | .await _ _ parking => parking
  | .join _ parking => parking
  | _ => false

/-- Whether a step is about to take a registration from a list. -/
def Micro.takes (c : ChanId) (side : Side) : Micro α → Bool
  | .take d list => d == c && list == side
  | _ => false

/-- Whether a channel operation carries a token at a stage. -/
def Stage.carries (active : WaiterId → Bool) : Stage → Nat
  | .ready | .removing _ => 1
  | .registered w | .asleep w => if active w then 0 else 1

/-- The tokens of a waiting list that a thread carries. -/
def Doing.carries (active : WaiterId → Bool) (c : ChanId) (side : Side) : Doing α → Nat
  | .steps rest => rest.countP (Micro.takes c side)
  | .channel d op stage => if d = c ∧ op.side = side then stage.carries active else 0
  | _ => 0

namespace State

/-- The tokens of a waiting list. -/
def carried (s : State α) (c : ChanId) (side : Side) : Nat :=
  ∑ t ∈ Finset.range s.next, (s.doing t).carries s.active c side

/-- How many waiters of a list could go on. -/
def owed (s : State α) (c : ChanId) : Side → Nat
  | .receive => (s.chan c).buf.length
  | .send => (s.chan c).capacity - (s.chan c).buf.length

/-- A step is waiting in some thread. -/
def Pending (s : State α) (m : Micro α) : Prop := ∃ t, m ∈ (s.doing t).pending

/-- A thread is suspended, or about to be. -/
def Sleeping (s : State α) (t : TaskId) : Prop := s.mode t = .parked ∨ (s.doing t).parking = true

/-- A task is in the run queue or about to be put there. -/
def Due (s : State α) (t : TaskId) : Prop := t ∈ s.queue ∨ s.Pending (.schedule t)

end State

/-- What waiting on channels comes to in a reachable state. -/
structure Waiting (s : State α) : Prop where
  /-- A registration belongs to the thread that made it. -/
  owner : ∀ t w, (s.doing t).waiter = some w → s.waiterTask w = t ∧ w < s.waiterCount
  /-- The lists hold registrations made. -/
  made : ∀ c side w, w ∈ (s.chan c).waiters side → w < s.waiterCount
  /-- The thread of an active registration in a list waits on it. -/
  listed : ∀ c side w, w ∈ (s.chan c).waiters side → s.active w = true →
    (s.doing (s.waiterTask w)).waitsOn = some (c, side, w)
  /-- An active registration is in its list, or the channel was closed and it is to be taken. -/
  found : ∀ t c side w, (s.doing t).waitsOn = some (c, side, w) → s.active w = true →
    w ∈ (s.chan c).waiters side ∨ ((s.chan c).closed = true ∧ s.Pending (.closeWake w))
  /-- While a registration is active, the tokens cover what could go on. -/
  cover : ∀ t c side w, (s.chan c).closed = false → (s.doing t).waitsOn = some (c, side, w) →
    s.active w = true → s.owed c side ≤ s.carried c side
  /-- A thread asleep on a registration taken is about to be woken. -/
  woken : ∀ t c side w, s.Sleeping t → (s.doing t).waitsOn = some (c, side, w) →
    s.active w = false → s.Due t ∨ s.Pending (.probe c side w) ∨
      (s.Pending (.probeMask c side w) ∧ s.cancelled t = true) ∨ s.isCancelled t = true
  /-- A cancelled thread asleep on a channel is about to be woken. -/
  cancelled : ∀ t c side w, s.Sleeping t → (s.doing t).waitsOn = some (c, side, w) →
    s.isCancelled t = true → s.Due t ∨ s.Pending (.cancelMask t)

/-- What a thread waits on is its registration. -/
theorem Doing.waiter_of_waitsOn {d : Doing α} {c : ChanId} {side : Side} {w : WaiterId}
    (waits : d.waitsOn = some (c, side, w)) : d.waiter = some w := by
  unfold Doing.waitsOn at waits
  split at waits <;> simp_all [Doing.waiter]

/-- Fewer active registrations leave at least as many tokens. -/
theorem Doing.carries_mono (d : Doing α) (c : ChanId) (side : Side)
    {active active' : WaiterId → Bool}
    (fewer : ∀ w, d.waiter = some w → active' w = true → active w = true) :
    d.carries active c side ≤ d.carries active' c side := by
  cases d with
  | channel d op stage =>
    simp only [Doing.carries]
    split
    · cases stage <;> simp only [Stage.carries, Nat.le_refl]
      all_goals
        rename_i w
        have := fewer w rfl
        grind
    · exact Nat.le_refl _
  | _ => exact Nat.le_refl _

namespace MicroChange

variable {s after : State α} {t : TaskId} {m : Micro α} {pushed : List (Micro α)}

/-- A step adds to the run queue. -/
theorem queue (change : MicroChange s t m after pushed) {u : TaskId} (queued : u ∈ s.queue) :
    u ∈ after.queue := by
  cases change <;> simp_all [State.addTask]

/-- A thread's cleanup depth is its own. -/
theorem cleanupDepth (change : MicroChange s t m after pushed) {u : TaskId} (old : u < s.next)
    (other : u ≠ t) : after.cleanupDepth u = s.cleanupDepth u := by
  cases change with
  | makeTask nursery =>
    simp only [State.addTask]
    exact Function.update_of_ne (Nat.ne_of_lt old) _ _
  | unmask => exact Function.update_of_ne other _ _
  | _ => rfl

/-- A cancellation flag is never cleared. -/
theorem flag (change : MicroChange s t m after pushed) {u : TaskId} (old : u < s.next)
    (flagged : s.cancelled u = true) : after.cancelled u = true := by
  cases change with
  | makeTask nursery =>
    simp only [State.addTask]
    rw [Function.update_of_ne (Nat.ne_of_lt old)]
    exact flagged
  | cancelFirst v unflagged =>
    simp only [Function.update_apply]
    split <;> simp [flagged]
  | _ => exact flagged

/-- A flag just set leaves the rest of the cancellation to be done. -/
theorem flag_new (change : MicroChange s t m after pushed) {u : TaskId}
    (unflagged : s.cancelled u = false) (flagged : after.cancelled u = true) :
    .cancelMask u ∈ pushed := by
  cases change <;> simp_all [State.addTask, Function.update_apply]

/-- Registrations are only taken. -/
theorem active (change : MicroChange s t m after pushed) {w : WaiterId}
    (active : after.active w = true) : s.active w = true := by
  cases change <;> simp_all [State.addTask, Function.update_apply]

/-- A registration just taken is being looked at, or its thread is about to be woken. -/
theorem active_taken (change : MicroChange s t m after pushed) {w : WaiterId}
    (before : s.active w = true) (taken : after.active w = false) :
    (∃ c side, w ∈ (s.chan c).waiters side ∧ .probe c side w ∈ pushed) ∨
      .schedule (s.waiterTask w) ∈ pushed := by
  cases change <;> simp_all [State.addTask, Function.update_apply]

/-- A step makes no registration. -/
theorem waiters (change : MicroChange s t m after pushed) :
    after.waiterTask = s.waiterTask ∧ after.waiterCount = s.waiterCount := by
  cases change <;> exact ⟨rfl, rfl⟩

/-- The lists only shrink. -/
theorem listed (change : MicroChange s t m after pushed) {c : ChanId} {side : Side} {w : WaiterId}
    (listed : w ∈ (after.chan c).waiters side) : w ∈ (s.chan c).waiters side := by
  cases change <;> simp_all [State.addTask, Function.update_apply]
  all_goals grind

/-- A registration leaves its list only inactive, or with the channel closed. -/
theorem unlisted (change : MicroChange s t m after pushed) {c : ChanId} {side : Side}
    {w : WaiterId} (before : w ∈ (s.chan c).waiters side) (active : after.active w = true) :
    w ∈ (after.chan c).waiters side ∨
      ((after.chan c).closed = true ∧ .closeWake w ∈ pushed) := by
  cases change with
  | close d free =>
    by_cases same : c = d
    · subst same
      right
      refine ⟨by simp, ?_⟩
      simp only [List.mem_map, List.mem_append, List.mem_reverse]
      refine ⟨w, ?_, rfl⟩
      cases side
      · exact Or.inr before
      · exact Or.inl before
    · left
      simpa [Function.update_of_ne same] using before
  | _ =>
    left
    simp_all [State.addTask, Function.update_apply]
    try grind

/-- A closed channel stays closed. -/
theorem closed (change : MicroChange s t m after pushed) {c : ChanId}
    (closed : (s.chan c).closed = true) : (after.chan c).closed = true := by
  cases change <;> simp_all [State.addTask, Function.update_apply]
  all_goals grind

/-- A step changes neither the buffer nor the capacity of a channel. -/
theorem owed (change : MicroChange s t m after pushed) (c : ChanId) (side : Side) :
    after.owed c side = s.owed c side := by
  cases change <;> cases side <;> simp [State.owed, State.addTask, Function.update_apply]
  all_goals grind

end MicroChange

/-- The state after a step inside a call that does not park. -/
abbrev State.stepped (after : State α) (t : TaskId) (pushed rest : List (Micro α)) : State α :=
  after.setDoing t (.steps (pushed ++ rest))

section Micro

variable {s after : State α} {t : TaskId} {m : Micro α} {pushed rest : List (Micro α)}

/-- A step inside the runtime leaves what other threads are doing. -/
theorem stepped_doing (formed : Formed s) (change : MicroChange s t m after pushed) {u : TaskId}
    (other : u ≠ t) : (after.stepped t pushed rest).doing u = s.doing u := by
  simp only [State.setDoing, Function.update_of_ne other, change.doing formed]

/-- The thread that took the step has its remaining steps. -/
theorem stepped_self : (after.stepped t pushed rest).doing t = .steps (pushed ++ rest) :=
  Function.update_self _ _ _

/-- A step inside the runtime changes no registration. -/
theorem stepped_waiter (formed : Formed s) (doing : s.doing t = .steps (m :: rest))
    (change : MicroChange s t m after pushed) (u : TaskId) :
    ((after.stepped t pushed rest).doing u).waiter = (s.doing u).waiter := by
  by_cases same : u = t
  · subst same
    rw [stepped_self, doing]
    rfl
  · rw [stepped_doing formed change same]

/-- A step inside the runtime changes nothing any thread waits on. -/
theorem stepped_waitsOn (formed : Formed s) (doing : s.doing t = .steps (m :: rest))
    (change : MicroChange s t m after pushed) (u : TaskId) :
    ((after.stepped t pushed rest).doing u).waitsOn = (s.doing u).waitsOn := by
  by_cases same : u = t
  · subst same
    rw [stepped_self, doing]
    rfl
  · rw [stepped_doing formed change same]

/-- Every step pending stays so, but the one taken. -/
theorem stepped_pending (formed : Formed s) (doing : s.doing t = .steps (m :: rest))
    (change : MicroChange s t m after pushed) {m' : Micro α} (pending : s.Pending m') :
    m' = m ∨ (after.stepped t pushed rest).Pending m' := by
  obtain ⟨u, member⟩ := pending
  by_cases same : u = t
  · subst same
    rw [doing] at member
    rcases List.mem_cons.mp member with first | later
    · exact Or.inl first
    · right
      refine ⟨u, ?_⟩
      rw [stepped_self]
      exact List.mem_append_right _ later
  · right
    refine ⟨u, ?_⟩
    rw [stepped_doing formed change same]
    exact member

/-- The steps a step leads to are pending. -/
theorem stepped_pushed {m' : Micro α} (member : m' ∈ pushed) :
    (after.stepped t pushed rest).Pending m' := by
  refine ⟨t, ?_⟩
  rw [stepped_self]
  exact List.mem_append_left _ member

/-- A task due stays due. -/
theorem stepped_due (formed : Formed s) (doing : s.doing t = .steps (m :: rest))
    (change : MicroChange s t m after pushed) {u : TaskId} (due : s.Due u) :
    (after.stepped t pushed rest).Due u := by
  rcases due with queued | pending
  · exact Or.inl (change.queue queued)
  · rcases stepped_pending formed doing change pending with rfl | pending
    · left
      cases change
      simp
    · exact Or.inr pending

/-- A thread in a call that can park sleeps as before. -/
theorem stepped_sleeping (formed : Formed s) (doing : s.doing t = .steps (m :: rest))
    (change : MicroChange s t m after pushed) {u : TaskId} (busy : (s.doing u).pending = [])
    (old : u < s.next) (sleeping : (after.stepped t pushed rest).Sleeping u) : s.Sleeping u := by
  have other : u ≠ t := by
    rintro rfl
    simp [doing, Doing.pending] at busy
  rcases sleeping with parked | parking
  · exact Or.inl (change.mode old ▸ parked)
  · right
    rwa [stepped_doing formed change other] at parking

end Micro

/-- A thread that waits on a channel has no pending step. -/
theorem Doing.pending_of_waitsOn {d : Doing α} {c : ChanId} {side : Side} {w : WaiterId}
    (waits : d.waitsOn = some (c, side, w)) : d.pending = [] := by
  unfold Doing.waitsOn at waits
  split at waits <;> simp_all [Doing.pending]

/-- A thread that waits on a channel exists. -/
theorem Formed.exists_waiting {s : State α} (formed : Formed s) {t : TaskId} {c : ChanId}
    {side : Side} {w : WaiterId} (waits : (s.doing t).waitsOn = some (c, side, w)) :
    t < s.next := by
  apply formed.exists_doing
  intro blank
  rw [blank] at waits
  simp [Doing.waitsOn] at waits

/-- An active registration a thread waits on is no token. -/
theorem Doing.carries_waiting {d : Doing α} {active : WaiterId → Bool} {c : ChanId} {side : Side}
    {w : WaiterId} (waits : d.waitsOn = some (c, side, w)) :
    d.carries active c side = if active w then 0 else 1 := by
  unfold Doing.waitsOn at waits
  split at waits <;> simp_all [Doing.carries, Stage.carries]

/-- A step inside the runtime keeps the tokens, when an active registration is left. -/
theorem Waiting.carried_micro {s after : State α} (waiting : Waiting s) (formed : Formed s)
    {t : TaskId} {m : Micro α} {pushed rest : List (Micro α)}
    (doing : s.doing t = .steps (m :: rest)) (change : MicroChange s t m after pushed)
    {u : TaskId} {c : ChanId} {side : Side} {w : WaiterId}
    (opened : (s.chan c).closed = false) (waits : (s.doing u).waitsOn = some (c, side, w))
    (active : s.active w = true) :
    s.carried c side ≤ (after.stepped t pushed rest).carried c side := by
  have inside : t < s.next := formed.exists_doing (by simp [doing])
  have mono : ∀ v, v ≠ t → (s.doing v).carries s.active c side ≤
      ((after.stepped t pushed rest).doing v).carries after.active c side := by
    intro v other
    rw [stepped_doing formed change other]
    exact Doing.carries_mono _ _ _ (fun w _ => change.active)
  by_cases takes : m.takes c side = true
  · -- The token moves from the taker to the owner of the registration taken.
    cases change with
    | takeNone d list empty =>
      simp only [Micro.takes, Bool.and_eq_true, beq_iff_eq] at takes
      obtain ⟨rfl, rfl⟩ := takes
      rcases waiting.found u d list w waits active with there | closed
      · simp [empty] at there
      · simp [opened] at closed
    | takeActive d list v left stack activeV =>
      simp only [Micro.takes, Bool.and_eq_true, beq_iff_eq] at takes
      obtain ⟨rfl, rfl⟩ := takes
      have owner := waiting.listed d list v (by simp [stack]) activeV
      have different : t ≠ s.waiterTask v := by
        intro same
        rw [← same, doing] at owner
        simp [Doing.waitsOn] at owner
      apply Tally.sum_le_of_transfer inside (formed.exists_waiting owner) different
      · simp [doing, Doing.carries, Micro.takes]
      · rw [stepped_doing formed (.takeActive d list v left stack activeV) (Ne.symm different),
          Doing.carries_waiting owner, Doing.carries_waiting owner]
        simp [activeV]
      · intro j away _
        exact mono j away
    | takeInactive d list v left stack inactive =>
      apply Tally.sum_le_of_grow (Nat.le_refl _)
      intro j _
      by_cases same : j = t
      · subst same
        simp [doing, Doing.carries, Micro.takes] at takes ⊢
      · exact mono j same
    | _ => simp [Micro.takes] at takes
  · apply Tally.sum_le_of_grow change.next_le
    intro j _
    by_cases same : j = t
    · subst same
      rw [stepped_self, doing]
      simp only [Doing.carries, List.countP_append]
      rw [List.countP_cons_of_neg takes]
      exact Nat.le_add_left _ _
    · exact mono j same

/-- A step inside the runtime leaves a waiting thread's mask. -/
theorem MicroChange.isCancelled {s after : State α} {t : TaskId} {m : Micro α}
    {pushed : List (Micro α)} (change : MicroChange s t m after pushed) {u : TaskId}
    (old : u < s.next) (other : u ≠ t) (cancelled : s.isCancelled u = true) :
    after.isCancelled u = true := by
  simp only [State.isCancelled, Bool.and_eq_true, beq_iff_eq] at cancelled ⊢
  rw [change.cleanupDepth old other]
  exact ⟨change.flag old cancelled.1, cancelled.2⟩

/-- A thread asleep on a registration taken stays about to be woken. -/
theorem Waiting.woken_micro {s after : State α} (waiting : Waiting s) (formed : Formed s)
    {t : TaskId} {m : Micro α} {pushed rest : List (Micro α)}
    (doing : s.doing t = .steps (m :: rest)) (change : MicroChange s t m after pushed)
    {u : TaskId} {c : ChanId} {side : Side} {w : WaiterId} (sleeping : s.Sleeping u)
    (waits : (s.doing u).waitsOn = some (c, side, w)) (inactive : after.active w = false) :
    (after.stepped t pushed rest).Due u ∨ (after.stepped t pushed rest).Pending (.probe c side w) ∨
      ((after.stepped t pushed rest).Pending (.probeMask c side w) ∧ after.cancelled u = true) ∨
      after.isCancelled u = true := by
  have owner := (waiting.owner u w (Doing.waiter_of_waitsOn waits)).1
  have old := formed.exists_waiting waits
  have other : u ≠ t := by
    rintro rfl
    simp [doing, Doing.waitsOn] at waits
  by_cases before : s.active w = true
  · rcases change.active_taken before inactive with ⟨d, list, there, probe⟩ | scheduled
    · have same := waiting.listed d list w there before
      rw [owner, waits] at same
      simp only [Option.some.injEq, Prod.mk.injEq, and_true] at same
      obtain ⟨rfl, rfl⟩ := same
      exact Or.inr (Or.inl (stepped_pushed probe))
    · rw [owner] at scheduled
      exact Or.inl (Or.inr (stepped_pushed scheduled))
  · rcases waiting.woken u c side w sleeping waits (eq_false_of_ne_true before) with
      due | pending | ⟨pending, flagged⟩ | cancelled
    · exact Or.inl (stepped_due formed doing change due)
    · rcases stepped_pending formed doing change pending with rfl | pending
      · cases change with
        | probeFlagged _ _ _ flagged =>
          exact Or.inr (Or.inr (Or.inl ⟨stepped_pushed (by simp), owner ▸ flagged⟩))
        | probeFree _ _ _ unflagged =>
          exact Or.inl (Or.inr (stepped_pushed (by simp [owner])))
      · exact Or.inr (Or.inl pending)
    · rcases stepped_pending formed doing change pending with rfl | pending
      · cases change with
        | probeSkip _ _ _ unmasked =>
          refine Or.inr (Or.inr (Or.inr ?_))
          rw [owner] at unmasked
          simp [State.isCancelled, flagged, unmasked]
        | probeMasked _ _ _ masked =>
          exact Or.inl (Or.inr (stepped_pushed (by simp [owner])))
      · exact Or.inr (Or.inr (Or.inl ⟨pending, change.flag old flagged⟩))
    · exact Or.inr (Or.inr (Or.inr (change.isCancelled old other cancelled)))

/-- A cancelled thread asleep on a channel stays about to be woken. -/
theorem Waiting.cancelled_micro {s after : State α} (waiting : Waiting s) (formed : Formed s)
    {t : TaskId} {m : Micro α} {pushed rest : List (Micro α)}
    (doing : s.doing t = .steps (m :: rest)) (change : MicroChange s t m after pushed)
    {u : TaskId} {c : ChanId} {side : Side} {w : WaiterId} (sleeping : s.Sleeping u)
    (waits : (s.doing u).waitsOn = some (c, side, w)) (cancelled : after.isCancelled u = true) :
    (after.stepped t pushed rest).Due u ∨
      (after.stepped t pushed rest).Pending (.cancelMask u) := by
  have old := formed.exists_waiting waits
  have other : u ≠ t := by
    rintro rfl
    simp [doing, Doing.waitsOn] at waits
  simp only [State.isCancelled, Bool.and_eq_true, beq_iff_eq] at cancelled
  rw [change.cleanupDepth old other] at cancelled
  by_cases before : s.cancelled u = true
  · rcases waiting.cancelled u c side w sleeping waits
      (by simp [State.isCancelled, before, cancelled.2]) with due | pending
    · exact Or.inl (stepped_due formed doing change due)
    · rcases stepped_pending formed doing change pending with rfl | pending
      · cases change with
        | cancelMasked _ masked => exact absurd cancelled.2 masked
        | cancelOpen _ unmasked => exact Or.inl (Or.inr (stepped_pushed (by simp)))
      · exact Or.inr pending
  · exact Or.inr (stepped_pushed (change.flag_new (eq_false_of_ne_true before) cancelled.1))

/-- A step inside a call that does not park keeps the invariant. -/
theorem Waiting.micro {s after : State α} (waiting : Waiting s) (formed : Formed s)
    {t : TaskId} {m : Micro α} {pushed rest : List (Micro α)}
    (doing : s.doing t = .steps (m :: rest)) (change : MicroChange s t m after pushed) :
    Waiting (after.stepped t pushed rest) := by
  have waiter := stepped_waiter formed doing change
  have waitsOn := stepped_waitsOn formed doing change
  refine ⟨?_, ?_, ?_, ?_, ?_, ?_, ?_⟩
  · intro u w registered
    rw [waiter] at registered
    simp only [State.setDoing]
    rw [change.waiters.1, change.waiters.2]
    exact waiting.owner u w registered
  · intro c side w there
    simp only [State.setDoing]
    rw [change.waiters.2]
    exact waiting.made c side w (change.listed there)
  · intro c side w there active
    simp only [waitsOn]
    simp only [State.setDoing]
    rw [change.waiters.1]
    exact waiting.listed c side w (change.listed there) (change.active active)
  · intro u c side w waits active
    rw [waitsOn] at waits
    rcases waiting.found u c side w waits (change.active active) with there | ⟨closed, pending⟩
    · rcases change.unlisted there active with there | ⟨closed, pending⟩
      · exact Or.inl there
      · exact Or.inr ⟨closed, stepped_pushed pending⟩
    · right
      refine ⟨change.closed closed, ?_⟩
      rcases stepped_pending formed doing change pending with rfl | pending
      · cases change with
        | closeActive _ activeW => simp at active
        | closeInactive _ inactive => simp [inactive] at active
      · exact pending
  · intro u c side w opened waits active
    rw [waitsOn] at waits
    have before : (s.chan c).closed = false := by
      by_contra closed
      have still : (after.chan c).closed = true := change.closed (eq_true_of_ne_false closed)
      exact absurd (still.symm.trans opened) (by simp)
    have activeW := change.active active
    calc (after.stepped t pushed rest).owed c side = s.owed c side := change.owed c side
      _ ≤ s.carried c side := waiting.cover u c side w before waits activeW
      _ ≤ (after.stepped t pushed rest).carried c side :=
        waiting.carried_micro formed doing change before waits activeW
  · intro u c side w sleeping waits inactive
    rw [waitsOn] at waits
    have before := stepped_sleeping formed doing change (Doing.pending_of_waitsOn waits)
      (formed.exists_waiting waits) sleeping
    exact waiting.woken_micro formed doing change before waits inactive
  · intro u c side w sleeping waits cancelled
    rw [waitsOn] at waits
    have before := stepped_sleeping formed doing change (Doing.pending_of_waitsOn waits)
      (formed.exists_waiting waits) sleeping
    exact waiting.cancelled_micro formed doing change before waits cancelled

end Fai.Scheduler
