import FaiVerif.Scheduler.Waiting

/-!
# No waiter is stranded

Every step keeps the invariant on registrations and notifications. When nothing can run, there are
no tokens left, so no task is left suspended on a channel where it could go on.
-/

namespace Fai.Scheduler

variable {α : Type}

/-- A call, or no call, that has nothing to do with channels and no step pending. -/
def Doing.plain : Doing α → Bool
  | .steps rest => rest.isEmpty
  | .channel _ _ _ => false
  | _ => true

/-- What is plain holds no registration and no token. -/
theorem Doing.plain_elim {d : Doing α} (plain : d.plain = true) :
    d.waiter = none ∧ d.waitsOn = none ∧ d.pending = [] ∧
      ∀ active c side, d.carries active c side = 0 := by
  cases d with
  | steps rest =>
    simp only [Doing.plain, List.isEmpty_iff] at plain
    subst plain
    exact ⟨rfl, rfl, rfl, fun _ _ _ => rfl⟩
  | channel c op stage => simp [Doing.plain] at plain
  | await h registered parking => exact ⟨rfl, rfl, rfl, fun _ _ _ => rfl⟩
  | join n parking => exact ⟨rfl, rfl, rfl, fun _ _ _ => rfl⟩
  | park => exact ⟨rfl, rfl, rfl, fun _ _ _ => rfl⟩

/-- Without a registration a thread waits on no channel. -/
theorem Doing.waitsOn_none {d : Doing α} (free : d.waiter = none) : d.waitsOn = none := by
  cases waits : d.waitsOn with
  | none => rfl
  | some place =>
    rw [Doing.waiter_of_waitsOn waits] at free
    cases free

/-- A change that leaves channels and registrations alone. -/
structure Apart (s s' : State α) : Prop where
  next : s.next ≤ s'.next
  waiter : ∀ u, (s'.doing u).waiter = (s.doing u).waiter
  waitsOn : ∀ u, (s'.doing u).waitsOn = (s.doing u).waitsOn
  carries : ∀ u active c side,
    (s.doing u).carries active c side ≤ (s'.doing u).carries active c side
  pending : ∀ u m, m ∈ (s.doing u).pending → m ∈ (s'.doing u).pending
  active : s'.active = s.active
  waiterTask : s'.waiterTask = s.waiterTask
  waiterCount : s'.waiterCount = s.waiterCount
  listed : ∀ c side w, w ∈ (s'.chan c).waiters side → w ∈ (s.chan c).waiters side
  chans : ∀ u c side w, (s.doing u).waitsOn = some (c, side, w) → s'.chan c = s.chan c
  asleep : ∀ u c side w, (s.doing u).waitsOn = some (c, side, w) → s'.Sleeping u →
    s.Sleeping u ∧ (u ∈ s.queue → u ∈ s'.queue)
  flags : ∀ u c side w, (s.doing u).waitsOn = some (c, side, w) →
    s'.cancelled u = s.cancelled u ∧ s'.isCancelled u = s.isCancelled u

/-- A pending step stays pending. -/
theorem Apart.keeps {s s' : State α} (apart : Apart s s') {m : Micro α} (pending : s.Pending m) :
    s'.Pending m := by
  obtain ⟨u, member⟩ := pending
  exact ⟨u, apart.pending u m member⟩

/-- A waiting task that is due stays due. -/
theorem Apart.due {s s' : State α} (apart : Apart s s') {u : TaskId} {c : ChanId} {side : Side}
    {w : WaiterId} (waits : (s.doing u).waitsOn = some (c, side, w)) (sleeping : s'.Sleeping u)
    (due : s.Due u) : s'.Due u := by
  rcases due with queued | pending
  · exact Or.inl ((apart.asleep u c side w waits sleeping).2 queued)
  · exact Or.inr (apart.keeps pending)

/-- A change that leaves channels and registrations alone keeps the invariant. -/
theorem Waiting.apart {s s' : State α} (waiting : Waiting s) (apart : Apart s s') :
    Waiting s' := by
  refine ⟨?_, ?_, ?_, ?_, ?_, ?_, ?_⟩
  · intro u w registered
    rw [apart.waiter] at registered
    rw [apart.waiterTask, apart.waiterCount]
    exact waiting.owner u w registered
  · intro c side w there
    rw [apart.waiterCount]
    exact waiting.made c side w (apart.listed c side w there)
  · intro c side w there active
    rw [apart.active] at active
    rw [apart.waiterTask, apart.waitsOn]
    exact waiting.listed c side w (apart.listed c side w there) active
  · intro u c side w waits active
    rw [apart.waitsOn] at waits
    rw [apart.active] at active
    rw [apart.chans u c side w waits]
    rcases waiting.found u c side w waits active with there | ⟨closed, pending⟩
    · exact Or.inl there
    · exact Or.inr ⟨closed, apart.keeps pending⟩
  · intro u c side w opened waits active
    rw [apart.waitsOn] at waits
    rw [apart.active] at active
    rw [apart.chans u c side w waits] at opened
    have owed : s'.owed c side = s.owed c side := by
      cases side <;> simp only [State.owed, apart.chans u c _ w waits]
    rw [owed]
    refine Nat.le_trans (waiting.cover u c side w opened waits active) ?_
    apply Tally.sum_le_of_grow apart.next
    intro j _
    rw [apart.active]
    exact apart.carries j _ c side
  · intro u c side w sleeping waits inactive
    rw [apart.waitsOn] at waits
    rw [apart.active] at inactive
    have flags := apart.flags u c side w waits
    rcases waiting.woken u c side w (apart.asleep u c side w waits sleeping).1 waits inactive with
      due | pending | ⟨pending, flagged⟩ | cancelled
    · exact Or.inl (apart.due waits sleeping due)
    · exact Or.inr (Or.inl (apart.keeps pending))
    · exact Or.inr (Or.inr (Or.inl ⟨apart.keeps pending, flags.1.trans flagged⟩))
    · exact Or.inr (Or.inr (Or.inr (flags.2.trans cancelled)))
  · intro u c side w sleeping waits cancelled
    rw [apart.waitsOn] at waits
    rw [(apart.flags u c side w waits).2] at cancelled
    rcases waiting.cancelled u c side w (apart.asleep u c side w waits sleeping).1 waits cancelled
      with due | pending
    · exact Or.inl (apart.due waits sleeping due)
    · exact Or.inr (apart.keeps pending)

/-- A change of one thread between calls that have nothing to do with channels. -/
theorem Apart.thread {s s' : State α} {t : TaskId} (plain : (s.doing t).plain = true)
    (free : (s'.doing t).waiter = none) (next : s.next ≤ s'.next)
    (doings : ∀ u, u ≠ t → s'.doing u = s.doing u) (modes : ∀ u, u ≠ t → s'.mode u = s.mode u)
    (flags : ∀ u, u ≠ t → s'.cancelled u = s.cancelled u ∧
      s'.cleanupDepth u = s.cleanupDepth u)
    (active : s'.active = s.active) (waiterTask : s'.waiterTask = s.waiterTask)
    (waiterCount : s'.waiterCount = s.waiterCount) (queue : s'.queue = s.queue)
    (listed : ∀ c side w, w ∈ (s'.chan c).waiters side → w ∈ (s.chan c).waiters side)
    (chans : ∀ u c side w, (s.doing u).waitsOn = some (c, side, w) → s'.chan c = s.chan c) :
    Apart s s' := by
  obtain ⟨noWaiter, noWait, noPending, noTokens⟩ := Doing.plain_elim plain
  have away : ∀ u c side w, (s.doing u).waitsOn = some (c, side, w) → u ≠ t := by
    rintro u c side w waits rfl
    rw [noWait] at waits
    cases waits
  refine ⟨next, ?_, ?_, ?_, ?_, active, waiterTask, waiterCount, listed, chans, ?_, ?_⟩
  · intro u
    by_cases same : u = t
    · subst same
      rw [free, noWaiter]
    · rw [doings u same]
  · intro u
    by_cases same : u = t
    · subst same
      rw [noWait]
      exact Doing.waitsOn_none free
    · rw [doings u same]
  · intro u active c side
    by_cases same : u = t
    · subst same
      rw [noTokens]
      exact Nat.zero_le _
    · rw [doings u same]
  · intro u m member
    by_cases same : u = t
    · subst same
      rw [noPending] at member
      cases member
    · rwa [doings u same]
  · intro u c side w waits sleeping
    have same := away u c side w waits
    rw [State.Sleeping, modes u same, doings u same] at sleeping
    exact ⟨sleeping, fun queued => queue ▸ queued⟩
  · intro u c side w waits
    have same := flags u (away u c side w waits)
    exact ⟨same.1, by rw [State.isCancelled, same.1, same.2]; rfl⟩

/-- A change that leaves what every thread is doing. -/
theorem Apart.still {s s' : State α} (next : s'.next = s.next) (doing : s'.doing = s.doing)
    (active : s'.active = s.active) (waiterTask : s'.waiterTask = s.waiterTask)
    (waiterCount : s'.waiterCount = s.waiterCount)
    (listed : ∀ c side w, w ∈ (s'.chan c).waiters side → w ∈ (s.chan c).waiters side)
    (chans : ∀ u c side w, (s.doing u).waitsOn = some (c, side, w) → s'.chan c = s.chan c)
    (cancelled : s'.cancelled = s.cancelled) (cleanupDepth : s'.cleanupDepth = s.cleanupDepth)
    (asleep : ∀ u, s'.Sleeping u → s.Sleeping u ∧ (u ∈ s.queue → u ∈ s'.queue)) :
    Apart s s' := by
  refine ⟨Nat.le_of_eq next.symm, ?_, ?_, ?_, ?_, active, waiterTask, waiterCount, listed, chans,
    fun u _ _ _ _ sleeping => asleep u sleeping, ?_⟩
  · intro u
    rw [doing]
  · intro u
    rw [doing]
  · intro u active c side
    rw [doing]
  · intro u m member
    rwa [doing]
  · intro u c side w _
    rw [State.isCancelled, cancelled, cleanupDepth]
    exact ⟨rfl, rfl⟩

/-- A thread that does not run is not about to suspend. -/
theorem Formed.not_parking {s : State α} (formed : Formed s) {t : TaskId}
    (still : s.mode t ≠ .running) : (s.doing t).parking = false := by
  have resting := formed.resting t still
  cases now : s.doing t with
  | steps rest => rfl
  | channel c op stage =>
    rw [now] at resting
    cases stage <;> simp_all [Doing.resting, Doing.parking]
  | await h registered parking =>
    rw [now] at resting
    simp_all [Doing.resting, Doing.parking]
  | join n parking =>
    rw [now] at resting
    simp_all [Doing.resting, Doing.parking]
  | park => rfl

/-- Waiting on a channel uses it. -/
theorem Doing.uses_of_waitsOn {d : Doing α} {c : ChanId} {side : Side} {w : WaiterId}
    (waits : d.waitsOn = some (c, side, w)) : d.uses c = true := by
  unfold Doing.waitsOn at waits
  split at waits <;> simp_all [Doing.uses]

/-- A thread that goes on with a channel operation, or leaves it, without waiting. -/
structure Leaves (s s' : State α) (t : TaskId) : Prop where
  next : s'.next = s.next
  busy : (s.doing t).pending = []
  free : (s'.doing t).waitsOn = none
  same : ∀ w, (s'.doing t).waiter = some w → (s.doing t).waiter = some w
  own : ∀ c side w, (s.doing t).waitsOn = some (c, side, w) → s'.active w = false
  doings : ∀ u, u ≠ t → s'.doing u = s.doing u
  modes : ∀ u, u ≠ t → s'.mode u = s.mode u
  cancelled : s'.cancelled = s.cancelled
  cleanupDepth : s'.cleanupDepth = s.cleanupDepth
  queue : s'.queue = s.queue
  waiterTask : s'.waiterTask = s.waiterTask
  waiterCount : s'.waiterCount = s.waiterCount
  active : ∀ w, (s.doing t).waiter ≠ some w → s'.active w = s.active w
  taken : ∀ w, s'.active w = true → s.active w = true
  closed : ∀ c, (s'.chan c).closed = (s.chan c).closed
  listed : ∀ c side w, w ∈ (s'.chan c).waiters side → w ∈ (s.chan c).waiters side
  kept : ∀ c side w, w ∈ (s.chan c).waiters side → (s.doing t).waiter ≠ some w →
    w ∈ (s'.chan c).waiters side
  balance : ∀ c side, (s.chan c).closed = false → s'.owed c side = 0 ∨
    s'.owed c side + (s.doing t).carries s.active c side ≤
      s.owed c side + (s'.doing t).carries s'.active c side

/-- Another thread's registration is not the one of the thread that goes on. -/
theorem Waiting.other_waiter {s : State α} (waiting : Waiting s) {t u : TaskId} {w : WaiterId}
    (other : u ≠ t) (registered : (s.doing u).waiter = some w) : (s.doing t).waiter ≠ some w := by
  intro same
  exact other ((waiting.owner u w registered).1.symm.trans (waiting.owner t w same).1)

/-- A thread going on moves the tokens by its own. -/
theorem Leaves.carried {s s' : State α} {t : TaskId} (leaves : Leaves s s' t)
    (waiting : Waiting s) (inside : t < s.next) (c : ChanId) (side : Side) :
    s'.carried c side + (s.doing t).carries s.active c side =
      s.carried c side + (s'.doing t).carries s'.active c side := by
  unfold State.carried
  rw [leaves.next]
  apply Tally.sum_replace inside
  intro u _ other
  rw [leaves.doings u other]
  have equal : ∀ w, (s.doing u).waiter = some w → s'.active w = s.active w := fun w registered =>
    leaves.active w (waiting.other_waiter other registered)
  apply Nat.le_antisymm
  · exact Doing.carries_mono _ _ _ (fun w registered active => (equal w registered).trans active)
  · exact Doing.carries_mono _ _ _ fun w registered active =>
      (equal w registered).symm.trans active

/-- A thread going on with its channel operation keeps the invariant. -/
theorem Waiting.leaves {s s' : State α} (waiting : Waiting s) {t : TaskId} (inside : t < s.next)
    (leaves : Leaves s s' t) : Waiting s' := by
  have away : ∀ u c side w, (s'.doing u).waitsOn = some (c, side, w) → u ≠ t := by
    rintro u c side w waits rfl
    rw [leaves.free] at waits
    cases waits
  have keeps : ∀ m, s.Pending m → s'.Pending m := by
    rintro m ⟨u, member⟩
    have other : u ≠ t := by
      rintro rfl
      rw [leaves.busy] at member
      cases member
    exact ⟨u, by rwa [leaves.doings u other]⟩
  have due : ∀ u, s.Due u → s'.Due u := by
    intro u before
    rcases before with queued | pending
    · exact Or.inl (leaves.queue ▸ queued)
    · exact Or.inr (keeps _ pending)
  have flags : s'.isCancelled = s.isCancelled := by
    funext u
    rw [State.isCancelled, State.isCancelled, leaves.cancelled, leaves.cleanupDepth]
  refine ⟨?_, ?_, ?_, ?_, ?_, ?_, ?_⟩
  · intro u w registered
    rw [leaves.waiterTask, leaves.waiterCount]
    by_cases same : u = t
    · subst same
      exact waiting.owner u w (leaves.same w registered)
    · exact waiting.owner u w (leaves.doings u same ▸ registered)
  · intro c side w there
    rw [leaves.waiterCount]
    exact waiting.made c side w (leaves.listed c side w there)
  · intro c side w there active
    rw [leaves.waiterTask]
    have waits := waiting.listed c side w (leaves.listed c side w there) (leaves.taken w active)
    have other : s.waiterTask w ≠ t := by
      intro same
      rw [same] at waits
      rw [leaves.own c side w waits] at active
      cases active
    rw [leaves.doings _ other]
    exact waits
  · intro u c side w waits active
    have other := away u c side w waits
    rw [leaves.doings u other] at waits
    rw [leaves.closed]
    rcases waiting.found u c side w waits (leaves.taken w active) with there | ⟨closed, pending⟩
    · exact Or.inl (leaves.kept c side w there
        (waiting.other_waiter other (Doing.waiter_of_waitsOn waits)))
    · exact Or.inr ⟨closed, keeps _ pending⟩
  · intro u c side w opened waits active
    have other := away u c side w waits
    rw [leaves.doings u other] at waits
    rw [leaves.closed] at opened
    have before := waiting.cover u c side w opened waits (leaves.taken w active)
    have moved := leaves.carried waiting inside c side
    rcases leaves.balance c side opened with none | balance <;> omega
  · intro u c side w sleeping waits inactive
    have other := away u c side w waits
    rw [State.Sleeping, leaves.modes u other, leaves.doings u other] at sleeping
    rw [leaves.doings u other] at waits
    rw [leaves.active w (waiting.other_waiter other (Doing.waiter_of_waitsOn waits))] at inactive
    rw [flags, leaves.cancelled]
    rcases waiting.woken u c side w sleeping waits inactive with
      before | pending | ⟨pending, flagged⟩ | cancelled
    · exact Or.inl (due u before)
    · exact Or.inr (Or.inl (keeps _ pending))
    · exact Or.inr (Or.inr (Or.inl ⟨keeps _ pending, flagged⟩))
    · exact Or.inr (Or.inr (Or.inr cancelled))
  · intro u c side w sleeping waits cancelled
    have other := away u c side w waits
    rw [State.Sleeping, leaves.modes u other, leaves.doings u other] at sleeping
    rw [leaves.doings u other] at waits
    rw [flags] at cancelled
    rcases waiting.cancelled u c side w sleeping waits cancelled with before | pending
    · exact Or.inl (due u before)
    · exact Or.inr (keeps _ pending)

/-- A channel operation at its lock that leaves its loop for some last steps. -/
theorem Leaves.ready {s s' : State α} {t : TaskId} {c : ChanId} {op : ChanOp α}
    (doing : s.doing t = .channel c op .ready) (ms : List (Micro α))
    (only : s' = { s with
      chan := s'.chan, doing := Function.update s.doing t (.steps ms), log := s'.log })
    (closed : ∀ d, (s'.chan d).closed = (s.chan d).closed)
    (waiters : ∀ d, (s'.chan d).waiters = (s.chan d).waiters)
    (balance : ∀ d side, (s.chan d).closed = false → s'.owed d side = 0 ∨
      s'.owed d side + (if c = d ∧ op.side = side then 1 else 0) ≤
        s.owed d side + ms.countP (Micro.takes d side)) : Leaves s s' t := by
  have self : s'.doing t = .steps ms := by
    rw [only]
    exact Function.update_self _ _ _
  refine ⟨by rw [only], by rw [doing]; rfl, by rw [self]; rfl, ?_, ?_, ?_, ?_, by rw [only],
    by rw [only], by rw [only], by rw [only], by rw [only], ?_, ?_, closed, ?_, ?_, ?_⟩
  · intro w registered
    rw [self] at registered
    cases registered
  · intro d side w waits
    rw [doing] at waits
    cases waits
  · intro u other
    rw [only]
    exact Function.update_of_ne other _ _
  · intro u _
    rw [only]
  · intro w _
    rw [only]
  · intro w active
    rwa [only] at active
  · intro d side w there
    rwa [waiters] at there
  · intro d side w there _
    rwa [waiters]
  · intro d side opened
    rw [doing, self]
    exact balance d side opened

/-- Registering and releasing the lock keeps the invariant, when nothing is owed. -/
theorem Waiting.register {s : State α} (waiting : Waiting s) {t : TaskId} {c : ChanId}
    {op : ChanOp α} (doing : s.doing t = .channel c op .ready)
    (uncancelled : s.isCancelled t = false) (settled : s.owed c op.side = 0) :
    Waiting (s.registerWaiter t c op) := by
  have old : ∀ u w, (s.doing u).waiter = some w → w ≠ s.waiterCount := fun u w registered =>
    Nat.ne_of_lt (waiting.owner u w registered).2
  have others : ∀ u, u ≠ t → (s.registerWaiter t c op).doing u = s.doing u := fun u other =>
    Function.update_of_ne other _ _
  have self : (s.registerWaiter t c op).doing t = .channel c op (.registered s.waiterCount) :=
    Function.update_self _ _ _
  have active : ∀ w, w ≠ s.waiterCount → (s.registerWaiter t c op).active w = s.active w :=
    fun w different => Function.update_of_ne different _ _
  have kept : ∀ d side w, w ∈ (s.chan d).waiters side →
      w ∈ ((s.registerWaiter t c op).chan d).waiters side := by
    intro d side w there
    by_cases same : d = c
    · subst same
      simp only [State.registerWaiter, Function.update_self, Chan.setWaiters_waiters]
      split
      next list => exact List.mem_cons_of_mem _ (list ▸ there)
      next => exact there
    · simpa [State.registerWaiter, Function.update_of_ne same] using there
  have lists : ∀ d side w, w ∈ ((s.registerWaiter t c op).chan d).waiters side →
      (w = s.waiterCount ∧ d = c ∧ side = op.side) ∨ w ∈ (s.chan d).waiters side := by
    intro d side w there
    by_cases same : d = c
    · subst same
      simp only [State.registerWaiter, Function.update_self, Chan.setWaiters_waiters] at there
      split at there
      next list =>
        rcases List.mem_cons.mp there with new | before
        · exact Or.inl ⟨new, rfl, list⟩
        · exact Or.inr (list ▸ before)
      next => exact Or.inr there
    · right
      simpa [State.registerWaiter, Function.update_of_ne same] using there
  have closed : ∀ d, ((s.registerWaiter t c op).chan d).closed = (s.chan d).closed := by
    intro d
    by_cases same : d = c <;> simp [State.registerWaiter, same]
  have owed : ∀ d side, (s.registerWaiter t c op).owed d side = s.owed d side := by
    intro d side
    by_cases same : d = c <;> cases side <;> simp [State.owed, State.registerWaiter, same]
  have keeps : ∀ m, s.Pending m → (s.registerWaiter t c op).Pending m := by
    rintro m ⟨u, member⟩
    have other : u ≠ t := by
      rintro rfl
      rw [doing] at member
      cases member
    exact ⟨u, by rwa [others u other]⟩
  have due : ∀ u, s.Due u → (s.registerWaiter t c op).Due u := by
    intro u before
    rcases before with queued | pending
    · exact Or.inl queued
    · exact Or.inr (keeps _ pending)
  have sleeping : ∀ u, u ≠ t → (s.registerWaiter t c op).Sleeping u → s.Sleeping u := by
    intro u other asleep
    rw [State.Sleeping, others u other] at asleep
    exact asleep
  refine ⟨?_, ?_, ?_, ?_, ?_, ?_, ?_⟩
  · intro u w registered
    by_cases same : u = t
    · subst same
      rw [self] at registered
      simp only [Doing.waiter, Option.some.injEq] at registered
      subst registered
      exact ⟨Function.update_self _ _ _, Nat.lt_succ_self _⟩
    · rw [others u same] at registered
      have before := waiting.owner u w registered
      refine ⟨?_, Nat.lt_succ_of_lt before.2⟩
      simp only [State.registerWaiter, Function.update_of_ne (old u w registered)]
      exact before.1
  · intro d side w there
    rcases lists d side w there with ⟨rfl, -, -⟩ | before
    · exact Nat.lt_succ_self _
    · exact Nat.lt_succ_of_lt (waiting.made d side w before)
  · intro d side w there activeW
    rcases lists d side w there with ⟨rfl, rfl, rfl⟩ | before
    · simp [State.registerWaiter, Doing.waitsOn]
    · have different : w ≠ s.waiterCount := Nat.ne_of_lt (waiting.made d side w before)
      rw [active w different] at activeW
      have waits := waiting.listed d side w before activeW
      have other : s.waiterTask w ≠ t := by
        intro same
        rw [same, doing] at waits
        cases waits
      have owner : (s.registerWaiter t c op).waiterTask w = s.waiterTask w :=
        Function.update_of_ne different _ _
      rw [owner, others _ other]
      exact waits
  · intro u d side w waits activeW
    by_cases same : u = t
    · subst same
      rw [self] at waits
      simp only [Doing.waitsOn, Option.some.injEq, Prod.mk.injEq] at waits
      obtain ⟨rfl, rfl, rfl⟩ := waits
      left
      simp [State.registerWaiter, Chan.setWaiters_waiters]
    · rw [others u same] at waits
      rw [active w (old u w (Doing.waiter_of_waitsOn waits))] at activeW
      rw [closed]
      rcases waiting.found u d side w waits activeW with there | ⟨shut, pending⟩
      · exact Or.inl (kept d side w there)
      · exact Or.inr ⟨shut, keeps _ pending⟩
  · intro u d side w opened waits activeW
    rw [owed]
    by_cases here : c = d ∧ op.side = side
    · obtain ⟨rfl, rfl⟩ := here
      rw [settled]
      exact Nat.zero_le _
    · have other : u ≠ t := by
        rintro rfl
        rw [self] at waits
        simp only [Doing.waitsOn, Option.some.injEq, Prod.mk.injEq] at waits
        exact here ⟨waits.1, waits.2.1⟩
      rw [others u other] at waits
      rw [active w (old u w (Doing.waiter_of_waitsOn waits))] at activeW
      rw [closed] at opened
      refine Nat.le_trans (waiting.cover u d side w opened waits activeW) ?_
      apply Tally.sum_le_of_grow (Nat.le_refl _)
      intro j _
      by_cases same : j = t
      · subst same
        rw [doing, self]
        simp [Doing.carries, here]
      · rw [others j same]
        apply Doing.carries_mono
        intro v registered activeV
        rwa [active v (old j v registered)] at activeV
  · intro u d side w asleep waits inactive
    by_cases same : u = t
    · subst same
      rw [self] at waits
      simp only [Doing.waitsOn, Option.some.injEq, Prod.mk.injEq] at waits
      obtain ⟨rfl, rfl, rfl⟩ := waits
      simp [State.registerWaiter] at inactive
    · have before := sleeping u same asleep
      rw [others u same] at waits
      rw [active w (old u w (Doing.waiter_of_waitsOn waits))] at inactive
      rcases waiting.woken u d side w before waits inactive with
        wakes | pending | ⟨pending, flagged⟩ | cancelled
      · exact Or.inl (due u wakes)
      · exact Or.inr (Or.inl (keeps _ pending))
      · exact Or.inr (Or.inr (Or.inl ⟨keeps _ pending, flagged⟩))
      · exact Or.inr (Or.inr (Or.inr cancelled))
  · intro u d side w asleep waits cancelled
    by_cases same : u = t
    · subst same
      have still : s.isCancelled u = true := cancelled
      rw [uncancelled] at still
      cases still
    · have before := sleeping u same asleep
      rw [others u same] at waits
      rcases waiting.cancelled u d side w before waits cancelled with wakes | pending
      · exact Or.inl (due u wakes)
      · exact Or.inr (keeps _ pending)

/-- Suspending leaves channels and registrations alone. -/
theorem Apart.suspend {s : State α} {t : TaskId} {c : ChanId} {op : ChanOp α} {w : WaiterId}
    (doing : s.doing t = .channel c op (.registered w)) :
    Apart s ((s.setDoing t (.channel c op (.asleep w))).setMode t .parked) := by
  have others : ∀ u, u ≠ t →
      ((s.setDoing t (.channel c op (.asleep w))).setMode t .parked).doing u = s.doing u :=
    fun u other => Function.update_of_ne other _ _
  have self : ((s.setDoing t (.channel c op (.asleep w))).setMode t .parked).doing t =
      .channel c op (.asleep w) := Function.update_self _ _ _
  refine ⟨Nat.le_refl _, ?_, ?_, ?_, ?_, rfl, rfl, rfl, fun _ _ _ there => there,
    fun _ _ _ _ _ => rfl, ?_, fun _ _ _ _ _ => ⟨rfl, rfl⟩⟩
  · intro u
    by_cases same : u = t
    · subst same
      rw [self, doing]
      rfl
    · rw [others u same]
  · intro u
    by_cases same : u = t
    · subst same
      rw [self, doing]
      rfl
    · rw [others u same]
  · intro u active d side
    by_cases same : u = t
    · subst same
      rw [self, doing]
      exact Nat.le_refl _
    · rw [others u same]
  · intro u m member
    by_cases same : u = t
    · subst same
      rw [doing] at member
      cases member
    · rwa [others u same]
  · intro u d side v waits sleeping
    refine ⟨?_, fun queued => queued⟩
    by_cases same : u = t
    · subst same
      right
      rw [doing]
      rfl
    · rw [State.Sleeping, others u same] at sleeping
      rcases sleeping with parked | parking
      · left
        simpa [Function.update_of_ne same] using parked
      · exact Or.inr parking

/-- Removing one's own registration keeps every other. -/
theorem Leaves.remove {s : State α} {t : TaskId} {c : ChanId} {op : ChanOp α} {w : WaiterId}
    (doing : s.doing t = .channel c op (.removing w)) :
    Leaves s ((s.setChan c ((s.chan c).setWaiters op.side
      (((s.chan c).waiters op.side).filter fun entry => entry != w))).setDoing t
        (.channel c op .ready)) t := by
  refine ⟨rfl, by rw [doing]; rfl, by simp [Doing.waitsOn], ?_, ?_, ?_, fun _ _ => rfl, rfl, rfl,
    rfl, rfl, rfl, fun _ _ => rfl, fun _ active => active, ?_, ?_, ?_, ?_⟩
  · intro v registered
    simp [Doing.waiter] at registered
  · intro d side v waits
    rw [doing] at waits
    cases waits
  · intro u other
    exact Function.update_of_ne other _ _
  · intro d
    by_cases same : d = c <;> simp [same]
  · intro d side v there
    by_cases same : d = c
    · subst same
      simp only [State.setDoing, State.setChan, Function.update_self,
        Chan.setWaiters_waiters] at there
      split at there
      next list => exact list ▸ (List.mem_filter.mp there).1
      next => exact there
    · simpa [Function.update_of_ne same] using there
  · intro d side v there different
    by_cases same : d = c
    · subst same
      simp only [State.setDoing, State.setChan, Function.update_self, Chan.setWaiters_waiters]
      split
      next list =>
        apply List.mem_filter.mpr
        refine ⟨list ▸ there, ?_⟩
        have apart : v ≠ w := by
          rintro rfl
          exact different (by rw [doing]; rfl)
        simpa using apart
      next => exact there
    · simpa [Function.update_of_ne same] using there
  · intro d side _
    right
    have owed : State.owed ((s.setChan c ((s.chan c).setWaiters op.side
      (((s.chan c).waiters op.side).filter fun entry => entry != w))).setDoing t
        (.channel c op .ready)) d side = s.owed d side := by
      by_cases same : d = c <;> cases side <;> simp [State.owed, same]
    rw [owed, doing]
    simp [Doing.carries, Stage.carries]

/-- Waking deactivates one's own registration. -/
theorem Leaves.wake {s : State α} {t : TaskId} {c : ChanId} {op : ChanOp α} {w : WaiterId}
    (doing : s.doing t = .channel c op (.asleep w)) {s' : State α} {stage : Stage}
    (active : s'.active = Function.update s.active w false)
    (only : s' = { s with
      active := s'.active, doing := Function.update s.doing t (.channel c op stage) })
    (next : stage = .ready ∨ stage = .removing w) : Leaves s s' t := by
  have self : s'.doing t = .channel c op stage := by
    rw [only]
    exact Function.update_self _ _ _
  refine ⟨by rw [only], by rw [doing]; rfl, ?_, ?_, ?_, ?_, fun _ _ => by rw [only], by rw [only],
    by rw [only], by rw [only], by rw [only], by rw [only], ?_, ?_, fun _ => by rw [only],
    fun _ _ _ there => by rwa [only] at there, fun _ _ _ there _ => by rwa [only], ?_⟩
  · rw [self]
    rcases next with rfl | rfl <;> rfl
  · intro v registered
    rw [self] at registered
    rw [doing]
    rcases next with rfl | rfl
    · cases registered
    · exact registered
  · intro d side v waits
    rw [doing] at waits
    simp only [Doing.waitsOn, Option.some.injEq, Prod.mk.injEq] at waits
    rw [active, ← waits.2.2]
    exact Function.update_self _ _ _
  · intro u other
    rw [only]
    exact Function.update_of_ne other _ _
  · intro v different
    rw [active]
    apply Function.update_of_ne
    rintro rfl
    exact different (by rw [doing]; rfl)
  · intro v activeV
    rw [active, Function.update_apply] at activeV
    split at activeV
    · cases activeV
    · exact activeV
  · intro d side _
    right
    have owed : s'.owed d side = s.owed d side := by
      rw [only]
      cases side <;> rfl
    rw [owed, doing, self, active]
    apply Nat.add_le_add_left
    simp only [Doing.carries]
    split
    · rcases next with rfl | rfl <;> simp only [Stage.carries] <;> split <;> omega
    · exact Nat.le_refl _

/-- A step of a blocking channel operation keeps the invariant. -/
theorem Waiting.channel {s s' : State α} (waiting : Waiting s) (formed : Formed s) {t : TaskId}
    {c : ChanId} {op : ChanOp α} {stage : Stage} (running : s.mode t = .running)
    (doing : s.doing t = .channel c op stage) (change : ChannelChange s t c op stage s') :
    Waiting s' := by
  have inside := formed.exists_running running
  cases change with
  | sendPass v cancelled opened room =>
    refine waiting.leaves inside (Leaves.ready doing [.take c .send, .release v] rfl ?_ ?_ ?_)
    · intro d
      by_cases same : d = c <;> simp [same]
    · intro d
      by_cases same : d = c <;> simp [same]
    · intro d side _
      right
      by_cases same : d = c
      · subst same
        cases side <;> simp [State.owed, Micro.takes, ChanOp.side]
      · cases side <;> simp [State.owed, same, ChanOp.side, Ne.symm same]
  | sendCancelled v cancelled noSlot =>
    refine waiting.leaves inside (Leaves.ready doing [.release v] rfl (fun _ => rfl)
      (fun _ => rfl) ?_)
    intro d side opened
    by_cases here : c = d ∧ Side.send = side
    · obtain ⟨rfl, rfl⟩ := here
      left
      rcases noSlot with closed | full
      · simp [closed] at opened
      · simp [State.owed, full]
    · right
      simp [here, ChanOp.side, State.owed]
  | sendClosed v uncancelled closed =>
    refine waiting.leaves inside (Leaves.ready doing [.release v] rfl (fun _ => rfl)
      (fun _ => rfl) ?_)
    intro d side opened
    right
    have away : c ≠ d := by
      rintro rfl
      simp [closed] at opened
    simp [away, State.owed]
  | sendAccept v uncancelled opened room =>
    refine waiting.leaves inside (Leaves.ready doing [.take c .receive] rfl ?_ ?_ ?_)
    · intro d
      by_cases same : d = c <;> simp [same]
    · intro d
      by_cases same : d = c <;> simp [same]
    · intro d side _
      right
      by_cases same : d = c
      · subst same
        cases side
        · simp [State.owed, Micro.takes, ChanOp.side]
          omega
        · simp [State.owed, Micro.takes, ChanOp.side]
      · cases side <;> simp [State.owed, same, ChanOp.side, Ne.symm same]
  | sendWait v uncancelled opened full =>
    exact waiting.register doing uncancelled (by simp [State.owed, ChanOp.side, full])
  | receiveCancelled cancelled empty =>
    refine waiting.leaves inside (Leaves.ready doing [] rfl (fun _ => rfl) (fun _ => rfl) ?_)
    intro d side _
    by_cases here : c = d ∧ Side.receive = side
    · obtain ⟨rfl, rfl⟩ := here
      left
      simp [State.owed, empty]
    · right
      simp [here, ChanOp.side, State.owed]
  | receivePass cancelled loaded =>
    refine waiting.leaves inside (Leaves.ready doing [.take c .receive] rfl ?_ ?_ ?_)
    · intro d
      by_cases same : d = c <;> simp [same]
    · intro d
      by_cases same : d = c <;> simp [same]
    · intro d side _
      right
      by_cases same : d = c
      · subst same
        cases side <;> simp [State.owed, Micro.takes, ChanOp.side]
      · cases side <;> simp [State.owed, same, ChanOp.side, Ne.symm same]
  | receiveTake v rest uncancelled loaded =>
    refine waiting.leaves inside (Leaves.ready doing [.take c .send] rfl ?_ ?_ ?_)
    · intro d
      by_cases same : d = c <;> simp [same]
    · intro d
      by_cases same : d = c <;> simp [same]
    · intro d side _
      right
      by_cases same : d = c
      · subst same
        cases side
        · simp [State.owed, Micro.takes, ChanOp.side, loaded]
          omega
        · simp [State.owed, Micro.takes, ChanOp.side, loaded]
      · cases side <;> simp [State.owed, same, ChanOp.side, Ne.symm same]
  | receiveClosed uncancelled empty closed =>
    refine waiting.leaves inside (Leaves.ready doing [] rfl (fun _ => rfl) (fun _ => rfl) ?_)
    intro d side opened
    right
    have away : c ≠ d := by
      rintro rfl
      simp [closed] at opened
    simp [away, State.owed]
  | receiveWait uncancelled empty opened =>
    exact waiting.register doing uncancelled (by simp [State.owed, ChanOp.side, empty])
  | suspend op w => exact waiting.apart (Apart.suspend doing)
  | wakeActive op w active =>
    exact waiting.leaves inside (Leaves.wake doing rfl rfl (Or.inr rfl))
  | wakeInactive op w inactive =>
    refine waiting.leaves inside (Leaves.wake doing ?_ rfl (Or.inl rfl))
    simp only [State.setDoing]
    rw [← inactive, Function.update_eq_self]
  | remove op w => exact waiting.leaves inside (Leaves.remove doing)

/-- A call of the program's code leaves channels and registrations alone. -/
theorem Apart.call {s : State α} (formed : Formed s) {t : TaskId} {c : Call α}
    (doing : s.doing t = .steps []) : Apart s (s.call t c) := by
  have plain : (s.doing t).plain = true := by rw [doing]; rfl
  cases c with
  | channel capacity =>
    refine Apart.thread plain (by simp [State.call, doing, Doing.waiter]) (Nat.le_refl _)
      (fun _ _ => rfl) (fun _ _ => rfl) (fun _ _ => ⟨rfl, rfl⟩) rfl rfl rfl rfl ?_ ?_
    · intro d side w there
      by_cases same : d = s.chanCount
      · subst same
        simp [State.call, Chan.absent] at there
      · simpa [State.call, Function.update_of_ne same] using there
    · intro u d side w waits
      have different : d ≠ s.chanCount :=
        Nat.ne_of_lt (formed.uses u d (Doing.uses_of_waitsOn waits)).1
      simp [State.call, Function.update_of_ne different]
  | cleanup =>
    refine Apart.thread plain (by simp [State.call, doing, Doing.waiter]) (Nat.le_refl _)
      (fun _ _ => rfl) (fun _ _ => rfl) ?_ rfl rfl rfl rfl (fun _ _ _ there => there)
      (fun _ _ _ _ _ => rfl)
    intro u other
    exact ⟨rfl, Function.update_of_ne other _ _⟩
  | scope =>
    exact Apart.thread plain (by simp [State.call, doing, Doing.waiter]) (Nat.le_refl _)
      (fun _ _ => rfl) (fun _ _ => rfl) (fun _ _ => ⟨rfl, rfl⟩) rfl rfl rfl rfl
      (fun _ _ _ there => there) (fun _ _ _ _ _ => rfl)
  | spawn nursery =>
    cases nursery
    all_goals
      exact Apart.thread plain (by simp [State.call, Doing.waiter]) (Nat.le_refl _)
        (fun u other => Function.update_of_ne other _ _) (fun _ _ => rfl)
        (fun _ _ => ⟨rfl, rfl⟩) rfl rfl rfl rfl (fun _ _ _ there => there)
        (fun _ _ _ _ _ => rfl)
  | _ =>
    exact Apart.thread plain (by simp [State.call, Doing.waiter]) (Nat.le_refl _)
      (fun u other => Function.update_of_ne other _ _) (fun _ _ => rfl) (fun _ _ => ⟨rfl, rfl⟩)
      rfl rfl rfl rfl (fun _ _ _ there => there) (fun _ _ _ _ _ => rfl)

/-- Every step keeps the invariant. -/
theorem Waiting.change {s s' : State α} (waiting : Waiting s) (formed : Formed s)
    (change : Change s s') : Waiting s' := by
  cases change with
  | host =>
    have blank := (formed.beyond s.next (Nat.le_refl _)).2
    refine waiting.apart (Apart.thread (t := s.next) (by rw [blank]; rfl)
      (by simp [State.addHost, Doing.waiter]) (Nat.le_succ _) ?_ ?_ ?_ rfl rfl rfl rfl
      (fun _ _ _ there => there) (fun _ _ _ _ _ => rfl))
    · intro u other
      exact Function.update_of_ne other _ _
    · intro u other
      exact Function.update_of_ne other _ _
    · intro u other
      exact ⟨Function.update_of_ne other _ _, Function.update_of_ne other _ _⟩
  | call t c control allowed valid => exact waiting.apart (.call formed (inUser_elim control).2.1)
  | give t r f rest stack control =>
    refine waiting.apart (Apart.thread (t := t) ?_ ?_ (Nat.le_refl _)
      (fun u other => Function.update_of_ne other _ _) (fun _ _ => rfl) (fun _ _ => ⟨rfl, rfl⟩)
      rfl rfl rfl rfl (fun _ _ _ there => there) (fun _ _ _ _ _ => rfl))
    · rw [(inUser_elim control).2.1]
      rfl
    · cases f <;> simp [Frame.resume, Doing.waiter]
  | micro t m rest after pushed running doing taken => exact waiting.micro formed doing taken
  | finish t running doing task stack =>
    exact waiting.apart (Apart.thread (t := t) (by rw [doing]; rfl)
      (by simp [doing, Doing.waiter]) (Nat.le_refl _) (fun _ _ => rfl)
      (fun u other => Function.update_of_ne other _ _) (fun _ _ => ⟨rfl, rfl⟩) rfl rfl rfl rfl
      (fun _ _ _ there => there) (fun _ _ _ _ _ => rfl))
  | channel t c op stage s' running doing taken =>
    exact waiting.channel formed running doing taken
  | await t h registered parking running doing =>
    unfold State.awaitStep
    repeat' split
    all_goals
      exact waiting.apart (Apart.thread (t := t) (by rw [doing]; rfl) (by simp [Doing.waiter])
        (Nat.le_refl _) (fun u other => by simp [Function.update_of_ne other])
        (fun u other => by simp [Function.update_of_ne other]) (fun _ _ => ⟨rfl, rfl⟩)
        rfl rfl rfl rfl (fun _ _ _ there => there) (fun _ _ _ _ _ => rfl))
  | join t n parking running doing =>
    unfold State.joinStep
    repeat' split
    all_goals
      exact waiting.apart (Apart.thread (t := t) (by rw [doing]; rfl) (by simp [Doing.waiter])
        (Nat.le_refl _) (fun u other => by simp [Function.update_of_ne other])
        (fun u other => by simp [Function.update_of_ne other]) (fun _ _ => ⟨rfl, rfl⟩)
        rfl rfl rfl rfl (fun _ _ _ there => there) (fun _ _ _ _ _ => rfl))
  | park t running doing =>
    exact waiting.apart (Apart.thread (t := t) (by rw [doing]; rfl) (by simp [Doing.waiter])
      (Nat.le_refl _) (fun u other => by simp [Function.update_of_ne other])
      (fun u other => by simp [Function.update_of_ne other]) (fun _ _ => ⟨rfl, rfl⟩)
      rfl rfl rfl rfl (fun _ _ _ there => there) (fun _ _ _ _ _ => rfl))
  | resume t parked queued =>
    refine waiting.apart (Apart.still rfl rfl rfl rfl rfl (fun _ _ _ there => there)
      (fun _ _ _ _ _ => rfl) rfl rfl ?_)
    intro u sleeping
    have other : u ≠ t := by
      rintro rfl
      rcases sleeping with asleep | parking
      · simp at asleep
      · have awake := formed.not_parking (t := u) (by simp [parked])
        exact absurd (awake.symm.trans parking) (by simp)
    have before : s.Sleeping u := by
      rcases sleeping with asleep | parking
      · exact Or.inl (by simpa [Function.update_of_ne other] using asleep)
      · exact Or.inr parking
    exact ⟨before, fun there => (List.mem_erase_of_ne other).mpr there⟩
  | stale t finished queued =>
    refine waiting.apart (Apart.still rfl rfl rfl rfl rfl (fun _ _ _ there => there)
      (fun _ _ _ _ _ => rfl) rfl rfl ?_)
    intro u sleeping
    have other : u ≠ t := by
      rintro rfl
      rcases sleeping with asleep | parking
      · simp [finished] at asleep
      · have awake := formed.not_parking (t := u) (by simp [finished])
        exact absurd (awake.symm.trans parking) (by simp)
    exact ⟨sleeping, fun there => (List.mem_erase_of_ne other).mpr there⟩
  | wake t unfinished task =>
    exact waiting.apart (Apart.still rfl rfl rfl rfl rfl (fun _ _ _ there => there)
      (fun _ _ _ _ _ => rfl) rfl rfl
      (fun u sleeping => ⟨sleeping, fun there => List.mem_append_left _ there⟩))
  | dropChan c present unused =>
    refine waiting.apart (Apart.still rfl rfl rfl rfl rfl ?_ ?_ rfl rfl
      (fun u sleeping => ⟨sleeping, fun there => there⟩))
    · intro d side w there
      by_cases same : d = c
      · subst same
        simpa [State.dropChan] using there
      · simpa [State.dropChan, Function.update_of_ne same] using there
    · intro u d side w waits
      have different : d ≠ c := by
        rintro rfl
        have := unused u (formed.exists_waiting waits)
        rw [Doing.uses_of_waitsOn waits] at this
        cases this
      simp [State.dropChan, Function.update_of_ne different]

/-- Every reachable state keeps registrations and notifications in step. -/
theorem Reachable.waiting {s : State α} (reached : Reachable s) : Waiting s := by
  refine Reachable.invariant ?_ (fun s s' before waiting change =>
    waiting.change before.formed change) reached
  refine ⟨?_, ?_, ?_, ?_, ?_, ?_, ?_⟩ <;>
    simp [State.initial, Chan.absent, Doing.waiter, Doing.waitsOn]

/-- Nobody is registered on a closed channel. -/
def Shut (s : State α) : Prop :=
  ∀ c side, (s.chan c).closed = true → (s.chan c).waiters side = []

/-- A step inside the runtime registers nobody on a closed channel. -/
theorem Shut.micro {s after : State α} (shut : Shut s) {t : TaskId} {m : Micro α}
    {pushed : List (Micro α)} (change : MicroChange s t m after pushed) : Shut after := by
  intro c side closed
  by_cases before : (s.chan c).closed = true
  · have none := shut c side before
    apply List.eq_nil_iff_forall_not_mem.mpr
    intro w there
    have earlier := change.listed there
    rw [none] at earlier
    cases earlier
  · cases change with
    | close d free =>
      by_cases same : c = d
      · simp [same]
      · simp [Function.update_of_ne same] at closed
        exact absurd closed before
    | _ =>
      simp_all [State.addTask, Function.update_apply]
      try grind

/-- A blocking operation registers nobody on a closed channel. -/
theorem Shut.channel {s s' : State α} (shut : Shut s) {t : TaskId} {c : ChanId} {op : ChanOp α}
    {stage : Stage} (change : ChannelChange s t c op stage s') : Shut s' := by
  intro d side closed
  have before := shut d side
  by_cases same : d = c
  · subst same
    cases change <;> simp_all [State.registerWaiter, Chan.setWaiters_waiters]
    rintro rfl
    simp [before]
  · cases change <;> simp_all [State.registerWaiter]

/-- No step registers anybody on a closed channel. -/
theorem Shut.change {s s' : State α} (shut : Shut s) (change : Change s s') : Shut s' := by
  cases change with
  | call t c control allowed valid =>
    cases c with
    | channel capacity =>
      intro d side closed
      by_cases same : d = s.chanCount
      · simp [State.call, Chan.absent, same]
      · simp only [State.call, Function.update_of_ne same] at closed ⊢
        exact shut d side closed
    | spawn nursery => cases nursery <;> exact shut
    | _ => exact shut
  | micro t m rest after pushed running doing taken =>
    have kept : Shut after := shut.micro taken
    exact kept
  | channel t c op stage s' running doing taken => exact shut.channel taken
  | await t h registered parking running doing =>
    unfold State.awaitStep
    repeat' split
    all_goals exact shut
  | join t n parking running doing =>
    unfold State.joinStep
    repeat' split
    all_goals exact shut
  | dropChan c present unused =>
    intro d side closed
    by_cases same : d = c
    · subst same
      simp only [State.dropChan, Function.update_self] at closed ⊢
      exact shut d side closed
    · simp only [State.dropChan, Function.update_of_ne same] at closed ⊢
      exact shut d side closed
  | _ => exact shut

/-- Nobody is registered on a closed channel in a reachable state. -/
theorem Reachable.shut {s : State α} (reached : Reachable s) : Shut s :=
  Reachable.invariant (fun _ _ _ => rfl) (fun _ _ _ shut change => shut.change change) reached

/-- Nothing can run: the run queue is empty, no task runs, and no thread of the host is inside a
call. -/
def Quiet (s : State α) : Prop :=
  s.queue = [] ∧ ∀ t, s.mode t = .running → s.isTask t = false ∧ s.doing t = .steps []

/-- When nothing can run, no step is pending. -/
theorem Quiet.not_pending {s : State α} (quiet : Quiet s) (formed : Formed s) {m : Micro α} :
    ¬ s.Pending m := by
  rintro ⟨t, member⟩
  by_cases running : s.mode t = .running
  · rw [(quiet.2 t running).2] at member
    cases member
  · have resting := formed.resting t running
    cases now : s.doing t with
    | steps rest =>
      rw [now] at resting member
      simp only [Doing.resting, List.isEmpty_iff] at resting
      subst resting
      cases member
    | _ =>
      rw [now] at member
      cases member

/-- When nothing can run, no task is due. -/
theorem Quiet.not_due {s : State α} (quiet : Quiet s) (formed : Formed s) {t : TaskId} :
    ¬ s.Due t := by
  rintro (queued | pending)
  · rw [quiet.1] at queued
    cases queued
  · exact quiet.not_pending formed pending

/-- When nothing can run, a thread that waits on a channel has an active registration. -/
theorem Waiting.active_of_quiet {s : State α} (waiting : Waiting s) (formed : Formed s)
    (quiet : Quiet s) {t : TaskId} {c : ChanId} {side : Side} {w : WaiterId}
    (waits : (s.doing t).waitsOn = some (c, side, w)) :
    s.active w = true ∧ s.isCancelled t = false := by
  have sleeping : s.Sleeping t := by
    left
    cases mode : s.mode t with
    | running =>
      rw [(quiet.2 t mode).2] at waits
      cases waits
    | parked => rfl
    | finished =>
      have resting := formed.resting t (by simp [mode])
      rw [mode] at resting
      unfold Doing.waitsOn at waits
      split at waits <;> simp_all [Doing.resting]
  have uncancelled : s.isCancelled t = false := by
    by_contra cancelled
    rcases waiting.cancelled t c side w sleeping waits (eq_true_of_ne_false cancelled) with
      due | pending
    · exact quiet.not_due formed due
    · exact quiet.not_pending formed pending
  refine ⟨?_, uncancelled⟩
  by_contra inactive
  rcases waiting.woken t c side w sleeping waits (eq_false_of_ne_true inactive) with
    due | pending | ⟨pending, -⟩ | cancelled
  · exact quiet.not_due formed due
  · exact quiet.not_pending formed pending
  · exact quiet.not_pending formed pending
  · rw [uncancelled] at cancelled
    cases cancelled

/-- When nothing can run, there are no tokens. -/
theorem Waiting.carried_of_quiet {s : State α} (waiting : Waiting s) (formed : Formed s)
    (quiet : Quiet s) (c : ChanId) (side : Side) : s.carried c side = 0 := by
  apply Finset.sum_eq_zero
  intro t _
  by_cases running : s.mode t = .running
  · rw [(quiet.2 t running).2]
    rfl
  · have resting := formed.resting t running
    cases now : s.doing t with
    | steps rest =>
      rw [now] at resting
      simp only [Doing.resting, List.isEmpty_iff] at resting
      subst resting
      rfl
    | channel d op stage =>
      rw [now] at resting
      cases stage with
      | asleep w =>
        have waits : (s.doing t).waitsOn = some (d, op.side, w) := by rw [now]; rfl
        have active := (waiting.active_of_quiet formed quiet waits).1
        simp [Doing.carries, Stage.carries, active]
      | ready => simp [Doing.resting] at resting
      | registered w => simp [Doing.resting] at resting
      | removing w => simp [Doing.resting] at resting
    | await h registered parking => rfl
    | join n parking => rfl
    | park => rfl

/-- When nothing can run, a thread suspended on a channel cannot go on: the channel is open, it is
empty for a receiver and full for a sender, and the thread is not cancelled. -/
theorem Reachable.blocked_of_quiet {s : State α} (reached : Reachable s) (quiet : Quiet s)
    {t : TaskId} {c : ChanId} {side : Side} {w : WaiterId}
    (waits : (s.doing t).waitsOn = some (c, side, w)) :
    (s.chan c).closed = false ∧ s.owed c side = 0 ∧ s.isCancelled t = false := by
  have formed := reached.formed
  have waiting := reached.waiting
  obtain ⟨active, uncancelled⟩ := waiting.active_of_quiet formed quiet waits
  have opened : (s.chan c).closed = false := by
    by_contra closed
    rcases waiting.found t c side w waits active with there | ⟨-, pending⟩
    · rw [reached.shut c side (eq_true_of_ne_false closed)] at there
      cases there
    · exact quiet.not_pending formed pending
  refine ⟨opened, ?_, uncancelled⟩
  have covered := waiting.cover t c side w opened waits active
  rw [waiting.carried_of_quiet formed quiet] at covered
  exact Nat.le_zero.mp covered

end Fai.Scheduler
