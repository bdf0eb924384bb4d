import FaiVerif.Scheduler.Scopes

/-!
# Scopes and handles over whole runs

The steps outside calls that do not park keep the invariants on nurseries and handles, so every
reachable state has them.
-/

namespace Fai.Scheduler

variable {α : Type}

/-- One thread moves from no pending step: the others sleep, and are due, as before. -/
theorem asleep_other {s s' : State α} {t u : TaskId} (idle : (s.doing t).pending = [])
    (other : u ≠ t) (sleeping : s'.Sleeping u) (doings : ∀ v, v ≠ t → s'.doing v = s.doing v)
    (modes : ∀ v, v ≠ t → s'.mode v = s.mode v) (queue : s'.queue = s.queue) :
    s.Sleeping u ∧ (s.Due u → s'.Due u) := by
  rw [State.Sleeping, modes u other, doings u other] at sleeping
  refine ⟨sleeping, ?_⟩
  rintro (queued | ⟨v, member⟩)
  · exact Or.inl (queue ▸ queued)
  · right
    refine ⟨v, ?_⟩
    have apart : v ≠ t := by
      rintro rfl
      rw [idle] at member
      cases member
    rwa [doings v apart]

/-- One thread moves, with no step pending before, to a call that is not about nurseries. -/
theorem NurseryApart.thread {s s' : State α} {t : TaskId} (idle : (s.doing t).pending = [])
    (noJoin : ∀ n p, s'.doing t ≠ .join n p)
    (noCount : ∀ n, (s'.doing t).pending.countP (Micro.counts n) = 0)
    (enters : ∀ n, .enter n ∈ (s'.doing t).pending → n < s.nurseryCount)
    (doings : ∀ u, u ≠ t → s'.doing u = s.doing u) (modes : ∀ u, u ≠ t → s'.mode u = s.mode u)
    (queue : s'.queue = s.queue) (next : s'.next = s.next)
    (frames : ∀ u, (s'.frames u).filter Frame.marked = (s.frames u).filter Frame.marked)
    (nurseryCount : s'.nurseryCount = s.nurseryCount) (live : s'.live = s.live)
    (joiner : s'.joiner = s.joiner) (opener : s'.opener = s.opener)
    (log : ∃ more : List (Event α), s'.log = s.log ++ more ∧ ∀ e ∈ more, e.onNursery = false) :
    NurseryApart s s' := by
  have away : ∀ u n p, s'.doing u = .join n p → u ≠ t := by
    rintro u n p now rfl
    exact noJoin n p now
  refine ⟨next, frames, nurseryCount, live, joiner, opener, ?_, ?_, ?_, ?_, ?_, log⟩
  · intro u n
    by_cases same : u = t
    · subst same
      rw [noCount, idle]
      rfl
    · rw [doings u same]
  · intro u n member
    by_cases same : u = t
    · subst same
      exact Or.inr (enters n member)
    · rw [doings u same] at member
      exact Or.inl member
  · intro u n p now
    rwa [doings u (away u n p now)] at now
  · intro u r n now
    have other : u ≠ t := by
      rintro rfl
      rw [now] at idle
      cases idle
    rwa [doings u other]
  · intro u n p now sleeping
    exact asleep_other idle (away u n p now) sleeping doings modes queue

/-- One thread moves, with no step pending before, to a call that is not about handles, or starts
to await one. -/
theorem HandleApart.thread {s s' : State α} {t : TaskId} (idle : (s.doing t).pending = [])
    (await : ∀ h b p, s'.doing t = .await h b p → h < s.next ∧ b = false ∧ ¬ s'.Sleeping t)
    (noComplete : (s'.doing t).pending.countP Micro.completes = 0)
    (doings : ∀ u, u ≠ t → s'.doing u = s.doing u) (modes : ∀ u, u ≠ t → s'.mode u = s.mode u)
    (queue : s'.queue = s.queue) (next : s'.next = s.next)
    (frames : ∀ u, (s'.frames u).countP Frame.isOnDone = (s.frames u).countP Frame.isOnDone)
    (result : s'.result = s.result) (awaiters : s'.awaiters = s.awaiters)
    (log : ∃ more : List (Event α), s'.log = s.log ++ more ∧ ∀ e ∈ more, e.onHandle = false) :
    HandleApart s s' := by
  refine ⟨next, frames, result, awaiters, ?_, ?_, ?_, log⟩
  · intro u
    by_cases same : u = t
    · subst same
      rw [noComplete, idle]
      rfl
    · rw [doings u same]
  · intro u h b p now
    by_cases same : u = t
    · subst same
      exact Or.inr (await h b p now)
    · rw [doings u same] at now
      exact Or.inl now
  · intro u h b p now sleeping
    have other : u ≠ t := by
      rintro rfl
      exact (await h b p now).2.2 sleeping
    exact asleep_other idle other sleeping doings modes queue

/-- What a change of the run queue, or of whether a thread runs, leaves alone. -/
structure Unmoved (s s' : State α) : Prop where
  doing : s'.doing = s.doing
  next : s'.next = s.next
  frames : s'.frames = s.frames
  nurseryCount : s'.nurseryCount = s.nurseryCount
  live : s'.live = s.live
  joiner : s'.joiner = s.joiner
  opener : s'.opener = s.opener
  result : s'.result = s.result
  awaiters : s'.awaiters = s.awaiters
  asleep : ∀ u, s'.Sleeping u → s.Sleeping u ∧ (u ∈ s.queue → u ∈ s'.queue)
  log : ∃ more : List (Event α), s'.log = s.log ++ more ∧
    ∀ e ∈ more, e.onNursery = false ∧ e.onHandle = false

/-- A sleeping task that is due stays due. -/
theorem Unmoved.due {s s' : State α} (unmoved : Unmoved s s') {u : TaskId}
    (sleeping : s'.Sleeping u) : s.Sleeping u ∧ (s.Due u → s'.Due u) := by
  refine ⟨(unmoved.asleep u sleeping).1, ?_⟩
  rintro (queued | ⟨v, member⟩)
  · exact Or.inl ((unmoved.asleep u sleeping).2 queued)
  · exact Or.inr ⟨v, unmoved.doing ▸ member⟩

/-- Such a change leaves nurseries alone. -/
theorem Unmoved.nursery {s s' : State α} (unmoved : Unmoved s s') : NurseryApart s s' := by
  obtain ⟨more, log, bare⟩ := unmoved.log
  refine ⟨unmoved.next, fun u => by rw [unmoved.frames], unmoved.nurseryCount, unmoved.live,
    unmoved.joiner, unmoved.opener, fun u n => by rw [unmoved.doing],
    fun u n member => Or.inl (unmoved.doing ▸ member), fun u n p now => unmoved.doing ▸ now,
    fun u r n now => unmoved.doing ▸ now, fun u n p _ => unmoved.due,
    more, log, fun e member => (bare e member).1⟩

/-- Such a change leaves handles alone. -/
theorem Unmoved.handle {s s' : State α} (unmoved : Unmoved s s') : HandleApart s s' := by
  obtain ⟨more, log, bare⟩ := unmoved.log
  refine ⟨unmoved.next, fun u => by rw [unmoved.frames], unmoved.result, unmoved.awaiters,
    fun u => by rw [unmoved.doing], fun u h b p now => Or.inl (unmoved.doing ▸ now),
    fun u h b p _ => unmoved.due, more, log, fun e member => (bare e member).2⟩

/-- A step of a blocking channel operation leaves nurseries and handles alone. -/
theorem ChannelChange.apart {s s' : State α} {t : TaskId} {c : ChanId} {op : ChanOp α}
    {stage : Stage} (doing : s.doing t = .channel c op stage)
    (change : ChannelChange s t c op stage s') : NurseryApart s s' ∧ HandleApart s s' := by
  have idle : (s.doing t).pending = [] := by rw [doing]; rfl
  have log : ∃ more : List (Event α), s'.log = s.log ++ more ∧
      ∀ e ∈ more, e.onNursery = false ∧ e.onHandle = false := by
    cases change with
    | sendAccept v uncancelled opened room =>
      exact ⟨[.accepted c v], rfl, by simp [Event.onNursery, Event.onHandle]⟩
    | receiveCancelled cancelled empty =>
      exact ⟨[.nothing c t], rfl, by simp [Event.onNursery, Event.onHandle]⟩
    | receivePass cancelled loaded =>
      exact ⟨[.nothing c t], rfl, by simp [Event.onNursery, Event.onHandle]⟩
    | receiveTake v rest uncancelled loaded =>
      exact ⟨[.received c t v], rfl, by simp [Event.onNursery, Event.onHandle]⟩
    | receiveClosed uncancelled empty closed =>
      exact ⟨[.nothing c t], rfl, by simp [Event.onNursery, Event.onHandle]⟩
    | _ => exact ⟨[], by simp [State.registerWaiter], by simp⟩
  obtain ⟨more, log, bare⟩ := log
  have doings : ∀ u, u ≠ t → s'.doing u = s.doing u := by
    intro u other
    cases change <;> simp [State.registerWaiter, Function.update_of_ne other]
  have modes : ∀ u, u ≠ t → s'.mode u = s.mode u := by
    intro u other
    cases change <;> simp [State.registerWaiter, Function.update_of_ne other]
  have own : (∀ n p, s'.doing t ≠ .join n p) ∧ (∀ h b p, s'.doing t ≠ .await h b p) ∧
      (∀ n, (s'.doing t).pending.countP (Micro.counts n) = 0) ∧
      (s'.doing t).pending.countP Micro.completes = 0 ∧ ∀ n, .enter n ∉ (s'.doing t).pending := by
    cases change <;>
      simp [State.registerWaiter, Doing.pending, Micro.counts, Micro.completes]
  obtain ⟨noJoin, noAwait, noCount, noComplete, noEnter⟩ := own
  constructor
  · refine NurseryApart.thread idle noJoin noCount (fun n member => absurd member (noEnter n))
      doings modes ?_ ?_ ?_ ?_ ?_ ?_ ?_ ⟨more, log, fun e member => (bare e member).1⟩
    all_goals cases change <;> first | rfl | exact fun _ => rfl
  · refine HandleApart.thread idle (fun h b p now => absurd now (noAwait h b p)) noComplete
      doings modes ?_ ?_ ?_ ?_ ?_ ⟨more, log, fun e member => (bare e member).2⟩
    all_goals cases change <;> first | rfl | exact fun _ => rfl

/-- The nurseries and handles after a call of the program's code, but the opening of a scope. -/
theorem call_apart {s : State α} {t : TaskId} {c : Call α} (running : s.mode t = .running)
    (doing : s.doing t = .steps []) (valid : c.valid s = true) (noScope : c ≠ .scope) :
    NurseryApart s (s.call t c) ∧ HandleApart s (s.call t c) := by
  have idle : (s.doing t).pending = [] := by rw [doing]; rfl
  cases c with
  | scope => exact absurd rfl noScope
  | channel capacity =>
    have unmoved : Unmoved s (s.call t (.channel capacity)) :=
      ⟨rfl, rfl, rfl, rfl, rfl, rfl, rfl, rfl, rfl, fun _ sleeping => ⟨sleeping, id⟩, [],
        by simp [State.call], by simp⟩
    exact ⟨unmoved.nursery, unmoved.handle⟩
  | cleanup =>
    constructor
    · refine NurseryApart.thread idle (by simp [State.call, doing]) (by simp [State.call, doing,
        Doing.pending]) (by simp [State.call, doing, Doing.pending]) (fun _ _ => rfl)
        (fun _ _ => rfl) rfl rfl ?_ rfl rfl rfl rfl ⟨[], by simp [State.call], by simp⟩
      intro u
      by_cases same : u = t
      · subst same
        simp [State.call, Frame.marked]
      · simp [State.call, Function.update_of_ne same]
    · refine HandleApart.thread idle (by simp [State.call, doing]) (by simp [State.call, doing,
        Doing.pending]) (fun _ _ => rfl) (fun _ _ => rfl) rfl rfl ?_ rfl rfl
        ⟨[], by simp [State.call], by simp⟩
      intro u
      by_cases same : u = t
      · subst same
        simp [State.call, Frame.isOnDone]
      · simp [State.call, Function.update_of_ne same]
  | await h =>
    constructor
    · exact NurseryApart.thread idle (by simp [State.call]) (by simp [State.call, Doing.pending])
        (by simp [State.call, Doing.pending]) (fun u other => Function.update_of_ne other _ _)
        (fun _ _ => rfl) rfl rfl (fun _ => rfl) rfl rfl rfl rfl ⟨[], by simp [State.call], by simp⟩
    · refine HandleApart.thread idle ?_ (by simp [State.call, Doing.pending])
        (fun u other => Function.update_of_ne other _ _) (fun _ _ => rfl) rfl rfl (fun _ => rfl)
        rfl rfl ⟨[], by simp [State.call], by simp⟩
      intro k b p now
      simp only [State.call, State.setDoing, Function.update_self, Doing.await.injEq] at now
      obtain ⟨rfl, rfl, rfl⟩ := now
      simp only [Call.valid, Bool.and_eq_true, decide_eq_true_eq] at valid
      refine ⟨valid.1, rfl, ?_⟩
      simp [State.Sleeping, State.call, running, Doing.parking]
  | send d v =>
    constructor
    · exact NurseryApart.thread idle (by simp [State.call]) (by simp [State.call, Doing.pending])
        (by simp [State.call, Doing.pending]) (fun u other => Function.update_of_ne other _ _)
        (fun _ _ => rfl) rfl rfl (fun _ => rfl) rfl rfl rfl rfl
        ⟨[.sent d v], rfl, by simp [Event.onNursery]⟩
    · exact HandleApart.thread idle (by simp [State.call]) (by simp [State.call, Doing.pending])
        (fun u other => Function.update_of_ne other _ _) (fun _ _ => rfl) rfl rfl (fun _ => rfl)
        rfl rfl ⟨[.sent d v], rfl, by simp [Event.onHandle]⟩
  | spawn nursery =>
    cases nursery
    all_goals
      constructor
      · exact NurseryApart.thread idle (by simp [State.call])
          (by simp [State.call, Doing.pending, Micro.counts])
          (by simp_all [State.call, Doing.pending, Call.valid])
          (fun u other => Function.update_of_ne other _ _)
          (fun _ _ => rfl) rfl rfl (fun _ => rfl) rfl rfl rfl rfl
          ⟨[], by simp [State.call], by simp⟩
      · exact HandleApart.thread idle (by simp [State.call])
          (by simp [State.call, Doing.pending, Micro.completes])
          (fun u other => Function.update_of_ne other _ _) (fun _ _ => rfl) rfl rfl (fun _ => rfl)
          rfl rfl ⟨[], by simp [State.call], by simp⟩
  | _ =>
    constructor
    · exact NurseryApart.thread idle (by simp [State.call])
        (by simp [State.call, Doing.pending, Micro.counts])
        (by simp [State.call, Doing.pending]) (fun u other => Function.update_of_ne other _ _)
        (fun _ _ => rfl) rfl rfl (fun _ => rfl) rfl rfl rfl rfl ⟨[], by simp [State.call], by simp⟩
    · exact HandleApart.thread idle (by simp [State.call])
        (by simp [State.call, Doing.pending, Micro.completes])
        (fun u other => Function.update_of_ne other _ _) (fun _ _ => rfl) rfl rfl (fun _ => rfl)
        rfl rfl ⟨[], by simp [State.call], by simp⟩

/-- Opening a scope keeps the nurseries. -/
theorem Scoped.scope {s : State α} (nested : Scoped s) (t : TaskId) :
    Scoped (s.call t .scope) := by
  have live : (s.call t .scope).live = s.live := by
    show Function.update s.live s.nurseryCount 0 = s.live
    rw [← nested.unopened s.nurseryCount (Nat.le_refl _), Function.update_eq_self]
  have old : ∀ n, n < s.nurseryCount → (s.call t .scope).joiner n = s.joiner n ∧
      (s.call t .scope).opener n = s.opener n := by
    intro n inside
    exact ⟨Function.update_of_ne (Nat.ne_of_lt inside) _ _,
      Function.update_of_ne (Nat.ne_of_lt inside) _ _⟩
  have weight : ∀ n u, (s.call t .scope).weight n u = s.weight n u := by
    intro n u
    by_cases same : u = t
    · subst same
      simp [State.weight, State.call]
    · simp [State.weight, State.call, Function.update_of_ne same]
  refine ⟨?_, ?_, ?_, ?_, ?_, ?_, ?_, nested.joined⟩
  · intro u n member
    exact Nat.lt_succ_of_lt (nested.entering u n member)
  · intro n outside
    rw [live]
    exact nested.unopened n (Nat.le_of_succ_le outside)
  · intro n
    rw [live, nested.counted n]
    exact Finset.sum_congr rfl (fun u _ => (weight n u).symm)
  · intro u n opens
    have before : (u = t ∧ n = s.nurseryCount) ∨
        ((∃ p, s.doing u = .join n p) ∨ .leave n ∈ s.frames u) := by
      rcases opens with now | framed
      · exact Or.inr (Or.inl now)
      · by_cases same : u = t
        · subst same
          simp only [State.call, Function.update_self, List.mem_cons, Frame.leave.injEq] at framed
          rcases framed with new | framed
          · exact Or.inl ⟨rfl, new⟩
          · exact Or.inr (Or.inr framed)
        · simp only [State.call, Function.update_of_ne same] at framed
          exact Or.inr (Or.inr framed)
    rcases before with ⟨rfl, rfl⟩ | before
    · exact ⟨Nat.lt_succ_self _, Function.update_self _ _ _⟩
    · obtain ⟨inside, opener⟩ := nested.opens u n before
      exact ⟨Nat.lt_succ_of_lt inside, (old n inside).2.trans opener⟩
  · intro n u registered
    rw [live]
    by_cases new : n = s.nurseryCount
    · subst new
      simp [State.call] at registered
    · apply nested.joining n u
      simpa [State.call, Function.update_of_ne new] using registered
  · intro u n p now sleeping
    rw [(old n (nested.opens u n (Or.inl ⟨p, now⟩)).1).1]
    exact nested.joins u n p now sleeping
  · intro n u spawned
    obtain ⟨inside, done⟩ := nested.spawned n u spawned
    refine ⟨inside, done.imp id (Or.imp ?_ id)⟩
    intro framed
    by_cases same : u = t
    · subst same
      simpa [State.call] using framed
    · simpa [State.call, Function.update_of_ne same] using framed

/-- Opening a scope leaves handles alone. -/
theorem HandleApart.scope {s : State α} {t : TaskId} (doing : s.doing t = .steps []) :
    HandleApart s (s.call t .scope) := by
  refine HandleApart.thread (t := t) (by rw [doing]; rfl) (by simp [State.call, doing])
    (by simp [State.call, doing, Doing.pending]) (fun _ _ => rfl) (fun _ _ => rfl) rfl rfl ?_ rfl
    rfl ⟨[], by simp [State.call], by simp⟩
  intro u
  by_cases same : u = t
  · subst same
    simp [State.call, Frame.isOnDone]
  · simp [State.call, Function.update_of_ne same]

/-- A new thread of the host keeps the nurseries. -/
theorem Scoped.host {s : State α} (nested : Scoped s) (formed : Formed s) : Scoped s.addHost := by
  have doing : s.addHost.doing = s.doing := by
    show Function.update s.doing s.next (.steps []) = s.doing
    rw [← (formed.beyond s.next (Nat.le_refl _)).2, Function.update_eq_self]
  have frames : ∀ u, u ≠ s.next → s.addHost.frames u = s.frames u := fun u other =>
    Function.update_of_ne other _ _
  refine ⟨?_, nested.unopened, ?_, ?_, nested.joining, ?_, ?_, nested.joined⟩
  · intro u n member
    exact nested.entering u n (doing ▸ member)
  · intro n
    have blank : s.addHost.weight n s.next = 0 := by
      rw [State.weight, doing, (formed.beyond s.next (Nat.le_refl _)).2]
      simp [State.addHost, Doing.pending]
    show s.live n = ∑ u ∈ Finset.range (s.next + 1), s.addHost.weight n u
    rw [Finset.sum_range_succ, blank, nested.counted n, Nat.add_zero]
    apply Finset.sum_congr rfl
    intro u there
    rw [State.weight, State.weight, doing, frames u (Nat.ne_of_lt (Finset.mem_range.mp there))]
  · intro u n opens
    apply nested.opens u n
    rw [doing] at opens
    refine opens.imp id ?_
    intro framed
    by_cases new : u = s.next
    · subst new
      simp [State.addHost] at framed
    · rwa [frames u new] at framed
  · intro u n p now sleeping
    rw [doing] at now
    have other : u ≠ s.next := Nat.ne_of_lt (formed.exists_doing (by simp [now]))
    have before : s.Sleeping u := by
      rcases sleeping with parked | parking
      · exact Or.inl (by simpa [State.addHost, Function.update_of_ne other] using parked)
      · exact Or.inr (doing ▸ parking)
    refine (nested.joins u n p now before).imp id ?_
    rintro (queued | ⟨v, member⟩)
    · exact Or.inl queued
    · exact Or.inr ⟨v, doing ▸ member⟩
  · intro n u spawned
    obtain ⟨inside, done⟩ := nested.spawned n u spawned
    rw [doing, frames u (Nat.ne_of_lt inside)]
    exact ⟨Nat.lt_succ_of_lt inside, done⟩

/-- A new thread of the host keeps the handles. -/
theorem Handled.host {s : State α} (handled : Handled s) (formed : Formed s) :
    Handled s.addHost := by
  have doing : s.addHost.doing = s.doing := by
    show Function.update s.doing s.next (.steps []) = s.doing
    rw [← (formed.beyond s.next (Nat.le_refl _)).2, Function.update_eq_self]
  have result : s.addHost.result = s.result := by
    show Function.update s.result s.next none = s.result
    rw [← handled.unmade s.next (Nat.le_refl _), Function.update_eq_self]
  refine ⟨?_, ?_, ?_, ?_, ?_, ?_, ?_⟩
  · intro u
    rw [doing, result]
    by_cases new : u = s.next
    · subst new
      have before := handled.once s.next
      simp only [State.addHost, Function.update_self, List.countP_nil]
      omega
    · rw [show s.addHost.frames u = s.frames u from Function.update_of_ne new _ _]
      exact handled.once u
  · intro u outside
    rw [result]
    exact handled.unmade u (Nat.le_of_succ_le outside)
  · intro u r completed
    rw [result]
    exact handled.completed u r completed
  · intro u h r awaited
    rw [result]
    exact handled.awaited u h r awaited
  · intro u h b p now
    rw [doing] at now
    exact Nat.lt_succ_of_lt (handled.target u h b p now)
  · intro u h p now undone
    rw [doing] at now
    rw [result] at undone
    have other : h ≠ s.next := Nat.ne_of_lt (handled.target u h true p now)
    rw [show s.addHost.awaiters h = s.awaiters h from Function.update_of_ne other _ _]
    exact handled.registered u h p now undone
  · intro u h b p now sleeping
    rw [doing] at now
    rw [result]
    have other : u ≠ s.next := Nat.ne_of_lt (formed.exists_doing (by simp [now]))
    have before : s.Sleeping u := by
      rcases sleeping with parked | parking
      · exact Or.inl (by simpa [State.addHost, Function.update_of_ne other] using parked)
      · exact Or.inr (doing ▸ parking)
    obtain ⟨flag, done⟩ := handled.asleep u h b p now before
    refine ⟨flag, done.imp id ?_⟩
    rintro (queued | ⟨v, member⟩)
    · exact Or.inl queued
    · exact Or.inr ⟨v, doing ▸ member⟩

/-- The state after the program's code returned to a frame. -/
abbrev State.given (s : State α) (t : TaskId) (rest : List Frame) (now : Doing α) : State α :=
  { s with frames := Function.update s.frames t rest }.setDoing t now

section Give

variable {s : State α} {t : TaskId} {rest : List Frame}

/-- Returning to a cleanup guard leaves nurseries and handles alone. -/
theorem given_unmask (doing : s.doing t = .steps []) (stack : s.frames t = .unmask :: rest) :
    NurseryApart s (s.given t rest (.steps [.unmask])) ∧
      HandleApart s (s.given t rest (.steps [.unmask])) := by
  have idle : (s.doing t).pending = [] := by rw [doing]; rfl
  constructor
  · refine NurseryApart.thread idle (by simp) (by simp [Doing.pending, Micro.counts])
      (by simp [Doing.pending]) (fun u other => Function.update_of_ne other _ _) (fun _ _ => rfl)
      rfl rfl ?_ rfl rfl rfl rfl ⟨[], by simp, by simp⟩
    intro u
    by_cases same : u = t
    · subst same
      simp [stack, Frame.marked]
    · simp [Function.update_of_ne same]
  · refine HandleApart.thread idle (by simp) (by simp [Doing.pending, Micro.completes])
      (fun u other => Function.update_of_ne other _ _) (fun _ _ => rfl) rfl rfl ?_ rfl rfl
      ⟨[], by simp, by simp⟩
    intro u
    by_cases same : u = t
    · subst same
      simp [stack, Frame.isOnDone]
    · simp [Function.update_of_ne same]

/-- Returning to a scope leaves handles alone. -/
theorem HandleApart.given_leave {n : NurseryId} (doing : s.doing t = .steps [])
    (stack : s.frames t = .leave n :: rest) :
    HandleApart s (s.given t rest (.join n false)) := by
  refine HandleApart.thread (t := t) (by rw [doing]; rfl) (by simp) (by simp [Doing.pending])
    (fun u other => Function.update_of_ne other _ _) (fun _ _ => rfl) rfl rfl ?_ rfl rfl
    ⟨[], by simp, by simp⟩
  intro u
  by_cases same : u = t
  · subst same
    simp [stack, Frame.isOnDone]
  · simp [Function.update_of_ne same]

/-- Returning to a call keeps the nurseries, when the announcements before and after balance. -/
theorem Scoped.given (nested : Scoped s) (running : s.mode t = .running)
    (doing : s.doing t = .steps []) {f : Frame} (stack : s.frames t = f :: rest) (now : Doing α)
    (joins : ∀ n p, now = .join n p → f = .leave n ∧ p = false)
    (enters : ∀ n, .enter n ∉ now.pending)
    (counts : ∀ n, rest.count (.onDone (some n)) + now.pending.countP (Micro.counts n) =
      (f :: rest).count (.onDone (some n)))
    (ends : ∀ n, f = .onDone (some n) → ∃ r, now = .steps [.complete r, .childFinished n]) :
    Scoped (s.given t rest now) := by
  have others : ∀ u, u ≠ t → (s.given t rest now).doing u = s.doing u ∧
      (s.given t rest now).frames u = s.frames u := fun u other =>
    ⟨Function.update_of_ne other _ _, Function.update_of_ne other _ _⟩
  have self : (s.given t rest now).doing t = now ∧ (s.given t rest now).frames t = rest :=
    ⟨Function.update_self _ _ _, Function.update_self _ _ _⟩
  have weight : ∀ n u, (s.given t rest now).weight n u = s.weight n u := by
    intro n u
    rw [State.weight, State.weight]
    by_cases same : u = t
    · subst same
      rw [self.1, self.2, counts n, stack, doing]
      rfl
    · rw [(others u same).1, (others u same).2]
  have due : ∀ u, s.Due u → (s.given t rest now).Due u := by
    rintro u (queued | ⟨v, member⟩)
    · exact Or.inl queued
    · have other : v ≠ t := by
        rintro rfl
        rw [doing] at member
        cases member
      exact Or.inr ⟨v, by rwa [(others v other).1]⟩
  refine ⟨?_, nested.unopened, ?_, ?_, nested.joining, ?_, ?_, nested.joined⟩
  · intro u n member
    by_cases same : u = t
    · subst same
      rw [self.1] at member
      exact absurd member (enters n)
    · exact nested.entering u n ((others u same).1 ▸ member)
  · intro n
    show s.live n = _
    rw [nested.counted n]
    exact Finset.sum_congr rfl (fun u _ => (weight n u).symm)
  · intro u n opens
    apply nested.opens u n
    by_cases same : u = t
    · subst same
      right
      rw [stack]
      rw [self.1, self.2] at opens
      rcases opens with ⟨p, joining⟩ | framed
      · rw [(joins n p joining).1]
        exact List.mem_cons_self
      · exact List.mem_cons_of_mem _ framed
    · rwa [(others u same).1, (others u same).2] at opens
  · intro u n p joining sleeping
    have other : u ≠ t := by
      rintro rfl
      rcases sleeping with parked | parking
      · have mode : s.mode u = .parked := parked
        rw [running] at mode
        cases mode
      · rw [joining] at parking
        rw [self.1] at joining
        rw [(joins n p joining).2] at parking
        cases parking
    rw [(others u other).1] at joining
    have before : s.Sleeping u := by
      rcases sleeping with parked | parking
      · exact Or.inl parked
      · exact Or.inr ((others u other).1 ▸ parking)
    exact (nested.joins u n p joining before).imp id (due u)
  · intro n u spawned
    obtain ⟨inside, done⟩ := nested.spawned n u spawned
    refine ⟨inside, ?_⟩
    by_cases same : u = t
    · subst same
      rw [self.1, self.2]
      rcases done with completed | framed | ⟨r, last⟩
      · exact Or.inl completed
      · rw [stack] at framed
        rcases List.mem_cons.mp framed with first | later
        · exact Or.inr (Or.inr (ends n first.symm))
        · exact Or.inr (Or.inl later)
      · rw [doing] at last
        cases last
    · rw [(others u same).1, (others u same).2]
      exact done

/-- Returning to `on_done` keeps the handles. -/
theorem Handled.given_onDone (handled : Handled s) (doing : s.doing t = .steps [])
    {nursery : Option NurseryId} (stack : s.frames t = .onDone nursery :: rest) (r : α) :
    Handled (s.given t rest (.steps (.complete r :: nursery.toList.map .childFinished))) := by
  have others : ∀ u, u ≠ t → (s.given t rest (.steps (.complete r ::
      nursery.toList.map .childFinished))).doing u = s.doing u := fun u other =>
    Function.update_of_ne other _ _
  have self : (s.given t rest (.steps (.complete r ::
      nursery.toList.map .childFinished))).doing t =
      .steps (.complete r :: nursery.toList.map .childFinished) := Function.update_self _ _ _
  have away : ∀ u h b p, (s.given t rest (.steps (.complete r ::
      nursery.toList.map .childFinished))).doing u = .await h b p → u ≠ t := by
    rintro u h b p now rfl
    rw [self] at now
    cases now
  refine ⟨?_, handled.unmade, handled.completed, handled.awaited, ?_, ?_, ?_⟩
  · intro u
    have before := handled.once u
    by_cases same : u = t
    · subst same
      rw [self]
      rw [stack, doing] at before
      have one : (Doing.steps (.complete r :: nursery.toList.map .childFinished)).pending.countP
          Micro.completes = 1 := by
        cases nursery <;> rfl
      have pushed : (Frame.onDone nursery :: rest).countP Frame.isOnDone =
          rest.countP Frame.isOnDone + 1 := List.countP_cons_of_pos rfl
      rw [pushed, show (Doing.steps ([] : List (Micro α))).pending.countP Micro.completes = 0
        from rfl] at before
      rw [one]
      simp only [State.setDoing, Function.update_self]
      omega
    · rw [others u same]
      simp only [State.setDoing, Function.update_of_ne same]
      exact before
  · intro u h b p now
    exact handled.target u h b p (others u (away u h b p now) ▸ now)
  · intro u h p now undone
    exact handled.registered u h p (others u (away u h true p now) ▸ now) undone
  · intro u h b p now sleeping
    have other := away u h b p now
    obtain ⟨before, due⟩ := asleep_other (t := t) (by rw [doing]; rfl) other sleeping
      (fun v different => others v different) (fun _ _ => rfl) rfl
    obtain ⟨flag, done⟩ := handled.asleep u h b p (others u other ▸ now) before
    exact ⟨flag, done.imp id due⟩

end Give

/-- A step of `await_handle` leaves nurseries alone. -/
theorem NurseryApart.await {s : State α} {t h : TaskId} {registered parking : Bool}
    (doing : s.doing t = .await h registered parking) :
    NurseryApart s (s.awaitStep t h registered parking) := by
  have idle : (s.doing t).pending = [] := by rw [doing]; rfl
  unfold State.awaitStep
  split
  next =>
    exact NurseryApart.thread idle (by simp) (by simp [Doing.pending]) (by simp [Doing.pending])
      (fun u other => by simp [Function.update_of_ne other])
      (fun u other => by simp [Function.update_of_ne other]) rfl rfl (fun _ => rfl) rfl rfl rfl rfl
      ⟨[], by simp, by simp⟩
  next =>
    split
    next r _ =>
      exact NurseryApart.thread idle (by simp) (by simp [Doing.pending]) (by simp [Doing.pending])
        (fun u other => by simp [Function.update_of_ne other]) (fun _ _ => rfl) rfl rfl
        (fun _ => rfl) rfl rfl rfl rfl ⟨[.awaited t h r], rfl, by simp [Event.onNursery]⟩
    next =>
      split <;>
        exact NurseryApart.thread idle (by simp) (by simp [Doing.pending])
          (by simp [Doing.pending]) (fun u other => by simp [Function.update_of_ne other])
          (fun _ _ => rfl) rfl rfl (fun _ => rfl) rfl rfl rfl rfl ⟨[], by simp, by simp⟩

/-- A step of `Nursery::join` leaves handles alone. -/
theorem HandleApart.join {s : State α} {t : TaskId} {n : NurseryId} {parking : Bool}
    (doing : s.doing t = .join n parking) : HandleApart s (s.joinStep t n parking) := by
  have idle : (s.doing t).pending = [] := by rw [doing]; rfl
  unfold State.joinStep
  split
  next =>
    exact HandleApart.thread idle (by simp) (by simp [Doing.pending])
      (fun u other => by simp [Function.update_of_ne other])
      (fun u other => by simp [Function.update_of_ne other]) rfl rfl (fun _ => rfl) rfl rfl
      ⟨[], by simp, by simp⟩
  next =>
    split
    next =>
      exact HandleApart.thread idle (by simp) (by simp [Doing.pending])
        (fun u other => by simp [Function.update_of_ne other]) (fun _ _ => rfl) rfl rfl
        (fun _ => rfl) rfl rfl ⟨[.joined n], rfl, by simp [Event.onHandle]⟩
    next =>
      exact HandleApart.thread idle (by simp) (by simp [Doing.pending])
        (fun u other => by simp [Function.update_of_ne other]) (fun _ _ => rfl) rfl rfl
        (fun _ => rfl) rfl rfl ⟨[], by simp, by simp⟩

/-- Once the live count is zero, every task spawned into a nursery has completed. -/
theorem Scoped.all_completed {s : State α} (nested : Scoped s) {n : NurseryId}
    (none : s.live n = 0) {u : TaskId} (spawned : .spawned n u ∈ s.log) :
    ∃ r, .completed u r ∈ s.log := by
  obtain ⟨inside, done⟩ := nested.spawned n u spawned
  have total : s.weight n u ≤ ∑ v ∈ Finset.range s.next, s.weight n v :=
    Finset.single_le_sum (fun _ _ => Nat.zero_le _) (Finset.mem_range.mpr inside)
  rw [← nested.counted n, none] at total
  have frames : (s.frames u).count (.onDone (some n)) = 0 := by
    rw [State.weight] at total
    omega
  have pending : (s.doing u).pending.countP (Micro.counts n) = 0 := by
    rw [State.weight] at total
    omega
  rcases done with completed | framed | ⟨r, last⟩
  · exact completed
  · exact absurd framed (List.count_eq_zero.mp frames)
  · rw [last] at pending
    simp [Doing.pending, Micro.counts] at pending

/-- A step of a join keeps the nurseries. -/
theorem Scoped.join {s s' : State α} (nested : Scoped s) {t : TaskId} {n : NurseryId}
    {parking : Bool} (doing : s.doing t = .join n parking) (now : Doing α)
    (registered : Option TaskId) (mode : Mode) (more : List (Event α))
    (only : s' = { s with
      joiner := Function.update s.joiner n registered
      doing := Function.update s.doing t now
      mode := Function.update s.mode t mode
      log := s.log ++ more })
    (idle : now.pending = []) (same : ∀ k p, now = .join k p → k = n)
    (waits : ∀ u, registered = some u → s.live n ≠ 0)
    (asleep : s'.Sleeping t → (∃ p, now = .join n p) → registered = some t ∨ s'.Due t)
    (events : more = [] ∨ (more = [.joined n] ∧ s.live n = 0)) : Scoped s' := by
  subst only
  have others : ∀ u, u ≠ t → Function.update s.doing t now u = s.doing u := fun u other =>
    Function.update_of_ne other _ _
  have opener := nested.opens t n (Or.inl ⟨parking, doing⟩)
  have alone : ∀ u p, u ≠ t → s.doing u ≠ .join n p := by
    intro u p other joining
    exact other ((nested.opens u n (Or.inl ⟨p, joining⟩)).2.symm.trans opener.2)
  have quiet : (s.doing t).pending = [] := by rw [doing]; rfl
  refine ⟨?_, nested.unopened, ?_, ?_, ?_, ?_, ?_, ?_⟩
  · intro u k member
    by_cases self : u = t
    · subst self
      simp only [Function.update_self, idle] at member
      cases member
    · exact nested.entering u k (others u self ▸ member)
  · intro k
    show s.live k = _
    rw [nested.counted k]
    apply Finset.sum_congr rfl
    intro u _
    rw [State.weight, State.weight]
    by_cases self : u = t
    · subst self
      simp only [Function.update_self, idle, quiet]
    · simp only [Function.update_of_ne self]
  · intro u k opens
    apply nested.opens u k
    by_cases self : u = t
    · subst self
      simp only [Function.update_self] at opens
      rcases opens with ⟨p, joining⟩ | framed
      · exact Or.inl ⟨parking, (same k p joining) ▸ doing⟩
      · exact Or.inr framed
    · simpa only [Function.update_of_ne self] using opens
  · intro k u joins
    by_cases here : k = n
    · subst here
      simp only [Function.update_self] at joins
      exact waits u joins
    · simp only [Function.update_of_ne here] at joins
      exact nested.joining k u joins
  · intro u k p joining sleeping
    by_cases self : u = t
    · subst self
      simp only [Function.update_self] at joining
      have here := same k p joining
      subst here
      simp only [Function.update_self]
      exact asleep sleeping ⟨p, joining⟩
    · simp only [Function.update_of_ne self] at joining
      have away : k ≠ n := by
        rintro rfl
        exact alone u p self joining
      simp only [Function.update_of_ne away]
      obtain ⟨before, due⟩ := asleep_other quiet self sleeping others
        (fun v different => Function.update_of_ne different _ _) rfl
      exact (nested.joins u k p joining before).imp id due
  · intro k u spawned
    have before : .spawned k u ∈ s.log := by
      rcases events with rfl | ⟨rfl, -⟩ <;> simpa using spawned
    obtain ⟨inside, done⟩ := nested.spawned k u before
    refine ⟨inside, ?_⟩
    rcases done with ⟨r, completed⟩ | framed | ⟨r, last⟩
    · exact Or.inl ⟨r, List.mem_append_left _ completed⟩
    · exact Or.inr (Or.inl framed)
    · have self : u ≠ t := by
        rintro rfl
        rw [doing] at last
        cases last
      exact Or.inr (Or.inr ⟨r, (others u self).trans last⟩)
  · rcases events with rfl | ⟨rfl, none⟩
    · simpa using nested.joined
    · exact nested.joined.snoc (fun u spawned => nested.all_completed none spawned)

/-- A step of `Nursery::join` keeps the nurseries. -/
theorem Scoped.joinStep {s : State α} (nested : Scoped s) {t : TaskId} {n : NurseryId}
    {parking : Bool} (running : s.mode t = .running) (doing : s.doing t = .join n parking) :
    Scoped (s.joinStep t n parking) := by
  have stays : Function.update s.mode t .running = s.mode := by
    rw [← running, Function.update_eq_self]
  unfold State.joinStep
  split
  next going =>
    subst going
    have before := nested.joins t n true doing (Or.inr (by rw [doing]; rfl))
    refine nested.join doing (.join n false) (s.joiner n) .parked [] (by simp) rfl ?_ ?_ ?_
      (Or.inl rfl)
    · intro k p joining
      cases joining
      rfl
    · intro u registered
      exact nested.joining n u registered
    · intro _ _
      refine before.imp id ?_
      rintro (queued | ⟨v, member⟩)
      · exact Or.inl queued
      · have other : v ≠ t := by
          rintro rfl
          rw [doing] at member
          cases member
        exact Or.inr ⟨v, by simpa [Function.update_of_ne other] using member⟩
  next =>
    split
    next none =>
      refine nested.join doing (.steps []) Option.none .running [.joined n] (by rw [stays]) rfl
        (by simp) (by simp) (by simp) (Or.inr ⟨rfl, none⟩)
    next alive =>
      refine nested.join doing (.join n true) (some t) .running [] (by simp [stays]) rfl ?_
        (fun _ _ => alive) (fun _ _ => Or.inl rfl) (Or.inl rfl)
      intro k p joining
      cases joining
      rfl

/-- A step of an await keeps the handles. -/
theorem Handled.await {s s' : State α} (handled : Handled s) {t h : TaskId}
    {registered parking : Bool} (doing : s.doing t = .await h registered parking)
    (now : Doing α) (list : List TaskId) (mode : Mode) (more : List (Event α))
    (only : s' = { s with
      awaiters := Function.update s.awaiters h list
      doing := Function.update s.doing t now
      mode := Function.update s.mode t mode
      log := s.log ++ more })
    (idle : now.pending = [])
    (same : ∀ k b p, now = .await k b p → k = h ∧ b = true ∧ (s.result h = none → t ∈ list))
    (kept : ∀ u ∈ s.awaiters h, u ∈ list)
    (asleep : s'.Sleeping t → (∃ b p, now = .await h b p) → s.result h = none ∨ s'.Due t)
    (events : more = [] ∨ ∃ r, more = [.awaited t h r] ∧ s.result h = some r) : Handled s' := by
  subst only
  have others : ∀ u, u ≠ t → Function.update s.doing t now u = s.doing u := fun u other =>
    Function.update_of_ne other _ _
  have quiet : (s.doing t).pending = [] := by rw [doing]; rfl
  refine ⟨?_, handled.unmade, ?_, ?_, ?_, ?_, ?_⟩
  · intro u
    have before := handled.once u
    by_cases self : u = t
    · subst self
      simp only [Function.update_self, idle]
      rw [quiet] at before
      exact before
    · simp only [Function.update_of_ne self]
      exact before
  · intro u r completed
    apply handled.completed u r
    rcases events with rfl | ⟨r', rfl, -⟩ <;> simpa using completed
  · intro u k r awaited
    rcases events with rfl | ⟨r', rfl, known⟩
    · exact handled.awaited u k r (by simpa using awaited)
    · simp only [List.mem_append, List.mem_singleton, Event.awaited.injEq] at awaited
      rcases awaited with old | ⟨-, rfl, rfl⟩
      · exact handled.awaited u k r old
      · exact known
  · intro u k b p waiting
    by_cases self : u = t
    · subst self
      simp only [Function.update_self] at waiting
      rw [(same k b p waiting).1]
      exact handled.target u h registered parking doing
    · exact handled.target u k b p (others u self ▸ waiting)
  · intro u k p waiting undone
    show u ∈ Function.update s.awaiters h list k
    by_cases self : u = t
    · subst self
      simp only [Function.update_self] at waiting
      obtain ⟨rfl, -, there⟩ := same k true p waiting
      rw [Function.update_self]
      exact there undone
    · have there := handled.registered u k p (others u self ▸ waiting) undone
      by_cases here : k = h
      · subst here
        rw [Function.update_self]
        exact kept u there
      · rw [Function.update_of_ne here]
        exact there
  · intro u k b p waiting sleeping
    by_cases self : u = t
    · subst self
      simp only [Function.update_self] at waiting
      obtain ⟨rfl, flag, -⟩ := same k b p waiting
      exact ⟨flag, asleep sleeping ⟨b, p, waiting⟩⟩
    · obtain ⟨before, due⟩ := asleep_other quiet self sleeping others
        (fun v different => Function.update_of_ne different _ _) rfl
      obtain ⟨flag, done⟩ := handled.asleep u k b p (others u self ▸ waiting) before
      exact ⟨flag, done.imp id due⟩

/-- A step of `await_handle` keeps the handles. -/
theorem Handled.awaitStep {s : State α} (handled : Handled s) {t h : TaskId}
    {registered parking : Bool} (running : s.mode t = .running)
    (doing : s.doing t = .await h registered parking) :
    Handled (s.awaitStep t h registered parking) := by
  have stays : Function.update s.mode t .running = s.mode := by
    rw [← running, Function.update_eq_self]
  unfold State.awaitStep
  split
  next going =>
    subst going
    obtain ⟨rfl, done⟩ := handled.asleep t h registered true doing (Or.inr (by rw [doing]; rfl))
    refine handled.await doing (.await h true false) (s.awaiters h) .parked [] (by simp) rfl ?_
      (fun _ there => there) ?_ (Or.inl rfl)
    · intro k b p waiting
      cases waiting
      exact ⟨rfl, rfl, handled.registered t h true doing⟩
    · intro _ _
      refine done.imp id ?_
      rintro (queued | ⟨v, member⟩)
      · exact Or.inl queued
      · have other : v ≠ t := by
          rintro rfl
          rw [doing] at member
          cases member
        exact Or.inr ⟨v, by simpa [Function.update_of_ne other] using member⟩
  next =>
    split
    next r known =>
      exact handled.await doing (.steps []) (s.awaiters h) .running [.awaited t h r]
        (by simp [stays]) rfl (by simp) (fun _ there => there) (by simp) (Or.inr ⟨r, rfl, known⟩)
    next undone =>
      split
      next again =>
        subst again
        have there := handled.registered t h parking doing undone
        refine handled.await doing (.await h true true) (s.awaiters h) .running []
          (by simp [stays]) rfl ?_ (fun _ there => there) (fun _ _ => Or.inl undone) (Or.inl rfl)
        intro k b p waiting
        cases waiting
        exact ⟨rfl, rfl, fun _ => there⟩
      next first =>
        refine handled.await doing (.await h true true) (s.awaiters h ++ [t]) .running []
          (by simp [stays]) rfl ?_ (fun _ there => List.mem_append_left _ there)
          (fun _ _ => Or.inl undone) (Or.inl rfl)
        intro k b p waiting
        cases waiting
        exact ⟨rfl, rfl, by simp⟩

/-- What a change of the run queue, or of whether a thread runs, leaves alone. -/
theorem Unmoved.intro {s s' : State α} (only : s' = { s with
    mode := s'.mode, queue := s'.queue, chan := s'.chan, log := s'.log })
    (asleep : ∀ u, s'.Sleeping u → s.Sleeping u ∧ (u ∈ s.queue → u ∈ s'.queue))
    (log : ∃ more : List (Event α), s'.log = s.log ++ more ∧
      ∀ e ∈ more, e.onNursery = false ∧ e.onHandle = false) : Unmoved s s' := by
  refine ⟨?_, ?_, ?_, ?_, ?_, ?_, ?_, ?_, ?_, asleep, log⟩ <;> rw [only]

/-- The steps that are not about nurseries and handles leave them alone. -/
theorem Change.apart {s s' : State α} (formed : Formed s) (change : Change s s') :
    (NurseryApart s s' ∧ HandleApart s s') ∨ s' = s.addHost ∨
      (∃ t, s.doing t = .steps [] ∧ s' = s.call t .scope) ∨
      (∃ t r n rest, s.mode t = .running ∧ s.doing t = .steps [] ∧
        s.frames t = .leave n :: rest ∧ s' = s.given t rest ((Frame.leave n).resume r)) ∨
      (∃ t r nursery rest, s.mode t = .running ∧ s.doing t = .steps [] ∧
        s.frames t = .onDone nursery :: rest ∧
        s' = s.given t rest ((Frame.onDone nursery).resume r)) ∨
      (∃ t m rest after pushed, s.doing t = .steps (m :: rest) ∧ MicroChange s t m after pushed ∧
        s' = after.stepped t pushed rest) ∨
      (∃ t h b p, s.mode t = .running ∧ s.doing t = .await h b p ∧ s' = s.awaitStep t h b p) ∨
      (∃ t n p, s.mode t = .running ∧ s.doing t = .join n p ∧ s' = s.joinStep t n p) := by
  cases change with
  | host => exact Or.inr (Or.inl rfl)
  | call t c control allowed valid =>
    obtain ⟨running, doing, -⟩ := inUser_elim control
    by_cases opens : c = .scope
    · subst opens
      exact Or.inr (Or.inr (Or.inl ⟨t, doing, rfl⟩))
    · exact Or.inl (call_apart running doing valid opens)
  | give t r f rest stack control =>
    obtain ⟨running, doing, -⟩ := inUser_elim control
    cases f with
    | unmask => exact Or.inl (given_unmask doing stack)
    | leave n =>
      exact Or.inr (Or.inr (Or.inr (Or.inl ⟨t, r, n, rest, running, doing, stack, rfl⟩)))
    | onDone nursery =>
      exact Or.inr (Or.inr (Or.inr (Or.inr (Or.inl
        ⟨t, r, nursery, rest, running, doing, stack, rfl⟩))))
  | micro t m rest after pushed running doing taken =>
    exact Or.inr (Or.inr (Or.inr (Or.inr (Or.inr (Or.inl
      ⟨t, m, rest, after, pushed, doing, taken, rfl⟩)))))
  | finish t running doing task stack =>
    left
    have unmoved : Unmoved s (s.setMode t .finished) := by
      refine Unmoved.intro rfl ?_ ⟨[], by simp, by simp⟩
      intro u sleeping
      refine ⟨?_, id⟩
      rcases sleeping with parked | parking
      · left
        by_cases same : u = t
        · subst same
          simp at parked
        · simpa [Function.update_of_ne same] using parked
      · exact Or.inr parking
    exact ⟨unmoved.nursery, unmoved.handle⟩
  | channel t c op stage s' running doing taken => exact Or.inl (taken.apart doing)
  | await t h registered parking running doing =>
    exact Or.inr (Or.inr (Or.inr (Or.inr (Or.inr (Or.inr (Or.inl
      ⟨t, h, registered, parking, running, doing, rfl⟩))))))
  | join t n parking running doing =>
    exact Or.inr (Or.inr (Or.inr (Or.inr (Or.inr (Or.inr (Or.inr
      ⟨t, n, parking, running, doing, rfl⟩))))))
  | park t running doing =>
    left
    have idle : (s.doing t).pending = [] := by rw [doing]; rfl
    constructor
    · exact NurseryApart.thread idle (by simp) (by simp [Doing.pending]) (by simp [Doing.pending])
        (fun u other => by simp [Function.update_of_ne other])
        (fun u other => by simp [Function.update_of_ne other]) rfl rfl (fun _ => rfl) rfl rfl rfl
        rfl ⟨[], by simp, by simp⟩
    · exact HandleApart.thread idle (by simp) (by simp [Doing.pending])
        (fun u other => by simp [Function.update_of_ne other])
        (fun u other => by simp [Function.update_of_ne other]) rfl rfl (fun _ => rfl) rfl rfl
        ⟨[], by simp, by simp⟩
  | resume t parked queued =>
    left
    have unmoved : Unmoved s ({ s with queue := s.queue.erase t }.setMode t .running) := by
      refine Unmoved.intro rfl ?_ ⟨[], by simp, by simp⟩
      intro u sleeping
      have other : u ≠ t := by
        rintro rfl
        rcases sleeping with asleep | parking
        · simp at asleep
        · have awake := formed.not_parking (t := u) (by simp [parked])
          exact absurd (awake.symm.trans parking) (by simp)
      refine ⟨?_, fun there => (List.mem_erase_of_ne other).mpr there⟩
      rcases sleeping with asleep | parking
      · exact Or.inl (by simpa [Function.update_of_ne other] using asleep)
      · exact Or.inr parking
    exact ⟨unmoved.nursery, unmoved.handle⟩
  | stale t finished queued =>
    left
    have unmoved : Unmoved s { s with queue := s.queue.erase t } := by
      refine Unmoved.intro rfl ?_ ⟨[], by simp, by simp⟩
      intro u sleeping
      have other : u ≠ t := by
        rintro rfl
        rcases sleeping with asleep | parking
        · simp [finished] at asleep
        · have awake := formed.not_parking (t := u) (by simp [finished])
          exact absurd (awake.symm.trans parking) (by simp)
      exact ⟨sleeping, fun there => (List.mem_erase_of_ne other).mpr there⟩
    exact ⟨unmoved.nursery, unmoved.handle⟩
  | wake t unfinished task =>
    left
    have unmoved : Unmoved s { s with queue := s.queue ++ [t] } :=
      Unmoved.intro rfl (fun u sleeping => ⟨sleeping, List.mem_append_left _⟩)
        ⟨[], by simp, by simp⟩
    exact ⟨unmoved.nursery, unmoved.handle⟩
  | dropChan c present unused =>
    left
    have unmoved : Unmoved s (s.dropChan c) :=
      Unmoved.intro rfl (fun u sleeping => ⟨sleeping, id⟩)
        ⟨(s.chan c).buf.map .released, rfl, by simp [Event.onNursery, Event.onHandle]⟩
    exact ⟨unmoved.nursery, unmoved.handle⟩

/-- Every step keeps the nurseries. -/
theorem Scoped.change {s s' : State α} (nested : Scoped s) (formed : Formed s)
    (change : Change s s') : Scoped s' := by
  rcases change.apart formed with ⟨apart, -⟩ | rfl | ⟨t, -, rfl⟩ |
    ⟨t, r, n, rest, running, doing, stack, rfl⟩ |
    ⟨t, r, nursery, rest, running, doing, stack, rfl⟩ |
    ⟨t, m, rest, after, pushed, doing, taken, rfl⟩ | ⟨t, h, b, p, running, doing, rfl⟩ |
    ⟨t, n, p, running, doing, rfl⟩
  · exact nested.apart apart
  · exact nested.host formed
  · exact nested.scope t
  · refine nested.given running doing stack _ ?_ (by simp [Frame.resume, Doing.pending]) ?_
      (by simp)
    · intro k p joining
      cases joining
      exact ⟨rfl, rfl⟩
    · simp [Frame.resume, Doing.pending]
  · refine nested.given running doing stack _ (by simp [Frame.resume])
      (by simp [Frame.resume, Doing.pending]) ?_ ?_
    · intro n
      cases nursery with
      | none =>
        simp [Frame.resume, Doing.pending, Micro.counts]
      | some k =>
        by_cases same : k = n <;>
          simp [Frame.resume, Doing.pending, Micro.counts, same]
    · intro n last
      cases last
      exact ⟨r, rfl⟩
  · exact nested.micro formed doing taken
  · exact nested.apart (NurseryApart.await doing)
  · exact nested.joinStep running doing

/-- Every step keeps the handles. -/
theorem Handled.change {s s' : State α} (handled : Handled s) (formed : Formed s)
    (change : Change s s') : Handled s' := by
  rcases change.apart formed with ⟨-, apart⟩ | rfl | ⟨t, doing, rfl⟩ |
    ⟨t, r, n, rest, running, doing, stack, rfl⟩ |
    ⟨t, r, nursery, rest, running, doing, stack, rfl⟩ |
    ⟨t, m, rest, after, pushed, doing, taken, rfl⟩ | ⟨t, h, b, p, running, doing, rfl⟩ |
    ⟨t, n, p, running, doing, rfl⟩
  · exact handled.apart apart
  · exact handled.host formed
  · exact handled.apart (HandleApart.scope doing)
  · exact handled.apart (HandleApart.given_leave doing stack)
  · exact handled.given_onDone doing stack r
  · exact handled.micro formed doing taken
  · exact handled.awaitStep running doing
  · exact handled.apart (HandleApart.join doing)

/-- What nurseries come to in a reachable state. -/
theorem Reachable.nested {s : State α} (reached : Reachable s) : Scoped s := by
  refine Reachable.invariant ?_ (fun s s' before nested change =>
    nested.change before.formed change) reached
  refine ⟨?_, fun _ _ => rfl, fun _ => rfl, ?_, ?_, ?_, ?_, History.justified_nil⟩ <;>
    simp [State.initial, Doing.pending]

/-- What handles come to in a reachable state. -/
theorem Reachable.handled {s : State α} (reached : Reachable s) : Handled s := by
  refine Reachable.invariant ?_ (fun s s' before handled change =>
    handled.change before.formed change) reached
  refine ⟨?_, fun _ _ => rfl, ?_, ?_, ?_, ?_, ?_⟩ <;> simp [State.initial, Doing.pending]

end Fai.Scheduler
