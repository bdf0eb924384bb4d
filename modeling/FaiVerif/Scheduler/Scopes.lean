import FaiVerif.Scheduler.Channels
import FaiVerif.Lib.History

/-!
# Scopes and handles

The invariants of structured concurrency: a nursery's live count is the number of its tasks that
have not announced their end, its joiner is registered or about to be woken, and a handle is
completed once, with every task that waits for it registered or about to be woken.
-/

namespace Fai.Scheduler

variable {α : Type}

/-- Whether a step counts as one live task of a nursery. -/
def Micro.counts (n : NurseryId) : Micro α → Bool
  | .makeTask (some k) => k == n
  | .childFinished k => k == n
  | _ => false

/-- Whether a step completes a handle. -/
def Micro.completes : Micro α → Bool
  | .complete _ => true
  | _ => false

/-- Whether a frame is a task's `on_done`. -/
def Frame.isOnDone : Frame → Bool
  | .onDone _ => true
  | _ => false

/-- The live tasks of a nursery that a thread accounts for. -/
def State.weight (s : State α) (n : NurseryId) (t : TaskId) : Nat :=
  (s.frames t).count (.onDone (some n)) + (s.doing t).pending.countP (Micro.counts n)

/-- When a scope's join returns, every task spawned into its nursery has completed. -/
def JoinsAll (before : List (Event α)) : Event α → Prop
  | .joined n => ∀ t, .spawned n t ∈ before → ∃ r, .completed t r ∈ before
  | _ => True

/-- What nurseries come to in a reachable state. -/
structure Scoped (s : State α) : Prop where
  /-- Tasks are spawned into nurseries that exist. -/
  entering : ∀ t n, .enter n ∈ (s.doing t).pending → n < s.nurseryCount
  /-- Nurseries that do not exist yet have no task. -/
  unopened : ∀ n, s.nurseryCount ≤ n → s.live n = 0
  /-- The live count. -/
  counted : ∀ n, s.live n = ∑ t ∈ Finset.range s.next, s.weight n t
  /-- A nursery is joined by the task that opened it. -/
  opens : ∀ t n, (∃ p, s.doing t = .join n p) ∨ .leave n ∈ s.frames t →
    n < s.nurseryCount ∧ s.opener n = t
  /-- A registered joiner waits for a live task. -/
  joining : ∀ n t, s.joiner n = some t → s.live n ≠ 0
  /-- A sleeping joiner is registered or about to be woken. -/
  joins : ∀ t n p, s.doing t = .join n p → s.Sleeping t → s.joiner n = some t ∨ s.Due t
  /-- A task spawned into a nursery has completed, or has its announcement before it. -/
  spawned : ∀ n t, .spawned n t ∈ s.log → t < s.next ∧ ((∃ r, .completed t r ∈ s.log) ∨
    .onDone (some n) ∈ s.frames t ∨ ∃ r, s.doing t = .steps [.complete r, .childFinished n])
  /-- Every join returned after the tasks of its nursery. -/
  joined : History.Justified JoinsAll s.log

/-- What handles come to in a reachable state. -/
structure Handled (s : State α) : Prop where
  /-- A handle is completed at most once. -/
  once : ∀ t, (s.frames t).countP Frame.isOnDone + (s.doing t).pending.countP Micro.completes +
    (s.result t).toList.length ≤ 1
  /-- Threads that do not exist yet have no result. -/
  unmade : ∀ t, s.next ≤ t → s.result t = none
  /-- A completion recorded is the result. -/
  completed : ∀ t r, .completed t r ∈ s.log → s.result t = some r
  /-- An awaited result is the result. -/
  awaited : ∀ u t r, .awaited u t r ∈ s.log → s.result t = some r
  /-- Threads await tasks that exist. -/
  target : ∀ t h b p, s.doing t = .await h b p → h < s.next
  /-- A registered awaiter is on the handle's list until it completes. -/
  registered : ∀ t h p, s.doing t = .await h true p → s.result h = none → t ∈ s.awaiters h
  /-- A sleeping awaiter is registered, and about to be woken once the handle is completed. -/
  asleep : ∀ t h b p, s.doing t = .await h b p → s.Sleeping t →
    b = true ∧ (s.result h = none ∨ s.Due t)

/-- Whether a frame is about nurseries or handles. -/
def Frame.marked : Frame → Bool
  | .unmask => false
  | _ => true

/-- Whether an event is about nurseries. -/
def Event.onNursery : Event α → Bool
  | .spawned _ _ | .joined _ => true
  | _ => false

/-- Whether an event is about handles. -/
def Event.onHandle : Event α → Bool
  | .completed _ _ | .awaited _ _ _ => true
  | _ => false

/-- A marked frame is on a stack when it is on its marked part. -/
theorem Frame.mem_marked {f : Frame} (marked : f.marked = true) {stack : List Frame} :
    f ∈ stack ↔ f ∈ stack.filter Frame.marked := by
  simp [marked]

/-- A marked frame is as often on a stack as on its marked part. -/
theorem Frame.count_marked {f : Frame} (marked : f.marked = true) (stack : List Frame) :
    stack.count f = (stack.filter Frame.marked).count f :=
  (List.count_filter marked).symm

/-- A change that leaves nurseries alone. -/
structure NurseryApart (s s' : State α) : Prop where
  next : s'.next = s.next
  frames : ∀ u, (s'.frames u).filter Frame.marked = (s.frames u).filter Frame.marked
  nurseryCount : s'.nurseryCount = s.nurseryCount
  live : s'.live = s.live
  joiner : s'.joiner = s.joiner
  opener : s'.opener = s.opener
  counts : ∀ u n, (s'.doing u).pending.countP (Micro.counts n) =
    (s.doing u).pending.countP (Micro.counts n)
  enters : ∀ u n, .enter n ∈ (s'.doing u).pending →
    .enter n ∈ (s.doing u).pending ∨ n < s.nurseryCount
  join : ∀ u n p, s'.doing u = .join n p → s.doing u = .join n p
  ending : ∀ u r n, s.doing u = .steps [.complete r, .childFinished n] →
    s'.doing u = .steps [.complete r, .childFinished n]
  asleep : ∀ u n p, s'.doing u = .join n p → s'.Sleeping u → s.Sleeping u ∧ (s.Due u → s'.Due u)
  log : ∃ more : List (Event α), s'.log = s.log ++ more ∧ ∀ e ∈ more, e.onNursery = false

/-- A change that leaves handles alone. -/
structure HandleApart (s s' : State α) : Prop where
  next : s'.next = s.next
  frames : ∀ u, (s'.frames u).countP Frame.isOnDone = (s.frames u).countP Frame.isOnDone
  result : s'.result = s.result
  awaiters : s'.awaiters = s.awaiters
  completes : ∀ u, (s'.doing u).pending.countP Micro.completes =
    (s.doing u).pending.countP Micro.completes
  await : ∀ u h b p, s'.doing u = .await h b p →
    s.doing u = .await h b p ∨ (h < s.next ∧ b = false ∧ ¬ s'.Sleeping u)
  asleep : ∀ u h b p, s'.doing u = .await h b p → s'.Sleeping u →
    s.Sleeping u ∧ (s.Due u → s'.Due u)
  log : ∃ more : List (Event α), s'.log = s.log ++ more ∧ ∀ e ∈ more, e.onHandle = false

/-- Events added that fail a test are none of those that pass it. -/
theorem mem_append_of_test {ε : Type} {test : ε → Bool} {log more : List ε}
    (fail : ∀ e ∈ more, test e = false) {e : ε} (pass : test e = true) :
    e ∈ log ++ more ↔ e ∈ log := by
  constructor
  · intro member
    rcases List.mem_append.mp member with old | new
    · exact old
    · rw [fail e new] at pass
      cases pass
  · exact List.mem_append_left _

/-- A change that leaves nurseries alone keeps them. -/
theorem Scoped.apart {s s' : State α} (nested : Scoped s) (apart : NurseryApart s s') :
    Scoped s' := by
  obtain ⟨more, log, other⟩ := apart.log
  have weight : ∀ n u, s'.weight n u = s.weight n u := by
    intro n u
    rw [State.weight, State.weight, Frame.count_marked rfl, apart.frames, apart.counts,
      ← Frame.count_marked rfl]
  refine ⟨?_, ?_, ?_, ?_, ?_, ?_, ?_, ?_⟩
  · intro u n member
    rw [apart.nurseryCount]
    rcases apart.enters u n member with old | known
    · exact nested.entering u n old
    · exact known
  · intro n outside
    rw [apart.live]
    exact nested.unopened n (apart.nurseryCount ▸ outside)
  · intro n
    rw [apart.live, apart.next, nested.counted n]
    exact Finset.sum_congr rfl (fun u _ => (weight n u).symm)
  · intro u n opens
    rw [apart.nurseryCount, apart.opener]
    apply nested.opens u n
    rcases opens with ⟨p, now⟩ | framed
    · exact Or.inl ⟨p, apart.join u n p now⟩
    · right
      rw [Frame.mem_marked rfl, apart.frames] at framed
      exact (Frame.mem_marked rfl).mpr framed
  · intro n u registered
    rw [apart.live]
    exact nested.joining n u (apart.joiner ▸ registered)
  · intro u n p now sleeping
    obtain ⟨before, due⟩ := apart.asleep u n p now sleeping
    rw [apart.joiner]
    exact (nested.joins u n p (apart.join u n p now) before).imp id due
  · intro n u spawned
    rw [log, mem_append_of_test other rfl] at spawned
    rw [apart.next, log]
    obtain ⟨inside, done⟩ := nested.spawned n u spawned
    refine ⟨inside, ?_⟩
    rcases done with ⟨r, completed⟩ | framed | ⟨r, now⟩
    · exact Or.inl ⟨r, List.mem_append_left _ completed⟩
    · refine Or.inr (Or.inl ?_)
      rw [Frame.mem_marked rfl, apart.frames]
      exact (Frame.mem_marked rfl).mp framed
    · exact Or.inr (Or.inr ⟨r, apart.ending u r n now⟩)
  · rw [log]
    refine nested.joined.append (fun _ e member => ?_)
    have := other e member
    cases e <;> simp_all [JoinsAll, Event.onNursery]

/-- A change that leaves handles alone keeps them. -/
theorem Handled.apart {s s' : State α} (handled : Handled s) (apart : HandleApart s s') :
    Handled s' := by
  obtain ⟨more, log, other⟩ := apart.log
  refine ⟨?_, ?_, ?_, ?_, ?_, ?_, ?_⟩
  · intro u
    rw [apart.frames, apart.result, apart.completes]
    exact handled.once u
  · intro u outside
    rw [apart.result]
    exact handled.unmade u (apart.next ▸ outside)
  · intro u r completed
    rw [log, mem_append_of_test other rfl] at completed
    rw [apart.result]
    exact handled.completed u r completed
  · intro u h r awaited
    rw [log, mem_append_of_test other rfl] at awaited
    rw [apart.result]
    exact handled.awaited u h r awaited
  · intro u h b p now
    rw [apart.next]
    rcases apart.await u h b p now with before | fresh
    · exact handled.target u h b p before
    · exact fresh.1
  · intro u h p now undone
    rw [apart.awaiters]
    rcases apart.await u h true p now with before | ⟨-, new, -⟩
    · exact handled.registered u h p before (apart.result ▸ undone)
    · cases new
  · intro u h b p now sleeping
    rcases apart.await u h b p now with now' | ⟨-, -, awake⟩
    · obtain ⟨before, due⟩ := apart.asleep u h b p now sleeping
      rw [apart.result]
      obtain ⟨flag, done⟩ := handled.asleep u h b p now' before
      exact ⟨flag, done.imp id due⟩
    · exact absurd sleeping awake

section Marked

variable {s after : State α} {t : TaskId} {m : Micro α} {pushed rest : List (Micro α)}

/-- A step leaves the frames of every thread that exists. -/
theorem MicroChange.frames (change : MicroChange s t m after pushed) {u : TaskId}
    (old : u < s.next) : after.frames u = s.frames u := by
  cases change with
  | makeTask nursery =>
    simp only [State.addTask]
    exact Function.update_of_ne (Nat.ne_of_lt old) _ _
  | _ => rfl

/-- A step moves the live tasks that its thread accounts for. -/
theorem stepped_weight (formed : Formed s) (doing : s.doing t = .steps (m :: rest))
    (change : MicroChange s t m after pushed) (n : NurseryId) :
    (∑ u ∈ Finset.range s.next, (after.stepped t pushed rest).weight n u) +
        [m].countP (Micro.counts n) =
      (∑ u ∈ Finset.range s.next, s.weight n u) + pushed.countP (Micro.counts n) := by
  have inside : t < s.next := formed.exists_doing (by simp [doing])
  have same : ∀ u, u < s.next → u ≠ t →
      (after.stepped t pushed rest).weight n u = s.weight n u := by
    intro u old other
    rw [State.weight, State.weight, stepped_doing formed change other]
    rw [show (after.stepped t pushed rest).frames u = s.frames u from change.frames old]
  have own : (after.stepped t pushed rest).weight n t + [m].countP (Micro.counts n) =
      s.weight n t + pushed.countP (Micro.counts n) := by
    rw [State.weight, State.weight, stepped_self, doing]
    rw [show (after.stepped t pushed rest).frames t = s.frames t from change.frames inside]
    simp only [Doing.pending, List.countP_append, List.countP_cons, List.countP_nil]
    omega
  have replaced := Tally.sum_replace (f := s.weight n)
    (g := (after.stepped t pushed rest).weight n) inside same
  omega

/-- A step keeps the live counts. -/
theorem Scoped.counted_micro (nested : Scoped s) (formed : Formed s)
    (doing : s.doing t = .steps (m :: rest)) (change : MicroChange s t m after pushed)
    (n : NurseryId) :
    (after.stepped t pushed rest).live n =
      ∑ u ∈ Finset.range (after.stepped t pushed rest).next,
        (after.stepped t pushed rest).weight n u := by
  show after.live n = ∑ u ∈ Finset.range after.next, (after.stepped t pushed rest).weight n u
  have moved := stepped_weight formed doing change n
  have before := nested.counted n
  cases change with
  | enter k =>
    have zero : ([.enter k] : List (Micro α)).countP (Micro.counts n) = 0 := rfl
    by_cases same : n = k
    · subst same
      have one : ([.makeTask (some n)] : List (Micro α)).countP (Micro.counts n) = 1 := by
        simp [Micro.counts]
      simp only [Function.update_self]
      omega
    · have none : ([.makeTask (some k)] : List (Micro α)).countP (Micro.counts n) = 0 := by
        simp [Micro.counts, Ne.symm same]
      simp only [Function.update_of_ne same]
      omega
  | makeTask nursery =>
    have fresh : State.weight ((s.addTask t nursery).stepped t
        [.registerChild s.next, .schedule s.next] rest) n s.next =
        ([.makeTask nursery] : List (Micro α)).countP (Micro.counts n) := by
      have other : s.next ≠ t := Nat.ne_of_gt (formed.exists_doing (by simp [doing]))
      rw [State.weight, stepped_doing formed (.makeTask nursery) other,
        (formed.beyond s.next (Nat.le_refl _)).2]
      cases nursery <;> simp [State.addTask, Doing.pending, Micro.counts, List.count_singleton,
        List.countP_cons]
    have none : ([.registerChild s.next, .schedule s.next] : List (Micro α)).countP
        (Micro.counts n) = 0 := rfl
    rw [show (s.addTask t nursery).next = s.next + 1 from rfl, Finset.sum_range_succ, fresh,
      show (s.addTask t nursery).live = s.live from rfl]
    omega
  | lastFinished k last =>
    have none : ((s.joiner k).toList.map Micro.schedule : List (Micro α)).countP
        (Micro.counts n) = 0 := by
      simp [Micro.counts]
    by_cases same : n = k
    · subst same
      have one : ([.childFinished n] : List (Micro α)).countP (Micro.counts n) = 1 := by
        simp [Micro.counts]
      simp only [Function.update_self]
      omega
    · have zero : ([.childFinished k] : List (Micro α)).countP (Micro.counts n) = 0 := by
        simp [Micro.counts, Ne.symm same]
      simp only [Function.update_of_ne same]
      omega
  | childFinished k more =>
    have none : ([] : List (Micro α)).countP (Micro.counts n) = 0 := rfl
    by_cases same : n = k
    · subst same
      have one : ([.childFinished n] : List (Micro α)).countP (Micro.counts n) = 1 := by
        simp [Micro.counts]
      simp only [Function.update_self]
      omega
    · have zero : ([.childFinished k] : List (Micro α)).countP (Micro.counts n) = 0 := by
        simp [Micro.counts, Ne.symm same]
      simp only [Function.update_of_ne same]
      omega
  | cancelHandle u => split at moved <;> simp_all [Micro.counts]
  | registerProbe u => split at moved <;> simp_all [Micro.counts]
  | unmask => split at moved <;> simp_all [Micro.counts]
  | unmaskProbe => split at moved <;> simp_all [Micro.counts]
  | _ => simp_all [Micro.counts]

/-- A pending announcement is counted. -/
theorem Scoped.live_of_pending (nested : Scoped s) (formed : Formed s) {n : NurseryId}
    (doing : s.doing t = .steps (.childFinished n :: rest)) : s.live n ≠ 0 := by
  have inside : t < s.next := formed.exists_doing (by simp [doing])
  have own : 1 ≤ s.weight n t := by
    rw [State.weight, doing]
    have one : 1 ≤ (Micro.childFinished n :: rest).countP (Micro.counts n) := by
      simp [Micro.counts]
    exact Nat.le_trans one (Nat.le_add_left _ _)
  have total : s.weight n t ≤ ∑ u ∈ Finset.range s.next, s.weight n u :=
    Finset.single_le_sum (fun _ _ => Nat.zero_le _) (Finset.mem_range.mpr inside)
  rw [nested.counted n]
  omega

/-- The history only grows. -/
theorem MicroChange.recorded (change : MicroChange s t m after pushed) {e : Event α}
    (member : e ∈ s.log) : e ∈ after.log := by
  cases change with
  | cancelFirst u unflagged => exact List.mem_append_left _ member
  | makeTask nursery => exact List.mem_append_left _ member
  | release v => exact List.mem_append_left _ member
  | close c free => exact List.mem_append_left _ member
  | complete r => exact List.mem_append_left _ member
  | _ => exact member

/-- A task spawned into a nursery by a step has its announcement before it. -/
theorem MicroChange.spawned (change : MicroChange s t m after pushed) {n : NurseryId} {u : TaskId}
    (spawned : .spawned n u ∈ after.log) : .spawned n u ∈ s.log ∨
      (u = s.next ∧ after.next = s.next + 1 ∧ .onDone (some n) ∈ after.frames u) := by
  cases change with
  | makeTask nursery =>
    cases nursery with
    | none =>
      left
      simpa [State.addTask] using spawned
    | some k =>
      simp only [State.addTask, Option.map_some, Option.toList_some, List.mem_append,
        List.mem_singleton, Event.spawned.injEq] at spawned
      rcases spawned with old | ⟨rfl, rfl⟩
      · exact Or.inl old
      · exact Or.inr ⟨rfl, rfl, by simp [State.addTask]⟩
  | cancelFirst v unflagged => exact Or.inl (by simpa using spawned)
  | release v => exact Or.inl (by simpa using spawned)
  | close c free => exact Or.inl (by simpa using spawned)
  | complete r => exact Or.inl (by simpa using spawned)
  | _ => exact Or.inl spawned

/-- A task spawned has completed after a step, or still has its announcement before it. -/
theorem Scoped.spawned_micro (nested : Scoped s) (formed : Formed s)
    (doing : s.doing t = .steps (m :: rest)) (change : MicroChange s t m after pushed)
    {n : NurseryId} {u : TaskId} (spawned : .spawned n u ∈ after.log) :
    u < after.next ∧ ((∃ r, .completed u r ∈ after.log) ∨ .onDone (some n) ∈ after.frames u ∨
      ∃ r, (after.stepped t pushed rest).doing u = .steps [.complete r, .childFinished n]) := by
  rcases change.spawned spawned with before | ⟨rfl, more, framed⟩
  · obtain ⟨old, done⟩ := nested.spawned n u before
    refine ⟨Nat.lt_of_lt_of_le old change.next_le, ?_⟩
    rw [change.frames old]
    rcases done with ⟨r, completed⟩ | framed | ⟨r, now⟩
    · exact Or.inl ⟨r, change.recorded completed⟩
    · exact Or.inr (Or.inl framed)
    · by_cases same : u = t
      · subst same
        rw [doing] at now
        simp only [Doing.steps.injEq, List.cons.injEq] at now
        obtain ⟨rfl, -⟩ := now
        left
        refine ⟨r, ?_⟩
        cases change
        simp
      · exact Or.inr (Or.inr ⟨r, (stepped_doing formed change same).trans now⟩)
  · exact ⟨more ▸ Nat.lt_succ_self _, Or.inr (Or.inl framed)⟩

/-- A step leads to no spawn. -/
theorem MicroChange.enters (change : MicroChange s t m after pushed) (n : NurseryId) :
    .enter n ∉ pushed := by
  intro member
  cases change <;> simp at member

/-- A step keeps the nurseries. -/
theorem Scoped.micro (nested : Scoped s) (formed : Formed s)
    (doing : s.doing t = .steps (m :: rest)) (change : MicroChange s t m after pushed) :
    Scoped (after.stepped t pushed rest) := by
  have others : ∀ u, u ≠ t → (after.stepped t pushed rest).doing u = s.doing u :=
    fun u other => stepped_doing formed change other
  have away : ∀ u n p, (after.stepped t pushed rest).doing u = .join n p → u ≠ t := by
    rintro u n p now rfl
    rw [stepped_self] at now
    cases now
  have nurseries : after.nurseryCount = s.nurseryCount ∧ after.opener = s.opener := by
    cases change <;> exact ⟨rfl, rfl⟩
  refine ⟨?_, ?_, nested.counted_micro formed doing change, ?_, ?_, ?_, ?_, ?_⟩
  · intro u n member
    show n < after.nurseryCount
    rw [nurseries.1]
    by_cases same : u = t
    · subst same
      rw [stepped_self] at member
      rcases List.mem_append.mp member with new | old
      · exact absurd new (change.enters n)
      · exact nested.entering u n (by rw [doing]; exact List.mem_cons_of_mem _ old)
    · rw [others u same] at member
      exact nested.entering u n member
  · intro n outside
    have before := nested.unopened n (nurseries.1 ▸ outside)
    show after.live n = 0
    cases change with
    | enter k =>
      have known := nested.entering t k (by simp [doing, Doing.pending])
      have different : n ≠ k := Nat.ne_of_gt (Nat.lt_of_lt_of_le known outside)
      simp [Function.update_of_ne different, before]
    | lastFinished k last => by_cases same : n = k <;> simp [same, before]
    | childFinished k more =>
      by_cases same : n = k
      · subst same
        simp [before]
      · simp [Function.update_of_ne same, before]
    | _ => exact before
  · intro u n opens
    show n < after.nurseryCount ∧ after.opener n = u
    rw [nurseries.1, nurseries.2]
    apply nested.opens u n
    rcases opens with ⟨p, now⟩ | framed
    · exact Or.inl ⟨p, others u (away u n p now) ▸ now⟩
    · right
      cases change with
      | makeTask nursery =>
        by_cases new : u = s.next
        · subst new
          simp [State.addTask] at framed
        · simpa [State.addTask, Function.update_of_ne new] using framed
      | _ => exact framed
  · intro n u registered
    show after.live n ≠ 0
    have before := nested.joining n u
    cases change with
    | enter k =>
      by_cases same : n = k
      · simp [same]
      · simpa [Function.update_of_ne same] using before registered
    | lastFinished k last =>
      by_cases same : n = k
      · simp [same] at registered
      · simp only [State.setDoing, Function.update_of_ne same] at registered ⊢
        exact before registered
    | childFinished k more =>
      by_cases same : n = k
      · subst same
        have live := nested.live_of_pending formed doing
        simp only [Function.update_self]
        omega
      · simp only [Function.update_of_ne same]
        exact before registered
    | _ => exact before registered
  · intro u n p now sleeping
    rw [others u (away u n p now)] at now
    have before := stepped_sleeping formed doing change (by rw [now]; rfl)
      (formed.exists_doing (by simp [now])) sleeping
    rcases nested.joins u n p now before with registered | due
    · cases change with
      | lastFinished k last =>
        by_cases same : n = k
        · subst same
          exact Or.inr (Or.inr (stepped_pushed (by simp [registered])))
        · left
          simpa [Function.update_of_ne same] using registered
      | _ => exact Or.inl registered
    · exact Or.inr (stepped_due formed doing change due)
  · intro n u spawned
    exact nested.spawned_micro formed doing change spawned
  · show History.Justified JoinsAll after.log
    cases change with
    | makeTask nursery =>
      refine nested.joined.append ?_
      cases nursery <;> simp [JoinsAll]
    | complete r => exact nested.joined.snoc trivial
    | cancelFirst u unflagged => exact nested.joined.snoc trivial
    | release v => exact nested.joined.snoc trivial
    | close c free => exact nested.joined.snoc trivial
    | _ => exact nested.joined

/-- A thread about to complete its handle has no result yet. -/
theorem Handled.result_of_pending (handled : Handled s) {r : α}
    (doing : s.doing t = .steps (.complete r :: rest)) : s.result t = none := by
  have once := handled.once t
  have pending : 1 ≤ (s.doing t).pending.countP Micro.completes := by
    rw [doing]
    simp [Doing.pending, Micro.completes]
  cases known : s.result t with
  | none => rfl
  | some r =>
    rw [known] at once
    simp only [Option.toList_some, List.length_cons, List.length_nil] at once
    omega

/-- The results after a step: one handle may be completed. -/
theorem MicroChange.result (change : MicroChange s t m after pushed) {u : TaskId}
    (old : u < s.next) : after.result u = s.result u ∨
      (u = t ∧ ∃ r, m = .complete r ∧ after.result u = some r) := by
  cases change with
  | makeTask nursery =>
    left
    simp only [State.addTask]
    exact Function.update_of_ne (Nat.ne_of_lt old) _ _
  | complete r =>
    by_cases same : u = t
    · subst same
      exact Or.inr ⟨rfl, r, rfl, Function.update_self _ _ _⟩
    · exact Or.inl (Function.update_of_ne same _ _)
  | _ => exact Or.inl rfl

/-- A result stays. -/
theorem Handled.result_micro (handled : Handled s) (doing : s.doing t = .steps (m :: rest))
    (change : MicroChange s t m after pushed) {u : TaskId} {r : α}
    (known : s.result u = some r) : after.result u = some r := by
  have old : u < s.next := by
    by_contra outside
    rw [handled.unmade u (Nat.le_of_not_lt outside)] at known
    cases known
  rcases change.result old with same | ⟨rfl, r', rfl, -⟩
  · exact same.trans known
  · rw [handled.result_of_pending doing] at known
    cases known

/-- A step leads to no completion. -/
theorem MicroChange.completes (change : MicroChange s t m after pushed) :
    pushed.countP Micro.completes = 0 := by
  apply List.countP_eq_zero.mpr
  intro m' member
  cases change <;> simp at member
  all_goals grind [Micro.completes]

/-- A handle is completed at most once. -/
theorem Handled.once_micro (handled : Handled s) (formed : Formed s)
    (doing : s.doing t = .steps (m :: rest)) (change : MicroChange s t m after pushed)
    (u : TaskId) :
    ((after.stepped t pushed rest).frames u).countP Frame.isOnDone +
      ((after.stepped t pushed rest).doing u).pending.countP Micro.completes +
      ((after.stepped t pushed rest).result u).toList.length ≤ 1 := by
  show (after.frames u).countP Frame.isOnDone +
    ((after.stepped t pushed rest).doing u).pending.countP Micro.completes +
    (after.result u).toList.length ≤ 1
  have inside : t < s.next := formed.exists_doing (by simp [doing])
  have before := handled.once u
  by_cases same : u = t
  · subst same
    rw [stepped_self, change.frames inside]
    rw [doing] at before
    simp only [Doing.pending, List.countP_append, change.completes, Nat.zero_add] at before ⊢
    rcases change.result inside with unchanged | ⟨-, r, rfl, known⟩
    · rw [unchanged]
      have fewer := List.Sublist.countP_le (p := Micro.completes) (List.sublist_cons_self m rest)
      omega
    · rw [List.countP_cons_of_pos (by rfl), handled.result_of_pending doing] at before
      rw [known]
      simp only [Option.toList_none, List.length_nil, Option.toList_some,
        List.length_cons] at before ⊢
      omega
  · rw [stepped_doing formed change same]
    cases change with
    | makeTask nursery =>
      by_cases new : u = s.next
      · subst new
        rw [(formed.beyond s.next (Nat.le_refl _)).2]
        simp [State.addTask, Doing.pending, Frame.isOnDone]
      · simp only [State.addTask, Function.update_of_ne new]
        exact before
    | complete r =>
      simp only [Function.update_of_ne same]
      exact before
    | _ => exact before

/-- A completion recorded by a step is the handle's result. -/
theorem Handled.completed_micro (handled : Handled s) (doing : s.doing t = .steps (m :: rest))
    (change : MicroChange s t m after pushed) {u : TaskId} {r : α}
    (completed : .completed u r ∈ after.log) : after.result u = some r := by
  have known : .completed u r ∈ s.log ∨ (u = t ∧ after.result u = some r) := by
    cases change with
    | complete r' =>
      simp only [List.mem_append, List.mem_singleton, Event.completed.injEq] at completed
      rcases completed with old | ⟨rfl, rfl⟩
      · exact Or.inl old
      · exact Or.inr ⟨rfl, Function.update_self _ _ _⟩
    | makeTask nursery =>
      left
      cases nursery <;> simpa [State.addTask] using completed
    | cancelFirst v unflagged => exact Or.inl (by simpa using completed)
    | release v => exact Or.inl (by simpa using completed)
    | close c free => exact Or.inl (by simpa using completed)
    | _ => exact Or.inl completed
  rcases known with old | ⟨-, known⟩
  · exact handled.result_micro doing change (handled.completed u r old)
  · exact known

/-- An awaited result recorded before a step is the handle's result after it. -/
theorem Handled.awaited_micro (handled : Handled s) (doing : s.doing t = .steps (m :: rest))
    (change : MicroChange s t m after pushed) {u h : TaskId} {r : α}
    (awaited : .awaited u h r ∈ after.log) : after.result h = some r := by
  apply handled.result_micro doing change
  apply handled.awaited u
  cases change with
  | makeTask nursery => cases nursery <;> simpa [State.addTask] using awaited
  | cancelFirst v unflagged => simpa using awaited
  | release v => simpa using awaited
  | close c free => simpa using awaited
  | complete r => simpa using awaited
  | _ => exact awaited

/-- A step keeps the handles. -/
theorem Handled.micro (handled : Handled s) (formed : Formed s)
    (doing : s.doing t = .steps (m :: rest)) (change : MicroChange s t m after pushed) :
    Handled (after.stepped t pushed rest) := by
  have inside : t < s.next := formed.exists_doing (by simp [doing])
  have others : ∀ u, u ≠ t → (after.stepped t pushed rest).doing u = s.doing u :=
    fun u other => stepped_doing formed change other
  have away : ∀ u h b p, (after.stepped t pushed rest).doing u = .await h b p → u ≠ t := by
    rintro u h b p now rfl
    rw [stepped_self] at now
    cases now
  refine ⟨handled.once_micro formed doing change, ?_,
    fun u r => handled.completed_micro doing change,
    fun u h r => handled.awaited_micro doing change, ?_, ?_, ?_⟩
  · intro u outside
    show after.result u = none
    have old := handled.unmade u (Nat.le_trans change.next_le outside)
    cases change with
    | makeTask nursery =>
      have different : u ≠ s.next := Nat.ne_of_gt outside
      simp only [State.addTask, Function.update_of_ne different]
      exact old
    | complete r =>
      have different : u ≠ t := Nat.ne_of_gt (Nat.lt_of_lt_of_le inside outside)
      simp only [Function.update_of_ne different]
      exact old
    | _ => exact old
  · intro u h b p now
    show h < after.next
    rw [others u (away u h b p now)] at now
    exact Nat.lt_of_lt_of_le (handled.target u h b p now) change.next_le
  · intro u h p now undone
    show u ∈ after.awaiters h
    rw [others u (away u h true p now)] at now
    have target := handled.target u h true p now
    have before : s.result h = none := by
      cases known : s.result h with
      | none => rfl
      | some r =>
        exact absurd (undone.symm.trans (handled.result_micro doing change known)) (by simp)
    have there := handled.registered u h p now before
    cases change with
    | makeTask nursery =>
      simp only [State.addTask, Function.update_of_ne (Nat.ne_of_lt target)]
      exact there
    | complete r =>
      have different : h ≠ t := by
        rintro rfl
        simp at undone
      simp only [Function.update_of_ne different]
      exact there
    | _ => exact there
  · intro u h b p now sleeping
    rw [others u (away u h b p now)] at now
    have before := stepped_sleeping formed doing change (by rw [now]; rfl)
      (formed.exists_doing (by simp [now])) sleeping
    obtain ⟨rfl, done⟩ := handled.asleep u h b p now before
    refine ⟨rfl, ?_⟩
    rcases done with none | due
    · rcases change.result (handled.target u h true p now) with same | ⟨rfl, r, rfl, -⟩
      · exact Or.inl (same.trans none)
      · right
        have there := handled.registered u h p now none
        cases change
        exact Or.inr (stepped_pushed (by simpa using there))
    · exact Or.inr (stepped_due formed doing change due)

end Marked

end Fai.Scheduler
