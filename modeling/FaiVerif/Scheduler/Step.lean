import FaiVerif.Scheduler.State

/-!
# The steps of the scheduler

Every atomic step of `scheduler.rs`: spawning and completing tasks, cancelling them with the
cleanup masks, awaiting handles, joining nurseries, and sending to, receiving from and closing
channels. A run is any sequence of these steps, with the program's calls, the queue's order and
spurious wakes chosen freely.
-/

namespace Fai.Scheduler

variable {α : Type}

namespace State

/-- A new task: suspended before its first resume, its body inside its `on_done`. -/
def addTask (s : State α) (parent : TaskId) (nursery : Option NurseryId) : State α :=
  { s with
    next := s.next + 1
    isTask := Function.update s.isTask s.next true
    mode := Function.update s.mode s.next .parked
    doing := Function.update s.doing s.next (.steps [])
    frames := Function.update s.frames s.next [.onDone nursery]
    cancelled := Function.update s.cancelled s.next false
    cleanupDepth := Function.update s.cleanupDepth s.next 0
    children := Function.update s.children s.next []
    result := Function.update s.result s.next none
    awaiters := Function.update s.awaiters s.next []
    parent := Function.update s.parent s.next (if s.isTask parent then some parent else none)
    log := s.log ++ (nursery.map fun n => Event.spawned n s.next).toList }

/-- Registers the thread as a waiter and releases the lock. -/
def registerWaiter (s : State α) (t : TaskId) (c : ChanId) (op : ChanOp α) : State α :=
  { s with
    chan := Function.update s.chan c
      ((s.chan c).setWaiters op.side (s.waiterCount :: (s.chan c).waiters op.side))
    waiterCount := s.waiterCount + 1
    waiterTask := Function.update s.waiterTask s.waiterCount t
    active := Function.update s.active s.waiterCount true
    doing := Function.update s.doing t (.channel c op (.registered s.waiterCount)) }

/-- One step of a call that does not park, with the steps it leads to; none while the lock it
needs is held. -/
def micro (s : State α) (t : TaskId) : Micro α → Option (State α × List (Micro α))
  | .schedule u => some ({ s with queue := s.queue ++ [u] }, [])
  | .cancelTask u =>
    if s.cancelled u then some (s, [])
    else some ({ s with
      cancelled := Function.update s.cancelled u true
      log := s.log ++ [.cancelled u] }, [.cancelMask u])
  | .cancelMask u =>
    if s.cleanupDepth u ≠ 0 then some (s, [])
    else some (s, [.cancelChildren u, .schedule u])
  | .cancelChildren u =>
    some ({ s with children := Function.update s.children u (s.aliveChildren u) },
      (s.aliveChildren u).map .cancelTask)
  | .cancelHandle u => some (s, if s.held u then [.cancelTask u] else [])
  | .enter n =>
    some ({ s with live := Function.update s.live n (s.live n + 1) }, [.makeTask (some n)])
  | .makeTask nursery => some (s.addTask t nursery, [.registerChild s.next, .schedule s.next])
  | .registerChild u =>
    if s.isTask t then
      some ({ s with children := Function.update s.children t (s.aliveChildren t ++ [u]) },
        [.registerProbe u])
    else some (s, [])
  | .registerProbe u => some (s, if s.isCancelled t then [.cancelTask u] else [])
  | .take c side =>
    match (s.chan c).waiters side with
    | [] => some (s.unlock c, [])
    | w :: rest =>
      let popped := s.setChan c ((s.chan c).setWaiters side rest)
      if s.active w then some (popped.deactivate w, [.probe c side w])
      else some (popped, [.take c side])
  | .probe c side w =>
    if s.cancelled (s.waiterTask w) then some (s, [.probeMask c side w])
    else some (s.unlock c, [.schedule (s.waiterTask w)])
  | .probeMask c side w =>
    if s.cleanupDepth (s.waiterTask w) = 0 then some (s, [.take c side])
    else some (s.unlock c, [.schedule (s.waiterTask w)])
  | .release v => some (s.record (.released v), [])
  | .close c =>
    if (s.chan c).locked then none
    else some ((s.setChan c { s.chan c with closed := true, waiters := fun _ => [] }).record
        (.closed c),
      (((s.chan c).waiters .receive).reverse ++ ((s.chan c).waiters .send).reverse).map .closeWake)
  | .closeWake w =>
    if s.active w then some (s.deactivate w, [.schedule (s.waiterTask w)]) else some (s, [])
  | .unmask =>
    some ({ s with cleanupDepth := Function.update s.cleanupDepth t (s.cleanupDepth t - 1) },
      if s.cleanupDepth t = 1 then [.unmaskProbe] else [])
  | .unmaskProbe => some (s, if s.cancelled t then [.cancelChildren t] else [])
  | .complete r =>
    some ({ s with
      result := Function.update s.result t (some r)
      awaiters := Function.update s.awaiters t []
      log := s.log ++ [.completed t r] }, (s.awaiters t).map .schedule)
  | .childFinished n =>
    if s.live n = 1 then
      some ({ s with
        live := Function.update s.live n 0
        joiner := Function.update s.joiner n none }, (s.joiner n).toList.map .schedule)
    else some ({ s with live := Function.update s.live n (s.live n - 1) }, [])

/-- `chan_send` from its lock on, with the lock free. -/
def sendReady (s : State α) (t : TaskId) (c : ChanId) (v : α) : State α :=
  if s.isCancelled t then
    if !(s.chan c).closed && decide ((s.chan c).buf.length < (s.chan c).capacity) then
      (s.setChan c { s.chan c with locked := true }).setDoing t (.steps [.take c .send, .release v])
    else s.setDoing t (.steps [.release v])
  else if (s.chan c).closed then s.setDoing t (.steps [.release v])
  else if (s.chan c).buf.length < (s.chan c).capacity then
    ((s.setChan c { s.chan c with buf := (s.chan c).buf ++ [v], locked := true }).record
      (.accepted c v)).setDoing t (.steps [.take c .receive])
  else s.registerWaiter t c (.send v)

/-- `chan_recv` from its lock on, with the lock free. -/
def receiveReady (s : State α) (t : TaskId) (c : ChanId) : State α :=
  if s.isCancelled t then
    if (s.chan c).buf.isEmpty then (s.record (.nothing c t)).setDoing t (.steps [])
    else ((s.setChan c { s.chan c with locked := true }).record (.nothing c t)).setDoing t
      (.steps [.take c .receive])
  else
    match (s.chan c).buf with
    | v :: rest =>
      ((s.setChan c { s.chan c with buf := rest, locked := true }).record
        (.received c t v)).setDoing t (.steps [.take c .send])
    | [] =>
      if (s.chan c).closed then (s.record (.nothing c t)).setDoing t (.steps [])
      else s.registerWaiter t c .receive

/-- One step of a blocking channel operation; none while the lock it needs is held. -/
def channelStep (s : State α) (t : TaskId) (c : ChanId) (op : ChanOp α) :
    Stage → Option (State α)
  | .ready =>
    if (s.chan c).locked then none
    else
      match op with
      | .send v => some (s.sendReady t c v)
      | .receive => some (s.receiveReady t c)
  | .registered w => some ((s.setDoing t (.channel c op (.asleep w))).setMode t .parked)
  | .asleep w =>
    if s.active w then some ((s.deactivate w).setDoing t (.channel c op (.removing w)))
    else some (s.setDoing t (.channel c op .ready))
  | .removing w =>
    if (s.chan c).locked then none
    else some ((s.setChan c ((s.chan c).setWaiters op.side
      (((s.chan c).waiters op.side).filter fun entry => entry != w))).setDoing t
        (.channel c op .ready))

/-- One step of `await_handle`. -/
def awaitStep (s : State α) (t h : TaskId) (registered parking : Bool) : State α :=
  if parking then (s.setDoing t (.await h registered false)).setMode t .parked
  else
    match s.result h with
    | some r => (s.record (.awaited t h r)).setDoing t (.steps [])
    | none =>
      if registered then s.setDoing t (.await h true true)
      else { s with
        awaiters := Function.update s.awaiters h (s.awaiters h ++ [t])
        doing := Function.update s.doing t (.await h true true) }

/-- One step of `Nursery::join`. -/
def joinStep (s : State α) (t : TaskId) (n : NurseryId) (parking : Bool) : State α :=
  if parking then (s.setDoing t (.join n false)).setMode t .parked
  else if s.live n = 0 then
    { s with
      joiner := Function.update s.joiner n none
      doing := Function.update s.doing t (.steps [])
      log := s.log ++ [.joined n] }
  else
    { s with
      joiner := Function.update s.joiner n (some t)
      doing := Function.update s.doing t (.join n true) }

/-- The next step of a thread inside the runtime; a task with nothing left returns. -/
def advance (s : State α) (t : TaskId) : Option (State α) :=
  match s.doing t with
  | .steps (m :: rest) =>
    (s.micro t m).map fun after => after.1.setDoing t (.steps (after.2 ++ rest))
  | .steps [] =>
    if s.isTask t && (s.frames t).isEmpty then some (s.setMode t .finished) else none
  | .channel c op stage => s.channelStep t c op stage
  | .await h registered parking => some (s.awaitStep t h registered parking)
  | .join n parking => some (s.joinStep t n parking)
  | .park => some ((s.setDoing t (.steps [])).setMode t .parked)

end State

/-- A call of the program's code into the scheduler. -/
inductive Call (α : Type) where
  | channel (capacity : Nat)
  | send (chan : ChanId) (value : α)
  | receive (chan : ChanId)
  | close (chan : ChanId)
  | spawn (nursery : Option NurseryId)
  | cancel (task : TaskId)
  | await (task : TaskId)
  | scope
  | cleanup
  | park
  deriving DecidableEq

/-- A call that may park or that needs a current task. -/
def Call.needsTask : Call α → Bool
  | .send _ _ | .receive _ | .await _ | .scope | .cleanup | .park => true
  | .channel _ | .close _ | .spawn _ | .cancel _ => false

/-- Whether what a call names exists. -/
def Call.valid (s : State α) : Call α → Bool
  | .send c _ | .receive c | .close c => decide (c < s.chanCount) && !(s.chan c).dropped
  | .spawn (some n) => decide (n < s.nurseryCount)
  | .cancel h | .await h => decide (h < s.next) && s.isTask h
  | .channel _ | .spawn none | .scope | .cleanup | .park => true

namespace State

/-- The program's code in thread `t` makes a call. -/
def call (s : State α) (t : TaskId) : Call α → State α
  | .channel capacity =>
    { s with
      chanCount := s.chanCount + 1
      chan := Function.update s.chan s.chanCount
        { Chan.absent with capacity := max capacity 1, dropped := false } }
  | .send c v => (s.record (.sent c v)).setDoing t (.channel c (.send v) .ready)
  | .receive c => s.setDoing t (.channel c .receive .ready)
  | .close c => s.setDoing t (.steps [.close c])
  | .spawn none => s.setDoing t (.steps [.makeTask none])
  | .spawn (some n) => s.setDoing t (.steps [.enter n])
  | .cancel h => s.setDoing t (.steps [.cancelHandle h])
  | .await h => s.setDoing t (.await h false false)
  | .scope =>
    { s with
      nurseryCount := s.nurseryCount + 1
      opener := Function.update s.opener s.nurseryCount t
      live := Function.update s.live s.nurseryCount 0
      joiner := Function.update s.joiner s.nurseryCount none
      frames := Function.update s.frames t (.leave s.nurseryCount :: s.frames t) }
  | .cleanup =>
    { s with
      cleanupDepth := Function.update s.cleanupDepth t (s.cleanupDepth t + 1)
      frames := Function.update s.frames t (.unmask :: s.frames t) }
  | .park => s.setDoing t .park

/-- The program's code in thread `t` is in control. -/
def inUser (s : State α) (t : TaskId) : Bool :=
  s.mode t == .running && (s.doing t).idle && (!s.isTask t || !(s.frames t).isEmpty)

/-- A new thread of the host. -/
def addHost (s : State α) : State α :=
  { s with
    next := s.next + 1
    isTask := Function.update s.isTask s.next false
    mode := Function.update s.mode s.next .running
    doing := Function.update s.doing s.next (.steps [])
    frames := Function.update s.frames s.next []
    cancelled := Function.update s.cancelled s.next false
    cleanupDepth := Function.update s.cleanupDepth s.next 0
    children := Function.update s.children s.next []
    result := Function.update s.result s.next none
    awaiters := Function.update s.awaiters s.next []
    parent := Function.update s.parent s.next none }

/-- The last reference to a channel goes away: the values still buffered are released. -/
def dropChan (s : State α) (c : ChanId) : State α :=
  { s with
    chan := Function.update s.chan c { s.chan c with buf := [], dropped := true }
    log := s.log ++ (s.chan c).buf.map .released }

end State

/-- What the runtime does when the program's code returns `r` to an enclosing call. -/
def Frame.resume (r : α) : Frame → Doing α
  | .unmask => .steps [.unmask]
  | .leave n => .join n false
  | .onDone nursery => .steps (.complete r :: nursery.toList.map .childFinished)

/-- One choice of the run. -/
inductive Action (α : Type) where
  /-- A thread of the host starts. -/
  | host
  /-- The program's code in a thread makes a call. -/
  | call (task : TaskId) (call : Call α)
  /-- The program's code in a thread returns a value to the runtime call around it. -/
  | give (task : TaskId) (result : α)
  /-- A running thread takes its next step inside the runtime. -/
  | advance (task : TaskId)
  /-- `run_task`: a worker takes a suspended task off the queue and resumes it. -/
  | resume (task : TaskId)
  /-- `run_task`: a worker takes a finished task off the queue. -/
  | stale (task : TaskId)
  /-- A task is made runnable from outside, or for no reason. -/
  | wake (task : TaskId)
  /-- The last reference to a channel goes away. -/
  | dropChan (chan : ChanId)
  deriving DecidableEq

/-- The state after a choice, when it can be made. -/
def perform (s : State α) : Action α → Option (State α)
  | .host => some s.addHost
  | .call t c =>
    if s.inUser t && (s.isTask t || !c.needsTask) && c.valid s then some (s.call t c) else none
  | .give t r =>
    match s.frames t with
    | [] => none
    | f :: rest =>
      if s.inUser t then
        some ({ s with frames := Function.update s.frames t rest }.setDoing t (f.resume r))
      else none
  | .advance t => if s.mode t = .running then s.advance t else none
  | .resume t =>
    if s.mode t = .parked ∧ t ∈ s.queue then
      some ({ s with queue := s.queue.erase t }.setMode t .running)
    else none
  | .stale t =>
    if s.mode t = .finished ∧ t ∈ s.queue then some { s with queue := s.queue.erase t } else none
  | .wake t =>
    if s.mode t ≠ .finished ∧ s.isTask t then some { s with queue := s.queue ++ [t] } else none
  | .dropChan c =>
    if !(s.chan c).dropped && !(List.range s.next).any (fun t => (s.doing t).uses c) then
      some (s.dropChan c)
    else none

/-- One step of a run. -/
def Step (s s' : State α) : Prop := ∃ a, perform s a = some s'

/-- The states a run can reach. -/
inductive Reachable : State α → Prop where
  | initial : Reachable State.initial
  | step {s s' : State α} : Reachable s → Step s s' → Reachable s'

/-- The state after a sequence of choices. -/
def performAll (s : State α) : List (Action α) → Option (State α)
  | [] => some s
  | a :: rest => (perform s a).bind (performAll · rest)

/-- Everything a step of a call that does not park can do, with the steps it leads to. -/
inductive MicroChange (s : State α) (t : TaskId) :
    Micro α → State α → List (Micro α) → Prop where
  | schedule (u : TaskId) :
      MicroChange s t (.schedule u) { s with queue := s.queue ++ [u] } []
  | cancelAgain (u : TaskId) (flagged : s.cancelled u = true) :
      MicroChange s t (.cancelTask u) s []
  | cancelFirst (u : TaskId) (unflagged : s.cancelled u = false) :
      MicroChange s t (.cancelTask u) { s with
        cancelled := Function.update s.cancelled u true
        log := s.log ++ [.cancelled u] } [.cancelMask u]
  | cancelMasked (u : TaskId) (masked : s.cleanupDepth u ≠ 0) :
      MicroChange s t (.cancelMask u) s []
  | cancelOpen (u : TaskId) (unmasked : s.cleanupDepth u = 0) :
      MicroChange s t (.cancelMask u) s [.cancelChildren u, .schedule u]
  | cancelChildren (u : TaskId) :
      MicroChange s t (.cancelChildren u)
        { s with children := Function.update s.children u (s.aliveChildren u) }
        ((s.aliveChildren u).map .cancelTask)
  | cancelHandle (u : TaskId) :
      MicroChange s t (.cancelHandle u) s (if s.held u then [.cancelTask u] else [])
  | enter (n : NurseryId) :
      MicroChange s t (.enter n) { s with live := Function.update s.live n (s.live n + 1) }
        [.makeTask (some n)]
  | makeTask (nursery : Option NurseryId) :
      MicroChange s t (.makeTask nursery) (s.addTask t nursery)
        [.registerChild s.next, .schedule s.next]
  | registerChild (u : TaskId) (task : s.isTask t = true) :
      MicroChange s t (.registerChild u)
        { s with children := Function.update s.children t (s.aliveChildren t ++ [u]) }
        [.registerProbe u]
  | registerNone (u : TaskId) (host : s.isTask t = false) :
      MicroChange s t (.registerChild u) s []
  | registerProbe (u : TaskId) :
      MicroChange s t (.registerProbe u) s (if s.isCancelled t then [.cancelTask u] else [])
  | takeNone (c : ChanId) (side : Side) (empty : (s.chan c).waiters side = []) :
      MicroChange s t (.take c side) (s.unlock c) []
  | takeActive (c : ChanId) (side : Side) (w : WaiterId) (rest : List WaiterId)
      (stack : (s.chan c).waiters side = w :: rest) (active : s.active w = true) :
      MicroChange s t (.take c side)
        ((s.setChan c ((s.chan c).setWaiters side rest)).deactivate w)
        [.probe c side w]
  | takeInactive (c : ChanId) (side : Side) (w : WaiterId) (rest : List WaiterId)
      (stack : (s.chan c).waiters side = w :: rest) (inactive : s.active w = false) :
      MicroChange s t (.take c side)
        (s.setChan c ((s.chan c).setWaiters side rest))
        [.take c side]
  | probeFlagged (c : ChanId) (side : Side) (w : WaiterId)
      (flagged : s.cancelled (s.waiterTask w) = true) :
      MicroChange s t (.probe c side w) s [.probeMask c side w]
  | probeFree (c : ChanId) (side : Side) (w : WaiterId)
      (unflagged : s.cancelled (s.waiterTask w) = false) :
      MicroChange s t (.probe c side w) (s.unlock c) [.schedule (s.waiterTask w)]
  | probeSkip (c : ChanId) (side : Side) (w : WaiterId)
      (unmasked : s.cleanupDepth (s.waiterTask w) = 0) :
      MicroChange s t (.probeMask c side w) s [.take c side]
  | probeMasked (c : ChanId) (side : Side) (w : WaiterId)
      (masked : s.cleanupDepth (s.waiterTask w) ≠ 0) :
      MicroChange s t (.probeMask c side w) (s.unlock c) [.schedule (s.waiterTask w)]
  | release (v : α) : MicroChange s t (.release v) (s.record (.released v)) []
  | close (c : ChanId) (free : (s.chan c).locked = false) :
      MicroChange s t (.close c)
        ((s.setChan c { s.chan c with closed := true, waiters := fun _ => [] }).record (.closed c))
        ((((s.chan c).waiters .receive).reverse ++ ((s.chan c).waiters .send).reverse).map
          .closeWake)
  | closeActive (w : WaiterId) (active : s.active w = true) :
      MicroChange s t (.closeWake w) (s.deactivate w) [.schedule (s.waiterTask w)]
  | closeInactive (w : WaiterId) (inactive : s.active w = false) :
      MicroChange s t (.closeWake w) s []
  | unmask :
      MicroChange s t .unmask
        { s with cleanupDepth := Function.update s.cleanupDepth t (s.cleanupDepth t - 1) }
        (if s.cleanupDepth t = 1 then [.unmaskProbe] else [])
  | unmaskProbe :
      MicroChange s t .unmaskProbe s (if s.cancelled t then [.cancelChildren t] else [])
  | complete (r : α) :
      MicroChange s t (.complete r) { s with
        result := Function.update s.result t (some r)
        awaiters := Function.update s.awaiters t []
        log := s.log ++ [.completed t r] } ((s.awaiters t).map .schedule)
  | lastFinished (n : NurseryId) (last : s.live n = 1) :
      MicroChange s t (.childFinished n) { s with
        live := Function.update s.live n 0
        joiner := Function.update s.joiner n none } ((s.joiner n).toList.map .schedule)
  | childFinished (n : NurseryId) (more : s.live n ≠ 1) :
      MicroChange s t (.childFinished n)
        { s with live := Function.update s.live n (s.live n - 1) } []

/-- Every step of a call that does not park is one of the changes. -/
theorem microChange_of_micro {s after : State α} {t : TaskId} {m : Micro α}
    {pushed : List (Micro α)} (taken : s.micro t m = some (after, pushed)) :
    MicroChange s t m after pushed := by
  cases m <;> simp only [State.micro, Option.some.injEq, Prod.mk.injEq] at taken
  case schedule u => obtain ⟨rfl, rfl⟩ := taken; exact .schedule u
  case cancelTask u =>
    split at taken <;> simp only [Option.some.injEq, Prod.mk.injEq] at taken <;>
      obtain ⟨rfl, rfl⟩ := taken
    · exact .cancelAgain u ‹_›
    · exact .cancelFirst u (eq_false_of_ne_true ‹_›)
  case cancelMask u =>
    split at taken <;> simp only [Option.some.injEq, Prod.mk.injEq] at taken <;>
      obtain ⟨rfl, rfl⟩ := taken
    · exact .cancelMasked u ‹_›
    · exact .cancelOpen u (Decidable.not_not.mp ‹_›)
  case cancelChildren u => obtain ⟨rfl, rfl⟩ := taken; exact .cancelChildren u
  case cancelHandle u => obtain ⟨rfl, rfl⟩ := taken; exact .cancelHandle u
  case enter n => obtain ⟨rfl, rfl⟩ := taken; exact .enter n
  case makeTask nursery => obtain ⟨rfl, rfl⟩ := taken; exact .makeTask nursery
  case registerChild u =>
    split at taken <;> simp only [Option.some.injEq, Prod.mk.injEq] at taken <;>
      obtain ⟨rfl, rfl⟩ := taken
    · exact .registerChild u ‹_›
    · exact .registerNone u (eq_false_of_ne_true ‹_›)
  case registerProbe u => obtain ⟨rfl, rfl⟩ := taken; exact .registerProbe u
  case take c side =>
    split at taken
    next empty =>
      simp only [Option.some.injEq, Prod.mk.injEq] at taken
      obtain ⟨rfl, rfl⟩ := taken
      exact .takeNone c side empty
    next w rest stack =>
      split at taken <;> simp only [Option.some.injEq, Prod.mk.injEq] at taken <;>
        obtain ⟨rfl, rfl⟩ := taken
      · exact .takeActive c side w rest stack ‹_›
      · exact .takeInactive c side w rest stack (eq_false_of_ne_true ‹_›)
  case probe c side w =>
    split at taken <;> simp only [Option.some.injEq, Prod.mk.injEq] at taken <;>
      obtain ⟨rfl, rfl⟩ := taken
    · exact .probeFlagged c side w ‹_›
    · exact .probeFree c side w (eq_false_of_ne_true ‹_›)
  case probeMask c side w =>
    split at taken <;> simp only [Option.some.injEq, Prod.mk.injEq] at taken <;>
      obtain ⟨rfl, rfl⟩ := taken
    · exact .probeSkip c side w ‹_›
    · exact .probeMasked c side w ‹_›
  case release v => obtain ⟨rfl, rfl⟩ := taken; exact .release v
  case close c =>
    split at taken
    · cases taken
    · simp only [Option.some.injEq, Prod.mk.injEq] at taken
      obtain ⟨rfl, rfl⟩ := taken
      exact .close c (eq_false_of_ne_true ‹_›)
  case closeWake w =>
    split at taken <;> simp only [Option.some.injEq, Prod.mk.injEq] at taken <;>
      obtain ⟨rfl, rfl⟩ := taken
    · exact .closeActive w ‹_›
    · exact .closeInactive w (eq_false_of_ne_true ‹_›)
  case unmask => obtain ⟨rfl, rfl⟩ := taken; exact .unmask
  case unmaskProbe => obtain ⟨rfl, rfl⟩ := taken; exact .unmaskProbe
  case complete r => obtain ⟨rfl, rfl⟩ := taken; exact .complete r
  case childFinished n =>
    split at taken <;> simp only [Option.some.injEq, Prod.mk.injEq] at taken <;>
      obtain ⟨rfl, rfl⟩ := taken
    · exact .lastFinished n ‹_›
    · exact .childFinished n ‹_›

/-- Everything a step of a blocking channel operation can do. -/
inductive ChannelChange (s : State α) (t : TaskId) (c : ChanId) :
    ChanOp α → Stage → State α → Prop where
  | sendPass (v : α) (cancelled : s.isCancelled t = true) (opened : (s.chan c).closed = false)
      (room : (s.chan c).buf.length < (s.chan c).capacity) :
      ChannelChange s t c (.send v) .ready
        ((s.setChan c { s.chan c with locked := true }).setDoing t
          (.steps [.take c .send, .release v]))
  | sendCancelled (v : α) (cancelled : s.isCancelled t = true)
      (noSlot : (s.chan c).closed = true ∨ (s.chan c).capacity ≤ (s.chan c).buf.length) :
      ChannelChange s t c (.send v) .ready (s.setDoing t (.steps [.release v]))
  | sendClosed (v : α) (uncancelled : s.isCancelled t = false)
      (closed : (s.chan c).closed = true) :
      ChannelChange s t c (.send v) .ready (s.setDoing t (.steps [.release v]))
  | sendAccept (v : α) (uncancelled : s.isCancelled t = false)
      (opened : (s.chan c).closed = false)
      (room : (s.chan c).buf.length < (s.chan c).capacity) :
      ChannelChange s t c (.send v) .ready
        (((s.setChan c { s.chan c with buf := (s.chan c).buf ++ [v], locked := true }).record
          (.accepted c v)).setDoing t (.steps [.take c .receive]))
  | sendWait (v : α) (uncancelled : s.isCancelled t = false)
      (opened : (s.chan c).closed = false)
      (full : (s.chan c).capacity ≤ (s.chan c).buf.length) :
      ChannelChange s t c (.send v) .ready (s.registerWaiter t c (.send v))
  | receiveCancelled (cancelled : s.isCancelled t = true) (empty : (s.chan c).buf = []) :
      ChannelChange s t c .receive .ready
        ((s.record (.nothing c t)).setDoing t (.steps []))
  | receivePass (cancelled : s.isCancelled t = true) (loaded : (s.chan c).buf ≠ []) :
      ChannelChange s t c .receive .ready
        (((s.setChan c { s.chan c with locked := true }).record (.nothing c t)).setDoing t
          (.steps [.take c .receive]))
  | receiveTake (v : α) (rest : List α) (uncancelled : s.isCancelled t = false)
      (loaded : (s.chan c).buf = v :: rest) :
      ChannelChange s t c .receive .ready
        (((s.setChan c { s.chan c with buf := rest, locked := true }).record
          (.received c t v)).setDoing t (.steps [.take c .send]))
  | receiveClosed (uncancelled : s.isCancelled t = false) (empty : (s.chan c).buf = [])
      (closed : (s.chan c).closed = true) :
      ChannelChange s t c .receive .ready
        ((s.record (.nothing c t)).setDoing t (.steps []))
  | receiveWait (uncancelled : s.isCancelled t = false) (empty : (s.chan c).buf = [])
      (opened : (s.chan c).closed = false) :
      ChannelChange s t c .receive .ready (s.registerWaiter t c .receive)
  | suspend (op : ChanOp α) (w : WaiterId) :
      ChannelChange s t c op (.registered w)
        ((s.setDoing t (.channel c op (.asleep w))).setMode t .parked)
  | wakeActive (op : ChanOp α) (w : WaiterId) (active : s.active w = true) :
      ChannelChange s t c op (.asleep w)
        ((s.deactivate w).setDoing t (.channel c op (.removing w)))
  | wakeInactive (op : ChanOp α) (w : WaiterId) (inactive : s.active w = false) :
      ChannelChange s t c op (.asleep w) (s.setDoing t (.channel c op .ready))
  | remove (op : ChanOp α) (w : WaiterId) :
      ChannelChange s t c op (.removing w)
        ((s.setChan c ((s.chan c).setWaiters op.side
          (((s.chan c).waiters op.side).filter fun entry => entry != w))).setDoing t
            (.channel c op .ready))

/-- `chan_send` with the lock free does one of the changes. -/
theorem channelChange_sendReady (s : State α) (t : TaskId) (c : ChanId) (v : α) :
    ChannelChange s t c (.send v) .ready (s.sendReady t c v) := by
  unfold State.sendReady
  split
  next cancelled =>
    split
    next slot =>
      simp only [Bool.and_eq_true, Bool.not_eq_true', decide_eq_true_eq] at slot
      exact .sendPass v cancelled slot.1 slot.2
    next noSlot =>
      refine .sendCancelled v cancelled ?_
      by_cases closed : (s.chan c).closed = true
      · exact Or.inl closed
      · right
        simpa [closed] using noSlot
  next uncancelled =>
    have uncancelled := eq_false_of_ne_true uncancelled
    split
    next closed => exact .sendClosed v uncancelled closed
    next opened =>
      have opened := eq_false_of_ne_true opened
      split
      next room => exact .sendAccept v uncancelled opened room
      next full => exact .sendWait v uncancelled opened (Nat.le_of_not_lt full)

/-- `chan_recv` with the lock free does one of the changes. -/
theorem channelChange_receiveReady (s : State α) (t : TaskId) (c : ChanId) :
    ChannelChange s t c .receive .ready (s.receiveReady t c) := by
  unfold State.receiveReady
  split
  next cancelled =>
    split
    next empty => exact .receiveCancelled cancelled (List.isEmpty_iff.mp empty)
    next loaded => exact .receivePass cancelled (by simpa using loaded)
  next uncancelled =>
    have uncancelled := eq_false_of_ne_true uncancelled
    split
    next v rest loaded => exact .receiveTake v rest uncancelled loaded
    next empty =>
      split
      next closed => exact .receiveClosed uncancelled empty closed
      next opened => exact .receiveWait uncancelled empty (eq_false_of_ne_true opened)

/-- Every step of a blocking channel operation is one of the changes. -/
theorem channelChange_of_step {s s' : State α} {t : TaskId} {c : ChanId} {op : ChanOp α}
    {stage : Stage} (taken : s.channelStep t c op stage = some s') :
    ChannelChange s t c op stage s' := by
  cases stage with
  | ready =>
    simp only [State.channelStep] at taken
    split at taken
    · cases taken
    · cases op with
      | send v =>
        cases taken
        exact channelChange_sendReady s t c v
      | receive =>
        cases taken
        exact channelChange_receiveReady s t c
  | registered w =>
    cases taken
    exact .suspend op w
  | asleep w =>
    simp only [State.channelStep] at taken
    split at taken
    next active =>
      cases taken
      exact .wakeActive op w active
    next inactive =>
      cases taken
      exact .wakeInactive op w (eq_false_of_ne_true inactive)
  | removing w =>
    simp only [State.channelStep] at taken
    split at taken
    · cases taken
    · cases taken
      exact .remove op w

/-- Everything one step can do. -/
inductive Change (s : State α) : State α → Prop where
  | host : Change s s.addHost
  | call (t : TaskId) (c : Call α) (control : s.inUser t = true)
      (allowed : s.isTask t = true ∨ c.needsTask = false) (valid : c.valid s = true) :
      Change s (s.call t c)
  | give (t : TaskId) (r : α) (f : Frame) (rest : List Frame) (stack : s.frames t = f :: rest)
      (control : s.inUser t = true) :
      Change s ({ s with frames := Function.update s.frames t rest }.setDoing t (f.resume r))
  | micro (t : TaskId) (m : Micro α) (rest : List (Micro α)) (after : State α)
      (pushed : List (Micro α)) (running : s.mode t = .running)
      (doing : s.doing t = .steps (m :: rest)) (taken : MicroChange s t m after pushed) :
      Change s (after.setDoing t (.steps (pushed ++ rest)))
  | finish (t : TaskId) (running : s.mode t = .running) (doing : s.doing t = .steps [])
      (task : s.isTask t = true) (stack : s.frames t = []) : Change s (s.setMode t .finished)
  | channel (t : TaskId) (c : ChanId) (op : ChanOp α) (stage : Stage) (s' : State α)
      (running : s.mode t = .running) (doing : s.doing t = .channel c op stage)
      (taken : ChannelChange s t c op stage s') : Change s s'
  | await (t h : TaskId) (registered parking : Bool) (running : s.mode t = .running)
      (doing : s.doing t = .await h registered parking) :
      Change s (s.awaitStep t h registered parking)
  | join (t : TaskId) (n : NurseryId) (parking : Bool) (running : s.mode t = .running)
      (doing : s.doing t = .join n parking) : Change s (s.joinStep t n parking)
  | park (t : TaskId) (running : s.mode t = .running) (doing : s.doing t = .park) :
      Change s ((s.setDoing t (.steps [])).setMode t .parked)
  | resume (t : TaskId) (parked : s.mode t = .parked) (queued : t ∈ s.queue) :
      Change s ({ s with queue := s.queue.erase t }.setMode t .running)
  | stale (t : TaskId) (finished : s.mode t = .finished) (queued : t ∈ s.queue) :
      Change s { s with queue := s.queue.erase t }
  | wake (t : TaskId) (unfinished : s.mode t ≠ .finished) (task : s.isTask t = true) :
      Change s { s with queue := s.queue ++ [t] }
  | dropChan (c : ChanId) (present : (s.chan c).dropped = false)
      (unused : ∀ t, t < s.next → (s.doing t).uses c = false) : Change s (s.dropChan c)

/-- A running thread's step inside the runtime is one of the changes. -/
theorem change_of_advance {s s' : State α} {t : TaskId} (running : s.mode t = .running)
    (taken : s.advance t = some s') : Change s s' := by
  unfold State.advance at taken
  split at taken
  next m rest doing =>
    obtain ⟨after, moved, rfl⟩ := Option.map_eq_some_iff.mp taken
    exact .micro t m rest after.1 after.2 running doing (microChange_of_micro moved)
  next doing =>
    split at taken
    next ended =>
      simp only [Bool.and_eq_true, List.isEmpty_iff] at ended
      cases taken
      exact .finish t running doing ended.1 ended.2
    next => cases taken
  next c op stage doing =>
    exact .channel t c op stage s' running doing (channelChange_of_step taken)
  next h registered parking doing =>
    cases taken
    exact .await t h registered parking running doing
  next n parking doing =>
    cases taken
    exact .join t n parking running doing
  next doing =>
    cases taken
    exact .park t running doing

/-- Every step is one of the changes. -/
theorem change_of_step {s s' : State α} (step : Step s s') : Change s s' := by
  obtain ⟨a, taken⟩ := step
  cases a with
  | host =>
    cases taken
    exact .host
  | call t c =>
    simp only [perform, Bool.and_eq_true, Bool.or_eq_true, Bool.not_eq_true'] at taken
    split at taken
    next enabled =>
      cases taken
      exact .call t c enabled.1.1 enabled.1.2 enabled.2
    next => cases taken
  | give t r =>
    simp only [perform] at taken
    split at taken
    next => cases taken
    next f rest stack =>
      split at taken
      next control =>
        cases taken
        exact .give t r f rest stack control
      next => cases taken
  | advance t =>
    simp only [perform] at taken
    split at taken
    next running => exact change_of_advance running taken
    next => cases taken
  | resume t =>
    simp only [perform] at taken
    split at taken
    next enabled =>
      cases taken
      exact .resume t enabled.1 enabled.2
    next => cases taken
  | stale t =>
    simp only [perform] at taken
    split at taken
    next enabled =>
      cases taken
      exact .stale t enabled.1 enabled.2
    next => cases taken
  | wake t =>
    simp only [perform] at taken
    split at taken
    next enabled =>
      cases taken
      exact .wake t enabled.1 enabled.2
    next => cases taken
  | dropChan c =>
    simp only [perform, Bool.and_eq_true, Bool.not_eq_true'] at taken
    split at taken
    next enabled =>
      cases taken
      refine .dropChan c enabled.1 ?_
      intro t inside
      have none := List.any_eq_false.mp enabled.2 t (List.mem_range.mpr inside)
      simpa using none
    next => cases taken

/-- What a sequence of choices leads to is reachable. -/
theorem Reachable.performAll {s s' : State α} (reached : Reachable s) (actions : List (Action α))
    (ran : Scheduler.performAll s actions = some s') : Reachable s' := by
  induction actions generalizing s with
  | nil =>
    simp only [Scheduler.performAll, Option.some.injEq] at ran
    exact ran ▸ reached
  | cons a rest ih =>
    obtain ⟨middle, first, later⟩ := Option.bind_eq_some_iff.mp ran
    exact ih (reached.step ⟨a, first⟩) later

/-- An invariant: it holds at the start and every step from a reachable state keeps it. -/
theorem Reachable.invariant {P : State α → Prop} (start : P State.initial)
    (keep : ∀ s s', Reachable s → P s → Change s s' → P s') {s : State α} (reached : Reachable s) :
    P s := by
  induction reached with
  | initial => exact start
  | step before taken ih => exact keep _ _ before ih (change_of_step taken)

end Fai.Scheduler
