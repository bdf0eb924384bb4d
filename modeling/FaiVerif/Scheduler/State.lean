import Mathlib.Logic.Function.Basic
import Mathlib.Data.List.Basic
import Mathlib.Tactic.Common

/-!
# The state of the green-task scheduler

The shared state of `scheduler.rs`: the tasks with their cancellation flags and cleanup depths, the
run queue, the handles, the nurseries and the bounded channels. A worker's progress inside a runtime
call is the list of atomic steps it still has to take, so every lock-protected section and every
atomic access of the source is one step that other threads may come between.
-/

namespace Fai.Scheduler

/-- A thread: a green task, or a thread of the host that calls into the scheduler. -/
abbrev TaskId := Nat

/-- A channel. -/
abbrev ChanId := Nat

/-- One park attempt on a channel, the source's `ChannelWaiter`. -/
abbrev WaiterId := Nat

/-- A nursery. -/
abbrev NurseryId := Nat

/-- The two waiting lists of a channel, the source's `ChannelWaitKind`. -/
inductive Side where
  | send
  | receive
  deriving DecidableEq

/-- A blocking channel operation. -/
inductive ChanOp (α : Type) where
  | send (value : α)
  | receive
  deriving DecidableEq

/-- The waiting list an operation parks on. -/
def ChanOp.side {α : Type} : ChanOp α → Side
  | .send _ => .send
  | .receive => .receive

/-- Where a channel operation stands in its retry loop. -/
inductive Stage where
  /-- About to lock the channel. -/
  | ready
  /-- Registered, the lock released, about to suspend. -/
  | registered (waiter : WaiterId)
  /-- Suspended, and after the wake about to deactivate the registration. -/
  | asleep (waiter : WaiterId)
  /-- The registration was still active: about to lock the channel and remove it. -/
  | removing (waiter : WaiterId)
  deriving DecidableEq

/-- An atomic step of the runtime that never parks. -/
inductive Micro (α : Type) where
  /-- `schedule`: push a task to the run queue. -/
  | schedule (task : TaskId)
  /-- `cancel_task`: swap the flag. -/
  | cancelTask (task : TaskId)
  /-- `cancel_task` after the swap: load the cleanup depth. -/
  | cancelMask (task : TaskId)
  /-- `cancel_children`: snapshot the children under their lock. -/
  | cancelChildren (task : TaskId)
  /-- `cancel_handle`: upgrade the handle's link to its task. -/
  | cancelHandle (task : TaskId)
  /-- `spawn_tracked`: count the child in its nursery. -/
  | enter (nursery : NurseryId)
  /-- `spawn_tracked`: build the task and its handle. -/
  | makeTask (nursery : Option NurseryId)
  /-- `register_child`: push the child under the parent's children lock. -/
  | registerChild (child : TaskId)
  /-- `register_child` after the push: load the parent's own flag and depth. -/
  | registerProbe (child : TaskId)
  /-- `take_channel_waiter`: pop and deactivate one registration under the channel lock. -/
  | take (chan : ChanId) (side : Side)
  /-- `take_channel_waiter`: load the flag of a registration's task. -/
  | probe (chan : ChanId) (side : Side) (waiter : WaiterId)
  /-- `take_channel_waiter`: load the cleanup depth of a flagged task. -/
  | probeMask (chan : ChanId) (side : Side) (waiter : WaiterId)
  /-- `fai_drop` of a value that was not sent. -/
  | release (value : α)
  /-- `chan_close`: close and take both waiting lists under the lock. -/
  | close (chan : ChanId)
  /-- `chan_close`: deactivate one taken registration. -/
  | closeWake (waiter : WaiterId)
  /-- `CleanupGuard::drop`: lower the cleanup depth. -/
  | unmask
  /-- `CleanupGuard::drop` after the last mask: load the flag. -/
  | unmaskProbe
  /-- `complete`: store the result and take the awaiters under the handle lock. -/
  | complete (result : α)
  /-- `Nursery::child_finished`. -/
  | childFinished (nursery : NurseryId)
  deriving DecidableEq

/-- What a thread is doing inside the runtime. -/
inductive Doing (α : Type) where
  /-- The steps left of calls that do not park; none while the program's own code runs. -/
  | steps (rest : List (Micro α))
  /-- A `chan_send` or `chan_recv`. -/
  | channel (chan : ChanId) (op : ChanOp α) (stage : Stage)
  /-- An `await_handle`, with its `registered` flag; `parking` when about to suspend. -/
  | await (task : TaskId) (registered parking : Bool)
  /-- A `Nursery::join`; `parking` when about to suspend. -/
  | join (nursery : NurseryId) (parking : Bool)
  /-- A park outside this module's own objects, on the reactor or the blocking pool. -/
  | park
  deriving DecidableEq

/-- A runtime call that encloses the program's code on a thread's stack. -/
inductive Frame where
  /-- The cleanup guard of a `cleanup` call. -/
  | unmask
  /-- The join of a `scope` call. -/
  | leave (nursery : NurseryId)
  /-- A task's `on_done`. -/
  | onDone (nursery : Option NurseryId)
  deriving DecidableEq

/-- Whether a thread runs, is suspended, or has returned. -/
inductive Mode where
  | running
  | parked
  | finished
  deriving DecidableEq

/-- A bounded channel, the source's `Chan` with its `ChanState`. -/
structure Chan (α : Type) where
  /-- The buffered values, first to be received first. -/
  buf : List α
  closed : Bool
  /-- The two stacks of registrations, last pushed first. -/
  waiters : Side → List WaiterId
  capacity : Nat
  /-- Whether a step left the channel's lock held for the next. -/
  locked : Bool
  /-- Whether the last reference to the channel is gone. -/
  dropped : Bool

/-- What the history of a run records. -/
inductive Event (α : Type) where
  /-- A `chan_send` was called. -/
  | sent (chan : ChanId) (value : α)
  /-- A value went into the buffer. -/
  | accepted (chan : ChanId) (value : α)
  /-- A `chan_recv` returned a value. -/
  | received (chan : ChanId) (task : TaskId) (value : α)
  /-- A `chan_recv` returned `None`. -/
  | nothing (chan : ChanId) (task : TaskId)
  /-- A value was released. -/
  | released (value : α)
  /-- A channel was closed. -/
  | closed (chan : ChanId)
  /-- A task's cancellation flag was set. -/
  | cancelled (task : TaskId)
  /-- A task was spawned into a nursery. -/
  | spawned (nursery : NurseryId) (task : TaskId)
  /-- A task's handle was completed. -/
  | completed (task : TaskId) (result : α)
  /-- A task's `await_handle` returned a result. -/
  | awaited (waiting task : TaskId) (result : α)
  /-- The join of a `scope` call returned. -/
  | joined (nursery : NurseryId)
  deriving DecidableEq

/-- The whole state. -/
structure State (α : Type) where
  /-- The number of threads made so far. -/
  next : Nat
  /-- Whether a thread is a green task. -/
  isTask : TaskId → Bool
  mode : TaskId → Mode
  doing : TaskId → Doing α
  /-- The runtime calls around each thread's program code, innermost first. -/
  frames : TaskId → List Frame
  cancelled : TaskId → Bool
  cleanupDepth : TaskId → Nat
  /-- The weak links of the cancellation tree. -/
  children : TaskId → List TaskId
  /-- The task whose code spawned a task. -/
  parent : TaskId → Option TaskId
  /-- The result of each completed handle. -/
  result : TaskId → Option α
  awaiters : TaskId → List TaskId
  /-- The tasks made runnable, first pushed first. -/
  queue : List TaskId
  chanCount : Nat
  chan : ChanId → Chan α
  waiterCount : Nat
  /-- The task a registration belongs to. -/
  waiterTask : WaiterId → TaskId
  /-- Whether a registration can still take a notification. -/
  active : WaiterId → Bool
  nurseryCount : Nat
  /-- The task whose `scope` call made a nursery, the only one to join it. -/
  opener : NurseryId → TaskId
  live : NurseryId → Nat
  joiner : NurseryId → Option TaskId
  /-- What has happened, first event first. -/
  log : List (Event α)

variable {α : Type}

/-- A channel that does not exist yet. -/
def Chan.absent : Chan α :=
  { buf := [], closed := false, waiters := fun _ => [], capacity := 0, locked := false,
    dropped := true }

/-- Replaces one waiting list of a channel. -/
def Chan.setWaiters (ch : Chan α) (side : Side) (now : List WaiterId) : Chan α :=
  { ch with waiters := Function.update ch.waiters side now }

/-- The buffer is kept. -/
@[simp, grind =] theorem Chan.setWaiters_buf (ch : Chan α) (side : Side) (now : List WaiterId) :
    (ch.setWaiters side now).buf = ch.buf := rfl

/-- Whether the channel is closed is kept. -/
@[simp, grind =] theorem Chan.setWaiters_closed (ch : Chan α) (side : Side) (now : List WaiterId) :
    (ch.setWaiters side now).closed = ch.closed := rfl

/-- The capacity is kept. -/
@[simp, grind =] theorem Chan.setWaiters_capacity (ch : Chan α) (side : Side)
    (now : List WaiterId) :
    (ch.setWaiters side now).capacity = ch.capacity := rfl

/-- Whether the channel is dropped is kept. -/
@[simp, grind =] theorem Chan.setWaiters_dropped (ch : Chan α) (side : Side) (now : List WaiterId) :
    (ch.setWaiters side now).dropped = ch.dropped := rfl

/-- The lists after one is replaced. -/
@[grind =] theorem Chan.setWaiters_waiters (ch : Chan α) (side other : Side)
    (now : List WaiterId) :
    (ch.setWaiters side now).waiters other = if other = side then now else ch.waiters other :=
  Function.update_apply _ _ _ _

/-- The state before anything has run. -/
def State.initial : State α :=
  { next := 0, isTask := fun _ => false, mode := fun _ => .finished,
    doing := fun _ => .steps [], frames := fun _ => [], cancelled := fun _ => false,
    cleanupDepth := fun _ => 0, children := fun _ => [], parent := fun _ => none,
    result := fun _ => none, awaiters := fun _ => [], queue := [], chanCount := 0,
    chan := fun _ => Chan.absent, waiterCount := 0, waiterTask := fun _ => 0,
    active := fun _ => false, nurseryCount := 0, opener := fun _ => 0, live := fun _ => 0,
    joiner := fun _ => none, log := [] }

/-- The steps a thread still has to take in calls that do not park. -/
def Doing.pending : Doing α → List (Micro α)
  | .steps rest => rest
  | _ => []

/-- Whether the program's own code is in control. -/
def Doing.idle : Doing α → Bool
  | .steps rest => rest.isEmpty
  | _ => false

/-- Whether a step works on a channel. -/
def Micro.uses (c : ChanId) : Micro α → Bool
  | .take d _ | .probe d _ _ | .probeMask d _ _ | .close d => d == c
  | _ => false

/-- Whether a thread's call holds a reference to a channel. -/
def Doing.uses (c : ChanId) : Doing α → Bool
  | .steps rest => rest.any (Micro.uses c)
  | .channel d _ _ => d == c
  | _ => false

namespace State

/-- Replaces what a thread is doing. -/
@[simp] def setDoing (s : State α) (t : TaskId) (now : Doing α) : State α :=
  { s with doing := Function.update s.doing t now }

/-- Replaces whether a thread runs. -/
@[simp] def setMode (s : State α) (t : TaskId) (now : Mode) : State α :=
  { s with mode := Function.update s.mode t now }

/-- Replaces a channel. -/
@[simp] def setChan (s : State α) (c : ChanId) (now : Chan α) : State α :=
  { s with chan := Function.update s.chan c now }

/-- Deactivates a registration. -/
@[simp] def deactivate (s : State α) (w : WaiterId) : State α :=
  { s with active := Function.update s.active w false }

/-- Records an event. -/
@[simp] def record (s : State α) (e : Event α) : State α := { s with log := s.log ++ [e] }

/-- Whether a task's cancellation is in effect: flagged, and outside every cleanup section. -/
def isCancelled (s : State α) (t : TaskId) : Bool := s.cancelled t && s.cleanupDepth t == 0

/-- The lock of a channel released. -/
@[simp] def unlock (s : State α) (c : ChanId) : State α :=
  s.setChan c { s.chan c with locked := false }

/-- Whether a pending step holds a reference to a task. -/
def holds (s : State α) (t : TaskId) : Micro α → Bool
  | .schedule u | .cancelTask u | .cancelMask u | .cancelChildren u | .registerChild u
  | .registerProbe u => u == t
  | .probe _ _ w | .probeMask _ _ w | .closeWake w => s.waiterTask w == t
  | _ => false

/-- Whether a task has a strong reference: it runs or waits for a wake, or it is in the run queue,
in some thread's hands, among a handle's awaiters, registered on a channel or about to be joined. -/
def held (s : State α) (t : TaskId) : Bool :=
  s.mode t != .finished || s.queue.contains t ||
    (List.range s.next).any (fun u =>
      (s.doing u).pending.any (s.holds t) || (s.awaiters u).contains t) ||
    (List.range s.chanCount).any (fun c =>
      ((s.chan c).waiters .receive ++ (s.chan c).waiters .send).any
        (fun w => s.waiterTask w == t)) ||
    (List.range s.nurseryCount).any (fun n => s.joiner n == some t)

/-- The children of a task whose weak links can still be upgraded. -/
def aliveChildren (s : State α) (t : TaskId) : List TaskId := (s.children t).filter s.held

end State

end Fai.Scheduler
