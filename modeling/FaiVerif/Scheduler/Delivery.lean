import FaiVerif.Lib.History
import FaiVerif.Scheduler.Channels
import Mathlib.Algebra.Order.Group.Multiset

/-!
# What channels deliver

The history of a channel: the values received are the first of the values accepted, in order, and
the rest are buffered within the capacity; a receiver gets nothing only when the channel is closed
and drained, or when its task is cancelled; and every value sent is in exactly one place.
-/

namespace Fai.Scheduler

variable {α : Type}

namespace Event

/-- The value a channel accepted in an event. -/
def acceptedOn (c : ChanId) : Event α → Option α
  | .accepted d v => if d = c then some v else none
  | _ => none

/-- The value received from a channel in an event. -/
def receivedOn (c : ChanId) : Event α → Option α
  | .received d _ v => if d = c then some v else none
  | _ => none

/-- The value given to `chan_send` in an event. -/
def sentValue : Event α → Option α
  | .sent _ v => some v
  | _ => none

/-- The value received in an event. -/
def receivedValue : Event α → Option α
  | .received _ _ v => some v
  | _ => none

/-- The value released in an event. -/
def releasedValue : Event α → Option α
  | .released v => some v
  | _ => none

/-- Whether an event is no acceptance and no answer of a `chan_recv`. -/
def passing : Event α → Bool
  | .accepted _ _ | .received _ _ _ | .nothing _ _ => false
  | _ => true

end Event

/-- The values a channel has accepted, in order. -/
def acceptedOn (c : ChanId) (log : List (Event α)) : List α := log.filterMap (Event.acceptedOn c)

/-- The values received from a channel, in order. -/
def receivedOn (c : ChanId) (log : List (Event α)) : List α := log.filterMap (Event.receivedOn c)

/-- A receiver gets nothing only once the channel is closed and all it accepted was received, or
when its task is cancelled. -/
def Explains (before : List (Event α)) : Event α → Prop
  | .nothing c t =>
    (.closed c ∈ before ∧ receivedOn c before = acceptedOn c before) ∨ .cancelled t ∈ before
  | _ => True

/-- What channels have delivered in a reachable state. -/
structure Delivered (s : State α) : Prop where
  /-- The buffer is within the capacity. -/
  bounded : ∀ c, (s.chan c).buf.length ≤ (s.chan c).capacity
  /-- What was accepted was received or is buffered. -/
  ordered : ∀ c, (s.chan c).dropped = false ∨ s.chanCount ≤ c →
    acceptedOn c s.log = receivedOn c s.log ++ (s.chan c).buf
  /-- What was received was accepted, in the same order. -/
  first : ∀ c, receivedOn c s.log <+: acceptedOn c s.log
  /-- Closing is recorded. -/
  closed : ∀ c, (s.chan c).closed = true → .closed c ∈ s.log
  /-- Cancelling is recorded. -/
  cancelled : ∀ t, s.cancelled t = true → .cancelled t ∈ s.log
  /-- Every `None` is explained. -/
  explained : History.Justified Explains s.log

/-- Passing events are no acceptances. -/
theorem acceptedOn_passing {log more : List (Event α)} (passing : ∀ e ∈ more, e.passing = true)
    (c : ChanId) : acceptedOn c (log ++ more) = acceptedOn c log := by
  have none : more.filterMap (Event.acceptedOn c) = [] := by
    apply List.filterMap_eq_nil_iff.mpr
    intro e member
    have := passing e member
    cases e <;> simp_all [Event.acceptedOn, Event.passing]
  rw [acceptedOn, List.filterMap_append, none, List.append_nil]
  rfl

/-- Passing events are no receptions. -/
theorem receivedOn_passing {log more : List (Event α)} (passing : ∀ e ∈ more, e.passing = true)
    (c : ChanId) : receivedOn c (log ++ more) = receivedOn c log := by
  have none : more.filterMap (Event.receivedOn c) = [] := by
    apply List.filterMap_eq_nil_iff.mpr
    intro e member
    have := passing e member
    cases e <;> simp_all [Event.receivedOn, Event.passing]
  rw [receivedOn, List.filterMap_append, none, List.append_nil]
  rfl

/-- Passing events need no explanation. -/
theorem explains_passing {before : List (Event α)} {e : Event α} (passing : e.passing = true) :
    Explains before e := by
  cases e <;> simp_all [Explains, Event.passing]

/-- A step that neither accepts nor answers keeps what was delivered. -/
theorem Delivered.passing {s s' : State α} (delivered : Delivered s) (more : List (Event α))
    (log : s'.log = s.log ++ more) (passing : ∀ e ∈ more, e.passing = true)
    (buf : ∀ c, (s'.chan c).buf = (s.chan c).buf ∨ (s'.chan c).buf = [])
    (bounded : ∀ c, (s'.chan c).buf = (s.chan c).buf →
      (s.chan c).capacity ≤ (s'.chan c).capacity)
    (dropped : ∀ c, (s'.chan c).dropped = false ∨ s'.chanCount ≤ c →
      ((s.chan c).dropped = false ∨ s.chanCount ≤ c) ∧ (s'.chan c).buf = (s.chan c).buf)
    (closed : ∀ c, (s'.chan c).closed = true → (s.chan c).closed = true ∨ .closed c ∈ more)
    (cancelled : ∀ t, s'.cancelled t = true → s.cancelled t = true ∨ .cancelled t ∈ more) :
    Delivered s' := by
  refine ⟨?_, ?_, ?_, ?_, ?_, ?_⟩
  · intro c
    rcases buf c with same | empty
    · rw [same]
      exact Nat.le_trans (delivered.bounded c) (bounded c same)
    · rw [empty]
      exact Nat.zero_le _
  · intro c present
    obtain ⟨before, same⟩ := dropped c present
    rw [log, acceptedOn_passing passing, receivedOn_passing passing, same]
    exact delivered.ordered c before
  · intro c
    rw [log, acceptedOn_passing passing, receivedOn_passing passing]
    exact delivered.first c
  · intro c shut
    rw [log]
    rcases closed c shut with before | now
    · exact List.mem_append_left _ (delivered.closed c before)
    · exact List.mem_append_right _ now
  · intro t flagged
    rw [log]
    rcases cancelled t flagged with before | now
    · exact List.mem_append_left _ (delivered.cancelled t before)
    · exact List.mem_append_right _ now
  · rw [log]
    exact delivered.explained.append (fun _ e member => explains_passing (passing e member))

/-- The events of a step inside a call that does not park. -/
theorem MicroChange.events {s after : State α} {t : TaskId} {m : Micro α}
    {pushed : List (Micro α)} (change : MicroChange s t m after pushed) :
    ∃ more : List (Event α), after.log = s.log ++ more ∧ (∀ e ∈ more, e.passing = true) ∧
      (∀ c, (after.chan c).closed = true → (s.chan c).closed = true ∨ .closed c ∈ more) ∧
      (∀ u, after.cancelled u = true → s.cancelled u = true ∨ .cancelled u ∈ more) := by
  cases change with
  | cancelFirst u unflagged =>
    refine ⟨[.cancelled u], rfl, by simp [Event.passing], fun c shut => Or.inl shut, ?_⟩
    intro v flagged
    by_cases same : v = u
    · exact Or.inr (by simp [same])
    · left
      simpa [Function.update_of_ne same] using flagged
  | makeTask nursery =>
    refine ⟨(nursery.map fun n => Event.spawned n s.next).toList, rfl, ?_,
      fun c shut => Or.inl shut, ?_⟩
    · cases nursery <;> simp [Event.passing]
    · intro v flagged
      by_cases same : v = s.next
      · simp [State.addTask, same] at flagged
      · left
        simpa [State.addTask, Function.update_of_ne same] using flagged
  | release v =>
    exact ⟨[.released v], rfl, by simp [Event.passing], fun c shut => Or.inl shut,
      fun u flagged => Or.inl flagged⟩
  | close d free =>
    refine ⟨[.closed d], rfl, by simp [Event.passing], ?_, fun u flagged => Or.inl flagged⟩
    intro c shut
    by_cases same : c = d
    · exact Or.inr (by simp [same])
    · left
      simpa [Function.update_of_ne same] using shut
  | complete r =>
    exact ⟨[.completed t r], rfl, by simp [Event.passing], fun c shut => Or.inl shut,
      fun u flagged => Or.inl flagged⟩
  | _ =>
    refine ⟨[], by simp, by simp, ?_, ?_⟩
    · intro c shut
      left
      simp_all [Function.update_apply]
      try grind
    · intro u flagged
      exact Or.inl flagged

/-- A step inside a call that does not park keeps what was delivered. -/
theorem Delivered.micro {s after : State α} (delivered : Delivered s) {t : TaskId} {m : Micro α}
    {pushed : List (Micro α)} (change : MicroChange s t m after pushed) : Delivered after := by
  have same : ∀ c, (after.chan c).buf = (s.chan c).buf ∧
      (after.chan c).capacity = (s.chan c).capacity := by
    intro c
    cases change <;> simp [State.addTask, Function.update_apply]
    all_goals grind
  obtain ⟨more, log, passing, closed, cancelled⟩ := change.events
  exact delivered.passing more log passing (fun c => Or.inl (same c).1)
    (fun c _ => Nat.le_of_eq (same c).2.symm)
    (fun c present => ⟨by rwa [change.chans.1, (change.chans.2 c).1] at present, (same c).1⟩)
    closed cancelled

/-- A value accepted goes to the end of the buffer. -/
theorem Delivered.accept {s : State α} (delivered : Delivered s) {t : TaskId} {c : ChanId} {v : α}
    (present : (s.chan c).dropped = false)
    (room : (s.chan c).buf.length < (s.chan c).capacity) :
    Delivered (((s.setChan c { s.chan c with buf := (s.chan c).buf ++ [v], locked := true }).record
      (.accepted c v)).setDoing t (.steps [.take c .receive])) := by
  have receivedSame : ∀ d, receivedOn d (s.log ++ [.accepted c v]) = receivedOn d s.log := by
    intro d
    simp [receivedOn, Event.receivedOn]
  have acceptedSame : ∀ d, d ≠ c →
      acceptedOn d (s.log ++ [.accepted c v]) = acceptedOn d s.log := by
    intro d other
    simp [acceptedOn, Event.acceptedOn, Ne.symm other]
  have acceptedHere : acceptedOn c (s.log ++ [.accepted c v]) = acceptedOn c s.log ++ [v] := by
    simp [acceptedOn, Event.acceptedOn]
  refine ⟨?_, ?_, ?_, ?_, ?_, ?_⟩
  · intro d
    by_cases same : d = c
    · subst same
      simpa using room
    · simpa [Function.update_of_ne same] using delivered.bounded d
  · intro d there
    simp only [State.setDoing, State.record, State.setChan] at there ⊢
    rw [receivedSame]
    by_cases same : d = c
    · subst same
      rw [acceptedHere, delivered.ordered d (Or.inl present)]
      simp
    · rw [Function.update_of_ne same] at there ⊢
      rw [acceptedSame d same]
      exact delivered.ordered d there
  · intro d
    simp only [State.setDoing, State.record, State.setChan]
    rw [receivedSame]
    by_cases same : d = c
    · subst same
      rw [acceptedHere]
      exact (delivered.first d).trans (List.prefix_append _ _)
    · rw [acceptedSame d same]
      exact delivered.first d
  · intro d shut
    have before : (s.chan d).closed = true := by
      by_cases same : d = c
      · subst same
        simpa using shut
      · simpa [Function.update_of_ne same] using shut
    exact List.mem_append_left _ (delivered.closed d before)
  · intro u flagged
    exact List.mem_append_left _ (delivered.cancelled u flagged)
  · exact delivered.explained.snoc (by simp [Explains])

/-- A value received comes from the front of the buffer. -/
theorem Delivered.receive {s : State α} (delivered : Delivered s) {t : TaskId} {c : ChanId}
    {v : α} {rest : List α} (present : (s.chan c).dropped = false)
    (loaded : (s.chan c).buf = v :: rest) :
    Delivered (((s.setChan c { s.chan c with buf := rest, locked := true }).record
      (.received c t v)).setDoing t (.steps [.take c .send])) := by
  have acceptedSame : ∀ d, acceptedOn d (s.log ++ [.received c t v]) = acceptedOn d s.log := by
    intro d
    simp [acceptedOn, Event.acceptedOn]
  have receivedSame : ∀ d, d ≠ c →
      receivedOn d (s.log ++ [.received c t v]) = receivedOn d s.log := by
    intro d other
    simp [receivedOn, Event.receivedOn, Ne.symm other]
  have receivedHere : receivedOn c (s.log ++ [.received c t v]) = receivedOn c s.log ++ [v] := by
    simp [receivedOn, Event.receivedOn]
  have order : acceptedOn c s.log = receivedOn c s.log ++ v :: rest := by
    rw [delivered.ordered c (Or.inl present), loaded]
  refine ⟨?_, ?_, ?_, ?_, ?_, ?_⟩
  · intro d
    by_cases same : d = c
    · subst same
      have before := delivered.bounded d
      rw [loaded] at before
      simp only [State.setDoing, State.record, State.setChan, Function.update_self]
      exact Nat.le_of_succ_le before
    · simpa [Function.update_of_ne same] using delivered.bounded d
  · intro d there
    simp only [State.setDoing, State.record, State.setChan] at there ⊢
    rw [acceptedSame]
    by_cases same : d = c
    · subst same
      rw [receivedHere, order]
      simp
    · rw [Function.update_of_ne same] at there ⊢
      rw [receivedSame d same]
      exact delivered.ordered d there
  · intro d
    simp only [State.setDoing, State.record, State.setChan]
    rw [acceptedSame]
    by_cases same : d = c
    · subst same
      rw [receivedHere, order]
      exact ⟨rest, by simp⟩
    · rw [receivedSame d same]
      exact delivered.first d
  · intro d shut
    have before : (s.chan d).closed = true := by
      by_cases same : d = c
      · subst same
        simpa using shut
      · simpa [Function.update_of_ne same] using shut
    exact List.mem_append_left _ (delivered.closed d before)
  · intro u flagged
    exact List.mem_append_left _ (delivered.cancelled u flagged)
  · exact delivered.explained.snoc (by simp [Explains])

/-- A `None` that is explained keeps what was delivered. -/
theorem Delivered.nothing {s s' : State α} (delivered : Delivered s) {t : TaskId} {c : ChanId}
    (log : s'.log = s.log ++ [.nothing c t]) (count : s'.chanCount = s.chanCount)
    (chans : ∀ d, (s'.chan d).buf = (s.chan d).buf ∧ (s'.chan d).capacity = (s.chan d).capacity ∧
      (s'.chan d).dropped = (s.chan d).dropped ∧ (s'.chan d).closed = (s.chan d).closed)
    (cancelled : s'.cancelled = s.cancelled)
    (why : ((s.chan c).closed = true ∧ (s.chan c).buf = [] ∧ (s.chan c).dropped = false) ∨
      s.cancelled t = true) : Delivered s' := by
  have acceptedSame : ∀ d, acceptedOn d (s.log ++ [.nothing c t]) = acceptedOn d s.log := by
    intro d
    simp [acceptedOn, Event.acceptedOn]
  have receivedSame : ∀ d, receivedOn d (s.log ++ [.nothing c t]) = receivedOn d s.log := by
    intro d
    simp [receivedOn, Event.receivedOn]
  refine ⟨?_, ?_, ?_, ?_, ?_, ?_⟩
  · intro d
    rw [(chans d).1, (chans d).2.1]
    exact delivered.bounded d
  · intro d there
    rw [(chans d).2.2.1, count] at there
    rw [log, acceptedSame, receivedSame, (chans d).1]
    exact delivered.ordered d there
  · intro d
    rw [log, acceptedSame, receivedSame]
    exact delivered.first d
  · intro d shut
    rw [(chans d).2.2.2] at shut
    rw [log]
    exact List.mem_append_left _ (delivered.closed d shut)
  · intro u flagged
    rw [cancelled] at flagged
    rw [log]
    exact List.mem_append_left _ (delivered.cancelled u flagged)
  · rw [log]
    refine delivered.explained.snoc ?_
    rcases why with ⟨closed, empty, present⟩ | flagged
    · left
      refine ⟨delivered.closed c closed, ?_⟩
      rw [delivered.ordered c (Or.inl present), empty, List.append_nil]
    · exact Or.inr (delivered.cancelled t flagged)

/-- A step that touches neither the history nor what channels hold keeps what was delivered. -/
theorem Delivered.same {s s' : State α} (delivered : Delivered s) (log : s'.log = s.log)
    (count : s'.chanCount = s.chanCount)
    (chans : ∀ d, (s'.chan d).buf = (s.chan d).buf ∧ (s'.chan d).capacity = (s.chan d).capacity ∧
      (s'.chan d).dropped = (s.chan d).dropped ∧ (s'.chan d).closed = (s.chan d).closed)
    (cancelled : ∀ t, s'.cancelled t = true → s.cancelled t = true) : Delivered s' := by
  refine delivered.passing [] (by simpa using log) (by simp) (fun c => Or.inl (chans c).1)
    (fun c _ => Nat.le_of_eq (chans c).2.1.symm) ?_ ?_
    (fun t flagged => Or.inl (cancelled t flagged))
  · intro c there
    rw [(chans c).2.2.1, count] at there
    exact ⟨there, (chans c).1⟩
  · intro c shut
    exact Or.inl ((chans c).2.2.2 ▸ shut)

/-- A step of a blocking channel operation keeps what was delivered. -/
theorem Delivered.channel {s s' : State α} (delivered : Delivered s) {t : TaskId} {c : ChanId}
    {op : ChanOp α} {stage : Stage} (present : (s.chan c).dropped = false)
    (change : ChannelChange s t c op stage s') : Delivered s' := by
  have flagged : s.isCancelled t = true → s.cancelled t = true := by
    intro cancelled
    simp only [State.isCancelled, Bool.and_eq_true] at cancelled
    exact cancelled.1
  cases change with
  | sendAccept v uncancelled opened room => exact delivered.accept present room
  | receiveTake v rest uncancelled loaded => exact delivered.receive present loaded
  | receiveCancelled cancelled empty =>
    exact delivered.nothing rfl rfl (fun _ => ⟨rfl, rfl, rfl, rfl⟩) rfl
      (Or.inr (flagged cancelled))
  | receivePass cancelled loaded =>
    refine delivered.nothing rfl rfl ?_ rfl (Or.inr (flagged cancelled))
    intro d
    by_cases same : d = c <;> simp [same]
  | receiveClosed uncancelled empty closed =>
    exact delivered.nothing rfl rfl (fun _ => ⟨rfl, rfl, rfl, rfl⟩) rfl
      (Or.inl ⟨closed, empty, present⟩)
  | _ =>
    refine delivered.same rfl rfl (fun d => ?_) (fun _ flag => flag)
    by_cases same : d = c <;> simp [State.registerWaiter, same]

/-- A call of the program's code keeps what was delivered. -/
theorem Delivered.call {s : State α} (delivered : Delivered s) (formed : Formed s) (t : TaskId)
    (c : Call α) : Delivered (s.call t c) := by
  cases c with
  | channel capacity =>
    have blank := formed.absent s.chanCount (Nat.le_refl _)
    refine delivered.passing [] (by simp [State.call]) (by simp) ?_ ?_ ?_ ?_
      (fun _ flagged => Or.inl flagged)
    · intro d
      by_cases same : d = s.chanCount
      · exact Or.inr (by simp [State.call, same, Chan.absent])
      · exact Or.inl (by simp [State.call, Function.update_of_ne same])
    · intro d _
      by_cases same : d = s.chanCount
      · simp [State.call, same, blank, Chan.absent]
      · simp [State.call, Function.update_of_ne same]
    · intro d there
      by_cases same : d = s.chanCount
      · subst same
        exact ⟨Or.inr (Nat.le_refl _), by simp [State.call, blank, Chan.absent]⟩
      · simp only [State.call, Function.update_of_ne same] at there ⊢
        exact ⟨there.imp id Nat.le_of_succ_le, trivial⟩
    · intro d shut
      by_cases same : d = s.chanCount
      · simp [State.call, same, Chan.absent] at shut
      · left
        simpa [State.call, Function.update_of_ne same] using shut
  | send d v =>
    exact delivered.passing [.sent d v] rfl (by simp [Event.passing]) (fun _ => Or.inl rfl)
      (fun _ _ => Nat.le_refl _) (fun _ there => ⟨there, rfl⟩) (fun _ shut => Or.inl shut)
      (fun _ flagged => Or.inl flagged)
  | spawn nursery =>
    cases nursery <;>
      exact delivered.same rfl rfl (fun _ => ⟨rfl, rfl, rfl, rfl⟩) (fun _ flagged => flagged)
  | _ => exact delivered.same rfl rfl (fun _ => ⟨rfl, rfl, rfl, rfl⟩) (fun _ flagged => flagged)

/-- Every step keeps what was delivered. -/
theorem Delivered.change {s s' : State α} (delivered : Delivered s) (formed : Formed s)
    (change : Change s s') : Delivered s' := by
  cases change with
  | host =>
    refine delivered.same rfl rfl (fun _ => ⟨rfl, rfl, rfl, rfl⟩) ?_
    intro u flagged
    by_cases same : u = s.next
    · simp [State.addHost, same] at flagged
    · simpa [State.addHost, Function.update_of_ne same] using flagged
  | call t c control allowed valid => exact delivered.call formed t c
  | micro t m rest after pushed running doing taken =>
    exact (delivered.micro taken).same rfl rfl (fun _ => ⟨rfl, rfl, rfl, rfl⟩)
      (fun _ flagged => flagged)
  | channel t c op stage s' running doing taken =>
    exact delivered.channel (formed.uses t c (by simp [doing, Doing.uses])).2 taken
  | await t h registered parking running doing =>
    unfold State.awaitStep
    split
    next => exact delivered.same rfl rfl (fun _ => ⟨rfl, rfl, rfl, rfl⟩) (fun _ flagged => flagged)
    next =>
      split
      next r _ =>
        exact delivered.passing [.awaited t h r] rfl (by simp [Event.passing])
          (fun _ => Or.inl rfl) (fun _ _ => Nat.le_refl _) (fun _ there => ⟨there, rfl⟩)
          (fun _ shut => Or.inl shut) (fun _ flagged => Or.inl flagged)
      next =>
        split <;>
          exact delivered.same rfl rfl (fun _ => ⟨rfl, rfl, rfl, rfl⟩) (fun _ flagged => flagged)
  | join t n parking running doing =>
    unfold State.joinStep
    split
    next => exact delivered.same rfl rfl (fun _ => ⟨rfl, rfl, rfl, rfl⟩) (fun _ flagged => flagged)
    next =>
      split
      next =>
        exact delivered.passing [.joined n] rfl (by simp [Event.passing])
          (fun _ => Or.inl rfl) (fun _ _ => Nat.le_refl _) (fun _ there => ⟨there, rfl⟩)
          (fun _ shut => Or.inl shut) (fun _ flagged => Or.inl flagged)
      next =>
        exact delivered.same rfl rfl (fun _ => ⟨rfl, rfl, rfl, rfl⟩) (fun _ flagged => flagged)
  | dropChan c present unused =>
    refine delivered.passing ((s.chan c).buf.map .released) rfl ?_ ?_ ?_ ?_ ?_
      (fun _ flagged => Or.inl flagged)
    · simp [Event.passing]
    · intro d
      by_cases same : d = c
      · exact Or.inr (by simp [State.dropChan, same])
      · exact Or.inl (by simp [State.dropChan, Function.update_of_ne same])
    · intro d _
      by_cases same : d = c <;> simp [State.dropChan, same]
    · intro d there
      by_cases same : d = c
      · subst same
        simp only [State.dropChan, Function.update_self, Bool.true_eq_false, false_or] at there
        rw [formed.absent d there] at present
        simp [Chan.absent] at present
      · simp only [State.dropChan, Function.update_of_ne same] at there ⊢
        exact ⟨there, trivial⟩
    · intro d shut
      left
      by_cases same : d = c
      · subst same
        simpa [State.dropChan] using shut
      · simpa [State.dropChan, Function.update_of_ne same] using shut
  | _ => exact delivered.same rfl rfl (fun _ => ⟨rfl, rfl, rfl, rfl⟩) (fun _ flagged => flagged)

/-- What channels have delivered in a reachable state. -/
theorem Reachable.delivered {s : State α} (reached : Reachable s) : Delivered s := by
  refine Reachable.invariant ?_ (fun s s' before delivered change =>
    delivered.change before.formed change) reached
  exact ⟨fun _ => Nat.le_refl _, fun _ _ => rfl, fun _ => List.prefix_refl _,
    fun _ shut => by simp [State.initial, Chan.absent] at shut,
    fun _ flagged => by simp [State.initial] at flagged, History.justified_nil⟩

/-- The value a pending step is about to release. -/
def Micro.value : Micro α → Option α
  | .release v => some v
  | _ => none

/-- The value a channel operation owns. -/
def ChanOp.inHand : ChanOp α → Multiset α
  | .send v => {v}
  | .receive => 0

/-- The values a thread's call owns. -/
def Doing.inHand : Doing α → Multiset α
  | .steps rest => Multiset.ofList (rest.filterMap Micro.value)
  | .channel _ op _ => op.inHand
  | _ => 0

/-- The values given to `chan_send`. -/
def sentValues (log : List (Event α)) : Multiset α :=
  Multiset.ofList (log.filterMap Event.sentValue)

/-- The values received. -/
def receivedValues (log : List (Event α)) : Multiset α :=
  Multiset.ofList (log.filterMap Event.receivedValue)

/-- The values released. -/
def releasedValues (log : List (Event α)) : Multiset α :=
  Multiset.ofList (log.filterMap Event.releasedValue)

/-- A list grows by the value of its last entry, when it has one. -/
theorem filterMap_snoc {β γ : Type} (f : β → Option γ) (l : List β) (x : β) :
    Multiset.ofList ((l ++ [x]).filterMap f) =
      Multiset.ofList (l.filterMap f) + Multiset.ofList (f x).toList := by
  rw [List.filterMap_append, ← Multiset.coe_add]
  cases value : f x <;> simp [value]

/-- The values given after one more event. -/
@[simp] theorem sentValues_snoc (log : List (Event α)) (e : Event α) :
    sentValues (log ++ [e]) = sentValues log + Multiset.ofList e.sentValue.toList :=
  filterMap_snoc _ _ _

/-- The values received after one more event. -/
@[simp] theorem receivedValues_snoc (log : List (Event α)) (e : Event α) :
    receivedValues (log ++ [e]) = receivedValues log + Multiset.ofList e.receivedValue.toList :=
  filterMap_snoc _ _ _

/-- The values released after one more event. -/
@[simp] theorem releasedValues_snoc (log : List (Event α)) (e : Event α) :
    releasedValues (log ++ [e]) = releasedValues log + Multiset.ofList e.releasedValue.toList :=
  filterMap_snoc _ _ _

namespace State

/-- The values the threads own inside channel operations. -/
def inHands (s : State α) : Multiset α := ∑ t ∈ Finset.range s.next, (s.doing t).inHand

/-- The values the channels own. -/
def buffered (s : State α) : Multiset α :=
  ∑ c ∈ Finset.range s.chanCount, Multiset.ofList (s.chan c).buf

end State

/-- Every value sent was received, or released, or is buffered, or is in some thread's hands. -/
def Conserved (s : State α) : Prop :=
  sentValues s.log =
    receivedValues s.log + releasedValues s.log + s.buffered + s.inHands

/-- A step conserves the values when what it adds balances what it takes away. -/
theorem Conserved.move {s s' : State α} (conserved : Conserved s) {a b r x y p q : Multiset α}
    (sent : sentValues s'.log = sentValues s.log + a)
    (received : receivedValues s'.log = receivedValues s.log + b)
    (released : releasedValues s'.log = releasedValues s.log + r)
    (buffered : s'.buffered + x = s.buffered + y) (inHands : s'.inHands + p = s.inHands + q)
    (balance : a + x + p = b + r + y + q) : Conserved s' := by
  unfold Conserved at conserved ⊢
  apply add_right_cancel (b := x + p)
  calc sentValues s'.log + (x + p) = sentValues s.log + (a + x + p) := by rw [sent]; ac_rfl
    _ = (receivedValues s.log + releasedValues s.log + s.buffered + s.inHands) +
        (b + r + y + q) := by rw [conserved, balance]
    _ = (receivedValues s.log + b) + (releasedValues s.log + r) + (s.buffered + y) +
        (s.inHands + q) := by ac_rfl
    _ = receivedValues s'.log + releasedValues s'.log + s'.buffered + s'.inHands +
        (x + p) := by rw [received, released, ← buffered, ← inHands]; ac_rfl

/-- A change of one thread moves the values in hands by its own. -/
theorem inHands_replace {s : State α} (s' : State α) {t : TaskId} (inside : t < s.next)
    (next : s'.next = s.next) (doings : ∀ u, u ≠ t → s'.doing u = s.doing u) :
    s'.inHands + (s.doing t).inHand = s.inHands + (s'.doing t).inHand := by
  unfold State.inHands
  rw [next]
  apply Tally.sum_replace inside
  intro u _ other
  rw [doings u other]

/-- A change of one channel moves the buffered values by its own. -/
theorem buffered_replace {s : State α} (s' : State α) {c : ChanId} (inside : c < s.chanCount)
    (count : s'.chanCount = s.chanCount) (chans : ∀ d, d ≠ c → (s'.chan d).buf = (s.chan d).buf) :
    s'.buffered + Multiset.ofList (s.chan c).buf =
      s.buffered + Multiset.ofList (s'.chan c).buf := by
  unfold State.buffered
  rw [count]
  apply Tally.sum_replace inside
  intro d _ other
  rw [chans d other]

/-- The same channels hold the same values. -/
theorem buffered_same {s s' : State α} (count : s'.chanCount = s.chanCount)
    (chans : ∀ d, (s'.chan d).buf = (s.chan d).buf) : s'.buffered = s.buffered := by
  unfold State.buffered
  rw [count]
  apply Finset.sum_congr rfl
  intro d _
  rw [chans d]

/-- The values that a step inside the runtime moves. -/
theorem MicroChange.values {s after : State α} {t : TaskId} {m : Micro α}
    {pushed : List (Micro α)} (change : MicroChange s t m after pushed) :
    sentValues after.log = sentValues s.log ∧ receivedValues after.log = receivedValues s.log ∧
      releasedValues after.log = releasedValues s.log + Multiset.ofList m.value.toList ∧
      pushed.filterMap Micro.value = [] := by
  cases change with
  | makeTask nursery =>
    cases nursery <;>
      simp [State.addTask, Event.sentValue, Event.receivedValue, Event.releasedValue, Micro.value]
  | cancelChildren u => simp [Micro.value]
  | cancelHandle u =>
    refine ⟨rfl, rfl, by simp [Micro.value], ?_⟩
    split <;> simp [Micro.value]
  | registerProbe u =>
    refine ⟨rfl, rfl, by simp [Micro.value], ?_⟩
    split <;> simp [Micro.value]
  | unmask =>
    refine ⟨rfl, rfl, by simp [Micro.value], ?_⟩
    split <;> simp [Micro.value]
  | unmaskProbe =>
    refine ⟨rfl, rfl, by simp [Micro.value], ?_⟩
    split <;> simp [Micro.value]
  | _ => simp [Event.sentValue, Event.receivedValue, Event.releasedValue, Micro.value]

/-- A step inside the runtime adds at most one thread. -/
theorem MicroChange.next {s after : State α} {t : TaskId} {m : Micro α}
    {pushed : List (Micro α)} (change : MicroChange s t m after pushed) :
    after.next = s.next ∨ after.next = s.next + 1 := by
  cases change with
  | makeTask nursery => exact Or.inr rfl
  | _ => exact Or.inl rfl

/-- A step inside the runtime moves the values in hands by those of its own thread. -/
theorem stepped_inHands {s after : State α} (formed : Formed s) {t : TaskId} {m : Micro α}
    {pushed rest : List (Micro α)} (doing : s.doing t = .steps (m :: rest))
    (change : MicroChange s t m after pushed) :
    (after.stepped t pushed rest).inHands + (s.doing t).inHand =
      s.inHands + ((after.stepped t pushed rest).doing t).inHand := by
  have inside : t < s.next := formed.exists_doing (by simp [doing])
  have moved : (∑ u ∈ Finset.range s.next, ((after.stepped t pushed rest).doing u).inHand) +
      (s.doing t).inHand = s.inHands + ((after.stepped t pushed rest).doing t).inHand := by
    apply Tally.sum_replace inside
    intro u _ other
    rw [stepped_doing formed change other]
  rcases change.next with same | more
  · rw [State.inHands, show (after.stepped t pushed rest).next = s.next from same]
    exact moved
  · have blank : ((after.stepped t pushed rest).doing s.next).inHand = 0 := by
      rw [stepped_doing formed change (Nat.ne_of_gt inside),
        (formed.beyond s.next (Nat.le_refl _)).2]
      rfl
    rw [State.inHands, show (after.stepped t pushed rest).next = s.next + 1 from more,
      Finset.sum_range_succ, blank, add_zero]
    exact moved

/-- A step inside a call that does not park conserves the values. -/
theorem Conserved.micro {s after : State α} (conserved : Conserved s) (formed : Formed s)
    {t : TaskId} {m : Micro α} {pushed rest : List (Micro α)}
    (doing : s.doing t = .steps (m :: rest)) (change : MicroChange s t m after pushed) :
    Conserved (after.stepped t pushed rest) := by
  obtain ⟨sent, received, released, none⟩ := change.values
  have buffered : (after.stepped t pushed rest).buffered = s.buffered := by
    apply buffered_same change.chans.1
    intro d
    cases change <;> simp [State.addTask, Function.update_apply]
    all_goals grind
  have hands := stepped_inHands formed doing change
  rw [stepped_self, doing] at hands
  refine conserved.move (a := 0) (b := 0) (x := 0) (y := 0) (by simpa using sent)
    (by simpa using received) released (by simpa using buffered) hands ?_
  simp only [Doing.inHand, List.filterMap_append, none, List.nil_append, zero_add, add_zero]
  cases value : m.value <;> simp [value]

/-- A thread that stops or starts no channel operation conserves the values. -/
theorem Conserved.thread {s s' : State α} (conserved : Conserved s) {t : TaskId}
    (inside : t < s.next) (next : s'.next = s.next)
    (doings : ∀ u, u ≠ t → s'.doing u = s.doing u)
    (hand : (s'.doing t).inHand = (s.doing t).inHand) (count : s'.chanCount = s.chanCount)
    (chans : ∀ d, (s'.chan d).buf = (s.chan d).buf) (sent : sentValues s'.log = sentValues s.log)
    (received : receivedValues s'.log = receivedValues s.log)
    (released : releasedValues s'.log = releasedValues s.log) : Conserved s' := by
  have hands := inHands_replace s' inside next doings
  rw [hand] at hands
  refine conserved.move (a := 0) (b := 0) (r := 0) (x := 0) (y := 0) (by simpa using sent)
    (by simpa using received) (by simpa using released)
    (by simpa using buffered_same count chans) hands ?_
  simp

/-- A step of a blocking channel operation conserves the values. -/
theorem Conserved.channel {s s' : State α} (conserved : Conserved s) (formed : Formed s)
    {t : TaskId} {c : ChanId} {op : ChanOp α} {stage : Stage} (running : s.mode t = .running)
    (doing : s.doing t = .channel c op stage) (change : ChannelChange s t c op stage s') :
    Conserved s' := by
  have inside := formed.exists_running running
  have here := (formed.uses t c (by simp [doing, Doing.uses])).1
  cases change with
  | sendAccept v uncancelled opened room =>
    have hands := inHands_replace (((s.setChan c { s.chan c with
      buf := (s.chan c).buf ++ [v], locked := true }).record (.accepted c v)).setDoing t
        (.steps [.take c .receive])) inside rfl (fun u other => Function.update_of_ne other _ _)
    have buffers := buffered_replace (((s.setChan c { s.chan c with
      buf := (s.chan c).buf ++ [v], locked := true }).record (.accepted c v)).setDoing t
        (.steps [.take c .receive])) here rfl
          (fun d other => by simp [Function.update_of_ne other])
    refine conserved.move (a := 0) (b := 0) (r := 0) (by simp [Event.sentValue])
      (by simp [Event.receivedValue]) (by simp [Event.releasedValue]) buffers hands ?_
    simp [doing, Doing.inHand, ChanOp.inHand, Micro.value, List.filterMap_cons,
      ← Multiset.coe_add, add_comm]
  | receiveTake v rest uncancelled loaded =>
    have hands := inHands_replace (((s.setChan c { s.chan c with
      buf := rest, locked := true }).record (.received c t v)).setDoing t
        (.steps [.take c .send])) inside rfl (fun u other => Function.update_of_ne other _ _)
    have buffers := buffered_replace (((s.setChan c { s.chan c with
      buf := rest, locked := true }).record (.received c t v)).setDoing t
        (.steps [.take c .send])) here rfl
          (fun d other => by simp [Function.update_of_ne other])
    refine conserved.move (a := 0) (r := 0) (by simp [Event.sentValue])
      (receivedValues_snoc _ _) (by simp [Event.releasedValue]) buffers hands ?_
    simp [doing, loaded, Doing.inHand, ChanOp.inHand, Micro.value, Event.receivedValue,
      List.filterMap_cons]
  | _ =>
    refine conserved.thread inside rfl
      (fun u other => by simp [State.registerWaiter, Function.update_of_ne other])
      ?_ rfl ?_ ?_ ?_ ?_
    · simp [State.registerWaiter, doing, Doing.inHand, ChanOp.inHand, Micro.value,
        List.filterMap_cons]
    · intro d
      by_cases same : d = c <;> simp [State.registerWaiter, same]
    · simp [State.registerWaiter, Event.sentValue]
    · simp [State.registerWaiter, Event.receivedValue]
    · simp [State.registerWaiter, Event.releasedValue]

/-- A call of the program's code conserves the values. -/
theorem Conserved.call {s : State α} (conserved : Conserved s) (formed : Formed s) {t : TaskId}
    {c : Call α} (running : s.mode t = .running) (doing : s.doing t = .steps []) :
    Conserved (s.call t c) := by
  have inside := formed.exists_running running
  cases c with
  | channel capacity =>
    have buffered : (s.call t (.channel capacity)).buffered = s.buffered := by
      simp only [State.buffered, State.call, Finset.sum_range_succ, Function.update_self]
      rw [show Multiset.ofList (Chan.absent : Chan α).buf = 0 from rfl, add_zero]
      apply Finset.sum_congr rfl
      intro d there
      rw [Function.update_of_ne (Nat.ne_of_lt (Finset.mem_range.mp there))]
    exact conserved.move (a := 0) (b := 0) (r := 0) (x := 0) (y := 0) (p := 0) (q := 0)
      (by simp [State.call]) (by simp [State.call]) (by simp [State.call])
      (by simpa using buffered) rfl rfl
  | send d v =>
    have hands := inHands_replace (s.call t (.send d v)) inside rfl
      (fun u other => Function.update_of_ne other _ _)
    refine conserved.move (b := 0) (r := 0) (x := 0) (y := 0) (sentValues_snoc _ _)
      (by simp [State.call, Event.receivedValue]) (by simp [State.call, Event.releasedValue]) rfl
      hands ?_
    simp [State.call, doing, Doing.inHand, ChanOp.inHand, Event.sentValue]
  | spawn nursery =>
    cases nursery <;>
      exact conserved.thread inside rfl (fun u other => Function.update_of_ne other _ _)
        (by simp [State.call, doing, Doing.inHand, Micro.value, List.filterMap_cons]) rfl
        (fun _ => rfl) rfl rfl rfl
  | scope => exact conserved
  | cleanup => exact conserved
  | _ =>
    exact conserved.thread inside rfl (fun u other => Function.update_of_ne other _ _)
      (by simp [State.call, doing, Doing.inHand, ChanOp.inHand, Micro.value,
        List.filterMap_cons]) rfl (fun _ => rfl) rfl rfl rfl

/-- Every step conserves the values. -/
theorem Conserved.change {s s' : State α} (conserved : Conserved s) (formed : Formed s)
    (change : Change s s') : Conserved s' := by
  cases change with
  | host =>
    have hands : s.addHost.inHands = s.inHands := by
      simp only [State.inHands, State.addHost, Finset.sum_range_succ, Function.update_self]
      rw [show (Doing.steps ([] : List (Micro α))).inHand = 0 from rfl, add_zero]
      apply Finset.sum_congr rfl
      intro u there
      rw [Function.update_of_ne (Nat.ne_of_lt (Finset.mem_range.mp there))]
    exact conserved.move (a := 0) (b := 0) (r := 0) (x := 0) (y := 0) (p := 0) (q := 0)
      (by simp [State.addHost]) (by simp [State.addHost]) (by simp [State.addHost]) rfl
      (by simpa using hands) rfl
  | call t c control allowed valid =>
    exact conserved.call formed (inUser_elim control).1 (inUser_elim control).2.1
  | give t r f rest stack control =>
    refine conserved.thread (formed.exists_running (inUser_elim control).1) rfl
      (fun u other => Function.update_of_ne other _ _) ?_ rfl (fun _ => rfl) rfl rfl rfl
    have doing := (inUser_elim control).2.1
    cases f with
    | onDone nursery =>
      cases nursery <;>
        simp [doing, Frame.resume, Doing.inHand, Micro.value, List.filterMap_cons]
    | _ => simp [doing, Frame.resume, Doing.inHand, Micro.value, List.filterMap_cons]
  | micro t m rest after pushed running doing taken => exact conserved.micro formed doing taken
  | finish t running doing task stack => exact conserved
  | channel t c op stage s' running doing taken =>
    exact conserved.channel formed running doing taken
  | await t h registered parking running doing =>
    unfold State.awaitStep
    repeat' split
    all_goals
      exact conserved.thread (formed.exists_running running) rfl
        (fun u other => by simp [Function.update_of_ne other]) (by simp [doing, Doing.inHand]) rfl
        (fun _ => rfl) (by simp [Event.sentValue]) (by simp [Event.receivedValue])
        (by simp [Event.releasedValue])
  | join t n parking running doing =>
    unfold State.joinStep
    repeat' split
    all_goals
      exact conserved.thread (formed.exists_running running) rfl
        (fun u other => by simp [Function.update_of_ne other]) (by simp [doing, Doing.inHand]) rfl
        (fun _ => rfl) (by simp [Event.sentValue]) (by simp [Event.receivedValue])
        (by simp [Event.releasedValue])
  | park t running doing =>
    exact conserved.thread (formed.exists_running running) rfl
      (fun u other => by simp [Function.update_of_ne other]) (by simp [doing, Doing.inHand]) rfl
      (fun _ => rfl) rfl rfl rfl
  | resume t parked queued => exact conserved
  | stale t finished queued => exact conserved
  | wake t unfinished task => exact conserved
  | dropChan c present unused =>
    have here : c < s.chanCount := by
      by_contra outside
      rw [formed.absent c (Nat.le_of_not_lt outside)] at present
      simp [Chan.absent] at present
    have buffers := buffered_replace (s.dropChan c) here rfl
      (fun d other => by simp [State.dropChan, Function.update_of_ne other])
    refine conserved.move (a := 0) (b := 0) (p := 0) (q := 0)
      (r := Multiset.ofList (s.chan c).buf) ?_ ?_ ?_ buffers rfl ?_
    · simp [State.dropChan, sentValues, List.filterMap_append, List.filterMap_map,
        Function.comp_def, Event.sentValue]
    · simp [State.dropChan, receivedValues, List.filterMap_append, List.filterMap_map,
        Function.comp_def, Event.receivedValue]
    · simp [State.dropChan, releasedValues, List.filterMap_append, List.filterMap_map,
        Function.comp_def, Event.releasedValue]
    · simp [State.dropChan]

/-- Every value sent is in exactly one place in a reachable state. -/
theorem Reachable.conserved {s : State α} (reached : Reachable s) : Conserved s :=
  Reachable.invariant (by simp [Conserved, State.initial, sentValues, receivedValues,
      releasedValues, State.buffered, State.inHands])
    (fun _ _ before conserved change => conserved.change before.formed change) reached

/-- In every reachable state, for every channel: the buffer is within the capacity; the values
received are, in order, the first of those accepted, and the rest are buffered; every value sent was
received, or released, or is buffered, or is in a sender's hands; every `None` followed the close
and the drain, or a cancellation; and when nothing can run, a task suspended on a channel is not
cancelled and could not go on: the channel is open, empty for a receiver and full for a sender. -/
theorem channels_deliver {s : State α} (reached : Reachable s) :
    (∀ c, (s.chan c).buf.length ≤ (s.chan c).capacity) ∧
      (∀ c, receivedOn c s.log <+: acceptedOn c s.log ∧
        ((s.chan c).dropped = false →
          acceptedOn c s.log = receivedOn c s.log ++ (s.chan c).buf)) ∧
      Conserved s ∧ History.Justified Explains s.log ∧
      (Quiet s → ∀ t c op w, s.mode t = .parked → s.doing t = .channel c op (.asleep w) →
        s.isCancelled t = false ∧ (s.chan c).closed = false ∧
          (op = .receive → (s.chan c).buf = []) ∧
          (∀ v, op = .send v → (s.chan c).capacity ≤ (s.chan c).buf.length)) := by
  have delivered := reached.delivered
  refine ⟨delivered.bounded, fun c => ⟨delivered.first c, fun present =>
    delivered.ordered c (Or.inl present)⟩, reached.conserved, delivered.explained, ?_⟩
  intro quiet t c op w _ doing
  have waits : (s.doing t).waitsOn = some (c, op.side, w) := by
    rw [doing]
    rfl
  obtain ⟨opened, settled, uncancelled⟩ := reached.blocked_of_quiet quiet waits
  refine ⟨uncancelled, opened, ?_, ?_⟩
  · rintro rfl
    exact List.eq_nil_of_length_eq_zero settled
  · rintro v rfl
    exact Nat.sub_eq_zero_iff_le.mp settled

/-- A task sends two values over a channel of one slot and parks on the second; another task takes
the first, which hands the slot over, takes the second and parks on the empty channel. -/
def handoverRun : List (Action Nat) :=
  [.host, .call 0 (.channel 1), .call 0 (.spawn none), .advance 0, .advance 0, .advance 0,
    .call 0 (.spawn none), .advance 0, .advance 0, .advance 0,
    .resume 1, .call 1 (.send 0 7), .advance 1, .advance 1,
    .call 1 (.send 0 8), .advance 1, .advance 1,
    .resume 2, .call 2 (.receive 0), .advance 2, .advance 2, .advance 2, .advance 2,
    .resume 1, .advance 1, .advance 1, .advance 1, .give 1 0, .advance 1, .advance 1,
    .call 2 (.receive 0), .advance 2, .advance 2, .call 2 (.receive 0), .advance 2, .advance 2]

/-- Both values arrive in order, and the receiver left waits on an open and empty channel. -/
theorem channels_deliver_handover : ∃ s : State Nat,
    performAll State.initial handoverRun = some s ∧ receivedOn 0 s.log = [7, 8] ∧
      receivedOn 0 s.log <+: acceptedOn 0 s.log ∧ Conserved s ∧
      s.doing 2 = .channel 0 .receive (.asleep 1) ∧ s.isCancelled 2 = false ∧
      (s.chan 0).closed = false ∧ (s.chan 0).buf = [] := by
  have ends : (performAll State.initial handoverRun).map (fun s =>
      (receivedOn 0 s.log, s.queue, s.next, s.isTask 0, s.doing 0, s.mode 1, s.mode 2,
        s.doing 2)) = some ([7, 8], [], 3, false, .steps [], .finished, .parked,
          .channel 0 .receive (.asleep 1)) := by rfl
  obtain ⟨s, ran, shown⟩ := Option.map_eq_some_iff.mp ends
  simp only [Prod.mk.injEq] at shown
  obtain ⟨arrived, queue, threads, host, user, sender, receiver, waiting⟩ := shown
  have reached := Reachable.initial.performAll _ ran
  have quiet : Quiet s := by
    refine ⟨queue, fun t running => ?_⟩
    have inside := reached.formed.exists_running running
    rw [threads] at inside
    match t, inside with
    | 0, _ => exact ⟨host, user⟩
    | 1, _ => simp [sender] at running
    | 2, _ => simp [receiver] at running
  obtain ⟨_, ordered, conserved, _, waits⟩ := channels_deliver reached
  obtain ⟨uncancelled, opened, empty, _⟩ := waits quiet 2 0 .receive 1 receiver waiting
  exact ⟨s, ran, arrived, (ordered 0).1, conserved, waiting, uncancelled, opened, empty rfl⟩

end Fai.Scheduler
