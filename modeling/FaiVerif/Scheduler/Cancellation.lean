import FaiVerif.Scheduler.Structured

/-!
# The cancellation tree

A task whose cancellation is in effect has its unfinished children flagged, or a step that will flag
them is on its way: the flag is set before the children are read, a child is registered before the
flag is read, and the end of a cleanup section reads both again.
-/

namespace Fai.Scheduler

variable {α : Type}

/-- A step is on its way that passes the cancellation of a task on to its child. -/
def Spreading (s : State α) (p c : TaskId) : Prop :=
  s.Pending (.cancelMask p) ∨ s.Pending (.cancelChildren p) ∨ s.Pending (.cancelTask c) ∨
    .registerChild c ∈ (s.doing p).pending ∨ .registerProbe c ∈ (s.doing p).pending ∨
    .unmaskProbe ∈ (s.doing p).pending

/-- What the cancellation tree comes to in a reachable state. -/
structure Tree (s : State α) : Prop where
  /-- Parents are tasks that exist. -/
  known : ∀ c p, s.parent c = some p → p < s.next ∧ c < s.next ∧ s.isTask p = true
  /-- An unfinished child is linked, or about to be. -/
  linked : ∀ c p, s.parent c = some p → s.mode c ≠ .finished →
    c ∈ s.children p ∨ .registerChild c ∈ (s.doing p).pending
  /-- A cancellation in effect has reached the unfinished children, or is about to. -/
  spread : ∀ c p, s.parent c = some p → s.mode c ≠ .finished → s.cancelled p = true →
    s.cleanupDepth p = 0 → s.cancelled c = true ∨ Spreading s p c

/-- A cancellation stays on its way while no pending step is lost. -/
theorem Spreading.keeps {s s' : State α} {p c : TaskId}
    (pending : ∀ u m, m ∈ (s.doing u).pending → m ∈ (s'.doing u).pending)
    (spreading : Spreading s p c) : Spreading s' p c := by
  have keeps : ∀ m, s.Pending m → s'.Pending m := by
    rintro m ⟨u, member⟩
    exact ⟨u, pending u m member⟩
  rcases spreading with step | step | step | step | step | step
  · exact Or.inl (keeps _ step)
  · exact Or.inr (Or.inl (keeps _ step))
  · exact Or.inr (Or.inr (Or.inl (keeps _ step)))
  · exact Or.inr (Or.inr (Or.inr (Or.inl (pending p _ step))))
  · exact Or.inr (Or.inr (Or.inr (Or.inr (Or.inl (pending p _ step)))))
  · exact Or.inr (Or.inr (Or.inr (Or.inr (Or.inr (pending p _ step)))))

/-- A change that leaves the cancellation tree alone, or only masks tasks. -/
structure TreeApart (s s' : State α) : Prop where
  next : s'.next = s.next
  isTask : s'.isTask = s.isTask
  parent : s'.parent = s.parent
  children : s'.children = s.children
  cancelled : s'.cancelled = s.cancelled
  masks : ∀ p, s'.cleanupDepth p = 0 → s.cleanupDepth p = 0
  modes : ∀ c, s'.mode c ≠ .finished → s.mode c ≠ .finished
  pending : ∀ u m, m ∈ (s.doing u).pending → m ∈ (s'.doing u).pending

/-- A change that leaves the tree alone keeps it. -/
theorem Tree.apart {s s' : State α} (tree : Tree s) (apart : TreeApart s s') : Tree s' := by
  refine ⟨?_, ?_, ?_⟩
  · intro c p spawned
    rw [apart.parent] at spawned
    rw [apart.next, apart.isTask]
    exact tree.known c p spawned
  · intro c p spawned unfinished
    rw [apart.parent] at spawned
    rw [apart.children]
    exact (tree.linked c p spawned (apart.modes c unfinished)).imp id (apart.pending p _)
  · intro c p spawned unfinished flagged unmasked
    rw [apart.parent] at spawned
    rw [apart.cancelled] at flagged ⊢
    exact (tree.spread c p spawned (apart.modes c unfinished) flagged
      (apart.masks p unmasked)).imp id (Spreading.keeps apart.pending)

/-- One unfinished thread moves from no pending step. -/
theorem TreeApart.thread {s s' : State α} {t : TaskId} (idle : (s.doing t).pending = [])
    (unfinished : s.mode t ≠ .finished) (doings : ∀ u, u ≠ t → s'.doing u = s.doing u)
    (modes : ∀ u, u ≠ t → s'.mode u = s.mode u) (next : s'.next = s.next)
    (isTask : s'.isTask = s.isTask) (parent : s'.parent = s.parent)
    (children : s'.children = s.children) (cancelled : s'.cancelled = s.cancelled)
    (masks : ∀ p, s'.cleanupDepth p = 0 → s.cleanupDepth p = 0) : TreeApart s s' := by
  refine ⟨next, isTask, parent, children, cancelled, masks, ?_, ?_⟩
  · intro c later
    by_cases same : c = t
    · subst same
      exact unfinished
    · rwa [← modes c same]
  · intro u m member
    by_cases same : u = t
    · subst same
      rw [idle] at member
      cases member
    · rwa [doings u same]

/-- A step of a blocking channel operation leaves the tree alone. -/
theorem ChannelChange.tree {s s' : State α} {t : TaskId} {c : ChanId} {op : ChanOp α}
    {stage : Stage} (change : ChannelChange s t c op stage s') (running : s.mode t = .running)
    (doing : s.doing t = .channel c op stage) : TreeApart s s' := by
  have idle : (s.doing t).pending = [] := by rw [doing]; rfl
  have unfinished : s.mode t ≠ .finished := by simp [running]
  cases change <;>
    exact TreeApart.thread idle unfinished
      (fun u other => by simp [State.registerWaiter, Function.update_of_ne other])
      (fun u other => by simp [State.registerWaiter, Function.update_of_ne other])
      rfl rfl rfl rfl rfl (fun _ => id)

/-- A call of the program leaves the tree alone, or masks its task. -/
theorem call_tree {s : State α} {t : TaskId} {c : Call α} (running : s.mode t = .running)
    (doing : s.doing t = .steps []) : TreeApart s (s.call t c) := by
  have idle : (s.doing t).pending = [] := by rw [doing]; rfl
  have unfinished : s.mode t ≠ .finished := by simp [running]
  cases c with
  | cleanup =>
    refine TreeApart.thread idle unfinished (fun _ _ => rfl) (fun _ _ => rfl) rfl rfl rfl rfl rfl ?_
    intro p unmasked
    by_cases same : p = t
    · subst same
      simp [State.call] at unmasked
    · simpa [State.call, Function.update_of_ne same] using unmasked
  | spawn nursery =>
    cases nursery <;>
      exact TreeApart.thread idle unfinished
        (fun u other => by simp [State.call, Function.update_of_ne other]) (fun _ _ => rfl)
        rfl rfl rfl rfl rfl (fun _ => id)
  | _ =>
    exact TreeApart.thread idle unfinished
      (fun u other => by simp [State.call, Function.update_of_ne other]) (fun _ _ => rfl)
      rfl rfl rfl rfl rfl (fun _ => id)

/-- A step of `await_handle` leaves the tree alone. -/
theorem awaitStep_tree {s : State α} {t h : TaskId} {registered parking : Bool}
    (running : s.mode t = .running) (doing : s.doing t = .await h registered parking) :
    TreeApart s (s.awaitStep t h registered parking) := by
  have idle : (s.doing t).pending = [] := by rw [doing]; rfl
  have unfinished : s.mode t ≠ .finished := by simp [running]
  unfold State.awaitStep
  split
  · exact TreeApart.thread idle unfinished
      (fun u other => by simp [Function.update_of_ne other])
      (fun u other => by simp [Function.update_of_ne other]) rfl rfl rfl rfl rfl (fun _ => id)
  · split
    · exact TreeApart.thread idle unfinished
        (fun u other => by simp [Function.update_of_ne other]) (fun _ _ => rfl)
        rfl rfl rfl rfl rfl (fun _ => id)
    · split <;>
        exact TreeApart.thread idle unfinished
          (fun u other => by simp [Function.update_of_ne other]) (fun _ _ => rfl)
          rfl rfl rfl rfl rfl (fun _ => id)

/-- A step of `Nursery::join` leaves the tree alone. -/
theorem joinStep_tree {s : State α} {t : TaskId} {n : NurseryId} {parking : Bool}
    (running : s.mode t = .running) (doing : s.doing t = .join n parking) :
    TreeApart s (s.joinStep t n parking) := by
  have idle : (s.doing t).pending = [] := by rw [doing]; rfl
  have unfinished : s.mode t ≠ .finished := by simp [running]
  unfold State.joinStep
  split
  · exact TreeApart.thread idle unfinished
      (fun u other => by simp [Function.update_of_ne other])
      (fun u other => by simp [Function.update_of_ne other]) rfl rfl rfl rfl rfl (fun _ => id)
  · split <;>
      exact TreeApart.thread idle unfinished
        (fun u other => by simp [Function.update_of_ne other]) (fun _ _ => rfl)
        rfl rfl rfl rfl rfl (fun _ => id)

/-- A new thread of the host has no place in the tree. -/
theorem Tree.host {s : State α} (tree : Tree s) (formed : Formed s) : Tree s.addHost := by
  have known : ∀ c p, s.addHost.parent c = some p → s.parent c = some p ∧ p ≠ s.next ∧
      c ≠ s.next := by
    intro c p spawned
    by_cases new : c = s.next
    · simp [State.addHost, new] at spawned
    · have before : s.parent c = some p := by
        simpa [State.addHost, Function.update_of_ne new] using spawned
      exact ⟨before, Nat.ne_of_lt (tree.known c p before).1, new⟩
  have pending : ∀ u m, m ∈ (s.doing u).pending → m ∈ (s.addHost.doing u).pending := by
    intro u m member
    have old : u ≠ s.next :=
      Nat.ne_of_lt (formed.exists_doing (by intro rest; simp [rest, Doing.pending] at member))
    simpa [State.addHost, Function.update_of_ne old] using member
  refine ⟨?_, ?_, ?_⟩
  · intro c p spawned
    obtain ⟨before, old, -⟩ := known c p spawned
    obtain ⟨parent, child, task⟩ := tree.known c p before
    refine ⟨Nat.lt_succ_of_lt parent, Nat.lt_succ_of_lt child, ?_⟩
    simpa [State.addHost, Function.update_of_ne old] using task
  · intro c p spawned unfinished
    obtain ⟨before, old, oldC⟩ := known c p spawned
    have still : s.mode c ≠ .finished := by
      simpa [State.addHost, Function.update_of_ne oldC] using unfinished
    refine (tree.linked c p before still).imp ?_ (pending p _)
    intro linked
    simpa [State.addHost, Function.update_of_ne old] using linked
  · intro c p spawned unfinished flagged unmasked
    obtain ⟨before, old, oldC⟩ := known c p spawned
    have still : s.mode c ≠ .finished := by
      simpa [State.addHost, Function.update_of_ne oldC] using unfinished
    have flag : s.cancelled p = true := by
      simpa [State.addHost, Function.update_of_ne old] using flagged
    have open_ : s.cleanupDepth p = 0 := by
      simpa [State.addHost, Function.update_of_ne old] using unmasked
    refine (tree.spread c p before still flag open_).imp ?_ (Spreading.keeps pending)
    intro arrived
    simpa [State.addHost, Function.update_of_ne oldC] using arrived

section Micro

variable {s after : State α} {t : TaskId} {m : Micro α} {pushed rest : List (Micro α)}

/-- A thread's pending step stays so, but the one it takes. -/
theorem stepped_own (formed : Formed s) (doing : s.doing t = .steps (m :: rest))
    (change : MicroChange s t m after pushed) {u : TaskId} {m' : Micro α}
    (member : m' ∈ (s.doing u).pending) :
    (u = t ∧ m' = m) ∨ m' ∈ ((after.stepped t pushed rest).doing u).pending := by
  by_cases same : u = t
  · subst same
    rw [doing] at member
    rcases List.mem_cons.mp member with first | later
    · exact Or.inl ⟨rfl, first⟩
    · right
      rw [stepped_self]
      exact List.mem_append_right _ later
  · right
    rwa [stepped_doing formed change same]

/-- The steps a step leads to are pending in its own thread. -/
theorem stepped_own_pushed {m' : Micro α} (member : m' ∈ pushed) :
    m' ∈ ((after.stepped t pushed rest).doing t).pending := by
  rw [stepped_self]
  exact List.mem_append_left _ member

/-- Who spawned a task after a step: as before, or the thread that took it. -/
theorem MicroChange.parent (change : MicroChange s t m after pushed) {c p : TaskId}
    (spawned : after.parent c = some p) : s.parent c = some p ∨
      (c = s.next ∧ p = t ∧ s.isTask t = true ∧ .registerChild c ∈ pushed ∧
        after.next = s.next + 1) := by
  cases change with
  | makeTask nursery =>
    simp only [State.addTask, Function.update_apply] at spawned
    split at spawned
    next new =>
      right
      split at spawned
      next task =>
        cases spawned
        exact ⟨new, rfl, task, by simp [new], rfl⟩
      next => cases spawned
    next => exact Or.inl spawned
  | _ => exact Or.inl spawned

/-- The children of a task that are not finished stay linked. -/
theorem MicroChange.children (change : MicroChange s t m after pushed) {c p : TaskId}
    (old : p < s.next) (unfinished : s.mode c ≠ .finished) (linked : c ∈ s.children p) :
    c ∈ after.children p := by
  have held : s.held c = true := by
    simp [State.held, unfinished]
  have alive : c ∈ s.aliveChildren p := List.mem_filter.mpr ⟨linked, held⟩
  cases change with
  | makeTask nursery =>
    simp only [State.addTask]
    rw [Function.update_of_ne (Nat.ne_of_lt old)]
    exact linked
  | cancelChildren u =>
    by_cases same : p = u
    · subst same
      simpa using alive
    · simpa [Function.update_of_ne same] using linked
  | registerChild u task =>
    by_cases same : p = t
    · subst same
      simp [alive]
    · simpa [Function.update_of_ne same] using linked
  | _ => exact linked

/-- The mask of a task falls only at the end of its own cleanup section. -/
theorem MicroChange.unmasked (change : MicroChange s t m after pushed) {p : TaskId}
    (old : p < s.next) (unmasked : after.cleanupDepth p = 0) : s.cleanupDepth p = 0 ∨
      (p = t ∧ .unmaskProbe ∈ pushed) := by
  by_cases same : p = t
  · subst same
    cases change with
    | unmask =>
      simp only [Function.update_self] at unmasked
      by_cases last : s.cleanupDepth p = 1
      · exact Or.inr ⟨rfl, by simp [last]⟩
      · left
        omega
    | makeTask nursery =>
      left
      simpa [State.addTask, Function.update_of_ne (Nat.ne_of_lt old)] using unmasked
    | _ => exact Or.inl unmasked
  · left
    rwa [change.cleanupDepth old same] at unmasked

/-- A cancellation on its way stays so, or has arrived. -/
theorem Tree.spreading_micro (tree : Tree s) (formed : Formed s)
    (doing : s.doing t = .steps (m :: rest)) (change : MicroChange s t m after pushed)
    {c p : TaskId} (spawned : s.parent c = some p) (unfinished : s.mode c ≠ .finished)
    (flagged : s.cancelled p = true) (unmasked : after.cleanupDepth p = 0)
    (before : s.cleanupDepth p = 0) (spreading : Spreading s p c) :
    after.cancelled c = true ∨ Spreading (after.stepped t pushed rest) p c := by
  obtain ⟨old, oldC, task⟩ := tree.known c p spawned
  rcases spreading with step | step | step | step | step | step
  · rcases stepped_pending formed doing change step with rfl | step
    · right
      cases change with
      | cancelMasked _ masked => exact absurd before masked
      | cancelOpen _ _ => exact Or.inr (Or.inl (stepped_pushed (by simp)))
    · exact Or.inr (Or.inl step)
  · rcases stepped_pending formed doing change step with rfl | step
    · right
      rcases tree.linked c p spawned unfinished with linked | step
      · refine Or.inr (Or.inr (Or.inl ?_))
        have held : s.held c = true := by
          simp [State.held, unfinished]
        cases change
        apply stepped_pushed
        exact List.mem_map_of_mem (List.mem_filter.mpr ⟨linked, held⟩)
      · rcases stepped_own formed doing change step with ⟨-, same⟩ | step
        · cases same
        · exact Or.inr (Or.inr (Or.inr (Or.inl step)))
    · exact Or.inr (Or.inr (Or.inl step))
  · rcases stepped_pending formed doing change step with rfl | step
    · left
      cases change with
      | cancelAgain _ already => exact already
      | cancelFirst _ _ => simp
    · exact Or.inr (Or.inr (Or.inr (Or.inl step)))
  · right
    rcases stepped_own formed doing change step with ⟨rfl, rfl⟩ | step
    · cases change with
      | registerChild _ _ =>
        exact Or.inr (Or.inr (Or.inr (Or.inr (Or.inl (stepped_own_pushed (by simp))))))
      | registerNone _ host =>
        rw [task] at host
        cases host
    · exact Or.inr (Or.inr (Or.inr (Or.inl step)))
  · right
    rcases stepped_own formed doing change step with ⟨rfl, rfl⟩ | step
    · cases change
      exact Or.inr (Or.inr (Or.inl (stepped_pushed (by simp [State.isCancelled, flagged, before]))))
    · exact Or.inr (Or.inr (Or.inr (Or.inr (Or.inl step))))
  · right
    rcases stepped_own formed doing change step with ⟨rfl, rfl⟩ | step
    · cases change
      exact Or.inr (Or.inl (stepped_pushed (by simp [flagged])))
    · exact Or.inr (Or.inr (Or.inr (Or.inr (Or.inr step))))

/-- A step inside a call that does not park keeps the tree. -/
theorem Tree.micro (tree : Tree s) (formed : Formed s) (doing : s.doing t = .steps (m :: rest))
    (change : MicroChange s t m after pushed) : Tree (after.stepped t pushed rest) := by
  have inside : t < s.next := formed.exists_doing (by simp [doing])
  have isTask : ∀ u, u < s.next → after.isTask u = s.isTask u := by
    intro u old
    cases change with
    | makeTask nursery =>
      simp only [State.addTask]
      exact Function.update_of_ne (Nat.ne_of_lt old) _ _
    | _ => rfl
  refine ⟨?_, ?_, ?_⟩
  · intro c p spawned
    show p < after.next ∧ c < after.next ∧ after.isTask p = true
    rcases change.parent spawned with before | ⟨rfl, rfl, task, -, more⟩
    · obtain ⟨old, oldC, task⟩ := tree.known c p before
      exact ⟨Nat.lt_of_lt_of_le old change.next_le, Nat.lt_of_lt_of_le oldC change.next_le,
        (isTask p old).trans task⟩
    · rw [more]
      exact ⟨Nat.lt_succ_of_lt inside, Nat.lt_succ_self _, (isTask p inside).trans task⟩
  · intro c p spawned unfinished
    show c ∈ after.children p ∨ _
    rcases change.parent spawned with before | ⟨rfl, rfl, -, pending, -⟩
    · obtain ⟨old, oldC, -⟩ := tree.known c p before
      have still : s.mode c ≠ .finished := change.mode oldC ▸ unfinished
      rcases tree.linked c p before still with linked | step
      · exact Or.inl (change.children old still linked)
      · rcases stepped_own formed doing change step with ⟨rfl, rfl⟩ | step
        · left
          cases change with
          | registerChild _ _ => simp
          | registerNone _ host =>
            rw [(tree.known c p before).2.2] at host
            cases host
        · exact Or.inr step
    · exact Or.inr (stepped_own_pushed pending)
  · intro c p spawned unfinished flagged unmasked
    show after.cancelled c = true ∨ _
    rcases change.parent spawned with before | ⟨rfl, rfl, -, pending, -⟩
    · obtain ⟨old, oldC, -⟩ := tree.known c p before
      have still : s.mode c ≠ .finished := change.mode oldC ▸ unfinished
      rcases change.unmasked old unmasked with open_ | ⟨rfl, probe⟩
      · by_cases already : s.cancelled p = true
        · rcases tree.spread c p before still already open_ with arrived | spreading
          · exact Or.inl (change.flag oldC arrived)
          · exact tree.spreading_micro formed doing change before still already unmasked open_
              spreading
        · exact Or.inr (Or.inl (stepped_pushed
            (change.flag_new (eq_false_of_ne_true already) flagged)))
      · exact Or.inr (Or.inr (Or.inr (Or.inr (Or.inr (Or.inr (stepped_own_pushed probe))))))
    · exact Or.inr (Or.inr (Or.inr (Or.inr (Or.inl (stepped_own_pushed pending)))))

end Micro

/-- Every step keeps the tree. -/
theorem Tree.change {s s' : State α} (tree : Tree s) (formed : Formed s) (change : Change s s') :
    Tree s' := by
  cases change with
  | host => exact tree.host formed
  | call t c control allowed valid =>
    obtain ⟨running, doing, -⟩ := inUser_elim control
    exact tree.apart (call_tree running doing)
  | give t r f rest stack control =>
    obtain ⟨running, doing, -⟩ := inUser_elim control
    exact tree.apart (TreeApart.thread (by rw [doing]; rfl) (by simp [running])
      (fun u other => by simp [Function.update_of_ne other]) (fun _ _ => rfl)
      rfl rfl rfl rfl rfl (fun _ => id))
  | micro t m rest after pushed running doing taken => exact tree.micro formed doing taken
  | finish t running doing task stack =>
    refine tree.apart ⟨rfl, rfl, rfl, rfl, rfl, fun _ => id, ?_, fun _ _ => id⟩
    intro c unfinished
    by_cases same : c = t
    · subst same
      simp [running]
    · simpa [Function.update_of_ne same] using unfinished
  | channel t c op stage s' running doing taken => exact tree.apart (taken.tree running doing)
  | await t h registered parking running doing => exact tree.apart (awaitStep_tree running doing)
  | join t n parking running doing => exact tree.apart (joinStep_tree running doing)
  | park t running doing =>
    exact tree.apart (TreeApart.thread (by rw [doing]; rfl) (by simp [running])
      (fun u other => by simp [Function.update_of_ne other])
      (fun u other => by simp [Function.update_of_ne other]) rfl rfl rfl rfl rfl (fun _ => id))
  | resume t parked queued =>
    refine tree.apart ⟨rfl, rfl, rfl, rfl, rfl, fun _ => id, ?_, fun _ _ => id⟩
    intro c unfinished
    by_cases same : c = t
    · subst same
      simp [parked]
    · simpa [Function.update_of_ne same] using unfinished
  | stale t finished queued =>
    exact tree.apart ⟨rfl, rfl, rfl, rfl, rfl, fun _ => id, fun _ => id, fun _ _ => id⟩
  | wake t unfinished task =>
    exact tree.apart ⟨rfl, rfl, rfl, rfl, rfl, fun _ => id, fun _ => id, fun _ _ => id⟩
  | dropChan c present unused =>
    exact tree.apart ⟨rfl, rfl, rfl, rfl, rfl, fun _ => id, fun _ => id, fun _ _ => id⟩

/-- What the cancellation tree comes to in a reachable state. -/
theorem Reachable.tree {s : State α} (reached : Reachable s) : Tree s := by
  refine Reachable.invariant ?_ (fun s s' before tree change =>
    tree.change before.formed change) reached
  refine ⟨?_, ?_, ?_⟩ <;> simp [State.initial]

/-- A line of descent whose tasks in between are unfinished and outside every cleanup section. -/
inductive Descends (s : State α) (p : TaskId) : TaskId → Prop where
  | child {d : TaskId} (spawned : s.parent d = some p) : Descends s p d
  | grand {c d : TaskId} (line : Descends s p c) (unfinished : s.mode c ≠ .finished)
      (unmasked : s.cleanupDepth c = 0) (spawned : s.parent d = some c) : Descends s p d

/-- A step that passes a cancellation on is under way on the line from a task to its descendant. -/
def UnderWay (s : State α) (p d : TaskId) : Prop :=
  ∃ q c, (q = p ∨ Descends s p q) ∧ (c = d ∨ Descends s c d) ∧ s.parent c = some q ∧
    Spreading s q c

/-- A cancellation in effect has reached every unfinished descendant, or is on its way there. -/
theorem Tree.reaches {s : State α} (tree : Tree s) {p d : TaskId} (line : Descends s p d)
    (flagged : s.cancelled p = true) (unmasked : s.cleanupDepth p = 0)
    (unfinished : s.mode d ≠ .finished) : s.cancelled d = true ∨ UnderWay s p d := by
  induction line with
  | @child d spawned =>
    refine (tree.spread d p spawned unfinished flagged unmasked).imp id ?_
    intro spreading
    exact ⟨p, d, Or.inl rfl, Or.inl rfl, spawned, spreading⟩
  | @grand c d line running open_ spawned ih =>
    rcases ih running with flag | ⟨q, c', above, below, parent, spreading⟩
    · refine (tree.spread d c spawned unfinished flag open_).imp id ?_
      intro spreading
      exact ⟨c, d, Or.inr line, Or.inl rfl, spawned, spreading⟩
    · right
      refine ⟨q, c', above, Or.inr ?_, parent, spreading⟩
      rcases below with rfl | below
      · exact .child spawned
      · exact .grand below running open_ spawned

/-- When nothing can run, no cancellation is under way. -/
theorem Quiet.not_underWay {s : State α} (quiet : Quiet s) (formed : Formed s) {p d : TaskId} :
    ¬ UnderWay s p d := by
  rintro ⟨q, c, -, -, -, spreading⟩
  rcases spreading with step | step | step | step | step | step
  · exact quiet.not_pending formed step
  · exact quiet.not_pending formed step
  · exact quiet.not_pending formed step
  · exact quiet.not_pending formed ⟨q, step⟩
  · exact quiet.not_pending formed ⟨q, step⟩
  · exact quiet.not_pending formed ⟨q, step⟩

/-- Structured concurrency in every run: a join returns after the tasks of its nursery, no joiner
and no awaiter sleeps past what it waits for, all awaiters of a handle get its one result, and a
cancellation in effect reaches the unfinished descendants, through tasks that are unfinished and
outside cleanup sections, as soon as the steps that pass it on are taken. -/
theorem structured_concurrency {s : State α} (reached : Reachable s) :
    History.Justified JoinsAll s.log ∧
      (∀ t n, s.mode t = .parked → s.doing t = .join n false → s.live n = 0 →
        s.Due t ∧ ¬ Quiet s) ∧
      (∀ t h b, s.mode t = .parked → s.doing t = .await h b false → s.result h ≠ none →
        s.Due t ∧ ¬ Quiet s) ∧
      (∀ t h b r, s.mode t = .running → s.doing t = .await h b false → s.result h = some r →
        ∃ s', perform s (.advance t) = some s' ∧ .awaited t h r ∈ s'.log) ∧
      (∀ t h r, .awaited t h r ∈ s.log → s.result h = some r) ∧
      (∀ p d, s.cancelled p = true → s.cleanupDepth p = 0 → Descends s p d →
        s.mode d ≠ .finished → s.cancelled d = true ∨ (UnderWay s p d ∧ ¬ Quiet s)) := by
  have formed := reached.formed
  refine ⟨reached.nested.joined, ?_, ?_, ?_, reached.handled.awaited, ?_⟩
  · intro t n parked doing empty
    have due : s.Due t := by
      rcases reached.nested.joins t n false doing (Or.inl parked) with registered | due
      · exact absurd empty (reached.nested.joining n t registered)
      · exact due
    exact ⟨due, fun quiet => quiet.not_due formed due⟩
  · intro t h b parked doing completed
    have due : s.Due t :=
      (reached.handled.asleep t h b false doing (Or.inl parked)).2.resolve_left completed
    exact ⟨due, fun quiet => quiet.not_due formed due⟩
  · intro t h b r running doing known
    refine ⟨s.awaitStep t h b false, by simp [perform, running, State.advance, doing], ?_⟩
    simp [State.awaitStep, known]
  · intro p d flagged unmasked line unfinished
    refine (reached.tree.reaches line flagged unmasked unfinished).imp id ?_
    intro underWay
    exact ⟨underWay, fun quiet => quiet.not_underWay formed underWay⟩

/-- A task opens a nursery, and its child in it spawns another there. -/
def familyRun (inside : List (Action Nat)) : List (Action Nat) :=
  ([.host, .call 0 (.spawn none), .advance 0, .advance 0, .advance 0, .resume 1, .call 1 .scope,
    .call 1 (.spawn (some 0)), .advance 1, .advance 1, .advance 1, .advance 1, .advance 1,
    .resume 2] : List (Action Nat)) ++ inside ++
  ([.call 2 (.spawn (some 0)), .advance 2, .advance 2, .advance 2, .advance 2,
    .advance 2] : List (Action Nat))

/-- The host cancels the task, in so many steps. -/
def cancelFamily (steps : Nat) : List (Action Nat) :=
  .call 0 (.cancel 1) :: List.replicate steps (.advance 0)

/-- Midway through the cancellation the grandchild's own is on its way. -/
theorem structured_concurrency_family :
    ∃ s : State Nat, performAll State.initial (familyRun [] ++ cancelFamily 7) = some s ∧
      s.cancelled 1 = true ∧ s.cancelled 2 = true ∧ s.cancelled 3 = false ∧ UnderWay s 1 3 := by
  have ends : (performAll State.initial (familyRun [] ++ cancelFamily 7)).any (fun s =>
      s.cancelled 1 && s.cancelled 2 && !s.cancelled 3 && s.cleanupDepth 1 == 0 &&
        s.cleanupDepth 2 == 0 && s.parent 2 == some 1 && s.parent 3 == some 2 &&
        s.mode 2 != .finished && s.mode 3 != .finished) = true := by decide +kernel
  obtain ⟨s, ran, facts⟩ := (Option.any_eq_true _ _).mp ends
  simp only [Bool.and_eq_true, Bool.not_eq_true', beq_iff_eq, bne_iff_ne] at facts
  obtain ⟨⟨⟨⟨⟨⟨⟨⟨first, second⟩, third⟩, open1⟩, open2⟩, parent2⟩, parent3⟩, mode2⟩, mode3⟩ := facts
  have line : Descends s 1 3 := .grand (.child parent2) mode2 open2 parent3
  have reaches := (structured_concurrency (Reachable.initial.performAll _ ran)).2.2.2.2.2 1 3 first
    open1 line mode3
  refine ⟨s, ran, first, second, third, ?_⟩
  exact (reaches.resolve_left (by simp [third])).1

/-- A task in a cleanup section keeps the cancellation of its parent from its own children, which
are then neither flagged nor inside a cleanup section. -/
theorem not_cancelled_below_cleanup :
    ¬ ∀ s : State Nat, Reachable s → (∀ t, t < s.next → (s.doing t).pending = []) → ∀ p d,
      s.cancelled p = true → s.cleanupDepth p = 0 →
        Relation.TransGen (fun a b => s.parent b = some a) p d → s.mode d ≠ .finished →
          s.cancelled d = true ∨ s.cleanupDepth d ≠ 0 := by
  intro claim
  have ends : (performAll State.initial (familyRun [.call 2 .cleanup] ++ cancelFamily 7)).any
      (fun s => s.cancelled 1 && !s.cancelled 3 && s.cleanupDepth 1 == 0 && s.cleanupDepth 3 == 0 &&
        s.parent 2 == some 1 && s.parent 3 == some 2 && s.mode 3 != .finished &&
        (List.range s.next).all fun t => (s.doing t).pending.isEmpty) = true := by decide +kernel
  obtain ⟨s, ran, facts⟩ := (Option.any_eq_true _ _).mp ends
  simp only [Bool.and_eq_true, Bool.not_eq_true', beq_iff_eq, bne_iff_ne, List.all_eq_true,
    List.mem_range, List.isEmpty_iff] at facts
  obtain ⟨⟨⟨⟨⟨⟨⟨first, third⟩, open1⟩, open3⟩, parent2⟩, parent3⟩, mode3⟩, idle⟩ := facts
  have spawned : Relation.TransGen (fun a b => s.parent b = some a) 1 3 :=
    .tail (.single parent2) parent3
  rcases claim s (Reachable.initial.performAll _ ran) idle 1 3 first open1 spawned mode3 with
    flagged | masked
  · rw [third] at flagged
    cases flagged
  · exact masked open3

end Fai.Scheduler
