import FaiVerif.Scheduler.Step

/-!
# What holds of every state

The facts about the shape of a reachable state: threads that do not exist yet are blank, a suspended
thread is between two steps of a call that can park, and a call in progress only names channels that
exist. From these, one step inside the runtime changes what no thread but its own is doing.
-/

namespace Fai.Scheduler

variable {α : Type}

/-- What a thread that does not run can be doing. -/
def Doing.resting (mode : Mode) : Doing α → Bool
  | .steps rest => rest.isEmpty
  | .channel _ _ (.asleep _) => mode == .parked
  | .await _ _ parking => mode == .parked && !parking
  | .join _ parking => mode == .parked && !parking
  | _ => false

/-- The shape of a reachable state. -/
structure Formed (s : State α) : Prop where
  /-- Threads that do not exist yet are blank. -/
  beyond : ∀ t, s.next ≤ t → s.mode t = .finished ∧ s.doing t = .steps []
  /-- A thread that does not run is between two steps. -/
  resting : ∀ t, s.mode t ≠ .running → (s.doing t).resting (s.mode t) = true
  /-- A call in progress keeps its channel. -/
  uses : ∀ t c, (s.doing t).uses c = true → c < s.chanCount ∧ (s.chan c).dropped = false
  /-- Channels that do not exist yet are blank. -/
  absent : ∀ c, s.chanCount ≤ c → s.chan c = Chan.absent

/-- A thread that is not finished exists. -/
theorem Formed.exists {s : State α} (formed : Formed s) {t : TaskId}
    (unfinished : s.mode t ≠ .finished) : t < s.next := by
  by_contra outside
  exact unfinished (formed.beyond t (Nat.le_of_not_lt outside)).1

/-- A thread that runs exists. -/
theorem Formed.exists_running {s : State α} (formed : Formed s) {t : TaskId}
    (running : s.mode t = .running) : t < s.next := by
  apply formed.exists
  rw [running]
  simp

/-- A thread in a call exists. -/
theorem Formed.exists_doing {s : State α} (formed : Formed s) {t : TaskId}
    (busy : s.doing t ≠ .steps []) : t < s.next := by
  by_contra outside
  exact busy (formed.beyond t (Nat.le_of_not_lt outside)).2

/-- A thread in the program's code runs and has no runtime step left. -/
theorem inUser_elim {s : State α} {t : TaskId} (control : s.inUser t = true) :
    s.mode t = .running ∧ s.doing t = .steps [] ∧ (s.isTask t = false ∨ s.frames t ≠ []) := by
  simp only [State.inUser, Bool.and_eq_true, beq_iff_eq, Bool.or_eq_true, Bool.not_eq_true',
    List.isEmpty_eq_false_iff] at control
  refine ⟨control.1.1, ?_, control.2⟩
  have idle := control.1.2
  cases now : s.doing t <;> simp_all [Doing.idle]

namespace MicroChange

variable {s after : State α} {t : TaskId} {m : Micro α} {pushed : List (Micro α)}

/-- A step leaves what every thread is doing to its own bookkeeping. -/
theorem doing (change : MicroChange s t m after pushed) (formed : Formed s) :
    after.doing = s.doing := by
  cases change with
  | makeTask nursery =>
    simp only [State.addTask]
    rw [← (formed.beyond s.next (Nat.le_refl _)).2, Function.update_eq_self]
  | _ => rfl

/-- A step suspends and resumes no thread. -/
theorem mode (change : MicroChange s t m after pushed) {u : TaskId} (old : u < s.next) :
    after.mode u = s.mode u := by
  cases change with
  | makeTask nursery =>
    simp only [State.addTask]
    exact Function.update_of_ne (Nat.ne_of_lt old) _ _
  | _ => rfl

/-- Threads are only added. -/
theorem next_le (change : MicroChange s t m after pushed) : s.next ≤ after.next := by
  cases change with
  | makeTask nursery => exact Nat.le_succ _
  | _ => exact Nat.le_refl _

/-- Threads beyond the last stay blank. -/
theorem beyond (change : MicroChange s t m after pushed) (formed : Formed s) {u : TaskId}
    (outside : after.next ≤ u) : after.mode u = .finished := by
  cases change with
  | makeTask nursery =>
    simp only [State.addTask] at outside ⊢
    have different : u ≠ s.next := Nat.ne_of_gt outside
    rw [Function.update_of_ne different]
    exact (formed.beyond u (Nat.le_of_lt outside)).1
  | _ => exact (formed.beyond u outside).1

/-- A step neither makes nor drops channels. -/
theorem chans (change : MicroChange s t m after pushed) :
    after.chanCount = s.chanCount ∧ ∀ c, (after.chan c).dropped = (s.chan c).dropped ∧
      (m.uses c = false → after.chan c = s.chan c) := by
  cases change <;> refine ⟨rfl, fun c => ⟨?_, fun unused => ?_⟩⟩ <;> try rfl
  all_goals
    simp only [State.unlock, State.setChan, State.deactivate, State.record,
      Function.update_apply]
    grind [Micro.uses]

/-- The steps a step leads to work on its channel. -/
theorem uses (change : MicroChange s t m after pushed) {c : ChanId} {m' : Micro α}
    (member : m' ∈ pushed) (used : m'.uses c = true) : m.uses c = true := by
  cases change <;> simp_all [Micro.uses] <;> grind [Micro.uses]

end MicroChange

/-- A change of one thread, and of channels its call uses, keeps the shape. -/
theorem Formed.thread {s s' : State α} (formed : Formed s) {t : TaskId} (inside : t < s.next)
    (next : s'.next = s.next) (count : s'.chanCount = s.chanCount)
    (modes : ∀ u, u ≠ t → s'.mode u = s.mode u) (doings : ∀ u, u ≠ t → s'.doing u = s.doing u)
    (resting : s'.mode t ≠ .running → (s'.doing t).resting (s'.mode t) = true)
    (uses : ∀ c, (s'.doing t).uses c = true → c < s.chanCount ∧ (s.chan c).dropped = false)
    (dropped : ∀ c, (s'.chan c).dropped = (s.chan c).dropped)
    (absent : ∀ c, s.chanCount ≤ c → s'.chan c = s.chan c) : Formed s' := by
  refine ⟨?_, ?_, ?_, ?_⟩
  · intro u outside
    rw [next] at outside
    have different : u ≠ t := Nat.ne_of_gt (Nat.lt_of_lt_of_le inside outside)
    rw [modes u different, doings u different]
    exact formed.beyond u outside
  · intro u still
    by_cases same : u = t
    · subst same
      exact resting still
    · rw [doings u same, modes u same]
      exact formed.resting u (modes u same ▸ still)
  · intro u c used
    rw [count, dropped]
    by_cases same : u = t
    · subst same
      exact uses c used
    · exact formed.uses u c (doings u same ▸ used)
  · intro c outside
    rw [count] at outside
    rw [absent c outside]
    exact formed.absent c outside

/-- A step inside a call that does not park keeps the shape. -/
theorem Formed.micro {s after : State α} (formed : Formed s) {t : TaskId} {m : Micro α}
    {rest pushed : List (Micro α)} (running : s.mode t = .running)
    (doing : s.doing t = .steps (m :: rest)) (change : MicroChange s t m after pushed) :
    Formed (after.setDoing t (.steps (pushed ++ rest))) := by
  have inside := formed.exists_running running
  have before : ∀ c, m.uses c = true ∨ rest.any (Micro.uses c) = true →
      c < s.chanCount ∧ (s.chan c).dropped = false := by
    intro c used
    apply formed.uses t c
    simpa [doing, Doing.uses] using used
  refine ⟨?_, ?_, ?_, ?_⟩
  · intro u outside
    have different : u ≠ t :=
      Nat.ne_of_gt (Nat.lt_of_lt_of_le inside (Nat.le_trans change.next_le outside))
    refine ⟨change.beyond formed outside, ?_⟩
    simp only [State.setDoing, Function.update_of_ne different, change.doing formed]
    exact (formed.beyond u (Nat.le_trans change.next_le outside)).2
  · intro u still
    by_cases same : u = t
    · subst same
      rw [show (after.setDoing u _).mode u = after.mode u from rfl, change.mode inside] at still
      exact absurd running still
    · simp only [State.setDoing, Function.update_of_ne same, change.doing formed] at still ⊢
      by_cases old : u < s.next
      · rw [change.mode old] at still ⊢
        exact formed.resting u still
      · rw [(formed.beyond u (Nat.le_of_not_lt old)).2]
        rfl
  · intro u c used
    simp only [State.setDoing] at used ⊢
    rw [change.chans.1, (change.chans.2 c).1]
    by_cases same : u = t
    · subst same
      simp only [Function.update_self, Doing.uses, List.any_append, Bool.or_eq_true,
        List.any_eq_true] at used
      rcases used with ⟨m', member, used⟩ | used
      · exact before c (Or.inl (change.uses member used))
      · exact before c (Or.inr (List.any_eq_true.mpr used))
    · rw [Function.update_of_ne same, change.doing formed] at used
      exact formed.uses u c used
  · intro c outside
    simp only [State.setDoing] at outside ⊢
    rw [change.chans.1] at outside
    have unused : m.uses c = false := by
      by_contra used
      exact Nat.not_lt_of_le outside (before c (Or.inl (eq_true_of_ne_false used))).1
    rw [(change.chans.2 c).2 unused]
    exact formed.absent c outside

/-- A step of a blocking channel operation keeps the shape. -/
theorem Formed.channel {s s' : State α} (formed : Formed s) {t : TaskId} {c : ChanId}
    {op : ChanOp α} {stage : Stage} (running : s.mode t = .running)
    (doing : s.doing t = .channel c op stage) (change : ChannelChange s t c op stage s') :
    Formed s' := by
  have inside := formed.exists_running running
  have here : c < s.chanCount ∧ (s.chan c).dropped = false := by
    apply formed.uses t c
    simp [doing, Doing.uses]
  have away : ∀ d, s.chanCount ≤ d → d ≠ c :=
    fun d outside => Nat.ne_of_gt (Nat.lt_of_lt_of_le here.1 outside)
  cases change
  all_goals
    refine formed.thread inside rfl rfl
      (fun u different => by simp [State.registerWaiter, Function.update_of_ne different])
      (fun u different => by simp [State.registerWaiter, Function.update_of_ne different])
      (by simp [running, State.registerWaiter, Doing.resting])
      (fun d used => ?_) (fun d => ?_)
      (fun d outside => by simp [State.registerWaiter, Function.update_of_ne (away d outside)])
    · simp only [State.setDoing, State.setMode, State.registerWaiter, Function.update_self,
        Doing.uses, Micro.uses, List.any_cons, List.any_nil, Bool.or_false, Bool.false_eq_true,
        beq_iff_eq] at used
      try exact used ▸ here
    · by_cases same : d = c <;> simp [State.registerWaiter, same]

/-- A call of the program's code keeps the shape. -/
theorem Formed.call {s : State α} (formed : Formed s) {t : TaskId} {c : Call α}
    (running : s.mode t = .running) (valid : c.valid s = true) : Formed (s.call t c) := by
  have inside := formed.exists_running running
  cases c with
  | channel capacity =>
    refine ⟨formed.beyond, formed.resting, ?_, ?_⟩
    · intro u d used
      have before := formed.uses u d used
      have different : d ≠ s.chanCount := Nat.ne_of_lt before.1
      simp only [State.call, Function.update_of_ne different]
      exact ⟨Nat.lt_succ_of_lt before.1, before.2⟩
    · intro d outside
      have different : d ≠ s.chanCount := Nat.ne_of_gt outside
      simp only [State.call, Function.update_of_ne different]
      exact formed.absent d (Nat.le_of_lt outside)
  | scope =>
    exact ⟨formed.beyond, formed.resting, formed.uses, formed.absent⟩
  | cleanup =>
    exact ⟨formed.beyond, formed.resting, formed.uses, formed.absent⟩
  | spawn nursery =>
    cases nursery
    all_goals
      refine formed.thread inside rfl rfl (fun _ _ => rfl)
        (fun u different => by simp [State.call, Function.update_of_ne different])
        (fun still => absurd running still) ?_ (fun _ => rfl) (fun _ _ => rfl)
      intro d used
      simp [State.call, Doing.uses, Micro.uses] at used
  | _ =>
    refine formed.thread inside rfl rfl (fun _ _ => rfl)
      (fun u different => by simp [State.call, Function.update_of_ne different])
      (fun still => absurd running still) ?_ (fun _ => rfl) (fun _ _ => rfl)
    intro d used
    simp_all [State.call, Call.valid, Doing.uses, Micro.uses]

/-- A step that leaves one thread in a call without a channel keeps the shape. -/
theorem Formed.apart {s s' : State α} (formed : Formed s) {t : TaskId}
    (running : s.mode t = .running) (next : s'.next = s.next)
    (count : s'.chanCount = s.chanCount) (chans : s'.chan = s.chan)
    (modes : ∀ u, u ≠ t → s'.mode u = s.mode u) (doings : ∀ u, u ≠ t → s'.doing u = s.doing u)
    (resting : s'.mode t ≠ .running → (s'.doing t).resting (s'.mode t) = true)
    (uses : ∀ c, (s'.doing t).uses c = false) : Formed s' := by
  refine formed.thread (formed.exists_running running) next count modes doings resting ?_
    (fun c => by rw [chans]) (fun c _ => by rw [chans])
  intro c used
  rw [uses c] at used
  cases used

/-- Every step keeps the shape. -/
theorem Formed.change {s s' : State α} (formed : Formed s) (change : Change s s') :
    Formed s' := by
  cases change with
  | host =>
    refine ⟨?_, ?_, ?_, ?_⟩
    · intro u outside
      have different : u ≠ s.next := Nat.ne_of_gt outside
      simp only [State.addHost, Function.update_of_ne different]
      exact formed.beyond u (Nat.le_of_lt outside)
    · intro u still
      by_cases same : u = s.next
      · simp [State.addHost, same] at still
      · simp only [State.addHost, Function.update_of_ne same] at still ⊢
        exact formed.resting u still
    · intro u c used
      by_cases same : u = s.next
      · simp [State.addHost, same, Doing.uses] at used
      · simp only [State.addHost, Function.update_of_ne same] at used ⊢
        exact formed.uses u c used
    · exact formed.absent
  | call t c control allowed valid =>
    exact formed.call (inUser_elim control).1 valid
  | give t r f rest stack control =>
    refine formed.thread (formed.exists_running (inUser_elim control).1) rfl rfl (fun _ _ => rfl)
      (fun u different => by simp [Function.update_of_ne different])
      (fun still => absurd (inUser_elim control).1 still) ?_ (fun _ => rfl) (fun _ _ => rfl)
    intro d used
    cases f <;> simp [Frame.resume, Doing.uses, Micro.uses] at used
  | micro t m rest after pushed running doing taken => exact formed.micro running doing taken
  | finish t running doing task stack =>
    refine formed.thread (formed.exists_running running) rfl rfl
      (fun u different => Function.update_of_ne different _ _) (fun _ _ => rfl) ?_
      (fun d used => formed.uses t d used) (fun _ => rfl) (fun _ _ => rfl)
    simp [State.setMode, doing, Doing.resting]
  | channel t c op stage s' running doing taken => exact formed.channel running doing taken
  | await t h registered parking running doing =>
    unfold State.awaitStep
    repeat' split
    all_goals
      exact formed.apart running rfl rfl rfl
        (fun u different => by simp [Function.update_of_ne different])
        (fun u different => by simp [Function.update_of_ne different])
        (by simp [running, Doing.resting]) (fun _ => by simp [Doing.uses])
  | join t n parking running doing =>
    unfold State.joinStep
    repeat' split
    all_goals
      exact formed.apart running rfl rfl rfl
        (fun u different => by simp [Function.update_of_ne different])
        (fun u different => by simp [Function.update_of_ne different])
        (by simp [running, Doing.resting]) (fun _ => by simp [Doing.uses])
  | park t running doing =>
    refine formed.thread (formed.exists_running running) rfl rfl
      (fun u different => by simp [Function.update_of_ne different])
      (fun u different => by simp [Function.update_of_ne different])
      (fun _ => by simp [Doing.resting]) ?_ (fun _ => rfl) (fun _ _ => rfl)
    intro d used
    simp [Doing.uses] at used
  | resume t parked queued =>
    refine formed.thread (formed.exists (by simp [parked])) rfl rfl
      (fun u different => by simp [Function.update_of_ne different]) (fun _ _ => rfl)
      (fun still => absurd (Function.update_self _ _ _) still)
      (fun d used => formed.uses t d used) (fun _ => rfl) (fun _ _ => rfl)
  | stale t finished queued => exact ⟨formed.beyond, formed.resting, formed.uses, formed.absent⟩
  | wake t unfinished task => exact ⟨formed.beyond, formed.resting, formed.uses, formed.absent⟩
  | dropChan c present unused =>
    refine ⟨formed.beyond, formed.resting, ?_, ?_⟩
    · intro t d used
      have exists_ : t < s.next := by
        apply formed.exists_doing
        intro blank
        simp [State.dropChan, blank, Doing.uses] at used
      have different : d ≠ c := by
        rintro rfl
        have := unused t exists_
        simp_all [State.dropChan]
      simp only [State.dropChan, Function.update_of_ne different]
      exact formed.uses t d used
    · intro d outside
      have different : d ≠ c := by
        rintro rfl
        rw [formed.absent d outside] at present
        simp [Chan.absent] at present
      simp only [State.dropChan, Function.update_of_ne different]
      exact formed.absent d outside

/-- Every reachable state has the shape. -/
theorem Reachable.formed {s : State α} (reached : Reachable s) : Formed s := by
  refine Reachable.invariant ?_ (fun s s' _ formed change => formed.change change) reached
  exact ⟨fun _ _ => ⟨rfl, rfl⟩, fun _ _ => rfl,
    fun _ _ used => by simp [State.initial, Doing.uses] at used,
    fun _ _ => rfl⟩

end Fai.Scheduler
