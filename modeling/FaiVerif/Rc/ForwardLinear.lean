import FaiVerif.Rc.Forward
import FaiVerif.Rc.ReuseLinear

/-!
# Linearity of forwarded tokens

Threading a token puts one use of it into every path: a build, a hand-over to a call, or its free.
Forwarding delays the free of a token to the first sink behind it and turns it into such a use.
Calls that take tokens have exactly the slots of their callee's signature, and the specialized
entry uses each of its leading tokens once on every path.
-/

namespace Fai

namespace Forward

open Reuse

mutual

/-- Every call has no token slots, or exactly those its callee's signature declares. -/
def slotsAgree (db : ForwardDb) (selfDef : DefId) : CExpr → Bool
  | .lit _ _ | .loc _ _ | .global _ _ | .makeClosure _ _ _ _ | .error _ => true
  | .prim _ args _ | .foreign _ args _ _ | .spread args _ | .recur args _
  | .makeData _ args _ _ _ _ => slotsAgreeList db selfDef args
  | .app func args reuse _ _ =>
    (reuse.isEmpty ||
      (forwardTarget db selfDef func args.length).any (·.length == reuse.length)) &&
      slotsAgree db selfDef func && slotsAgreeList db selfDef args
  | .ite cond yes no _ =>
    slotsAgree db selfDef cond && slotsAgree db selfDef yes && slotsAgree db selfDef no
  | .letIn _ value body _ | .letMany _ value body _ | .reset value _ body _ =>
    slotsAgree db selfDef value && slotsAgree db selfDef body
  | .dataTag base _ _ | .dataField base _ _ _ _ | .holeClose _ base _ => slotsAgree db selfDef base
  | .freeReuse _ body _ | .dup _ body _ | .drop _ body _ | .join _ body _
  | .holeStart _ body _ => slotsAgree db selfDef body
  | .holeFill _ cell _ _ => slotsAgree db selfDef cell

/-- Every call among the operands agrees with its callee's signature. -/
def slotsAgreeList (db : ForwardDb) (selfDef : DefId) : List CExpr → Bool
  | [] => true
  | head :: tail => slotsAgree db selfDef head && slotsAgreeList db selfDef tail

end

/-- The ways a token is used up: freed, built into or handed to a call. -/
def Uses (token : LocalId) (event : Event) : Prop :=
  event = .free token ∨ (∃ n, event = .build token n) ∨ event = .forward token

/-- A use is about its token. -/
theorem Uses.own {token : LocalId} {event : Event} (uses : Uses token event) :
    event.token? = some token := by
  rcases uses with rfl | ⟨n, rfl⟩ | rfl <;> rfl

/-- What threading a token gives. -/
structure Handed (db : ForwardDb) (selfDef : DefId) (token : LocalId) (e out : CExpr) : Prop where
  /-- The expression computes the same. -/
  same : out.strip = e.strip
  /-- Every path uses the token once. -/
  path : ControlPath.Rel (Threads (Uses token)) e.trace out.trace
  /-- Calls still agree with their callees. -/
  agrees : slotsAgree db selfDef out = true
  /-- The result is no atom. -/
  compound : out.isAtom = false

/-- Filling a slot adds one token and keeps the number of slots. -/
theorem fillSlot_inserts {token : LocalId} {reuse filled : List (Option LocalId)}
    (filledIn : fillSlot token reuse = some filled) :
    filled.length = reuse.length ∧ ∃ pre post, reuse.filterMap id = pre ++ post ∧
      filled.filterMap id = pre ++ token :: post := by
  induction reuse generalizing filled with
  | nil => cases filledIn
  | cons head rest induct =>
    cases head with
    | none =>
      cases filledIn
      exact ⟨rfl, [], rest.filterMap id, rfl, rfl⟩
    | some held =>
      obtain ⟨rest', filledRest, rfl⟩ := Option.map_eq_some_iff.mp filledIn
      obtain ⟨sameLength, pre, post, before, after⟩ := induct filledRest
      refine ⟨by simp only [List.length_cons, sameLength], held :: pre, post, ?_, ?_⟩
      · simp only [List.filterMap_cons, id, List.cons_append]
        exact congrArg _ before
      · simp only [List.filterMap_cons, id, List.cons_append]
        exact congrArg _ after

namespace Handed

variable {db : ForwardDb} {selfDef : DefId} {token : LocalId}

/-- A leaf without a sink frees the token. -/
theorem freed {e : CExpr} (agrees : slotsAgree db selfDef e = true) :
    Handed db selfDef token e (freeReuseThen token e) where
  same := rfl
  path := fun choices => ⟨rfl, .free token, .inl rfl, [], (e.trace choices).1, rfl, rfl⟩
  agrees := agrees
  compound := rfl

/-- A construction takes the token. -/
theorem attached (token : LocalId) {value : CExpr} (agrees : slotsAgree db selfDef value = true)
    (isTarget : isReuseTarget value = true) :
    ∃ out, attachReuse token value = some out ∧ Handed db selfDef token value out := by
  obtain ⟨out, attach, threaded⟩ := Threaded.attached token none isTarget
    (by intro wanted impossible; cases impossible)
  refine ⟨out, attach, threaded.same, threaded.path.imp fun before after threads => ?_, ?_, ?_⟩
  · obtain ⟨event, spends, inserted⟩ := threads
    rcases spends with freed | ⟨n, built, -⟩
    · exact ⟨event, .inl freed, inserted⟩
    · exact ⟨event, .inr (.inl ⟨n, built⟩), inserted⟩
  · unfold attachReuse at attach
    split at attach
    · cases attach
      exact agrees
    · cases attach
  · unfold attachReuse at attach
    split at attach
    · cases attach
      rfl
    · cases attach

/-- A call with a free slot takes the token. -/
theorem called {func : CExpr} {args : List CExpr} {reuse : List (Option LocalId)}
    {alloc : ClosureAlloc} {ty : Ty}
    (agrees : slotsAgree db selfDef (.app func args reuse alloc ty) = true) :
    ∃ out, threadToken db selfDef token (.app func args reuse alloc ty) = some out ∧
      Handed db selfDef token (.app func args reuse alloc ty) out := by
  simp only [slotsAgree, Bool.and_eq_true] at agrees
  obtain ⟨⟨slotted, onFunc⟩, onArgs⟩ := agrees
  have opened : (openSlots db selfDef func args.length reuse).filterMap id =
      reuse.filterMap id := by
    unfold openSlots
    split
    · rename_i empty
      rw [List.isEmpty_iff.mp empty]
      simp
    · rfl
  have openLength : openSlots db selfDef func args.length reuse = [] ∨
      (forwardTarget db selfDef func args.length).any
        (·.length == (openSlots db selfDef func args.length reuse).length) = true := by
    unfold openSlots slots
    rcases (Bool.or_eq_true _ _).mp slotted with empty | sized
    · rw [if_pos empty]
      cases forwardTarget db selfDef func args.length with
      | none => exact .inl rfl
      | some signature => exact .inr (by simp)
    · cases reuse with
      | nil =>
        cases forwardTarget db selfDef func args.length with
        | none => exact .inl rfl
        | some signature => exact .inr (by simp)
      | cons head rest => exact .inr sized
  unfold threadToken
  simp only
  cases filling : fillSlot token (openSlots db selfDef func args.length reuse) with
  | some filled =>
    obtain ⟨sameLength, pre, post, before, after⟩ := fillSlot_inserts filling
    rw [opened] at before
    refine ⟨.app func args filled alloc ty, rfl, rfl, ?_, ?_, rfl⟩
    · refine rel_threads_after (rel_threads_after fun choices => ⟨rfl, .forward token,
        .inr (.inr rfl), pre.map .forward, post.map .forward, ?_, ?_⟩)
      · simp only [ControlPath.emit, before, List.map_append]
      · simp only [ControlPath.emit, after, List.map_append, List.map_cons]
    · simp only [slotsAgree, Bool.and_eq_true]
      refine ⟨⟨(Bool.or_eq_true _ _).mpr ?_, onFunc⟩, onArgs⟩
      rcases openLength with empty | sized
      · rw [empty] at filling
        cases filling
      · rw [sameLength]
        exact .inr sized
  | none =>
    refine ⟨_, rfl, rfl, ?_, ?_, rfl⟩
    · intro choices
      refine ⟨rfl, .free token, .inl rfl, [], _, rfl, ?_⟩
      simp only [freeReuseThen, CExpr.trace, ControlPath.seq, ControlPath.emit, opened,
        List.nil_append, List.singleton_append]
      rfl
    · simp only [freeReuseThen, slotsAgree, Bool.and_eq_true]
      refine ⟨⟨(Bool.or_eq_true _ _).mpr ?_, onFunc⟩, onArgs⟩
      rcases openLength with empty | sized
      · exact .inl (List.isEmpty_iff.mpr empty)
      · exact .inr sized

end Handed

/-- `thread_token` always gives a result and uses the token once on every path. -/
theorem threadToken_hands (db : ForwardDb) (selfDef : DefId) (token : LocalId) (e : CExpr)
    (agrees : slotsAgree db selfDef e = true) :
    ∃ out, threadToken db selfDef token e = some out ∧ Handed db selfDef token e out := by
  induction e using CExpr.induct with
  | makeData tag args reuse scalars niche ty _ =>
    unfold threadToken
    split
    · rename_i isTarget
      cases reuse with
      | some other => cases isTarget
      | none =>
        have reusable : isReuseTarget (.makeData tag args none scalars niche ty) = true := by
          simpa [isReuseTarget] using isTarget
        obtain ⟨out, attach, handed⟩ := Handed.attached token agrees reusable
        cases attach
        exact ⟨_, rfl, handed⟩
    · exact ⟨_, rfl, Handed.freed agrees⟩
  | app func args reuse alloc ty _ _ => exact Handed.called agrees
  | letIn slot value body ty onValue onBody =>
    simp only [slotsAgree, Bool.and_eq_true] at agrees
    obtain ⟨value', runsValue, handedValue⟩ := onValue agrees.1
    obtain ⟨body', runsBody, handedBody⟩ := onBody agrees.2
    unfold threadToken
    by_cases isTarget : isReuseTarget value = true
    · obtain ⟨filled, attach, handed⟩ := Handed.attached token agrees.1 isTarget
      rw [if_pos isTarget, attach]
      refine ⟨.letIn slot filled body ty, rfl, ?_, rel_threads_before handed.path, ?_, rfl⟩
      · simp only [CExpr.strip, handed.same]
      · exact (Bool.and_eq_true _ _).mpr ⟨handed.agrees, agrees.2⟩
    · by_cases isCall : isForwardableCall db selfDef value = true
      · simp only [isTarget, Bool.false_eq_true, if_false, isCall, if_true, runsValue,
          Option.map_some]
        refine ⟨_, rfl, ?_, rel_threads_before handedValue.path, ?_, rfl⟩
        · simp only [CExpr.strip, handedValue.same]
        · exact (Bool.and_eq_true _ _).mpr ⟨handedValue.agrees, agrees.2⟩
      · simp only [isTarget, Bool.false_eq_true, if_false, isCall, runsBody, Option.map_some]
        refine ⟨_, rfl, ?_, rel_threads_after handedBody.path, ?_, rfl⟩
        · simp only [CExpr.strip, handedBody.same]
        · exact (Bool.and_eq_true _ _).mpr ⟨agrees.1, handedBody.agrees⟩
  | ite cond yes no ty _ onYes onNo =>
    simp only [slotsAgree, Bool.and_eq_true] at agrees
    obtain ⟨yes', runsYes, left⟩ := onYes agrees.1.2
    obtain ⟨no', runsNo, right⟩ := onNo agrees.2
    simp only [threadToken, runsYes, runsNo, Option.bind_some, Option.map_some]
    refine ⟨_, rfl, ?_, rel_threads_after (ControlPath.rel_branch left.path right.path), ?_, rfl⟩
    · simp only [CExpr.strip, left.same, right.same]
    · simp only [slotsAgree, Bool.and_eq_true]
      exact ⟨⟨agrees.1.1, left.agrees⟩, right.agrees⟩
  | dup slot body ty induct =>
    obtain ⟨body', runs, handed⟩ := induct agrees
    simp only [threadToken, runs, Option.map_some]
    exact ⟨_, rfl, handed.same, rel_threads_after handed.path, handed.agrees, rfl⟩
  | drop slot body ty induct =>
    obtain ⟨body', runs, handed⟩ := induct agrees
    simp only [threadToken, runs, Option.map_some]
    exact ⟨_, rfl, handed.same, rel_threads_after handed.path, handed.agrees, rfl⟩
  | reset value other body ty _ induct =>
    simp only [slotsAgree, Bool.and_eq_true] at agrees
    obtain ⟨body', runs, handed⟩ := induct agrees.2
    simp only [threadToken, runs, Option.map_some]
    refine ⟨_, rfl, handed.same, rel_threads_after handed.path, ?_, rfl⟩
    exact (Bool.and_eq_true _ _).mpr ⟨agrees.1, handed.agrees⟩
  | _ => exact ⟨_, rfl, Handed.freed agrees⟩

/-! ## Delaying a free -/

/-- Some frees move to a later place of the path and become a use of their token there; nothing else
changes. -/
inductive Delays : List Event → List Event → Prop where
  | done : Delays [] []
  | keep (event : Event) {before after : List Event} (rest : Delays before after) :
      Delays (event :: before) (event :: after)
  | move {token : LocalId} {use : Event} {before middle after : List Event}
      (rest : Delays before middle) (uses : Uses token use)
      (inserted : Inserted use middle after) : Delays (.free token :: before) after

namespace Delays

/-- Nothing is delayed. -/
theorem refl (events : List Event) : Delays events events := by
  induction events with
  | nil => exact .done
  | cons event rest induct => exact .keep event induct

/-- Delays of consecutive stretches. -/
theorem append {first first' second second' : List Event} (one : Delays first first')
    (two : Delays second second') : Delays (first ++ second) (first' ++ second') := by
  induction one with
  | done => exact two
  | keep event _ induct => exact .keep event induct
  | move _ uses inserted induct => exact .move induct uses (inserted.before second')

/-- A token that is not freed keeps its operations. -/
theorem kept {before after : List Event} (delays : Delays before after) {token : LocalId}
    (unfreed : .free token ∉ before) : about token after = about token before := by
  induction delays with
  | done => rfl
  | keep event _ induct =>
    simp only [List.mem_cons, not_or] at unfreed
    simp only [about, List.filter_cons]
    rw [show List.filter _ _ = _ from induct unfreed.2]
    rfl
  | @move freed use before middle after _ uses inserted induct =>
    simp only [List.mem_cons, not_or] at unfreed
    have apart : freed ≠ token := by
      rintro rfl
      exact unfreed.1 rfl
    obtain ⟨pre, post, rfl, rfl⟩ := inserted
    have other : use.token? ≠ some token := by
      rw [uses.own]
      simpa using apart
    rw [about_insert, about_other other, List.nil_append, ← about_append, induct unfreed.2]
    simp [about, Event.token?, apart]

/-- A token whose last operation is its free is used there once instead. -/
theorem used {before after : List Event} (delays : Delays before after) {token : LocalId}
    {pre : List Event} (unfreed : .free token ∉ pre)
    (last : about token before = pre ++ [.free token]) :
    ∃ use, Uses token use ∧ about token after = pre ++ [use] := by
  induction delays generalizing pre with
  | done => simp [about] at last
  | @keep event before after rest induct =>
    by_cases own : event.token? = some token
    · have split : about token (event :: before) = event :: about token before := by
        simp [about, own]
      rw [split] at last
      cases pre with
      | nil =>
        -- the free is the last operation of the token, so nothing moves past it
        simp only [List.nil_append, List.cons.injEq] at last
        obtain ⟨rfl, nothing⟩ := last
        have clean : .free token ∉ before := by
          intro member
          have : Event.free token ∈ about token before := by
            simpa [about, Event.token?] using member
          rw [nothing] at this
          cases this
        refine ⟨.free token, .inl rfl, ?_⟩
        have later := rest.kept clean
        rw [nothing] at later
        simpa [about, own] using later
      | cons first others =>
        simp only [List.cons_append, List.cons.injEq] at last
        obtain ⟨rfl, remaining⟩ := last
        simp only [List.mem_cons, not_or] at unfreed
        obtain ⟨use, uses, after⟩ := induct unfreed.2 remaining
        exact ⟨use, uses, by simpa [about, own] using after⟩
    · have split : about token (event :: before) = about token before := by simp [about, own]
      rw [split] at last
      obtain ⟨use, uses, after⟩ := induct unfreed last
      exact ⟨use, uses, by simpa [about, own] using after⟩
  | @move freed use before middle after rest uses inserted induct =>
    obtain ⟨front, back, rfl, rfl⟩ := inserted
    by_cases same : freed = token
    · subst same
      have split : about freed (.free freed :: before) = .free freed :: about freed before := by
        simp [about, Event.token?]
      rw [split] at last
      cases pre with
      | nil =>
        simp only [List.nil_append, List.cons.injEq, true_and] at last
        have clean : .free freed ∉ before := by
          intro member
          have : Event.free freed ∈ about freed before := by
            simpa [about, Event.token?] using member
          rw [last] at this
          cases this
        have later := rest.kept clean
        rw [last, about_append, List.append_eq_nil_iff] at later
        refine ⟨use, uses, ?_⟩
        rw [about_insert, about_own uses.own, later.1, later.2]
        rfl
      | cons first others =>
        simp only [List.cons_append, List.cons.injEq] at last
        exact absurd (List.mem_cons.mpr (.inl last.1)) unfreed
    · have split : about token (.free freed :: before) = about token before := by
        simp [about, Event.token?, same]
      rw [split] at last
      obtain ⟨found, isUse, after⟩ := induct unfreed last
      refine ⟨found, isUse, ?_⟩
      have other : use.token? ≠ some token := by
        rw [uses.own]
        simpa using same
      rw [about_insert, about_other other, List.nil_append, ← about_append]
      exact after

end Delays

/-! ## Whole bodies -/

/-- What forwarding makes of an expression. -/
structure Forwarded (db : ForwardDb) (selfDef : DefId) (e out : CExpr) : Prop where
  /-- The expression computes the same. -/
  same : out.strip = e.strip
  /-- Every path delays frees only. -/
  path : ControlPath.Rel Delays e.trace out.trace
  /-- Calls agree with their callees. -/
  agrees : slotsAgree db selfDef out = true
  /-- Atoms are left alone, and nothing else becomes one. -/
  atoms : out = e ∨ e.isAtom = false ∧ out.isAtom = false

namespace Forwarded

variable {db : ForwardDb} {selfDef : DefId}

/-- A bare local stays the same. -/
theorem asLocal {e out : CExpr} (forwarded : Forwarded db selfDef e out) :
    out.asLocal = e.asLocal := by
  have compound : ∀ e : CExpr, e.isAtom = false → e.asLocal = none := by
    intro e notAtom
    cases e with
    | loc slot ty => cases notAtom
    | _ => rfl
  rcases forwarded.atoms with rfl | ⟨before, after⟩
  · rfl
  · rw [compound e before, compound out after]

/-- A direct callee stays the same. -/
theorem forwardTarget {e out : CExpr} (forwarded : Forwarded db selfDef e out) (nargs : Nat) :
    forwardTarget db selfDef out nargs = Forward.forwardTarget db selfDef e nargs := by
  have compound : ∀ e : CExpr, e.isAtom = false →
      Forward.forwardTarget db selfDef e nargs = none := by
    intro e notAtom
    cases e with
    | global callee ty => cases notAtom
    | _ => rfl
  rcases forwarded.atoms with rfl | ⟨before, after⟩
  · rfl
  · rw [compound e before, compound out after]

/-- An expression without operands is left alone. -/
theorem kept {e : CExpr} (agrees : slotsAgree db selfDef e = true) :
    Forwarded db selfDef e e where
  same := rfl
  path := fun _ => ⟨rfl, Delays.refl _⟩
  agrees := agrees
  atoms := .inl rfl

end Forwarded

/-- Delays of two consecutive paths. -/
theorem rel_delays_seq {first first' second second' : ControlPath Event}
    (left : ControlPath.Rel Delays first first') (right : ControlPath.Rel Delays second second') :
    ControlPath.Rel Delays (ControlPath.seq first second) (ControlPath.seq first' second') :=
  ControlPath.rel_seq left right fun _ _ _ _ one two => one.append two

/-- A path left alone delays nothing. -/
theorem rel_delays_refl (path : ControlPath Event) : ControlPath.Rel Delays path path :=
  fun _ => ⟨rfl, Delays.refl _⟩

/-- Forwarding gives a result that only delays frees. -/
def Forwards (db : ForwardDb) (selfDef : DefId) (e : CExpr) : Prop :=
  slotsAgree db selfDef e = true →
    ∃ out, forwardPass db selfDef e = some out ∧ Forwarded db selfDef e out

/-- Forwarding operands. -/
theorem forwardPassList_forwards {db : ForwardDb} {selfDef : DefId} (args : List CExpr)
    (each : ∀ a ∈ args, Forwards db selfDef a) (agrees : slotsAgreeList db selfDef args = true) :
    ∃ outs, forwardPassList db selfDef args = some outs ∧
      CExpr.stripList outs = CExpr.stripList args ∧ outs.length = args.length ∧
      ControlPath.Rel Delays (CExpr.traceList args) (CExpr.traceList outs) ∧
      slotsAgreeList db selfDef outs = true := by
  induction args with
  | nil => exact ⟨[], rfl, rfl, rfl, rel_delays_refl _, rfl⟩
  | cons head tail induct =>
    simp only [slotsAgreeList, Bool.and_eq_true] at agrees
    obtain ⟨head', runsHead, forwarded⟩ := each head List.mem_cons_self agrees.1
    obtain ⟨tail', runsTail, sameTail, sameLength, pathTail, agreesTail⟩ :=
      induct (fun a member => each a (List.mem_cons_of_mem _ member)) agrees.2
    refine ⟨head' :: tail', ?_, ?_, ?_, rel_delays_seq forwarded.path pathTail, ?_⟩
    · simp [forwardPassList, runsHead, runsTail]
    · simp only [CExpr.stripList, forwarded.same, sameTail]
    · simp only [List.length_cons, sameLength]
    · exact (Bool.and_eq_true _ _).mpr ⟨forwarded.agrees, agreesTail⟩

/-- Forwarding under a node with one subexpression. -/
theorem forwards_one {db : ForwardDb} {selfDef : DefId} {body whole : CExpr}
    (rebuild : CExpr → CExpr) (first : ControlPath Event) (onBody : Forwards db selfDef body)
    (runs : forwardPass db selfDef whole =
      (forwardPass db selfDef body).bind fun body => some (rebuild body))
    (agreesWhole : slotsAgree db selfDef whole = slotsAgree db selfDef body)
    (agrees : ∀ body', slotsAgree db selfDef (rebuild body') = slotsAgree db selfDef body')
    (before : whole.trace = ControlPath.seq first body.trace)
    (after : ∀ body', (rebuild body').trace = ControlPath.seq first body'.trace)
    (same : ∀ body', body'.strip = body.strip → (rebuild body').strip = whole.strip)
    (compound : whole.isAtom = false ∧ ∀ body', (rebuild body').isAtom = false) :
    Forwards db selfDef whole := by
  intro wholeAgrees
  rw [agreesWhole] at wholeAgrees
  obtain ⟨body', ran, inner⟩ := onBody wholeAgrees
  refine ⟨rebuild body', ?_, same body' inner.same, ?_, ?_, .inr ⟨compound.1, compound.2 body'⟩⟩
  · rw [runs, ran]
    rfl
  · rw [before, after]
    exact rel_delays_seq (rel_delays_refl first) inner.path
  · rw [agrees]
    exact inner.agrees

/-- Forwarding under a node with operands. -/
theorem forwards_operands {db : ForwardDb} {selfDef : DefId} {args : List CExpr} {whole : CExpr}
    (rebuild : List CExpr → CExpr) (last : ControlPath Event)
    (each : ∀ a ∈ args, Forwards db selfDef a)
    (runs : forwardPass db selfDef whole =
      (forwardPassList db selfDef args).bind fun args => some (rebuild args))
    (agreesWhole : slotsAgree db selfDef whole = slotsAgreeList db selfDef args)
    (agrees : ∀ args', slotsAgree db selfDef (rebuild args') = slotsAgreeList db selfDef args')
    (before : whole.trace = ControlPath.seq (CExpr.traceList args) last)
    (after : ∀ args', args'.length = args.length →
      (rebuild args').trace = ControlPath.seq (CExpr.traceList args') last)
    (same : ∀ args', CExpr.stripList args' = CExpr.stripList args →
      (rebuild args').strip = whole.strip)
    (compound : whole.isAtom = false ∧ ∀ args', (rebuild args').isAtom = false) :
    Forwards db selfDef whole := by
  intro wholeAgrees
  rw [agreesWhole] at wholeAgrees
  obtain ⟨args', ran, sameArgs, sameLength, path, agreesArgs⟩ :=
    forwardPassList_forwards args each wholeAgrees
  refine ⟨rebuild args', ?_, same args' sameArgs, ?_, ?_,
    .inr ⟨compound.1, compound.2 args'⟩⟩
  · rw [runs, ran]
    rfl
  · rw [before, after args' sameLength]
    exact rel_delays_seq path (rel_delays_refl last)
  · rw [agrees]
    exact agreesArgs

/-- Forwarding under a binding form. -/
theorem forwards_binding {db : ForwardDb} {selfDef : DefId} {value body whole : CExpr}
    (rebuild : CExpr → CExpr → CExpr) (onValue : Forwards db selfDef value)
    (onBody : Forwards db selfDef body)
    (runs : forwardPass db selfDef whole = (forwardPass db selfDef value).bind fun value =>
      (forwardPass db selfDef body).bind fun body => some (rebuild value body))
    (agreesWhole : slotsAgree db selfDef whole =
      (slotsAgree db selfDef value && slotsAgree db selfDef body))
    (agrees : ∀ value' body', slotsAgree db selfDef (rebuild value' body') =
      (slotsAgree db selfDef value' && slotsAgree db selfDef body'))
    (path : ∀ value' body', value'.asLocal = value.asLocal →
      ControlPath.Rel Delays value.trace value'.trace →
        ControlPath.Rel Delays body.trace body'.trace →
          ControlPath.Rel Delays whole.trace (rebuild value' body').trace)
    (same : ∀ value' body', value'.strip = value.strip → body'.strip = body.strip →
      (rebuild value' body').strip = whole.strip)
    (compound : whole.isAtom = false ∧ ∀ value' body', (rebuild value' body').isAtom = false) :
    Forwards db selfDef whole := by
  intro wholeAgrees
  rw [agreesWhole, Bool.and_eq_true] at wholeAgrees
  obtain ⟨value', ranValue, first⟩ := onValue wholeAgrees.1
  obtain ⟨body', ranBody, second⟩ := onBody wholeAgrees.2
  refine ⟨rebuild value' body', ?_, same value' body' first.same second.same,
    path value' body' first.asLocal first.path second.path, ?_,
    .inr ⟨compound.1, compound.2 value' body'⟩⟩
  · rw [runs, ranValue, Option.bind_some, ranBody]
    rfl
  · rw [agrees, Bool.and_eq_true]
    exact ⟨first.agrees, second.agrees⟩

/-- `forward_pass` over every body. -/
theorem forwardPass_forwards (db : ForwardDb) (selfDef : DefId) (e : CExpr) :
    Forwards db selfDef e := by
  induction e using CExpr.induct with
  | lit value ty | loc slot ty | global target ty | makeClosure func captures alloc ty
  | error ty => exact fun agrees => ⟨_, rfl, Forwarded.kept agrees⟩
  | prim op args ty each =>
    exact forwards_operands (.prim op · ty) (ControlPath.emit []) each rfl rfl (fun _ => rfl)
      (ControlPath.seq_nil _).symm (fun _ _ => (ControlPath.seq_nil _).symm)
      (fun _ same => by simp only [CExpr.strip, same]) ⟨rfl, fun _ => rfl⟩
  | foreign symbol args marshalled ty each =>
    exact forwards_operands (.foreign symbol · marshalled ty) (ControlPath.emit []) each rfl rfl
      (fun _ => rfl) (ControlPath.seq_nil _).symm (fun _ _ => (ControlPath.seq_nil _).symm)
      (fun _ same => by simp only [CExpr.strip, same]) ⟨rfl, fun _ => rfl⟩
  | spread args ty each =>
    exact forwards_operands (.spread · ty) (ControlPath.emit []) each rfl rfl (fun _ => rfl)
      (ControlPath.seq_nil _).symm (fun _ _ => (ControlPath.seq_nil _).symm)
      (fun _ same => by simp only [CExpr.strip, same]) ⟨rfl, fun _ => rfl⟩
  | recur args ty each =>
    exact forwards_operands (.recur · ty) (ControlPath.emit []) each rfl rfl (fun _ => rfl)
      (ControlPath.seq_nil _).symm (fun _ _ => (ControlPath.seq_nil _).symm)
      (fun _ same => by simp only [CExpr.strip, same]) ⟨rfl, fun _ => rfl⟩
  | makeData tag args reuse scalars niche ty each =>
    exact forwards_operands (.makeData tag · reuse scalars niche ty) _ each rfl rfl
      (fun _ => rfl) rfl (fun _ sameLength => by simp only [CExpr.trace, sameLength])
      (fun _ same => by simp only [CExpr.strip, same]) ⟨rfl, fun _ => rfl⟩
  | app func args reuse alloc ty onFunc each =>
    intro agrees
    simp only [slotsAgree, Bool.and_eq_true] at agrees
    obtain ⟨func', runsFunc, forwarded⟩ := onFunc agrees.1.2
    obtain ⟨args', runs, same, sameLength, path, agreesArgs⟩ :=
      forwardPassList_forwards args each agrees.2
    refine ⟨.app func' args' reuse alloc ty, ?_, ?_, ?_, ?_, .inr ⟨rfl, rfl⟩⟩
    · simp only [forwardPass, runsFunc, runs]
      rfl
    · simp only [CExpr.strip, forwarded.same, same]
    · exact rel_delays_seq forwarded.path (rel_delays_seq path (rel_delays_refl _))
    · simp only [slotsAgree, Bool.and_eq_true, sameLength, forwarded.forwardTarget]
      exact ⟨⟨agrees.1.1, forwarded.agrees⟩, agreesArgs⟩
  | ite cond yes no ty onCond onYes onNo =>
    intro agrees
    simp only [slotsAgree, Bool.and_eq_true] at agrees
    obtain ⟨cond', runsCond, first⟩ := onCond agrees.1.1
    obtain ⟨yes', runsYes, left⟩ := onYes agrees.1.2
    obtain ⟨no', runsNo, right⟩ := onNo agrees.2
    refine ⟨.ite cond' yes' no' ty, ?_, ?_, ?_, ?_, .inr ⟨rfl, rfl⟩⟩
    · simp only [forwardPass, runsCond, runsYes, runsNo]
      rfl
    · simp only [CExpr.strip, first.same, left.same, right.same]
    · exact rel_delays_seq first.path (ControlPath.rel_branch left.path right.path)
    · simp only [slotsAgree, Bool.and_eq_true]
      exact ⟨⟨first.agrees, left.agrees⟩, right.agrees⟩
  | letIn slot value body ty onValue onBody =>
    exact forwards_binding (.letIn slot · · ty) onValue onBody rfl rfl (fun _ _ => rfl)
      (fun _ _ _ left right => rel_delays_seq left right)
      (fun _ _ left right => by simp only [CExpr.strip, left, right]) ⟨rfl, fun _ _ => rfl⟩
  | letMany slots value body ty onValue onBody =>
    exact forwards_binding (.letMany slots · · ty) onValue onBody rfl rfl (fun _ _ => rfl)
      (fun _ _ _ left right => rel_delays_seq left right)
      (fun _ _ left right => by simp only [CExpr.strip, left, right]) ⟨rfl, fun _ _ => rfl⟩
  | reset value token body ty onValue onBody =>
    refine forwards_binding (.reset · token · ty) onValue onBody rfl rfl (fun _ _ => rfl)
      (fun value' body' sameLocal left right => ?_) (fun _ _ _ right => right)
      ⟨rfl, fun _ _ => rfl⟩
    simp only [CExpr.trace, sameLocal]
    exact rel_delays_seq (rel_delays_seq left (rel_delays_refl _)) right
  | dataTag base niche ty induct =>
    exact forwards_one (.dataTag · niche ty) (ControlPath.emit []) induct rfl rfl (fun _ => rfl) rfl
      (fun _ => rfl) (fun _ same => by simp only [CExpr.strip, same]) ⟨rfl, fun _ => rfl⟩
  | dataField base index scalar niche ty induct =>
    exact forwards_one (.dataField · index scalar niche ty) (ControlPath.emit []) induct rfl rfl
      (fun _ => rfl) rfl (fun _ => rfl) (fun _ same => by simp only [CExpr.strip, same])
      ⟨rfl, fun _ => rfl⟩
  | freeReuse token body ty induct =>
    intro agrees
    obtain ⟨body', runs, inner⟩ := induct agrees
    obtain ⟨out, threads, handed⟩ := threadToken_hands db selfDef token body' inner.agrees
    refine ⟨out, ?_, handed.same.trans inner.same, ?_, handed.agrees,
      .inr ⟨rfl, handed.compound⟩⟩
    · simp only [forwardPass, runs, Option.bind_some, threads]
    · intro choices
      obtain ⟨sameInner, delays⟩ := inner.path choices
      obtain ⟨sameOuter, use, uses, inserted⟩ := handed.path choices
      exact ⟨sameOuter.trans sameInner, .move delays uses inserted⟩
  | dup slot body ty induct =>
    exact forwards_one (.dup slot · ty) _ induct rfl rfl (fun _ => rfl) rfl (fun _ => rfl)
      (fun _ same => same) ⟨rfl, fun _ => rfl⟩
  | drop slot body ty induct =>
    exact forwards_one (.drop slot · ty) _ induct rfl rfl (fun _ => rfl) rfl (fun _ => rfl)
      (fun _ same => same) ⟨rfl, fun _ => rfl⟩
  | join params body ty induct =>
    exact forwards_one (.join params · ty) (ControlPath.emit []) induct rfl rfl (fun _ => rfl) rfl
      (fun _ => rfl) (fun _ same => by simp only [CExpr.strip, same]) ⟨rfl, fun _ => rfl⟩
  | holeStart hole body ty induct =>
    exact forwards_one (.holeStart hole · ty) (ControlPath.emit []) induct rfl rfl
      (fun _ => rfl) rfl (fun _ => rfl) (fun _ same => by simp only [CExpr.strip, same])
      ⟨rfl, fun _ => rfl⟩
  | holeFill hole cell field ty induct =>
    exact forwards_one (.holeFill hole · field ty) (ControlPath.emit []) induct rfl rfl
      (fun _ => rfl) rfl (fun _ => rfl) (fun _ same => by simp only [CExpr.strip, same])
      ⟨rfl, fun _ => rfl⟩
  | holeClose hole base ty induct =>
    exact forwards_one (.holeClose hole · ty) (ControlPath.emit []) induct rfl rfl
      (fun _ => rfl) rfl (fun _ => rfl) (fun _ same => by simp only [CExpr.strip, same])
      ⟨rfl, fun _ => rfl⟩

/-- What forwarding keeps and changes on one path. -/
structure OncePerPath (before after : List Event) : Prop where
  /-- A token that is not freed keeps its operations. -/
  kept : ∀ token, .free token ∉ before → about token after = about token before
  /-- A token that ended in a free ends in one build, one hand-over or its free. -/
  used : ∀ token pre, .free token ∉ pre → about token before = pre ++ [.free token] →
    ∃ use, Uses token use ∧ about token after = pre ++ [use]

/-- Threading tokens one after the other uses each once and leaves the others alone. -/
theorem threadTokens_hands (db : ForwardDb) (selfDef : DefId) (tokens : List LocalId)
    (distinct : tokens.Nodup) (body : CExpr) (agrees : slotsAgree db selfDef body = true) :
    ∃ out, threadTokens db selfDef tokens body = some out ∧ out.strip = body.strip ∧
      slotsAgree db selfDef out = true ∧
      ∀ choices, (out.trace choices).2 = (body.trace choices).2 ∧
        (∀ token, token ∉ tokens →
          about token (out.trace choices).1 = about token (body.trace choices).1) ∧
        ∀ token ∈ tokens, about token (body.trace choices).1 = [] →
          ∃ use, Uses token use ∧ about token (out.trace choices).1 = [use] := by
  induction tokens generalizing body with
  | nil => exact ⟨body, rfl, rfl, agrees, fun _ => ⟨rfl, fun _ _ => rfl, by simp⟩⟩
  | cons first rest induct =>
    obtain ⟨absent, distinctRest⟩ := List.nodup_cons.mp distinct
    obtain ⟨middle, threads, handed⟩ := threadToken_hands db selfDef first body agrees
    obtain ⟨out, runs, same, agreesOut, later⟩ := induct distinctRest middle handed.agrees
    refine ⟨out, ?_, same.trans handed.same, agreesOut, fun choices => ?_⟩
    · simp only [threadTokens, threads, Option.bind_some, runs]
    · obtain ⟨sameFirst, use, uses, pre, post, before, after⟩ := handed.path choices
      obtain ⟨sameRest, others, each⟩ := later choices
      have unchanged : ∀ token, token ≠ first →
          about token (middle.trace choices).1 = about token (body.trace choices).1 := by
        intro token apart
        have other : use.token? ≠ some token := by
          rw [uses.own]
          simpa using apart.symm
        rw [before, after, about_insert, about_other other, List.nil_append, about_append]
      refine ⟨sameRest.trans sameFirst, fun token outside => ?_, fun token member clean => ?_⟩
      · simp only [List.mem_cons, not_or] at outside
        rw [others token outside.2, unchanged token outside.1]
      · rcases List.mem_cons.mp member with rfl | inRest
        · refine ⟨use, uses, ?_⟩
          rw [before, about_append, List.append_eq_nil_iff] at clean
          rw [others token absent, after, about_insert, about_own uses.own, clean.1, clean.2]
          rfl
        · have apart : token ≠ first := by
            rintro rfl
            exact absent inRest
          exact each token inRest (by rw [unchanged token apart, clean])

/-- A token absent from a path stays absent when frees are delayed. -/
theorem OncePerPath.absent {before after : List Event} (once : OncePerPath before after)
    {token : LocalId} (clean : about token before = []) : about token after = [] := by
  have unfreed : Event.free token ∉ before := by
    intro member
    have : Event.free token ∈ about token before := by simpa [about, Event.token?] using member
    rw [clean] at this
    cases this
  rw [once.kept token unfreed, clean]

/-- A function whose freed tokens were forwarded. -/
def FnForwarded (db : ForwardDb) (selfDef : DefId) (f g : CoreFn) : Prop :=
  g.params = f.params ∧ g.captures = f.captures ∧ g.body.strip = f.body.strip ∧
    slotsAgree db selfDef g.body = true ∧
    ∀ choices, (g.body.trace choices).2 = (f.body.trace choices).2 ∧
      OncePerPath (f.body.trace choices).1 (g.body.trace choices).1

/-- The specialized entry of a function: as many leading tokens as the signature declares, each used
once on every path. -/
def EntryOf (db : ForwardDb) (selfDef : DefId) (primary entry : CoreFn) : Prop :=
  ∃ tokens : List LocalId, tokens.length = (db.signature selfDef).length ∧ tokens.Nodup ∧
    entry.params = tokens ++ primary.params ∧ entry.captures = primary.captures ∧
    entry.body.strip = primary.body.strip ∧ slotsAgree db selfDef entry.body = true ∧
    ∀ choices, ∀ token ∈ tokens, ∃ use, Uses token use ∧
      about token (entry.body.trace choices).1 = [use]

/-- Forwarding in every function of a definition. -/
theorem mapM_forwards (db : ForwardDb) (selfDef : DefId) (fns : List CoreFn)
    (agree : ∀ f ∈ fns, slotsAgree db selfDef f.body = true) :
    ∃ outs, (fns.mapM fun f => (forwardPass db selfDef f.body).map fun body =>
        ({ f with body := body } : CoreFn)) = some outs ∧
      List.Forall₂ (FnForwarded db selfDef) fns outs := by
  induction fns with
  | nil => exact ⟨[], rfl, .nil⟩
  | cons f rest induct =>
    obtain ⟨body, runs, forwarded⟩ := forwardPass_forwards db selfDef f.body
      (agree f List.mem_cons_self)
    obtain ⟨outs, runsRest, each⟩ := induct fun g member => agree g (List.mem_cons_of_mem _ member)
    refine ⟨{ f with body := body } :: outs, ?_, .cons ?_ each⟩
    · simp only [List.mapM_cons, runs, runsRest, Option.map_some]
      rfl
    · refine ⟨rfl, rfl, forwarded.same, forwarded.agrees, fun choices => ?_⟩
      obtain ⟨same, delays⟩ := forwarded.path choices
      exact ⟨same, fun _ unfreed => delays.kept unfreed,
        fun _ _ unfreed last => delays.used unfreed last⟩

/-- Forwarded tokens are linear and agree with the callee in number. Whatever the signatures of the
module: every call that takes tokens has exactly the slots its callee's signature declares, a freed
token becomes on each path one hand-over, one build or one free, other tokens keep their
operations, and the specialized entry takes as many leading tokens as the signature declares and
uses each once on every path. Slots are filled in order, whatever their size class. -/
theorem forwarded_tokens_linear (db : ForwardDb) (selfDef : DefId) (fns : List CoreFn) (next : Nat)
    (agree : ∀ f ∈ fns, slotsAgree db selfDef f.body = true)
    (below : ∀ f ∈ fns, f.body.tokensBelow next = true) :
    ∃ emitted, rcEmit db selfDef fns next = some emitted ∧
      List.Forall₂ (FnForwarded db selfDef) fns emitted.fns ∧
      (∀ entry, emitted.reuseEntry = some entry → ∃ primary, emitted.fns.head? = some primary ∧
        EntryOf db selfDef primary entry) ∧
      (emitted.reuseEntry = none ↔ fns = [] ∨ db.signature selfDef = []) := by
  obtain ⟨outs, runs, each⟩ := mapM_forwards db selfDef fns agree
  unfold rcEmit
  rw [runs]
  cases outs with
  | nil =>
    have empty : fns = [] := List.forall₂_nil_right_iff.mp each
    exact ⟨⟨[], none⟩, rfl, each, by simp, by simp [empty]⟩
  | cons primary others =>
    obtain ⟨f, rest, onFirst, onRest, split⟩ := List.forall₂_cons_right_iff.mp each
    have nonempty : fns ≠ [] := by rw [split]; simp
    cases declared : db.signature selfDef with
    | nil => exact ⟨⟨primary :: others, none⟩, rfl, each, by simp, by simp⟩
    | cons size sizes =>
      obtain ⟨-, -, -, agrees, onPath⟩ := onFirst
      obtain ⟨body, threads, same, agreesBody, onEntry⟩ := threadTokens_hands db selfDef
        (List.range' next (size :: sizes).length) List.nodup_range' primary.body agrees
      refine ⟨⟨primary :: others, some ⟨List.range' next (size :: sizes).length ++ primary.params,
        primary.captures, body⟩⟩, ?_, each, ?_, ?_⟩
      · have built : buildReuseEntry db selfDef primary (size :: sizes).length next =
            some ⟨List.range' next (size :: sizes).length ++ primary.params, primary.captures,
              body⟩ := by
          simp only [buildReuseEntry, threads, Option.map_some]
        show (buildReuseEntry db selfDef primary (size :: sizes).length next).bind _ = _
        rw [built]
        rfl
      · rintro entry ⟨rfl⟩
        refine ⟨primary, rfl, _, ?_, List.nodup_range', rfl, rfl, same, agreesBody,
          fun choices token member => ?_⟩
        · rw [List.length_range', declared]
        · obtain ⟨-, -, used⟩ := onEntry choices
          have atLeast : next ≤ token := (List.mem_range'_1.mp member).1
          have unused := f.body.unused_trace (below f (by rw [split]; exact List.mem_cons_self))
            choices token atLeast
          exact used token member ((onPath choices).2.absent unused)
      · simp [nonempty]

/-- A callee that builds a pair and then a triple. -/
def pairThenTriple : CExpr :=
  .letIn 5 (.makeData 0 [.loc 1 .error, .loc 2 .error] none 0 none .error)
    (.makeData 0 [.loc 1 .error, .loc 2 .error, .loc 5 .error] none 0 none .error) .error

/-- A module of that callee, with the signature the analysis gives it. -/
def pairThenTripleDb : ForwardDb where
  known := fun _ => true
  evidence := fun _ => 0
  arity := fun _ => 2
  signature := fun d =>
    if d = ⟨0, 1⟩ then
      signatureOf ⟨fun _ => true, fun _ => 0, fun _ => 2, fun _ => []⟩ ⟨0, 1⟩ (fun _ => false)
        false pairThenTriple
    else []

/-- A caller that frees the memory of a triple before it calls. -/
def freesTriple : CExpr :=
  .letIn 0 (.makeData 0 [.lit .unit .unit, .lit .unit .unit, .lit .unit .unit] none 0 none
      (.tuple [.unit, .unit, .unit]))
    (.reset (.loc 0 .error) 7 (.freeReuse 7
      (.app (.global ⟨0, 1⟩ .error) [.lit .unit .unit, .lit .unit .unit] [] .heap .error) .error)
      .error) .error

/-- The caller with its token handed on. -/
def handsTriple : CExpr :=
  .letIn 0 (.makeData 0 [.lit .unit .unit, .lit .unit .unit, .lit .unit .unit] none 0 none
      (.tuple [.unit, .unit, .unit]))
    (.reset (.loc 0 .error) 7
      (.app (.global ⟨0, 1⟩ .error) [.lit .unit .unit, .lit .unit .unit] [some 7, none] .heap
        .error) .error) .error

/-- Every token handed to a call holds memory of the size class its slot declares. -/
def SlotSizesMatch (sizeOf : LocalId → Option Nat) (signature : List Nat)
    (reuse : List (Option LocalId)) : Prop :=
  ∀ (i : Nat) (token : LocalId) (size : Nat), reuse[i]? = some (some token) →
    sizeOf token = some size → signature[i]? = some size

/-- The slots take tokens in order, not by size: the memory of a triple goes to the slot the callee
declared for a pair. -/
theorem triple_lands_in_pair_slot :
    pairThenTripleDb.signature ⟨0, 1⟩ = [2, 3] ∧
      forwardPass pairThenTripleDb ⟨0, 0⟩ freesTriple = some handsTriple ∧
      (collectSizes ⟨fun _ => none, fun _ => none⟩ freesTriple []).lookup 0 = some (some 3) ∧
      (handsTriple.trace []).1 = [.reset (some 0) 7, .forward 7] ∧
      ¬ SlotSizesMatch (fun token => if token = 7 then some 3 else none)
        (pairThenTripleDb.signature ⟨0, 1⟩) [some 7, none] := by
  have declared : pairThenTripleDb.signature ⟨0, 1⟩ = [2, 3] := by decide
  refine ⟨declared, rfl, rfl, rfl, fun matching => ?_⟩
  have first := matching 0 7 3 rfl rfl
  rw [declared] at first
  cases first

/-- The caller of `triple_lands_in_pair_slot` hands its one token to the one call, in two slots. -/
theorem triple_forwarded_once :
    ∃ emitted, rcEmit pairThenTripleDb ⟨0, 0⟩ [⟨[], [], freesTriple⟩] 10 = some emitted ∧
      List.Forall₂ (FnForwarded pairThenTripleDb ⟨0, 0⟩) [⟨[], [], freesTriple⟩] emitted.fns := by
  obtain ⟨emitted, runs, each, -⟩ := forwarded_tokens_linear pairThenTripleDb ⟨0, 0⟩
    [⟨[], [], freesTriple⟩] 10 (by decide) (by decide)
  exact ⟨emitted, runs, each⟩

end Forward

end Fai
