import FaiVerif.Machine.Trace
import FaiVerif.Rc.Reuse

/-!
# Threading a reuse token

Threading inserts exactly one operation into every control path: a build into the token at the
construction the search chose, or its free. It changes nothing else, so the expression computes
the same and every other token keeps its operations. The search agrees with the threading: when it
answers yes, some path builds into the token, and the arms the source marks unreachable are not
met.
-/

namespace Fai

namespace Reuse

/-- One operation is inserted into a path. -/
def Inserted (event : Event) (before after : List Event) : Prop :=
  ∃ pre post, before = pre ++ post ∧ after = pre ++ event :: post

/-- The one way a token ends: freed, or built into by a cell of the wanted size. -/
def Spends (token : LocalId) (fields : Option Nat) (event : Event) : Prop :=
  event = .free token ∨
    ∃ n, event = .build token n ∧ 0 < n ∧ ∀ wanted, fields = some wanted → n = wanted

/-- A path with one more operation, of a given kind, and otherwise unchanged. -/
def Threads (use : Event → Prop) (before after : List Event) : Prop :=
  ∃ event, use event ∧ Inserted event before after

/-- An insertion stays one behind earlier operations. -/
theorem Inserted.after {event : Event} {before after : List Event} (first : List Event)
    (inserted : Inserted event before after) :
      Inserted event (first ++ before) (first ++ after) := by
  obtain ⟨pre, post, rfl, rfl⟩ := inserted
  exact ⟨first ++ pre, post, by simp, by simp⟩

/-- An insertion stays one before later operations. -/
theorem Inserted.before {event : Event} {before after : List Event} (last : List Event)
    (inserted : Inserted event before after) : Inserted event (before ++ last) (after ++ last) := by
  obtain ⟨pre, post, rfl, rfl⟩ := inserted
  exact ⟨pre, post ++ last, by simp, by simp⟩

/-- What threading a token through an expression gives; `found` is the verdict of the search. -/
structure Threaded (token : LocalId) (fields : Option Nat) (found : Bool) (e out : CExpr) :
    Prop where
  /-- The expression computes the same. -/
  same : out.strip = e.strip
  /-- Every path spends the token once. -/
  path : ControlPath.Rel (Threads (Spends token fields)) e.trace out.trace
  /-- A target the search found is built into on some path. -/
  lands : found = true → ∃ n, ControlPath.Can out.trace (.build token n)

/-- Threading behind operations that are left alone. -/
theorem rel_threads_after {use : Event → Prop} {first before after : ControlPath Event}
    (related : ControlPath.Rel (Threads use) before after) :
    ControlPath.Rel (Threads use) (ControlPath.seq first before) (ControlPath.seq first after) := by
  have kept : ControlPath.Rel (fun a b => a = b) first first := fun _ => ⟨rfl, rfl⟩
  refine ControlPath.rel_seq kept related fun a a' b b' same threads => ?_
  obtain ⟨event, spends, inserted⟩ := threads
  rw [← same]
  exact ⟨event, spends, inserted.after a⟩

/-- Threading before operations that are left alone. -/
theorem rel_threads_before {use : Event → Prop} {before after last : ControlPath Event}
    (related : ControlPath.Rel (Threads use) before after) :
    ControlPath.Rel (Threads use) (ControlPath.seq before last) (ControlPath.seq after last) := by
  have kept : ControlPath.Rel (fun a b => a = b) last last := fun _ => ⟨rfl, rfl⟩
  refine ControlPath.rel_seq related kept fun a a' b b' threads same => ?_
  obtain ⟨event, spends, inserted⟩ := threads
  rw [← same]
  exact ⟨event, spends, inserted.before b⟩

namespace Threaded

section

variable (token : LocalId) (fields : Option Nat)

/-- A path without a target frees the token at once. -/
theorem freed (e : CExpr) : Threaded token fields false e (freeReuseThen token e) where
  same := rfl
  path := fun choices => ⟨rfl, .free token, .inl rfl, [], (e.trace choices).1, rfl, rfl⟩
  lands := by intro impossible; cases impossible

/-- A target takes the token. -/
theorem attached {value : CExpr} (isTarget : isReuseTarget value = true)
    (sized : ∀ wanted, fields = some wanted → target wanted value = true) :
    ∃ out, attachReuse token value = some out ∧ Threaded token fields true value out := by
  unfold isReuseTarget at isTarget
  split at isTarget
  · rename_i tag args scalars niche ty
    simp only [Bool.and_eq_true, Bool.not_eq_true', List.isEmpty_eq_false_iff] at isTarget
    have nonempty : 0 < args.length := List.length_pos_iff.mpr isTarget.1
    refine ⟨_, rfl, ⟨rfl, fun choices => ⟨rfl, .build token args.length, ?_, ?_⟩, fun _ => ?_⟩⟩
    · refine .inr ⟨args.length, rfl, nonempty, fun wanted known => ?_⟩
      have matching := sized wanted known
      simp only [target, Bool.and_eq_true, beq_iff_eq] at matching
      exact matching.2
    · refine ⟨(CExpr.traceList args choices).1, [], ?_, ?_⟩ <;>
        simp [CExpr.trace, ControlPath.seq, ControlPath.emit]
    · exact ⟨args.length, ControlPath.can_seq_right (CExpr.onto_traceList args)
        (ControlPath.can_emit (by simp))⟩
  · cases isTarget

end

variable {token : LocalId} {fields : Option Nat}

/-- Threading into the value of a binding. -/
theorem letValue {found : Bool} {slot : LocalId} {value value' body : CExpr} {ty : Ty}
    (threaded : Threaded token fields found value value') :
    Threaded token fields found (.letIn slot value body ty) (.letIn slot value' body ty) where
  same := by simp only [CExpr.strip, threaded.same]
  path := rel_threads_before threaded.path
  lands := fun yes => by
    obtain ⟨n, can⟩ := threaded.lands yes
    exact ⟨n, ControlPath.can_seq_left can⟩

/-- Threading into the body of a binding. -/
theorem letBody {found : Bool} {slot : LocalId} {value body body' : CExpr} {ty : Ty}
    (threaded : Threaded token fields found body body') :
    Threaded token fields found (.letIn slot value body ty) (.letIn slot value body' ty) where
  same := by simp only [CExpr.strip, threaded.same]
  path := rel_threads_after threaded.path
  lands := fun yes => by
    obtain ⟨n, can⟩ := threaded.lands yes
    exact ⟨n, ControlPath.can_seq_right value.onto_trace can⟩

/-- Threading into both branches. -/
theorem ite {foundYes foundNo : Bool} {cond yes yes' no no' : CExpr} {ty : Ty}
    (left : Threaded token fields foundYes yes yes')
    (right : Threaded token fields foundNo no no') :
    Threaded token fields (foundYes || foundNo) (.ite cond yes no ty)
      (.ite cond yes' no' ty) where
  same := by simp only [CExpr.strip, left.same, right.same]
  path := rel_threads_after (ControlPath.rel_branch left.path right.path)
  lands := fun either => by
    rcases (Bool.or_eq_true _ _).mp either with one | other
    · obtain ⟨n, can⟩ := left.lands one
      exact ⟨n, ControlPath.can_seq_right cond.onto_trace (ControlPath.can_branch_left can)⟩
    · obtain ⟨n, can⟩ := right.lands other
      exact ⟨n, ControlPath.can_seq_right cond.onto_trace (ControlPath.can_branch_right can)⟩

/-- Threading behind an acquired reference. -/
theorem dup {found : Bool} {slot : LocalId} {body body' : CExpr} {ty : Ty}
    (threaded : Threaded token fields found body body') :
    Threaded token fields found (.dup slot body ty) (.dup slot body' ty) where
  same := threaded.same
  path := rel_threads_after threaded.path
  lands := fun yes => by
    obtain ⟨n, can⟩ := threaded.lands yes
    exact ⟨n, ControlPath.can_seq_right (ControlPath.onto_emit _) can⟩

/-- Threading behind a released reference. -/
theorem drop {found : Bool} {slot : LocalId} {body body' : CExpr} {ty : Ty}
    (threaded : Threaded token fields found body body') :
    Threaded token fields found (.drop slot body ty) (.drop slot body' ty) where
  same := threaded.same
  path := rel_threads_after threaded.path
  lands := fun yes => by
    obtain ⟨n, can⟩ := threaded.lands yes
    exact ⟨n, ControlPath.can_seq_right (ControlPath.onto_emit _) can⟩

/-- Threading behind another reset. -/
theorem reset {found : Bool} {value : CExpr} {other : LocalId} {body body' : CExpr} {ty : Ty}
    (threaded : Threaded token fields found body body') :
    Threaded token fields found (.reset value other body ty) (.reset value other body' ty) where
  same := threaded.same
  path := rel_threads_after threaded.path
  lands := fun yes => by
    obtain ⟨n, can⟩ := threaded.lands yes
    exact ⟨n, ControlPath.can_seq_right (ControlPath.onto_seq value.onto_trace
      (ControlPath.onto_emit _)) can⟩

/-- A weaker verdict of the search. -/
theorem weaken {found claimed : Bool} {e out : CExpr} (threaded : Threaded token fields found e out)
    (implies : claimed = true → found = true) : Threaded token fields claimed e out :=
  { threaded with lands := fun yes => threaded.lands (implies yes) }

end Threaded

/-- `thread_or_free` always gives a result, spends the token once on every path, and builds into it
on some path when the search said a construction is reachable. -/
theorem threadOrFree_threads (token : LocalId) (e : CExpr) :
    ∃ out, threadOrFree token e = some out ∧
      Threaded token none (reachesConstruction e) e out := by
  induction e using CExpr.induct with
  | makeData tag args reuse scalars niche ty _ =>
    unfold threadOrFree reachesConstruction
    split
    · rename_i isTarget
      cases reuse with
      | some other => cases isTarget
      | none =>
        have reusable : isReuseTarget (.makeData tag args none scalars niche ty) = true := by
          simpa [isReuseTarget] using isTarget
        obtain ⟨out, attach, threaded⟩ := Threaded.attached token none reusable
          (by intro wanted impossible; cases impossible)
        cases attach
        exact ⟨_, rfl, threaded.weaken fun _ => rfl⟩
    · rename_i noTarget
      refine ⟨_, rfl, (Threaded.freed _ _ _).weaken fun yes => absurd yes noTarget⟩
  | letIn slot value body ty _ bodyInduct =>
    obtain ⟨body', runs, threaded⟩ := bodyInduct
    unfold threadOrFree reachesConstruction
    by_cases isTarget : isReuseTarget value = true
    · obtain ⟨value', attach, onValue⟩ := Threaded.attached token none isTarget
        (by intro wanted impossible; cases impossible)
      simp only [isTarget, if_true, attach, Option.map_some]
      exact ⟨_, rfl, onValue.letValue.weaken fun _ => rfl⟩
    · simp only [isTarget, Bool.false_eq_true, if_false, runs, Option.map_some]
      exact ⟨_, rfl, threaded.letBody.weaken fun yes => by simpa using yes⟩
  | ite cond yes no ty _ yesInduct noInduct =>
    obtain ⟨yes', runsYes, left⟩ := yesInduct
    obtain ⟨no', runsNo, right⟩ := noInduct
    simp only [threadOrFree, reachesConstruction, runsYes, runsNo, Option.bind_some,
      Option.map_some]
    exact ⟨_, rfl, left.ite right⟩
  | dup slot body ty induct =>
    obtain ⟨body', runs, threaded⟩ := induct
    simp only [threadOrFree, reachesConstruction, runs, Option.map_some]
    exact ⟨_, rfl, threaded.dup⟩
  | drop slot body ty induct =>
    obtain ⟨body', runs, threaded⟩ := induct
    simp only [threadOrFree, reachesConstruction, runs, Option.map_some]
    exact ⟨_, rfl, threaded.drop⟩
  | reset value other body ty _ induct =>
    obtain ⟨body', runs, threaded⟩ := induct
    simp only [threadOrFree, reachesConstruction, runs, Option.map_some]
    exact ⟨_, rfl, threaded.reset⟩
  | _ => exact ⟨_, rfl, Threaded.freed _ _ _⟩

mutual

/-- The bounded scan for calls is stable and gains no budget. -/
theorem simple_search : ∀ e : CExpr, (simple e).Stable ∧ (simple e).Shrinks
  | .app _ _ _ _ _ | .foreign _ _ _ _ | .prim _ _ _ | .lit _ _ | .loc _ _ | .global _ _
  | .makeClosure _ _ _ _ | .error _ =>
    ⟨Search.stable_step (Search.stable_answer _), Search.shrinks_step (Search.shrinks_answer _)⟩
  | .makeData _ args _ _ _ _ | .recur args _ | .spread args _ =>
    ⟨Search.stable_step (allSimple_search args).1,
      Search.shrinks_step (allSimple_search args).2⟩
  | .ite cond yes no _ =>
    ⟨Search.stable_step (Search.stable_both (simple_search cond).1
        (Search.stable_both (simple_search yes).1 (simple_search no).1)),
      Search.shrinks_step (Search.shrinks_both (simple_search cond).2
        (Search.shrinks_both (simple_search yes).2 (simple_search no).2))⟩
  | .letIn _ value body _ | .reset value _ body _ | .letMany _ value body _ =>
    ⟨Search.stable_step (Search.stable_both (simple_search value).1 (simple_search body).1),
      Search.shrinks_step (Search.shrinks_both (simple_search value).2 (simple_search body).2)⟩
  | .freeReuse _ e _ | .dup _ e _ | .drop _ e _ | .join _ e _ | .holeStart _ e _
  | .dataTag e _ _ | .dataField e _ _ _ _ | .holeClose _ e _ | .holeFill _ e _ _ =>
    ⟨Search.stable_step (simple_search e).1, Search.shrinks_step (simple_search e).2⟩

/-- The bounded scan of operands is stable and gains no budget. -/
theorem allSimple_search : ∀ es : List CExpr, (allSimple es).Stable ∧ (allSimple es).Shrinks
  | [] => ⟨Search.stable_answer _, Search.shrinks_answer _⟩
  | head :: tail =>
    ⟨Search.stable_both (simple_search head).1 (allSimple_search tail).1,
      Search.shrinks_both (simple_search head).2 (allSimple_search tail).2⟩

end

/-- The guard of a skipped construction is stable and gains no budget. -/
theorem guard_search (skipped : Bool) (e : CExpr) :
    Search.Stable (if skipped then simple e else Search.answer true) ∧
      Search.Shrinks (if skipped then simple e else Search.answer true) := by
  split
  · exact simple_search e
  · exact ⟨Search.stable_answer _, Search.shrinks_answer _⟩

/-- The search for a target is stable and strict, and gains no budget. -/
theorem reaches_search (fields : Nat) (e : CExpr) : ∀ skipped,
    (reaches fields skipped e).Stable ∧ (reaches fields skipped e).Shrinks ∧
      (reaches fields skipped e).Strict := by
  induction e using CExpr.induct with
  | makeData tag args reuse scalars niche ty _ =>
    exact fun skipped => ⟨Search.stable_step (Search.stable_answer _),
      Search.shrinks_step (Search.shrinks_answer _), rfl⟩
  | letIn slot value body ty _ induct =>
    intro skipped
    obtain ⟨stable, shrinks, -⟩ := induct (skipped || isReuseTarget value)
    obtain ⟨guardStable, guardShrinks⟩ := guard_search skipped value
    have rest : Search.Stable (if target fields value then Search.answer true
          else reaches fields (skipped || isReuseTarget value) body) ∧
        Search.Shrinks (if target fields value then Search.answer true
          else reaches fields (skipped || isReuseTarget value) body) := by
      split
      · exact ⟨Search.stable_answer _, Search.shrinks_answer _⟩
      · exact ⟨stable, shrinks⟩
    exact ⟨Search.stable_step (Search.stable_both guardStable rest.1),
      Search.shrinks_step (Search.shrinks_both guardShrinks rest.2), rfl⟩
  | ite cond yes no ty _ yesInduct noInduct =>
    intro skipped
    obtain ⟨guardStable, guardShrinks⟩ := guard_search skipped cond
    obtain ⟨yesStable, yesShrinks, -⟩ := yesInduct skipped
    obtain ⟨noStable, noShrinks, noStrict⟩ := noInduct skipped
    exact ⟨Search.stable_step (Search.stable_both guardStable
        (Search.stable_either yesStable noStable noStrict)),
      Search.shrinks_step (Search.shrinks_both guardShrinks
        (Search.shrinks_either yesShrinks noShrinks)), rfl⟩
  | dup slot body ty induct | drop slot body ty induct =>
    exact fun skipped => ⟨Search.stable_step (induct skipped).1,
      Search.shrinks_step (induct skipped).2.1, rfl⟩
  | reset value token body ty _ induct =>
    exact fun skipped => ⟨Search.stable_step (induct skipped).1,
      Search.shrinks_step (induct skipped).2.1, rfl⟩
  | _ =>
    exact fun skipped => ⟨Search.stable_step (Search.stable_answer _),
      Search.shrinks_step (Search.shrinks_answer _), rfl⟩

/-- A yes under part of the budget is a yes under all of it. -/
theorem reaches_full {fields : Nat} {skipped : Bool} {e : CExpr} {left : Nat}
    (found : (reaches fields skipped e left).1 = true) (within : left ≤ searchBudget) :
    (reaches fields skipped e searchBudget).1 = true :=
  (reaches_search fields e skipped).1.mono found within

/-- What the search says of a binding whose value is no target. -/
theorem reaches_letIn {fields : Nat} {skipped : Bool} {slot : LocalId} {value body : CExpr}
    {ty : Ty} (found : (reaches fields skipped (.letIn slot value body ty) searchBudget).1 = true)
    (noTarget : target fields value = false) :
    (reaches fields (skipped || isReuseTarget value) body searchBudget).1 = true := by
  obtain ⟨left, within, reached⟩ := Search.both_yes (guard_search skipped value).2 found
  simp only [noTarget, Bool.false_eq_true, if_false] at reached
  exact reaches_full reached (Nat.le_succ_of_le within)

/-- What the search says of a conditional. -/
theorem reaches_ite {fields : Nat} {skipped : Bool} {cond yes no : CExpr} {ty : Ty}
    (found : (reaches fields skipped (.ite cond yes no ty) searchBudget).1 = true) :
    ((reaches fields skipped yes searchBudget).1 ||
      (reaches fields skipped no searchBudget).1) = true := by
  obtain ⟨left, within, reached⟩ := Search.both_yes (guard_search skipped cond).2 found
  have inside : left ≤ searchBudget := Nat.le_succ_of_le within
  rw [Bool.or_eq_true]
  rcases Search.either_yes (reaches_search fields yes skipped).2.1 reached with one | other
  · exact .inl (reaches_full one inside)
  · obtain ⟨rest, less, reached⟩ := other
    exact .inr (reaches_full reached (Nat.le_trans less inside))

/-- `thread` always gives a result: its unreachable arm is not met. It spends the token once on
every path, building only into cells of the wanted size, and builds into it on some path when the
search answers yes. -/
theorem thread_threads (token : LocalId) (fields : Nat) (e : CExpr) : ∀ skipped,
    ∃ out, thread token fields skipped e = some out ∧
      Threaded token (some fields) (reaches fields skipped e searchBudget).1 e out := by
  have refused : ∀ skipped (e : CExpr), (reaches fields skipped e searchBudget).1 = false →
      ∃ out, thread token fields skipped e = some out ∧
        Threaded token (some fields) (reaches fields skipped e searchBudget).1 e out := by
    intro skipped e no
    refine ⟨freeReuseThen token e, ?_, ?_⟩
    · unfold thread
      simp only [no, Bool.not_false, if_true]
    · rw [no]
      exact Threaded.freed token (some fields) e
  induction e using CExpr.induct with
  | makeData tag args reuse scalars niche ty _ =>
    intro skipped
    cases found : (reaches fields skipped (.makeData tag args reuse scalars niche ty)
        searchBudget).1 with
    | false => simpa only [found] using refused skipped _ found
    | true =>
      have isTarget : target fields (.makeData tag args reuse scalars niche ty) = true := found
      have reusable : isReuseTarget (.makeData tag args reuse scalars niche ty) = true :=
        (Bool.and_eq_true _ _ |>.mp isTarget).1
      unfold thread
      simp only [found, Bool.not_true, Bool.false_eq_true, if_false]
      refine Threaded.attached token (some fields) reusable ?_
      rintro wanted ⟨rfl⟩
      exact isTarget
  | letIn slot value body ty _ induct =>
    intro skipped
    cases found : (reaches fields skipped (.letIn slot value body ty) searchBudget).1 with
    | false => simpa only [found] using refused skipped _ found
    | true =>
      unfold thread
      simp only [found, Bool.not_true, Bool.false_eq_true, if_false]
      by_cases isTarget : target fields value = true
      · have reusable : isReuseTarget value = true := (Bool.and_eq_true _ _ |>.mp isTarget).1
        obtain ⟨value', attach, threaded⟩ := Threaded.attached token (some fields) reusable
          (by rintro wanted ⟨rfl⟩; exact isTarget)
        simp only [isTarget, if_true, attach, Option.map_some]
        exact ⟨_, rfl, threaded.letValue⟩
      · obtain ⟨body', runs, threaded⟩ := induct (skipped || isReuseTarget value)
        have onward := reaches_letIn found (by simpa using isTarget)
        simp only [isTarget, Bool.false_eq_true, if_false, runs, Option.map_some]
        exact ⟨_, rfl, threaded.letBody.weaken fun _ => onward⟩
  | ite cond yes no ty _ yesInduct noInduct =>
    intro skipped
    cases found : (reaches fields skipped (.ite cond yes no ty) searchBudget).1 with
    | false => simpa only [found] using refused skipped _ found
    | true =>
      obtain ⟨yes', runsYes, left⟩ := yesInduct skipped
      obtain ⟨no', runsNo, right⟩ := noInduct skipped
      unfold thread
      simp only [found, Bool.not_true, Bool.false_eq_true, if_false, runsYes, runsNo,
        Option.bind_some, Option.map_some]
      exact ⟨_, rfl, (left.ite right).weaken fun _ => reaches_ite found⟩
  | dup slot body ty induct =>
    intro skipped
    cases found : (reaches fields skipped (.dup slot body ty) searchBudget).1 with
    | false => simpa only [found] using refused skipped _ found
    | true =>
      obtain ⟨body', runs, threaded⟩ := induct skipped
      unfold thread
      simp only [found, Bool.not_true, Bool.false_eq_true, if_false, runs, Option.map_some]
      exact ⟨_, rfl, threaded.dup.weaken fun _ => reaches_full found (by decide)⟩
  | drop slot body ty induct =>
    intro skipped
    cases found : (reaches fields skipped (.drop slot body ty) searchBudget).1 with
    | false => simpa only [found] using refused skipped _ found
    | true =>
      obtain ⟨body', runs, threaded⟩ := induct skipped
      unfold thread
      simp only [found, Bool.not_true, Bool.false_eq_true, if_false, runs, Option.map_some]
      exact ⟨_, rfl, threaded.drop.weaken fun _ => reaches_full found (by decide)⟩
  | reset value other body ty _ induct =>
    intro skipped
    cases found : (reaches fields skipped (.reset value other body ty) searchBudget).1 with
    | false => simpa only [found] using refused skipped _ found
    | true =>
      obtain ⟨body', runs, threaded⟩ := induct skipped
      unfold thread
      simp only [found, Bool.not_true, Bool.false_eq_true, if_false, runs, Option.map_some]
      exact ⟨_, rfl, threaded.reset.weaken fun _ => reaches_full found (by decide)⟩
  | _ => exact fun skipped => refused skipped _ rfl

end Reuse

end Fai
