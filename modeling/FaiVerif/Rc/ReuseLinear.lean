import FaiVerif.Rc.ReuseThread
import Mathlib.Data.List.Perm.Basic

/-!
# Linearity of reuse tokens

Releasing a dead cell puts either its drop or a reset and one use of a fresh token into every path.
Over a whole body the pass therefore mints tokens whose operations on a path are nothing, or the
reset followed by one build or one free; tokens that were there before keep their operations, the
references acquired and released on a path are the same, and so is what the body computes.
-/

namespace Fai

namespace Reuse

/-- The release of a cell on one path: its drop, or a reset and the use of the token. -/
def Placed (slot : LocalId) (fields : Option Nat) (low high : Nat)
    (before after : List Event) : Prop :=
  Inserted (.drop slot) before after ∨
    ∃ token event, low ≤ token ∧ token < high ∧ Spends token fields event ∧
      ∃ pre rest rest', before = pre ++ rest ∧
        after = pre ++ .reset (some slot) token :: rest' ∧ Inserted event rest rest'

/-- What releasing a dead cell gives. -/
structure Released (slot : LocalId) (fields : Option Nat) (low high : Nat) (e out : CExpr) :
    Prop where
  /-- Tokens are taken in order. -/
  ordered : low ≤ high
  /-- The expression computes the same. -/
  same : out.strip = e.strip
  /-- Every path releases the cell once. -/
  path : ControlPath.Rel (Placed slot fields low high) e.trace out.trace
  /-- Every token is built into on some path. -/
  lands : ∀ token, low ≤ token → token < high → ∃ n, ControlPath.Can out.trace (.build token n)

/-- A release behind operations that are left alone. -/
theorem Placed.after {slot : LocalId} {fields : Option Nat} {low high : Nat}
    {before after : List Event} (first : List Event)
    (placed : Placed slot fields low high before after) :
    Placed slot fields low high (first ++ before) (first ++ after) := by
  rcases placed with plain | ⟨token, event, atLeast, below, spends, pre, rest, rest', rfl, rfl, ins⟩
  · exact .inl (plain.after first)
  · exact .inr ⟨token, event, atLeast, below, spends, first ++ pre, rest, rest', by simp, by simp,
      ins⟩

/-- A release within a wider range of tokens. -/
theorem Placed.widen {slot : LocalId} {fields : Option Nat} {low high low' high' : Nat}
    {before after : List Event} (placed : Placed slot fields low high before after)
    (lower : low' ≤ low) (upper : high ≤ high') :
    Placed slot fields low' high' before after := by
  rcases placed with plain | ⟨token, event, atLeast, below, rest⟩
  · exact .inl plain
  · exact .inr ⟨token, event, Nat.le_trans lower atLeast, Nat.lt_of_lt_of_le below upper, rest⟩

/-- A release keeps every operation that was there. -/
theorem Placed.mem {slot : LocalId} {fields : Option Nat} {low high : Nat}
    {before after : List Event} (placed : Placed slot fields low high before after)
    {event : Event} (member : event ∈ before) : event ∈ after := by
  rcases placed with ⟨pre, post, rfl, rfl⟩ |
    ⟨token, use, -, -, -, pre, rest, rest', rfl, rfl, mid, post, rfl, rfl⟩
  · rcases List.mem_append.mp member with early | late
    · exact List.mem_append_left _ early
    · exact List.mem_append_right _ (List.mem_cons_of_mem _ late)
  · simp only [List.mem_append, List.mem_cons] at member ⊢
    rcases member with inPre | inMid | inPost
    · exact .inl inPre
    · exact .inr (.inr (.inl inMid))
    · exact .inr (.inr (.inr (.inr inPost)))

/-- A release behind a path that is left alone. -/
theorem rel_placed_after {slot : LocalId} {fields : Option Nat} {low high : Nat}
    {first before after : ControlPath Event}
    (related : ControlPath.Rel (Placed slot fields low high) before after) :
    ControlPath.Rel (Placed slot fields low high) (ControlPath.seq first before)
      (ControlPath.seq first after) := by
  have kept : ControlPath.Rel (fun a b => a = b) first first := fun _ => ⟨rfl, rfl⟩
  refine ControlPath.rel_seq kept related fun a a' b b' same placed => ?_
  rw [← same]
  exact placed.after a

namespace Released

variable {slot : LocalId} {fields : Option Nat}

/-- A plain drop takes no token. -/
theorem dropped (slot : LocalId) (fields : Option Nat) (next : Nat) (e : CExpr) :
    Released slot fields next next e (dropThen slot e) where
  ordered := Nat.le_refl _
  same := rfl
  path := fun choices => ⟨rfl, .inl ⟨[], (e.trace choices).1, rfl, rfl⟩⟩
  lands := fun _ atLeast below => absurd below (Nat.not_lt.mpr atLeast)

/-- A reset takes one token and threads it. -/
theorem recycled {next : Nat} {e out : CExpr} (threaded : Threaded next fields true e out) :
    Released slot fields next (next + 1) e (resetThen slot next out) where
  ordered := Nat.le_succ _
  same := threaded.same
  path := by
    intro choices
    obtain ⟨sameRest, event, spends, inserted⟩ := threaded.path choices
    refine ⟨sameRest, .inr ⟨next, event, Nat.le_refl _, Nat.lt_succ_self _, spends, [],
      (e.trace choices).1, (out.trace choices).1, rfl, rfl, inserted⟩⟩
  lands := by
    intro token atLeast below
    have isNext : token = next := Nat.le_antisymm (Nat.le_of_lt_succ below) atLeast
    obtain ⟨n, can⟩ := threaded.lands rfl
    rw [isNext]
    exact ⟨n, ControlPath.can_seq_right
      (ControlPath.onto_seq (ControlPath.onto_emit _) (ControlPath.onto_emit _)) can⟩

/-- Releasing in both branches. -/
theorem ite {low middle high : Nat} {cond yes yes' no no' : CExpr} {ty : Ty}
    (left : Released slot fields low middle yes yes')
    (right : Released slot fields middle high no no') :
    Released slot fields low high (.ite cond yes no ty) (.ite cond yes' no' ty) where
  ordered := Nat.le_trans left.ordered right.ordered
  same := by simp only [CExpr.strip, left.same, right.same]
  path := by
    have onYes := left.path.imp fun a b placed =>
      placed.widen (Nat.le_refl low) right.ordered
    have onNo := right.path.imp fun a b placed =>
      placed.widen left.ordered (Nat.le_refl high)
    exact rel_placed_after (ControlPath.rel_branch onYes onNo)
  lands := by
    intro token atLeast below
    rcases Nat.lt_or_ge token middle with inYes | inNo
    · obtain ⟨n, can⟩ := left.lands token atLeast inYes
      exact ⟨n, ControlPath.can_seq_right cond.onto_trace (ControlPath.can_branch_left can)⟩
    · obtain ⟨n, can⟩ := right.lands token inNo below
      exact ⟨n, ControlPath.can_seq_right cond.onto_trace (ControlPath.can_branch_right can)⟩

/-- Releasing in a body that follows operations left alone. -/
theorem behind {low high : Nat} {body body' whole whole' : CExpr} {first : ControlPath Event}
    (released : Released slot fields low high body body') (onto : ControlPath.Onto first)
    (before : whole.trace = ControlPath.seq first body.trace)
    (after : whole'.trace = ControlPath.seq first body'.trace)
    (same : body'.strip = body.strip → whole'.strip = whole.strip) :
    Released slot fields low high whole whole' where
  ordered := released.ordered
  same := same released.same
  path := by
    rw [before, after]
    exact rel_placed_after released.path
  lands := by
    intro token atLeast below
    obtain ⟨n, can⟩ := released.lands token atLeast below
    rw [after]
    exact ⟨n, ControlPath.can_seq_right onto can⟩

end Released

/-- Running a computation with a known first step. -/
theorem bind_run {α β : Type} {first : StateT Nat Option α} {second : α → StateT Nat Option β}
    {low middle : Nat} {result : α} (ran : first low = some (result, middle)) :
    (first >>= second) low = second result middle := by
  show (first low).bind _ = _
  rw [ran]
  rfl

/-- `release` gives a result that releases the cell once on every path. -/
def Releases (slot : LocalId) (e : CExpr) : Prop :=
  ∀ low, ∃ out high, release slot e low = some (out, high) ∧ Released slot none low high e out

/-- Where nothing is built the cell is dropped, and where a construction is reachable its memory is
threaded there. -/
theorem releases_early {slot : LocalId} {e : CExpr}
    (settled : hasConstruction e = false ∨ reachesConstruction e = true) : Releases slot e := by
  intro low
  cases constructs : hasConstruction e with
  | false =>
    refine ⟨dropThen slot e, low, ?_, Released.dropped slot none low e⟩
    unfold release
    rw [constructs]
    rfl
  | true =>
    have reached : reachesConstruction e = true := by
      rcases settled with nothing | reached
      · rw [constructs] at nothing
        cases nothing
      · exact reached
    obtain ⟨out, runs, threaded⟩ := threadOrFree_threads low e
    rw [reached] at threaded
    refine ⟨resetThen slot low out, low + 1, ?_, Released.recycled threaded⟩
    unfold release
    simp only [constructs, Bool.not_true, Bool.false_eq_true, if_false, reached, if_true, runs,
      Option.map_some]

/-- Where the release is pushed into a body, it is the body that is released. -/
theorem releases_behind {slot : LocalId} {body whole : CExpr} (rebuild : CExpr → CExpr)
    {first : ControlPath Event} (onBody : Releases slot body)
    (pushes : hasConstruction whole = true → reachesConstruction whole = false →
      release slot whole = release slot body >>= fun body => pure (rebuild body))
    (onto : ControlPath.Onto first) (before : whole.trace = ControlPath.seq first body.trace)
    (after : ∀ body', (rebuild body').trace = ControlPath.seq first body'.trace)
    (same : ∀ body', body'.strip = body.strip → (rebuild body').strip = whole.strip) :
    Releases slot whole := by
  by_cases settled : hasConstruction whole = false ∨ reachesConstruction whole = true
  · exact releases_early settled
  · intro low
    simp only [not_or, Bool.not_eq_false, Bool.not_eq_true] at settled
    obtain ⟨body', high, runs, released⟩ := onBody low
    refine ⟨rebuild body', high, ?_, released.behind onto before (after body') (same body')⟩
    rw [pushes settled.1 settled.2, bind_run runs]
    rfl

/-- `release` always gives a result and releases the cell once on every path. -/
theorem release_releases (slot : LocalId) (e : CExpr) : Releases slot e := by
  induction e using CExpr.induct with
  | ite cond yes no ty _ yesInduct noInduct =>
    by_cases settled : hasConstruction (.ite cond yes no ty) = false ∨
        reachesConstruction (.ite cond yes no ty) = true
    · exact releases_early settled
    · intro low
      simp only [not_or, Bool.not_eq_false, Bool.not_eq_true] at settled
      obtain ⟨yes', middle, runsYes, left⟩ := yesInduct low
      obtain ⟨no', high, runsNo, right⟩ := noInduct middle
      refine ⟨_, high, ?_, left.ite right⟩
      unfold release
      simp only [settled.1, settled.2, Bool.not_true, Bool.false_eq_true, if_false]
      rw [bind_run runsYes, bind_run runsNo]
      rfl
  | letIn bound value body ty _ induct =>
    refine releases_behind (.letIn bound value · ty) induct (fun constructs unreached => ?_)
      value.onto_trace rfl (fun body' => rfl) (fun body' same => ?_)
    · conv_lhs => unfold release
      simp only [constructs, unreached, Bool.not_true, Bool.false_eq_true, if_false]
    · simp only [CExpr.strip, same]
  | dup other body ty induct =>
    refine releases_behind (.dup other · ty) induct (fun constructs unreached => ?_)
      (ControlPath.onto_emit [.dup other]) rfl (fun body' => rfl) (fun body' same => same)
    conv_lhs => unfold release
    simp only [constructs, unreached, Bool.not_true, Bool.false_eq_true, if_false]
  | drop other body ty induct =>
    refine releases_behind (.drop other · ty) induct (fun constructs unreached => ?_)
      (ControlPath.onto_emit [.drop other]) rfl (fun body' => rfl) (fun body' same => same)
    conv_lhs => unfold release
    simp only [constructs, unreached, Bool.not_true, Bool.false_eq_true, if_false]
  | reset value token body ty _ induct =>
    refine releases_behind (.reset value token · ty) induct (fun constructs unreached => ?_)
      (ControlPath.onto_seq value.onto_trace (ControlPath.onto_emit _)) rfl (fun body' => rfl)
      (fun body' same => same)
    conv_lhs => unfold release
    simp only [constructs, unreached, Bool.not_true, Bool.false_eq_true, if_false]
  | makeData tag args reuse scalars niche ty _ =>
    by_cases settled : hasConstruction (.makeData tag args reuse scalars niche ty) = false ∨
        reachesConstruction (.makeData tag args reuse scalars niche ty) = true
    · exact releases_early settled
    · intro low
      simp only [not_or, Bool.not_eq_false, Bool.not_eq_true] at settled
      refine ⟨_, low, ?_, Released.dropped slot none low _⟩
      unfold release
      simp only [settled.1, settled.2, Bool.not_true, Bool.false_eq_true, if_false]
      rfl
  | _ =>
    intro low
    refine ⟨_, low, ?_, Released.dropped slot none low _⟩
    unfold release
    split
    · rfl
    · rfl

/-- `release` of `reuse_sizes` always gives a result and releases the cell once on every path. -/
theorem releaseSized_releases (slot : LocalId) (e : CExpr) (fields low : Nat) :
    ∃ out high, releaseSized slot e fields low = some (out, high) ∧
      Released slot (some fields) low high e out := by
  unfold releaseSized
  split
  · exact ⟨_, low, rfl, Released.dropped slot (some fields) low e⟩
  · rename_i reachable
    simp only [not_or, Bool.not_eq_false] at reachable
    obtain ⟨out, runs, threaded⟩ := thread_threads low fields e false
    rw [reachable.2] at threaded
    refine ⟨resetThen slot low out, low + 1, ?_, Released.recycled threaded⟩
    simp only [runs, Option.map_some]

/-! ## Whole bodies -/

/-- The operations of a minted token on one path: none, or its reset and one use, whose size is
that of the cell where it is known. -/
def Settled (sizes : LocalId → Option Nat) (token : LocalId) (events : List Event) : Prop :=
  events = [] ∨ ∃ slot event, events = [.reset (some slot) token, event] ∧
    Spends token (sizes slot) event

/-- What the pass keeps and adds on one path, minting the tokens from `low` to `high`. -/
structure Recycled (sizes : LocalId → Option Nat) (low high : Nat) (before after : List Event) :
    Prop where
  /-- The references acquired and released are the same. -/
  counts : (counts after).Perm (counts before)
  /-- Tokens that were there before keep their operations. -/
  old : ∀ token, token < low → about token after = about token before
  /-- Minted tokens are reset and used once. -/
  minted : ∀ token, low ≤ token → token < high → Settled sizes token (about token after)
  /-- No other token occurs. -/
  unminted : ∀ token, high ≤ token → about token after = []

namespace Recycled

variable {sizes : LocalId → Option Nat}

/-- A path left alone mints nothing. -/
theorem refl {low : Nat} {events : List Event} (fresh : ∀ token, low ≤ token →
    about token events = []) : Recycled sizes low low events events where
  counts := List.Perm.refl _
  old := fun _ _ => rfl
  minted := fun _ atLeast below => absurd below (Nat.not_lt.mpr atLeast)
  unminted := fresh

/-- One change after the other. -/
theorem trans {low middle high : Nat} {first second third : List Event}
    (grows : low ≤ middle) (one : Recycled sizes low middle first second)
    (two : Recycled sizes middle high second third) : Recycled sizes low high first third where
  counts := two.counts.trans one.counts
  old := fun token below => by
    rw [two.old token (Nat.lt_of_lt_of_le below grows), one.old token below]
  minted := fun token atLeast below => by
    rcases Nat.lt_or_ge token middle with earlier | later
    · rw [two.old token earlier]
      exact one.minted token atLeast earlier
    · exact two.minted token later below
  unminted := two.unminted

/-- Changes of two consecutive stretches. -/
theorem append {low middle high : Nat} {first first' second second' : List Event}
    (grows : low ≤ middle) (shrinks : middle ≤ high)
    (fresh : ∀ token, low ≤ token → about token second = [])
    (one : Recycled sizes low middle first first')
    (two : Recycled sizes middle high second second') :
    Recycled sizes low high (first ++ second) (first' ++ second') where
  counts := by
    rw [counts_append, counts_append]
    exact one.counts.append two.counts
  old := fun token below => by
    rw [about_append, about_append, one.old token below,
      two.old token (Nat.lt_of_lt_of_le below grows)]
  minted := fun token atLeast below => by
    rw [about_append]
    rcases Nat.lt_or_ge token middle with earlier | later
    · rw [two.old token earlier, fresh token atLeast, List.append_nil]
      exact one.minted token atLeast earlier
    · rw [one.unminted token later, List.nil_append]
      exact two.minted token later below
  unminted := fun token above => by
    rw [about_append, one.unminted token (Nat.le_trans shrinks above), two.unminted token above]
    rfl

end Recycled

/-- Inserting an operation adds it to the operations of its token only. -/
theorem about_insert (token : LocalId) (event : Event) (pre post : List Event) :
    about token (pre ++ event :: post) =
      about token pre ++ (about token [event] ++ about token post) := by
  rw [about_append, ← List.singleton_append, about_append]

/-- An operation about another token does not count. -/
theorem about_other {token : LocalId} {event : Event} (other : event.token? ≠ some token) :
    about token [event] = [] := by
  simp [about, other]

/-- An operation about the token counts. -/
theorem about_own {token : LocalId} {event : Event} (own : event.token? = some token) :
    about token [event] = [event] := by
  simp [about, own]

/-- A use of a token is about it, and acquires and releases nothing. -/
theorem Spends.own {token : LocalId} {fields : Option Nat} {event : Event}
    (spends : Spends token fields event) : event.token? = some token ∧ event.count? = none := by
  rcases spends with rfl | ⟨n, rfl, -⟩
  · exact ⟨rfl, rfl⟩
  · exact ⟨rfl, rfl⟩

/-- The memory of a reset cell has one fate, and is rebuilt only by a cell of its own size. -/
theorem Spends.fate {token : LocalId} {fields : Option Nat} {source : Option LocalId}
    {event : Event} (spends : Spends token fields event) (cell : Option Nat) :
    ∃ fate, [Event.reset source token, event].filterMap (Event.fate cell) = [fate] ∧
      ∀ size, fate = .rebuilt size → cell = some size := by
  rcases spends with rfl | ⟨n, rfl, -⟩
  · refine ⟨if cell.isSome then .reclaimed else .absent, rfl, fun size rebuilt => ?_⟩
    split at rebuilt <;> cases rebuilt
  · refine ⟨_, rfl, fun size rebuilt => ?_⟩
    cases cell with
    | none => cases rebuilt
    | some held =>
      simp only at rebuilt
      split at rebuilt
      · cases rebuilt
        rfl
      · cases rebuilt

/-- A placed release is the drop of the cell up to the order of operations and the minted token. -/
theorem Placed.recycled {sizes : LocalId → Option Nat} {slot : LocalId} {low high : Nat}
    {fields : Option Nat} {before after : List Event} (ordered : low ≤ high)
    (known : ∀ wanted, sizes slot = some wanted → fields = some wanted)
    (fresh : ∀ token, low ≤ token → about token before = [])
    (placed : Placed slot fields low high before after) :
    Recycled sizes low high (.drop slot :: before) after := by
  rcases placed with ⟨pre, post, rfl, rfl⟩ |
    ⟨minted, event, atLeast, below, spends, pre, rest, rest', rfl, rfl, mid, post, rfl, rfl⟩
  · have same : ∀ token, about token (pre ++ .drop slot :: post) =
        about token (pre ++ post) := by
      intro token
      rw [about_insert, about_other (by simp [Event.token?]), List.nil_append, about_append]
    have dropped : ∀ token, about token (.drop slot :: (pre ++ post)) =
        about token (pre ++ post) := by
      intro token
      simp [about, Event.token?]
    refine ⟨?_, fun token _ => ?_, fun token atLeast _ => ?_, fun token above => ?_⟩
    · rw [counts_append]
      exact List.perm_middle.trans (List.Perm.of_eq (by simp [counts, Event.count?]))
    · rw [same, dropped]
    · rw [same, fresh token atLeast]
      exact .inl rfl
    · rw [same, fresh token (Nat.le_trans ordered above)]
  · obtain ⟨own, uncounted⟩ := spends.own
    have others : ∀ token, token ≠ minted →
        about token (pre ++ .reset (some slot) minted :: (mid ++ event :: post)) =
          about token (pre ++ (mid ++ post)) := by
      intro token apart
      have notReset : (Event.reset (some slot) minted).token? ≠ some token := by
        simpa [Event.token?] using apart.symm
      have notUse : event.token? ≠ some token := by
        rw [own]
        simpa using apart.symm
      rw [about_insert, about_other notReset, about_insert, about_other notUse]
      simp only [List.nil_append, about_append]
    have dropped : ∀ token, about token (.drop slot :: (pre ++ (mid ++ post))) =
        about token (pre ++ (mid ++ post)) := by
      intro token
      simp [about, Event.token?]
    refine ⟨?_, fun token less => ?_, fun token atLeast' below' => ?_, fun token above => ?_⟩
    · have useless : counts (event :: post) = counts post := by simp [counts, uncounted]
      have reset : counts (.reset (some slot) minted :: (mid ++ event :: post)) =
          (false, some slot) :: (counts mid ++ counts post) := by
        rw [← useless, ← counts_append]
        rfl
      have drop : counts (.drop slot :: (pre ++ (mid ++ post))) =
          (false, some slot) :: (counts pre ++ (counts mid ++ counts post)) := by
        rw [← counts_append, ← counts_append]
        rfl
      rw [counts_append, reset, drop]
      exact List.perm_middle
    · rw [others token (Nat.ne_of_lt (Nat.lt_of_lt_of_le less atLeast)), dropped]
    · by_cases isMinted : token = minted
      · subst isMinted
        have clean := fresh token atLeast'
        simp only [about_append, List.append_eq_nil_iff] at clean
        obtain ⟨preNil, midNil, postNil⟩ := clean
        refine .inr ⟨slot, event, ?_, ?_⟩
        · rw [about_insert, about_own rfl, about_insert, about_own own, preNil, midNil, postNil]
          rfl
        · rcases spends with freed | ⟨n, built, positive, matching⟩
          · exact .inl freed
          · exact .inr ⟨n, built, positive, fun wanted size => matching wanted (known wanted size)⟩
      · rw [others token isMinted, fresh token atLeast']
        exact .inl rfl
    · rw [others token (Nat.ne_of_gt (Nat.lt_of_lt_of_le below above)),
        fresh token (Nat.le_trans ordered above)]

/-- What the pass makes of a path. -/
structure Passed (sizes : LocalId → Option Nat) (low high : Nat)
    (before after : ControlPath Event) : Prop where
  /-- Tokens are taken in order. -/
  ordered : low ≤ high
  /-- Every path keeps its references and settles its minted tokens. -/
  path : ControlPath.Rel (Recycled sizes low high) before after
  /-- Every minted token is built into on some path. -/
  lands : ∀ token, low ≤ token → token < high → ∃ n, ControlPath.Can after (.build token n)

namespace Passed

variable {sizes : LocalId → Option Nat}

/-- A path left alone. -/
theorem kept {low : Nat} {path : ControlPath Event} (unused : Unused low path) :
    Passed sizes low low path path where
  ordered := Nat.le_refl _
  path := fun choices => ⟨rfl, Recycled.refl (unused choices)⟩
  lands := fun _ atLeast below => absurd below (Nat.not_lt.mpr atLeast)

/-- One path after the other. -/
theorem seq {low middle high : Nat} {first first' second second' : ControlPath Event}
    (one : Passed sizes low middle first first') (two : Passed sizes middle high second second')
    (unused : Unused low second) (onto : ControlPath.Onto first') :
    Passed sizes low high (ControlPath.seq first second) (ControlPath.seq first' second') where
  ordered := Nat.le_trans one.ordered two.ordered
  path := by
    intro choices
    obtain ⟨sameOne, recycledOne⟩ := one.path choices
    obtain ⟨sameTwo, recycledTwo⟩ := two.path (first choices).2
    simp only [ControlPath.seq, sameOne]
    exact ⟨sameTwo, recycledOne.append one.ordered two.ordered
      (unused (first choices).2) recycledTwo⟩
  lands := by
    intro token atLeast below
    rcases Nat.lt_or_ge token middle with earlier | later
    · obtain ⟨n, can⟩ := one.lands token atLeast earlier
      exact ⟨n, ControlPath.can_seq_left can⟩
    · obtain ⟨n, can⟩ := two.lands token later below
      exact ⟨n, ControlPath.can_seq_right onto can⟩

/-- Both branches of a decision. -/
theorem branch {low middle high : Nat} {yes yes' no no' : ControlPath Event}
    (left : Passed sizes low middle yes yes') (right : Passed sizes middle high no no')
    (unused : Unused low no) :
    Passed sizes low high (ControlPath.branch yes no) (ControlPath.branch yes' no') where
  ordered := Nat.le_trans left.ordered right.ordered
  path := by
    refine ControlPath.rel_branch (fun choices => ?_) (fun choices => ?_)
    · obtain ⟨same, recycled⟩ := left.path choices
      refine ⟨same, recycled.counts, recycled.old, fun token atLeast _ => ?_, fun token above => ?_⟩
      · rcases Nat.lt_or_ge token middle with inside | outside
        · exact recycled.minted token atLeast inside
        · exact .inl (recycled.unminted token outside)
      · exact recycled.unminted token (Nat.le_trans right.ordered above)
    · obtain ⟨same, recycled⟩ := right.path choices
      refine ⟨same, recycled.counts, fun token below => ?_, fun token atLeast below => ?_,
        recycled.unminted⟩
      · exact recycled.old token (Nat.lt_of_lt_of_le below left.ordered)
      · rcases Nat.lt_or_ge token middle with outside | inside
        · rw [recycled.old token outside, unused choices token atLeast]
          exact .inl rfl
        · exact recycled.minted token inside below
  lands := by
    intro token atLeast below
    rcases Nat.lt_or_ge token middle with earlier | later
    · obtain ⟨n, can⟩ := left.lands token atLeast earlier
      exact ⟨n, ControlPath.can_branch_left can⟩
    · obtain ⟨n, can⟩ := right.lands token later below
      exact ⟨n, ControlPath.can_branch_right can⟩

/-- A release after the pass over the rest of the body. -/
theorem release {slot : LocalId} {fields : Option Nat} {low middle high : Nat}
    {body body' out : CExpr} (passed : Passed sizes low middle body.trace body'.trace)
    (released : Released slot fields middle high body' out)
    (known : ∀ wanted, sizes slot = some wanted → fields = some wanted) :
    Passed sizes low high (ControlPath.seq (ControlPath.emit [.drop slot]) body.trace)
      out.trace where
  ordered := Nat.le_trans passed.ordered released.ordered
  path := by
    intro choices
    obtain ⟨sameBody, recycled⟩ := passed.path choices
    obtain ⟨sameOut, placed⟩ := released.path choices
    have dropped := placed.recycled released.ordered known recycled.unminted
    have whole : Recycled sizes low middle (.drop slot :: (body.trace choices).1)
        (.drop slot :: (body'.trace choices).1) := by
      refine ⟨?_, fun token below => ?_, fun token atLeast below => ?_, fun token above => ?_⟩
      · exact recycled.counts.cons _
      · simpa [about, Event.token?] using recycled.old token below
      · simpa [about, Event.token?] using recycled.minted token atLeast below
      · simpa [about, Event.token?] using recycled.unminted token above
    exact ⟨sameOut.trans sameBody, whole.trans passed.ordered dropped⟩
  lands := by
    intro token atLeast below
    rcases Nat.lt_or_ge token middle with earlier | later
    · -- the release keeps every operation of the body
      obtain ⟨n, choices, occurs⟩ := passed.lands token atLeast earlier
      obtain ⟨-, placed⟩ := released.path choices
      exact ⟨n, choices, placed.mem occurs⟩
    · exact released.lands token later below

end Passed

/-- The pass gives a result that computes the same and settles every token it mints. -/
def Passes (data : ReuseCandidates) (e : CExpr) : Prop :=
  ∀ low, e.noTailCall = true → e.tokensBelow low = true →
    ∃ out high, reusePass data e low = some (out, high) ∧ out.strip = e.strip ∧
      Passed data.fields low high e.trace out.trace

/-- The pass on operands. -/
theorem reusePassList_passes {data : ReuseCandidates} (args : List CExpr)
    (each : ∀ a ∈ args, Passes data a) (low : Nat) (plain : CExpr.noTailCallList args = true)
    (below : CExpr.tokensBelowList low args = true) :
    ∃ outs high, reusePassList data args low = some (outs, high) ∧
      CExpr.stripList outs = CExpr.stripList args ∧ outs.length = args.length ∧
      Passed data.fields low high (CExpr.traceList args) (CExpr.traceList outs) := by
  induction args generalizing low with
  | nil => exact ⟨[], low, rfl, rfl, rfl, Passed.kept (unused_emit (by simp))⟩
  | cons head tail induct =>
    simp only [CExpr.noTailCallList, CExpr.tokensBelowList, Bool.and_eq_true] at plain below
    obtain ⟨head', middle, runsHead, sameHead, passedHead⟩ :=
      each head List.mem_cons_self low plain.1 below.1
    obtain ⟨tail', high, runsTail, sameTail, sameLength, passedTail⟩ :=
      induct (fun a member => each a (List.mem_cons_of_mem _ member)) middle plain.2
        (CExpr.tokensBelowList_mono passedHead.ordered tail below.2)
    refine ⟨head' :: tail', high, ?_, ?_, ?_, ?_⟩
    · unfold reusePassList
      rw [bind_run runsHead, bind_run runsTail]
      rfl
    · simp only [CExpr.stripList, sameHead, sameTail]
    · simp only [List.length_cons, sameLength]
    · exact passedHead.seq passedTail (CExpr.unused_traceList tail below.2) head'.onto_trace

/-- The pass on an expression with one subexpression under a node that is left alone. -/
theorem passes_one {data : ReuseCandidates} {body whole : CExpr} (rebuild : CExpr → CExpr)
    {first : ControlPath Event} (onBody : Passes data body)
    (runs : reusePass data whole = reusePass data body >>= fun body => pure (rebuild body))
    (plain : whole.noTailCall = true → body.noTailCall = true)
    (below : ∀ low, whole.tokensBelow low = true →
      body.tokensBelow low = true ∧ Unused low first)
    (onto : ControlPath.Onto first) (before : whole.trace = ControlPath.seq first body.trace)
    (after : ∀ body', (rebuild body').trace = ControlPath.seq first body'.trace)
    (same : ∀ body', body'.strip = body.strip → (rebuild body').strip = whole.strip) :
    Passes data whole := by
  intro low plainWhole belowWhole
  obtain ⟨belowBody, unused⟩ := below low belowWhole
  obtain ⟨body', high, ran, sameBody, passed⟩ := onBody low (plain plainWhole) belowBody
  refine ⟨rebuild body', high, ?_, same body' sameBody, ?_⟩
  · rw [runs, bind_run ran]
    rfl
  · rw [before, after]
    exact (Passed.kept unused).seq passed (body.unused_trace belowBody) onto

/-- The pass on an expression with operands, followed by operations that are left alone. -/
theorem passes_operands {data : ReuseCandidates} {args : List CExpr} {whole : CExpr}
    (rebuild : List CExpr → CExpr) {last : ControlPath Event} (each : ∀ a ∈ args, Passes data a)
    (runs : reusePass data whole = reusePassList data args >>= fun args => pure (rebuild args))
    (plain : whole.noTailCall = true → CExpr.noTailCallList args = true)
    (below : ∀ low, whole.tokensBelow low = true →
      CExpr.tokensBelowList low args = true ∧ Unused low last)
    (before : whole.trace = ControlPath.seq (CExpr.traceList args) last)
    (after : ∀ args', args'.length = args.length →
      (rebuild args').trace = ControlPath.seq (CExpr.traceList args') last)
    (same : ∀ args', CExpr.stripList args' = CExpr.stripList args →
      (rebuild args').strip = whole.strip) : Passes data whole := by
  intro low plainWhole belowWhole
  obtain ⟨belowArgs, unused⟩ := below low belowWhole
  obtain ⟨args', high, ran, sameArgs, sameLength, passed⟩ :=
    reusePassList_passes args each low (plain plainWhole) belowArgs
  refine ⟨rebuild args', high, ?_, same args' sameArgs, ?_⟩
  · rw [runs, bind_run ran]
    rfl
  · rw [before, after args' sameLength]
    have later : Unused high last := fun choices token atLeast =>
      unused choices token (Nat.le_trans passed.ordered atLeast)
    exact passed.seq (Passed.kept later) unused (CExpr.onto_traceList args')

/-- The pass on a binding form. -/
theorem passes_binding {data : ReuseCandidates} {value body whole : CExpr}
    (rebuild : CExpr → CExpr → CExpr) (onValue : Passes data value) (onBody : Passes data body)
    (runs : reusePass data whole = reusePass data value >>= fun value =>
      reusePass data body >>= fun body => pure (rebuild value body))
    (plain : whole.noTailCall = (value.noTailCall && body.noTailCall))
    (below : ∀ low, whole.tokensBelow low = (value.tokensBelow low && body.tokensBelow low))
    (before : whole.trace = ControlPath.seq value.trace body.trace)
    (after : ∀ value' body', (rebuild value' body').trace =
      ControlPath.seq value'.trace body'.trace)
    (same : ∀ value' body', value'.strip = value.strip → body'.strip = body.strip →
      (rebuild value' body').strip = whole.strip) : Passes data whole := by
  intro low plainWhole belowWhole
  rw [plain, Bool.and_eq_true] at plainWhole
  rw [below, Bool.and_eq_true] at belowWhole
  obtain ⟨value', middle, ranValue, sameValue, passedValue⟩ :=
    onValue low plainWhole.1 belowWhole.1
  obtain ⟨body', high, ranBody, sameBody, passedBody⟩ := onBody middle plainWhole.2
    (body.tokensBelow_mono passedValue.ordered belowWhole.2)
  refine ⟨rebuild value' body', high, ?_, same value' body' sameValue sameBody, ?_⟩
  · rw [runs, bind_run ranValue, bind_run ranBody]
    rfl
  · rw [before, after]
    exact passedValue.seq passedBody (body.unused_trace belowWhole.2) value'.onto_trace

/-- The pass on a drop: the cell is dropped, or released by one of the two searches. -/
theorem passes_drop {data : ReuseCandidates} {slot : LocalId} {body : CExpr} {ty : Ty}
    (onBody : Passes data body) : Passes data (.drop slot body ty) := by
  intro low plain below
  obtain ⟨body', middle, ran, sameBody, passed⟩ := onBody low plain below
  have settle : ∃ out high, Released slot (data.fields slot) middle high body' out ∧
      reusePass data (.drop slot body ty) low = some (out, high) := by
    simp only [reusePass]
    rw [bind_run ran]
    split
    · cases data.fields slot with
      | some fields =>
        obtain ⟨out, high, runs, released⟩ := releaseSized_releases slot body' fields middle
        exact ⟨out, high, released, runs⟩
      | none =>
        obtain ⟨out, high, runs, released⟩ := release_releases slot body' middle
        exact ⟨out, high, released, runs⟩
    · exact ⟨_, middle, Released.dropped slot _ middle body', rfl⟩
  obtain ⟨out, high, released, runs⟩ := settle
  exact ⟨out, high, runs, released.same.trans sameBody,
    passed.release released fun wanted known => known⟩

/-- The pass over every body of the reference-count form. -/
theorem reusePass_passes (data : ReuseCandidates) (e : CExpr) : Passes data e := by
  induction e using CExpr.induct with
  | lit value ty | loc slot ty | global target ty | makeClosure func captures alloc ty
  | error ty => exact fun low _ _ => ⟨_, low, rfl, rfl, Passed.kept (unused_emit (by simp))⟩
  | prim op args ty each =>
    refine passes_operands (.prim op · ty) each rfl id
      (fun low below => ⟨below, unused_emit (by simp)⟩) (ControlPath.seq_nil _).symm
      (fun args' _ => (ControlPath.seq_nil _).symm) (fun args' same => ?_)
    simp only [CExpr.strip, same]
  | foreign symbol args marshalled ty each =>
    refine passes_operands (.foreign symbol · marshalled ty) each rfl id
      (fun low below => ⟨below, unused_emit (by simp)⟩) (ControlPath.seq_nil _).symm
      (fun args' _ => (ControlPath.seq_nil _).symm) (fun args' same => ?_)
    simp only [CExpr.strip, same]
  | spread args ty each =>
    refine passes_operands (.spread · ty) each rfl id
      (fun low below => ⟨below, unused_emit (by simp)⟩) (ControlPath.seq_nil _).symm
      (fun args' _ => (ControlPath.seq_nil _).symm) (fun args' same => ?_)
    simp only [CExpr.strip, same]
  | makeData tag args reuse scalars niche ty each =>
    refine passes_operands (.makeData tag · reuse scalars niche ty) each rfl id
      (fun low below => ?_) rfl (fun args' sameLength => ?_) (fun args' same => ?_)
    · have whole := below
      simp only [CExpr.tokensBelow, Bool.and_eq_true] at below
      refine ⟨below.1, ?_⟩
      have alone := CExpr.unused_trace (.makeData tag [] reuse scalars niche ty)
        (show (true && reuse.all (· < low)) = true by simpa using below.2)
      intro choices token atLeast
      have clean := alone choices token atLeast
      cases reuse with
      | none => rfl
      | some held => simpa [CExpr.trace, CExpr.traceList, ControlPath.seq, ControlPath.emit, about,
          Event.token?] using clean
    · simp only [CExpr.trace, sameLength]
    · simp only [CExpr.strip, same]
  | app func args reuse alloc ty onFunc each =>
    intro low plain below
    simp only [CExpr.noTailCall, CExpr.tokensBelow, Bool.and_eq_true, List.all_eq_true,
      decide_eq_true_eq] at plain below
    obtain ⟨func', middle, ranFunc, sameFunc, passedFunc⟩ := onFunc low plain.1 below.1.1
    obtain ⟨args', high, ranArgs, sameArgs, -, passedArgs⟩ :=
      reusePassList_passes args each middle plain.2
        (CExpr.tokensBelowList_mono passedFunc.ordered args below.1.2)
    have forwards : ∀ bound, low ≤ bound →
        Unused bound (ControlPath.emit ((reuse.filterMap id).map Event.forward)) := by
      intro bound ordered
      refine unused_emit fun event member token isToken => ?_
      obtain ⟨handed, inReuse, rfl⟩ := List.mem_map.mp member
      cases isToken
      exact Nat.lt_of_lt_of_le (below.2 _ inReuse) ordered
    have ordered := Nat.le_trans passedFunc.ordered passedArgs.ordered
    have tail := passedArgs.seq (Passed.kept (forwards high ordered))
      (forwards middle passedFunc.ordered) (CExpr.onto_traceList args')
    refine ⟨.app func' args' reuse alloc ty, high, ?_, ?_, ?_⟩
    · simp only [reusePass]
      rw [bind_run ranFunc, bind_run ranArgs]
      rfl
    · simp only [CExpr.strip, sameFunc, sameArgs]
    · exact passedFunc.seq tail (unused_seq (CExpr.unused_traceList args below.1.2)
        (forwards low (Nat.le_refl low))) func'.onto_trace
  | ite cond yes no ty onCond onYes onNo =>
    intro low plain below
    simp only [CExpr.noTailCall, CExpr.tokensBelow, Bool.and_eq_true] at plain below
    obtain ⟨cond', first, ranCond, sameCond, passedCond⟩ := onCond low plain.1.1 below.1.1
    obtain ⟨yes', second, ranYes, sameYes, passedYes⟩ := onYes first plain.1.2
      (yes.tokensBelow_mono passedCond.ordered below.1.2)
    obtain ⟨no', high, ranNo, sameNo, passedNo⟩ := onNo second plain.2
      (no.tokensBelow_mono (Nat.le_trans passedCond.ordered passedYes.ordered) below.2)
    refine ⟨.ite cond' yes' no' ty, high, ?_, ?_, ?_⟩
    · simp only [reusePass]
      rw [bind_run ranCond, bind_run ranYes, bind_run ranNo]
      rfl
    · simp only [CExpr.strip, sameCond, sameYes, sameNo]
    · have unusedYes := yes.unused_trace below.1.2
      have unusedNo := no.unused_trace below.2
      have laterNo : Unused first no.trace :=
        no.unused_trace (no.tokensBelow_mono passedCond.ordered below.2)
      exact passedCond.seq (passedYes.branch passedNo laterNo) (unused_branch unusedYes unusedNo)
        cond'.onto_trace
  | letIn slot value body ty onValue onBody =>
    exact passes_binding (.letIn slot · · ty) onValue onBody rfl rfl (fun _ => rfl) rfl
      (fun _ _ => rfl) (fun _ _ left right => by simp only [CExpr.strip, left, right])
  | letMany slots value body ty onValue onBody =>
    exact passes_binding (.letMany slots · · ty) onValue onBody rfl rfl (fun _ => rfl) rfl
      (fun _ _ => rfl) (fun _ _ left right => by simp only [CExpr.strip, left, right])
  | dataTag base niche ty onBase =>
    refine passes_one (.dataTag · niche ty) onBase rfl id
      (fun low below => ⟨below, unused_emit (by simp)⟩) (ControlPath.onto_emit []) rfl
      (fun _ => rfl) (fun _ same => by simp only [CExpr.strip, same])
  | dataField base index scalar niche ty onBase =>
    refine passes_one (.dataField · index scalar niche ty) onBase rfl id
      (fun low below => ⟨below, unused_emit (by simp)⟩) (ControlPath.onto_emit []) rfl
      (fun _ => rfl) (fun _ same => by simp only [CExpr.strip, same])
  | reset value token body ty _ onBody =>
    refine passes_one (.reset value token · ty) onBody rfl
      (fun plain => (Bool.and_eq_true _ _ |>.mp plain).2) (fun low below => ?_)
      (ControlPath.onto_seq value.onto_trace (ControlPath.onto_emit _)) rfl (fun _ => rfl)
      (fun _ same => same)
    simp only [CExpr.tokensBelow, Bool.and_eq_true, decide_eq_true_eq] at below
    refine ⟨below.2, unused_seq (value.unused_trace below.1.1) (unused_emit ?_)⟩
    intro event member other isToken
    rw [List.mem_singleton.mp member] at isToken
    cases isToken
    exact below.1.2
  | freeReuse token body ty onBody =>
    refine passes_one (.freeReuse token · ty) onBody rfl id (fun low below => ?_)
      (ControlPath.onto_emit _) rfl (fun _ => rfl) (fun _ same => same)
    simp only [CExpr.tokensBelow, Bool.and_eq_true, decide_eq_true_eq] at below
    refine ⟨below.2, unused_emit ?_⟩
    intro event member other isToken
    rw [List.mem_singleton.mp member] at isToken
    cases isToken
    exact below.1
  | dup slot body ty onBody =>
    exact passes_one (dupThen slot) onBody rfl id
      (fun low below => ⟨below, unused_emit (by simp [Event.token?])⟩) (ControlPath.onto_emit _) rfl
      (fun _ => rfl) (fun _ same => same)
  | drop slot body ty onBody => exact passes_drop onBody
  | join params body ty _ => exact fun _ plain => absurd plain Bool.false_ne_true
  | recur args ty _ => exact fun _ plain => absurd plain Bool.false_ne_true
  | holeStart hole body ty _ => exact fun _ plain => absurd plain Bool.false_ne_true
  | holeFill hole cell field ty _ => exact fun _ plain => absurd plain Bool.false_ne_true
  | holeClose hole base ty _ => exact fun _ plain => absurd plain Bool.false_ne_true

/-- Reuse tokens are linear. On every body before the tail-call transform the pass gives a result
(no arm marked unreachable is met) that computes the same; on every control path it acquires and
releases the same references, leaves earlier tokens alone, and each token it mints has no operation
there or exactly its reset and one use: a build, of the cell's own field count where that is known,
or a free. Whatever cell the reset found, its memory has one fate, and only a build of its own size
rebuilds it. Each minted token is built into on some path: the threading attaches what the search
found. -/
theorem reuse_tokens_linear (data : ReuseCandidates) (e : CExpr) (next : Nat)
    (plain : e.noTailCall = true) (below : e.tokensBelow next = true) :
    ∃ out high, reusePass data e next = some (out, high) ∧ out.strip = e.strip ∧
      (∀ choices, (out.trace choices).2 = (e.trace choices).2 ∧
        (counts (out.trace choices).1).Perm (counts (e.trace choices).1) ∧
        (∀ token, token < next →
          about token (out.trace choices).1 = about token (e.trace choices).1) ∧
        ∀ token, next ≤ token → about token (out.trace choices).1 = [] ∨
          ∃ slot event, about token (out.trace choices).1 = [.reset (some slot) token, event] ∧
            (event = .free token ∨ ∃ n, event = .build token n ∧ 0 < n ∧
              ∀ fields, data.fields slot = some fields → n = fields) ∧
            ∀ cell, ∃ fate, (about token (out.trace choices).1).filterMap (Event.fate cell) =
              [fate] ∧ ∀ size, fate = .rebuilt size → cell = some size) ∧
      ∀ token, next ≤ token → token < high → ∃ choices n,
        .build token n ∈ (out.trace choices).1 := by
  obtain ⟨out, high, runs, same, passed⟩ := reusePass_passes data e next plain below
  refine ⟨out, high, runs, same, fun choices => ?_, fun token atLeast less => ?_⟩
  · obtain ⟨sameRest, recycled⟩ := passed.path choices
    refine ⟨sameRest, recycled.counts, recycled.old, fun token atLeast => ?_⟩
    rcases Nat.lt_or_ge token high with minted | beyond
    · rcases recycled.minted token atLeast minted with nothing | ⟨slot, event, settled, spends⟩
      · exact .inl nothing
      · refine .inr ⟨slot, event, settled, spends, fun cell => ?_⟩
        rw [settled]
        exact spends.fate cell
    · exact .inl (recycled.unminted token beyond)
  · obtain ⟨n, choices, occurs⟩ := passed.lands token atLeast less
    exact ⟨choices, n, occurs⟩

/-- A body that drops a pair and builds a pair on one branch only. -/
def swapBody : CExpr :=
  .drop 0 (.ite (.loc 1 .error) (.makeData 0 [.loc 2 .error, .loc 3 .error] none 0 none .error)
    (.loc 2 .error) .error) .error

/-- Candidates for `swapBody`: the dropped pair, of known size. -/
def swapData : ReuseCandidates := ⟨[0], [], [], [], [(0, some 2)]⟩

/-- On `swapBody` the pair's memory is built into on one branch and freed on the other. -/
theorem swap_recycles :
    ∃ out high, reusePass swapData swapBody 10 = some (out, high) ∧ out.strip = swapBody.strip ∧
      (out.trace [true]).1 = [.reset (some 0) 10, .build 10 2] ∧
      (out.trace [false]).1 = [.reset (some 0) 10, .free 10] := by
  obtain ⟨out, high, runs, same, -⟩ := reuse_tokens_linear swapData swapBody 10 rfl rfl
  have computed : reusePass swapData swapBody 10 = some (out, high) := runs
  have expected : reusePass swapData swapBody 10 = some (.reset (.loc 0 .error) 10
      (.ite (.loc 1 .error) (.makeData 0 [.loc 2 .error, .loc 3 .error] (some 10) 0 none .error)
        (.freeReuse 10 (.loc 2 .error) .error) .error) .error, 11) := rfl
  rw [expected] at computed
  cases computed
  exact ⟨_, _, runs, same, rfl, rfl⟩

end Reuse

end Fai
