import FaiVerif.Rc.Verify

/-!
# What the reference-count checker guarantees

The checker follows the references of a function one operand at a time. In a run where no operation
takes the last reference that keeps one of its own lent operands readable, takes a reference of a
slot on loan that the function has not acquired, or leaves an acquired reference of a carried loan
behind at a back-edge, an accepted function never faults and leaves no reference of an owned slot.
-/

namespace Fai

namespace Verify

open Ledger

/-- What a step must leave to its operands for the checker's account to be exact, as a condition on
the references before it. -/
def Separate (loans : List LocalId) : Step LocalId → Book LocalId → Prop
  | .use lent taken, book =>
    (∀ slot ∈ lent, reads loans book.held book.views slot = true →
      reads loans (book.held - (taken : Multiset LocalId)) book.views slot = true) ∧
    ∀ slot ∈ loans, taken.count slot ≤ book.held.count slot
  | .carry moves, book => ∀ move ∈ moves, move.1 ∉ book.held
  | _, _ => True

/-! ## Tables of counts -/

namespace Refs

/-- Looking up in a table without some slots. -/
theorem lookup_filter (refs : Refs) (slot other : LocalId) :
    (refs.filter fun entry => entry.1 ≠ slot).lookup other =
      if other = slot then none else refs.lookup other := by
  induction refs with
  | nil => simp
  | cons entry rest inductionHypothesis =>
    obtain ⟨name, count⟩ := entry
    by_cases removed : name = slot
    · subst removed
      have skipped : ((name, count) :: rest).filter (fun entry => entry.1 ≠ name) =
          rest.filter (fun entry => entry.1 ≠ name) := List.filter_cons_of_neg (by simp)
      rw [skipped, inductionHypothesis]
      by_cases same : other = name
      · rw [if_pos same, if_pos same]
      · have different : (other == name) = false := by simpa using same
        rw [if_neg same, if_neg same, List.lookup_cons, different]
    · have kept : ((name, count) :: rest).filter (fun entry => entry.1 ≠ slot) =
          (name, count) :: rest.filter (fun entry => entry.1 ≠ slot) :=
        List.filter_cons_of_pos (by simpa using removed)
      rw [kept, List.lookup_cons, List.lookup_cons, inductionHypothesis]
      by_cases same : other = name
      · subst same
        simp [removed]
      · have different : (other == name) = false := by simpa using same
        rw [different]

/-- Looking up after setting a count. -/
theorem lookup_insert (refs : Refs) (slot other : LocalId) (count : Int) :
    (refs.insert slot count).lookup other =
      if other = slot then some count else refs.lookup other := by
  unfold insert
  rw [List.lookup_cons, lookup_filter]
  by_cases same : other = slot
  · simp [same]
  · have different : (other == slot) = false := by simpa using same
    rw [different, if_neg same, if_neg same]

/-- Looking up after forgetting a slot. -/
theorem lookup_remove (refs : Refs) (slot other : LocalId) :
    (refs.remove slot).lookup other = if other = slot then none else refs.lookup other :=
  lookup_filter refs slot other

/-- Equal tables agree on every slot. -/
theorem lookup_eq_of_same {left right : Refs} (equal : left.same right = true) (slot : LocalId) :
    left.lookup slot = right.lookup slot := by
  simp only [same, List.all_eq_true, List.mem_append, beq_iff_eq] at equal
  have found : ∀ {refs : Refs} {count : Int}, refs.lookup slot = some count →
      ∃ entry ∈ refs, entry.1 = slot := by
    intro refs count looked
    obtain ⟨before, after, split, _⟩ := List.lookup_eq_some_iff.mp looked
    exact ⟨(slot, count), by simp [split], rfl⟩
  cases inLeft : left.lookup slot with
  | some count =>
    obtain ⟨entry, member, rfl⟩ := found inLeft
    rw [← equal entry (.inl member), inLeft]
  | none =>
    cases inRight : right.lookup slot with
    | none => rfl
    | some count =>
      obtain ⟨entry, member, rfl⟩ := found inRight
      have agree := equal entry (.inr member)
      rw [inLeft, inRight] at agree
      cases agree

end Refs

/-- A check in two parts succeeds when both do. -/
theorem bind_ok {β δ : Type} {first : Except String β} {rest : β → Except String δ} {result : δ} :
    first >>= rest = .ok result ↔ ∃ middle, first = .ok middle ∧ rest middle = .ok result := by
  cases first <;> simp [bind, Except.bind]

/-! ## The checker's account of the ledger -/

/-- Whether a slot is on loan or has a count. -/
def current (ck : Checker) (refs : Refs) (slot : LocalId) : Bool :=
  decide (slot ∈ ck.captures) || (refs.lookup slot).isSome

/-- The checker's counts are the references held of every slot that is not on loan, and its borrowed
slots are the views in scope. -/
structure Agrees (ck : Checker) (refs : Refs) (book : Book LocalId) : Prop where
  /-- Counts are references held. -/
  counts : ∀ slot ∉ ck.captures, (book.held.count slot : Int) = (refs.lookup slot).getD 0
  /-- The views of slots in scope. -/
  scope : book.views.filter (fun view => current ck refs view.1) = ck.projections
  /-- Owners of borrowed slots are in scope. -/
  owners : ∀ view ∈ ck.projections, current ck refs view.2 = true
  /-- Borrowed slots have counts. -/
  counted : ∀ view ∈ ck.projections, (refs.lookup view.1).isSome = true
  /-- No view is on loan. -/
  own : ∀ view ∈ book.views, view.1 ∉ ck.captures

namespace Agrees

variable {ck : Checker} {refs refs' : Refs} {book : Book LocalId} {slot : LocalId}

/-- Borrowed slots are not on loan. -/
theorem projection_own (agrees : Agrees ck refs book) {view : LocalId × LocalId}
    (member : view ∈ ck.projections) : view.1 ∉ ck.captures := by
  rw [← agrees.scope] at member
  exact agrees.own view (List.mem_filter.mp member).1

/-- A positive count is a held reference. -/
theorem mem_of_positive (agrees : Agrees ck refs book) (own : slot ∉ ck.captures)
    (positive : 0 < (refs.lookup slot).getD 0) : slot ∈ book.held := by
  have equal := agrees.counts slot own
  rw [← Multiset.count_pos]
  omega

/-- Other counts of the same slots. -/
theorem congr (agrees : Agrees ck refs book) {held : Multiset LocalId}
    (keys : ∀ name, (refs'.lookup name).isSome = (refs.lookup name).isSome)
    (counts : ∀ name ∉ ck.captures, (held.count name : Int) = (refs'.lookup name).getD 0) :
    Agrees ck refs' ⟨held, book.views⟩ := by
  have sameScope : current ck refs' = current ck refs := by
    funext name
    simp only [current, keys]
  refine ⟨counts, ?_, ?_, ?_, agrees.own⟩
  · rw [sameScope]
    exact agrees.scope
  · rw [sameScope]
    exact agrees.owners
  · intro view member
    rw [keys]
    exact agrees.counted view member

/-- Setting the count of a counted slot keeps the slots. -/
theorem isSome_insert {count : Int} (known : (refs.lookup slot).isSome = true) (name : LocalId) :
    ((refs.insert slot count).lookup name).isSome = (refs.lookup name).isSome := by
  rw [Refs.lookup_insert]
  by_cases same : name = slot
  · rw [if_pos same, same, known]
    rfl
  · rw [if_neg same]

/-- A read the checker allows among some borrowed slots reads a readable slot in scope. -/
theorem reads_of_borrowIn (agrees : Agrees ck refs book) :
    ∀ (views : List (LocalId × LocalId)) (name : LocalId),
      (∀ view ∈ views, view ∈ ck.projections) → ck.borrowIn refs views name = .ok () →
        reads ck.captures book.held views name = true ∧ current ck refs name = true := by
  intro views
  induction views with
  | nil =>
    intro name _ ok
    simp only [Checker.borrowIn, Checker.owned] at ok
    by_cases loaned : name ∈ ck.captures
    · exact ⟨by simp [reads, loaned], by simp [current, loaned]⟩
    · simp only [loaned, not_false_eq_true, decide_true, Bool.not_true, Bool.false_eq_true,
        ↓reduceIte] at ok
      split at ok
      · cases ok
      · rename_i enough
        have positive : 0 < (refs.lookup name).getD 0 := by omega
        refine ⟨by simp [reads, agrees.mem_of_positive loaned positive], ?_⟩
        cases found : refs.lookup name with
        | none => simp [found] at positive
        | some count => simp [current, found]
  | cons view older inductionHypothesis =>
    intro name known ok
    obtain ⟨seen, parent⟩ := view
    have member := known (seen, parent) List.mem_cons_self
    have olderKnown := fun view inOlder => known view (List.mem_cons_of_mem _ inOlder)
    unfold Checker.borrowIn at ok
    by_cases same : name = seen
    · subst same
      have inScope : current ck refs name = true := by
        have counted := agrees.counted _ member
        simp only at counted
        simp [current, counted]
      refine ⟨?_, inScope⟩
      rw [if_pos rfl] at ok
      unfold reads
      rw [if_pos rfl, Bool.or_eq_true, decide_eq_true_eq]
      split at ok
      · rename_i positive
        left
        apply agrees.mem_of_positive (agrees.projection_own member)
        cases found : refs.lookup name with
        | none => simp [found] at positive
        | some count => simpa [found] using positive
      · exact .inr (inductionHypothesis parent olderKnown ok).1
    · rw [if_neg same] at ok
      obtain ⟨readable, inScope⟩ := inductionHypothesis name olderKnown ok
      refine ⟨?_, inScope⟩
      unfold reads
      rw [if_neg same]
      exact readable

/-- A read the checker allows reads a slot in scope. -/
theorem current_of_borrow (agrees : Agrees ck refs book) (allowed : ck.borrow slot refs = .ok ()) :
    current ck refs slot = true :=
  (agrees.reads_of_borrowIn ck.projections slot (fun _ member => member) allowed).2

/-- A read the checker allows reads a readable slot. -/
theorem reads_of_borrow (agrees : Agrees ck refs book) (allowed : ck.borrow slot refs = .ok ()) :
    reads ck.captures book.held book.views slot = true := by
  obtain ⟨readable, inScope⟩ :=
    agrees.reads_of_borrowIn ck.projections slot (fun _ member => member) allowed
  have owners := agrees.owners
  rw [← agrees.scope] at readable owners
  rwa [reads_filter (current ck refs) book.views slot inScope owners] at readable

/-- Taking a reference the checker allows: nothing is counted of a slot on loan, and any other slot
holds a reference. -/
theorem consume (agrees : Agrees ck refs book) (allowed : ck.consume slot refs = .ok refs') :
    (slot ∈ ck.captures ∧ refs' = refs) ∨
      (slot ∉ ck.captures ∧ slot ∈ book.held ∧
        Agrees ck refs' ⟨book.held.erase slot, book.views⟩) := by
  have taken : ∀ count : Int, slot ∉ ck.captures → refs.lookup slot = some count → 0 < count →
      slot ∈ book.held ∧
        Agrees ck (refs.insert slot (count - 1)) ⟨book.held.erase slot, book.views⟩ := by
    intro count own found positive
    have present : slot ∈ book.held := agrees.mem_of_positive own (by simpa [found] using positive)
    refine ⟨present, agrees.congr (isSome_insert (by simp [found])) fun name ownName => ?_⟩
    have equal := agrees.counts name ownName
    rw [Refs.lookup_insert]
    by_cases same : name = slot
    · subst same
      have heldPositive := Multiset.count_pos.mpr present
      rw [found, Option.getD_some] at equal
      rw [if_pos rfl, Multiset.count_erase_self, Option.getD_some]
      omega
    · rw [if_neg same, Multiset.count_erase_of_ne same]
      exact equal
  unfold Checker.consume at allowed
  simp only at allowed
  split at allowed
  · rename_i isView
    obtain ⟨parent, found⟩ := Option.isSome_iff_exists.mp isView
    obtain ⟨before, after, split, _⟩ := List.lookup_eq_some_iff.mp found
    have member : (slot, parent) ∈ ck.projections := by simp [split]
    have own : slot ∉ ck.captures := agrees.projection_own member
    cases known : refs.lookup slot with
    | none =>
      rw [known] at allowed
      cases allowed
    | some count =>
      rw [known] at allowed
      simp only at allowed
      split at allowed
      · cases allowed
      · rename_i nonzero
        cases allowed
        have equal := agrees.counts slot own
        rw [known, Option.getD_some] at equal
        exact .inr ⟨own, taken count own known (by omega)⟩
  · split at allowed
    · rename_i loaned
      cases allowed
      simp only [Checker.owned, Bool.not_eq_true', decide_eq_false_iff_not, not_not] at loaned
      exact .inl ⟨loaned, rfl⟩
    · rename_i owned
      have own : slot ∉ ck.captures := by simpa [Checker.owned] using owned
      cases known : refs.lookup slot with
      | none =>
        rw [known] at allowed
        cases allowed
      | some count =>
        rw [known] at allowed
        simp only at allowed
        split at allowed
        · cases allowed
        · rename_i enough
          cases allowed
          exact .inr ⟨own, taken count own known (by omega)⟩

/-- Acquiring a reference the checker allows. -/
theorem acquire (agrees : Agrees ck refs book) (allowed : ck.acquire slot refs = .ok refs') :
    reads ck.captures book.held book.views slot = true ∧
      Agrees ck refs' ⟨slot ::ₘ book.held, book.views⟩ := by
  have acquired : ∀ count : Int, slot ∉ ck.captures → refs.lookup slot = some count →
      Agrees ck (refs.insert slot (count + 1)) ⟨slot ::ₘ book.held, book.views⟩ := by
    intro count own found
    refine agrees.congr (isSome_insert (by simp [found])) fun name ownName => ?_
    have equal := agrees.counts name ownName
    rw [Refs.lookup_insert]
    by_cases same : name = slot
    · subst same
      rw [found, Option.getD_some] at equal
      rw [if_pos rfl, Multiset.count_cons_self, Option.getD_some]
      omega
    · rw [if_neg same, Multiset.count_cons_of_ne same]
      exact equal
  unfold Checker.acquire at allowed
  simp only at allowed
  split at allowed
  · rename_i isView
    obtain ⟨parent, found⟩ := Option.isSome_iff_exists.mp isView
    obtain ⟨before, after, split, _⟩ := List.lookup_eq_some_iff.mp found
    have member : (slot, parent) ∈ ck.projections := by simp [split]
    have own : slot ∉ ck.captures := agrees.projection_own member
    obtain ⟨_, borrowed, rest⟩ := bind_ok.mp allowed
    cases known : refs.lookup slot with
    | none =>
      rw [known] at rest
      cases rest
    | some count =>
      rw [known] at rest
      cases rest
      exact ⟨agrees.reads_of_borrow borrowed, acquired count own known⟩
  · rename_i noView
    split at allowed
    · rename_i owned
      have own : slot ∉ ck.captures := by simpa [Checker.owned] using owned
      cases known : refs.lookup slot with
      | none =>
        rw [known] at allowed
        cases allowed
      | some count =>
        rw [known] at allowed
        simp only at allowed
        split at allowed
        · cases allowed
        · rename_i enough
          cases allowed
          have positive : 0 < (refs.lookup slot).getD 0 := by
            rw [known, Option.getD_some]
            omega
          have present := agrees.mem_of_positive own positive
          exact ⟨reads_of_held present book.views, acquired count own known⟩
    · rename_i loaned
      cases allowed
      have onLoan : slot ∈ ck.captures := by simpa [Checker.owned] using loaned
      refine ⟨reads_of_loan onLoan book.views agrees.own,
        agrees.congr (fun _ => rfl) fun name ownName => ?_⟩
      have different : name ≠ slot := fun same => ownName (same ▸ onLoan)
      rw [Multiset.count_cons_of_ne different]
      exact agrees.counts name ownName

/-- A slot without a count holds nothing. -/
theorem not_mem_of_unknown (agrees : Agrees ck refs book) (own : slot ∉ ck.captures)
    (unknown : refs.lookup slot = none) : slot ∉ book.held := by
  have equal := agrees.counts slot own
  rw [unknown, Option.getD_none] at equal
  rw [← Multiset.count_eq_zero]
  omega

/-- A slot that is not in scope is neither borrowed nor the owner of a borrowed slot. -/
theorem projections_apart (agrees : Agrees ck refs book) (own : slot ∉ ck.captures)
    (unknown : refs.lookup slot = none) {view : LocalId × LocalId}
    (member : view ∈ ck.projections) : view.1 ≠ slot ∧ view.2 ≠ slot := by
  have notCurrent : current ck refs slot = false := by simp [current, own, unknown]
  constructor
  · intro same
    have counted := agrees.counted view member
    rw [same, unknown] at counted
    cases counted
  · intro same
    have inScope := agrees.owners view member
    rw [same, notCurrent] at inScope
    cases inScope

/-- Setting a count brings the slot into scope. -/
theorem current_insert (ck : Checker) (refs : Refs) (slot : LocalId) (count : Int)
    (name : LocalId) : current ck (refs.insert slot count) name =
      (current ck refs name || decide (name = slot)) := by
  unfold current
  rw [Refs.lookup_insert]
  by_cases same : name = slot
  · simp [same]
  · simp [same]

/-- The views in scope after a new slot has its value. -/
theorem scope_forget (agrees : Agrees ck refs book) (own : slot ∉ ck.captures)
    (unknown : refs.lookup slot = none) (count : Int) :
    (forget slot book.views).filter (fun view => current ck (refs.insert slot count) view.1) =
      ck.projections := by
  have kept : ck.projections.filter (fun view => view.1 ≠ slot ∧ view.2 ≠ slot) =
      ck.projections := by
    apply List.filter_eq_self.mpr
    intro view member
    simpa using agrees.projections_apart own unknown member
  rw [forget, List.filter_filter, ← kept, ← agrees.scope, List.filter_filter]
  apply List.filter_congr
  intro view _
  rw [current_insert]
  by_cases same : view.1 = slot
  · simp [same]
  · simp [same, Bool.and_comm]

/-- A bound slot: it held nothing, and now it holds one reference. -/
theorem bind (agrees : Agrees ck refs book) {message : String} (own : slot ∉ ck.captures)
    (allowed : Checker.bindSlot refs slot message = .ok refs') :
    refs.lookup slot = none ∧
      ∃ next, step ck.captures (.bind slot) book = some next ∧ Agrees ck refs' next := by
  unfold Checker.bindSlot at allowed
  split at allowed
  · cases allowed
  · rename_i noCount
    cases allowed
    have unknown : refs.lookup slot = none := Option.not_isSome_iff_eq_none.mp noCount
    have absent := agrees.not_mem_of_unknown own unknown
    refine ⟨unknown, ⟨slot ::ₘ book.held, forget slot book.views⟩, by simp [step, absent, own], ?_⟩
    constructor
    · intro name ownName
      have equal := agrees.counts name ownName
      rw [Refs.lookup_insert]
      by_cases same : name = slot
      · subst same
        rw [if_pos rfl, Multiset.count_cons_self, Multiset.count_eq_zero.mpr absent]
        rfl
      · rw [if_neg same, Multiset.count_cons_of_ne same]
        exact equal
    · exact agrees.scope_forget own unknown 1
    · intro view member
      rw [current_insert, agrees.owners view member, Bool.true_or]
    · intro view member
      rw [Refs.lookup_insert, if_neg (agrees.projections_apart own unknown member).1]
      exact agrees.counted view member
    · intro view member
      exact agrees.own view (List.mem_filter.mp member).1

/-- A slot bound to a view of a slot in scope. -/
theorem view (agrees : Agrees ck refs book) {parent : LocalId} (own : slot ∉ ck.captures)
    (unknown : refs.lookup slot = none) (inScope : current ck refs parent = true) :
    ∃ next, step ck.captures (.view slot parent) book = some next ∧
      Agrees { ck with projections := (slot, parent) :: ck.projections } (refs.insert slot 0)
        next := by
  have absent := agrees.not_mem_of_unknown own unknown
  have different : slot ≠ parent := by
    intro same
    rw [← same] at inScope
    simp [current, own, unknown] at inScope
  refine ⟨⟨book.held, (slot, parent) :: forget slot book.views⟩,
    by simp [step, absent, own, different], ?_⟩
  have slotCurrent : current ck (refs.insert slot 0) slot = true := by
    rw [current_insert]
    simp
  constructor
  · intro name ownName
    have equal := agrees.counts name ownName
    rw [Refs.lookup_insert]
    by_cases same : name = slot
    · subst same
      rw [if_pos rfl]
      simp [absent]
    · rw [if_neg same]
      exact equal
  · show List.filter (fun view => current ck (refs.insert slot 0) view.1)
      ((slot, parent) :: forget slot book.views) = _
    rw [List.filter_cons, if_pos slotCurrent, agrees.scope_forget own unknown 0]
  · intro view member
    show current ck (refs.insert slot 0) view.2 = true
    rw [current_insert]
    rcases List.mem_cons.mp member with rfl | older
    · rw [inScope, Bool.true_or]
    · rw [agrees.owners view older, Bool.true_or]
  · intro view member
    rw [Refs.lookup_insert]
    rcases List.mem_cons.mp member with rfl | older
    · simp
    · rw [if_neg (agrees.projections_apart own unknown older).1]
      exact agrees.counted view older
  · intro view member
    rcases List.mem_cons.mp member with rfl | older
    · exact own
    · exact agrees.own view (List.mem_filter.mp older).1

end Agrees

/-- What remains of the agreement at the end of an iteration: the counts, and no view in scope but
the checker's. -/
structure Ends (ck : Checker) (refs : Refs) (book : Book LocalId) : Prop where
  /-- Counts are references held. -/
  counts : ∀ slot ∉ ck.captures, (book.held.count slot : Int) = (refs.lookup slot).getD 0
  /-- The views of slots in scope are the checker's. -/
  scope : ∀ view ∈ book.views, current ck refs view.1 = true → view ∈ ck.projections
  /-- No view is on loan. -/
  own : ∀ view ∈ book.views, view.1 ∉ ck.captures

/-- An agreement is one at the end. -/
theorem Agrees.ends {ck : Checker} {refs : Refs} {book : Book LocalId}
    (agrees : Agrees ck refs book) : Ends ck refs book := by
  refine ⟨agrees.counts, fun view member inScope => ?_, agrees.own⟩
  rw [← agrees.scope]
  exact List.mem_filter.mpr ⟨member, inScope⟩

section Closing

variable {ck inner : Checker} {refs refs' : Refs} {book : Book LocalId} {slot : LocalId}

/-- Forgetting a slot takes it out of scope. -/
theorem current_remove (own : slot ∉ ck.captures) (name : LocalId) :
    current ck (refs.remove slot) name = (current ck refs name && decide (name ≠ slot)) := by
  unfold current
  rw [Refs.lookup_remove]
  by_cases same : name = slot
  · subst same
    simp [own]
  · simp [same]

/-- The counts when a slot without references leaves the scope. -/
theorem counts_remove {held : Multiset LocalId} (empty : (refs.lookup slot).getD 0 = 0)
    (counts : ∀ name ∉ ck.captures, (held.count name : Int) = (refs.lookup name).getD 0)
    (name : LocalId) (ownName : name ∉ ck.captures) :
    (held.count name : Int) = ((refs.remove slot).lookup name).getD 0 := by
  have equal := counts name ownName
  rw [Refs.lookup_remove]
  by_cases same : name = slot
  · rw [if_pos same, equal, same, empty]
    rfl
  · rw [if_neg same]
    exact equal

/-- A slot leaves the scope, with its view if it is one. -/
theorem Agrees.close (agrees : Agrees inner refs book) (captures : inner.captures = ck.captures)
    (own : slot ∉ ck.captures)
    (views : inner.projections.filter (fun view => view.1 ≠ slot) = ck.projections)
    (apart : ∀ view ∈ ck.projections, view.2 ≠ slot) (empty : (refs.lookup slot).getD 0 = 0) :
    Agrees ck (refs.remove slot) book := by
  have sameCurrent : ∀ refs, current inner refs = current ck refs := by
    intro refs
    funext name
    simp only [current, captures]
  have inInner : ∀ view ∈ ck.projections, view ∈ inner.projections ∧ view.1 ≠ slot := by
    intro view member
    rw [← views] at member
    obtain ⟨inside, other⟩ := List.mem_filter.mp member
    exact ⟨inside, by simpa using other⟩
  constructor
  · exact fun name ownName =>
      counts_remove empty (fun other ownOther => agrees.counts other (captures ▸ ownOther)) name
        ownName
  · rw [← views, ← agrees.scope, List.filter_filter]
    apply List.filter_congr
    intro view _
    rw [current_remove own, sameCurrent, Bool.and_comm]
  · intro view member
    have inScope := agrees.owners view (inInner view member).1
    rw [sameCurrent] at inScope
    rw [current_remove own, inScope]
    simpa using apart view member
  · intro view member
    rw [Refs.lookup_remove, if_neg (inInner view member).2]
    exact agrees.counted view (inInner view member).1
  · rw [← captures]
    exact agrees.own

/-- The same at the end of an iteration. -/
theorem Ends.close (ends : Ends inner refs book) (captures : inner.captures = ck.captures)
    (own : slot ∉ ck.captures)
    (views : inner.projections.filter (fun view => view.1 ≠ slot) = ck.projections)
    (empty : (refs.lookup slot).getD 0 = 0) : Ends ck (refs.remove slot) book := by
  refine ⟨fun name ownName => counts_remove empty
    (fun other ownOther => ends.counts other (captures ▸ ownOther)) name ownName, ?_, ?_⟩
  · intro view member inScope
    rw [current_remove own, Bool.and_eq_true] at inScope
    have sameCurrent : current inner refs view.1 = true := by
      have outer := inScope.1
      simpa only [current, captures] using outer
    rw [← views]
    exact List.mem_filter.mpr ⟨ends.scope view member sameCurrent, inScope.2⟩
  · rw [← captures]
    exact ends.own

end Closing

/-! ## Operations -/

/-- The references an operation takes of slots that are not on loan. -/
def ownTaken (loans : List LocalId) (taken : List LocalId) : Multiset LocalId :=
  ((taken.filter fun slot => slot ∉ loans : List LocalId) : Multiset LocalId)

/-- The checker's account of an operation: it reads what it lends, and the references it takes of
slots not on loan are held. -/
structure Spends (ck : Checker) (book : Book LocalId) (lent taken : List LocalId)
    (refs' : Refs) : Prop where
  /-- The references are held. -/
  enough : ownTaken ck.captures taken ≤ book.held
  /-- What is lent is readable at the start. -/
  readable : ∀ slot ∈ lent, reads ck.captures book.held book.views slot = true
  /-- The counts afterwards. -/
  agrees : Agrees ck refs' ⟨book.held - ownTaken ck.captures taken, book.views⟩

section Operations

variable {ck : Checker} {refs refs' : Refs} {book : Book LocalId}

/-- An operation that neither lends nor takes. -/
theorem Spends.nothing (agrees : Agrees ck refs book) : Spends ck book [] [] refs := by
  refine ⟨Multiset.zero_le _, by simp, ?_⟩
  have none : ownTaken ck.captures [] = 0 := rfl
  rw [none, Multiset.sub_zero]
  exact agrees

/-- Two parts of an operation. -/
theorem Spends.append {lent lent' taken taken' : List LocalId}
    (first : Spends ck book lent taken refs)
    (second : Spends ck ⟨book.held - ownTaken ck.captures taken, book.views⟩ lent' taken' refs') :
    Spends ck book (lent ++ lent') (taken ++ taken') refs' := by
  have both : ownTaken ck.captures (taken ++ taken') =
      ownTaken ck.captures taken + ownTaken ck.captures taken' := by
    simp [ownTaken]
  refine ⟨?_, fun slot member => ?_, ?_⟩
  · rw [both]
    have later := second.enough
    have whole := add_le_add_right later (ownTaken ck.captures taken)
    rw [Multiset.add_comm (ownTaken ck.captures taken) (book.held - _),
      Multiset.sub_add_cancel first.enough] at whole
    exact whole
  · rcases List.mem_append.mp member with early | late
    · exact first.readable slot early
    · exact reads_mono (Multiset.sub_le_self _ _) _ _ (second.readable slot late)
  · rw [both, Multiset.sub_add_eq_sub_sub]
    exact second.agrees

/-- Reading a slot. -/
theorem spends_borrow {slot : LocalId} (agrees : Agrees ck refs book)
    (allowed : ck.borrow slot refs = .ok ()) : Spends ck book [slot] [] refs := by
  have nothing := Spends.nothing agrees
  refine ⟨nothing.enough, fun name member => ?_, nothing.agrees⟩
  rw [List.mem_singleton.mp member]
  exact agrees.reads_of_borrow allowed

/-- Taking a reference. -/
theorem spends_consume {slot : LocalId} (agrees : Agrees ck refs book)
    (allowed : ck.consume slot refs = .ok refs') : Spends ck book [] [slot] refs' := by
  rcases agrees.consume allowed with ⟨loaned, rfl⟩ | ⟨own, present, after⟩
  · have none : ownTaken ck.captures [slot] = 0 := by simp [ownTaken, loaned]
    refine ⟨by rw [none]; exact Multiset.zero_le _, by simp, ?_⟩
    rw [none, Multiset.sub_zero]
    exact agrees
  · have one : ownTaken ck.captures [slot] = {slot} := by simp [ownTaken, own]
    refine ⟨by rw [one]; exact Multiset.singleton_le.mpr present, by simp, ?_⟩
    rw [one, Multiset.sub_singleton]
    exact after

/-- Taking references in order. -/
theorem spends_consumeAll : ∀ (slots : List LocalId) (refs : Refs) (book : Book LocalId),
    Agrees ck refs book → ck.consumeAll slots refs = .ok refs' → Spends ck book [] slots refs'
  | [], refs, book, agrees, allowed => by
    cases allowed
    exact Spends.nothing agrees
  | slot :: rest, refs, book, agrees, allowed => by
    obtain ⟨middle, first, others⟩ := bind_ok.mp allowed
    have now := spends_consume agrees first
    have later := spends_consumeAll rest middle _ now.agrees others
    simpa using now.append later

/-- Reading slots in order. -/
theorem spends_borrowAll : ∀ slots : List LocalId, Agrees ck refs book →
    ck.borrowAll slots refs = .ok () → Spends ck book slots [] refs
  | [], agrees, _ => Spends.nothing agrees
  | slot :: rest, agrees, allowed => by
    obtain ⟨_, first, others⟩ := bind_ok.mp allowed
    have now := spends_borrow agrees first
    have later := spends_borrowAll rest agrees others
    refine ⟨now.enough, fun name member => ?_, now.agrees⟩
    rcases List.mem_cons.mp member with rfl | inRest
    · exact now.readable _ List.mem_cons_self
    · exact later.readable name inRest

/-- An operation the checker accounts for is allowed when its operands are separate. -/
theorem Spends.step {lent taken : List LocalId} (spends : Spends ck book lent taken refs')
    (separate : Separate ck.captures (.use lent taken) book) :
    ∃ next, Ledger.step ck.captures (.use lent taken) book = some next ∧ Agrees ck refs' next := by
  have countOwn : ∀ slot ∉ ck.captures,
      (ownTaken ck.captures taken).count slot = taken.count slot := by
    intro slot own
    rw [ownTaken, Multiset.coe_count, List.count_filter (by simpa using own)]
  have enough : (taken : Multiset LocalId) ≤ book.held := by
    rw [Multiset.le_iff_count]
    intro slot
    rw [Multiset.coe_count]
    by_cases loaned : slot ∈ ck.captures
    · exact separate.2 slot loaned
    · rw [← countOwn slot loaned]
      exact Multiset.count_le_of_le slot spends.enough
  refine ⟨⟨book.held - (taken : Multiset LocalId), book.views⟩, ?_, ?_⟩
  · have readable : ∀ slot ∈ lent,
        reads ck.captures (book.held - (taken : Multiset LocalId)) book.views slot = true :=
      fun slot member => separate.1 slot member (spends.readable slot member)
    simp only [Ledger.step]
    rw [if_pos ⟨enough, readable⟩]
  · refine spends.agrees.congr (fun _ => rfl) fun slot own => ?_
    rw [← spends.agrees.counts slot own, Multiset.count_sub, Multiset.count_sub, countOwn slot own,
      Multiset.coe_count]

end Operations

end Verify

end Fai
