import Mathlib.Algebra.Order.Group.Multiset
import Mathlib.Logic.Function.Basic

/-!
# Reference ledgers and counting heaps

A frame names values by slots and holds references through them. The ledger counts the references
held through each slot; slots on loan from the caller are readable throughout and are never the
frame's to release, and a view is readable while its owner is. One operation lends some operands
and takes the references of others: a lent operand must still be readable when the references it
takes are gone.

The counting heap is the level below: slots name cells, several slots may name one cell, and a cell
is freed when its last reference goes. Steps that a ledger allows never touch a freed cell in any
heap the ledger represents.
-/

namespace Ledger

/-- One step of a frame on the references its slots hold. -/
inductive Step (α : Type) where
  /-- A slot receives a fresh value and one reference of it. -/
  | bind (slot : α)
  /-- A slot receives a view into the value of its owner, with no reference. -/
  | view (slot owner : α)
  /-- Slots on loan take over values that are readable without a reference of the frame. -/
  | carry (moves : List (α × α))
  /-- Acquire one more reference of a slot. -/
  | dup (slot : α)
  /-- Release one reference of a slot. -/
  | drop (slot : α)
  /-- One operation: it reads the lent slots and takes a reference of each taken one. -/
  | use (lent taken : List α)

/-- The references a frame holds, counted by slot, and the views it has made. -/
@[ext]
structure Book (α : Type) where
  /-- The references held, one occurrence each. -/
  held : Multiset α
  /-- Views and their owners, newest first. -/
  views : List (α × α)

variable {α γ : Type} [DecidableEq α]

/-- Whether a slot can be read: by a reference, by the loan, or through the owner of the view. -/
def reads (loans : List α) (held : Multiset α) : List (α × α) → α → Bool
  | [], slot => decide (slot ∈ held) || decide (slot ∈ loans)
  | (seen, owner) :: older, slot =>
    if slot = seen then decide (slot ∈ held) || reads loans held older owner
    else reads loans held older slot

/-- The views that survive a slot's new value. -/
def forget (slot : α) (views : List (α × α)) : List (α × α) :=
  views.filter fun view => view.1 ≠ slot ∧ view.2 ≠ slot

/-- One step, when it neither loses nor invents a reference and reads only what is readable. -/
def step (loans : List α) : Step α → Book α → Option (Book α)
  | .bind slot, book =>
    if slot ∈ book.held ∨ slot ∈ loans then none
    else some ⟨slot ::ₘ book.held, forget slot book.views⟩
  | .view slot owner, book =>
    if slot ∈ book.held ∨ slot ∈ loans ∨ slot = owner then none
    else some ⟨book.held, (slot, owner) :: forget slot book.views⟩
  | .carry moves, book =>
    if (∀ move ∈ moves, move.1 ∈ loans ∧ reads loans 0 book.views move.2) ∧
        ∀ move ∈ moves, move.1 ∉ book.held then
      some ⟨book.held, moves.foldr (fun move views => forget move.1 views) book.views⟩
    else none
  | .dup slot, book =>
    if reads loans book.held book.views slot then some ⟨slot ::ₘ book.held, book.views⟩ else none
  | .drop slot, book =>
    if slot ∈ book.held then some ⟨book.held.erase slot, book.views⟩ else none
  | .use lent taken, book =>
    if (taken : Multiset α) ≤ book.held ∧
        ∀ slot ∈ lent, reads loans (book.held - (taken : Multiset α)) book.views slot then
      some ⟨book.held - (taken : Multiset α), book.views⟩
    else none

/-- The steps of a run, in order. -/
def run (loans : List α) : List (Step α) → Book α → Option (Book α)
  | [], book => some book
  | head :: rest, book => (step loans head book).bind (run loans rest)

/-- A run of no step. -/
@[simp]
theorem run_nil (loans : List α) (book : Book α) : run loans [] book = some book := rfl

/-- A run of one step. -/
@[simp]
theorem run_singleton (loans : List α) (head : Step α) (book : Book α) :
    run loans [head] book = step loans head book := by
  cases first : step loans head book <;> simp [run, first]

/-- The first step of a run. -/
theorem run_cons (loans : List α) (head : Step α) (rest : List (Step α)) (book : Book α) :
    run loans (head :: rest) book = (step loans head book).bind (run loans rest) := rfl

/-- A run in two parts. -/
theorem run_append (loans : List α) (first second : List (Step α)) (book : Book α) :
    run loans (first ++ second) book = (run loans first book).bind (run loans second) := by
  induction first generalizing book with
  | nil => rfl
  | cons head rest inductionHypothesis =>
    cases next : step loans head book with
    | none => simp [run, next]
    | some middle => simp [run, next, inductionHypothesis]

/-- More references make more slots readable. -/
theorem reads_mono {loans : List α} {few many : Multiset α} (fewer : few ≤ many) :
    ∀ (views : List (α × α)) (slot : α), reads loans few views slot = true →
      reads loans many views slot = true
  | [], slot, readable => by
    simp only [reads, Bool.or_eq_true, decide_eq_true_eq] at readable ⊢
    exact readable.imp_left (Multiset.mem_of_le fewer)
  | (seen, owner) :: older, slot, readable => by
    unfold reads at readable ⊢
    by_cases same : slot = seen
    · rw [if_pos same, Bool.or_eq_true, decide_eq_true_eq] at readable ⊢
      exact readable.imp (Multiset.mem_of_le fewer) (reads_mono fewer older owner)
    · rw [if_neg same] at readable ⊢
      exact reads_mono fewer older slot readable

/-- Views of slots that are out of use do not matter. -/
theorem reads_filter {loans : List α} {held : Multiset α} (inUse : α → Bool) :
    ∀ (views : List (α × α)) (slot : α), inUse slot = true →
      (∀ view ∈ views.filter fun view => inUse view.1, inUse view.2 = true) →
        reads loans held (views.filter fun view => inUse view.1) slot =
          reads loans held views slot
  | [], _, _, _ => rfl
  | (seen, owner) :: older, slot, used, owners => by
    by_cases seenUsed : inUse seen = true
    · have kept : ((seen, owner) :: older).filter (fun view => inUse view.1) =
          (seen, owner) :: older.filter (fun view => inUse view.1) :=
        List.filter_cons_of_pos seenUsed
      rw [kept] at owners ⊢
      have olderOwners := fun view member => owners view (List.mem_cons_of_mem _ member)
      unfold reads
      rw [reads_filter inUse older owner (owners _ List.mem_cons_self) olderOwners,
        reads_filter inUse older slot used olderOwners]
    · have skipped : ((seen, owner) :: older).filter (fun view => inUse view.1) =
          older.filter (fun view => inUse view.1) := List.filter_cons_of_neg seenUsed
      rw [skipped] at owners ⊢
      have different : slot ≠ seen := fun same => seenUsed (same ▸ used)
      rw [reads_filter inUse older slot used owners, reads, if_neg different]

/-- With only references of slots on loan, and no view of one, a slot is readable without any. -/
theorem reads_of_loans {loans : List α} {held : Multiset α} (onLoan : ∀ slot ∈ held, slot ∈ loans) :
    ∀ (views : List (α × α)) (slot : α), (∀ view ∈ views, view.1 ∉ loans) →
      reads loans held views slot = true → reads loans 0 views slot = true
  | [], slot, _, readable => by
    simp only [reads, Bool.or_eq_true, decide_eq_true_eq] at readable ⊢
    exact .inr (readable.elim (onLoan slot) id)
  | (seen, owner) :: older, slot, own, readable => by
    have olderOwn := fun view member => own view (List.mem_cons_of_mem _ member)
    unfold reads at readable ⊢
    by_cases same : slot = seen
    · rw [if_pos same, Bool.or_eq_true, decide_eq_true_eq] at readable ⊢
      rcases readable with present | throughOwner
      · exact absurd (onLoan slot present) (same ▸ own _ List.mem_cons_self)
      · exact .inr (reads_of_loans onLoan older owner olderOwn throughOwner)
    · rw [if_neg same] at readable ⊢
      exact reads_of_loans onLoan older slot olderOwn readable

/-- A slot with a reference is readable. -/
theorem reads_of_held {loans : List α} {held : Multiset α} {slot : α} (present : slot ∈ held) :
    ∀ views : List (α × α), reads loans held views slot = true
  | [] => by simp [reads, present]
  | (seen, owner) :: older => by
    unfold reads
    split
    · simp [present]
    · exact reads_of_held present older

/-- A slot on loan that no view has is readable. -/
theorem reads_of_loan {loans : List α} {held : Multiset α} {slot : α} (loaned : slot ∈ loans) :
    ∀ views : List (α × α), (∀ view ∈ views, view.1 ∉ loans) →
      reads loans held views slot = true
  | [], _ => by simp [reads, loaned]
  | (seen, owner) :: older, own => by
    have different : slot ≠ seen := fun same => own _ List.mem_cons_self (same ▸ loaned)
    rw [reads, if_neg different]
    exact reads_of_loan loaned older fun view member => own view (List.mem_cons_of_mem _ member)

/-- A book without views. -/
def plain (held : Multiset α) : Book α := ⟨held, []⟩

section Plain

variable {loans : List α} {held : Multiset α} {slot : α}

/-- Without views a slot is readable by a reference or by the loan. -/
@[simp]
theorem reads_nil : reads loans held [] slot = true ↔ slot ∈ held ∨ slot ∈ loans := by
  simp [reads]

/-- Binding a slot that holds nothing. -/
theorem step_bind (absent : slot ∉ held) (own : slot ∉ loans) :
    step loans (.bind slot) (plain held) = some (plain (slot ::ₘ held)) := by
  simp [step, plain, absent, own, forget]

/-- Acquiring a reference of a readable slot. -/
theorem step_dup (readable : slot ∈ held ∨ slot ∈ loans) :
    step loans (.dup slot) (plain held) = some (plain (slot ::ₘ held)) := by
  simp [step, plain, readable]

/-- Releasing a held reference. -/
theorem step_drop (present : slot ∈ held) :
    step loans (.drop slot) (plain held) = some (plain (held.erase slot)) := by
  simp [step, plain, present]

/-- An operation without views takes references that are held and leaves its loans readable. -/
theorem step_use {lent taken : List α} :
    step loans (.use lent taken) (plain held) =
      if (taken : Multiset α) ≤ held ∧
          ∀ slot ∈ lent, slot ∈ held - (taken : Multiset α) ∨ slot ∈ loans then
        some (plain (held - (taken : Multiset α)))
      else none := by
  simp [step, plain]

end Plain

/-- The heap as a frame sees it: the cell each slot names and the references to every cell. -/
structure Heap (α γ : Type) where
  /-- The cell a slot names. -/
  cell : α → γ
  /-- The references to cells, one occurrence each: a cell without one is freed. -/
  refs : Multiset γ

/-- A cell is live while a reference to it remains or the cell it is a part of is live. -/
inductive Live (inside : γ → Option γ) (refs : Multiset γ) : γ → Prop
  /-- A reference to the cell remains. -/
  | counted {cell : γ} (present : cell ∈ refs) : Live inside refs cell
  /-- The cell is part of a live cell. -/
  | within {cell whole : γ} (part : inside cell = some whole) (live : Live inside refs whole) :
    Live inside refs cell

/-- More references keep more cells live. -/
theorem Live.mono {inside : γ → Option γ} {few many : Multiset γ} (fewer : few ≤ many) {cell : γ}
    (live : Live inside few cell) : Live inside many cell := by
  induction live with
  | counted present => exact .counted (Multiset.mem_of_le fewer present)
  | within part _ inductionHypothesis => exact .within part inductionHypothesis

namespace Heap

variable [DecidableEq γ]

/-- What a step touches is live: a release finds a reference to release, and what is read or lent
is live for the whole operation. -/
def Sound (inside : γ → Option γ) (heap : Heap α γ) : Step α → Prop
  | .bind _ | .view _ _ => True
  | .carry moves => ∀ move ∈ moves, Live inside heap.refs (heap.cell move.2)
  | .dup slot => Live inside heap.refs (heap.cell slot)
  | .drop slot => heap.cell slot ∈ heap.refs
  | .use lent taken =>
    ((taken.map heap.cell : List γ) : Multiset γ) ≤ heap.refs ∧
      ∀ slot ∈ lent,
        Live inside (heap.refs - ((taken.map heap.cell : List γ) : Multiset γ)) (heap.cell slot)

/-- One step of the heap; a bound slot may receive any cell, fresh or shared. -/
inductive Next (inside : γ → Option γ) (heap : Heap α γ) : Step α → Heap α γ → Prop
  /-- A slot names a cell and holds a reference to it. -/
  | bind (slot : α) (cell : γ) :
    Next inside heap (.bind slot)
      ⟨Function.update heap.cell slot cell, cell ::ₘ heap.refs⟩
  /-- A slot names a part of the owner's cell. -/
  | view (slot owner : α) (cell : γ) (part : inside cell = some (heap.cell owner)) :
    Next inside heap (.view slot owner) ⟨Function.update heap.cell slot cell, heap.refs⟩
  /-- Slots take over cells, all at once. -/
  | carry (moves : List (α × α)) :
    Next inside heap (.carry moves)
      ⟨moves.foldr (fun move cells => Function.update cells move.1 (heap.cell move.2)) heap.cell,
        heap.refs⟩
  /-- One reference more. -/
  | dup (slot : α) : Next inside heap (.dup slot) ⟨heap.cell, heap.cell slot ::ₘ heap.refs⟩
  /-- One reference less. -/
  | drop (slot : α) : Next inside heap (.drop slot) ⟨heap.cell, heap.refs.erase (heap.cell slot)⟩
  /-- The references an operation takes are gone. -/
  | use (lent taken : List α) :
    Next inside heap (.use lent taken)
      ⟨heap.cell, heap.refs - ((taken.map heap.cell : List γ) : Multiset γ)⟩

/-- Every step of every execution is sound. -/
def Safe (inside : γ → Option γ) : List (Step α) → Heap α γ → Prop
  | [], _ => True
  | head :: rest, heap =>
    heap.Sound inside head ∧ ∀ next, heap.Next inside head next → Safe inside rest next

/-- The heap a run of steps can end in. -/
inductive Execution (inside : γ → Option γ) : Heap α γ → List (Step α) → Heap α γ → Prop
  /-- No step. -/
  | refl (heap : Heap α γ) : Execution inside heap [] heap
  /-- One step and the rest. -/
  | cons {head : Step α} {rest : List (Step α)} {heap middle last : Heap α γ}
    (first : heap.Next inside head middle) (others : Execution inside middle rest last) :
    Execution inside heap (head :: rest) last

end Heap

/-- Writing a slot that holds no reference changes no counted reference. -/
theorem map_update {held : Multiset α} {cells : α → γ} {slot : α} {cell : γ}
    (absent : slot ∉ held) : held.map (Function.update cells slot cell) = held.map cells := by
  apply Multiset.map_congr rfl
  intro name member
  apply Function.update_of_ne
  intro same
  rw [same] at member
  exact absent member

/-- A surviving view mentions the forgotten slot neither as view nor as owner. -/
theorem mem_forget {slot : α} {views : List (α × α)} {view : α × α} :
    view ∈ forget slot views ↔ view ∈ views ∧ view.1 ≠ slot ∧ view.2 ≠ slot := by
  simp [forget]

/-- Views that survive a list of moves mention none of the moved slots. -/
theorem mem_forget_moves {moves : List (α × α)} {views : List (α × α)} {view : α × α} :
    view ∈ moves.foldr (fun move views => forget move.1 views) views ↔
      view ∈ views ∧ ∀ move ∈ moves, view.1 ≠ move.1 ∧ view.2 ≠ move.1 := by
  induction moves with
  | nil => simp
  | cons move rest inductionHypothesis =>
    simp only [List.foldr_cons, mem_forget, inductionHypothesis, List.forall_mem_cons]
    tauto

/-- A slot that no move writes keeps its cell. -/
theorem moves_of_not_mem {moves : List (α × α)} {source cells : α → γ} {slot : α}
    (untouched : ∀ move ∈ moves, slot ≠ move.1) :
    moves.foldr (fun move cells => Function.update cells move.1 (source move.2)) cells slot =
      cells slot := by
  induction moves with
  | nil => rfl
  | cons move rest inductionHypothesis =>
    rw [List.foldr_cons, Function.update_of_ne (untouched move List.mem_cons_self)]
    exact inductionHypothesis fun other member => untouched other (List.mem_cons_of_mem _ member)

/-- A moved slot names the cell of one of its sources. -/
theorem moves_cases (moves : List (α × α)) (source cells : α → γ) (slot : α) :
    moves.foldr (fun move cells => Function.update cells move.1 (source move.2)) cells slot =
        cells slot ∨
      ∃ move ∈ moves,
        moves.foldr (fun move cells => Function.update cells move.1 (source move.2)) cells slot =
          source move.2 := by
  induction moves with
  | nil => exact .inl rfl
  | cons move rest inductionHypothesis =>
    rw [List.foldr_cons]
    by_cases same : slot = move.1
    · refine .inr ⟨move, List.mem_cons_self, ?_⟩
      rw [same, Function.update_self]
    · rw [Function.update_of_ne same]
      rcases inductionHypothesis with kept | ⟨other, member, written⟩
      · exact .inl kept
      · exact .inr ⟨other, List.mem_cons_of_mem _ member, written⟩

/-- The heap has the references the book counts and those of the caller, whose loans are live
without a reference of the frame, and a view names a part of its owner. -/
structure Represents [DecidableEq γ] (inside : γ → Option γ) (loans : List α) (caller : Multiset γ)
    (book : Book α) (heap : Heap α γ) : Prop where
  /-- Every reference the book counts is one of the heap, beside the caller's. -/
  counted : book.held.map heap.cell + caller ≤ heap.refs
  /-- The caller keeps the loans live. -/
  loaned : ∀ slot ∈ loans, Live inside caller (heap.cell slot)
  /-- Views are parts. -/
  parts : ∀ view ∈ book.views, inside (heap.cell view.1) = some (heap.cell view.2)

namespace Represents

variable [DecidableEq γ] {inside : γ → Option γ} {loans : List α} {caller : Multiset γ}
  {book : Book α} {heap : Heap α γ}

/-- Taking counted references leaves the others, and the caller's. -/
theorem counted_sub (represents : Represents inside loans caller book heap) {taken : List α}
    (present : (taken : Multiset α) ≤ book.held) :
    (book.held - (taken : Multiset α)).map heap.cell + caller ≤
      heap.refs - ((taken.map heap.cell : List γ) : Multiset γ) := by
  apply le_tsub_of_add_le_right
  have whole : book.held = book.held - (taken : Multiset α) + (taken : Multiset α) :=
    (Multiset.sub_add_cancel present).symm
  calc
    (book.held - (taken : Multiset α)).map heap.cell + caller
        + ((taken.map heap.cell : List γ) : Multiset γ)
      = (book.held - (taken : Multiset α) + (taken : Multiset α)).map heap.cell + caller := by
        rw [Multiset.map_add, Multiset.map_coe, add_right_comm]
    _ = book.held.map heap.cell + caller := by rw [← whole]
    _ ≤ heap.refs := represents.counted

/-- A readable slot names a live cell, already by the references of the slots that make it
readable. -/
theorem live_of_reads (represents : Represents inside loans caller book heap) {held : Multiset α}
    {refs : Multiset γ} (enough : held.map heap.cell + caller ≤ refs) {views : List (α × α)}
    (known : ∀ view ∈ views, view ∈ book.views) {slot : α}
    (readable : reads loans held views slot = true) : Live inside refs (heap.cell slot) := by
  have byHeld : ∀ name, name ∈ held → Live inside refs (heap.cell name) := fun name present =>
    .counted (Multiset.mem_of_le (le_trans (Multiset.le_add_right _ _) enough)
      (Multiset.mem_map_of_mem _ present))
  induction views generalizing slot with
  | nil =>
    rcases reads_nil.mp readable with present | loaned
    · exact byHeld slot present
    · exact (represents.loaned slot loaned).mono (le_trans (Multiset.le_add_left _ _) enough)
  | cons view older inductionHypothesis =>
    have olderKnown : ∀ entry ∈ older, entry ∈ book.views := fun entry member =>
      known entry (List.mem_cons_of_mem _ member)
    unfold reads at readable
    by_cases same : slot = view.1
    · rw [if_pos same, Bool.or_eq_true, decide_eq_true_eq] at readable
      rcases readable with present | owner
      · exact byHeld slot present
      · have part := represents.parts view (known view List.mem_cons_self)
        rw [← same] at part
        exact .within part (inductionHypothesis olderKnown owner)
    · rw [if_neg same] at readable
      exact inductionHypothesis olderKnown readable

/-- Every step the book allows is sound in the heap. -/
theorem sound (represents : Represents inside loans caller book heap) {action : Step α}
    {next : Book α} (allowed : step loans action book = some next) :
    heap.Sound inside action := by
  cases action with
  | bind slot => trivial
  | view slot owner => trivial
  | carry moves =>
    simp only [step, Option.ite_none_right_eq_some] at allowed
    intro move member
    have readable := (allowed.1.1 move member).2
    refine represents.live_of_reads ?_ (fun _ known => known) readable
    rw [Multiset.map_zero, zero_add]
    exact le_trans (Multiset.le_add_left _ _) represents.counted
  | dup slot =>
    simp only [step, Option.ite_none_right_eq_some] at allowed
    exact represents.live_of_reads represents.counted (fun _ known => known) allowed.1
  | drop slot =>
    simp only [step, Option.ite_none_right_eq_some] at allowed
    exact Multiset.mem_of_le (le_trans (Multiset.le_add_right _ _) represents.counted)
      (Multiset.mem_map_of_mem _ allowed.1)
  | use lent taken =>
    simp only [step, Option.ite_none_right_eq_some] at allowed
    obtain ⟨⟨present, readable⟩, _⟩ := allowed
    have takenRefs : ((taken.map heap.cell : List γ) : Multiset γ) ≤ book.held.map heap.cell := by
      rw [← Multiset.map_coe]
      exact Multiset.map_le_map present
    refine ⟨le_trans takenRefs (le_trans (Multiset.le_add_right _ _) represents.counted), ?_⟩
    intro slot member
    exact represents.live_of_reads (represents.counted_sub present) (fun _ known => known)
      (readable slot member)

/-- Every step the book allows leads to a heap the next book represents. -/
theorem next (represents : Represents inside loans caller book heap) {action : Step α}
    {after : Book α} {result : Heap α γ} (allowed : step loans action book = some after)
    (reached : heap.Next inside action result) :
    Represents inside loans caller after result := by
  cases reached with
  | bind slot cell =>
    simp only [step, Option.ite_none_left_eq_some, Option.some.injEq, not_or] at allowed
    obtain ⟨⟨absent, own⟩, rfl⟩ := allowed
    constructor
    · dsimp only
      rw [Multiset.map_cons, Function.update_self, map_update absent, Multiset.cons_add]
      exact Multiset.cons_le_cons _ represents.counted
    · intro name member
      have other : name ≠ slot := fun same => own (same ▸ member)
      dsimp only
      rw [Function.update_of_ne other]
      exact represents.loaned name member
    · intro view member
      obtain ⟨known, notView, notOwner⟩ := mem_forget.mp member
      dsimp only
      rw [Function.update_of_ne notView, Function.update_of_ne notOwner]
      exact represents.parts view known
  | view slot owner cell part =>
    simp only [step, Option.ite_none_left_eq_some, Option.some.injEq, not_or] at allowed
    obtain ⟨⟨absent, own, apart⟩, rfl⟩ := allowed
    constructor
    · dsimp only
      rw [map_update absent]
      exact represents.counted
    · intro name member
      have other : name ≠ slot := fun same => own (same ▸ member)
      dsimp only
      rw [Function.update_of_ne other]
      exact represents.loaned name member
    · intro view member
      rcases List.mem_cons.mp member with rfl | older
      · dsimp only
        rw [Function.update_self, Function.update_of_ne (Ne.symm apart)]
        exact part
      · obtain ⟨known, notView, notOwner⟩ := mem_forget.mp older
        dsimp only
        rw [Function.update_of_ne notView, Function.update_of_ne notOwner]
        exact represents.parts view known
  | carry moves =>
    simp only [step, Option.ite_none_right_eq_some, Option.some.injEq] at allowed
    obtain ⟨⟨readable, absent⟩, rfl⟩ := allowed
    constructor
    · have same : book.held.map
          (moves.foldr (fun move cells => Function.update cells move.1 (heap.cell move.2))
            heap.cell) = book.held.map heap.cell := by
        apply Multiset.map_congr rfl
        intro name member
        apply moves_of_not_mem
        intro move moved same
        exact absent move moved (same ▸ member)
      dsimp only
      rw [same]
      exact represents.counted
    · intro name member
      dsimp only
      rcases moves_cases moves heap.cell heap.cell name with kept | ⟨move, moved, written⟩
      · rw [kept]
        exact represents.loaned name member
      · rw [written]
        refine represents.live_of_reads ?_ (fun _ known => known) (readable move moved).2
        rw [Multiset.map_zero, Multiset.zero_add]
    · intro view member
      obtain ⟨known, untouched⟩ := mem_forget_moves.mp member
      dsimp only
      rw [moves_of_not_mem fun move moved => (untouched move moved).1,
        moves_of_not_mem fun move moved => (untouched move moved).2]
      exact represents.parts view known
  | dup slot =>
    simp only [step, Option.ite_none_right_eq_some, Option.some.injEq] at allowed
    obtain ⟨_, rfl⟩ := allowed
    refine ⟨?_, represents.loaned, represents.parts⟩
    dsimp only
    rw [Multiset.map_cons, Multiset.cons_add]
    exact Multiset.cons_le_cons _ represents.counted
  | drop slot =>
    simp only [step, Option.ite_none_right_eq_some, Option.some.injEq] at allowed
    obtain ⟨present, rfl⟩ := allowed
    refine ⟨?_, represents.loaned, represents.parts⟩
    have singleton : (([slot] : List α) : Multiset α) ≤ book.held := by
      rwa [Multiset.coe_singleton, Multiset.singleton_le]
    have others := represents.counted_sub singleton
    rwa [List.map_singleton, Multiset.coe_singleton, Multiset.coe_singleton,
      Multiset.sub_singleton, Multiset.sub_singleton] at others
  | use lent taken =>
    simp only [step, Option.ite_none_right_eq_some, Option.some.injEq] at allowed
    obtain ⟨⟨present, _⟩, rfl⟩ := allowed
    exact ⟨represents.counted_sub present, represents.loaned, represents.parts⟩

/-- A run the book allows is safe in every execution of the heap. -/
theorem safe {actions : List (Step α)} (represents : Represents inside loans caller book heap)
    {after : Book α} (allowed : run loans actions book = some after) :
    heap.Safe inside actions := by
  induction actions generalizing book heap with
  | nil => trivial
  | cons head rest inductionHypothesis =>
    obtain ⟨middle, first, others⟩ := Option.bind_eq_some_iff.mp allowed
    refine ⟨represents.sound first, fun result reached => ?_⟩
    exact inductionHypothesis (represents.next first reached) others

/-- A run the book allows ends in heaps the last book represents. -/
theorem execution {actions : List (Step α)} (represents : Represents inside loans caller book heap)
    {after : Book α} (allowed : run loans actions book = some after) {last : Heap α γ}
    (reached : Heap.Execution inside heap actions last) :
    Represents inside loans caller after last := by
  induction reached generalizing book with
  | refl heap =>
    cases allowed
    exact represents
  | cons first others inductionHypothesis =>
    obtain ⟨middle, allowedFirst, allowedRest⟩ := Option.bind_eq_some_iff.mp allowed
    exact inductionHypothesis (represents.next allowedFirst first) allowedRest

end Represents

end Ledger
