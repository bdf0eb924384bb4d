import FaiVerif.Core.Eval

/-!
# Left-reassociation of concatenation

`reassociate_concat` of `fai-core`'s `reassoc.rs`: the leaves of a maximal tree of string
concatenations are collected from left to right and folded again from the left. Every expression
runs as before, since concatenation is pure and associative and operands are evaluated in the same
order; the result has no concatenation to the right of another, and a second pass changes nothing.
-/

namespace Fai

namespace CExpr

/-- Whether an expression is a string concatenation. -/
def isConcat : CExpr → Bool
  | prim .strConcat _ _ => true
  | _ => false

end CExpr

namespace Reassoc

/-- Folds leaves from the left; a tree of concatenations has at least one leaf. -/
def rebuild (ty : Ty) : List CExpr → CExpr
  | [] => .error ty
  | first :: rest => rest.foldl (fun acc leaf => .prim .strConcat [acc, leaf] ty) first

mutual

/-- `reassoc`: the tree of concatenations headed by an expression folded from the left, and any
other expression with its children reassociated. -/
def reassoc : CExpr → CExpr
  | .prim op args ty =>
    if op = .strConcat then rebuild ty (flattenArgs args) else .prim op (reassocArgs args) ty
  | .lit value ty => .lit value ty
  | .loc slot ty => .loc slot ty
  | .global target ty => .global target ty
  | .makeClosure func captures alloc ty => .makeClosure func captures alloc ty
  | .error ty => .error ty
  | .foreign symbol args marshalled ty => .foreign symbol (reassocArgs args) marshalled ty
  | .app func args reuse alloc ty => .app (reassoc func) (reassocArgs args) reuse alloc ty
  | .ite cond yes no ty => .ite (reassoc cond) (reassoc yes) (reassoc no) ty
  | .letIn slot value body ty => .letIn slot (reassoc value) (reassoc body) ty
  | .spread components ty => .spread (reassocArgs components) ty
  | .letMany slots value body ty => .letMany slots (reassoc value) (reassoc body) ty
  | .makeData tag args reuse scalars niche ty =>
    .makeData tag (reassocArgs args) reuse scalars niche ty
  | .dataTag base niche ty => .dataTag (reassoc base) niche ty
  | .dataField base index scalar niche ty => .dataField (reassoc base) index scalar niche ty
  | .reset value token body ty => .reset (reassoc value) token (reassoc body) ty
  | .freeReuse token body ty => .freeReuse token (reassoc body) ty
  | .dup slot body ty => .dup slot (reassoc body) ty
  | .drop slot body ty => .drop slot (reassoc body) ty
  | .join params body ty => .join params (reassoc body) ty
  | .recur args ty => .recur (reassocArgs args) ty
  | .holeStart hole body ty => .holeStart hole (reassoc body) ty
  | .holeFill hole cell field ty => .holeFill hole (reassoc cell) field ty
  | .holeClose hole base ty => .holeClose hole (reassoc base) ty
termination_by e => (sizeOf e, 0)

/-- `flatten_concat`: the leaves of the tree of concatenations headed by an expression. -/
def flattenConcat : CExpr → List CExpr
  | .prim op args ty =>
    if op = .strConcat then flattenArgs args else [reassoc (.prim op args ty)]
  | e => [reassoc e]
termination_by e => (sizeOf e, 1)

/-- The leaves of operands. -/
def flattenArgs : List CExpr → List CExpr
  | [] => []
  | e :: rest => flattenConcat e ++ flattenArgs rest
termination_by es => (sizeOf es, 0)

/-- Operands reassociated. -/
def reassocArgs : List CExpr → List CExpr
  | [] => []
  | e :: rest => reassoc e :: reassocArgs rest
termination_by es => (sizeOf es, 0)

end

/-- Operands are reassociated one by one. -/
theorem reassocArgs_eq_map (es : List CExpr) : reassocArgs es = es.map reassoc := by
  induction es with
  | nil => rw [reassocArgs, List.map_nil]
  | cons e es hypothesis => rw [reassocArgs, List.map_cons, hypothesis]

/-- The leaves of operands are those of each in turn. -/
theorem flattenArgs_eq_flatMap (es : List CExpr) : flattenArgs es = es.flatMap flattenConcat := by
  induction es with
  | nil => rw [flattenArgs, List.flatMap_nil]
  | cons e es hypothesis => rw [flattenArgs, List.flatMap_cons, hypothesis]

/-- A tree of concatenations is folded again from its leaves. -/
theorem reassoc_concat (args : List CExpr) (ty : Ty) :
    reassoc (.prim .strConcat args ty) = rebuild ty (args.flatMap flattenConcat) := by
  rw [reassoc, if_pos rfl, flattenArgs_eq_flatMap]

/-- The leaves of a tree of concatenations are those of its operands. -/
theorem flattenConcat_concat (args : List CExpr) (ty : Ty) :
    flattenConcat (.prim .strConcat args ty) = args.flatMap flattenConcat := by
  rw [flattenConcat, if_pos rfl, flattenArgs_eq_flatMap]

/-- Any other expression keeps its shape around its reassociated children. -/
theorem reassoc_leaf {e : CExpr} (leaf : e.isConcat = false) :
    reassoc e = e.mapChildren reassoc := by
  cases e with
  | prim op args ty =>
    have other : op ≠ .strConcat := by
      rintro rfl
      simp [CExpr.isConcat] at leaf
    rw [reassoc, if_neg other, reassocArgs_eq_map, CExpr.mapChildren]
  | _ => simp only [reassoc, CExpr.mapChildren, reassocArgs_eq_map]

/-- An expression that is no concatenation is its only leaf. -/
theorem flattenConcat_leaf {e : CExpr} (leaf : e.isConcat = false) :
    flattenConcat e = [reassoc e] := by
  cases e with
  | prim op args ty =>
    have other : op ≠ .strConcat := by
      rintro rfl
      simp [CExpr.isConcat] at leaf
    rw [flattenConcat, if_neg other]
  | _ => simp [flattenConcat]

/-- A concatenation has two operands: primitive applications are saturated. -/
def Binary (e : CExpr) : Prop :=
  ∀ args ty, e = .prim .strConcat args ty → args.length = 2

/-- Every concatenation of an expression has two operands. -/
abbrev Saturated (e : CExpr) : Prop := e.Throughout Binary

/-- A saturated concatenation has a left and a right operand. -/
theorem Saturated.operands {args : List CExpr} {ty : Ty}
    (saturated : Saturated (.prim .strConcat args ty)) : ∃ left right, args = [left, right] :=
  List.length_eq_two.mp (saturated.here args ty rfl)

/-- A concatenation has two operands, and no concatenation on the right. -/
def LeftNested (e : CExpr) : Prop :=
  ∀ args ty, e = .prim .strConcat args ty →
    ∃ left right, args = [left, right] ∧ right.isConcat = false

/-- Every expression has a leaf. -/
theorem flattenConcat_ne_nil {e : CExpr} (saturated : Saturated e) : flattenConcat e ≠ [] := by
  induction e using CExpr.childInduction with
  | node e hypothesis =>
    by_cases concat : e.isConcat = true
    · cases e with
      | prim op args ty =>
        cases op with
        | strConcat =>
          obtain ⟨left, right, rfl⟩ := saturated.operands
          rw [flattenConcat_concat, List.flatMap_cons]
          have first := hypothesis left List.mem_cons_self
            (saturated.child left List.mem_cons_self)
          exact fun empty => first (List.append_eq_nil_iff.mp empty).1
        | _ => cases concat
      | _ => cases concat
    · rw [flattenConcat_leaf (Bool.eq_false_iff.mpr concat)]
      exact List.cons_ne_nil _ _

/-- A tree of concatenations has two leaves at least. -/
theorem exists_two_leaves {args : List CExpr} {ty : Ty}
    (saturated : Saturated (.prim .strConcat args ty)) :
    ∃ first second rest, args.flatMap flattenConcat = first :: second :: rest := by
  obtain ⟨left, right, rfl⟩ := saturated.operands
  have left_leaf := flattenConcat_ne_nil (saturated.child left List.mem_cons_self)
  have right_leaf := flattenConcat_ne_nil
    (saturated.child right (List.mem_cons_of_mem _ List.mem_cons_self))
  obtain ⟨first, others, left_eq⟩ := List.exists_cons_of_ne_nil left_leaf
  obtain ⟨second, rest, right_eq⟩ := List.exists_cons_of_ne_nil right_leaf
  rw [List.flatMap_cons, List.flatMap_cons, List.flatMap_nil, List.append_nil, left_eq, right_eq]
  cases others with
  | nil => exact ⟨_, _, _, rfl⟩
  | cons other others => exact ⟨_, _, _, rfl⟩

section Shape

/-- Children that are replaced leave a concatenation one, and any other expression none. -/
theorem isConcat_mapChildren (f : CExpr → CExpr) (e : CExpr) :
    (e.mapChildren f).isConcat = e.isConcat := by
  cases e with
  | prim op args ty => cases op <;> rfl
  | _ => rfl

/-- Folding leaves from the left nests concatenations to the left. -/
theorem throughout_foldl (ty : Ty) (leaves : List CExpr)
    (plain : ∀ leaf ∈ leaves, leaf.isConcat = false ∧ leaf.Throughout LeftNested) :
    ∀ acc : CExpr, acc.Throughout LeftNested →
      (leaves.foldl (fun acc leaf => CExpr.prim .strConcat [acc, leaf] ty) acc).Throughout
        LeftNested := by
  induction leaves with
  | nil => exact fun acc nested => nested
  | cons leaf leaves hypothesis =>
    intro acc nested
    obtain ⟨here, later⟩ := List.forall_mem_cons.mp plain
    refine hypothesis later _ (.node ?_ ?_)
    · intro args other same
      injection same with _ operands
      exact ⟨acc, leaf, operands.symm, here.1⟩
    · intro child member
      simp only [CExpr.children, List.mem_cons, List.not_mem_nil, or_false] at member
      rcases member with rfl | rfl
      · exact nested
      · exact here.2

/-- The leaves of an expression are no concatenations, and concatenations in them and in the
reassociated expression are nested to the left. -/
theorem leftNested_reassoc (e : CExpr) (saturated : Saturated e) :
    (reassoc e).Throughout LeftNested ∧
      ∀ leaf ∈ flattenConcat e, leaf.isConcat = false ∧ leaf.Throughout LeftNested := by
  induction e using CExpr.childInduction with
  | node e hypothesis =>
    by_cases concat : e.isConcat = true
    · cases e with
      | prim op args ty =>
        cases op with
        | strConcat =>
          have leaves : ∀ leaf ∈ args.flatMap flattenConcat,
              leaf.isConcat = false ∧ leaf.Throughout LeftNested := by
            intro leaf member
            obtain ⟨child, inside, below⟩ := List.mem_flatMap.mp member
            exact (hypothesis child inside (saturated.child child inside)).2 leaf below
          rw [reassoc_concat, flattenConcat_concat]
          refine ⟨?_, leaves⟩
          cases all : args.flatMap flattenConcat with
          | nil => exact absurd all (flattenConcat_concat args ty ▸ flattenConcat_ne_nil saturated)
          | cons first rest =>
            rw [all] at leaves
            obtain ⟨here, later⟩ := List.forall_mem_cons.mp leaves
            exact throughout_foldl ty rest later first here.2
        | _ => cases concat
      | _ => cases concat
    · have leaf := Bool.eq_false_iff.mpr concat
      have nested : (reassoc e).Throughout LeftNested := by
        rw [reassoc_leaf leaf]
        refine .node ?_ ?_
        · intro args ty same
          have none_here := isConcat_mapChildren reassoc e
          rw [same, leaf] at none_here
          cases none_here
        · rw [CExpr.children_mapChildren]
          intro child member
          obtain ⟨source, inside, rfl⟩ := List.mem_map.mp member
          exact (hypothesis source inside (saturated.child source inside)).1
      refine ⟨nested, ?_⟩
      rw [flattenConcat_leaf leaf]
      intro other member
      rw [List.mem_singleton] at member
      subst member
      refine ⟨?_, nested⟩
      rw [reassoc_leaf leaf, isConcat_mapChildren, leaf]

end Shape

section Again

/-- Leaves folded from the left are found again. -/
theorem flattenConcat_foldl (ty : Ty) (leaves : List CExpr)
    (plain : ∀ leaf ∈ leaves, leaf.isConcat = false) :
    ∀ acc : CExpr,
      flattenConcat (leaves.foldl (fun acc leaf => CExpr.prim .strConcat [acc, leaf] ty) acc) =
        flattenConcat acc ++ leaves.map reassoc := by
  induction leaves with
  | nil => exact fun acc => (List.append_nil _).symm
  | cons leaf leaves hypothesis =>
    intro acc
    obtain ⟨here, later⟩ := List.forall_mem_cons.mp plain
    rw [List.foldl_cons, hypothesis later, flattenConcat_concat, List.flatMap_cons,
      List.flatMap_cons, List.flatMap_nil, List.append_nil, flattenConcat_leaf here,
      List.map_cons, List.append_assoc, List.singleton_append]

/-- A fold over a leaf more is a concatenation of the same type. -/
theorem foldl_concat_eq (ty : Ty) (leaves : List CExpr) :
    ∀ acc leaf : CExpr, ∃ args,
      (leaf :: leaves).foldl (fun acc leaf => CExpr.prim .strConcat [acc, leaf] ty) acc =
        .prim .strConcat args ty := by
  induction leaves with
  | nil => exact fun acc leaf => ⟨_, rfl⟩
  | cons next leaves hypothesis => exact fun acc leaf => hypothesis _ next

/-- Reassociating again changes neither an expression nor its leaves. -/
theorem reassoc_reassoc (e : CExpr) (saturated : Saturated e) :
    reassoc (reassoc e) = reassoc e ∧ ∀ leaf ∈ flattenConcat e, reassoc leaf = leaf := by
  induction e using CExpr.childInduction with
  | node e hypothesis =>
    by_cases concat : e.isConcat = true
    · cases e with
      | prim op args ty =>
        cases op with
        | strConcat =>
          have fixed : ∀ leaf ∈ args.flatMap flattenConcat, reassoc leaf = leaf := by
            intro leaf member
            obtain ⟨child, inside, below⟩ := List.mem_flatMap.mp member
            exact (hypothesis child inside (saturated.child child inside)).2 leaf below
          have plain : ∀ leaf ∈ args.flatMap flattenConcat, leaf.isConcat = false := by
            intro leaf member
            exact ((leftNested_reassoc _ saturated).2 leaf
              (flattenConcat_concat args ty ▸ member)).1
          rw [flattenConcat_concat]
          refine ⟨?_, fixed⟩
          obtain ⟨first, second, rest, leaves⟩ := exists_two_leaves saturated
          rw [leaves] at fixed plain
          rw [reassoc_concat, leaves]
          obtain ⟨first_fixed, others_fixed⟩ := List.forall_mem_cons.mp fixed
          obtain ⟨first_plain, others_plain⟩ := List.forall_mem_cons.mp plain
          have again := flattenConcat_foldl ty (second :: rest) others_plain first
          obtain ⟨args, whole⟩ := foldl_concat_eq ty rest first second
          rw [rebuild, whole, reassoc_concat]
          rw [whole, flattenConcat_concat, flattenConcat_leaf first_plain, first_fixed,
            List.map_congr_left others_fixed] at again
          rw [again, ← whole]
          simp [rebuild]
        | _ => cases concat
      | _ => cases concat
    · have leaf := Bool.eq_false_iff.mpr concat
      have fixed : reassoc (reassoc e) = reassoc e := by
        have still : (e.mapChildren reassoc).isConcat = false := by
          rw [isConcat_mapChildren, leaf]
        rw [reassoc_leaf leaf, reassoc_leaf still]
        refine CExpr.mapChildren_eq_self fun child member => ?_
        rw [CExpr.children_mapChildren] at member
        obtain ⟨source, inside, rfl⟩ := List.mem_map.mp member
        exact (hypothesis source inside (saturated.child source inside)).1
      refine ⟨fixed, ?_⟩
      rw [flattenConcat_leaf leaf]
      intro other member
      rw [List.mem_singleton] at member
      subst member
      exact fixed

end Again

section Meaning

open Fai.Eval Fai.Slots

/-- A value as far as concatenation can tell it: a string of scalars, or anything else. -/
inductive Datum (A : Type) where
  | str (scalars : List Char)
  | other (value : A)

/-- The scalars of a string; no other value is ever concatenated. -/
def Datum.text {A : Type} : Datum A → List Char
  | .str scalars => scalars
  | .other _ => []

variable {m : Type → Type} {A : Type} [Monad m]

/-- The machine whose string concatenation is pure and appends the scalars of its operands. -/
def concatenating (M : Machine m (Datum A)) : Machine m (Datum A) :=
  { M with
    prim := fun op values =>
      if op = .strConcat then pure (.str (values.flatMap Datum.text)) else M.prim op values }

variable [LawfulMonad m]

/-- The scalars that leaves give in order. -/
def texts (M : Machine m (Datum A)) (leaves : List CExpr) (back : List (Datum A) → m (Datum A))
    (env : Locals (Datum A)) : m (List Char) :=
  List.flatMap Datum.text <$> inOrder (leaves.map fun leaf => eval M leaf back env)

/-- A concatenation returns the string of its operands' scalars. -/
theorem eval_concat (M : Machine m (Datum A)) (args : List CExpr) (ty : Ty)
    (back : List (Datum A) → m (Datum A)) (env : Locals (Datum A)) :
    eval (concatenating M) (.prim .strConcat args ty) back env =
      Datum.str <$> texts (concatenating M) args back env := by
  have appends (values : List (Datum A)) : (concatenating M).prim .strConcat values =
      pure (.str (values.flatMap Datum.text)) := by
    simp only [concatenating, if_true]
  simp only [eval, evalList_eq_map, texts, appends, Functor.map_map]
  exact (map_eq_pure_bind _ _).symm

/-- The scalars of a front and of a back of leaves. -/
theorem texts_append (M : Machine m (Datum A)) (front others : List CExpr)
    (back : List (Datum A) → m (Datum A)) (env : Locals (Datum A)) :
    texts M (front ++ others) back env =
      texts M front back env >>= fun first =>
        texts M others back env >>= fun second => pure (first ++ second) := by
  simp only [texts, List.map_append, inOrder_append, map_bind, map_pure, List.flatMap_append,
    bind_map_left]

/-- The scalars of a single leaf. -/
theorem texts_singleton (M : Machine m (Datum A)) (leaf : CExpr)
    (back : List (Datum A) → m (Datum A)) (env : Locals (Datum A)) :
    texts M [leaf] back env = Datum.text <$> eval M leaf back env := by
  simp only [texts, List.map_cons, List.map_nil, inOrder, pure_bind, map_bind, map_pure,
    List.flatMap_cons, List.flatMap_nil, List.append_nil]
  exact (map_eq_pure_bind _ _).symm

/-- Leaves folded from the left give their scalars in order. -/
theorem text_foldl (M : Machine m (Datum A)) (ty : Ty) (back : List (Datum A) → m (Datum A))
    (env : Locals (Datum A)) (leaves : List CExpr) : ∀ acc : CExpr,
    Datum.text <$> eval (concatenating M)
        (leaves.foldl (fun acc leaf => CExpr.prim .strConcat [acc, leaf] ty) acc) back env =
      texts (concatenating M) (acc :: leaves) back env := by
  induction leaves with
  | nil => exact fun acc => (texts_singleton _ acc back env).symm
  | cons leaf leaves hypothesis =>
    intro acc
    have both : texts (concatenating M) [.prim .strConcat [acc, leaf] ty] back env =
        texts (concatenating M) [acc, leaf] back env := by
      rw [texts_singleton, eval_concat, Functor.map_map]
      exact id_map' _
    rw [List.foldl_cons, hypothesis, ← List.singleton_append, texts_append, both,
      ← texts_append]
    rfl

/-- An expression runs as before when its concatenations are reassociated, and gives the scalars
of its leaves. -/
theorem alike_reassoc (M : Machine m (Datum A)) (e : CExpr) (saturated : Saturated e) :
    Alike (concatenating M) (reassoc e) e ∧
      ∀ back env, texts (concatenating M) (flattenConcat e) back env =
        Datum.text <$> eval (concatenating M) e back env := by
  induction e using CExpr.childInduction with
  | node e hypothesis =>
    by_cases concat : e.isConcat = true
    · cases e with
      | prim op args ty =>
        cases op with
        | strConcat =>
          obtain ⟨left, right, rfl⟩ := saturated.operands
          have inside (child : CExpr) (member : child ∈ [left, right]) :=
            (hypothesis child member (saturated.child child member)).2
          have leaves (back : List (Datum A) → m (Datum A)) (env : Locals (Datum A)) :
              texts (concatenating M) (flattenConcat (.prim .strConcat [left, right] ty)) back
                env = texts (concatenating M) [left, right] back env := by
            rw [flattenConcat_concat, List.flatMap_cons, List.flatMap_cons, List.flatMap_nil,
              List.append_nil, texts_append, inside left List.mem_cons_self,
              inside right (List.mem_cons_of_mem _ List.mem_cons_self), ← texts_singleton,
              ← texts_singleton, ← texts_append]
            rfl
          constructor
          · intro back env
            obtain ⟨first, second, rest, all⟩ := exists_two_leaves saturated
            obtain ⟨args, whole⟩ := foldl_concat_eq ty rest first second
            have given := text_foldl M ty back env (second :: rest) first
            rw [← all, ← flattenConcat_concat, leaves, whole, eval_concat, Functor.map_map] at given
            rw [reassoc_concat, all, rebuild, whole, eval_concat, eval_concat, ← given]
            exact congrArg _ (id_map' _).symm
          · intro back env
            rw [leaves, eval_concat, Functor.map_map]
            exact (id_map' _).symm
        | _ => cases concat
      | _ => cases concat
    · have leaf := Bool.eq_false_iff.mpr concat
      have alike : Alike (concatenating M) (reassoc e) e := by
        rw [reassoc_leaf leaf]
        exact alike_mapChildren fun child member =>
          (hypothesis child member (saturated.child child member)).1
      refine ⟨alike, fun back env => ?_⟩
      rw [flattenConcat_leaf leaf, texts_singleton, alike back env]

end Meaning

open Fai.Eval in
/-- Reassociating the concatenations of an expression changes nothing a run can tell, nests every
chain to the left, and is done once. -/
theorem reassociation_exact (e : CExpr) (saturated : Saturated e) :
    (∀ (m : Type → Type) [Monad m] [LawfulMonad m] (A : Type) (M : Machine m (Datum A)),
      Alike (concatenating M) (reassoc e) e) ∧
    (reassoc e).Throughout LeftNested ∧ reassoc (reassoc e) = reassoc e :=
  ⟨fun _ _ _ _ M => (alike_reassoc M e saturated).1, (leftNested_reassoc e saturated).1,
    (reassoc_reassoc e saturated).1⟩

/-- `a ++ (b ++ c)` for three locals. -/
def rightChain : CExpr :=
  .prim .strConcat [.loc 0 (.con .string),
    .prim .strConcat [.loc 1 (.con .string), .loc 2 (.con .string)] (.con .string)] (.con .string)

/-- Every concatenation of `rightChain` has two operands. -/
theorem saturated_rightChain : Saturated rightChain := by
  have leaf (slot : LocalId) : Saturated (.loc slot (.con .string)) :=
    .node (fun args ty same => by cases same) fun child member => absurd member List.not_mem_nil
  have pair {left right : CExpr} (first : Saturated left) (second : Saturated right) :
      Saturated (.prim .strConcat [left, right] (.con .string)) := by
    refine .node (fun args ty same => ?_) fun child member => ?_
    · injection same with _ operands
      rw [← operands]
      rfl
    · simp only [CExpr.children, List.mem_cons, List.not_mem_nil, or_false] at member
      rcases member with rfl | rfl
      · exact first
      · exact second
  exact pair (leaf 0) (pair (leaf 1) (leaf 2))

/-- `a ++ (b ++ c)` becomes a chain to the left that stays as it is. -/
theorem reassociation_exact_abc : (reassoc rightChain).Throughout LeftNested ∧
    reassoc (reassoc rightChain) = reassoc rightChain :=
  (reassociation_exact rightChain saturated_rightChain).2

end Reassoc

end Fai
