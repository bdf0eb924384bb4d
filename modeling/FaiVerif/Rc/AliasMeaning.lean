import FaiVerif.Rc.AliasCopies
import FaiVerif.Rc.Anf

/-!
# What coalescing does to a run

A rewritten expression runs like the source where every visible local of the source is held under
the name the table gives it. Acquiring and releasing a reference are operations on values, so equal
runs acquire and release the same references.
-/

namespace Fai

namespace Aliases

open CExpr Eval Slots

variable {m : Type → Type} {V : Type} {decls : TypeDecls} {types : Types}

/-- The visible locals of the source are held under the names the table gives them. -/
def Follows (s : Aliases) (visible : Set LocalId) (env env' : Locals V) : Prop :=
  ∀ slot ∈ visible, env' (s.target slot) = env slot

/-- Locals are held under the names of a later table as well. -/
theorem Follows.later {s s' : Aliases} {visible bound : Set LocalId} {env env' : Locals V}
    (later : Later bound s s') (inside : visible ⊆ bound) (follows : Follows s visible env env') :
    Follows s' visible env env' := by
  intro slot member
  rw [later.target (inside member)]
  exact follows slot member

/-- Locals are held under their names once a local that is called by itself is bound. -/
theorem Follows.set {s : Aliases} {visible : Set LocalId} {env env' : Locals V}
    (follows : Follows s visible env env') (tracks : Tracks s visible) {slot : LocalId}
    (fresh : slot ∉ visible) (none : s.locals slot = none) (value : V) :
    Follows s (Insert.insert slot visible) (env.set slot value) (env'.set slot value) := by
  intro other member
  rcases member with rfl | member
  · rw [target_of_none none, Locals.set, Locals.set, if_pos rfl, if_pos rfl]
  · have first : other ≠ slot := fun same => fresh (same ▸ member)
    have second : s.target other ≠ slot := fun same => fresh (same ▸ (tracks other member).1)
    rw [Locals.set, Locals.set, if_neg first, if_neg second]
    exact follows other member

/-- Locals are held under their names once locals that are called by themselves are bound, where no
name of another local is bound with them. -/
theorem Follows.setAll {s : Aliases} {visible : Set LocalId} {env env' : Locals V}
    (follows : Follows s visible env env') (missing : V) {slots : List LocalId}
    {large : Set LocalId} (widened : ∀ slot ∈ large, slot ∈ visible ∨ slot ∈ slots)
    (none : ∀ slot ∈ slots, s.locals slot = none)
    (apart : ∀ slot ∈ visible, slot ∉ slots → s.target slot ∉ slots) (values : List V) :
    Follows s large (env.setAll missing slots values) (env'.setAll missing slots values) := by
  intro other member
  by_cases bound : other ∈ slots
  · rw [target_of_none (none other bound)]
    exact Locals.setAll_same missing env' env values bound
  · have seen := (widened other member).resolve_right bound
    rw [Locals.setAll_other missing env values bound,
      Locals.setAll_other missing env' values (apart other seen bound)]
    exact follows other seen

/-- Locals are held under their names once a removed binding holds the value of a visible local. -/
theorem Follows.removed {s : Aliases} {visible : Set LocalId} {env env' : Locals V}
    (follows : Follows s visible env env') {slot original : LocalId} (fresh : slot ∉ visible)
    (ty : Ty) :
    Follows (s.insert slot original ty) (Insert.insert slot visible)
      (env.set slot (env' original)) env' := by
  intro other member
  rcases member with rfl | member
  · rw [Locals.set, if_pos rfl, Aliases.target, Aliases.insert]
    simp only [if_true, Option.getD_some]
  · rw [Locals.set, if_neg fun same : other = slot => fresh (same ▸ member),
      (later_insert fresh s original ty).target member]
    exact follows other member

section Run

variable [Monad m]

mutual

/-- A rewritten expression runs like the source. -/
theorem eval_rewrite [LawfulMonad m] (M : Machine m V) : ∀ (e : CExpr) {s : Aliases}
    {visible bound : Set LocalId} {env env' : Locals V} (back : List V → m V),
    e.Sees visible → e.ShadowFree bound → visible ⊆ bound → Steady decls types e s visible →
    Tracks s visible → Follows s visible env env' →
      eval M (rewrite decls types e s).1 back env' = eval M e back env
  | .lit _ _, _, _, _, _, _, _, _, _, _, _, _, _
  | .global _ _, _, _, _, _, _, _, _, _, _, _, _, _
  | .error _, _, _, _, _, _, _, _, _, _, _, _, _ => by
    rw [rewrite]
    simp only [eval]
  | .loc slot _, _, _, _, _, _, _, sees, _, _, _, _, follows => by
    rw [rewrite]
    simp only [eval, follows slot sees]
  | .makeClosure _ captures _ _, s, _, _, env, env', _, sees, _, _, _, _, follows => by
    have held : (captures.map s.target).map env' = captures.map env := by
      rw [List.map_map]
      exact List.map_congr_left fun slot member => follows slot (sees slot member)
    rw [rewrite]
    simp only [eval, held]
  | .prim _ args _, s, _, _, _, _, back, sees, free, inside, steady, tracks, follows
  | .foreign _ args _ _, s, _, _, _, _, back, sees, free, inside, steady, tracks, follows
  | .spread args _, s, _, _, _, _, back, sees, free, inside, steady, tracks, follows
  | .recur args _, s, _, _, _, _, back, sees, free, inside, steady, tracks, follows => by
    have operands := evalList_rewrite M args back sees free inside steady tracks follows
    rw [rewrite]
    simp only [eval, operands]
  | .makeData _ args reuse _ _ _, s, _, _, env, env', back, sees, free, inside, steady, tracks,
      follows => by
    have operands := evalList_rewrite M args back sees.1 free inside steady tracks follows
    have later : Later _ s (rewriteAll decls types args s).2 := rewriteAll_later args free
    have token : (reuse.map (rewriteAll decls types args s).2.target).map env' = reuse.map env := by
      cases reuse with
      | none => rfl
      | some slot => exact congrArg some (follows.later later inside slot (sees.2 slot rfl))
    rw [rewrite]
    simp only [eval, operands, token]
  | .app func args reuse _ _, s, _, _, env, env', back, sees, free, inside, steady, tracks,
      follows => by
    have first : Later _ s (rewrite decls types func s).2 := rewrite_later func free.1
    have callee := eval_rewrite M func back sees.1 free.1 inside steady.1 tracks follows
    have follows' := follows.later first inside
    have operands := evalList_rewrite M args back sees.2.1 free.2 inside steady.2
      (tracks.later first inside) follows'
    have later : Later _ _ (rewriteAll decls types args (rewrite decls types func s).2).2 :=
      rewriteAll_later args free.2
    have tokens : (reuse.map (Option.map (rewriteAll decls types args
        (rewrite decls types func s).2).2.target)).map (Option.map env') =
          reuse.map (Option.map env) := by
      rw [List.map_map]
      apply List.map_congr_left
      intro token member
      cases token with
      | none => rfl
      | some slot =>
        exact congrArg some
          (follows'.later later inside slot (sees.2.2 _ member slot rfl))
    rw [rewrite]
    simp only [eval, callee, operands, tokens]
  | .ite cond yes no _, s, _, _, _, _, back, sees, free, inside, steady, tracks, follows => by
    have first : Later _ s (rewrite decls types cond s).2 := rewrite_later cond free.1
    have second : Later _ _ (rewrite decls types yes (rewrite decls types cond s).2).2 :=
      rewrite_later yes free.2.1
    have tracks' := tracks.later first inside
    have follows' := follows.later first inside
    rw [rewrite]
    simp only [eval, eval_rewrite M cond back sees.1 free.1 inside steady.1 tracks follows,
      eval_rewrite M yes back sees.2.1 free.2.1 inside steady.2.1 tracks' follows',
      eval_rewrite M no back sees.2.2 free.2.2 inside steady.2.2 (tracks'.later second inside)
        (follows'.later second inside)]
  | .letIn slot value body ty, s, visible, bound, env, env', back, sees, free, inside, steady,
      tracks, follows => by
    have wider := inside.trans (Set.subset_insert slot bound)
    have fresh : slot ∉ visible := fun member => free.1 (inside member)
    have first : Later _ s (rewrite decls types value s).2 := rewrite_later value free.2.1
    have held := eval_rewrite M value back sees.1 free.2.1 wider steady.1 tracks follows
    have follows' := follows.later first wider
    obtain ⟨kept, removed⟩ := before_body inside free steady tracks
      (rewrite_locates value sees.1 free.2.1 wider steady.1 tracks)
    cases found : replacement decls types slot (rewrite decls types value s).1 with
    | none =>
      obtain ⟨none, tracks', steady'⟩ := kept found
      have rest (result : V) := eval_rewrite M body back sees.2 free.2.2
        (Set.insert_subset_insert inside) steady' tracks'
        (follows'.set (tracks.later first wider) fresh none result)
      rw [rewrite_kept found]
      simp only [eval, held, rest]
    | some original =>
      -- The value is the original, so the binding holds it under the original's name.
      obtain ⟨ty', same, _, called, tracks', steady'⟩ := removed original found
      have rest := eval_rewrite M body back sees.2 free.2.2 (Set.insert_subset_insert inside)
        steady' tracks' (follows'.removed fresh ty')
      rw [same] at held
      rw [rewrite_removed found, called, same, CExpr.ty, rest]
      simp only [eval, ← held, pure_bind]
  | .letMany slots value body _, s, visible, bound, _, _, back, sees, free, inside, steady, tracks,
      follows => by
    have first : Later _ s (rewrite decls types value s).2 := rewrite_later value free.2.1
    have held := eval_rewrite M value back sees.1 free.2.1 inside steady.1 tracks follows
    have tracks' := tracks.later first inside
    have rest (parts : List V) := eval_rewrite M body back sees.2 free.2.2
      (Set.union_subset_union_left _ inside) steady.2.2 (tracks'.union steady.2.1)
      ((follows.later first inside).setAll (M.lit .unit) (fun slot member => member) steady.2.1
        (fun slot member _ among => free.1 _ among (inside (tracks' slot member).1)) parts)
    rw [rewrite]
    simp only [eval, held, rest]
  | .reset value token body _, s, visible, bound, _, _, back, sees, free, inside, steady, tracks,
      follows => by
    have first : Later _ s (rewrite decls types value s).2 := rewrite_later value free.2.1
    have held := eval_rewrite M value back sees.1 free.2.1 inside steady.1 tracks follows
    have tracks' := tracks.later first inside
    have rest (memory : V) := eval_rewrite M body back sees.2 free.2.2
      (Set.insert_subset_insert inside) steady.2.2 (tracks'.insert steady.2.1)
      ((follows.later first inside).set tracks' (fun member => free.1 (inside member)) steady.2.1
        memory)
    rw [rewrite]
    simp only [eval, held, rest]
  | .holeStart hole body _, s, visible, bound, _, _, back, sees, free, inside, steady, tracks,
      follows => by
    have rest (destination : V) := eval_rewrite M body back sees free.2
      (Set.insert_subset_insert inside) steady.2 (tracks.insert steady.1)
      (follows.set tracks (fun member => free.1 (inside member)) steady.1 destination)
    rw [rewrite]
    simp only [eval, rest]
  | .join params body _, s, visible, bound, env, env', back, sees, free, inside, steady, tracks,
      follows => by
    obtain ⟨⟨none, apart⟩, steady'⟩ := steady
    have start : params.map env' = params.map env := List.map_congr_left fun slot member => by
      have same := follows slot (sees.1 slot member)
      rwa [target_of_none (none slot member)] at same
    have turn (again : List V → m V) (values : List V) := eval_rewrite M body again sees.2 free
      inside steady' tracks
      (follows.setAll (M.lit .unit) (fun slot member => .inl member) none apart values)
    rw [rewrite]
    simp only [eval, start, turn]
  | .freeReuse slot body _, s, _, _, _, _, back, sees, free, inside, steady, tracks, follows
  | .dup slot body _, s, _, _, _, _, back, sees, free, inside, steady, tracks, follows
  | .drop slot body _, s, _, _, _, _, back, sees, free, inside, steady, tracks, follows
  | .holeFill slot body _ _, s, _, _, _, _, back, sees, free, inside, steady, tracks, follows
  | .holeClose slot body _, s, _, _, _, _, back, sees, free, inside, steady, tracks, follows => by
    have rest := eval_rewrite M body back sees.2 free inside steady tracks follows
    rw [rewrite]
    simp only [eval, rest, follows slot sees.1]
  | .dataTag base _ _, s, _, _, _, _, back, sees, free, inside, steady, tracks, follows => by
    have rest := eval_rewrite M base back sees free inside steady tracks follows
    rw [rewrite]
    simp only [eval, rest]
  | .dataField base index _ _ _, s, _, _, env, env', back, sees, free, inside, steady, tracks,
      follows => by
    have rest := eval_rewrite M base back sees.1 free inside steady tracks follows
    have later : Later _ s (rewrite decls types base s).2 := rewrite_later base free
    have spot : place env' (renameIndex (rewrite decls types base s).2.target index) =
        place env index := by
      cases index with
      | const slot => rfl
      | dyn offset evidence =>
        rw [renameIndex, place, place,
          follows.later later inside evidence (sees.2 offset evidence rfl)]
    rw [rewrite]
    simp only [eval, rest, spot]

/-- Rewritten operands run like the source's. -/
theorem evalList_rewrite [LawfulMonad m] (M : Machine m V) : ∀ (es : List CExpr) {s : Aliases}
    {visible bound : Set LocalId} {env env' : Locals V} (back : List V → m V),
    SeesAll es visible → ShadowFreeAll es bound → visible ⊆ bound →
    SteadyAll decls types es s visible → Tracks s visible → Follows s visible env env' →
      evalList M (rewriteAll decls types es s).1 back env' = evalList M es back env
  | [], _, _, _, _, _, _, _, _, _, _, _, _ => by
    rw [rewriteAll]
    simp only [evalList]
  | e :: rest, s, _, _, _, _, back, sees, free, inside, steady, tracks, follows => by
    have first : Later _ s (rewrite decls types e s).2 := rewrite_later e free.1
    rw [rewriteAll]
    simp only [evalList, eval_rewrite M e back sees.1 free.1 inside steady.1 tracks follows,
      evalList_rewrite M rest back sees.2 free.2 inside steady.2 (tracks.later first inside)
        (follows.later first inside)]

end

end Run

/-- A coalesced body runs like the body where no slot is bound again while it is bound, no binding
that stays binds a slot of a removed one before it, and no loop carries such a slot or a local that
another visible one is called by: it returns the same value with the same effects, and acquires and
releases the same references. The table is right so wherever the bindings of a slot to a local are
copies of one. -/
theorem coalesce_alike (decls : TypeDecls) {body : CExpr} {entry : Set LocalId}
    (sees : body.Sees entry) (free : body.ShadowFree entry) :
    (Steady decls (bodyTypes body) body empty entry →
      ∀ (m : Type → Type) [Monad m] [LawfulMonad m] (V : Type) (M : Machine m V),
        Alike M (coalesce decls body) body) ∧
    ∀ code, Copied code body → Steady decls (bodyTypes body) body empty entry := by
  refine ⟨fun steady m _ _ V M back env => ?_, fun code copied => steady_of_copies sees free copied⟩
  exact eval_rewrite M body back sees free (Set.Subset.refl entry) steady
    (fun slot member => ⟨member, rfl⟩) fun slot _ => rfl

/-- The declarations of a program without any. -/
def noDecls : TypeDecls where
  typeNamed _ := none
  prelude := none
  optionName := 0

/-- A machine over truth values in which a value is its tag, every other operation returns true and
a loop turns twice. -/
def truthful : Machine Id Bool where
  lit _ := true
  global _ := true
  prim _ _ := true
  foreign _ _ := true
  apply _ _ _ := true
  test value := value
  closure _ _ _ := true
  data _ _ _ _ _ := true
  tag _ value := value
  field _ _ _ _ := true
  spread _ := true
  components _ := []
  dup _ := ()
  drop _ := ()
  reset _ := true
  freeReuse _ := ()
  loop turn := turn (turn fun _ => false)
  holeStart := true
  holeFill _ _ _ := true
  holeClose _ _ := true
  trap := true

/-- An arm `let y = g (h x) in let z = y in z`, whose value is acquired under the name `z` and
released under the name `y`, copied into both branches of a match. -/
def armTwice : CExpr :=
  let arm : CExpr := .letIn 2 (.app (.global ⟨0, 0⟩ .error)
      [.app (.global ⟨0, 1⟩ .error) [.loc 0 (.con .string)] [] .heap (.con .string)] [] .heap
      (.con .string))
    (.letIn 3 (.loc 2 (.con .string))
      (.dup 3 (.drop 2 (.loc 3 (.con .string)) (.con .string)) (.con .string)) (.con .string))
    (.con .string)
  .ite (.loc 1 (.con .bool)) arm arm (.con .string)

/-- The arms in A-normal form, each with a temporary of its own. -/
def armsNormal (rest : CExpr) : CExpr :=
  let arm (temporary : LocalId) : CExpr :=
    .letIn temporary
      (.app (.global ⟨0, 1⟩ .error) [.loc 0 (.con .string)] [] .heap (.con .string))
      (.letIn 2 (.app (.global ⟨0, 0⟩ .error) [.loc temporary (.con .string)] [] .heap
        (.con .string)) rest (.con .string)) (.con .string)
  .ite (.loc 1 (.con .bool)) (arm 4) (arm 5) (.con .string)

/-- `let z = y in z` with its references. -/
def aliased : CExpr :=
  .letIn 3 (.loc 2 (.con .string))
    (.dup 3 (.drop 2 (.loc 3 (.con .string)) (.con .string)) (.con .string)) (.con .string)

/-- The binding of `z` is removed from both copies, and the rest runs as before. -/
theorem coalesce_alike_armTwice : Anf.anf armTwice 4 = some (armsNormal aliased, 6) ∧
    coalesce noDecls (armsNormal aliased) = armsNormal
      (.dup 2 (.drop 2 (.loc 2 (.con .string)) (.con .string)) (.con .string)) ∧
    Alike truthful (coalesce noDecls (armsNormal aliased)) (armsNormal aliased) := by
  have sees : (armsNormal aliased).Sees {0, 1} := by simp [armsNormal, aliased, Sees, SeesAll]
  have free : (armsNormal aliased).ShadowFree {0, 1} := by
    simp [armsNormal, aliased, ShadowFree, ShadowFreeAll]
  have steady : Steady noDecls (bodyTypes (armsNormal aliased)) (armsNormal aliased) empty {0, 1} :=
    ⟨trivial,
      ⟨⟨trivial, trivial, trivial⟩, rfl, ⟨trivial, trivial, trivial⟩, rfl, trivial, trivial⟩,
      ⟨trivial, trivial, trivial⟩, rfl, ⟨trivial, trivial, trivial⟩, rfl, trivial, trivial⟩
  exact ⟨rfl, rfl, (coalesce_alike noDecls sees free).1 steady Id Bool truthful⟩

/-- Expressions that run apart. -/
theorem not_alike {first second : CExpr} {back : List Bool → Id Bool} {env : Locals Bool}
    {value value' : Bool} (here : eval truthful first back env = value)
    (there : eval truthful second back env = value') (differ : value ≠ value') :
    ¬ Alike truthful first second :=
  fun alike => differ (here.symm.trans ((alike back env).trans there))

/-- `let y = x in y` in one branch and `let y = toUpper x in y` in the other. -/
def rebound : CExpr :=
  .ite (.loc 1 (.con .bool))
    (.letIn 2 (.loc 0 (.con .string)) (.loc 2 (.con .string)) (.con .string))
    (.letIn 2 (.prim .toUpper [.loc 0 (.con .string)] (.con .string)) (.loc 2 (.con .string))
      (.con .string)) (.con .string)

/-- The type `List Int`. -/
def integers : Ty := .app (.con .list) (.con .int)

/-- `let y = x` around a loop over a slot that returns `y` once the slot is not empty. -/
def aroundLoop (slot : LocalId) : CExpr :=
  .letIn 1 (.loc 0 integers)
    (.join [slot] (.ite (.dataTag (.loc slot integers) none (.con .bool)) (.loc 1 integers)
      (.recur [.makeData 1 [] none 0 none integers] integers) integers) integers) integers

/-- No slot of these bodies is bound again while it is bound, yet once the alias is removed the
second branch of `rebound` returns `x`, a loop over the alias turns on with `x`, and a loop over
`x` returns what it carries last. -/
theorem coalesce_rebound :
    (rebound.Sees {0, 1} ∧ rebound.ShadowFree {0, 1} ∧
      ¬ Alike truthful (coalesce noDecls rebound) rebound) ∧
    ∀ slot ∈ [0, 1], (aroundLoop slot).Sees {0} ∧ (aroundLoop slot).ShadowFree {0} ∧
      ¬ Alike truthful (coalesce noDecls (aroundLoop slot)) (aroundLoop slot) := by
  have branches : ¬ Alike truthful (coalesce noDecls rebound) rebound :=
    not_alike (show eval truthful _ (fun _ => true) (fun _ => false) = false from rfl)
      (show eval truthful _ (fun _ => true) (fun _ => false) = true from rfl) Bool.false_ne_true
  have original : ¬ Alike truthful (coalesce noDecls (aroundLoop 0)) (aroundLoop 0) :=
    not_alike (show eval truthful _ (fun _ => true) (fun _ => false) = true from rfl)
      (show eval truthful _ (fun _ => true) (fun _ => false) = false from rfl)
      Bool.false_ne_true.symm
  have carried : ¬ Alike truthful (coalesce noDecls (aroundLoop 1)) (aroundLoop 1) :=
    not_alike (show eval truthful _ (fun _ => true) (fun _ => false) = false from rfl)
      (show eval truthful _ (fun _ => true) (fun _ => false) = true from rfl) Bool.false_ne_true
  refine ⟨⟨by simp [rebound, Sees, SeesAll],
    by simp [rebound, ShadowFree, ShadowFreeAll], branches⟩,
    fun slot member => ?_⟩
  rcases List.mem_pair.mp member with rfl | rfl
  · exact ⟨by simp [aroundLoop, Sees, SeesAll], by simp [aroundLoop, ShadowFree, ShadowFreeAll],
      original⟩
  · exact ⟨by simp [aroundLoop, Sees, SeesAll], by simp [aroundLoop, ShadowFree, ShadowFreeAll],
      carried⟩

end Aliases

end Fai
