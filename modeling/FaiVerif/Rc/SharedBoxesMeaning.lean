import FaiVerif.Rc.SharedBoxes
import Mathlib.Data.List.Nodup

/-!
# What sharing boxed integers does to a run

The result of sharing runs like the body as long as every operation that is not bound again is one
on locals and literals. An operation that reads a definition is dropped like any other, and the
definition is then run once where the body runs it twice.
-/

namespace Fai

namespace CExpr

/-- A slot is bound while it is not, below the limit, and either always as one local or never. -/
inductive Binds (lets : Set LocalId) (limit : Nat) : CExpr → Set LocalId → Prop
  | node {e : CExpr} {bound : Set LocalId} :
    (∀ child slots, (child, slots) ∈ e.scopes → ∀ slot ∈ slots, slot ∉ bound ∧ slot < limit ∧
      (slot ∈ lets ↔ ∃ value body ty, e = .letIn slot value body ty)) →
    (∀ child slots, (child, slots) ∈ e.scopes →
      Binds lets limit child (bound ∪ {slot | slot ∈ slots})) →
    Binds lets limit e bound

/-- What is bound around a child. -/
theorem Binds.slots {lets : Set LocalId} {limit : Nat} {e child : CExpr} {bound : Set LocalId}
    {slots : List LocalId} (binds : Binds lets limit e bound)
    (member : (child, slots) ∈ e.scopes) : ∀ slot ∈ slots, slot ∉ bound ∧ slot < limit ∧
      (slot ∈ lets ↔ ∃ value body ty, e = .letIn slot value body ty) := by
  cases binds with
  | node around _ => exact around child slots member

/-- What a child binds. -/
theorem Binds.child {lets : Set LocalId} {limit : Nat} {e child : CExpr} {bound : Set LocalId}
    {slots : List LocalId} (binds : Binds lets limit e bound)
    (member : (child, slots) ∈ e.scopes) :
    Binds lets limit child (bound ∪ {slot | slot ∈ slots}) := by
  cases binds with
  | node _ below => exact below child slots member

/-- A node that binds nothing binds what its children do. -/
theorem Binds.none {lets : Set LocalId} {limit : Nat} {e : CExpr} {bound : Set LocalId}
    (unbound : e.scopes = e.children.map fun child => (child, []))
    (below : ∀ child ∈ e.children, Binds lets limit child bound) : Binds lets limit e bound := by
  refine .node (fun child slots member slot among => ?_) fun child slots member => ?_
  all_goals
    rw [unbound, List.mem_map] at member
    obtain ⟨child, here, same⟩ := member
    injection same with same same'
    subst same same'
  · exact absurd among List.not_mem_nil
  · rw [union_none]
    exact below child here

/-- A binding binds its slot and what its value and body do. -/
theorem Binds.letIn {lets : Set LocalId} {limit : Nat} {slot : LocalId} {value body : CExpr}
    {ty : Ty} {bound : Set LocalId} (fresh : slot ∉ bound) (low : slot < limit)
    (isLet : slot ∈ lets) (first : Binds lets limit value bound)
    (second : Binds lets limit body (insert slot bound)) :
    Binds lets limit (.letIn slot value body ty) bound := by
  have cases {child : CExpr} {slots : List LocalId}
      (member : (child, slots) ∈ (CExpr.letIn slot value body ty).scopes) :
      child = value ∧ slots = [] ∨ child = body ∧ slots = [slot] := by
    simpa [scopes] using member
  refine .node (fun child slots member other among => ?_) fun child slots member => ?_
  · rcases cases member with ⟨rfl, rfl⟩ | ⟨rfl, rfl⟩
    · exact absurd among List.not_mem_nil
    · rw [List.mem_singleton.mp among]
      exact ⟨fresh, low, fun _ => ⟨value, child, ty, rfl⟩, fun _ => isLet⟩
  · rcases cases member with ⟨rfl, rfl⟩ | ⟨rfl, rfl⟩
    · rw [union_none]
      exact first
    · rw [union_one]
      exact second

end CExpr

namespace SharedBoxes

open CExpr Eval Slots

/-- Whether a node is neither a use of a local nor a binding of one. -/
def ordinary : CExpr → Bool
  | .loc _ _ | .letIn _ _ _ _ => false
  | _ => true

section Equations

/-- A use of a local is renamed. -/
theorem common_loc (slot : LocalId) (ty : Ty) (seen : Seen) (aliases : Renaming) :
    common (.loc slot ty) seen aliases = .loc ((aliases slot).getD slot) ty := by
  rw [common, fold_eq]

/-- A binding is kept or removed. -/
theorem common_letIn (slot : LocalId) (value body : CExpr) (ty : Ty) (seen : Seen)
    (aliases : Renaming) : common (.letIn slot value body ty) seen aliases =
      if isShared (common value seen aliases) then
        match seen.prior (common value seen aliases) with
        | some prior => common body seen (aliases.insert slot prior)
        | none =>
          .letIn slot (common value seen aliases)
            (common body (seen ++ [(common value seen aliases, slot)]) aliases) ty
      else .letIn slot (common value seen aliases) (common body seen aliases) ty := by
  rw [common, fold_eq]
  rfl

/-- Other nodes keep their shape. -/
theorem common_ordinary {e : CExpr} (plain : ordinary e = true) (seen : Seen) (aliases : Renaming) :
    common e seen aliases = e.mapChildren fun child => common child seen aliases := by
  rw [← withChildren_map, common, fold_eq]
  cases e with
  | loc | letIn => cases plain
  | _ => simp only [children, List.map_map, List.map_cons, List.map_nil, Function.comp_def]

/-- Replaced operands are children picked by their position. -/
theorem uniformArgs_eq (abiOf : AbiOf) (f : CExpr → CExpr) (e : CExpr) : ∃ pick : Nat → Bool,
    uniformArgs abiOf f e =
      e.withChildren (e.children.mapIdx fun index child =>
        if pick index then f child else child) := by
  have none {args : List CExpr} : (args.mapIdx fun index child =>
      if (fun _ => false) index = true then f child else child) = args := by
    exact List.ext_getElem (by simp) fun index _ _ => by simp
  let picked (index : Nat) : Bool := decide (index ∈ uniformPositions abiOf e)
  have at_picked : ∀ index, picked index = true ↔ index ∈ uniformPositions abiOf e :=
    fun index => decide_eq_true_iff
  cases e with
  | prim | makeData =>
    refine ⟨picked, ?_⟩
    simp only [uniformArgs, withChildren, head, Head.build, children, at_picked]
  | app func args =>
    refine ⟨fun index => decide (0 < index) && picked (index - 1), ?_⟩
    simp only [uniformArgs, withChildren, head, Head.build, children, List.mapIdx_cons,
      Nat.succ_pos, Nat.add_sub_cancel, Nat.lt_irrefl, decide_true, decide_false, Bool.true_and,
      Bool.false_and, Bool.false_eq_true, if_false, at_picked]
  | _ =>
    refine ⟨fun _ => false, ?_⟩
    rw [none, withChildren_children]
    rfl

/-- A shared operation takes no operand boxed. -/
theorem uniformArgs_shared {abiOf : AbiOf} {f : CExpr → CExpr} {op : Prim}
    (shared : sharedOp op = true) (args : List CExpr) (ty : Ty) :
    uniformArgs abiOf f (.prim op args ty) = .prim op args ty := by
  have none : uniformPositions abiOf (.prim op args ty) = [] := by
    cases op with
    | intAdd | intSub | intMul | intAnd | intOr | intXor => rfl
    | _ => cases shared
  refine congrArg (fun args => CExpr.prim op args ty) ?_
  refine List.ext_getElem (by simp) fun index _ _ => ?_
  simp only [List.getElem_mapIdx, none, List.not_mem_nil, if_false]

variable (abiOf : AbiOf) (peers : Peers)

/-- The two last steps: naming the boxes and binding them. -/
def share (e : CExpr) : CExpr := bind peers (substitute abiOf peers e)

variable {abiOf peers}

/-- The binding of the boxes leaves a node that binds no local as it is. -/
theorem bind_ordinary {e : CExpr} (plain : ordinary e = true) :
    bind peers e = e.withChildren (e.children.map (bind peers)) := by
  rw [bind, fold_eq]
  cases e with
  | loc | letIn => cases plain
  | _ => rfl

/-- Naming a box and binding boxes commute. -/
theorem bind_boxed (e : CExpr) : bind peers (boxed peers e) = boxed peers (bind peers e) := by
  cases e with
  | loc slot ty =>
    rw [boxed, bind, fold_eq, fold_eq]
    rfl
  | letIn slot value body ty =>
    rw [boxed, bind, fold_eq]
    simp only [children, List.map_cons, List.map_nil]
    cases peers.lookup slot <;> rfl
    exact fun _ _ same => by cases same
  | _ =>
    rw [boxed, bind_ordinary rfl]
    · rfl
    · exact fun _ _ same => by cases same

/-- A use of a local is shared as it is. -/
theorem share_loc (slot : LocalId) (ty : Ty) :
    share abiOf peers (.loc slot ty) = .loc slot ty := by
  rw [share, substitute, fold_eq, bind, fold_eq]
  rfl

/-- A binding is followed by that of its box. -/
theorem share_letIn (abiOf : AbiOf) (peers : Peers) (slot : LocalId) (value body : CExpr)
    (ty : Ty) : ∃ bodyTy,
    share abiOf peers (.letIn slot value body ty) =
      .letIn slot (share abiOf peers value)
        ((peers.lookup slot).elim (share abiOf peers body) fun peer =>
          .letIn peer (.prim .intBox [.loc slot int] int) (share abiOf peers body) bodyTy) ty := by
  refine ⟨(share abiOf peers body).ty, ?_⟩
  have first : substitute abiOf peers (.letIn slot value body ty) =
      .letIn slot (substitute abiOf peers value) (substitute abiOf peers body) ty := by
    rw [substitute, fold_eq]
    rfl
  rw [share, first, bind, fold_eq]
  simp only [children, List.map_cons, List.map_nil]
  cases peers.lookup slot <;> rfl

/-- Other children leave a node that is neither a use nor a binding one. -/
theorem ordinary_withChildren {e : CExpr} {es : List CExpr} (plain : ordinary e = true)
    (length : es.length = e.children.length) : ordinary (e.withChildren es) = true := by
  have kept := head_withChildren length
  cases e with
  | loc | letIn => cases plain
  | _ => cases whole : withChildren _ es <;> first | rfl | (rw [whole] at kept; cases kept)

/-- The children of another node are shared, and some of them named by their boxes. -/
theorem share_ordinary (abiOf : AbiOf) (peers : Peers) {e : CExpr} (plain : ordinary e = true) :
    ∃ pick : Nat → Bool,
    share abiOf peers e = e.withChildren (e.children.mapIdx fun index child =>
      if pick index then boxed peers (share abiOf peers child) else share abiOf peers child) := by
  obtain ⟨pick, replaced⟩ := uniformArgs_eq abiOf (boxed peers)
    (e.withChildren (e.children.map (substitute abiOf peers)))
  refine ⟨pick, ?_⟩
  have length : (e.children.map (substitute abiOf peers)).length = e.children.length :=
    List.length_map _
  rw [children_withChildren length] at replaced
  have whole : substitute abiOf peers e = e.withChildren
      ((e.children.map (substitute abiOf peers)).mapIdx fun index child =>
        if pick index then boxed peers child else child) := by
    rw [substitute, fold_eq]
    refine Eq.trans replaced ?_
    rw [withChildren, head_withChildren length]
    rfl
  have length' : ((e.children.map (substitute abiOf peers)).mapIdx fun index child =>
      if pick index then boxed peers child else child).length = e.children.length := by simp
  rw [share, whole, bind_ordinary (ordinary_withChildren plain length'),
    children_withChildren length', withChildren, head_withChildren length', withChildren]
  congr 1
  refine List.ext_getElem (by simp) fun index _ _ => ?_
  simp only [List.getElem_map, List.getElem_mapIdx, share]
  by_cases picked : pick index = true
  · rw [if_pos picked, if_pos picked, bind_boxed]
  · rw [if_neg picked, if_neg picked]

end Equations

section Peers

/-- Every binding in an expression is of one of these slots. -/
def Lets (lets : Set LocalId) (e : CExpr) : Prop :=
  e.Throughout fun e => ∀ slot value body ty, e = .letIn slot value body ty → slot ∈ lets

/-- What is left of an expression after sharing binds what the expression does. -/
theorem lets_common {lets : Set LocalId} {limit : Nat} (e : CExpr) : ∀ (bound : Set LocalId)
    (seen : Seen) (aliases : Renaming), Binds lets limit e bound →
      Lets lets (common e seen aliases) := by
  induction e using childInduction with
  | node e below =>
    intro bound seen aliases binds
    by_cases plain : ordinary e = true
    · rw [common_ordinary plain]
      refine .node (fun slot value body ty same => ?_) fun child member => ?_
      · cases e with
        | letIn => cases plain
        | _ => cases same
      · rw [children_mapChildren, List.mem_map] at member
        obtain ⟨child, among, rfl⟩ := member
        rw [← scopes_fst, List.mem_map] at among
        obtain ⟨⟨child, slots⟩, among, rfl⟩ := among
        exact below child (mem_children_of_scopes among) _ seen aliases (binds.child among)
    · cases e with
      | loc slot ty =>
        rw [common_loc]
        exact .node (fun _ _ _ _ same => by cases same) fun _ member =>
          absurd member List.not_mem_nil
      | letIn slot value body ty =>
        have first (aliases : Renaming) := below value (by simp [children]) _ seen aliases
          (binds.child (value_mem_scopes slot value body ty))
        have second (seen : Seen) (aliases : Renaming) := below body (by simp [children]) _ seen
          aliases (binds.child (body_mem_scopes slot value body ty))
        have bound : slot ∈ lets := ((binds.slots (body_mem_scopes slot value body ty) slot
          List.mem_cons_self).2.2).mpr ⟨value, body, ty, rfl⟩
        have kept (seen' : Seen) : Lets lets (.letIn slot (common value seen aliases)
            (common body seen' aliases) ty) := by
          refine .node (fun slot' _ _ _ same => ?_) fun child member => ?_
          · injection same with same
            rw [← same]
            exact bound
          · simp only [children, List.mem_cons, List.not_mem_nil, or_false] at member
            rcases member with rfl | rfl
            · exact first aliases
            · exact second seen' aliases
        rw [common_letIn]
        split_ifs
        · cases seen.prior (common value seen aliases) with
          | none => exact kept _
          | some prior => exact second seen _
        · exact kept seen
      | _ => exact absurd rfl plain

/-- The names of boxes are new slots, one each, for bound locals. -/
structure Numbered (lets : Set LocalId) (base : Nat) (state : Peers × Nat) : Prop where
  /-- The next slot is not before the first. -/
  ordered : base ≤ state.2
  /-- Each name is a new slot. -/
  names : ∀ peer ∈ state.1, base ≤ peer.2 ∧ peer.2 < state.2
  /-- No name is given twice. -/
  distinct : (state.1.map Prod.snd).Nodup
  /-- Bound locals are named. -/
  bound : ∀ peer ∈ state.1, peer.1 ∈ lets

/-- Finding candidates numbers their names. -/
theorem numbered_candidates {abiOf : AbiOf} {lets : Set LocalId} {base : Nat} (e : CExpr) :
    Lets lets e → ∀ state, Numbered lets base state →
      Numbered lets base (candidates abiOf e state) := by
  induction e using childInduction with
  | node e below =>
    intro bound state numbered
    have all (es : List CExpr) (among : ∀ child ∈ es, child ∈ e.children) : ∀ state,
        Numbered lets base state → Numbered lets base
          ((es.map (candidates abiOf)).foldl (fun state child => child state) state) := by
      induction es with
      | nil => exact fun state numbered => numbered
      | cons first rest hypothesis =>
        intro state numbered
        rw [List.map_cons, List.foldl_cons]
        refine hypothesis (fun child member => among child (List.mem_cons_of_mem _ member)) _ ?_
        have here := among first List.mem_cons_self
        exact below first here (bound.child first here) state numbered
    rw [candidates, fold_eq]
    refine all e.children (fun child member => member) _ ?_
    cases found : boxesOnce abiOf e with
    | none => exact numbered
    | some slot =>
      have isBound : slot ∈ lets := by
        cases e with
        | letIn other value body ty =>
          rw [boxesOnce] at found
          split_ifs at found
          rw [Option.some.injEq] at found
          rw [← found]
          exact bound.here other value body ty rfl
        | _ => cases found
      refine ⟨Nat.le_succ_of_le numbered.ordered, ?_, ?_, ?_⟩
      · refine List.forall_mem_cons.mpr ⟨⟨numbered.ordered, Nat.lt_succ_self _⟩, ?_⟩
        exact fun peer member => ⟨(numbered.names peer member).1,
          Nat.lt_succ_of_lt (numbered.names peer member).2⟩
      · refine List.nodup_cons.mpr ⟨fun member => ?_, numbered.distinct⟩
        obtain ⟨peer, among, same⟩ := List.mem_map.mp member
        exact absurd same (Nat.ne_of_lt (numbered.names peer among).2)
      · exact List.forall_mem_cons.mpr ⟨isBound, numbered.bound⟩

/-- What looking up a name says: new slots name bound locals, and one local only. -/
structure Names (lets : Set LocalId) (limit : Nat) (peers : Peers) : Prop where
  /-- Bound locals are named by new slots. -/
  bound : ∀ slot peer, peers.lookup slot = some peer → slot ∈ lets ∧ limit ≤ peer
  /-- A name is of one local. -/
  unique : ∀ slot other peer, peers.lookup slot = some peer → peers.lookup other = some peer →
    slot = other

/-- A name that is looked up is listed. -/
theorem mem_of_lookup {peers : Peers} {slot peer : LocalId}
    (found : peers.lookup slot = some peer) : (slot, peer) ∈ peers := by
  obtain ⟨before, after, rfl, _⟩ := List.lookup_eq_some_iff.mp found
  exact List.mem_append_right _ List.mem_cons_self

/-- Numbered names name. -/
theorem Numbered.namesOf {lets : Set LocalId} {base : Nat} {state : Peers × Nat}
    (numbered : Numbered lets base state) : Names lets base state.1 := by
  refine ⟨fun slot peer found => ?_, fun slot other peer found found' => ?_⟩
  · have member := mem_of_lookup found
    exact ⟨numbered.bound _ member, (numbered.names _ member).1⟩
  · have same := List.inj_on_of_nodup_map numbered.distinct (mem_of_lookup found)
      (mem_of_lookup found') rfl
    exact congrArg Prod.fst same

end Peers

/-- Whether an operand is a local, a literal or a definition that is steady: one whose reading does
nothing but return a value. -/
def isValue (steady : DefId → Bool) : CExpr → Bool
  | .lit _ _ | .loc _ _ => true
  | .global target _ => steady target
  | _ => false

/-- Whether an operation is one on locals, literals and steady definitions. -/
def plainOperation (steady : DefId → Bool) : CExpr → Bool
  | .prim _ args _ => args.all (isValue steady)
  | _ => false

/-- Whether every operation that is not bound again is one on locals, literals and steady
definitions. -/
def dropsPlain (steady : DefId → Bool) : CExpr → Seen → Renaming → Bool :=
  fold fun e children seen aliases =>
    match e, children with
    | .letIn slot value _ _, [valuePlain, bodyPlain] =>
      valuePlain seen aliases &&
        if isShared (common value seen aliases) then
          match seen.prior (common value seen aliases) with
          | some prior =>
            plainOperation steady (common value seen aliases) &&
              bodyPlain seen (aliases.insert slot prior)
          | none => bodyPlain (seen ++ [(common value seen aliases, slot)]) aliases
        else bodyPlain seen aliases
    | _, children => children.all fun child => child seen aliases

/-- No node names a local besides the uses of it. -/
def NamesByUse (e : CExpr) : Prop :=
  e.Throughout fun e => e.asLocal.isSome = true ∨ e.ownSlots = []

/-- The local a renamed local is. -/
def Renaming.target (aliases : Renaming) (slot : LocalId) : LocalId := (aliases slot).getD slot

variable {m : Type → Type} {V : Type} [Monad m]

/-- A machine in which boxing is representation only, the shared operations return a value whatever
their operands, and so does the reading of a steady definition. -/
structure TotalIntegers (M : Machine m V) (steady : DefId → Bool) : Prop where
  /-- A boxed integer is the integer. -/
  box : ∀ value, M.prim .intBox [value] = pure value
  /-- A shared operation returns a value. -/
  op : ∀ op, sharedOp op = true → ∀ values, ∃ value, M.prim op values = pure value
  /-- The reading of a steady definition returns a value. -/
  read : ∀ target, steady target = true → ∃ value, M.global target = pure value

/-- How the locals of a shared expression relate to those of the source: a visible local is held
under its renaming and, where it is boxed, under the name of its box, and what was seen is held by
the local bound to it. -/
structure Sharing (M : Machine m V) (steady : DefId → Bool) (lets : Set LocalId) (limit : Nat)
    (peers : Peers) (visible : Set LocalId) (seen : Seen) (aliases : Renaming)
    (env env' : Locals V) : Prop where
  /-- A renamed local is a visible one that is not renamed, and holds the same. -/
  renamed : ∀ slot ∈ visible, (aliases.target slot ∈ visible ∧
    aliases (aliases.target slot) = none) ∧ env' (aliases.target slot) = env slot
  /-- Locals that are not visible are not renamed. -/
  fresh : ∀ slot, slot ∉ visible → aliases slot = none
  /-- Visible locals are below the limit. -/
  low : ∀ slot ∈ visible, slot < limit
  /-- A boxed local is held under the name of its box. -/
  boxed : ∀ slot ∈ visible, aliases slot = none → ∀ peer, peers.lookup slot = some peer →
    env' peer = env' slot
  /-- What was seen is bound to a visible local, which holds it. -/
  held : ∀ entry ∈ seen, (entry.2 ∈ visible ∧ aliases entry.2 = none) ∧
    (plainOperation steady entry.1 = true → entry.1.Sees visible ∧
      ∀ back, eval M entry.1 back env' = pure (env' entry.2))

section Run

variable {M : Machine m V} {steady : DefId → Bool} {lets : Set LocalId} {limit : Nat}
  {peers : Peers} {visible : Set LocalId} {seen : Seen} {aliases : Renaming} {env env' : Locals V}

/-- Locals that agree where it matters hold what was seen alike. -/
theorem held_agree {entry : CExpr × LocalId} {env'' : Locals V}
    (agree : Agree visible env' env'') (seenBy : entry.2 ∈ visible)
    (held : entry.1.Sees visible ∧ ∀ back, eval M entry.1 back env' = pure (env' entry.2)) :
    ∀ back, eval M entry.1 back env'' = pure (env'' entry.2) := by
  intro back
  rw [← eval_agree M entry.1 back held.1 agree, held.2 back, agree entry.2 seenBy]

/-- What an expression sees, it sees among more locals. -/
theorem sees_mono {small large : Set LocalId} (subset : small ⊆ large) {e : CExpr}
    (plain : plainOperation steady e = true) (sees : e.Sees small) : e.Sees large := by
  cases e with
  | prim op args ty =>
    rw [plainOperation, List.all_eq_true] at plain
    refine seesAll_iff.mpr fun arg member => ?_
    have here := seesAll_iff.mp sees arg member
    have value := plain arg member
    cases arg with
    | lit => trivial
    | loc => exact subset here
    | global => trivial
    | _ => cases value
  | _ => cases plain

/-- Slots that are bound around a child and are no bound locals keep the relation. -/
theorem Sharing.extend (sharing : Sharing M steady lets limit peers visible seen aliases env env')
    (names : Names lets limit peers) {slots : List LocalId}
    (fresh : ∀ slot ∈ slots, slot ∉ visible ∧ slot < limit ∧ slot ∉ lets) (missing : V)
    (values : List V) :
    Sharing M steady lets limit peers (visible ∪ {slot | slot ∈ slots}) seen aliases
      (env.setAll missing slots values) (env'.setAll missing slots values) := by
  have apart {slot : LocalId} (member : slot ∈ visible) : slot ∉ slots := fun among =>
    (fresh slot among).1 member
  have agree : Agree visible env' (env'.setAll missing slots values) := fun slot member =>
    (Locals.setAll_other missing env' values (apart member)).symm
  refine ⟨?_, fun slot absent => sharing.fresh slot fun member => absent (.inl member), ?_, ?_, ?_⟩
  · intro slot member
    by_cases among : slot ∈ slots
    · have same : aliases slot = none := sharing.fresh slot (fresh slot among).1
      have itself : aliases.target slot = slot := by rw [Renaming.target, same]; rfl
      rw [itself]
      exact ⟨⟨.inr among, same⟩, Locals.setAll_same missing env' env values among⟩
    · have here := member.resolve_right among
      obtain ⟨⟨seenBy, kept⟩, same⟩ := sharing.renamed slot here
      refine ⟨⟨.inl seenBy, kept⟩, ?_⟩
      rw [Locals.setAll_other missing env' values (apart seenBy),
        Locals.setAll_other missing env values among, same]
  · intro slot member
    rcases member with here | among
    · exact sharing.low slot here
    · exact (fresh slot among).2.1
  · intro slot member kept peer found
    obtain ⟨bound, new⟩ := names.bound slot peer found
    have here : slot ∈ visible := member.resolve_right fun among => (fresh slot among).2.2 bound
    have other : peer ∉ slots := fun among =>
      absurd (fresh peer among).2.1 (Nat.not_lt.mpr new)
    rw [Locals.setAll_other missing env' values other, ← agree slot here]
    exact sharing.boxed slot here kept peer found
  · intro entry member
    obtain ⟨⟨seenBy, kept⟩, held⟩ := sharing.held entry member
    exact ⟨⟨.inl seenBy, kept⟩, fun plain => ⟨sees_mono Set.subset_union_left plain (held plain).1,
      held_agree agree seenBy (held plain)⟩⟩

/-- Binds a local and, where it is boxed, the name of its box. -/
def bindBox (peers : Peers) (env : Locals V) (slot : LocalId) (value : V) : Locals V :=
  (peers.lookup slot).elim (env.set slot value) fun peer => (env.set slot value).set peer value

/-- The local holds what it is bound to. -/
theorem bindBox_same (names : Names lets limit peers) {slot : LocalId} (low : slot < limit)
    (value : V) : bindBox peers env' slot value slot = value := by
  rw [bindBox]
  cases found : peers.lookup slot with
  | none => exact if_pos rfl
  | some peer =>
    have new := (names.bound slot peer found).2
    have other : slot ≠ peer := fun same => absurd low (Nat.not_lt.mpr (same ▸ new))
    exact (if_neg other).trans (if_pos rfl)

/-- Other locals hold what they held. -/
theorem bindBox_other {slot other : LocalId} (apart : other ≠ slot)
    (unnamed : peers.lookup slot ≠ some other) (value : V) :
    bindBox peers env' slot value other = env' other := by
  rw [bindBox]
  cases found : peers.lookup slot with
  | none => exact if_neg apart
  | some peer =>
    have different : other ≠ peer := fun same => unnamed (found.trans (congrArg some same.symm))
    exact (if_neg different).trans (if_neg apart)

/-- Visible locals hold what they held. -/
theorem Sharing.bindBox_visible
    (sharing : Sharing M steady lets limit peers visible seen aliases env env')
    (names : Names lets limit peers) {slot : LocalId} (fresh : slot ∉ visible) (value : V) :
    Agree visible env' (bindBox peers env' slot value) := by
  intro other member
  have apart : other ≠ slot := fun same => fresh (same ▸ member)
  refine (bindBox_other apart (fun found => ?_) value).symm
  exact absurd (sharing.low other member) (Nat.not_lt.mpr (names.bound slot other found).2)

/-- A bound local and the name of its box keep the relation. -/
theorem Sharing.bindLocal
    (sharing : Sharing M steady lets limit peers visible seen aliases env env')
    (names : Names lets limit peers) {slot : LocalId} (fresh : slot ∉ visible) (low : slot < limit)
    (value : V) : Sharing M steady lets limit peers (insert slot visible) seen aliases
      (env.set slot value) (bindBox peers env' slot value) := by
  have agree := sharing.bindBox_visible names fresh value
  refine ⟨?_, fun other absent => sharing.fresh other fun member => absent (.inr member), ?_, ?_,
    ?_⟩
  · intro other member
    rcases member with rfl | member
    · have same : aliases other = none := sharing.fresh other fresh
      have itself : aliases.target other = other := by rw [Renaming.target, same]; rfl
      rw [itself, bindBox_same names low]
      exact ⟨⟨Set.mem_insert _ _, same⟩, (if_pos rfl).symm⟩
    · obtain ⟨⟨seenBy, kept⟩, same⟩ := sharing.renamed other member
      refine ⟨⟨.inr seenBy, kept⟩, ?_⟩
      rw [← agree _ seenBy, same]
      exact (if_neg fun equal : other = slot => fresh (equal ▸ member)).symm
  · intro other member
    rcases member with rfl | member
    · exact low
    · exact sharing.low other member
  · intro other member kept peer found
    rcases member with rfl | member
    · rw [bindBox_same names low, bindBox, found]
      exact if_pos rfl
    · obtain ⟨_, new⟩ := names.bound other peer found
      have apart : peer ≠ slot := fun same => absurd low (Nat.not_lt.mpr (same ▸ new))
      rw [← agree other member, bindBox_other apart fun found' => fresh
        (names.unique slot other peer found' found ▸ member)]
      exact sharing.boxed other member kept peer found
  · intro entry member
    obtain ⟨⟨seenBy, kept⟩, held⟩ := sharing.held entry member
    exact ⟨⟨.inr seenBy, kept⟩, fun plain =>
      ⟨sees_mono (Set.subset_insert slot visible) plain (held plain).1,
        held_agree agree seenBy (held plain)⟩⟩

/-- A local whose binding is removed is renamed to one that holds the same. -/
theorem Sharing.rename (sharing : Sharing M steady lets limit peers visible seen aliases env env')
    {slot prior : LocalId} (fresh : slot ∉ visible) (low : slot < limit)
    (seenBy : prior ∈ visible) (kept : aliases prior = none) :
    Sharing M steady lets limit peers (insert slot visible) seen (aliases.insert slot prior)
      (env.set slot (env' prior)) env' := by
  have other {name : LocalId} (member : name ∈ visible) :
      aliases.insert slot prior name = aliases name :=
    if_neg fun same : name = slot => fresh (same ▸ member)
  refine ⟨?_, ?_, ?_, ?_, ?_⟩
  · intro name member
    rcases member with rfl | member
    · have itself : (aliases.insert name prior).target name = prior := by
        rw [Renaming.target, Renaming.insert, if_pos rfl, Option.getD_some]
      rw [itself, other seenBy]
      exact ⟨⟨.inr seenBy, kept⟩, (if_pos rfl).symm⟩
    · have same : (aliases.insert slot prior).target name = aliases.target name := by
        rw [Renaming.target, Renaming.target, other member]
      obtain ⟨⟨seenBy', kept'⟩, held⟩ := sharing.renamed name member
      rw [same, other seenBy']
      refine ⟨⟨.inr seenBy', kept'⟩, held.trans ?_⟩
      exact (if_neg fun equal : name = slot => fresh (equal ▸ member)).symm
  · intro name absent
    have apart : name ≠ slot := fun same => absent (.inl same)
    exact (if_neg apart).trans (sharing.fresh name fun member => absent (.inr member))
  · intro name member
    rcases member with rfl | member
    · exact low
    · exact sharing.low name member
  · intro name member none peer found
    rcases member with rfl | member
    · have renamed : aliases.insert name prior name = some prior := if_pos rfl
      rw [renamed] at none
      cases none
    · rw [other member] at none
      exact sharing.boxed name member none peer found
  · intro entry member
    obtain ⟨⟨seenBy', kept'⟩, held⟩ := sharing.held entry member
    refine ⟨⟨.inr seenBy', (other seenBy').trans kept'⟩, fun plain => ?_⟩
    exact ⟨sees_mono (Set.subset_insert slot visible) plain (held plain).1, (held plain).2⟩

/-- A value is seen once it is bound. -/
theorem Sharing.see (sharing : Sharing M steady lets limit peers visible seen aliases env env')
    {value : CExpr} {slot : LocalId} (seenBy : slot ∈ visible) (kept : aliases slot = none)
    (held : plainOperation steady value = true → value.Sees visible ∧
      ∀ back, eval M value back env' = pure (env' slot)) :
    Sharing M steady lets limit peers visible (seen ++ [(value, slot)]) aliases env env' := by
  refine ⟨sharing.renamed, sharing.fresh, sharing.low, sharing.boxed, fun entry member => ?_⟩
  rcases List.mem_append.mp member with earlier | now
  · exact sharing.held entry earlier
  · rw [List.mem_singleton.mp now]
    exact ⟨⟨seenBy, kept⟩, held⟩

/-- Uses of locals in what sharing leaves of an expression are of renamed locals or of ones that
bind what was seen. -/
theorem common_locals (named : LocalId → Prop) (e : CExpr) : ∀ (visible : Set LocalId)
    (seen : Seen) (aliases : Renaming), e.Sees visible →
      (∀ slot ∈ visible, named (aliases.target slot)) →
      (∀ entry ∈ seen, named entry.2) →
      (∀ slot ty, common e seen aliases = .loc slot ty → named slot) ∧
      ∀ op args ty, common e seen aliases = .prim op args ty →
        ∀ slot ty', .loc slot ty' ∈ args → named slot := by
  induction e using childInduction with
  | node e below =>
    intro visible seen aliases sees renamed held
    by_cases plain : ordinary e = true
    · rw [common_ordinary plain]
      refine ⟨fun slot ty same => ?_, fun op args ty same slot ty' member => ?_⟩
      · cases e with
        | loc => cases plain
        | _ => cases same
      · cases e with
        | prim op' args' ty'' =>
          injection same with _ same _
          rw [← same, List.mem_map] at member
          obtain ⟨arg, among, same⟩ := member
          exact (below arg among visible seen aliases (seesAll_iff.mp sees arg among) renamed
            held).1 slot ty' same
        | _ => cases same
    · cases e with
      | loc slot ty =>
        rw [common_loc]
        refine ⟨fun slot' ty' same => ?_, fun op args ty' same => by cases same⟩
        injection same with same _
        rw [← same]
        exact renamed slot sees
      | letIn slot value body ty =>
        rw [common_letIn]
        split_ifs with shared
        · cases found : seen.prior (common value seen aliases) with
          | none => exact ⟨fun _ _ same => (by cases same), fun _ _ _ same => (by cases same)⟩
          | some prior =>
            rw [Seen.prior, Option.map_eq_some_iff] at found
            obtain ⟨entry, found, rfl⟩ := found
            refine below body (by simp [children]) (insert slot visible) seen _ sees.2 ?_ held
            intro other member
            by_cases same : other = slot
            · rw [Renaming.target, Renaming.insert, if_pos same, Option.getD_some]
              exact held entry (List.mem_of_find?_eq_some found)
            · rw [Renaming.target, Renaming.insert, if_neg same]
              exact renamed other (member.resolve_left same)
        · exact ⟨fun _ _ same => (by cases same), fun _ _ _ same => (by cases same)⟩
      | _ => exact absurd rfl plain

/-- Locals, literals and steady definitions are what they are without running anything else. -/
theorem evalList_values [LawfulMonad m] (total : TotalIntegers M steady) {args : List CExpr}
    (values : args.all (isValue steady) = true) (env : Locals V) :
    ∃ results, ∀ back, inOrder (evalList M args back env) = (pure results : m (List V)) := by
  induction args with
  | nil => exact ⟨[], fun back => by simp only [evalList, inOrder]⟩
  | cons arg args hypothesis =>
    rw [List.all_cons, Bool.and_eq_true] at values
    obtain ⟨results, later⟩ := hypothesis values.2
    have first : ∃ result, ∀ back, eval M arg back env = pure result := by
      cases arg with
      | lit value => exact ⟨M.lit value, fun back => by simp only [eval]⟩
      | loc slot => exact ⟨env slot, fun back => by simp only [eval]⟩
      | global target =>
        obtain ⟨result, here⟩ := total.read target values.1
        exact ⟨result, fun back => by simp only [eval, here]⟩
      | _ => cases values.1
    obtain ⟨result, here⟩ := first
    exact ⟨result :: results, fun back => by simp only [evalList, inOrder, here, later, pure_bind]⟩

/-- A shared operation on locals, literals and steady definitions returns a value. -/
theorem eval_shared [LawfulMonad m] (total : TotalIntegers M steady) {value : CExpr}
    (shared : isShared value = true) (plain : plainOperation steady value = true)
    (env : Locals V) : ∃ result, ∀ back, eval M value back env = pure result := by
  cases value with
  | prim op args ty =>
    rw [isShared, Bool.and_eq_true] at shared
    obtain ⟨results, operands⟩ := evalList_values total plain env
    obtain ⟨result, here⟩ := total.op op shared.1 results
    exact ⟨result, fun back => by simp only [eval, operands, pure_bind, here]⟩
  | _ => cases shared

/-- A shared operation on locals, literals and definitions is left as it is. -/
theorem share_plain {abiOf : AbiOf} {value : CExpr} (shared : isShared value = true)
    (plain : plainOperation steady value = true) : share abiOf peers value = value := by
  cases value with
  | prim op args ty =>
    rw [isShared, Bool.and_eq_true] at shared
    rw [plainOperation, List.all_eq_true] at plain
    have first : substitute abiOf peers (.prim op args ty) =
        .prim op (args.map (substitute abiOf peers)) ty := by
      rw [substitute, fold_eq]
      exact uniformArgs_shared shared.1 _ ty
    have each : ∀ arg ∈ args, bind peers (substitute abiOf peers arg) = arg := by
      intro arg member
      have value := plain arg member
      cases arg with
      | lit | loc | global =>
        rw [substitute, fold_eq, bind, fold_eq]
        rfl
      | _ => cases value
    rw [share, first, bind_ordinary rfl]
    refine congrArg (fun args => CExpr.prim op args ty) ?_
    rw [children, List.map_map]
    exact (List.map_congr_left each).trans (List.map_id args)
  | _ => cases shared

/-- What is shared to a use of a local is that use. -/
theorem share_eq_loc {abiOf : AbiOf} {e : CExpr} {slot : LocalId} {ty : Ty}
    (same : share abiOf peers e = .loc slot ty) : e = .loc slot ty := by
  by_cases plain : ordinary e = true
  · obtain ⟨pick, whole⟩ := share_ordinary abiOf peers plain
    have length : (e.children.mapIdx fun index child =>
        if pick index then boxed peers (share abiOf peers child)
        else share abiOf peers child).length = e.children.length := List.length_mapIdx
    have kept := head_withChildren length
    rw [← whole, same] at kept
    cases e with
    | loc => cases plain
    | _ => cases kept
  · cases e with
    | loc => rw [← same, share_loc]
    | letIn slot value body ty =>
      obtain ⟨bodyTy, whole⟩ := share_letIn abiOf peers slot value body ty
      rw [whole] at same
      cases same
    | _ => exact absurd rfl plain

/-- A use under the name of a box runs like the use. -/
theorem eval_boxed (sharing : Sharing M steady lets limit peers visible seen aliases env env')
    {abiOf : AbiOf} {e : CExpr} (sees : e.Sees visible) (back : List V → m V) :
    eval M (boxed peers (share abiOf peers (common e seen aliases))) back env' =
      eval M (share abiOf peers (common e seen aliases)) back env' := by
  cases whole : share abiOf peers (common e seen aliases) with
  | loc slot ty =>
    have here := share_eq_loc whole
    have named := (common_locals (fun slot => slot ∈ visible ∧ aliases slot = none) e
      visible seen aliases sees (fun other member => (sharing.renamed other member).1)
      fun entry member => (sharing.held entry member).1).1 slot ty here
    rw [boxed]
    simp only [eval]
    split_ifs with integer
    · cases found : peers.lookup slot with
      | none => rfl
      | some peer =>
        exact congrArg pure (sharing.boxed slot named.1 named.2 peer found)
    · rfl
  | _ => rfl

/-- A list matches its image under a function and then one of the position. -/
theorem forall₂_mapIdx {α β γ : Type} {related : γ → α → Prop} {f : Nat → β → γ} {g : α → β}
    (list : List α) (each : ∀ index, ∀ element ∈ list, related (f index (g element)) element) :
    List.Forall₂ related ((list.map g).mapIdx f) list := by
  refine List.forall₂_iff_get.mpr ⟨by simp, fun index _ low => ?_⟩
  simp only [List.get_eq_getElem, List.getElem_mapIdx, List.getElem_map]
  exact each index _ (List.getElem_mem low)

/-- Outside of bindings, what is dropped is what the children drop. -/
theorem dropsPlain_ordinary {e : CExpr} (plain : ordinary e = true)
    (drops : dropsPlain steady e seen aliases = true) :
    ∀ child ∈ e.children, dropsPlain steady child seen aliases = true := by
  rw [dropsPlain, fold_eq] at drops
  cases e with
  | loc | letIn => cases plain
  | _ =>
    simp only [List.all_map, List.all_eq_true, Function.comp_apply] at drops
    exact drops

/-- What a binding drops. -/
theorem dropsPlain_letIn {slot : LocalId} {value body : CExpr} {ty : Ty}
    (drops : dropsPlain steady (.letIn slot value body ty) seen aliases = true) :
    dropsPlain steady value seen aliases = true ∧
      (if isShared (common value seen aliases) then
        match seen.prior (common value seen aliases) with
        | some prior =>
          plainOperation steady (common value seen aliases) &&
            dropsPlain steady body seen (aliases.insert slot prior)
        | none => dropsPlain steady body (seen ++ [(common value seen aliases, slot)]) aliases
      else dropsPlain steady body seen aliases) = true := by
  rw [dropsPlain, fold_eq] at drops
  exact Bool.and_eq_true_iff.mp drops

/-- A shared operation on visible locals sees them. -/
theorem sees_common {value : CExpr} (sees : value.Sees visible)
    (sharing : Sharing M steady lets limit peers visible seen aliases env env')
    (plain : plainOperation steady (common value seen aliases) = true) :
    (common value seen aliases).Sees visible := by
  have named := (common_locals (fun slot => slot ∈ visible) value visible seen aliases sees
    (fun other member => (sharing.renamed other member).1.1)
    fun entry member => (sharing.held entry member).1.1).2
  cases whole : common value seen aliases with
  | prim op args ty =>
    rw [whole, plainOperation, List.all_eq_true] at plain
    refine seesAll_iff.mpr fun arg member => ?_
    have here := plain arg member
    cases arg with
    | loc slot ty' => exact named op args ty whole slot ty' member
    | lit | global => trivial
    | _ => cases here
  | _ =>
    rw [whole] at plain
    cases plain

/-- A binding and that of its box run the value once. -/
theorem eval_binding [LawfulMonad m] (total : TotalIntegers M steady) {abiOf : AbiOf}
    (slot : LocalId) (value body : CExpr) (ty : Ty) (back : List V → m V) :
    eval M (share abiOf peers (.letIn slot value body ty)) back env' = (do
      let held ← eval M (share abiOf peers value) back env'
      eval M (share abiOf peers body) back (bindBox peers env' slot held)) := by
  obtain ⟨bodyTy, whole⟩ := share_letIn abiOf peers slot value body ty
  rw [whole, eval_letIn]
  refine congrArg _ (funext fun held => ?_)
  rw [bindBox]
  cases peers.lookup slot with
  | none => rfl
  | some peer =>
    have here : env'.set slot held slot = held := if_pos rfl
    simp only [Option.elim, eval, evalList, inOrder, here, pure_bind, total.box]

/-- What sharing keeps: the result runs like the expression in locals related by what was bound
before. -/
def RunsAlike (M : Machine m V) (steady : DefId → Bool) (lets : Set LocalId) (limit : Nat)
    (peers : Peers) (abiOf : AbiOf) (e : CExpr) : Prop :=
  ∀ (visible : Set LocalId) (seen : Seen) (aliases : Renaming) (env env' : Locals V)
    (back : List V → m V), e.Sees visible → Binds lets limit e visible → NamesByUse e →
      dropsPlain steady e seen aliases = true →
      Sharing M steady lets limit peers visible seen aliases env env' →
      eval M (share abiOf peers (common e seen aliases)) back env' = eval M e back env

/-- A binding runs alike where its value and its body do. -/
theorem RunsAlike.letIn [LawfulMonad m] (total : TotalIntegers M steady)
    (names : Names lets limit peers) {abiOf : AbiOf} {slot : LocalId} {value body : CExpr} {ty : Ty}
    (first : RunsAlike M steady lets limit peers abiOf value)
    (second : RunsAlike M steady lets limit peers abiOf body) :
    RunsAlike M steady lets limit peers abiOf (.letIn slot value body ty) := by
  intro visible seen aliases env env' back sees binds byUse drops sharing
  have inBody := body_mem_scopes slot value body ty
  obtain ⟨fresh, low, _⟩ := binds.slots inBody slot List.mem_cons_self
  obtain ⟨dropsValue, dropsBody⟩ := dropsPlain_letIn drops
  have bindsValue := binds.child (value_mem_scopes slot value body ty)
  have bindsBody := binds.child inBody
  rw [union_none] at bindsValue
  rw [union_one] at bindsBody
  have byUseBody : NamesByUse body := byUse.child body (by simp [children])
  have runValue := first visible seen aliases env env' back sees.1 bindsValue
    (byUse.child value (by simp [children])) dropsValue sharing
  have runBody {seen' : Seen} {aliases' : Renaming} {held : V} {env'' : Locals V}
      (drops : dropsPlain steady body seen' aliases' = true)
      (bound : Sharing M steady lets limit peers (insert slot visible) seen' aliases'
        (env.set slot held) env'') :=
    second (insert slot visible) seen' aliases' _ env'' back sees.2 bindsBody byUseBody drops bound
  have kept : aliases slot = none := sharing.fresh slot fresh
  rw [common_letIn]
  by_cases shared : isShared (common value seen aliases) = true
  · rw [if_pos shared] at dropsBody ⊢
    cases found : seen.prior (common value seen aliases) with
    | some prior =>
      -- The value was seen: it is held by an earlier local, and running it does nothing else.
      simp only [found, Bool.and_eq_true] at dropsBody
      rw [Seen.prior, Option.map_eq_some_iff] at found
      obtain ⟨entry, found, rfl⟩ := found
      have same : entry.1 = common value seen aliases := by simpa using List.find?_some found
      obtain ⟨⟨seenBy, kept'⟩, held⟩ := sharing.held entry (List.mem_of_find?_eq_some found)
      rw [same] at held
      rw [share_plain shared dropsBody.1, (held dropsBody.1).2 back] at runValue
      rw [eval_letIn, ← runValue, pure_bind]
      exact runBody dropsBody.2 (sharing.rename fresh low seenBy kept')
    | none =>
      simp only [found] at dropsBody
      simp only
      rw [eval_binding total, runValue, eval_letIn]
      by_cases plain : plainOperation steady (common value seen aliases) = true
      · -- The value is what it is in the locals around it, so the local bound to it holds it.
        obtain ⟨result, here⟩ := eval_shared total shared plain env'
        have seesValue := sees_common sees.1 sharing plain
        rw [share_plain shared plain, here back] at runValue
        rw [← runValue, pure_bind, pure_bind]
        have bound := sharing.bindLocal names fresh low result
        refine runBody dropsBody (bound.see (Set.mem_insert _ _) kept fun _ =>
          ⟨sees_mono (Set.subset_insert slot visible) plain seesValue, fun back => ?_⟩)
        rw [← eval_agree M _ back seesValue (sharing.bindBox_visible names fresh result), here back,
          bindBox_same names low]
      · refine congrArg _ (funext fun held => runBody dropsBody ?_)
        exact (sharing.bindLocal names fresh low held).see (Set.mem_insert _ _) kept
          fun plain' => absurd plain' plain
  · rw [if_neg shared] at dropsBody ⊢
    rw [eval_binding total, runValue, eval_letIn]
    exact congrArg _ (funext fun held =>
      runBody dropsBody (sharing.bindLocal names fresh low held))

/-- A node that is neither a use nor a binding runs alike where its children do. -/
theorem RunsAlike.ordinary (names : Names lets limit peers) {abiOf : AbiOf} {e : CExpr}
    (plain : ordinary e = true)
    (below : ∀ child ∈ e.children, RunsAlike M steady lets limit peers abiOf child) :
    RunsAlike M steady lets limit peers abiOf e := by
  intro visible seen aliases env env' back sees binds byUse drops sharing
  have length : (e.children.map fun child => common child seen aliases).length =
      e.children.length := List.length_map _
  obtain ⟨pick, whole⟩ := share_ordinary abiOf peers
    (ordinary_withChildren plain length)
  rw [common_ordinary plain, ← withChildren_map, whole, children_withChildren length,
    withChildren, head_withChildren length, ← scopes_fst, List.map_map]
  refine eval_withChildren M e back ?_ ?_
  · intro slot member
    rcases byUse.here with use | none
    · cases e with
      | loc => cases plain
      | _ => cases use
    · rw [none] at member
      exact absurd member List.not_mem_nil
  · refine forall₂_mapIdx e.scopes fun index scope member back values => ?_
    obtain ⟨child, slots⟩ := scope
    have among : child ∈ e.children := mem_children_of_scopes member
    have fresh : ∀ slot ∈ slots, slot ∉ visible ∧ slot < limit ∧ slot ∉ lets := by
      intro slot here
      obtain ⟨absent, low, bound⟩ := binds.slots member slot here
      refine ⟨absent, low, fun inLets => ?_⟩
      obtain ⟨value, body, ty, same⟩ := bound.mp inLets
      rw [same] at plain
      cases plain
    have extended := sharing.extend names fresh (M.lit .unit) values
    have run := below child among _ seen aliases _ _ back (sees.child member)
      (binds.child member) (byUse.child child among)
      (dropsPlain_ordinary plain drops child among) extended
    by_cases picked : pick index = true
    · rw [if_pos picked]
      exact (eval_boxed extended (sees.child member) back).trans run
    · rw [if_neg picked]
      exact run

/-- Every expression runs alike. -/
theorem runsAlike [LawfulMonad m] (total : TotalIntegers M steady) (names : Names lets limit peers)
    (abiOf : AbiOf) (e : CExpr) : RunsAlike M steady lets limit peers abiOf e := by
  induction e using childInduction with
  | node e below =>
    by_cases plain : SharedBoxes.ordinary e = true
    · exact .ordinary names plain below
    · cases e with
      | loc slot ty =>
        intro visible seen aliases env env' back sees binds byUse drops sharing
        rw [common_loc, share_loc]
        simp only [eval]
        exact congrArg pure (sharing.renamed slot sees).2
      | letIn slot value body ty =>
        exact .letIn total names (below value (by simp [children]))
          (below body (by simp [children]))
      | _ => exact absurd rfl plain

/-- Nothing is renamed or seen where a body starts. -/
theorem Sharing.start (names : Names lets limit peers) {entry : Set LocalId}
    (parameters : ∀ slot ∈ entry, slot < limit ∧ slot ∉ lets) (env : Locals V) :
    Sharing M steady lets limit peers entry [] (fun _ => none) env env := by
  refine ⟨fun slot member => ⟨⟨member, rfl⟩, rfl⟩, fun _ _ => rfl,
    fun slot member => (parameters slot member).1, fun slot member _ peer found => ?_,
    fun entry member => absurd member List.not_mem_nil⟩
  exact absurd (names.bound slot peer found).1 (parameters slot member).2

/-- Where no node names locals besides its uses, only uses name locals. -/
theorem namesByUse_of_not_external (e : CExpr) (external : hasExternalLocals e = false) :
    (e.Throughout fun e => isExternal e = true ∨ e.asLocal.isSome = true ∨ e.ownSlots = []) →
      NamesByUse e := by
  induction e using childInduction with
  | node e below =>
    intro throughout
    rw [hasExternalLocals, fold_eq, Bool.or_eq_false_iff] at external
    refine .node ?_ fun child member => ?_
    · refine throughout.here.resolve_left ?_
      rw [external.1]
      exact Bool.false_ne_true
    · refine below child member ?_ (throughout.child child member)
      have all := List.any_eq_false.mp external.2 _ (List.mem_map_of_mem member)
      rwa [id, Bool.not_eq_true] at all

/-- Whether the pass leaves a body as it is: it is large, names locals that are not uses, or has no
integer that is worth boxing once. -/
def leaves (abiOf : AbiOf) (body : CExpr) (next : Nat) : Bool :=
  decide (256 < nodeCount body) || hasExternalLocals body ||
    (candidates abiOf (common body [] fun _ => none) ([], next)).1.isEmpty

end Run

/-- A body in which boxes are shared runs like the body in every machine, where the pass leaves the
body as it is or no operation that it does not bind again reads a definition that is not steady. The
body names its locals by uses, as bodies do before references are counted, and binds each local at
most once on a path. -/
theorem rewrite_alike [LawfulMonad m] {M : Machine m V} {steady : DefId → Bool}
    (total : TotalIntegers M steady) (abiOf : AbiOf) {body : CExpr} {entry lets : Set LocalId}
    {next : Nat} (sees : body.Sees entry) (binds : Binds lets next body entry)
    (parameters : ∀ slot ∈ entry, slot < next ∧ slot ∉ lets)
    (early : body.Throughout fun e =>
      isExternal e = true ∨ e.asLocal.isSome = true ∨ e.ownSlots = [])
    (plain : leaves abiOf body next = true ∨ dropsPlain steady body [] (fun _ => none) = true) :
    Alike M (rewrite abiOf body next).1 body := by
  intro back env
  by_cases left : leaves abiOf body next = true
  · have same : (rewrite abiOf body next).1 = body := by
      rw [leaves, Bool.or_eq_true, Bool.or_eq_true, decide_eq_true_eq] at left
      by_cases large : 256 < nodeCount body
      · rw [rewrite, if_pos large]
      · by_cases external : hasExternalLocals body = true
        · rw [rewrite, if_neg large, if_pos external]
        · have empty := left.resolve_left fun either => either.elim large external
          rw [rewrite, if_neg large, if_neg external]
          simp only [empty, if_true]
    rw [same]
  · have drops := plain.resolve_left left
    rw [Bool.not_eq_true, leaves, Bool.or_eq_false_iff, Bool.or_eq_false_iff,
      decide_eq_false_iff_not] at left
    obtain ⟨⟨small, external⟩, some⟩ := left
    have names : Names lets next (candidates abiOf (common body [] fun _ => none) ([], next)).1 :=
      (numbered_candidates _ (lets_common body entry [] (fun _ => none) binds) ([], next)
        ⟨Nat.le_refl next, fun _ member => absurd member List.not_mem_nil, List.nodup_nil,
          fun _ member => absurd member List.not_mem_nil⟩).namesOf
    have run := runsAlike total names abiOf body entry [] (fun _ => none) env env back sees binds
      (namesByUse_of_not_external body external early) drops (.start names parameters env)
    rw [rewrite, if_neg small, external]
    simp only [Bool.false_eq_true, if_false, some]
    exact run

/-- A machine that counts how often a definition is read and returns the count. -/
def counting : Machine (StateM Nat) Nat where
  lit _ := 1
  global _ := fun count => (count, count + 1)
  prim _ values := pure (values.foldl (· + ·) 0)
  foreign _ values := pure (values.foldl (· + ·) 0)
  apply _ values _ := pure (values.foldl (· + ·) 0)
  test value := pure (value != 0)
  closure _ captures _ := pure (captures.foldl (· + ·) 0)
  data _ _ _ fields _ := pure (fields.foldl (· + ·) 0)
  tag _ value := pure value
  field _ _ value _ := pure value
  spread values := pure (values.foldl (· + ·) 0)
  components value := pure [value]
  dup _ := pure ()
  drop _ := pure ()
  reset value := pure value
  freeReuse _ := pure ()
  loop _ values := pure (values.foldl (· + ·) 0)
  holeStart := pure 0
  holeFill _ value _ := pure value
  holeClose _ value := pure value
  trap := pure 0

/-- `let v = operand + 1`, `let w = operand + 1`, and the pair of both. -/
def pairOf (operand : CExpr) : CExpr :=
  .letIn 1 (.prim .intAdd [operand, .lit (.int 1) int] int)
    (.letIn 2 (.prim .intAdd [operand, .lit (.int 1) int] int)
      (.makeData 0 [.loc 1 int, .loc 2 int] none 0 none .unit) .unit) .unit

/-- The bindings of a pair of sums. -/
theorem binds_pairOf {operand : CExpr} (leaf : operand.children = []) {bound : Set LocalId}
    (first : 1 ∉ bound) (second : 2 ∉ bound) : Binds {1, 2} 3 (pairOf operand) bound := by
  have operandBinds (bound : Set LocalId) : Binds {1, 2} 3 operand bound := by
    refine .none ?_ fun child member => absurd (leaf ▸ member) List.not_mem_nil
    rw [leaf, List.map_nil]
    exact List.map_eq_nil_iff.mp (operand.scopes_fst.trans leaf)
  have literal (value : Lit) (ty : Ty) (bound : Set LocalId) :
      Binds {1, 2} 3 (.lit value ty) bound :=
    .none rfl fun _ member => absurd member List.not_mem_nil
  have use (slot : LocalId) (ty : Ty) (bound : Set LocalId) : Binds {1, 2} 3 (.loc slot ty) bound :=
    .none rfl fun _ member => absurd member List.not_mem_nil
  have sum (bound : Set LocalId) :
      Binds {1, 2} 3 (.prim .intAdd [operand, .lit (.int 1) int] int) bound := by
    refine .none rfl ?_
    simp only [children, List.forall_mem_cons, List.not_mem_nil, false_implies, implies_true,
      and_true]
    exact ⟨operandBinds bound, literal _ _ bound⟩
  refine .letIn first (by decide) (by simp) (sum _) (.letIn ?_ (by decide) (by simp) (sum _) ?_)
  · simpa using second
  · refine .none rfl ?_
    simp only [children, List.forall_mem_cons, List.not_mem_nil, false_implies, implies_true,
      and_true]
    exact ⟨use _ _ _, use _ _ _⟩

/-- Whether a node names locals only by using one, or is one the pass does not look into. -/
def namesEarly (e : CExpr) : Bool := isExternal e || e.asLocal.isSome || e.ownSlots.isEmpty

/-- An expression whose nodes are all early names its locals by uses. -/
theorem early_of_everywhere {e : CExpr} (succeeds : everywhere namesEarly e = true) :
    e.Throughout fun e => isExternal e = true ∨ e.asLocal.isSome = true ∨ e.ownSlots = [] := by
  refine (throughout_of_everywhere succeeds).imp fun e early => ?_
  rw [namesEarly, Bool.or_eq_true, Bool.or_eq_true, List.isEmpty_iff, or_assoc] at early
  exact early

/-- Calling conventions that pass everything boxed. -/
def noRegisters : AbiOf := fun _ => ⟨false, []⟩

/-- Where no definition is steady, counting is a machine with total integers. -/
theorem counting_total : TotalIntegers counting fun _ => false :=
  ⟨fun value => congrArg pure (Nat.zero_add value), fun _ _ values => ⟨values.foldl _ 0, rfl⟩,
    fun _ steady => absurd steady Bool.false_ne_true⟩

/-- The pair of `x + 1` twice is boxed once and runs as before. -/
theorem rewrite_alike_pairOf : (rewrite noRegisters (pairOf (.loc 0 int)) 3).1 =
    .letIn 1 (.prim .intAdd [.loc 0 int, .lit (.int 1) int] int)
      (.letIn 3 (.prim .intBox [.loc 1 int] int)
        (.makeData 0 [.loc 3 int, .loc 3 int] none 0 none .unit) .unit) .unit ∧
      Alike counting (rewrite noRegisters (pairOf (.loc 0 int)) 3).1 (pairOf (.loc 0 int)) := by
  have sees : (pairOf (.loc 0 int)).Sees {0} := by simp [pairOf, Sees, SeesAll]
  refine ⟨by decide, rewrite_alike counting_total noRegisters sees
    (binds_pairOf rfl (by simp) (by simp)) (fun slot member => ?_) (early_of_everywhere (by decide))
    (.inr (by decide))⟩
  rw [Set.mem_singleton_iff.mp member]
  exact ⟨by decide, by simp⟩

/-- The pair of `tick + 1` twice reads `tick` twice, and once when boxes are shared. -/
theorem rewrite_reads_once : (pairOf (.global ⟨0, 0⟩ int)).Sees ∅ ∧
    Binds {1, 2} 3 (pairOf (.global ⟨0, 0⟩ int)) ∅ ∧
    ((pairOf (.global ⟨0, 0⟩ int)).Throughout fun e =>
      isExternal e = true ∨ e.asLocal.isSome = true ∨ e.ownSlots = []) ∧
    TotalIntegers counting (fun _ => false) ∧
    (eval counting (pairOf (.global ⟨0, 0⟩ int)) (fun _ => pure 0) (fun _ => 0)).run 0 = (3, 2) ∧
    (eval counting (rewrite noRegisters (pairOf (.global ⟨0, 0⟩ int)) 3).1 (fun _ => pure 0)
      (fun _ => 0)).run 0 = (2, 1) :=
  ⟨by simp [pairOf, Sees, SeesAll], binds_pairOf rfl (by simp) (by simp),
    early_of_everywhere (by decide), counting_total, rfl, rfl⟩

end SharedBoxes

end Fai
