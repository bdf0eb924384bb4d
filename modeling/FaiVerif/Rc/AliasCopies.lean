import FaiVerif.Core.Eval
import FaiVerif.Rc.AliasTable

/-!
# Copies of code

Pattern compilation copies an arm into every branch that takes it, so the slots of the arm are bound
in every copy. The table stays right there: copies bind a slot to the same local, and a binding that
was removed once is removed in every later copy, because the representation its removal depends on
is one for the whole body.
-/

namespace Fai

namespace Aliases

open CExpr

/-- What a node binds, where `code` gives the value of each slot that is bound to a local: the
bindings of such a slot are all of this value, and no loop carries one or a local that one names. -/
def BindsCopies (code : LocalId → Option CExpr) : CExpr → Prop
  | .letIn slot value _ _ => code slot = value.named.map fun _ => value
  | .letMany slots _ _ _ => ∀ slot ∈ slots, code slot = none
  | .reset _ token _ _ => code token = none
  | .holeStart hole _ _ => code hole = none
  | .join params _ _ => ∀ slot ∈ params, code slot = none ∧
      ∀ other value, code other = some value → value.named ≠ some slot
  | _ => True

/-- The bindings of a slot to a local are all of one value, and no loop carries one or a local that
one names. -/
def Copied (code : LocalId → Option CExpr) (e : CExpr) : Prop := e.Throughout (BindsCopies code)

/-- Two types have the same representation. -/
def Same (a b : Ty) : Prop := sameRepresentationType a b = true

/-- Types have the same representation when they are equal or both variables. -/
theorem same_iff {a b : Ty} : Same a b ↔ a = b ∨ (a.isVar = true ∧ b.isVar = true) := by
  rw [Same, sameRepresentationType, Bool.or_eq_true, decide_eq_true_eq, Bool.and_eq_true]

/-- A type has its own representation. -/
theorem Same.refl (a : Ty) : Same a a := same_iff.mpr (.inl rfl)

/-- Sameness of representation is symmetric. -/
theorem Same.symm {a b : Ty} (same : Same a b) : Same b a := by
  rw [same_iff] at same ⊢
  exact same.imp Eq.symm And.symm

/-- Sameness of representation is transitive. -/
theorem Same.trans {a b c : Ty} (first : Same a b) (second : Same b c) : Same a c := by
  rw [same_iff] at first second ⊢
  rcases first with rfl | ⟨var, var'⟩
  · exact second
  · rcases second with rfl | ⟨_, var''⟩
    · exact .inr ⟨var, var'⟩
    · exact .inr ⟨var, var''⟩

/-- Every typed occurrence of a local has the representation of a type. -/
def Fits (types : Types) (slot : LocalId) (ty : Ty) : Prop :=
  ∃ known, types slot = some (some known) ∧ Same known ty

/-- What the occurrences of a local agree on is decided by `agrees`. -/
theorem agrees_iff {types : Types} {slot : LocalId} {ty : Ty} :
    agrees types slot ty = true ↔ Fits types slot ty := by
  constructor
  · intro agreed
    cases found : types slot with
    | none =>
      rw [agrees, found] at agreed
      cases agreed
    | some old =>
      cases old with
      | none =>
        rw [agrees, found] at agreed
        cases agreed
      | some known =>
        rw [agrees, found] at agreed
        exact ⟨known, found, agreed⟩
  · rintro ⟨known, found, same⟩
    rw [agrees, found]
    exact same

/-- A local fits every type of one representation. -/
theorem Fits.same {types : Types} {slot : LocalId} {ty ty' : Ty} (fits : Fits types slot ty)
    (same : Same ty ty') : Fits types slot ty' := by
  obtain ⟨known, found, here⟩ := fits
  exact ⟨known, found, here.trans same⟩

/-- The types a local fits have one representation. -/
theorem Fits.unique {types : Types} {slot : LocalId} {ty ty' : Ty} (fits : Fits types slot ty)
    (fits' : Fits types slot ty') : Same ty ty' := by
  obtain ⟨known, found, here⟩ := fits
  obtain ⟨known', found', here'⟩ := fits'
  rw [found, Option.some.injEq, Option.some.injEq] at found'
  rw [← found'] at here'
  exact here.symm.trans here'

/-- A type whose values are represented uniformly and not as an option without a wrapper. -/
def Uniform (decls : TypeDecls) (ty : Ty) : Prop :=
  uniformAlias ty = true ∧ decls.nicheScheme ty = none

/-- Uniformity is a matter of representation. -/
theorem Uniform.same {decls : TypeDecls} {ty ty' : Ty} (uniform : Uniform decls ty)
    (same : Same ty ty') : Uniform decls ty' := by
  rcases same_iff.mp same with rfl | ⟨_, var⟩
  · exact uniform
  · cases ty' with
    | var => exact ⟨rfl, rfl⟩
    | _ => cases var

/-- A binding is removed when its type is uniform and both locals fit it. -/
theorem removes_iff {decls : TypeDecls} {types : Types} {slot original : LocalId} {ty : Ty} :
    removes decls types slot original ty = true ↔
      Uniform decls ty ∧ Fits types slot ty ∧ Fits types original ty := by
  rw [removes, Bool.and_eq_true, Bool.and_eq_true, Bool.and_eq_true, agrees_iff, agrees_iff,
    Option.isNone_iff_eq_none, Uniform, and_assoc]

section Notes

/-- An occurrence of a local at a type is noted. -/
def Seen (types : Types) (slot : LocalId) (ty : Ty) : Prop :=
  ∃ old, types slot = some old ∧ ∀ known ∈ old, Same known ty

/-- Another occurrence keeps what was noted. -/
theorem Seen.note {types : Types} {slot : LocalId} {ty : Ty} (seen : Seen types slot ty)
    (other : LocalId) (ty' : Ty) : Seen (note types other ty') slot ty := by
  obtain ⟨old, found, same⟩ := seen
  unfold Aliases.note
  by_cases marker : ty' = .error
  · rw [if_pos marker]
    exact ⟨old, found, same⟩
  · rw [if_neg marker]
    by_cases here : slot = other
    · subst here
      refine ⟨old.filter fun known => sameRepresentationType known ty', ?_, ?_⟩
      · simp only [if_true, found]
      · intro known member
        exact same known (Option.mem_filter_iff.mp member).1
    · exact ⟨old, (if_neg here).trans found, same⟩

/-- A noted occurrence is noted. -/
theorem seen_note (types : Types) (slot : LocalId) {ty : Ty} (typed : ty ≠ .error) :
    Seen (note types slot ty) slot ty := by
  unfold Aliases.note Seen
  rw [if_neg typed]
  simp only [if_true]
  cases types slot with
  | none =>
    refine ⟨_, rfl, fun known member => ?_⟩
    rw [Option.mem_some_iff.mp member]
    exact .refl _
  | some old =>
    refine ⟨_, rfl, fun known member => ?_⟩
    exact (Option.mem_filter_iff.mp member).2

/-- What an expression notes of its own before its children do. -/
def noteOf : CExpr → Types → Types
  | .loc slot ty, types => note types slot ty
  | .letIn slot value _ _, types => note types slot value.ty
  | _, types => types

/-- An expression notes its own occurrence and then what its children note. -/
theorem collectTypes_eq (e : CExpr) (types : Types) :
    collectTypes e types = collectAll e.children (noteOf e types) := by
  cases e <;> simp only [collectTypes, collectAll, children, noteOf]

/-- Operands keep what was noted when each does. -/
theorem seen_collectAll {es : List CExpr} {slot : LocalId} {ty : Ty}
    (each : ∀ e ∈ es, ∀ types, Seen types slot ty → Seen (collectTypes e types) slot ty) :
    ∀ types, Seen types slot ty → Seen (collectAll es types) slot ty := by
  induction es with
  | nil => exact fun types seen => seen
  | cons e es hypothesis =>
    intro types seen
    rw [collectAll]
    exact hypothesis (fun e member => each e (List.mem_cons_of_mem _ member)) _
      (each e List.mem_cons_self types seen)

/-- Collecting keeps what was noted. -/
theorem Seen.collectTypes {slot : LocalId} {ty : Ty} (e : CExpr) :
    ∀ {types : Types}, Seen types slot ty → Seen (collectTypes e types) slot ty := by
  induction e using childInduction with
  | node e below =>
    intro types seen
    rw [collectTypes_eq]
    apply seen_collectAll (fun child member types seen => below child member seen) _
    cases e with
    | loc other ty' => exact seen.note other ty'
    | letIn other value => exact seen.note other value.ty
    | _ => exact seen

/-- Every typed occurrence of a local in an expression is noted. -/
def Noted (types : Types) (e : CExpr) : Prop :=
  e.Throughout fun e => ∀ slot ty, e = .loc slot ty → ty ≠ .error → Seen types slot ty

/-- Operands are noted when each is once it is collected. -/
theorem noted_collectAll {final : Types} {es : List CExpr}
    (each : ∀ e ∈ es, ∀ types, (∀ slot ty, Seen (collectTypes e types) slot ty →
      Seen final slot ty) → Noted final e) :
    ∀ types, (∀ slot ty, Seen (collectAll es types) slot ty → Seen final slot ty) →
      ∀ e ∈ es, Noted final e := by
  induction es with
  | nil => exact fun types kept e member => absurd member List.not_mem_nil
  | cons e es hypothesis =>
    intro types kept
    rw [collectAll] at kept
    refine List.forall_mem_cons.mpr ⟨each e List.mem_cons_self types fun slot ty seen => ?_, ?_⟩
    · exact kept slot ty (seen_collectAll (fun e _ _ seen => seen.collectTypes e) _ seen)
    · exact hypothesis (fun e member => each e (List.mem_cons_of_mem _ member)) _ kept

/-- An expression is noted by what keeps its collection. -/
theorem noted_of_kept {final : Types} (e : CExpr) : ∀ types,
    (∀ slot ty, Seen (collectTypes e types) slot ty → Seen final slot ty) → Noted final e := by
  induction e using childInduction with
  | node e below =>
    intro types kept
    rw [collectTypes_eq] at kept
    refine .node ?_ (noted_collectAll (fun child member types => below child member types) _ kept)
    rintro slot ty rfl typed
    exact kept slot ty (seen_note types slot typed)

/-- Collecting notes every typed occurrence of a local. -/
theorem noted_collectTypes (e : CExpr) (types : Types) : Noted (collectTypes e types) e :=
  noted_of_kept e types fun _ _ seen => seen

end Notes

section Table

variable (decls : TypeDecls) (types : Types) (code : LocalId → Option CExpr)

/-- Every binding in an expression that ends in a local is a removed one. -/
def Flat (s : Aliases) : CExpr → Prop
  | .loc _ _ => True
  | .letIn slot value body _ => (s.locals slot).isSome = true ∧ Flat s value ∧ Flat s body
  | _ => False

/-- What an entry of the table says: a slot is always bound to one value, which is a local under
removed bindings, and all three locals have one uniform representation. -/
structure Entry (s : Aliases) (slot target : LocalId) (value : CExpr) (last : LocalId) (ty : Ty) :
    Prop where
  /-- Every binding of the slot is of this value. -/
  coded : code slot = some value
  /-- The value is this local. -/
  named : value.named = some last
  /-- The bindings in the value are removed. -/
  flat : Flat s value
  /-- The slot has the representation of the type. -/
  slotFits : Fits types slot ty
  /-- The local has it. -/
  lastFits : Fits types last ty
  /-- What the slot is called has it. -/
  targetFits : Fits types target ty
  /-- The representation is uniform. -/
  uniform : Uniform decls ty
  /-- What the slot is called was given a type. -/
  given : (s.retainedTypes target).isSome = true
  /-- The local was removed or given a type. -/
  settled : (s.locals last).isSome = true ∨ (s.retainedTypes last).isSome = true
  /-- What the slot is called is named by a binding. -/
  called : ∃ other value, code other = some value ∧ value.named = some target

/-- The invariant of the table. -/
structure Table (s : Aliases) : Prop where
  /-- What an entry says. -/
  entry : ∀ slot target, s.locals slot = some target →
    ∃ value last ty, Entry decls types code s slot target value last ty
  /-- A given type is one the local has. -/
  given : ∀ slot ty, s.retainedTypes slot = some ty → Fits types slot ty ∧ Uniform decls ty

variable {decls types code}

/-- Removed bindings stay removed. -/
theorem Flat.later {bound : Set LocalId} {s s' : Aliases} (later : Later bound s s')
    {e : CExpr} : Flat s e → Flat s' e := by
  induction e using CExpr.induct with
  | loc => exact fun _ => trivial
  | letIn slot value body ty valueHypothesis bodyHypothesis =>
    exact fun flat => ⟨later.grown slot flat.1, valueHypothesis flat.2.1, bodyHypothesis flat.2.2⟩
  | _ => exact fun flat => flat.elim

/-- The bindings of an expression that is rewritten to a local are removed. -/
theorem rewrite_flat : ∀ (e : CExpr) {s : Aliases} {bound : Set LocalId}, e.ShadowFree bound →
    ∀ original ty, (rewrite decls types e s).1 = .loc original ty →
      Flat (rewrite decls types e s).2 e
  | .loc _ _, _, _, _ => fun _ _ _ => trivial
  | .letIn slot value body _, s, bound, free => by
    intro original ty same
    cases found : replacement decls types slot (rewrite decls types value s).1 with
    | none =>
      rw [rewrite_kept found] at same
      cases same
    | some first =>
      obtain ⟨ty', here, _⟩ := loc_of_replacement found
      rw [rewrite_removed found] at same ⊢
      have flat := rewrite_flat value free.2.1 first ty' here
      have next := later_insert free.1 (rewrite decls types value s).2
        ((rewrite decls types value s).2.target first) (rewrite decls types value s).1.ty
      have rest := @rewrite_later decls types body ((rewrite decls types value s).2.insert slot
        ((rewrite decls types value s).2.target first) (rewrite decls types value s).1.ty) _
        free.2.2
      refine ⟨rest.grown slot ?_, (flat.later next).later rest,
        rewrite_flat body free.2.2 original ty same⟩
      exact (congrArg Option.isSome (if_pos rfl)).trans rfl
  | .lit _ _, _, _, _ | .global _ _, _, _, _ | .error _, _, _, _ | .makeClosure _ _ _ _, _, _, _
  | .prim _ _ _, _, _, _ | .foreign _ _ _ _, _, _, _ | .makeData _ _ _ _ _ _, _, _, _
  | .spread _ _, _, _, _ | .recur _ _, _, _, _ | .app _ _ _ _ _, _, _, _ | .ite _ _ _ _, _, _, _
  | .letMany _ _ _ _, _, _, _ | .reset _ _ _ _, _, _, _ | .holeStart _ _ _, _, _, _
  | .freeReuse _ _ _, _, _, _ | .dup _ _ _, _, _, _ | .drop _ _ _, _, _, _ | .join _ _ _, _, _, _
  | .dataTag _ _ _, _, _, _ | .dataField _ _ _ _ _, _, _, _ | .holeClose _ _ _, _, _, _
  | .holeFill _ _ _ _, _, _, _ => by
    intro original ty same
    rw [rewrite] at same
    cases same

/-- Nothing is known of a slot that is bound to no local. -/
theorem Table.none_of_code {s : Aliases} (table : Table decls types code s) {slot : LocalId}
    (other : code slot = none) : s.locals slot = none := by
  cases found : s.locals slot with
  | none => rfl
  | some target =>
    obtain ⟨value, last, ty, entry⟩ := table.entry slot target found
    rw [entry.coded] at other
    cases other

variable (decls types) in
/-- A value whose bindings were all removed once is rewritten to a local again. -/
def Collapses (s : Aliases) (value : CExpr) : Prop :=
  ∀ last ty, value.named = some last → Flat s value → Fits types last ty → Uniform decls ty →
    (s.locals last).isSome = true ∨ (s.retainedTypes last).isSome = true →
    ∃ original ty', (rewrite decls types value s).1 = .loc original ty' ∧ Uniform decls ty' ∧
      Same ty ty' ∧ Fits types original ty'

/-- A binding that is kept binds a slot that was never removed. -/
theorem none_of_kept {s : Aliases} {bound : Set LocalId} {slot : LocalId} {value : CExpr}
    (coded : code slot = value.named.map fun _ => value) (table : Table decls types code s)
    (later : Later (Insert.insert slot bound) s (rewrite decls types value s).2)
    (collapses : Collapses decls types s value)
    (keeps : replacement decls types slot (rewrite decls types value s).1 = none) :
    (rewrite decls types value s).2.locals slot = none := by
  rw [later.kept slot (Set.mem_insert _ _)]
  cases found : s.locals slot with
  | none => rfl
  | some target =>
    obtain ⟨value', last, ty, entry⟩ := table.entry slot target found
    have same := entry.coded
    rw [coded, Option.map_eq_some_iff] at same
    obtain ⟨_, _, same⟩ := same
    subst same
    obtain ⟨original, ty', here, uniform, same, fits⟩ :=
      collapses last ty entry.named entry.flat entry.lastFits entry.uniform entry.settled
    have removed : removes decls types slot original ty' = true :=
      removes_iff.mpr ⟨uniform, entry.slotFits.same same, fits⟩
    rw [replacement, here] at keeps
    simp only [asLocal, CExpr.ty, Option.filter_some, removed, if_true] at keeps
    cases keeps

/-- What the table says once a binding is removed. -/
theorem Table.insert {s : Aliases} {slot last : LocalId} {value : CExpr} {ty : Ty}
    (table : Table decls types code s) (coded : code slot = some value)
    (named : value.named = some last) (flat : Flat s value) (uniform : Uniform decls ty)
    (fits : Fits types slot ty) (fits' : Fits types (s.target last) ty) :
    Table decls types code (s.insert slot (s.target last) ty) := by
  have next : Later ∅ s (s.insert slot (s.target last) ty) :=
    later_insert (Set.notMem_empty slot) s _ ty
  have typed : ((s.insert slot (s.target last) ty).retainedTypes (s.target last)).isSome = true :=
    (congrArg Option.isSome (if_pos rfl)).trans rfl
  -- The local is called by itself, or it has an entry that says the same of what it is called.
  have origin : s.target last = last ∨ ∃ value last' ty',
      Entry decls types code s last (s.target last) value last' ty' := by
    cases found : s.locals last with
    | none => exact .inl (target_of_none found)
    | some target =>
      have called : s.target last = target := by rw [Aliases.target, found]; rfl
      rw [called]
      exact .inr (table.entry last target found)
  have lastFits : Fits types last ty := by
    rcases origin with same | ⟨_, _, _, entry⟩
    · rwa [same] at fits'
    · exact entry.slotFits.same (entry.targetFits.unique fits')
  have settled : ((s.insert slot (s.target last) ty).locals last).isSome = true ∨
      ((s.insert slot (s.target last) ty).retainedTypes last).isSome = true := by
    cases found : s.locals last with
    | none =>
      rw [target_of_none found] at typed ⊢
      exact .inr typed
    | some target => exact .inl (next.grown last (by rw [found]; rfl))
  have called : ∃ other value', code other = some value' ∧
      value'.named = some (s.target last) := by
    rcases origin with same | ⟨_, _, _, entry⟩
    · exact ⟨slot, value, coded, by rw [same]; exact named⟩
    · exact entry.called
  refine ⟨fun other target found => ?_, fun other ty' found => ?_⟩
  · by_cases same : other = slot
    · have here : some (s.target last) = some target := (if_pos same).symm.trans found
      rw [Option.some.injEq] at here
      subst here same
      exact ⟨value, last, ty, coded, named, flat.later next, fits, lastFits, fits', uniform, typed,
        settled, called⟩
    · have here : s.locals other = some target := (if_neg same).symm.trans found
      obtain ⟨value', last', ty', entry⟩ := table.entry other target here
      exact ⟨value', last', ty', entry.coded, entry.named, entry.flat.later next, entry.slotFits,
        entry.lastFits, entry.targetFits, entry.uniform, next.typed _ entry.given,
        entry.settled.imp (next.grown _) (next.typed _), entry.called⟩
  · by_cases same : other = s.target last
    · have here : some ty = some ty' := (if_pos same).symm.trans found
      rw [Option.some.injEq] at here
      subst here same
      exact ⟨fits', uniform⟩
    · exact table.given other ty' ((if_neg same).symm.trans found)

/-- A local that fits a type with an entry is rewritten to a local that fits it. -/
theorem collapses_loc {s : Aliases} {slot : LocalId} {ty : Ty} (noted : Noted types (.loc slot ty))
    (table : Table decls types code s) : Collapses decls types s (.loc slot ty) := by
  intro last ty' named _ fits uniform settled
  have rewritten : rewrite decls types (.loc slot ty) s =
      (.loc (s.target slot) (s.useTy (s.target slot) ty), s) := by rw [rewrite]
  rw [CExpr.named, Option.some.injEq] at named
  subst named
  refine ⟨s.target slot, s.useTy (s.target slot) ty, by rw [rewritten], ?_⟩
  -- What the slot is called has the slot's representation.
  have targetFits {other : Ty} (fits : Fits types slot other) :
      Fits types (s.target slot) other := by
    cases found : s.locals slot with
    | none => rwa [target_of_none found]
    | some target =>
      obtain ⟨_, _, _, entry⟩ := table.entry slot target found
      rw [Aliases.target, found]
      exact entry.targetFits.same (entry.slotFits.unique fits)
  by_cases marker : ty = .error
  · have given : (s.retainedTypes (s.target slot)).isSome = true := by
      cases found : s.locals slot with
      | none =>
        rw [target_of_none found]
        apply settled.resolve_left
        rw [found]
        exact Bool.false_ne_true
      | some target =>
        obtain ⟨_, _, _, entry⟩ := table.entry slot target found
        rw [Aliases.target, found]
        exact entry.given
    obtain ⟨known, found⟩ := Option.isSome_iff_exists.mp given
    obtain ⟨fits', uniform'⟩ := table.given _ known found
    have typed : s.useTy (s.target slot) ty = known := by
      rw [useTy, if_pos marker, found, Option.getD_some]
    rw [typed]
    exact ⟨uniform', (targetFits fits).unique fits', fits'⟩
  · have typed : s.useTy (s.target slot) ty = ty := if_neg marker
    obtain ⟨old, found, all⟩ := noted.here slot ty rfl marker
    obtain ⟨known, found', same⟩ := fits
    rw [found, Option.some.injEq] at found'
    subst found'
    have here : Same ty' ty := same.symm.trans (all known rfl)
    rw [typed]
    exact ⟨uniform.same here, here, targetFits ⟨known, found, all known rfl⟩⟩

variable (decls types code) in
/-- What rewriting keeps of copies. -/
structure Copies (s : Aliases) (visible : Set LocalId) (e : CExpr) : Prop where
  /-- The table stays right. -/
  steady : Steady decls types e s visible
  /-- The invariant holds after it. -/
  table : Table decls types code (rewrite decls types e s).2
  /-- A value that was flattened before is again. -/
  collapses : Collapses decls types s e

/-- An expression that is no local under bindings collapses. -/
theorem collapses_compound {s : Aliases} {e : CExpr} (unnamed : e.named = none) :
    Collapses decls types s e := by
  intro last ty named
  rw [unnamed] at named
  cases named

/-- A binding of a copy keeps what its value and its body do. -/
theorem copies_letIn {s : Aliases} {visible bound : Set LocalId} {slot : LocalId}
    {value body : CExpr} {ty : Ty} (sees : value.Sees visible)
    (free : (CExpr.letIn slot value body ty).ShadowFree bound) (inside : visible ⊆ bound)
    (coded : code slot = value.named.map fun _ => value) (table : Table decls types code s)
    (tracks : Tracks s visible) (first : Copies decls types code s visible value)
    (second : ∀ s', Table decls types code s' → Tracks s' (Insert.insert slot visible) →
      Copies decls types code s' (Insert.insert slot visible) body) :
    Copies decls types code s visible (.letIn slot value body ty) := by
  have wider := Set.subset_insert slot bound
  have later : Later (Insert.insert slot bound) s (rewrite decls types value s).2 :=
    rewrite_later value free.2.1
  have tracks' := tracks.later (later.anti wider) inside
  cases found : replacement decls types slot (rewrite decls types value s).1 with
  | none =>
    have none := none_of_kept coded table later first.collapses found
    have rest := second _ first.table (tracks'.insert none)
    refine ⟨⟨first.steady, ?_⟩, ?_, fun last ty' _ flat => ?_⟩
    · simp only [found]
      exact ⟨none, rest.steady⟩
    · rw [rewrite_kept found]
      exact rest.table
    · have again := later.grown slot flat.1
      rw [none] at again
      cases again
  | some original =>
    obtain ⟨ty', same, removed⟩ := loc_of_replacement found
    obtain ⟨uniform, fits, fits'⟩ := removes_iff.mp removed
    obtain ⟨last, named, seen, rfl⟩ :=
      rewrite_locates value sees free.2.1 (inside.trans wider) first.steady tracks original ty' same
    have flat := rewrite_flat value free.2.1 _ ty' same
    obtain ⟨seen', fixed⟩ := tracks last seen
    have called : (rewrite decls types value s).2.target last = s.target last :=
      later.target (Set.mem_insert_of_mem _ (inside seen))
    have called' : (rewrite decls types value s).2.target (s.target last) = s.target last :=
      (later.target (Set.mem_insert_of_mem _ (inside seen'))).trans fixed
    rw [named, Option.map_some] at coded
    have entered : Table decls types code ((rewrite decls types value s).2.insert slot
        (s.target last) ty') := by
      rw [← called] at fits' ⊢
      exact first.table.insert coded named flat uniform fits fits'
    have rest := second _ entered
      (tracks'.removed (fun member => free.1 (inside member)) seen' called' ty')
    have rewritten : rewrite decls types (.letIn slot value body ty) s =
        rewrite decls types body
          ((rewrite decls types value s).2.insert slot (s.target last) ty') := by
      rw [rewrite_removed found, called', same, CExpr.ty]
    have grown : Later bound s ((rewrite decls types value s).2.insert slot (s.target last) ty') :=
      (later.anti wider).trans (later_insert free.1 _ _ _)
    refine ⟨⟨first.steady, ?_⟩, ?_, fun last' other named' flat' fits uniform settled => ?_⟩
    · simp only [found, called']
      rw [same, CExpr.ty]
      exact rest.steady
    · rw [rewritten]
      exact rest.table
    · obtain ⟨inner, found', origin⟩ := named_letIn named'
      rw [rewritten]
      have flattened := flat'.2.2.later grown
      rcases origin with ⟨rfl, valued⟩ | ⟨_, rfl⟩
      · rw [named, Option.some.injEq] at valued
        subst valued
        have here :
            ((rewrite decls types value s).2.insert inner (s.target last) ty').locals inner =
              some (s.target last) := if_pos rfl
        obtain ⟨value', last', ty'', entry⟩ := entered.entry inner (s.target last) here
        have agree := entry.coded
        rw [coded, Option.some.injEq] at agree
        subst agree
        have agree := entry.named
        rw [named, Option.some.injEq] at agree
        subst agree
        exact rest.collapses inner other found' flattened
          (entry.slotFits.same (entry.lastFits.unique fits)) uniform (.inl (by rw [here]; rfl))
      · exact rest.collapses inner other found' flattened fits uniform
          (settled.imp (grown.grown _) (grown.typed _))

mutual

/-- Rewriting copies keeps the table right. -/
theorem copies_rewrite : ∀ (e : CExpr) {s : Aliases} {visible bound : Set LocalId},
    e.Sees visible → e.ShadowFree bound → visible ⊆ bound → Copied code e → Noted types e →
    Table decls types code s → Tracks s visible → Copies decls types code s visible e
  | .lit _ _, _, _, _, _, _, _, _, _, table, _ | .global _ _, _, _, _, _, _, _, _, _, table, _
  | .error _, _, _, _, _, _, _, _, _, table, _
  | .makeClosure _ _ _ _, _, _, _, _, _, _, _, _, table, _ => by
    refine ⟨trivial, ?_, collapses_compound rfl⟩
    rw [rewrite]
    exact table
  | .loc _ _, _, _, _, _, _, _, _, noted, table, _ => by
    refine ⟨trivial, ?_, collapses_loc noted table⟩
    rw [rewrite]
    exact table
  | .prim _ args _, s, _, _, sees, free, inside, copied, noted, table, tracks
  | .foreign _ args _ _, s, _, _, sees, free, inside, copied, noted, table, tracks
  | .spread args _, s, _, _, sees, free, inside, copied, noted, table, tracks
  | .recur args _, s, _, _, sees, free, inside, copied, noted, table, tracks => by
    obtain ⟨steady, table'⟩ :=
      copies_rewriteAll args sees free inside copied.child noted.child table tracks
    refine ⟨steady, ?_, collapses_compound rfl⟩
    rw [rewrite]
    exact table'
  | .makeData _ args _ _ _ _, s, _, _, sees, free, inside, copied, noted, table, tracks => by
    obtain ⟨steady, table'⟩ :=
      copies_rewriteAll args sees.1 free inside copied.child noted.child table tracks
    refine ⟨steady, ?_, collapses_compound rfl⟩
    rw [rewrite]
    exact table'
  | .app func args _ _ _, s, _, _, sees, free, inside, copied, noted, table, tracks => by
    have first := copies_rewrite func sees.1 free.1 inside (copied.child func List.mem_cons_self)
      (noted.child func List.mem_cons_self) table tracks
    obtain ⟨steady, table'⟩ := copies_rewriteAll args sees.2.1 free.2 inside
      (fun e member => copied.child e (List.mem_cons_of_mem _ member))
      (fun e member => noted.child e (List.mem_cons_of_mem _ member)) first.table
      (tracks.later (rewrite_later func free.1) inside)
    refine ⟨⟨first.steady, steady⟩, ?_, collapses_compound rfl⟩
    rw [rewrite]
    exact table'
  | .ite cond yes no _, s, _, _, sees, free, inside, copied, noted, table, tracks => by
    have first := copies_rewrite cond sees.1 free.1 inside (copied.child cond (by simp [children]))
      (noted.child cond (by simp [children])) table tracks
    have tracks' : Tracks (rewrite decls types cond s).2 _ :=
      tracks.later (rewrite_later cond free.1) inside
    have second := copies_rewrite yes sees.2.1 free.2.1 inside
      (copied.child yes (by simp [children])) (noted.child yes (by simp [children])) first.table
      tracks'
    have third := copies_rewrite no sees.2.2 free.2.2 inside (copied.child no (by simp [children]))
      (noted.child no (by simp [children])) second.table
      (tracks'.later (rewrite_later yes free.2.1) inside)
    refine ⟨⟨first.steady, second.steady, third.steady⟩, ?_, collapses_compound rfl⟩
    rw [rewrite]
    exact third.table
  | .letIn slot value body _, s, _, bound, sees, free, inside, copied, noted, table, tracks => by
    have first := copies_rewrite value sees.1 free.2.1 (inside.trans (Set.subset_insert slot bound))
      (copied.child value (by simp [children]))
      (noted.child value (by simp [children])) table tracks
    exact copies_letIn sees.1 free inside copied.here table tracks first fun s' table' tracks' =>
      copies_rewrite body sees.2 free.2.2 (Set.insert_subset_insert inside)
        (copied.child body (by simp [children])) (noted.child body (by simp [children])) table'
        tracks'
  | .letMany slots value body _, s, _, bound, sees, free, inside, copied, noted, table, tracks => by
    have first := copies_rewrite value sees.1 free.2.1 inside
      (copied.child value (by simp [children]))
      (noted.child value (by simp [children])) table tracks
    have none : ∀ slot ∈ slots, (rewrite decls types value s).2.locals slot = none :=
      fun slot member => first.table.none_of_code (copied.here slot member)
    have second := copies_rewrite body sees.2 free.2.2 (Set.union_subset_union_left _ inside)
      (copied.child body (by simp [children])) (noted.child body (by simp [children])) first.table
      ((tracks.later (rewrite_later value free.2.1) inside).union none)
    refine ⟨⟨first.steady, none, second.steady⟩, ?_, collapses_compound rfl⟩
    rw [rewrite]
    exact second.table
  | .reset value token body _, s, _, bound, sees, free, inside, copied, noted, table, tracks => by
    have first := copies_rewrite value sees.1 free.2.1 inside
      (copied.child value (by simp [children]))
      (noted.child value (by simp [children])) table tracks
    have none := first.table.none_of_code copied.here
    have second := copies_rewrite body sees.2 free.2.2 (Set.insert_subset_insert inside)
      (copied.child body (by simp [children])) (noted.child body (by simp [children])) first.table
      ((tracks.later (rewrite_later value free.2.1) inside).insert none)
    refine ⟨⟨first.steady, none, second.steady⟩, ?_, collapses_compound rfl⟩
    rw [rewrite]
    exact second.table
  | .holeStart hole body _, s, _, bound, sees, free, inside, copied, noted, table, tracks => by
    have none := table.none_of_code copied.here
    have rest := copies_rewrite body sees free.2 (Set.insert_subset_insert inside)
      (copied.child body List.mem_cons_self) (noted.child body List.mem_cons_self) table
      (tracks.insert none)
    refine ⟨⟨none, rest.steady⟩, ?_, collapses_compound rfl⟩
    rw [rewrite]
    exact rest.table
  | .join params body _, s, visible, _, sees, free, inside, copied, noted, table, tracks => by
    have rest := copies_rewrite body sees.2 free inside (copied.child body List.mem_cons_self)
      (noted.child body List.mem_cons_self) table tracks
    have apart : ∀ slot ∈ visible, slot ∉ params → s.target slot ∉ params := by
      intro slot _ other among
      cases found : s.locals slot with
      | none =>
        rw [target_of_none found] at among
        exact other among
      | some target =>
        obtain ⟨_, _, _, entry⟩ := table.entry slot target found
        obtain ⟨binder, value, coded, named⟩ := entry.called
        rw [Aliases.target, found, Option.getD_some] at among
        exact (copied.here target among).2 binder value coded named
    refine ⟨⟨⟨fun slot member => table.none_of_code (copied.here slot member).1, apart⟩,
      rest.steady⟩, ?_, collapses_compound rfl⟩
    rw [rewrite]
    exact rest.table
  | .freeReuse _ body _, s, _, _, sees, free, inside, copied, noted, table, tracks
  | .dup _ body _, s, _, _, sees, free, inside, copied, noted, table, tracks
  | .drop _ body _, s, _, _, sees, free, inside, copied, noted, table, tracks
  | .holeFill _ body _ _, s, _, _, sees, free, inside, copied, noted, table, tracks
  | .holeClose _ body _, s, _, _, sees, free, inside, copied, noted, table, tracks => by
    have rest := copies_rewrite body sees.2 free inside (copied.child body List.mem_cons_self)
      (noted.child body List.mem_cons_self) table tracks
    refine ⟨rest.steady, ?_, collapses_compound rfl⟩
    rw [rewrite]
    exact rest.table
  | .dataTag base _ _, s, _, _, sees, free, inside, copied, noted, table, tracks => by
    have rest := copies_rewrite base sees free inside (copied.child base List.mem_cons_self)
      (noted.child base List.mem_cons_self) table tracks
    refine ⟨rest.steady, ?_, collapses_compound rfl⟩
    rw [rewrite]
    exact rest.table
  | .dataField base _ _ _ _, s, _, _, sees, free, inside, copied, noted, table, tracks => by
    have rest := copies_rewrite base sees.1 free inside (copied.child base List.mem_cons_self)
      (noted.child base List.mem_cons_self) table tracks
    refine ⟨rest.steady, ?_, collapses_compound rfl⟩
    rw [rewrite]
    exact rest.table

/-- Rewriting operands that are copies keeps the table right. -/
theorem copies_rewriteAll : ∀ (es : List CExpr) {s : Aliases} {visible bound : Set LocalId},
    SeesAll es visible → ShadowFreeAll es bound → visible ⊆ bound → (∀ e ∈ es, Copied code e) →
    (∀ e ∈ es, Noted types e) → Table decls types code s → Tracks s visible →
    SteadyAll decls types es s visible ∧ Table decls types code (rewriteAll decls types es s).2
  | [], s, _, _, _, _, _, _, _, table, _ => by
    rw [rewriteAll]
    exact ⟨trivial, table⟩
  | e :: rest, s, _, _, sees, free, inside, copied, noted, table, tracks => by
    have first := copies_rewrite e sees.1 free.1 inside (copied e List.mem_cons_self)
      (noted e List.mem_cons_self) table tracks
    obtain ⟨steady, table'⟩ := copies_rewriteAll rest sees.2 free.2 inside
      (fun e member => copied e (List.mem_cons_of_mem _ member))
      (fun e member => noted e (List.mem_cons_of_mem _ member)) first.table
      (tracks.later (rewrite_later e free.1) inside)
    rw [rewriteAll]
    exact ⟨⟨first.steady, steady⟩, table'⟩

end

/-- The types that coalescing a body reads. -/
def bodyTypes (body : CExpr) : Types := collectTypes body fun _ => none

/-- Where the bindings of a slot to a local are copies, the table stays right for the whole body. -/
theorem steady_of_copies {body : CExpr} {entry : Set LocalId} (sees : body.Sees entry)
    (free : body.ShadowFree entry) (copied : Copied code body) :
    Steady decls (bodyTypes body) body empty entry := by
  have table : Table decls (bodyTypes body) code empty :=
    ⟨fun slot target found => (by cases found), fun slot ty found => (by cases found)⟩
  exact (copies_rewrite body sees free (Set.Subset.refl entry) copied
    (noted_collectTypes body _) table fun slot member => ⟨member, rfl⟩).steady

end Table

end Aliases

end Fai
