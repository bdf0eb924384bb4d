import FaiVerif.Collections.Dict

/-!
# Balance of the ordered dictionary

The sizes cached in the nodes are exact, and at every node the children hold at most one entry
together or each side at most three times the other. One rotation repairs more than a single
insertion or removal: it is enough that the heavy side holds at most four and a half times the
light one and two more, which is what `join` leaves behind at every step of its descent.
-/

namespace Fai.Collections

namespace Dict

variable {κ ν ω : Type}

/-- The entries of a tree, from left to right. -/
def entries : Dict κ ν → List (κ × ν)
  | empty => []
  | node _ l k v r => entries l ++ (k, v) :: entries r

/-- Every node caches the number of its entries. -/
def SizesExact : Dict κ ν → Prop
  | empty => True
  | node s l k v r => s = (entries (node s l k v r)).length ∧ SizesExact l ∧ SizesExact r

/-- The balance bound between two sides. -/
def Even (a b : Nat) : Prop := a + b ≤ 1 ∨ a ≤ delta * b ∧ b ≤ delta * a

/-- The balance bound holds at every node. -/
def Balanced : Dict κ ν → Prop
  | empty => True
  | node _ l _ _ r => Even (entries l).length (entries r).length ∧ Balanced l ∧ Balanced r

/-- Exact sizes and balance, in terms of the cached sizes. -/
def Weighed : Dict κ ν → Prop
  | empty => True
  | node s l _ _ r => s = size l + size r + 1 ∧ Even (size l) (size r) ∧ Weighed l ∧ Weighed r

/-- The cached size of a weighed tree is the number of its entries. -/
theorem Weighed.size_eq : ∀ {d : Dict κ ν}, Weighed d → size d = (entries d).length
  | empty, _ => rfl
  | node s l k v r, weighed => by
    obtain ⟨exact_, _, left, right⟩ := weighed
    have leftSize := left.size_eq
    have rightSize := right.size_eq
    simp only [size, entries, List.length_append, List.length_cons]
    omega

/-- A tree is weighed exactly when its sizes are exact and it is balanced. -/
theorem weighed_iff : ∀ {d : Dict κ ν}, Weighed d ↔ SizesExact d ∧ Balanced d
  | empty => ⟨fun _ => ⟨trivial, trivial⟩, fun _ => trivial⟩
  | node s l k v r => by
    constructor
    · intro weighed
      have size_ := weighed.size_eq
      obtain ⟨exact_, even, left, right⟩ := weighed
      obtain ⟨leftExact, leftBalanced⟩ := weighed_iff.mp left
      obtain ⟨rightExact, rightBalanced⟩ := weighed_iff.mp right
      rw [left.size_eq, right.size_eq] at even
      exact ⟨⟨size_, leftExact, rightExact⟩, even, leftBalanced, rightBalanced⟩
    · rintro ⟨⟨exact_, leftExact, rightExact⟩, even, leftBalanced, rightBalanced⟩
      have left := weighed_iff.mpr ⟨leftExact, leftBalanced⟩
      have right := weighed_iff.mpr ⟨rightExact, rightBalanced⟩
      rw [← left.size_eq, ← right.size_eq] at even
      refine ⟨?_, even, left, right⟩
      rw [left.size_eq, right.size_eq, exact_]
      simp only [entries, List.length_append, List.length_cons]
      omega

/-- A side that one rotation can still bring down. -/
def Mild (heavy light : Nat) : Prop := 2 * heavy ≤ 9 * light + 4 ∨ heavy ≤ 4

/-- A node of balanced sides is weighed. -/
theorem weighed_bin {l r : Dict κ ν} (k : κ) (v : ν) (left : Weighed l) (right : Weighed r)
    (even : Even (size l) (size r)) : Weighed (bin l k v r) :=
  ⟨rfl, even, left, right⟩

/-- The empty tree has no entries. -/
@[simp] theorem size_empty : size (empty : Dict κ ν) = 0 := rfl

/-- A node reads its cached size. -/
@[simp] theorem size_node (s : Nat) (l : Dict κ ν) (k : κ) (v : ν) (r : Dict κ ν) :
    size (node s l k v r) = s := rfl

/-- The size of a node. -/
@[simp] theorem size_bin (l : Dict κ ν) (k : κ) (v : ν) (r : Dict κ ν) :
    size (bin l k v r) = size l + size r + 1 := rfl

/-- The entries of a node. -/
@[simp] theorem entries_bin (l : Dict κ ν) (k : κ) (v : ν) (r : Dict κ ν) :
    entries (bin l k v r) = entries l ++ (k, v) :: entries r := rfl

/-- A rotation keeps the entries and their order. -/
@[simp] theorem entries_balance (l : Dict κ ν) (k : κ) (v : ν) (r : Dict κ ν) :
    entries (balance l k v r) = entries l ++ (k, v) :: entries r := by
  unfold balance
  by_cases few : size l + size r ≤ 1
  · rw [if_pos few, entries_bin]
  rw [if_neg few]
  by_cases heavyRight : size r > delta * size l
  · rw [if_pos heavyRight]
    cases r with
    | empty => rfl
    | node s rl rk rv rr =>
      simp only
      by_cases single : size rl < ratio * size rr
      · rw [if_pos single]
        simp [entries]
      · rw [if_neg single]
        cases rl with
        | empty => simp [entries]
        | node => simp [entries]
  rw [if_neg heavyRight]
  by_cases heavyLeft : size l > delta * size r
  · rw [if_pos heavyLeft]
    cases l with
    | empty => rfl
    | node s ll lk lv lr =>
      simp only
      by_cases single : size lr < ratio * size ll
      · rw [if_pos single]
        simp [entries]
      · rw [if_neg single]
        cases lr with
        | empty => simp [entries]
        | node => simp [entries]
  · rw [if_neg heavyLeft, entries_bin]

/-- One rotation restores the balance of two mildly uneven sides. -/
theorem weighed_balance {l r : Dict κ ν} (k : κ) (v : ν) (left : Weighed l) (right : Weighed r)
    (mildLeft : Mild (size l) (size r)) (mildRight : Mild (size r) (size l)) :
    Weighed (balance l k v r) := by
  unfold Mild at mildLeft mildRight
  unfold balance
  by_cases few : size l + size r ≤ 1
  · rw [if_pos few]
    exact weighed_bin k v left right (.inl few)
  rw [if_neg few]
  by_cases heavyRight : size r > delta * size l
  · rw [if_pos heavyRight]
    unfold delta at heavyRight
    cases r with
    | empty => simp at heavyRight
    | node s rl rk rv rr =>
      obtain ⟨rightSize, rightEven, rightLeft, rightRight⟩ := right
      simp only [size_node] at few heavyRight mildLeft mildRight
      simp only
      by_cases single : size rl < ratio * size rr
      · rw [if_pos single]
        unfold ratio at single
        unfold Even delta at rightEven
        refine weighed_bin _ _ (weighed_bin _ _ left rightLeft ?_) rightRight ?_
        · unfold Even delta
          omega
        · unfold Even delta
          simp only [size_bin]
          omega
      · rw [if_neg single]
        unfold ratio at single
        unfold Even delta at rightEven
        cases rl with
        | empty =>
          simp only [size_empty] at single rightEven rightSize
          refine weighed_bin _ _ (weighed_bin _ _ left rightLeft ?_) rightRight ?_
          · unfold Even delta
            simp only [size_empty]
            omega
          · unfold Even delta
            simp only [size_bin, size_empty]
            omega
        | node s' rll rlk rlv rlr =>
          obtain ⟨innerSize, innerEven, innerLeft, innerRight⟩ := rightLeft
          simp only [size_node] at single rightEven rightSize
          unfold Even delta at innerEven
          refine weighed_bin _ _ (weighed_bin _ _ left innerLeft ?_)
            (weighed_bin _ _ innerRight rightRight ?_) ?_
          · unfold Even delta
            omega
          · unfold Even delta
            omega
          · unfold Even delta
            simp only [size_bin]
            omega
  rw [if_neg heavyRight]
  by_cases heavyLeft : size l > delta * size r
  · rw [if_pos heavyLeft]
    unfold delta at heavyLeft
    cases l with
    | empty => simp at heavyLeft
    | node s ll lk lv lr =>
      obtain ⟨leftSize, leftEven, leftLeft, leftRight⟩ := left
      simp only [size_node] at few heavyLeft mildLeft mildRight
      simp only
      by_cases single : size lr < ratio * size ll
      · rw [if_pos single]
        unfold ratio at single
        unfold Even delta at leftEven
        refine weighed_bin _ _ leftLeft (weighed_bin _ _ leftRight right ?_) ?_
        · unfold Even delta
          omega
        · unfold Even delta
          simp only [size_bin]
          omega
      · rw [if_neg single]
        unfold ratio at single
        unfold Even delta at leftEven
        cases lr with
        | empty =>
          simp only [size_empty] at single leftEven leftSize
          refine weighed_bin _ _ leftLeft (weighed_bin _ _ leftRight right ?_) ?_
          · unfold Even delta
            simp only [size_empty]
            omega
          · unfold Even delta
            simp only [size_bin, size_empty]
            omega
        | node s' lrl lrk lrv lrr =>
          obtain ⟨innerSize, innerEven, innerLeft, innerRight⟩ := leftRight
          simp only [size_node] at single leftEven leftSize
          unfold Even delta at innerEven
          refine weighed_bin _ _ (weighed_bin _ _ leftLeft innerLeft ?_)
            (weighed_bin _ _ innerRight right ?_) ?_
          · unfold Even delta
            omega
          · unfold Even delta
            omega
          · unfold Even delta
            simp only [size_bin]
            omega
  · rw [if_neg heavyLeft]
    refine weighed_bin k v left right (.inr ⟨?_, ?_⟩)
    · omega
    · omega

/-- The size of a rotated tree. -/
theorem size_balance {l r : Dict κ ν} (k : κ) (v : ν) (left : Weighed l) (right : Weighed r)
    (mildLeft : Mild (size l) (size r)) (mildRight : Mild (size r) (size l)) :
    size (balance l k v r) = size l + size r + 1 := by
  rw [(weighed_balance k v left right mildLeft mildRight).size_eq, left.size_eq, right.size_eq,
    entries_balance, List.length_append, List.length_cons]
  omega

/-- Rebuilding a node, rotating it or not, keeps the entries and their order. -/
@[simp] theorem entries_rebuild (heavy : Prop) [Decidable heavy] (l : Dict κ ν) (k : κ) (v : ν)
    (r : Dict κ ν) :
    entries (if heavy then balance l k v r else bin l k v r) =
      entries l ++ (k, v) :: entries r := by
  split
  · exact entries_balance l k v r
  · exact entries_bin l k v r

/-- Rebuilding a node of mildly uneven sides, rotating it unless the sides are balanced. -/
theorem weighed_rebuild (heavy : Prop) [Decidable heavy] {l r : Dict κ ν} (k : κ) (v : ν)
    (left : Weighed l) (right : Weighed r) (mildLeft : Mild (size l) (size r))
    (mildRight : Mild (size r) (size l)) (even : ¬ heavy → Even (size l) (size r)) :
    Weighed (if heavy then balance l k v r else bin l k v r) ∧
      size (if heavy then balance l k v r else bin l k v r) = size l + size r + 1 := by
  by_cases rotated : heavy
  · rw [if_pos rotated]
    exact ⟨weighed_balance k v left right mildLeft mildRight,
      size_balance k v left right mildLeft mildRight⟩
  · rw [if_neg rotated]
    exact ⟨weighed_bin k v left right (even rotated), rfl⟩

/-- Linking keeps the entries and their order. -/
@[simp] theorem entries_join (l : Dict κ ν) (k : κ) (v : ν) (r : Dict κ ν) :
    entries (join l k v r) = entries l ++ (k, v) :: entries r := by
  fun_induction join l k v r with
  | case1 => rfl
  | case2 => simp [entries, *]
  | case3 => rfl
  | case4 => simp [entries, *]
  | case5 => rfl

/-- Linking two balanced trees of any sizes gives a balanced tree. -/
theorem weighed_join {l r : Dict κ ν} (k : κ) (v : ν) (left : Weighed l) (right : Weighed r) :
    Weighed (join l k v r) := by
  fun_induction join l k v r with
  | case1 l heavy => simp at heavy
  | case2 l s rl rk rv rr heavy induct =>
    obtain ⟨rightSize, even, rightLeft, rightRight⟩ := right
    have inner := induct left rightLeft
    have innerSize : size (join l k v rl) = size l + size rl + 1 := by
      rw [inner.size_eq, left.size_eq, rightLeft.size_eq, entries_join, List.length_append,
        List.length_cons]
      omega
    unfold delta at heavy
    unfold Even delta at even
    simp only [size_node] at heavy
    refine weighed_balance rk rv inner rightRight ?_ ?_
    · unfold Mild
      omega
    · unfold Mild
      omega
  | case3 r _ heavy => simp at heavy
  | case4 r s ll lk lv lr light heavy induct =>
    obtain ⟨leftSize, even, leftLeft, leftRight⟩ := left
    have inner := induct leftRight right
    have innerSize : size (join lr k v r) = size lr + size r + 1 := by
      rw [inner.size_eq, leftRight.size_eq, right.size_eq, entries_join, List.length_append,
        List.length_cons]
      omega
    unfold delta at heavy
    unfold Even delta at even
    simp only [size_node] at heavy
    refine weighed_balance lk lv leftLeft inner ?_ ?_
    · unfold Mild
      omega
    · unfold Mild
      omega
  | case5 l r lightRight lightLeft =>
    refine weighed_bin k v left right (.inr ⟨?_, ?_⟩)
    · omega
    · omega

/-- The least entry and the rest are the entries of the tree. -/
theorem entries_takeMin (l : Dict κ ν) (k : κ) (v : ν) (r : Dict κ ν) :
    (takeMin l k v r).2 :: entries (takeMin l k v r).1 = entries l ++ (k, v) :: entries r := by
  fun_induction takeMin l k v r with
  | case1 => rfl
  | case2 s ll lk lv lr k v r l2 mk mv taken induct =>
    rw [taken] at induct
    rw [entries_rebuild, ← List.cons_append, induct]
    simp [entries]

/-- Detaching the least entry leaves a balanced tree. -/
theorem weighed_takeMin {l r : Dict κ ν} (k : κ) (v : ν) (left : Weighed l) (right : Weighed r)
    (even : Even (size l) (size r)) :
    Weighed (takeMin l k v r).1 ∧ size (takeMin l k v r).1 = size l + size r := by
  fun_induction takeMin l k v r with
  | case1 => exact ⟨right, by simp⟩
  | case2 s ll lk lv lr k v r l2 mk mv taken induct =>
    obtain ⟨leftSize, leftEven, leftLeft, leftRight⟩ := left
    obtain ⟨inner, innerSize⟩ := induct leftLeft leftRight leftEven
    rw [taken] at inner innerSize
    simp only at inner innerSize
    unfold Even delta at even
    simp only [size_node] at even
    have rebuilt := weighed_rebuild (size r > delta * size l2) k v inner right
      (by unfold Mild; omega) (by unfold Mild; omega) (by unfold Even delta; omega)
    refine ⟨rebuilt.1, ?_⟩
    rw [rebuilt.2, size_node]
    omega

/-- Merging keeps the entries and their order. -/
@[simp] theorem entries_join2 (l r : Dict κ ν) : entries (join2 l r) = entries l ++ entries r := by
  unfold join2
  cases l with
  | empty => rfl
  | node =>
    cases r with
    | empty => simp [entries]
    | node s rl rk rv rr =>
      have taken := entries_takeMin rl rk rv rr
      simp only [entries_join]
      rw [taken]
      rfl

/-- Merging two balanced trees of any sizes gives a balanced tree. -/
theorem weighed_join2 {l r : Dict κ ν} (left : Weighed l) (right : Weighed r) :
    Weighed (join2 l r) := by
  unfold join2
  cases l with
  | empty => exact right
  | node =>
    cases r with
    | empty => exact left
    | node s rl rk rv rr =>
      obtain ⟨_, even, rightLeft, rightRight⟩ := right
      exact weighed_join _ _ left (weighed_takeMin rk rv rightLeft rightRight even).1

/-- The size of a merged tree. -/
theorem size_join2 {l r : Dict κ ν} (left : Weighed l) (right : Weighed r) :
    size (join2 l r) = size l + size r := by
  rw [(weighed_join2 left right).size_eq, left.size_eq, right.size_eq, entries_join2,
    List.length_append]

section Keyed

variable (order : KeyOrder κ)

/-- Inserting keeps the balance and adds at most one entry. -/
theorem weighed_insert (key : κ) (value : ν) : ∀ {d : Dict κ ν}, Weighed d →
    Weighed (insert order key value d) ∧ size d ≤ size (insert order key value d) ∧
      size (insert order key value d) ≤ size d + 1
  | empty, _ => ⟨⟨rfl, .inl (by simp), trivial, trivial⟩, by simp [insert, singleton]⟩
  | node s l k v r, weighed => by
    have whole := weighed
    obtain ⟨size_, even, left, right⟩ := weighed
    unfold Even delta at even
    by_cases less : order.compare key k < 0
    · obtain ⟨inner, lower, upper⟩ := weighed_insert key value left
      have rebuilt := weighed_rebuild (size (insert order key value l) > delta * size r) k v inner
        right (by unfold Mild; omega) (by unfold Mild; omega) (by unfold Even delta; omega)
      simp only [insert, if_pos less]
      refine ⟨rebuilt.1, ?_⟩
      rw [rebuilt.2, size_node]
      omega
    by_cases greater : order.compare key k > 0
    · obtain ⟨inner, lower, upper⟩ := weighed_insert key value right
      have rebuilt := weighed_rebuild (size (insert order key value r) > delta * size l) k v left
        inner (by unfold Mild; omega) (by unfold Mild; omega) (by unfold Even delta; omega)
      simp only [insert, if_neg less, if_pos greater]
      refine ⟨rebuilt.1, ?_⟩
      rw [rebuilt.2, size_node]
      omega
    · simp only [insert, if_neg less, if_neg greater]
      exact ⟨whole, Nat.le_refl _, Nat.le_succ _⟩

/-- Removing keeps the balance and drops at most one entry. -/
theorem weighed_remove (key : κ) : ∀ {d : Dict κ ν}, Weighed d →
    Weighed (remove order key d) ∧ size (remove order key d) ≤ size d ∧
      size d ≤ size (remove order key d) + 1
  | empty, _ => ⟨trivial, Nat.le_refl _, Nat.le_succ _⟩
  | node s l k v r, weighed => by
    obtain ⟨size_, even, left, right⟩ := weighed
    unfold Even delta at even
    by_cases less : order.compare key k < 0
    · obtain ⟨inner, lower, upper⟩ := weighed_remove key left
      have rebuilt := weighed_rebuild (size r > delta * size (remove order key l)) k v inner right
        (by unfold Mild; omega) (by unfold Mild; omega) (by unfold Even delta; omega)
      simp only [remove, if_pos less]
      refine ⟨rebuilt.1, ?_⟩
      rw [rebuilt.2, size_node]
      omega
    by_cases greater : order.compare key k > 0
    · obtain ⟨inner, lower, upper⟩ := weighed_remove key right
      have rebuilt := weighed_rebuild (size l > delta * size (remove order key r)) k v left inner
        (by unfold Mild; omega) (by unfold Mild; omega) (by unfold Even delta; omega)
      simp only [remove, if_neg less, if_pos greater]
      refine ⟨rebuilt.1, ?_⟩
      rw [rebuilt.2, size_node]
      omega
    · simp only [remove, if_neg less, if_neg greater]
      refine ⟨weighed_join2 left right, ?_⟩
      rw [size_join2 left right, size_node]
      omega

/-- Both halves of a split are balanced. -/
theorem weighed_splitMember (key : κ) {d : Dict κ ν} (weighed : Weighed d) :
    Weighed (splitMember order key d).1 ∧ Weighed (splitMember order key d).2.2 := by
  fun_induction splitMember order key d with
  | case1 => exact ⟨trivial, trivial⟩
  | case2 s l k v r less ll present lr split induct =>
    obtain ⟨_, _, left, right⟩ := weighed
    have halves := induct left
    rw [split] at halves
    exact ⟨halves.1, weighed_join k v halves.2 right⟩
  | case3 s l k v r _ greater rl present rr split induct =>
    obtain ⟨_, _, left, right⟩ := weighed
    have halves := induct right
    rw [split] at halves
    exact ⟨weighed_join k v left halves.1, halves.2⟩
  | case4 s l k v r => exact ⟨weighed.2.2.1, weighed.2.2.2⟩

/-- A union is balanced. -/
theorem weighed_union : ∀ {a b : Dict κ ν}, Weighed a → Weighed b → Weighed (union order a b)
  | empty, _, _, right => right
  | node _ _ _ _ _, empty, left, _ => left
  | node _ la ka va ra, node sb lb' kb vb rb', left, right => by
    obtain ⟨_, _, leftLeft, leftRight⟩ := left
    have halves := weighed_splitMember order ka right
    rw [union]
    generalize splitMember order ka (node sb lb' kb vb rb') = split at halves
    exact weighed_join ka va (weighed_union leftLeft halves.1) (weighed_union leftRight halves.2)

/-- An intersection is balanced. -/
theorem weighed_intersection : ∀ {a b : Dict κ ν}, Weighed a → Weighed b →
    Weighed (intersection order a b)
  | empty, _, _, _ => trivial
  | node _ la ka va ra, b, left, right => by
    obtain ⟨_, _, leftLeft, leftRight⟩ := left
    have halves := weighed_splitMember order ka right
    rw [intersection]
    generalize splitMember order ka b = split at halves
    have below := weighed_intersection leftLeft halves.1
    have above := weighed_intersection leftRight halves.2
    by_cases present : split.2.1 = true
    · simp only [present, if_true]
      exact weighed_join ka va below above
    · simp only [present]
      exact weighed_join2 below above

/-- A difference is balanced. -/
theorem weighed_difference {a b : Dict κ ν} (left : Weighed a) :
    Weighed (difference order a b) := by
  fun_induction difference order a b with
  | case1 => exact left
  | case2 a s lb kb vb rb la _ ra split inductLeft inductRight =>
    have halves := weighed_splitMember order kb left
    rw [split] at halves
    exact weighed_join2 (inductLeft halves.1) (inductRight halves.2)

end Keyed

/-- Filtering keeps the balance. -/
theorem weighed_filter (keep : κ → ν → Bool) {d : Dict κ ν} (weighed : Weighed d) :
    Weighed (filter keep d) := by
  fun_induction filter keep d with
  | case1 => trivial
  | case2 s l k v r _ inductLeft inductRight =>
    exact weighed_join k v (inductLeft weighed.2.2.1) (inductRight weighed.2.2.2)
  | case3 s l k v r _ inductLeft inductRight =>
    exact weighed_join2 (inductLeft weighed.2.2.1) (inductRight weighed.2.2.2)

/-- Mapping keeps the sizes. -/
@[simp] theorem size_map (f : κ → ν → ω) (d : Dict κ ν) : size (map f d) = size d := by
  cases d with
  | empty => rfl
  | node => rfl

/-- Mapping keeps the balance. -/
theorem weighed_map (f : κ → ν → ω) : ∀ {d : Dict κ ν}, Weighed d → Weighed (map f d)
  | empty, _ => trivial
  | node s l k v r, weighed => by
    obtain ⟨size_, even, left, right⟩ := weighed
    refine ⟨?_, ?_, weighed_map f left, weighed_map f right⟩
    · rw [size_map, size_map]
      exact size_
    · rw [size_map, size_map]
      exact even

end Dict

end Fai.Collections
