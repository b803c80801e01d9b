import Mathlib.Data.List.Dedup
import TypeSearch.Classes.Build
import TypeSearch.Proofs.Facts.Acyclic

/-!
# Equality classes as a forest

Along the parents of a variable the ranks rise, so the way to the root is shorter than the number
of variables and `root` takes it to its end. After that a class is seen only through `has`, `root`,
`concrete?` and `variableAt`: every operation is described by what it does to these four, and the
facts of classes are read off them.
-/

namespace TypeSearch.Classes

open List

variable {classes next : Classes} {id other : VarId}

/-- The variables that joined form a forest: ranks rise towards the roots, and only roots have a
concrete type. -/
structure IsForest (classes : Classes) : Prop where
  nodup : classes.order.toList.Nodup
  mem_order_iff : ∀ id, id ∈ classes.order.toList ↔ classes.has id = true
  has_parent : ∀ id, classes.has id = true → classes.has (classes.parent id) = true
  rank_lt : ∀ id, classes.parent id ≠ id → classes.rank id < classes.rank (classes.parent id)
  root_of_concrete : ∀ id t, classes.concrete? id = some t → classes.parent id = id
  variableAt_id : ∀ id, (classes.variableAt id).id = id

structure WellFormed (classes : Classes) : Prop extends IsForest classes where
  cached : ∀ facts, classes.cached = some facts → facts = classes.factsAfresh

theorem get?_modify (cells : Std.HashMap VarId Cell) (f : Cell → Cell) (id other : VarId) :
    (cells.modify id f).get? other =
      if other = id then (cells.get? other).map f else cells.get? other := by
  simp only [Std.HashMap.get?_eq_getElem?, Std.HashMap.getElem?_modify, beq_iff_eq]
  by_cases heq : other = id
  · simp [heq]
  · simp [heq, Ne.symm heq]

theorem get?_isSome (classes : Classes) (id : VarId) :
    (classes.cells.get? id).isSome = classes.has id := by
  simp [has]

theorem get?_of_not_has (habsent : classes.has id = false) : classes.cells.get? id = none := by
  rw [← Option.not_isSome_iff_eq_none, get?_isSome, habsent]
  decide

theorem parent_of_not_has (habsent : classes.has id = false) : classes.parent id = id := by
  simp only [parent, get?_of_not_has habsent, Option.map_none, Option.getD_none]

theorem has_of_concrete {t : Ty} (hconcrete : classes.concrete? id = some t) :
    classes.has id = true := by
  by_contra habsent
  simp only [concrete?, get?_of_not_has (Bool.eq_false_of_not_eq_true habsent),
    Option.bind_none, reduceCtorEq] at hconcrete

section Root

variable {steps : Nat} {ρ : VarId → VarId}

def above (classes : Classes) (id : VarId) : Nat :=
  (classes.order.toList.filter fun other => classes.rank id < classes.rank other).length

theorem above_le (classes : Classes) (id : VarId) : classes.above id ≤ classes.order.size := by
  have hle := length_filter_le (fun other => decide (classes.rank id < classes.rank other))
    classes.order.toList
  simpa [above] using hle

theorem IsForest.above_parent_lt (hforest : classes.IsForest) (hchild : classes.parent id ≠ id) :
    classes.above (classes.parent id) < classes.above id := by
  have hrank := hforest.rank_lt id hchild
  have hhas : classes.has id = true := by
    by_contra habsent
    exact hchild (parent_of_not_has (Bool.eq_false_of_not_eq_true habsent))
  have hmem := (hforest.mem_order_iff _).mpr (hforest.has_parent id hhas)
  have hsublist : Sublist
      (classes.order.toList.filter fun other =>
        decide (classes.rank (classes.parent id) < classes.rank other))
      (classes.order.toList.filter fun other => decide (classes.rank id < classes.rank other)) := by
    apply monotone_filter_right
    intro other hother
    simp only [decide_eq_true_eq] at hother ⊢
    exact hrank.trans hother
  refine lt_of_le_of_ne hsublist.length_le fun hlength => ?_
  have hequal := hsublist.eq_of_length hlength
  have hin : classes.parent id ∈
      classes.order.toList.filter fun other => decide (classes.rank id < classes.rank other) :=
    mem_filter.mpr ⟨hmem, decide_eq_true hrank⟩
  rw [← hequal] at hin
  simp at hin

theorem IsForest.parent_of_above (hforest : classes.IsForest) (habove : classes.above id ≤ 0) :
    classes.parent id = id := by
  by_contra hchild
  exact absurd (hforest.above_parent_lt hchild) (by omega)

theorem IsForest.parent_rootWithin (hforest : classes.IsForest)
    (hsteps : classes.above id ≤ steps) :
    classes.parent (classes.rootWithin steps id) = classes.rootWithin steps id := by
  induction steps generalizing id with
  | zero => exact hforest.parent_of_above hsteps
  | succ steps ih =>
    simp only [rootWithin]
    split
    · assumption
    · rename_i hchild
      exact ih (by have := hforest.above_parent_lt hchild; omega)

theorem rootWithin_of_parent (hparent : classes.parent id = id) (steps : Nat) :
    classes.rootWithin steps id = id := by
  cases steps with
  | zero => rfl
  | succ steps => simp [rootWithin, hparent]

theorem IsForest.rootWithin_succ (hforest : classes.IsForest) (hsteps : classes.above id ≤ steps) :
    classes.rootWithin (steps + 1) id = classes.rootWithin steps id := by
  induction steps generalizing id with
  | zero => exact rootWithin_of_parent (hforest.parent_of_above hsteps) 1
  | succ steps ih =>
    by_cases hparent : classes.parent id = id
    · rw [rootWithin_of_parent hparent, rootWithin_of_parent hparent]
    · have habove := hforest.above_parent_lt hparent
      rw [rootWithin, if_neg hparent, ih (by omega), rootWithin, if_neg hparent]

theorem IsForest.parent_root (hforest : classes.IsForest) (id : VarId) :
    classes.parent (classes.root id) = classes.root id :=
  hforest.parent_rootWithin (classes.above_le id)

theorem rootWithin_induct (hstep : ∀ id, ρ (classes.parent id) = ρ id) (steps : Nat) (id : VarId) :
    ρ (classes.rootWithin steps id) = ρ id := by
  induction steps generalizing id with
  | zero => rfl
  | succ steps ih =>
    simp only [rootWithin]
    split
    · rfl
    · rw [ih, hstep]

theorem IsForest.root_eq (hforest : classes.IsForest) (hstep : ∀ id, ρ (classes.parent id) = ρ id)
    (hroot : ∀ id, classes.parent id = id → ρ id = id) : classes.root = ρ := by
  funext id
  rw [← rootWithin_induct hstep classes.order.size id]
  exact (hroot _ (hforest.parent_root id)).symm

theorem root_of_parent (hparent : classes.parent id = id) : classes.root id = id :=
  rootWithin_of_parent hparent _

theorem IsForest.root_parent (hforest : classes.IsForest) (id : VarId) :
    classes.root (classes.parent id) = classes.root id := by
  by_cases hparent : classes.parent id = id
  · rw [hparent]
  · unfold root
    rw [← hforest.rootWithin_succ (classes.above_le id), rootWithin, if_neg hparent]

theorem IsForest.root_root (hforest : classes.IsForest) (id : VarId) :
    classes.root (classes.root id) = classes.root id :=
  root_of_parent (hforest.parent_root id)

theorem IsForest.parent_eq_self_iff (hforest : classes.IsForest) :
    classes.parent id = id ↔ classes.root id = id := by
  refine ⟨root_of_parent, fun hroot => ?_⟩
  rw [← hroot]
  exact hforest.parent_root id

theorem root_of_not_has (habsent : classes.has id = false) : classes.root id = id :=
  root_of_parent (parent_of_not_has habsent)

theorem IsForest.has_root_iff (hforest : classes.IsForest) :
    classes.has (classes.root id) = true ↔ classes.has id = true := by
  constructor
  · intro hroot
    by_contra habsent
    rw [root_of_not_has (Bool.eq_false_of_not_eq_true habsent)] at hroot
    exact habsent hroot
  · intro hhas
    unfold root
    generalize classes.order.size = steps
    induction steps generalizing id with
    | zero => exact hhas
    | succ steps ih =>
      simp only [rootWithin]
      split
      · exact hhas
      · exact ih (hforest.has_parent id hhas)

theorem IsForest.root_of_concrete? (hforest : classes.IsForest) {t : Ty}
    (hconcrete : classes.concrete? id = some t) : classes.root id = id :=
  root_of_parent (hforest.root_of_concrete id t hconcrete)

theorem IsForest.rank_le_rootWithin (hforest : classes.IsForest) (steps : Nat) (id : VarId) :
    classes.rank id ≤ classes.rank (classes.rootWithin steps id) := by
  induction steps generalizing id with
  | zero => exact le_refl _
  | succ steps ih =>
    simp only [rootWithin]
    split
    · exact le_refl _
    · rename_i hchild
      exact (hforest.rank_lt id hchild).le.trans (ih _)

theorem IsForest.rank_lt_root (hforest : classes.IsForest) (hchild : classes.root id ≠ id) :
    classes.rank id < classes.rank (classes.root id) := by
  have hparent : classes.parent id ≠ id := fun hparent => hchild (root_of_parent hparent)
  rw [← hforest.root_parent id]
  exact (hforest.rank_lt id hparent).trans_le (hforest.rank_le_rootWithin _ _)

end Root

section View

/-- The two are the same classes, whatever the ways to their roots. -/
structure Alike (classes next : Classes) : Prop where
  order : next.order = classes.order
  has : next.has = classes.has
  root : next.root = classes.root
  concrete? : next.concrete? = classes.concrete?
  variableAt : next.variableAt = classes.variableAt

theorem Alike.refl (classes : Classes) : classes.Alike classes := ⟨rfl, rfl, rfl, rfl, rfl⟩

theorem Alike.trans {last : Classes} (hleft : classes.Alike next) (hright : next.Alike last) :
    classes.Alike last :=
  ⟨hright.order.trans hleft.order, hright.has.trans hleft.has, hright.root.trans hleft.root,
    hright.concrete?.trans hleft.concrete?, hright.variableAt.trans hleft.variableAt⟩

theorem Alike.factsAfresh (halike : classes.Alike next) :
    next.factsAfresh = classes.factsAfresh := by
  simp only [Classes.factsAfresh, halike.order, halike.root, halike.concrete?, halike.variableAt]

theorem WellFormed.facts_eq (hwf : classes.WellFormed) : classes.facts = classes.factsAfresh := by
  unfold facts
  cases hcached : classes.cached with
  | none => rfl
  | some facts => exact hwf.cached facts hcached

theorem exists_cell (hhas : classes.has id = true) :
    ∃ cell, classes.cells.get? id = some cell ∧ classes.parent id = cell.parent ∧
      classes.rank id = cell.rank ∧ classes.concrete? id = cell.concrete ∧
      classes.variableAt id = cell.member := by
  obtain ⟨cell, hcell⟩ := Option.isSome_iff_exists.mp ((get?_isSome classes id).trans hhas)
  refine ⟨cell, hcell, ?_⟩
  simp only [parent, rank, concrete?, variableAt, hcell, Option.map_some, Option.getD_some,
    Option.bind_some, and_self]

structure Changes (classes next : Classes) (id : VarId) (cell : Cell) : Prop where
  has : next.has = classes.has
  parent : next.parent = Function.update classes.parent id cell.parent
  rank : next.rank = Function.update classes.rank id cell.rank
  concrete? : next.concrete? = Function.update classes.concrete? id cell.concrete
  variableAt : next.variableAt = Function.update classes.variableAt id cell.member

theorem changes_of_modify {f : Cell → Cell} {cell : Cell}
    (hcell : classes.cells.get? id = some cell) (hcells : next.cells = classes.cells.modify id f) :
    Changes classes next id (f cell) := by
  constructor
  · funext other
    simp [has, hcells]
  all_goals
    funext other
    by_cases heq : other = id
    · simp only [parent, rank, concrete?, variableAt, hcells, get?_modify, heq, hcell, if_true,
        Option.map_some, Option.getD_some, Option.bind_some, Function.update_self]
    · simp only [parent, rank, concrete?, variableAt, hcells, get?_modify, heq, if_false,
        Function.update_of_ne heq]

structure Redirects (classes next : Classes) (id root : VarId) : Prop where
  order : next.order = classes.order
  has : next.has = classes.has
  variableAt : next.variableAt = classes.variableAt
  parent : next.parent = Function.update classes.parent id root
  has_root : classes.has root = true
  root_root : classes.root root = root
  root_ne : root ≠ id
  rank_lt : ∀ other, next.parent other ≠ other → next.rank other < next.rank (next.parent other)
  concrete? : ∀ other t, next.concrete? other = some t →
    other ≠ id ∧ classes.concrete? other = some t

variable {root child : VarId}

theorem IsForest.redirect (hforest : classes.IsForest)
    (hredirects : Redirects classes next id root) : next.IsForest := by
  refine ⟨?_, ?_, ?_, hredirects.rank_lt, ?_, ?_⟩
  · rw [hredirects.order]
    exact hforest.nodup
  · rw [hredirects.order, hredirects.has]
    exact hforest.mem_order_iff
  · rw [hredirects.has, hredirects.parent]
    intro other hother
    rw [Function.update_apply]
    split
    · exact hredirects.has_root
    · exact hforest.has_parent other hother
  · intro other t hother
    obtain ⟨hne, hconcrete⟩ := hredirects.concrete? other t hother
    rw [hredirects.parent, Function.update_of_ne hne]
    exact hforest.root_of_concrete other t hconcrete
  · rw [hredirects.variableAt]
    exact hforest.variableAt_id

theorem IsForest.root_redirect (hforest : classes.IsForest)
    (hredirects : Redirects classes next id root)
    (hid : classes.root id = id ∨ classes.root id = root) (other : VarId) :
    next.root other = if classes.root other = id then root else classes.root other := by
  refine congrFun ((hforest.redirect hredirects).root_eq
    (ρ := fun other => if classes.root other = id then root else classes.root other) ?_ ?_) other
  · intro other
    rw [hredirects.parent, Function.update_apply]
    split
    · rename_i heq
      subst heq
      rw [hredirects.root_root, if_neg hredirects.root_ne]
      rcases hid with hid | hid
      · rw [if_pos hid]
      · rw [hid, if_neg hredirects.root_ne]
    · rw [hforest.root_parent]
  · intro other
    rw [hredirects.parent, Function.update_apply]
    split
    · rename_i heq
      exact fun hroot => absurd (hroot.trans heq) hredirects.root_ne
    · rename_i hne
      intro hparent
      rw [root_of_parent hparent, if_neg hne]

def shorten (classes : Classes) (id root : VarId) : Classes :=
  { classes with cells := classes.cells.modify id fun cell => { cell with parent := root } }

theorem has_of_root_ne (hchild : classes.root id ≠ id) : classes.has id = true := by
  by_contra habsent
  exact hchild (root_of_not_has (Bool.eq_false_of_not_eq_true habsent))

theorem WellFormed.shorten (hwf : classes.WellFormed) (hroot : classes.root id = root)
    (hchild : id ≠ root) :
    (classes.shorten id root).WellFormed ∧ classes.Alike (classes.shorten id root) := by
  have hne : classes.root id ≠ id := fun heq => hchild (heq.symm.trans hroot)
  have hhas := has_of_root_ne hne
  obtain ⟨cell, hcell, -, hrank, hconcrete, hmember⟩ := exists_cell hhas
  obtain ⟨hhas', hparent', hrank', hconcrete', hmember'⟩ : Changes classes (classes.shorten id root)
    id _ := changes_of_modify (f := fun cell => { cell with parent := root }) hcell rfl
  rw [← hrank, Function.update_eq_self] at hrank'
  rw [← hconcrete, Function.update_eq_self] at hconcrete'
  rw [← hmember, Function.update_eq_self] at hmember'
  have hredirects : Redirects classes (classes.shorten id root) id root := by
    refine ⟨rfl, hhas', hmember', hparent', ?_, ?_, hchild.symm, ?_, ?_⟩
    · rw [← hroot, hwf.has_root_iff]
      exact hhas
    · rw [← hroot, hwf.root_root]
    · rw [hrank', hparent']
      intro other
      rw [Function.update_apply]
      split
      · rename_i heq
        subst heq
        rw [← hroot]
        exact fun _ => hwf.rank_lt_root hne
      · exact hwf.rank_lt other
    · rw [hconcrete']
      rintro other t hother
      refine ⟨?_, hother⟩
      rintro rfl
      exact hne (hwf.root_of_concrete? hother)
  have hforest := hwf.redirect hredirects
  have halike : classes.Alike (classes.shorten id root) := by
    refine ⟨rfl, hhas', funext fun other => ?_, hconcrete', hmember'⟩
    rw [hwf.root_redirect hredirects (.inr hroot), if_neg]
    intro heq
    rw [← heq, hwf.root_root] at hne
    exact hne rfl
  refine ⟨⟨hforest, fun facts hcached => ?_⟩, halike⟩
  rw [halike.factsAfresh]
  exact hwf.cached facts hcached

theorem WellFormed.compress (hwf : classes.WellFormed) (hroot : classes.root id = root)
    (steps : Nat) :
    (classes.compress root steps id).WellFormed ∧
      classes.Alike (classes.compress root steps id) := by
  induction steps generalizing classes id with
  | zero => exact ⟨hwf, .refl classes⟩
  | succ steps ih =>
    rw [Classes.compress]
    split
    · exact ⟨hwf, .refl classes⟩
    · rename_i hchild
      obtain ⟨hshorter, halike⟩ := hwf.shorten hroot hchild
      have hroot' : (classes.shorten id root).root (classes.parent id) = root := by
        rw [halike.root, hwf.root_parent, hroot]
      obtain ⟨hnext, hrest⟩ := ih hshorter hroot'
      exact ⟨hnext, halike.trans hrest⟩

theorem WellFormed.find (hwf : classes.WellFormed) (id : VarId) :
    (classes.find id).1 = classes.root id ∧ (classes.find id).2.WellFormed ∧
      classes.Alike (classes.find id).2 :=
  ⟨rfl, hwf.compress rfl _⟩

/-- The class of the root `child` became a part of the class of `root`, and its concrete type was
lost. -/
structure Joins (classes next : Classes) (root child : VarId) : Prop where
  has_root : classes.has root = true
  root_root : classes.root root = root
  root_child : classes.root child = child
  ne : root ≠ child
  wellFormed : next.WellFormed
  has : next.has = classes.has
  root : ∀ id, next.root id = if classes.root id = child then root else classes.root id
  concrete? : next.concrete? = Function.update classes.concrete? child none

def raisedRank (classes : Classes) (root child : VarId) : Nat :=
  if classes.rank root = classes.rank child then classes.rank root + 1 else classes.rank root

/-- The child is redirected and loses its concrete type, and the rank of the root may rise. -/
structure LinkFields (classes next : Classes) (root child : VarId) : Prop where
  order : next.order = classes.order
  cached : next.cached = none
  has : next.has = classes.has
  parent : next.parent = Function.update classes.parent child root
  rank : next.rank = Function.update classes.rank root (classes.raisedRank root child)
  concrete? : next.concrete? = Function.update classes.concrete? child none
  variableAt : next.variableAt = classes.variableAt

theorem linkFields (hhas : classes.has root = true) (hhas' : classes.has child = true) :
    LinkFields classes (classes.link root child) root child := by
  obtain ⟨cell, hcell, -, hrank, -, hmember⟩ := exists_cell hhas'
  obtain ⟨hhas₁, hparent₁, hrank₁, hconcrete₁, hmember₁⟩ :
      Changes classes
        (classes.modify child fun cell => { cell with parent := root, concrete := none }) child _ :=
    changes_of_modify (f := fun cell => { cell with parent := root, concrete := none }) hcell rfl
  rw [← hrank, Function.update_eq_self] at hrank₁
  rw [← hmember, Function.update_eq_self] at hmember₁
  by_cases htied : classes.rank root = classes.rank child
  · rw [link, htied, beq_self_eq_true, if_pos rfl]
    obtain ⟨cell', hcell', hparent', hrank', hconcrete', hmember'⟩ :=
      exists_cell ((congrFun hhas₁ root).trans hhas)
    obtain ⟨hhas₂, hparent₂, hrank₂, hconcrete₂, hmember₂⟩ :
        Changes _ ((classes.modify child fun cell =>
          { cell with parent := root, concrete := none }).modify root fun cell =>
            { cell with rank := cell.rank + 1 }) root _ :=
      changes_of_modify (f := fun cell => { cell with rank := cell.rank + 1 }) hcell' rfl
    rw [← hparent', Function.update_eq_self, hparent₁] at hparent₂
    rw [← hrank', hrank₁] at hrank₂
    rw [← hconcrete', Function.update_eq_self, hconcrete₁] at hconcrete₂
    rw [← hmember', Function.update_eq_self, hmember₁] at hmember₂
    refine ⟨rfl, rfl, hhas₂.trans hhas₁, hparent₂, ?_, hconcrete₂, hmember₂⟩
    rw [hrank₂, raisedRank, if_pos htied]
  · rw [link, beq_eq_false_iff_ne.mpr htied, if_neg Bool.false_ne_true]
    refine ⟨rfl, rfl, hhas₁, hparent₁, ?_, hconcrete₁, hmember₁⟩
    rw [hrank₁, raisedRank, if_neg htied, Function.update_eq_self]

theorem WellFormed.redirects_link (hwf : classes.WellFormed) (hhas : classes.has root = true)
    (hroot : classes.root root = root) (hhas' : classes.has child = true) (hne : root ≠ child)
    (hrank : classes.rank child ≤ classes.rank root) :
    Redirects classes (classes.link root child) child root := by
  have hfields := linkFields hhas hhas'
  have hraised : classes.rank root ≤ classes.raisedRank root child ∧
      classes.rank child < classes.raisedRank root child := by
    unfold raisedRank
    split <;> omega
  have hle : ∀ other, classes.rank other ≤ (classes.link root child).rank other := by
    intro other
    rw [hfields.rank, Function.update_apply]
    split
    · rename_i heq
      rw [heq]
      exact hraised.1
    · exact le_refl _
  refine ⟨hfields.order, hfields.has, hfields.variableAt, hfields.parent, hhas, hroot, hne, ?_, ?_⟩
  · rw [hfields.parent]
    intro other
    rw [Function.update_apply]
    split
    · rename_i heq
      intro _
      rw [heq, hfields.rank, Function.update_self, Function.update_of_ne hne.symm]
      exact hraised.2
    · intro hparent
      have hother : other ≠ root := by
        rintro rfl
        exact hparent (hwf.parent_eq_self_iff.mpr hroot)
      refine lt_of_lt_of_le ?_ (hle _)
      rw [hfields.rank, Function.update_of_ne hother]
      exact hwf.rank_lt other hparent
  · rw [hfields.concrete?]
    intro other t
    rw [Function.update_apply]
    split
    · exact fun hnone => nomatch hnone
    · rename_i hother
      exact fun hconcrete => ⟨hother, hconcrete⟩

theorem WellFormed.link (hwf : classes.WellFormed) (hhas : classes.has root = true)
    (hroot : classes.root root = root) (hhas' : classes.has child = true)
    (hroot' : classes.root child = child) (hne : root ≠ child)
    (hrank : classes.rank child ≤ classes.rank root) :
    Joins classes (classes.link root child) root child := by
  have hfields := linkFields hhas hhas'
  have hredirects := hwf.redirects_link hhas hroot hhas' hne hrank
  refine ⟨hhas, hroot, hroot', hne, ⟨hwf.redirect hredirects, fun facts hfacts => ?_⟩, hfields.has,
    hwf.root_redirect hredirects (.inl hroot'), hfields.concrete?⟩
  rw [hfields.cached] at hfacts
  cases hfacts

structure Sets (classes next : Classes) (id : VarId) (concrete : Option Ty) : Prop where
  wellFormed : next.WellFormed
  has : next.has = classes.has
  root : next.root = classes.root
  variableAt : next.variableAt = classes.variableAt
  concrete? : next.concrete? = Function.update classes.concrete? id concrete

def withConcrete (classes : Classes) (root : VarId) (concrete : Option Ty) : Classes :=
  classes.modify root fun cell => { cell with concrete }

theorem WellFormed.withConcrete (hwf : classes.WellFormed) (hhas : classes.has root = true)
    (hroot : classes.root root = root) (concrete : Option Ty) :
    Sets classes (classes.withConcrete root concrete) root concrete := by
  obtain ⟨cell, hcell, hparent, hrank, -, hmember⟩ := exists_cell hhas
  obtain ⟨hhas', hparent', hrank', hconcrete', hmember'⟩ :
      Changes classes (classes.withConcrete root concrete) root _ :=
    changes_of_modify (f := fun cell => { cell with concrete }) hcell rfl
  rw [← hparent, Function.update_eq_self] at hparent'
  rw [← hrank, Function.update_eq_self] at hrank'
  rw [← hmember, Function.update_eq_self] at hmember'
  have hforest : (classes.withConcrete root concrete).IsForest := by
    refine ⟨hwf.nodup, ?_, ?_, ?_, ?_, ?_⟩
    · rw [hhas']
      exact hwf.mem_order_iff
    · rw [hhas', hparent']
      exact hwf.has_parent
    · rw [hrank', hparent']
      exact hwf.rank_lt
    · rw [hconcrete', hparent']
      intro other t
      rw [Function.update_apply]
      split
      · rename_i heq
        rw [heq]
        exact fun _ => hwf.parent_eq_self_iff.mpr hroot
      · exact hwf.root_of_concrete other t
    · rw [hmember']
      exact hwf.variableAt_id
  refine ⟨⟨hforest, nofun⟩, hhas', hforest.root_eq ?_ ?_, hmember', hconcrete'⟩
  · rw [hparent']
    exact hwf.root_parent
  · rw [hparent']
    exact fun _ => root_of_parent

theorem WellFormed.setConcrete (hwf : classes.WellFormed) (hhas : classes.has root = true)
    (hroot : classes.root root = root) (t : Ty) :
    Sets classes (classes.setConcrete root t) root (some t) :=
  hwf.withConcrete hhas hroot (some t)

theorem WellFormed.refresh (hwf : classes.WellFormed) :
    classes.refresh.WellFormed ∧ classes.Alike classes.refresh := by
  have hforest : classes.refresh.IsForest :=
    ⟨hwf.nodup, hwf.mem_order_iff, hwf.has_parent, hwf.rank_lt, hwf.root_of_concrete,
      hwf.variableAt_id⟩
  have halike : classes.Alike classes.refresh :=
    ⟨rfl, rfl, hforest.root_eq hwf.root_parent fun id => hwf.parent_eq_self_iff.mp, rfl, rfl⟩
  refine ⟨⟨hforest, fun facts hfacts => ?_⟩, halike⟩
  obtain rfl := Option.some.inj hfacts
  rw [halike.factsAfresh, hwf.facts_eq]

theorem wellFormed_empty : empty.WellFormed := by
  have habsent : ∀ id, empty.has id = false := fun id => by simp [empty, Classes.has]
  refine ⟨⟨nodup_nil, ?_, ?_, ?_, ?_, ?_⟩, nofun⟩
  · intro id
    simp [empty, Classes.has]
  · intro id hid
    rw [habsent id] at hid
    cases hid
  · exact fun id hchild => absurd (parent_of_not_has (habsent id)) hchild
  · exact fun id _ _ => parent_of_not_has (habsent id)
  · intro id
    simp [empty, Classes.variableAt]

structure Admits (classes next : Classes) (id : VarId) : Prop where
  wellFormed : next.WellFormed
  has_iff : ∀ other, next.has other = true ↔ classes.has other = true ∨ other = id
  root : next.root = classes.root
  concrete? : next.concrete? = classes.concrete?

theorem get?_addVariable (habsent : classes.has id = false) (hint : String) (other : VarId) :
    (classes.addVariable ⟨id, hint⟩).cells.get? other =
      if other = id then some { member := ⟨id, hint⟩, parent := id }
      else classes.cells.get? other := by
  rw [addVariable, habsent, if_neg Bool.false_ne_true, Std.HashMap.get?_insert]
  simp only [beq_iff_eq, eq_comm (a := id)]

theorem addVariable_fields (habsent : classes.has id = false) (hint : String) :
    (classes.addVariable ⟨id, hint⟩).parent = classes.parent ∧
      (classes.addVariable ⟨id, hint⟩).rank = classes.rank ∧
      (classes.addVariable ⟨id, hint⟩).concrete? = classes.concrete? := by
  have hget := get?_addVariable habsent hint
  have hnone := get?_of_not_has habsent
  refine ⟨funext fun other => ?_, funext fun other => ?_, funext fun other => ?_⟩
  all_goals
    by_cases heq : other = id
    · simp only [parent, rank, concrete?, hget, heq, hnone, if_true, Option.map_some,
        Option.map_none, Option.getD_some, Option.getD_none, Option.bind_some, Option.bind_none]
    · simp only [parent, rank, concrete?, hget, heq, if_false]

theorem WellFormed.addVariable_of_absent (hwf : classes.WellFormed)
    (habsent : classes.has id = false) (hint : String) :
    Admits classes (classes.addVariable ⟨id, hint⟩) id := by
  have hget := get?_addVariable habsent hint
  obtain ⟨hparent, hrank, hconcrete⟩ := addVariable_fields habsent hint
  have hhas : ∀ other, (classes.addVariable ⟨id, hint⟩).has other = true ↔
      classes.has other = true ∨ other = id := by
    intro other
    rw [← get?_isSome, ← get?_isSome, hget]
    by_cases heq : other = id <;> simp [heq]
  have hmember : ∀ other, ((classes.addVariable ⟨id, hint⟩).variableAt other).id = other := by
    intro other
    by_cases heq : other = id
    · simp only [variableAt, hget, heq, if_true, Option.map_some, Option.getD_some]
    · simp only [variableAt, hget, heq, if_false]
      exact hwf.variableAt_id other
  have horder : (classes.addVariable ⟨id, hint⟩).order.toList = classes.order.toList ++ [id] := by
    simp [addVariable, habsent]
  have hforest : (classes.addVariable ⟨id, hint⟩).IsForest := by
    refine ⟨?_, ?_, ?_, ?_, ?_, hmember⟩
    · rw [horder]
      refine nodup_append.mpr ⟨hwf.nodup, nodup_singleton id, ?_⟩
      intro other hother new hnew heq
      rw [heq, mem_singleton.mp hnew, hwf.mem_order_iff, habsent] at hother
      cases hother
    · intro other
      rw [horder, hhas, mem_append, hwf.mem_order_iff, mem_singleton]
    · intro other
      rw [hparent, hhas, hhas]
      rintro (hother | rfl)
      · exact .inl (hwf.has_parent other hother)
      · exact .inr (parent_of_not_has habsent)
    · rw [hparent, hrank]
      exact hwf.rank_lt
    · rw [hparent, hconcrete]
      exact hwf.root_of_concrete
  have hcached : (classes.addVariable ⟨id, hint⟩).cached = none := by
    simp [addVariable, habsent]
  refine ⟨⟨hforest, fun facts hfacts => ?_⟩, hhas, hforest.root_eq ?_ ?_, hconcrete⟩
  · rw [hcached] at hfacts
    cases hfacts
  · rw [hparent]
    exact hwf.root_parent
  · rw [hparent]
    exact fun _ => root_of_parent

theorem WellFormed.addVariable (hwf : classes.WellFormed) (v : Variable) :
    Admits classes (classes.addVariable v) v.id := by
  by_cases hhas : classes.has v.id = true
  · rw [Classes.addVariable, if_pos hhas]
    refine ⟨hwf, fun other => ⟨.inl, ?_⟩, rfl, rfl⟩
    rintro (hother | rfl)
    exacts [hother, hhas]
  · exact hwf.addVariable_of_absent (Bool.eq_false_of_not_eq_true hhas) v.hint

end View

section AsFacts

/-- What a variable stands for: the root of its class, or the concrete type if it is that root. -/
def fact? (classes : Classes) (id : VarId) : Option Ty :=
  if classes.root id = id then classes.concrete? id
  else some (.var (classes.variableAt (classes.root id)))

def factsOf (classes : Classes) (ids : List VarId) (facts : Facts) : Facts :=
  ids.foldl
    (fun facts id =>
      match classes.fact? id with
      | some t => facts.insert id t
      | none => facts)
    facts

theorem factsAfresh_eq (classes : Classes) :
    classes.factsAfresh = classes.factsOf classes.order.toList Facts.empty := by
  unfold factsAfresh factsOf
  rw [← Array.foldl_toList]
  congr
  funext facts id
  by_cases hroot : classes.root id = id
  · cases hconcrete : classes.concrete? id <;> simp [fact?, hroot, hconcrete]
  · simp [fact?, hroot]

theorem find?_factsOf (ids : List VarId) (facts : Facts) :
    (classes.factsOf ids facts).find? id =
      ((if id ∈ ids then classes.fact? id else none).or (facts.find? id)) := by
  induction ids generalizing facts with
  | nil => simp [factsOf]
  | cons first rest ih =>
    rw [factsOf, foldl_cons, ← factsOf, ih]
    by_cases hfirst : id = first
    · subst hfirst
      cases hfact : classes.fact? id with
      | none => simp
      | some t => by_cases hrest : id ∈ rest <;> simp [hrest, Facts.find?_insert]
    · cases hfact : classes.fact? first with
      | none => simp [hfirst]
      | some t => simp [hfirst, Facts.find?_insert]

theorem nodup_keys_factsOf {ids : List VarId} {facts : Facts} (hids : ids.Nodup)
    (hkeys : facts.keys.Nodup) (hapart : ∀ id ∈ ids, id ∉ facts.keys) :
    (classes.factsOf ids facts).keys.Nodup := by
  induction ids generalizing facts with
  | nil => exact hkeys
  | cons first rest ih =>
    rw [factsOf, foldl_cons, ← factsOf]
    rw [nodup_cons] at hids
    cases hfact : classes.fact? first with
    | none => exact ih hids.2 hkeys fun id hid => hapart id (.tail _ hid)
    | some t =>
      refine ih hids.2 (nodup_cons.mpr ⟨hapart first (.head _), hkeys⟩) ?_
      intro id hid hmem
      rcases mem_cons.mp hmem with heq | hmem
      · rw [heq] at hid
        exact hids.1 hid
      · exact hapart id (.tail _ hid) hmem

theorem fact?_of_not_has (habsent : classes.has id = false) : classes.fact? id = none := by
  rw [fact?, if_pos (root_of_not_has habsent)]
  cases hconcrete : classes.concrete? id with
  | none => rfl
  | some t =>
    rw [has_of_concrete hconcrete] at habsent
    cases habsent

theorem WellFormed.find?_facts (hwf : classes.WellFormed) (id : VarId) :
    classes.facts.find? id = classes.fact? id := by
  rw [hwf.facts_eq, factsAfresh_eq, find?_factsOf]
  split
  · exact Option.or_none
  · rename_i hmem
    rw [hwf.mem_order_iff] at hmem
    exact (fact?_of_not_has (Bool.eq_false_of_not_eq_true hmem)).symm

theorem WellFormed.nodup_keys_facts (hwf : classes.WellFormed) : classes.facts.keys.Nodup := by
  rw [hwf.facts_eq, factsAfresh_eq]
  exact nodup_keys_factsOf hwf.nodup nodup_nil fun _ _ => not_mem_nil

end AsFacts

end TypeSearch.Classes
