import TypeSearch.Proofs.Classes.Operations
import TypeSearch.Proofs.Facts.Proper

/-!
# Proper classes

The concrete types of classes stay proper when equalities are added and when classes are built
together. Nothing is assumed about the classes otherwise, and what is proved about halts does not
depend on proper types: whatever the classes are, an operation on them halts only because of facts
that run in a circle.
-/

namespace TypeSearch.Classes

variable {P : Prop} {classes : Classes} {ε : Type} {fails : ε → Prop} {t : Ty}

/-- All concrete types are proper, and so are the facts that were computed from them. -/
structure Proper (classes : Classes) : Prop where
  concrete {id : VarId} {t : Ty} (hconcrete : classes.concrete? id = some t) : t.Proper
  cached {facts : Facts} (hcached : classes.cached = some facts) : facts.Proper

theorem proper_empty : empty.Proper where
  concrete hconcrete := by simp [concrete?, empty] at hconcrete
  cached := nofun

theorem Proper.fact? (hproper : classes.Proper) {id : VarId} (hfact : classes.fact? id = some t) :
    t.Proper := by
  unfold Classes.fact? at hfact
  split at hfact
  · exact hproper.concrete hfact
  · cases hfact
    exact .var _

theorem Proper.factsOf (hproper : classes.Proper) {facts : Facts} (hfacts : facts.Proper)
    (ids : List VarId) : (classes.factsOf ids facts).Proper := by
  induction ids generalizing facts with
  | nil => exact hfacts
  | cons id ids ih =>
    rw [Classes.factsOf, List.foldl_cons, ← Classes.factsOf]
    apply ih
    split
    · rename_i t hfact
      exact hfacts.insert id (hproper.fact? hfact)
    · exact hfacts

theorem Proper.facts (hproper : classes.Proper) : classes.facts.Proper := by
  unfold Classes.facts
  cases hcached : classes.cached with
  | none =>
    rw [Option.getD_none, factsAfresh_eq]
    exact hproper.factsOf Facts.proper_empty _
  | some facts => exact hproper.cached hcached

theorem Proper.refresh (hproper : classes.Proper) : classes.refresh.Proper where
  concrete hconcrete := hproper.concrete hconcrete
  cached hcached := by
    cases hcached
    exact hproper.facts

theorem reduce_meets (hclasses : P → classes.Proper) (ht : P → t.Proper) :
    (classes.reduce t : Outcome ε Ty).Meets (fun u => P → u.Proper) fails :=
  Facts.reduce_meets (fun hP => (hclasses hP).facts) ht

section Proper

variable (hproper : classes.Proper)

include hproper

theorem Proper.resolve (ht : t.Proper) : (classes.resolve t).Proper := by
  cases t with
  | var v =>
    simp only [Classes.resolve, representative]
    split
    · cases hconcrete : classes.concrete? (classes.root v.id) with
      | none => exact .var _
      | some u => exact hproper.concrete hconcrete
    · exact .var v
  | _ => exact ht

/-! ### Changes of the cells -/

theorem Proper.modifyCells {f : Cell → Cell}
    (hf : ∀ cell t, (f cell).concrete = some t → cell.concrete = some t ∨ t.Proper) (id : VarId)
    {next : Classes} (hcells : next.cells = classes.cells.modify id f)
    (hcached : next.cached = none ∨ next.cached = classes.cached) : next.Proper where
  concrete := by
    intro other t hconcrete
    rw [concrete?, hcells, get?_modify] at hconcrete
    split at hconcrete
    · obtain ⟨cell, hcell, hsome⟩ := Option.bind_eq_some_iff.mp hconcrete
      obtain ⟨old, hold, rfl⟩ := Option.map_eq_some_iff.mp hcell
      rcases hf old t hsome with hkept | hnew
      · exact hproper.concrete (Option.bind_eq_some_iff.mpr ⟨old, hold, hkept⟩)
      · exact hnew
    · exact hproper.concrete hconcrete
  cached := by
    intro facts hfacts
    rcases hcached with hnone | hsame
    · rw [hnone] at hfacts
      cases hfacts
    · exact hproper.cached (hsame ▸ hfacts)

theorem Proper.addVariable (v : Variable) : (classes.addVariable v).Proper := by
  unfold Classes.addVariable
  split
  · exact hproper
  · refine ⟨?_, nofun⟩
    intro other t hconcrete
    simp only [concrete?, Std.HashMap.get?_eq_getElem?, Std.HashMap.getElem?_insert] at hconcrete
    split at hconcrete
    · cases hconcrete
    · exact hproper.concrete hconcrete

theorem Proper.setConcrete (root : VarId) (ht : t.Proper) :
    (classes.setConcrete root t).Proper := by
  refine hproper.modifyCells ?_ root rfl (.inl rfl)
  intro cell u hu
  exact .inr (Option.some.inj hu ▸ ht)

theorem Proper.compress (root : VarId) (steps : Nat) (id : VarId) :
    (classes.compress root steps id).Proper := by
  induction steps generalizing classes id with
  | zero => exact hproper
  | succ steps ih =>
    rw [Classes.compress]
    split
    · exact hproper
    · have hshorter : ({ classes with cells := classes.cells.modify id fun cell =>
          { cell with parent := root } } : Classes).Proper := by
        refine hproper.modifyCells ?_ id rfl (.inr rfl)
        exact fun _ _ => .inl
      exact ih hshorter _

theorem Proper.find (id : VarId) : (classes.find id).2.Proper :=
  hproper.compress _ _ _

theorem Proper.link (root child : VarId) : (classes.link root child).Proper := by
  have hchild : (classes.modify child fun cell =>
      { cell with parent := root, concrete := none }).Proper := by
    refine hproper.modifyCells ?_ child rfl (.inl rfl)
    intro cell t hnone
    cases hnone
  unfold Classes.link
  dsimp only
  split
  · refine hchild.modifyCells (f := fun cell => { cell with rank := cell.rank + 1 }) ?_ root rfl
      (.inl rfl)
    exact fun _ _ => .inl
  · exact hchild

end Proper

/-! ### Operations -/

theorem stable_proper : Stable (fun classes => P → classes.Proper) (fun _ _ => True)
    (fun _ _ => True) fun t => P → t.Proper where
  empty _ := proper_empty
  add _ v hI hP := (hI hP).addVariable v
  in_add _ _ _ _ _ := trivial
  in_self _ _ _ _ _ := trivial
  find _ id hI hP := (hI hP).find id
  in_find _ _ _ _ _ := trivial
  at_find _ _ _ _ _ := trivial
  at_root _ _ _ _ := trivial
  link _ _ _ hI _ _ _ _ := ⟨fun hP => (hI hP).link _ _, trivial⟩
  concrete _ _ _ hI hconcrete hP := (hI hP).concrete hconcrete
  set _ root _ hI _ ht hP := (hI hP).setConcrete root (ht hP)
  refresh _ hI hP := (hI hP).refresh

theorem unifies_proper : Unifies (fun classes => P → classes.Proper) fun t => P → t.Proper := by
  intro classes a b hI ha hb
  refine (Facts.unify_meets ha hb fun hP => (hI hP).facts).imp fun found hfound => ?_
  exact ⟨fun hP => (hfound hP).1, fun entry hentry hP => (hfound hP).2 entry hentry⟩

theorem build_meets {a b : Option Classes} (ha : P → ∀ classes ∈ a, classes.Proper)
    (hb : P → ∀ classes ∈ b, classes.Proper) :
    (build [a, b]).Meets (fun classes => P → classes.Proper) fun _ => True := by
  refine keeps_build stable_proper unifies_proper ?_
  intro graph hgraph hP
  simp only [List.mem_cons, List.not_mem_nil, or_false] at hgraph
  rcases hgraph with rfl | rfl
  · exact ha hP graph rfl
  · exact hb hP graph rfl

end TypeSearch.Classes
