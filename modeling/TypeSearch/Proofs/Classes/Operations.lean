import TypeSearch.Proofs.Classes.Absorb

/-!
# Operations as sequences of changes

All operations come down to four changes of cells: a variable is added, ways to roots are shortened,
a root goes below another one, and a root gets a concrete type. What these keep is kept by every
operation, and two ways in which concrete types meet that compare well make operations that do.
-/

namespace TypeSearch.Classes

open List

/-! ### Merging for any meeting -/

def joinVariable (meet : Meet) (source : Classes) (id : VarId) (classes : Classes) :
    Outcome Mismatch Classes :=
  if source.root id = id then .ok (classes.addVariable (source.variableAt id))
  else (classes.addVariable (source.variableAt id)).union meet id
    (source.variableAt (source.root id))

theorem joinVariables_cons (meet : Meet) (source : Classes) (id : VarId) (rest : List VarId)
    (classes : Classes) :
    Classes.joinVariables meet source (id :: rest) classes =
      joinVariable meet source id classes >>= Classes.joinVariables meet source rest := by
  rw [Classes.joinVariables, joinVariable]
  split <;> rfl

def concretes (source : Classes) : List (VarId × Ty) :=
  source.order.toList.filterMap fun id => (source.concrete? id).map ((id, ·))

def mergeWith (meet : Meet) (classes source : Classes) : Outcome Mismatch Classes := do
  let classes ← Classes.joinVariables meet source source.order.toList classes
  let classes ← Classes.assignAll meet source.concretes classes
  return classes.refresh

def mergeAllWith (merge : Classes → Classes → Outcome Mismatch Classes) :
    List Classes → Classes → Outcome Mismatch Classes
  | [], classes => .ok classes
  | source :: rest, classes => do
    let classes ← merge classes source
    mergeAllWith merge rest classes

def buildWith (merge : Classes → Classes → Outcome Mismatch Classes)
    (graphs : List (Option Classes)) : Outcome Mismatch Classes :=
  match graphs.filterMap id with
  | [] => .ok empty
  | first :: rest => mergeAllWith merge rest first

theorem mergeAll_eq (sources : List Classes) (classes : Classes) :
    mergeAll sources classes = mergeAllWith merge sources classes := by
  induction sources generalizing classes with
  | nil => rfl
  | cons source rest ih => simp only [mergeAll, mergeAllWith, ih]

theorem build_eq (graphs : List (Option Classes)) : build graphs = buildWith merge graphs := by
  unfold build buildWith
  cases graphs.filterMap id with
  | nil => rfl
  | cons first rest => exact mergeAll_eq rest first

/-! ### Comparing two meetings -/

variable {I : Classes → Prop} {In At : Classes → VarId → Prop} {T : Ty → Prop}
  {J : Outcome Mismatch Classes → Outcome Mismatch Classes → Prop} {classes source : Classes}
  {meet meet' : Meet} {id root : VarId} {t : Ty}

/-- The changes of cells keep `I`. Only variables `In` the classes are looked up, only cells `At`
roots are changed, and concrete types are of the kind `T`. -/
structure Stable (I : Classes → Prop) (In At : Classes → VarId → Prop) (T : Ty → Prop) : Prop where
  empty : I empty
  add : ∀ ⦃classes⦄ v, I classes → I (classes.addVariable v)
  in_add : ∀ ⦃classes id⦄ v, I classes →
    In classes id ∨ id = v.id → In (classes.addVariable v) id
  in_self : ∀ ⦃source⦄ id, I source → ∀ classes, I classes →
    In (classes.addVariable (source.variableAt id)) id
  find : ∀ ⦃classes⦄ id, I classes → I (classes.find id).2
  in_find : ∀ ⦃classes other⦄ id, I classes → In classes other → In (classes.find id).2 other
  at_find : ∀ ⦃classes root⦄ id, I classes → At classes root → At (classes.find id).2 root
  at_root : ∀ ⦃classes id⦄, I classes → In classes id → At (classes.find id).2 (classes.find id).1
  link : ∀ ⦃classes root child⦄, I classes → At classes root → At classes child → root ≠ child →
    classes.rank child ≤ classes.rank root →
    I (classes.link root child) ∧ At (classes.link root child) root
  concrete : ∀ ⦃classes id t⦄, I classes → classes.concrete? id = some t → T t
  set : ∀ ⦃classes root t⦄, I classes → At classes root → T t → I (classes.setConcrete root t)
  refresh : ∀ ⦃classes⦄, I classes → I classes.refresh

/-- `J` may be followed through a sequence of changes. -/
structure Follows (I : Classes → Prop)
    (J : Outcome Mismatch Classes → Outcome Mismatch Classes → Prop) : Prop where
  ok : ∀ ⦃classes⦄, I classes → J (.ok classes) (.ok classes)
  failed (mismatch : Mismatch) : J (.failed mismatch) (.failed mismatch)
  bind : ∀ ⦃outcome outcome' later later'⦄, J outcome outcome' →
    (∀ classes, I classes → J (later classes) (later' classes)) →
    J (outcome >>= later) (outcome' >>= later')

/-- Where concrete types meet at a root, the two ways compare well. -/
def Agree (I : Classes → Prop) (At : Classes → VarId → Prop) (T : Ty → Prop)
    (J : Outcome Mismatch Classes → Outcome Mismatch Classes → Prop) (meet meet' : Meet) : Prop :=
  ∀ ⦃root t u classes⦄, I classes → At classes root → T t → T u →
    J (meet root t u classes) (meet' root t u classes)

section Compare

variable (hstable : Stable I In At T) (hfollows : Follows I J)

include hstable hfollows

theorem compare_assignConcrete (hI : I classes) (hat : At classes root) (ht : T t) :
    J (classes.assignConcrete root t) (classes.assignConcrete root t) := by
  unfold assignConcrete
  split
  · exact hfollows.failed _
  · exact hfollows.ok (hstable.set hI hat ht)

variable (hmeet : Agree I At T J meet meet')

include hmeet

theorem compare_union (hI : I classes) (hin : In classes id) (other : Variable) :
    J (classes.union meet id other) (classes.union meet' id other) := by
  have hadded := hstable.add other hI
  have hleft := hstable.find id hadded
  have hright := hstable.find other.id hleft
  have hat := hstable.at_find other.id hleft
    (hstable.at_root hadded (hstable.in_add other hI (.inl hin)))
  have hat' := hstable.at_root hleft
    (hstable.in_find id hadded (hstable.in_add other hI (.inr rfl)))
  rw [union_eq, union_eq]
  dsimp only
  generalize ((classes.addVariable other).find id).1 = left,
    (((classes.addVariable other).find id).2.find other.id).1 = right,
    (((classes.addVariable other).find id).2.find other.id).2 = found at *
  split
  · exact hfollows.ok hright
  rename_i hne
  have hlink : ∀ root child, At found root → At found child → root ≠ child →
      found.rank child ≤ found.rank root →
      J (meetConcrete meet (found.link root child) root (found.concrete? root)
          (found.concrete? child))
        (meetConcrete meet' (found.link root child) root (found.concrete? root)
          (found.concrete? child)) := by
    intro root child hroot hchild hne hrank
    obtain ⟨hlinked, hroot⟩ := hstable.link hright hroot hchild hne hrank
    cases ht : found.concrete? root with
    | none =>
      cases hu : found.concrete? child with
      | none => exact hfollows.ok hlinked
      | some u =>
        exact compare_assignConcrete hstable hfollows hlinked hroot (hstable.concrete hright hu)
    | some t =>
      have ht := hstable.concrete hright ht
      cases hu : found.concrete? child with
      | none => exact compare_assignConcrete hstable hfollows hlinked hroot ht
      | some u => exact hmeet hlinked hroot ht (hstable.concrete hright hu)
  split
  · rename_i hrank
    exact hlink right left hat' hat (Ne.symm hne) (Nat.le_of_lt hrank)
  · rename_i hrank
    exact hlink left right hat hat' hne (Nat.le_of_not_lt hrank)

theorem compare_assign (hI : I classes) (ht : T t) (id : VarId) :
    J (classes.assign meet id t) (classes.assign meet' id t) := by
  have hadded := hstable.add ⟨id, ""⟩ hI
  have hin := hstable.in_add ⟨id, ""⟩ hI (.inr rfl)
  cases hbuilt : t.isVariable with
  | true =>
    obtain ⟨v, rfl⟩ := Ty.isVariable_iff.mp hbuilt
    exact compare_union hstable hfollows hmeet hadded hin v
  | false =>
    have hfound := hstable.find id hadded
    have hat := hstable.at_root hadded hin
    rw [assign_eq meet classes id hbuilt, assign_eq meet' classes id hbuilt]
    dsimp only
    cases hexisting : ((classes.addVariable ⟨id, ""⟩).find id).2.concrete?
        ((classes.addVariable ⟨id, ""⟩).find id).1 with
    | none => exact compare_assignConcrete hstable hfollows hfound hat ht
    | some existing => exact hmeet hfound hat (hstable.concrete hfound hexisting) ht

/-- What relates the two meets relates whole runs of assignments under them. -/
theorem compare_assignAll {entries : List (VarId × Ty)} (hentries : ∀ entry ∈ entries, T entry.2)
    (hI : I classes) : J (assignAll meet entries classes) (assignAll meet' entries classes) := by
  induction entries generalizing classes with
  | nil => exact hfollows.ok hI
  | cons entry entries ih =>
    rw [forall_mem_cons] at hentries
    exact hfollows.bind (compare_assign hstable hfollows hmeet hI hentries.1 entry.1)
      fun _ => ih hentries.2

theorem compare_joinVariables (hsource : I source) (ids : List VarId) (hI : I classes) :
    J (joinVariables meet source ids classes) (joinVariables meet' source ids classes) := by
  induction ids generalizing classes with
  | nil => exact hfollows.ok hI
  | cons id ids ih =>
    have hadded := hstable.add (source.variableAt id) hI
    have hin := hstable.in_self id hsource classes hI
    rw [joinVariables_cons, joinVariables_cons]
    refine hfollows.bind ?_ fun _ => ih
    unfold joinVariable
    split
    · exact hfollows.ok hadded
    · exact compare_union hstable hfollows hmeet hadded hin _

theorem compare_mergeWith (hI : I classes) (hsource : I source) :
    J (mergeWith meet classes source) (mergeWith meet' classes source) := by
  have hconcretes : ∀ entry ∈ source.concretes, T entry.2 := by
    intro entry hentry
    obtain ⟨id, -, hid⟩ := mem_filterMap.mp hentry
    obtain ⟨t, ht, rfl⟩ := Option.map_eq_some_iff.mp hid
    exact hstable.concrete hsource ht
  refine hfollows.bind (compare_joinVariables hstable hfollows hmeet hsource _ hI) ?_
  intro joined hjoined
  refine hfollows.bind (compare_assignAll hstable hfollows hmeet hconcretes hjoined) ?_
  exact fun assigned hassigned => hfollows.ok (hstable.refresh hassigned)

omit hmeet

theorem compare_buildWith (merge merge' : Classes → Classes → Outcome Mismatch Classes)
    (hmerge : ∀ classes source, I classes → I source →
      J (merge classes source) (merge' classes source))
    {graphs : List (Option Classes)} (hgraphs : ∀ graph, some graph ∈ graphs → I graph) :
    J (buildWith merge graphs) (buildWith merge' graphs) := by
  have hgiven : ∀ graph ∈ graphs.filterMap id, I graph := by simpa using hgraphs
  unfold buildWith
  cases hsome : graphs.filterMap id with
  | nil => exact hfollows.ok hstable.empty
  | cons first rest =>
    rw [hsome, forall_mem_cons] at hgiven
    obtain ⟨hfirst, hrest⟩ := hgiven
    clear hsome
    induction rest generalizing first with
    | nil => exact hfollows.ok hfirst
    | cons source rest ih =>
      rw [forall_mem_cons] at hrest
      exact hfollows.bind (hmerge first source hfirst hrest.1) fun next hnext =>
        ih next hnext hrest.2

end Compare

/-! ### Keeping a property -/

/-- Unification finds types of the kind that the classes hold. -/
def Unifies (I : Classes → Prop) (T : Ty → Prop) : Prop :=
  ∀ ⦃classes a b⦄, I classes → T a → T b → (Facts.unify a b classes.facts).Meets
    (fun found => T found.1 ∧ ∀ entry ∈ found.2.entries, T entry.2) fun _ => True

/-- The outcome keeps `I`, or it is a mismatch or a halt that types bring about. -/
def Keeps (I : Classes → Prop) (outcome : Outcome Mismatch Classes) : Prop :=
  outcome.Meets I fun _ => True

theorem follows_keeps : Follows I fun outcome _ => Keeps I outcome :=
  ⟨fun _ => id, fun _ => trivial, fun _ _ _ _ hfirst => hfirst.bind⟩

section Keep

variable (hstable : Stable I In At T) (hunifies : Unifies I T)

include hstable

theorem keeps_absorb (hmeet : Agree I At T (fun outcome _ => Keeps I outcome) meet meet)
    {facts : Facts} (hfacts : ∀ entry ∈ facts.entries, T entry.2) (seed : Facts) (hI : I classes) :
    Keeps I (absorb meet facts seed classes) := by
  refine compare_assignAll hstable follows_keeps hmeet ?_ hI
  intro entry hentry
  exact hfacts entry ((Facts.toList_perm facts).mem_iff.mp (mem_of_mem_filter hentry))

include hunifies

/-- The invariant survives a meet of every depth. -/
theorem keeps_meetWithin (depth : Nat) :
    Agree I At T (fun outcome _ => Keeps I outcome) (meetWithin depth) (meetWithin depth) := by
  induction depth with
  | zero => exact fun _ _ _ _ _ _ _ _ => (trivial : Halt.endless.OfTypes)
  | succ depth ih =>
    intro root t u classes hI hat ht hu
    refine (hunifies hI ht hu).bind fun found hfound => ?_
    exact keeps_absorb hstable ih hfound.2 _ (hstable.set hI hat hfound.1)

theorem keeps_unify {a b : Ty} (hI : I classes) (ha : T a) (hb : T b) :
    (classes.unify a b).Meets (fun found => T found.1 ∧ I found.2) fun _ => True := by
  refine (hunifies hI ha hb).bind fun found hfound => ?_
  dsimp only
  split
  · exact ⟨hfound.1, hI⟩
  · refine (keeps_absorb hstable (keeps_meetWithin hstable hunifies _) hfound.2 _ hI).bind ?_
    exact fun next hnext => ⟨hfound.1, hstable.refresh hnext⟩

theorem keeps_equate {a b : Ty} (hI : I classes) (ha : T a) (hb : T b) :
    Keeps I (classes.equate a b) :=
  (keeps_unify hstable hunifies hI ha hb).bind fun _ hfound => hfound.2

theorem keeps_build {graphs : List (Option Classes)}
    (hgraphs : ∀ graph, some graph ∈ graphs → I graph) : Keeps I (build graphs) := by
  rw [build_eq]
  refine compare_buildWith hstable follows_keeps merge merge ?_ hgraphs
  intro classes source hI hsource
  exact compare_mergeWith hstable follows_keeps (keeps_meetWithin hstable hunifies _) hI hsource

end Keep

end TypeSearch.Classes
