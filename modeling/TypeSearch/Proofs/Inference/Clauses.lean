import TypeSearch.Proofs.Inference.Parts

/-!
# Branches, cases, generators and statements

The parts of functions, of `when` and of comprehensions have scopes of their own, and the trees of
their typings are put together from the parts of other trees: a tree that shows a branch still shows
it with the parts of further branches added.
-/

namespace TypeSearch.Infer

open Inference List
open TypeSearch.Tree (Node Pattern Site)

variable {prospect : Prospect} {K P : Prop} {classes : Classes} {site : Site} {typed : Nat → Prop}
  {tree : Typed} {first second : List (List Pattern × Node)} {locus : Tree.Locus}
  {patterns : List Pattern} {body subject : Node} {inferBody : Classes → Infer Answers}
  {value : Answer Typed} {covers : Typed → Prop} {subjects values : Answers} {result : Ty}
  {generators : List (Pattern × Node)} {iterables : List Answers} {target : Pattern}
  {statements : List Node}

/-! ### Functions -/

def ShowsBranches (typed : Nat → Prop) (site : Site) (branches : List (List Pattern × Node))
    (tree : Typed) : Prop :=
  tree.key = site.key ∧ ∀ branch ∈ branches,
    (∀ p ∈ branch.1, p.Shows typed tree) ∧ branch.2.Shows typed tree

theorem ShowsBranches.abstraction {branches : List (List Pattern × Node)}
    (hshows : ShowsBranches typed site branches tree) :
    (Node.abstraction site branches).Shows typed tree := by
  cases tree with
  | mk key type children =>
    obtain ⟨hkey, hbranches⟩ := hshows
    obtain rfl : key = site.key := hkey
    exact .abstraction Typed.marks_self (fun branch hbranch => (hbranches branch hbranch).1)
      fun branch hbranch => (hbranches branch hbranch).2

theorem ShowsBranches.append {left right : Typed} (hfirst : ShowsBranches typed site first left)
    (hsecond : ShowsBranches typed site second right) (type : Ty) :
    ShowsBranches typed site (first ++ second)
      (.mk site.key type (left.children ++ right.children)) := by
  refine ⟨rfl, fun branch hbranch => ?_⟩
  rcases mem_append.mp hbranch with hmem | hmem
  · obtain ⟨hparams, hbody⟩ := hfirst.2 branch hmem
    have hsub := subset_append_left left.children right.children
    exact ⟨fun p hp => (hparams p hp).widen hfirst.1 hsub, hbody.widen hfirst.1 hsub⟩
  · obtain ⟨hparams, hbody⟩ := hsecond.2 branch hmem
    have hsub := subset_append_right left.children right.children
    exact ⟨fun p hp => (hparams p hp).widen hsecond.1 hsub, hbody.widen hsecond.1 hsub⟩

theorem fulfils_branch {function : Tree.Locus} (hclasses : P → classes.Proper)
    (hbody : ∀ (K : Prop) (known : Classes), (P → known.Proper) →
      Fulfils prospect K (Typings prospect P body) (inferBody known))
    (hkeeps : ∀ known, Keeps (Table.Frames True) (inferBody known)) :
    Fulfils prospect K
      (fun K' => Disjunction.Fit P K' (ShowsBranches prospect.typed site [(patterns, body)]))
      (branch function site patterns locus inferBody classes) := by
  rw [branch_eq]
  refine Fulfils.inAbstraction ?_ ?_ function
  · refine (fulfils_forM fun p _ K => fulfils_implicitTemplates p).bind fun _ _ _ _ => ?_
    refine (fulfils_params patterns hclasses).bind fun _ found _ hfound => ?_
    refine ((hbody _ found.2 hfound.classes).inBody locus).bind fun K' answers _ hanswers => ?_
    refine fulfils_search site fun table htable => tries_map hanswers fun a ha => tries_pure ?_
    refine fits_answer (fun hP => .curried (by simp) ?_) (fun hP => ?_) ha.classes fun hK => ?_
    · refine forall_mem_append.mpr ⟨fun t ht => ?_, fun t ht => ?_⟩
      · split at ht
        · rw [mem_singleton.mp ht]
          exact Ty.proper_void
        · exact hfound.types hP t ht
      · rw [mem_singleton.mp ht]
        exact ha.type hP
    · refine forall_mem_append.mpr ⟨hfound.trees hP, fun child hchild => ?_⟩
      exact mem_singleton.mp hchild ▸ ha.node hP
    · refine ⟨rfl, fun branch hbranch => ?_⟩
      rw [mem_singleton.mp hbranch]
      exact ⟨forall_covered_of_forall₂ hfound.shows (subset_append_left _ _),
        (ha.covers hK).parent (mem_append_right _ (mem_singleton_self _))⟩
  · have htemplates : Keeps (fun table next => table.Bodiless → next.Bodiless)
        (patterns.forM implicitTemplates) :=
      keeps_forM keeps_bodiless_implicitTemplates
    have hsure : ∀ p : Pattern, Sure (implicitTemplates p) := fun _ _ _ _ hfails => by cases hfails
    refine htemplates.andThen (sure_forM hsure patterns)
      (fun _ => keeps_hasBody_params fun found => ?_) fun _ _ _ hfirst hrest => hrest ∘ hfirst
    refine (keeps_hasBody_inBody (hkeeps found.2)).followed (S := Table.Declares)
      (fun answers => ?_) fun _ _ _ hbody hsame hbodiless => (hbody hbodiless).declares hsame
    exact (keeps_map (fun _ => keeps_pure)).reportingAt

theorem fulfils_mergeBranches {left right : Answers}
    (hleft : left.Fit P K (ShowsBranches prospect.typed site first))
    (hright : right.Fit P K (ShowsBranches prospect.typed site second)) :
    Fulfils prospect K
      (fun K' => Disjunction.Fit P K' (ShowsBranches prospect.typed site (first ++ second)))
      (mergeBranches site left right) := by
  refine fulfils_search site fun table htable =>
    tries_merge hleft hright fun a b next ha hb hnext => ?_
  have hchildren : P → ∀ child ∈ a.node.children ++ b.node.children, child.Proper :=
    fun hP => forall_mem_append.mpr ⟨(ha.node hP).children, (hb.node hP).children⟩
  refine (tries_unify hnext ha.type hb.type).attempt.bind fun found hfound => ?_
  cases found with
  | ok found =>
    have hunified := hfound.1 found rfl
    exact tries_pure (fits_answer (fun hP => (hunified hP).1) hchildren
      (fun hP => (hunified hP).2) fun hK => (ha.covers hK).append (hb.covers hK) _)
  | error failure =>
    refine tries_pure (fits_answer (fun hP => ?_) hchildren hnext
      fun hK => (ha.covers hK).append (hb.covers hK) _)
    exact Ty.proper_unionOf (cons_ne_nil _ _) (by simp [ha.type hP, hb.type hP])

/-! ### Cases -/

def ShowsCase (typed : Nat → Prop) (subject : Node) (clause : List Pattern × Node) (tree : Typed) :
    Prop :=
  subject.Shows typed tree ∧ (∃ p ∈ clause.1, p.Shows typed tree) ∧ clause.2.Shows typed tree

def ShowsMatch (typed : Nat → Prop) (site : Site) (subject : Node) (patterns : List Pattern)
    (tree : Typed) : Prop :=
  tree.key = site.key ∧ subject.Shows typed tree ∧ ∃ p ∈ patterns, p.Shows typed tree

theorem ShowsMatch.mono {more : List Pattern} (hshows : ShowsMatch typed site subject patterns tree)
    (hsub : patterns ⊆ more) : ShowsMatch typed site subject more tree := by
  obtain ⟨hkey, hsubject, p, hp, hshown⟩ := hshows
  exact ⟨hkey, hsubject, p, hsub hp, hshown⟩

theorem fulfils_checkAlternatives (first : Pattern) (others : List Pattern) :
    Fulfils prospect K (fun _ _ => True) (checkAlternatives first others) := by
  have hreports : ∀ (issues : List (Site × String)) (K : Prop),
      Fulfils prospect K (fun K' _ => issues ≠ [] → ¬K') (issues.forM fun issue => do
        report (← issueAt issue.1 (.alternative issue.2))) := by
    intro issues
    induction issues with
    | nil => exact fun K => fulfils_pure fun _ _ hne => absurd rfl hne
    | cons issue issues ih =>
      intro K
      refine Fulfils.bind ((fulfils_issueAt _ _).bind fun _ found _ hcause =>
        fulfils_report (hcause ▸ Nat.succ_ne_zero 7)) fun K' _ _ hreported => ?_
      exact (ih K').mono fun K'' _ hK _ _ hK'' => hreported (hK hK'')
  unfold checkAlternatives
  dsimp only
  generalize others.filterMap (fun other =>
    (unsharedName? first other).map fun name => (other.site, name)) = issues
  refine (hreports issues K).bind fun K' _ _ hreported => ?_
  split
  · rename_i hsome
    exact fulfils_throw ⟨rfl, hreported (by simpa using hsome)⟩
  · exact fulfils_pure fun _ _ => trivial

section Match

variable {subject : Node} {result : Ty} {table : Table}

theorem tries_match (typed : Nat → Prop) (htable : table.Proper) (hvalue : value.Fits P K covers)
    (alternative : Pattern) :
    Tries table (Matched P typed alternative) (do
      let (child, classes) ← pattern value.classes alternative
      let classes ← equate classes value.type child.type
      return (child, classes)) := by
  have hpattern : Tries table (Matched P typed alternative) (pattern value.classes alternative) :=
    tries_pattern (fun _ => htable) hvalue.classes alternative
  refine hpattern.bind fun found hfound => ?_
  exact (tries_equate hfound.classes hvalue.type fun hP => (hfound.tree hP).type).bind
    fun next hnext => tries_pure ⟨hfound.tree, hnext, hfound.shows⟩

theorem tries_alternatives (htable : table.Proper) (hresult : P → result.Proper)
    (hvalue : value.Fits P K (subject.Shows typed)) (patterns : List Pattern) (cause : Failure) :
    Tries table
      (fun found => (∀ a ∈ found.1, a.Fits P K (ShowsMatch typed site subject patterns)) ∧
        (patterns ≠ [] ∨ cause.Classified → found.1 ≠ [] ∨ found.2.Classified))
      (alternatives site result value patterns cause) := by
  induction patterns generalizing cause with
  | nil =>
    exact tries_pure ⟨by rintro _ ⟨⟩, .imp_left fun hne => absurd rfl hne⟩
  | cons alternative rest ih =>
    have hsub : rest ⊆ alternative :: rest := subset_cons_self _ _
    rw [alternatives]
    refine (tries_match typed htable hvalue alternative).attempt.bind fun found hfound => ?_
    cases found with
    | error failure =>
      refine (ih failure).mono fun last hlast => ⟨fun a ha => ?_, fun _ => ?_⟩
      · exact (hlast.1 a ha).mono id fun _ _ hshows => hshows.mono hsub
      · exact hlast.2 (.inr (hfound.2 failure rfl))
    | ok found =>
      have hmatched := hfound.1 found rfl
      refine (ih cause).bind fun last hlast => tries_pure ⟨?_, fun _ => .inl (by simp)⟩
      have hrest : ∀ a ∈ last.1, a.Fits P K (ShowsMatch typed site subject (alternative :: rest)) :=
        fun a ha => (hlast.1 a ha).mono id fun _ _ hshows => hshows.mono hsub
      refine forall_mem_cons.mpr
        ⟨⟨fun hP => ⟨(hmatched.tree hP).type, ?_, ?_⟩, fun hK => ?_⟩, hrest⟩
      · rintro _ ⟨⟩
        exact hmatched.classes hP
      · exact .mk (hresult hP) (by simp [hvalue.node hP, hmatched.tree hP])
      · exact ⟨rfl, (hvalue.covers hK).parent (.head _), alternative,
          (.head _), hmatched.shows.parent (by simp)⟩

theorem tries_matchSubject (htable : table.Proper) (hresult : P → result.Proper)
    (hsubjects : subjects.Fit P K (subject.Shows typed)) (hpatterns : patterns ≠ []) :
    Tries table (Disjunction.Fit P K (ShowsMatch typed site subject patterns))
      (matchSubject site patterns result subjects) := by
  refine tries_flatMap hsubjects fun value hvalue => ?_
  refine (tries_alternatives htable hresult hvalue patterns _).bind fun found hfound => ?_
  dsimp only
  split
  · rename_i hnone
    refine tries_throw ((hfound.2 (.inl hpatterns)).resolve_left fun hne => hne ?_)
    exact List.isEmpty_iff.mp hnone
  · rename_i hsome
    rw [Disjunction.ofAnswers, if_neg hsome]
    exact tries_liftM ⟨fun hnil => hsome (List.isEmpty_iff.mpr hnil), hfound.1⟩

end Match

theorem proper_known {found : Answers} (hfound : found.Fit P K covers)
    (hclasses : P → classes.Proper) (hP : P) : (known found classes).Proper := by
  unfold known
  split
  · rename_i only honly
    exact (hfound.each only (by rw [honly]; exact mem_singleton_self _)).classes hP
  · exact hclasses hP

theorem fulfils_whenCase {first : Pattern} {others : List Pattern} {bodySite : Site}
    (hsubjects : Typings prospect P subject K subjects) (hresult : P → result.Proper)
    (hclasses : P → classes.Proper)
    (hbody : ∀ (K : Prop) (known : Classes), (P → known.Proper) →
      Fulfils prospect K (Typings prospect P body) (inferBody known)) :
    Fulfils prospect K
      (fun K' => Disjunction.Fit P K' (ShowsCase prospect.typed subject (first :: others, body)))
      (whenCase site subjects result first others locus bodySite inferBody classes) := by
  refine Fulfils.inBlock ?_ locus
  refine (fulfils_discardTemplates first).bind fun K₁ _ hK₁ _ =>
    (fulfils_checkAlternatives first others).bind fun K₂ _ hK₂ _ => ?_
  have hmatch : ∀ table : Table, table.Proper → Tries table
      (Disjunction.Fit P K₂ (ShowsMatch prospect.typed site subject (first :: others)))
      (matchSubject site (first :: others) result subjects) := fun table htable =>
    tries_matchSubject htable hresult (hsubjects.restrict (hK₁ ∘ hK₂)) (cons_ne_nil _ _)
  refine (fulfils_search first.site hmatch).bind fun K₃ matched hK₃ hmatched => ?_
  rw [knownAfter_bind]
  refine (hbody K₃ _ (proper_known hmatched hclasses)).bind fun K₄ bodies hK₄ hbodies => ?_
  refine fulfils_search bodySite fun table htable =>
    tries_merge (hmatched.restrict hK₄) hbodies fun p b next hp hb hnext => ?_
  refine (tries_equate hnext hresult hb.type).bind fun last hlast => tries_pure ?_
  refine fits_answer hresult (fun hP => ?_) hlast fun hK => ?_
  · refine forall_mem_append.mpr ⟨(hp.node hP).children, fun child hchild => ?_⟩
    exact mem_singleton.mp hchild ▸ hb.node hP
  · obtain ⟨hkey, hsubject, q, hq, hshown⟩ := hp.covers hK
    have hsub := subset_append_left p.node.children [b.node]
    exact ⟨hsubject.widen hkey hsub, ⟨q, hq, hshown.widen hkey hsub⟩,
      (hb.covers hK).parent (mem_append_right _ (mem_singleton_self _))⟩

theorem fulfils_whenCases {cases : List (List Pattern × Node)} {found : List Answers}
    (hresult : P → result.Proper)
    (hfound : PartsFit P K (cases.map (ShowsCase prospect.typed subject)) found)
    (hclasses : P → classes.Proper) :
    Fulfils prospect K (Typings prospect P (.when site subject cases))
      (whenCases site result found classes) := by
  refine fulfils_combine hfound hclasses fun table htable combination hfits => ?_
  refine tries_pure (fits_answer hresult hfits.nodes hfits.classes fun hK => ?_)
  have hcases : ∀ clause ∈ cases, ShowsCase prospect.typed subject clause
      (.mk site.key result combination.nodes) := by
    intro clause hclause
    obtain ⟨tree, htree, hsubject, ⟨p, hp, hshown⟩, hbody⟩ :=
      exists_right_of_forall₂ (hfits.forall₂_nodes hK) hclause
    exact ⟨hsubject.parent htree, ⟨p, hp, hshown.parent htree⟩, hbody.parent htree⟩
  refine .when Typed.marks_self (fun hsome => ?_)
    (fun clause hclause => (hcases clause hclause).2.1)
    fun clause hclause => (hcases clause hclause).2.2
  obtain ⟨clause, hclause⟩ := exists_mem_of_ne_nil _ hsome
  exact (hcases clause hclause).1

/-! ### Comprehensions -/

theorem tries_bindGenerators {table : Table} (typed : Nat → Prop) (htable : table.Proper)
    {targets : List Pattern} {iterables : List Ty}
    (hiterables : P → ∀ t ∈ iterables, t.Proper) (hclasses : P → classes.Proper) :
    Tries table
      (fun found => (P → ∀ tree ∈ found.1, tree.Proper) ∧ (P → found.2.Proper) ∧
        (targets.length = iterables.length → Forall₂ (Pattern.Shows typed) targets found.1))
      (bindGenerators targets iterables classes) := by
  induction targets generalizing iterables classes with
  | nil => exact tries_pure ⟨fun _ => nofun, hclasses, fun _ => .nil⟩
  | cons target targets ih =>
    cases iterables with
    | nil => exact tries_pure ⟨fun _ => nofun, hclasses, nofun⟩
    | cons iterable iterables =>
      have hiterable : P → iterable.Proper := fun hP => hiterables hP iterable (.head _)
      have hrest : P → ∀ t ∈ iterables, t.Proper := fun hP t ht => hiterables hP t (.tail _ ht)
      rw [bindGenerators]
      refine (tries_fresh _).bind fun v _ => ?_
      refine (tries_equate hclasses (fun _ => by simp) hiterable).bind fun next hnext => ?_
      have hpattern : Tries table (Matched P typed target) (pattern next target) :=
        tries_pattern (fun _ => htable) hnext target
      refine hpattern.bind fun child hchild => ?_
      have hchildType : P → child.1.type.Proper := fun hP => (hchild.tree hP).type
      refine (tries_equate hchild.classes (fun _ => .var v) hchildType).bind fun last hlast =>
        (ih hrest hlast).bind fun found hfound => tries_pure ?_
      refine ⟨fun hP => ?_, hfound.2.1, fun hlength => ?_⟩
      · exact forall_mem_cons.mpr ⟨hchild.tree hP, hfound.1 hP⟩
      · exact .cons hchild.shows (hfound.2.2 (Nat.succ.inj hlength))

theorem fulfils_generators
    (hiterables : PartsFit P K (generators.map fun g => g.2.Shows prospect.typed) iterables)
    (hclasses : P → classes.Proper) :
    Fulfils prospect K
      (fun K' => Disjunction.Fit P K' fun tree =>
        tree.key = site.key ∧ ∀ p ∈ generators.map (·.1), p.Shows prospect.typed tree)
      (combine site iterables classes fun combination => do
        let (children, classes) ← bindGenerators (generators.map (·.1)) combination.types
          combination.classes
        return answer site .void children classes) := by
  refine fulfils_combine hiterables hclasses fun table htable combination hfits => ?_
  refine (tries_bindGenerators prospect.typed htable hfits.types hfits.classes).bind
    fun found hfound => ?_
  refine tries_pure (fits_answer (fun _ => Ty.proper_void) hfound.1 hfound.2.1 fun hK => ⟨rfl, ?_⟩)
  have hlength : (generators.map (·.1)).length = combination.types.length := by
    have hall := (hfits.covers hK).length_eq
    rw [length_map] at hall
    rw [length_map, Combination.types, length_map, hall]
  exact forall_covered_of_forall₂ (hfound.2.2 hlength) (Subset.refl _)

theorem fulfils_comprehension
    (hiterables : PartsFit P K (generators.map fun g => g.2.Shows prospect.typed) iterables)
    (hclasses : P → classes.Proper)
    (hbody : ∀ (K : Prop) (known : Classes), (P → known.Proper) →
      Fulfils prospect K (Typings prospect P body) (inferBody known)) :
    Fulfils prospect K (Typings prospect P (.comprehension site generators body))
      (comprehension site (generators.map (·.1)) iterables inferBody classes) := by
  refine (fulfils_generators hiterables hclasses).bind fun K₁ bound hK₁ hbound => ?_
  refine (hbody K₁ classes hclasses).bind fun K₂ bodies hK₂ hbodies => ?_
  refine fulfils_search site fun table htable =>
    tries_merge (hbound.restrict hK₂) hbodies fun g b next hg hb hnext => tries_pure ?_
  refine fits_answer (fun hP => by simpa using hb.type hP) (fun hP => ?_) hnext fun hK => ?_
  · refine forall_mem_append.mpr ⟨(hg.node hP).children, fun child hchild => ?_⟩
    exact mem_singleton.mp hchild ▸ hb.node hP
  · obtain ⟨hkey, htargets⟩ := hg.covers hK
    have hsub := subset_append_left g.node.children [b.node]
    refine .comprehension Typed.marks_self (fun generator hgenerator => ?_)
      ((hb.covers hK).parent (mem_append_right _ (mem_singleton_self _)))
    exact (htargets generator.1 (mem_map_of_mem hgenerator)).widen hkey hsub

/-! ### Assignments and blocks -/

theorem tries_assign {table : Table} (htable : table.Proper) (target : Pattern)
    (templates : List Template) (hvalue : value.Fits P K covers) :
    Tries table (Matched P typed target) (assign target templates value) := by
  unfold assign
  split
  · exact (tries_equate hvalue.classes (fun _ => .var _) hvalue.type).bind fun next hnext =>
      tries_pure ⟨fun _ => .mk (.var _) (by simp), hnext, .identifier Typed.marks_self⟩
  · have hpattern : Tries table (Matched P typed target) (pattern value.classes target) :=
      tries_pattern (fun _ => htable) hvalue.classes target
    refine hpattern.bind fun found hfound => ?_
    exact (tries_equate hfound.classes (fun hP => (hfound.tree hP).type) hvalue.type).bind
      fun next hnext => tries_pure ⟨hfound.tree, hnext, hfound.shows⟩

theorem tries_assignment {table : Table} (htable : table.Proper) {value : Node} (exported : Bool)
    (templates : List Template) (hvalues : values.Fit P K (value.Shows typed)) :
    Tries table
      (Disjunction.Fit P K (Node.Shows typed (.assignment site target value exported)))
      (values.map fun a => do
        let (child, classes) ← assign target templates a
        return answer site .void [child, a.node] classes) := by
  refine tries_map hvalues fun a ha => ?_
  have hassign : Tries table (Matched P typed target) (assign target templates a) :=
    tries_assign htable target templates ha
  refine hassign.bind fun found hfound => tries_pure ?_
  refine fits_answer (fun _ => Ty.proper_void) (fun hP => ?_) hfound.classes fun hK => ?_
  · simp [hfound.tree hP, ha.node hP]
  · exact .assignment Typed.marks_self (hfound.shows.parent (by simp))
      ((ha.covers hK).parent (by simp))

theorem fulfils_assignment {value : Node} (exported : Bool) (templates : List Template)
    (isFunction : Bool) (hvalues : Typings prospect P value K values) :
    Fulfils prospect K
      (fun K' result =>
        Typings prospect P (.assignment site target value exported) K' result.answers)
      (assignment site target templates isFunction values) :=
  (fulfils_search site fun _ htable =>
    tries_assignment htable exported templates hvalues).bind fun _ _ _ hfound =>
      fulfils_pure fun _ hK => hfound.restrict hK

def ShowsStatements (typed : Nat → Prop) (block : Site) (statements : List Node) (tree : Typed) :
    Prop :=
  tree.key = block.key ∧ ∀ node ∈ statements, node.Shows typed tree

theorem ShowsStatements.block (hshows : ShowsStatements typed site statements tree) :
    (Node.block site statements).Shows typed tree := by
  cases tree with
  | mk key type children =>
    obtain ⟨hkey, hstatements⟩ := hshows
    obtain rfl : key = site.key := hkey
    exact .block Typed.marks_self hstatements

theorem fulfils_extend {block stmt : Site} {isLast : Bool} {node : Node} {before : Answers}
    {result : Statement}
    (hbefore : before.Fit P K (ShowsStatements prospect.typed block statements))
    (hresult : Typings prospect P node K result.answers) :
    Fulfils prospect K
      (fun K' => Disjunction.Fit P K' (ShowsStatements prospect.typed block (statements ++ [node])))
      (extend block stmt isLast before result) := by
  refine fulfils_search stmt fun table htable =>
    tries_merge hbefore hresult fun s a next hs ha hnext => tries_pure ?_
  refine fits_answer (fun hP => ?_) (fun hP => ?_) hnext fun hK => ⟨rfl, fun other hother => ?_⟩
  · split
    · exact ha.type hP
    · exact Ty.proper_void
  · refine forall_mem_append.mpr ⟨(hs.node hP).children, fun child hchild => ?_⟩
    exact mem_singleton.mp hchild ▸ ha.node hP
  · rcases mem_append.mp hother with hold | hnew
    · obtain ⟨hkey, hstatements⟩ := hs.covers hK
      exact (hstatements other hold).widen hkey (subset_append_left _ _)
    · rw [mem_singleton.mp hnew]
      exact (ha.covers hK).parent (mem_append_right _ (mem_singleton_self _))

end TypeSearch.Infer
