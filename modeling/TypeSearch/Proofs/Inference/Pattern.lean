import TypeSearch.Proofs.Inference.Fit
import TypeSearch.Proofs.Scope.Proper

/-!
# Written types and patterns

Reading a written type and matching a pattern only try: they stay within proper types, as the table
does, and a pattern gives a tree with a typing of every pattern in it.
-/

namespace TypeSearch.Infer

open List
open TypeSearch.Tree (Binder Literal Pattern Site TypeExpr)

variable {α : Type} {table : Table}

/-! ### Written types -/

theorem tries_arityMismatch {post : α → Prop} (site : Site) (name : String) (expected : Ty)
    (count : Nat) : Tries table post (arityMismatch site name expected count) :=
  (tries_freshAll _).bind fun _ _ => tries_throwAt site (Nat.succ_ne_zero 5)

theorem tries_namedType (site : Site) (name : String) {args : List Ty}
    (hargs : ∀ t ∈ args, t.Proper) : Tries table Ty.Proper (namedType site name args) := by
  unfold namedType
  split
  · split
    · exact tries_pure (.parametric nofun)
    · exact tries_arityMismatch _ _ _ _
  · split
    · split
      · exact tries_pure (by simpa using hargs)
      · exact (tries_fresh _).bind fun _ _ => tries_arityMismatch _ _ _ _
    · split
      · split
        · exact tries_pure (by simpa using hargs)
        · exact (tries_fresh _).bind fun _ _ => (tries_fresh _).bind fun _ _ =>
            tries_arityMismatch _ _ _ _
      · split
        · exact tries_pure (.parametric hargs)
        · split
          · split
            · exact (tries_fresh _).bind fun _ _ => tries_arityMismatch _ _ _ _
            · rename_i hsome
              rw [List.isEmpty_iff] at hsome
              rw [Ty.function_of_ne_nil hsome]
              exact tries_liftM (Ty.Proper.curried hsome hargs)
          · apply tries_table
            split
            · exact tries_throwAt site (Nat.succ_ne_zero 1)
            · split
              · exact tries_pure (.parametric hargs)
              · exact tries_arityMismatch _ _ _ _

mutual

theorem tries_typeExpr (names : TypeNames) :
    ∀ type : TypeExpr, Tries table (fun found => found.1.Proper) (typeExpr names type)
  | .mk site name args => by
    rw [typeExpr]
    split
    · split
      · exact tries_arityMismatch _ _ _ _
      · split
        · exact tries_pure (.var _)
        · exact (tries_fresh _).bind fun _ _ => tries_pure (.var _)
    · exact (tries_typeExprs names args).bind fun found hfound =>
        (tries_namedType site name hfound).bind fun _ htype => tries_pure htype

theorem tries_typeExprs (names : TypeNames) :
    ∀ types : List TypeExpr,
      Tries table (fun found => ∀ t ∈ found.1, t.Proper) (typeExprs names types)
  | [] => by
    rw [typeExprs]
    exact tries_pure nofun
  | type :: types => by
    rw [typeExprs]
    exact (tries_typeExpr names type).bind fun first hfirst =>
      (tries_typeExprs first.2 types).bind fun rest hrest =>
        tries_pure (forall_mem_cons.mpr ⟨hfirst, hrest⟩)

end

theorem tries_writtenType (type : TypeExpr) : Tries table Ty.Proper (writtenType type) :=
  (tries_typeExpr [] type).bind fun _ htype => tries_pure htype

/-! ### Patterns -/

section Pattern

variable {P : Prop} {typed : Nat → Prop} {classes : Classes} {ps : List Pattern} {params : List Ty}

structure Matched (P : Prop) (typed : Nat → Prop) (p : Pattern) (found : Typed × Classes) :
    Prop where
  tree : P → found.1.Proper
  classes : P → found.2.Proper
  shows : p.Shows typed found.1

structure MatchedAll (P : Prop) (typed : Nat → Prop) (ps : List Pattern)
    (found : List Typed × Classes) : Prop where
  trees : P → ∀ tree ∈ found.1, tree.Proper
  classes : P → found.2.Proper
  shows : List.Forall₂ (Pattern.Shows typed) ps found.1

theorem matchedAll_nil (hclasses : P → classes.Proper) : MatchedAll P typed [] ([], classes) :=
  ⟨fun _ => nofun, hclasses, .nil⟩

theorem Matched.cons {p : Pattern} {first : Typed × Classes} {rest : List Typed × Classes}
    (hfirst : Matched P typed p first) (hrest : MatchedAll P typed ps rest) :
    MatchedAll P typed (p :: ps) (first.1 :: rest.1, rest.2) :=
  ⟨fun hP => forall_mem_cons.mpr ⟨hfirst.tree hP, hrest.trees hP⟩, hrest.classes,
    .cons hfirst.shows hrest.shows⟩

theorem MatchedAll.types {found : List Typed × Classes} (hmatched : MatchedAll P typed ps found)
    (hP : P) : ∀ type ∈ found.1.map (·.type), type.Proper := by
  intro type htype
  obtain ⟨tree, htree, rfl⟩ := mem_map.mp htype
  exact (hmatched.trees hP tree htree).type

theorem forall_covered_of_forall₂ {children : List Typed}
    (hshows : Forall₂ (Pattern.Shows typed) ps children) {key : Nat} {type : Ty}
    {siblings : List Typed} (hsiblings : children ⊆ siblings) :
    ∀ p ∈ ps, p.Covered (Typed.Marks typed (.mk key type siblings)) := by
  intro p hp
  obtain ⟨child, hchild, hcovered⟩ := exists_right_of_forall₂ hshows hp
  exact Tree.Pattern.Shows.parent hcovered (hsiblings hchild)

theorem tries_nameType (htable : P → table.Proper) (name : String) :
    Tries table (fun type => P → type.Proper) (nameType name) := by
  apply tries_table
  split
  · exact tries_pure fun _ => .var _
  · split
    · rename_i binding hresolve
      exact tries_pure fun hP => (htable hP).resolveAmong hresolve
    · exact (tries_fresh _).bind fun _ _ => tries_pure fun _ => .var _

theorem tries_binder (htable : P → table.Proper) (binder : Binder)
    (hclasses : P → classes.Proper) :
    Tries table (Matched P typed (.identifier binder)) (Infer.binder binder classes) := by
  refine (tries_nameType htable _).bind fun type htype => ?_
  split
  · exact tries_pure ⟨fun hP => .mk (htype hP) nofun, hclasses, .identifier Typed.marks_self⟩
  · refine (tries_writtenType _).bind fun written hwritten => ?_
    refine (tries_unify hclasses htype fun _ => hwritten).bind fun found hfound => ?_
    exact tries_pure ⟨fun hP => .mk (hfound hP).1 nofun, fun hP => (hfound hP).2,
      .identifier Typed.marks_self⟩

theorem proper_literalType (value : Literal) : (literalType value).Proper := by
  cases value <;> exact .parametric nofun

theorem tries_wrongArguments {post : α → Prop} (params : List Ty) (count : Nat) :
    Tries table post (wrongArguments params count) := by
  refine (tries_freshAll _).bind fun args _ => ?_
  rw [Ty.function_concat]
  exact tries_throw trivial

theorem proper_result (hparams : ∀ t ∈ params, t.Proper) : (Ty.result params).Proper := by
  unfold Ty.result
  cases hlast : params.getLast? with
  | none =>
    rw [getLastD_eq_getLast?, hlast]
    exact Ty.proper_void
  | some t =>
    rw [getLastD_eq_getLast?, hlast]
    exact hparams t (mem_of_getLast? hlast)

theorem mem_of_mem_arguments {t : Ty} (ht : t ∈ Ty.arguments params) : t ∈ params :=
  Ty.mem_of_mem_dropVoid (mem_of_mem_dropLast ht)

theorem patternsOf_eq (type : Ty) (classes : Classes) (ps : List Pattern) :
    patternsOf type classes ps = patternsAs (replicate ps.length type) classes ps := by
  induction ps generalizing classes with
  | nil => rw [patternsOf, patternsAs]
  | cons p ps ih =>
    simp only [patternsOf, patternsAs, ih]
    rfl

mutual

theorem tries_pattern (htable : P → table.Proper) {classes : Classes}
    (hclasses : P → classes.Proper) :
    ∀ p : Pattern, Tries table (Matched P typed p) (pattern classes p)
  | .identifier binder => by
    rw [pattern]
    exact tries_binder htable binder hclasses
  | .wildcard site => by
    rw [pattern]
    exact (tries_fresh _).bind fun _ _ =>
      tries_pure ⟨fun _ => .mk (.var _) nofun, hclasses, .wildcard Typed.marks_self⟩
  | .literal site value => by
    rw [pattern]
    have hvalue : (Typed.mk value.site.key (literalType value) []).Proper :=
      .mk (proper_literalType value) nofun
    refine tries_pure ⟨fun _ => .mk (proper_literalType value) ?_, hclasses,
      .literal Typed.marks_self (Typed.marks_self.parent (mem_singleton_self _))⟩
    exact fun child hchild => mem_singleton.mp hchild ▸ hvalue
  | .tuple site elements => by
    rw [pattern]
    refine (tries_patterns htable hclasses elements).bind fun found hfound => tries_pure ?_
    refine ⟨fun hP => .mk (.parametric (hfound.types hP)) (hfound.trees hP), hfound.classes, ?_⟩
    exact .tuple Typed.marks_self (forall_covered_of_forall₂ hfound.shows (Subset.refl _))
  | .list site elements rest => by
    rw [pattern]
    refine (tries_fresh _).bind fun v _ => ?_
    have helement : (Ty.list (.var v)).Proper := by simp
    have htypes : P → ∀ t ∈ replicate elements.length (Ty.var v), t.Proper :=
      fun _ t ht => eq_of_mem_replicate ht ▸ .var v
    simp only [patternsOf_eq]
    refine (tries_patternsAs htable htypes hclasses elements).bind fun found hfound => ?_
    cases rest with
    | none =>
      refine tries_pure ⟨fun hP => .mk helement (hfound.trees hP), hfound.classes, ?_⟩
      exact .list Typed.marks_self
        (forall_covered_of_forall₂ hfound.shows (Subset.refl _)) nofun
    | some name =>
      have hbinder : Tries table (Matched P typed (.identifier name))
          (Infer.binder name found.2) := tries_binder htable name hfound.classes
      refine hbinder.bind fun child hchild => ?_
      refine (tries_equate hchild.classes (fun _ => helement) fun hP =>
        (hchild.tree hP).type).bind fun classes hclasses => ?_
      refine tries_pure ⟨fun hP => .mk helement ?_, hclasses, ?_⟩
      · refine forall_mem_append.mpr ⟨hfound.trees hP, fun tree htree => ?_⟩
        exact mem_singleton.mp htree ▸ hchild.tree hP
      · refine .list Typed.marks_self
          (forall_covered_of_forall₂ hfound.shows (subset_append_left _ _)) ?_
        rintro _ ⟨⟩
        have hname : Pattern.Shows typed (.identifier name) child.1 := hchild.shows
        cases hname with
        | identifier hkey =>
          exact hkey.parent (mem_append_right _ (mem_singleton_self _))
  | .constructor site name args => by
    rw [pattern]
    apply tries_table
    split
    · exact tries_throwAt site (Nat.succ_ne_zero 1)
    · rename_i binding hresolve
      refine (tries_instantiate (fun hP => (htable hP).resolve hresolve) _).bind
        fun type htype => ?_
      split
      · rename_i params
        have hparams := fun hP => (Ty.proper_curried_iff.mp (htype hP)).2
        split
        · have harguments : P → ∀ t ∈ Ty.arguments params, t.Proper :=
            fun hP t ht => hparams hP t (mem_of_mem_arguments ht)
          refine (tries_patternsAs htable harguments hclasses args).bind
            fun found hfound => tries_pure ?_
          refine ⟨fun hP => .mk (proper_result (hparams hP)) (hfound.trees hP), hfound.classes,
            ?_⟩
          exact .constructor Typed.marks_self
            (forall_covered_of_forall₂ hfound.shows (Subset.refl _))
        · exact tries_wrongArguments _ _
      · split
        · rename_i hnil
          obtain rfl := List.isEmpty_iff.mp hnil
          exact tries_pure ⟨fun hP => .mk (htype hP) nofun, hclasses,
            .constructor Typed.marks_self nofun⟩
        · exact tries_wrongArguments _ _

theorem tries_patterns (htable : P → table.Proper) {classes : Classes}
    (hclasses : P → classes.Proper) :
    ∀ ps : List Pattern, Tries table (MatchedAll P typed ps) (patterns classes ps)
  | [] => by
    rw [patterns]
    exact tries_pure (matchedAll_nil hclasses)
  | p :: ps => by
    rw [patterns]
    exact (tries_pattern htable hclasses p).bind fun first hfirst =>
      (tries_patterns htable hfirst.classes ps).bind fun rest hrest =>
        tries_pure (hfirst.cons hrest)

theorem tries_patternsAs (htable : P → table.Proper) {types : List Ty}
    (htypes : P → ∀ t ∈ types, t.Proper) {classes : Classes} (hclasses : P → classes.Proper) :
    ∀ ps : List Pattern, Tries table (MatchedAll P typed ps) (patternsAs types classes ps)
  | [] => by
    rw [patternsAs]
    exact tries_pure (matchedAll_nil hclasses)
  | p :: ps => by
    rw [patternsAs]
    have hhead : P → (types.headD .void).Proper := by
      cases types with
      | nil => exact fun _ => Ty.proper_void
      | cons t ts => exact fun hP => htypes hP t (.head _)
    refine (tries_pattern htable hclasses p).bind fun first hfirst => ?_
    refine (tries_equate hfirst.classes hhead fun hP => (hfirst.tree hP).type).bind
      fun classes hclasses => ?_
    have htail : P → ∀ t ∈ types.tail, t.Proper :=
      fun hP t ht => htypes hP t (mem_of_mem_tail ht)
    exact (tries_patternsAs htable htail hclasses ps).bind fun rest hrest =>
      tries_pure (hfirst.cons hrest)

end

end Pattern

end TypeSearch.Infer
