import TypeSearch.Proofs.Inference.Enclosed
import TypeSearch.Proofs.Tree.Expressions

/-!
# Typings from the typings of parts

What every kind of expression makes of its parts: if the parts fit, the typings of the whole fit,
and its tree has a typing of every part. A part that has failed is one too many for the prospect, so
nothing has to be shown after it.
-/

namespace TypeSearch.Infer

open Inference List
open TypeSearch.Tree (Node Pattern Site TypeExpr entryNodes fst_mem_entryNodes snd_mem_entryNodes)

variable {prospect : Prospect} {K P : Prop} {covers covers' : Typed → Prop}
  {all : List (Typed → Prop)} {classes : Classes} {site : Site} {found : List Answers} {type : Ty}
  {elements : List Node} {function : Node} {functions : Answers}

abbrev Typings (prospect : Prospect) (P : Prop) (node : Node) (K : Prop) (found : Answers) : Prop :=
  found.Fit P K (node.Shows prospect.typed)

def PartsFit (P K : Prop) (all : List (Typed → Prop)) (found : List Answers) : Prop :=
  List.Forall₂ (fun covers answers => Disjunction.Fit P K covers answers) all found

def PartsTried (P K : Prop) (all : List (Typed → Prop)) (found : List (Except Failure Answers)) :
    Prop :=
  List.Forall₂ (fun covers part => Attempted K (Disjunction.Fit P K covers) part) all found

theorem PartsTried.mono {found : List (Except Failure Answers)} {K' : Prop}
    (htried : PartsTried P K all found) (hK : K' → K) : PartsTried P K' all found :=
  htried.imp fun _ _ hpart => hpart.mono hK fun _ hfit => hfit.restrict hK

theorem fulfils_allOrLast {found : List (Except Failure Answers)}
    (htried : PartsTried P K all found) :
    Fulfils prospect K (fun K' => PartsFit P K' all) (allOrLast found) := by
  unfold allOrLast
  dsimp only
  split
  · rename_i failure hlast
    refine fulfils_throw ?_
    obtain ⟨part, hpart, hfailure⟩ := mem_filterMap.mp (mem_of_getLast? hlast)
    obtain ⟨covers, -, htried⟩ := exists_left_of_forall₂ htried hpart
    cases part with
    | ok answers => cases hfailure
    | error cause =>
      cases hfailure
      exact htried
  · rename_i hnone
    rw [getLast?_eq_none_iff] at hnone
    refine fulfils_pure fun K' hK => ?_
    clear * - htried hnone hK
    induction htried with
    | nil => exact .nil
    | @cons covers part rest parts hpart _ ih =>
      cases part with
      | ok answers => exact .cons (Disjunction.Fit.restrict hpart hK) (ih hnone)
      | error failure => cases hnone

theorem fulfils_search {computation : Infer Answers} (site : Site)
    (htries : ∀ table, table.Proper → Tries table (Disjunction.Fit P K covers) computation) :
    Fulfils prospect K (fun K' => Disjunction.Fit P K' covers) (reportingAt site computation) :=
  (fulfils_reportingAt site htries).mono fun _ _ hK hfit => hfit.restrict hK

theorem fulfils_combine (hfound : PartsFit P K all found) (hclasses : P → classes.Proper)
    {make : Combination Typed → Infer (Answer Typed)}
    (hmake : ∀ table : Table, table.Proper → ∀ combination, combination.Fits P K all →
      Tries table (Answer.Fits P K covers) (make combination)) :
    Fulfils prospect K (fun K' => Disjunction.Fit P K' covers)
      (combine site found classes make) := by
  refine fulfils_search site fun table htable => ?_
  refine (tries_liftM (Combinations.distribute_meets hfound hclasses)).bind fun found hfit => ?_
  exact tries_collect hfit (hmake table htable)

theorem forall_covered_of_nodes {typed : Nat → Prop} {nodes : List Node} {children : List Typed}
    (hshows : Forall₂ (Node.Shows typed) nodes children) {key : Nat} :
    ∀ node ∈ nodes, node.Covered (Typed.Marks typed (.mk key type children)) := by
  intro node hnode
  obtain ⟨child, hchild, hcovered⟩ := exists_right_of_forall₂ hshows hnode
  exact Tree.Node.Shows.parent hcovered hchild

/-! ### Names and literals -/

theorem typings_literal (value : Tree.Literal) (hclasses : P → classes.Proper) :
    Typings prospect P (.literal value) K (leaf value.site (literalType value) classes) :=
  fit_leaf (fun _ => proper_literalType value) hclasses fun _ => .literal Typed.marks_self

theorem fulfils_identifier (name : String) (hclasses : P → classes.Proper) :
    Fulfils prospect K (Typings prospect P (.identifier site name))
      (identifier site name classes) := by
  refine fulfils_table.bind fun K' table _ htable => ?_
  split
  · refine (fulfils_issueAt site _).bind fun _ issue _ hcause => fulfils_failAt site ?_
    change issue.cause.code ≠ 0
    rw [hcause]
    exact Nat.succ_ne_zero 1
  · rename_i binding hresolve
    refine (fulfils_instantiate (htable.resolve hresolve) _).bind fun K' type _ htype => ?_
    have hcovers : ∀ t, Node.Shows prospect.typed (.identifier site name) (.mk site.key t []) :=
      fun t => .identifier Typed.marks_self
    split
    · -- each member of a union is an answer
      rename_i members _
      obtain ⟨hsome, hmembers⟩ := Ty.proper_union_iff.mp htype
      have hfit : Disjunction.Fit P K' (Node.Shows prospect.typed (.identifier site name))
          ⟨members.map fun member => answer site member [] classes⟩ := by
        refine ⟨fun hnil => hsome (map_eq_nil_iff.mp hnil), fun a ha => ?_⟩
        obtain ⟨member, hmember, rfl⟩ := mem_map.mp ha
        exact fits_answer (fun _ => hmembers member hmember) (fun _ => by simp) hclasses
          fun _ => hcovers member
      have hmeets : (Disjunction.ofAnswers (members.map fun member => answer site member [] classes)
          : Outcome Failure Answers).Meets (Disjunction.Fit P K'
            (Node.Shows prospect.typed (.identifier site name))) fun _ => False := by
        rw [Disjunction.ofAnswers, if_neg (by simpa using hsome)]
        exact hfit
      exact (fulfils_liftM hmeets).mono fun _ _ hK hfit => hfit.restrict hK
    · exact fulfils_pure fun _ _ => fit_leaf (fun _ => htype) hclasses fun _ => hcovers _

/-! ### Lists, tuples and maps -/

section Equate

variable {table : Table} {types : List Ty}

theorem tries_equateAlternately {first second : Ty} (hfirst : P → first.Proper)
    (hsecond : P → second.Proper) (htypes : P → ∀ t ∈ types, t.Proper)
    (hclasses : P → classes.Proper) :
    Tries table (fun next => P → next.Proper) (equateAlternately first second types classes) := by
  induction types generalizing classes first second with
  | nil => exact tries_pure hclasses
  | cons type types ih =>
    have htype : P → type.Proper := fun hP => htypes hP type (.head _)
    have hothers : P → ∀ t ∈ types, t.Proper := fun hP t ht => htypes hP t (.tail _ ht)
    exact (tries_equate hclasses hfirst htype).bind
      fun next hnext => ih hsecond hfirst hothers hnext

end Equate

theorem fulfils_list (hfound : PartsFit P K (elements.map (Node.Shows prospect.typed)) found)
    (hclasses : P → classes.Proper) :
    Fulfils prospect K (Typings prospect P (.list site elements)) (list site found classes) := by
  refine fulfils_search site fun table htable => ?_
  refine (tries_liftM (Combinations.distribute_meets hfound hclasses)).bind fun all hall => ?_
  refine (tries_fresh _).bind fun v _ => tries_collect hall fun combination hfits => ?_
  rw [equateAll_eq]
  refine (tries_equateAlternately (fun _ => .var v) (fun _ => .var v) hfits.types
    hfits.classes).bind fun next hnext => ?_
  refine tries_pure (fits_answer (fun _ => by simp) hfits.nodes hnext fun hK => ?_)
  exact .list Typed.marks_self (forall_covered_of_nodes (hfits.forall₂_nodes hK))

theorem fulfils_tuple (hfound : PartsFit P K (elements.map (Node.Shows prospect.typed)) found)
    (hclasses : P → classes.Proper) :
    Fulfils prospect K (Typings prospect P (.tuple site elements)) (tuple site found classes) := by
  refine fulfils_combine hfound hclasses fun table htable combination hfits => ?_
  refine tries_pure (fits_answer (fun hP => .parametric (hfits.types hP)) hfits.nodes
    hfits.classes fun hK => ?_)
  exact .tuple Typed.marks_self (forall_covered_of_nodes (hfits.forall₂_nodes hK))

theorem fulfils_map {entries : List (Node × Node)}
    (hfound : PartsFit P K ((entryNodes entries).map (Node.Shows prospect.typed)) found)
    (hclasses : P → classes.Proper) :
    Fulfils prospect K (Typings prospect P (.map site entries)) (map site found classes) := by
  refine fulfils_search site fun table htable => ?_
  refine (tries_liftM (Combinations.distribute_meets hfound hclasses)).bind fun all hall => ?_
  refine (tries_fresh _).bind fun k _ => (tries_fresh _).bind fun v _ =>
    tries_collect hall fun combination hfits => ?_
  refine (tries_equateAlternately (fun _ => .var k) (fun _ => .var v) hfits.types
    hfits.classes).bind fun next hnext => ?_
  refine tries_pure (fits_answer (fun _ => by simp) hfits.nodes hnext fun hK => ?_)
  have hcovered : ∀ node ∈ entryNodes entries, node.Covered (Typed.Marks prospect.typed
      (.mk site.key (.map (.var k) (.var v)) combination.nodes)) :=
    forall_covered_of_nodes (hfits.forall₂_nodes hK)
  exact .map Typed.marks_self (fun entry hentry => hcovered _ (fst_mem_entryNodes hentry))
    fun entry hentry => hcovered _ (snd_mem_entryNodes hentry)

/-! ### Calls -/

section Calls

variable {table : Table} {function arg : Ty}

def ProperPair (P : Prop) (found : Ty × Classes) : Prop := P → found.1.Proper ∧ found.2.Proper

theorem tries_asFunction (hfunction : P → function.Proper) (harg : P → arg.Proper)
    (hclasses : P → classes.Proper) :
    Tries table (ProperPair P) (asFunction function arg classes) := by
  refine (tries_fresh _).bind fun v _ => ?_
  have hexpected : P → (Ty.curried [arg, .var v]).Proper := by
    intro hP
    simp [harg hP]
  exact (tries_equate hclasses hexpected hfunction).bind fun next hnext =>
    tries_pure fun hP => ⟨.var v, hnext hP⟩

theorem tries_call (hfunction : P → function.Proper) (hclasses : P → classes.Proper) :
    Tries table (ProperPair P) (call function classes) := by
  have hresolved : P → (classes.resolve function).Proper :=
    fun hP => (hclasses hP).resolve (hfunction hP)
  unfold call
  generalize classes.resolve function = resolved at hresolved
  split
  · rename_i result
    refine tries_pure fun hP => ⟨?_, hclasses hP⟩
    exact (Ty.proper_curried_iff.mp (hresolved hP)).2 result (.head _)
  · rename_i param result
    split
    · refine tries_pure fun hP => ⟨?_, hclasses hP⟩
      exact (Ty.proper_curried_iff.mp (hresolved hP)).2 result (by simp)
    · exact tries_asFunction hresolved (fun _ => Ty.proper_void) hclasses
  · exact tries_asFunction hresolved (fun _ => Ty.proper_void) hclasses

theorem tries_apply (hfunction : P → function.Proper) (harg : P → arg.Proper)
    (hclasses : P → classes.Proper) :
    Tries table (ProperPair P) (apply function arg classes) := by
  have hresolved : P → (classes.resolve function).Proper :=
    fun hP => (hclasses hP).resolve (hfunction hP)
  unfold apply
  generalize classes.resolve function = resolved at hresolved
  split
  · rename_i param result params
    have hparts : P → ∀ t ∈ param :: result :: params, t.Proper :=
      fun hP => (Ty.proper_curried_iff.mp (hresolved hP)).2
    have hremainder : (remainder result params).Meets (fun rest => P → rest.Proper)
        Failure.Classified := by
      unfold remainder
      split
      · exact fun hP => hparts hP result (by simp)
      · exact fun hP => .curried (cons_ne_nil _ _) fun t ht => hparts hP t (.tail _ ht)
    exact (tries_equate hclasses (fun hP => hparts hP param (.head _)) harg).bind
      fun next hnext => (tries_liftM hremainder).bind
        fun _ hrest => tries_pure fun hP => ⟨hrest hP, hnext hP⟩
  · exact tries_asFunction hresolved harg hclasses

end Calls

theorem fulfils_callAll (hfunctions : Typings prospect P function K functions) :
    Fulfils prospect K (Typings prospect P (.application site function none))
      (callAll site functions) := by
  refine fulfils_search site fun table htable => tries_map hfunctions fun f hf => ?_
  refine (tries_call hf.type hf.classes).bind fun found hfound => tries_pure ?_
  refine fits_answer (fun hP => (hfound hP).1) (fun hP => ?_) (fun hP => (hfound hP).2) fun hK => ?_
  · exact forall_mem_singleton.mpr (hf.node hP)
  · exact .application Typed.marks_self ((hf.covers hK).parent (mem_singleton_self _)) nofun

theorem fulfils_applyAll {argument : Node} {args : Answers}
    (hfunctions : Typings prospect P function K functions)
    (hargs : Typings prospect P argument K args) :
    Fulfils prospect K (Typings prospect P (.application site function (some argument)))
      (applyAll site functions args) := by
  refine fulfils_search site fun table htable =>
    tries_merge hfunctions hargs fun f a next hf ha hnext => ?_
  refine (tries_apply hf.type ha.type hnext).bind fun found hfound => tries_pure ?_
  refine fits_answer (fun hP => (hfound hP).1) (fun hP => ?_) (fun hP => (hfound hP).2) fun hK => ?_
  · simp [hf.node hP, ha.node hP]
  · refine .application Typed.marks_self ((hf.covers hK).parent (by simp)) ?_
    rintro _ ⟨⟩
    exact (ha.covers hK).parent (by simp)

/-! ### Members, annotations and conditions -/

theorem fulfils_access {target : Node} {targets : Answers} (targetSite : Site) (member : String)
    (htargets : Typings prospect P target K targets) :
    Fulfils prospect K (Typings prospect P (.access site target member))
      (access site targetSite member targets) := by
  refine fulfils_search site fun table htable => tries_map htargets fun a ha => ?_
  refine (tries_liftM ha.reduced).bind fun reduced hreduced => ?_
  split
  · rename_i name args
    apply tries_table
    split
    · exact tries_throwAt site (Nat.succ_ne_zero 1)
    · rename_i found hfound
      have hfield : P → found.type.Proper :=
        fun hP => htable.member? (Ty.proper_parametric_iff.mp (hreduced hP)) hfound
      refine (tries_instantiate hfield _).bind fun type htype => tries_pure ?_
      refine fits_answer htype (fun hP => ?_) ha.classes fun hK => ?_
      · exact forall_mem_singleton.mpr (ha.node hP)
      · exact .access Typed.marks_self ((ha.covers hK).parent (mem_singleton_self _))
  · exact tries_throwAt targetSite (Nat.succ_ne_zero 6)

theorem fulfils_annotated {value : Node} {values : Answers} (written : TypeExpr)
    (htype : type.Proper) (hvalues : Typings prospect P value K values) :
    Fulfils prospect K (Typings prospect P (.annotated site value written))
      (annotated site type values) := by
  refine fulfils_search site fun table htable => tries_map hvalues fun a ha => ?_
  refine (tries_unify ha.classes (fun _ => htype) ha.type).bind fun found hfound => tries_pure ?_
  refine fits_answer (fun hP => (hfound hP).1) (fun hP => ?_) (fun hP => (hfound hP).2) fun hK => ?_
  · exact forall_mem_singleton.mpr (ha.node hP)
  · exact .annotated Typed.marks_self ((ha.covers hK).parent (mem_singleton_self _))

theorem fulfils_conditional {condition yes : Node} {no : Option Node}
    (hfound : PartsFit P K ((condition :: yes :: no.toList).map (Node.Shows prospect.typed)) found)
    (hclasses : P → classes.Proper) :
    Fulfils prospect K (Typings prospect P (.conditional site condition yes no))
      (conditional site found classes) := by
  refine fulfils_combine hfound hclasses fun table htable combination hfits => ?_
  have hcovers : K → ∀ type, Node.Shows prospect.typed (.conditional site condition yes no)
      (.mk site.key type combination.nodes) := by
    intro hK type
    have hcovered : ∀ node ∈ condition :: yes :: no.toList, node.Covered
        (Typed.Marks prospect.typed (.mk site.key type combination.nodes)) :=
      forall_covered_of_nodes (hfits.forall₂_nodes hK)
    exact .conditional Typed.marks_self (hcovered condition (.head _))
      (hcovered yes (.tail _ (.head _))) fun node hnode =>
        hcovered node (.tail _ (.tail _ (Option.mem_toList.mpr hnode)))
  have htypes := hfits.types
  split
  · rename_i first second third htriple
    rw [htriple] at htypes
    refine (tries_equate hfits.classes (fun _ => Ty.proper_boolean) fun hP =>
      htypes hP first (by simp)).bind fun next hnext => ?_
    refine (tries_unify hnext (fun hP => htypes hP second (by simp))
      fun hP => htypes hP third (by simp)).bind fun found hfound => tries_pure ?_
    exact fits_answer (fun hP => (hfound hP).1) hfits.nodes (fun hP => (hfound hP).2)
      fun hK => hcovers hK _
  · have hhead : P → (combination.types.headD .void).Proper := by
      intro hP
      cases htypes' : combination.types with
      | nil => exact Ty.proper_void
      | cons first rest => exact htypes hP first (by simp [htypes'])
    refine (tries_equate hfits.classes (fun _ => Ty.proper_boolean) hhead).bind
      fun next hnext => tries_pure ?_
    exact fits_answer (fun _ => Ty.proper_void) hfits.nodes hnext fun hK => hcovers hK _

end TypeSearch.Infer
