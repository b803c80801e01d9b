import TypeSearch.Tree.Walk

/-!
# Trees whose nodes are marked

`Node.Covered marked` says which nodes of a tree are marked when the typings of its parts are put
together: all of them, at any depth, but for what a comprehension goes through, for the subject of a
`when` without cases, and for all but one of the alternatives of a case. In a tree without these
every node that is no type is marked.
-/

namespace TypeSearch.Tree

variable {marked marked' : Nat → Prop}

inductive Pattern.Covered (marked : Nat → Prop) : Pattern → Prop
  | identifier {binder : Binder} (hkey : marked binder.site.key) :
      Covered marked (.identifier binder)
  | wildcard {site : Site} (hkey : marked site.key) : Covered marked (.wildcard site)
  | literal {site : Site} {value : Literal} (hkey : marked site.key)
      (hvalue : marked value.site.key) : Covered marked (.literal site value)
  | tuple {site : Site} {elements : List Pattern} (hkey : marked site.key)
      (helements : ∀ p ∈ elements, Covered marked p) : Covered marked (.tuple site elements)
  | list {site : Site} {elements : List Pattern} {rest : Option Binder} (hkey : marked site.key)
      (helements : ∀ p ∈ elements, Covered marked p)
      (hrest : ∀ binder ∈ rest, marked binder.site.key) : Covered marked (.list site elements rest)
  | constructor {site : Site} {name : String} {args : List Pattern} (hkey : marked site.key)
      (hargs : ∀ p ∈ args, Covered marked p) : Covered marked (.constructor site name args)

theorem Pattern.Covered.mono (hmarked : ∀ key, marked key → marked' key) {p : Pattern}
    (hcovered : p.Covered marked) : p.Covered marked' := by
  induction hcovered with
  | identifier hkey => exact .identifier (hmarked _ hkey)
  | wildcard hkey => exact .wildcard (hmarked _ hkey)
  | literal hkey hvalue => exact .literal (hmarked _ hkey) (hmarked _ hvalue)
  | tuple hkey _ ih => exact .tuple (hmarked _ hkey) ih
  | list hkey _ hrest ih =>
    exact .list (hmarked _ hkey) ih fun binder hbinder => hmarked _ (hrest binder hbinder)
  | constructor hkey _ ih => exact .constructor (hmarked _ hkey) ih

namespace Node

inductive Covered (marked : Nat → Prop) : Node → Prop
  | literal {value : Literal} (hkey : marked value.site.key) : Covered marked (.literal value)
  | identifier {site : Site} {name : String} (hkey : marked site.key) :
      Covered marked (.identifier site name)
  | list {site : Site} {elements : List Node} (hkey : marked site.key)
      (helements : ∀ node ∈ elements, Covered marked node) : Covered marked (.list site elements)
  | tuple {site : Site} {elements : List Node} (hkey : marked site.key)
      (helements : ∀ node ∈ elements, Covered marked node) : Covered marked (.tuple site elements)
  | map {site : Site} {entries : List (Node × Node)} (hkey : marked site.key)
      (hkeys : ∀ entry ∈ entries, Covered marked entry.1)
      (hvalues : ∀ entry ∈ entries, Covered marked entry.2) : Covered marked (.map site entries)
  | application {site : Site} {function : Node} {argument : Option Node} (hkey : marked site.key)
      (hfunction : Covered marked function) (hargument : ∀ node ∈ argument, Covered marked node) :
      Covered marked (.application site function argument)
  | abstraction {site : Site} {branches : List (List Pattern × Node)} (hkey : marked site.key)
      (hparams : ∀ branch ∈ branches, ∀ p ∈ branch.1, p.Covered marked)
      (hbodies : ∀ branch ∈ branches, Covered marked branch.2) :
      Covered marked (.abstraction site branches)
  | assignment {site : Site} {target : Pattern} {value : Node} {exported : Bool}
      (hkey : marked site.key) (htarget : target.Covered marked) (hvalue : Covered marked value) :
      Covered marked (.assignment site target value exported)
  | block {site : Site} {statements : List Node} (hkey : marked site.key)
      (hstatements : ∀ node ∈ statements, Covered marked node) :
      Covered marked (.block site statements)
  | when {site : Site} {subject : Node} {cases : List (List Pattern × Node)}
      (hkey : marked site.key) (hsubject : cases ≠ [] → Covered marked subject)
      (halternative : ∀ clause ∈ cases, ∃ p ∈ clause.1, p.Covered marked)
      (hbodies : ∀ clause ∈ cases, Covered marked clause.2) :
      Covered marked (.when site subject cases)
  | conditional {site : Site} {condition yes : Node} {no : Option Node} (hkey : marked site.key)
      (hcondition : Covered marked condition) (hyes : Covered marked yes)
      (hno : ∀ node ∈ no, Covered marked node) :
      Covered marked (.conditional site condition yes no)
  | comprehension {site : Site} {generators : List (Pattern × Node)} {body : Node}
      (hkey : marked site.key) (htargets : ∀ generator ∈ generators, generator.1.Covered marked)
      (hbody : Covered marked body) : Covered marked (.comprehension site generators body)
  | access {site : Site} {target : Node} {member : String} (hkey : marked site.key)
      (htarget : Covered marked target) : Covered marked (.access site target member)
  | annotated {site : Site} {value : Node} {type : TypeExpr} (hkey : marked site.key)
      (hvalue : Covered marked value) : Covered marked (.annotated site value type)
  | importFile {site : Site} {path : String} {names : List String} {moduleName : String}
      (hkey : marked site.key) : Covered marked (.importFile site path names moduleName)
  | module {site : Site} {name : String} {statements : List Node} {exported : Bool}
      (hkey : marked site.key) (hstatements : ∀ node ∈ statements, Covered marked node) :
      Covered marked (.module site name statements exported)
  | classType {site : Site} {name : String} {fields : List (String × TypeExpr)} {exported : Bool}
      (hkey : marked site.key) : Covered marked (.classType site name fields exported)
  | enumType {site : Site} {name : String} {variants : List (String × List TypeExpr)}
      {exported : Bool} (hkey : marked site.key) :
      Covered marked (.enumType site name variants exported)

theorem Covered.mono (hmarked : ∀ key, marked key → marked' key) {node : Node}
    (hcovered : node.Covered marked) : node.Covered marked' := by
  induction hcovered with
  | literal hkey => exact .literal (hmarked _ hkey)
  | identifier hkey => exact .identifier (hmarked _ hkey)
  | list hkey _ ih => exact .list (hmarked _ hkey) ih
  | tuple hkey _ ih => exact .tuple (hmarked _ hkey) ih
  | map hkey _ _ ihkeys ihvalues => exact .map (hmarked _ hkey) ihkeys ihvalues
  | application hkey _ _ ihfunction ihargument =>
    exact .application (hmarked _ hkey) ihfunction ihargument
  | abstraction hkey hparams _ ih =>
    exact .abstraction (hmarked _ hkey)
      (fun branch hbranch p hp => (hparams branch hbranch p hp).mono hmarked) ih
  | assignment hkey htarget _ ih =>
    exact .assignment (hmarked _ hkey) (htarget.mono hmarked) ih
  | block hkey _ ih => exact .block (hmarked _ hkey) ih
  | when hkey _ halternative _ ihsubject ihbodies =>
    refine .when (hmarked _ hkey) ihsubject (fun clause hclause => ?_) ihbodies
    obtain ⟨p, hp, hcovered⟩ := halternative clause hclause
    exact ⟨p, hp, hcovered.mono hmarked⟩
  | conditional hkey _ _ _ ihcondition ihyes ihno =>
    exact .conditional (hmarked _ hkey) ihcondition ihyes ihno
  | comprehension hkey htargets _ ih =>
    exact .comprehension (hmarked _ hkey)
      (fun generator hgenerator => (htargets generator hgenerator).mono hmarked) ih
  | access hkey _ ih => exact .access (hmarked _ hkey) ih
  | annotated hkey _ ih => exact .annotated (hmarked _ hkey) ih
  | importFile hkey => exact .importFile (hmarked _ hkey)
  | module hkey _ ih => exact .module (hmarked _ hkey) ih
  | classType hkey => exact .classType (hmarked _ hkey)
  | enumType hkey => exact .enumType (hmarked _ hkey)

end Node

end TypeSearch.Tree
