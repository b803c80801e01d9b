import TypeSearch.Inference.Node
import TypeSearch.Proofs.Classes.Entail
import TypeSearch.Proofs.Tree.Expressions

/-!
# Typing rules

The expressions of the first-order fragment, and what it means that a tree of types obeys the typing
rules of the fragment. The rules do not say how types are found. Types are equal in them up to a
relation, so that they can be read both with the equations of a graph and with reduced types.
-/

namespace TypeSearch

open List
open TypeSearch.Tree (Literal Node Pattern Site)

/-- A type that a use of the binding may have. -/
def Binding.Instance (binding : Binding) (t : Ty) : Prop :=
  ∃ replace : Variable → Ty, (∀ v, v.id ∉ binding.quantified → replace v = .var v) ∧
    t = binding.type.subst replace

namespace Tree

def Pattern.names (pattern : Pattern) : List String := pattern.binders.map (·.name)

/-- A name without a written type, or none at all. -/
inductive Pattern.IsParameter : Pattern → Prop
  | identifier (site : Site) (name : String) : IsParameter (.identifier ⟨site, name, none⟩)
  | wildcard (site : Site) : IsParameter (.wildcard site)

def boundNames (params : List Pattern) : List String := params.flatMap Pattern.names

/-- Expressions of the first-order fragment that use only known names. -/
inductive Fragment : (known : String → Prop) → Node → Prop
  | literal {known : String → Prop} (value : Literal) : Fragment known (.literal value)
  | identifier {known : String → Prop} (site : Site) {name : String} (hname : known name) :
      Fragment known (.identifier site name)
  | list {known : String → Prop} (site : Site) {elements : List Node}
      (helements : ∀ node ∈ elements, Fragment known node) : Fragment known (.list site elements)
  | tuple {known : String → Prop} (site : Site) {elements : List Node}
      (helements : ∀ node ∈ elements, Fragment known node) : Fragment known (.tuple site elements)
  | map {known : String → Prop} (site : Site) {entries : List (Node × Node)}
      (hentries : ∀ node ∈ entryNodes entries, Fragment known node) :
      Fragment known (.map site entries)
  | conditional {known : String → Prop} (site : Site) {condition yes no : Node}
      (hcondition : Fragment known condition) (hyes : Fragment known yes)
      (hno : Fragment known no) : Fragment known (.conditional site condition yes (some no))
  | application {known : String → Prop} (site : Site) {function argument : Node}
      (hfunction : Fragment known function) (hargument : Fragment known argument) :
      Fragment known (.application site function (some argument))
  | abstraction {known : String → Prop} (site : Site) {params : List Pattern} {body : Node}
      (hparams : ∀ p ∈ params, p.IsParameter) (hne : params ≠ [])
      (hbody : Fragment (fun name => name ∈ boundNames params ∨ known name) body) :
      Fragment known (.abstraction site [(params, body)])

end Tree

open TypeSearch.Tree (boundNames entryNodes)

theorem Infer.literalType_firstOrder (value : Literal) : (literalType value).FirstOrder := by
  cases value <;> exact .parametric (by decide) nofun

/-! ### The rules -/

abbrev Env := String → Ty → Prop

def Env.bind (env : Env) (params : List Pattern) (leaves : List Typed) : Env := fun name t =>
  if name ∈ boundNames params then
    ∀ pair ∈ params.zip leaves, name ∈ pair.1.names → t = pair.2.type
  else env name t

def Alternate (E : Ty → Ty → Prop) (first second : Ty) : List Ty → Prop
  | [] => True
  | t :: ts => E t first ∧ Alternate E second first ts

def Ty.applied (result : Ty) (more : List Ty) : Ty :=
  if more.isEmpty then result else .curried (result :: more)

theorem Infer.remainder_eq (result : Ty) (more : List Ty) :
    remainder result more = .ok (result.applied more) := by
  cases more <;> rfl

/-- The types of an expression and of its parts obey the typing rules, where types are equal up to
`E`. -/
inductive Obeys (E : Ty → Ty → Prop) : Env → Node → Typed → Prop
  | literal {env : Env} {value : Literal} {type : Ty}
      (htype : E type (Infer.literalType value)) :
      Obeys E env (.literal value) (.mk value.site.key type [])
  | identifier {env : Env} {site : Site} {name : String} {type used : Ty} (hused : env name used)
      (htype : E type used) : Obeys E env (.identifier site name) (.mk site.key type [])
  | list {env : Env} {site : Site} {elements : List Node} {children : List Typed}
      {type element : Ty} (hlength : elements.length = children.length)
      (hchildren : ∀ pair ∈ elements.zip children, Obeys E env pair.1 pair.2)
      (helements : ∀ child ∈ children, E child.type element) (htype : E type (.list element)) :
      Obeys E env (.list site elements) (.mk site.key type children)
  | tuple {env : Env} {site : Site} {elements : List Node} {children : List Typed} {type : Ty}
      (hlength : elements.length = children.length)
      (hchildren : ∀ pair ∈ elements.zip children, Obeys E env pair.1 pair.2)
      (htype : E type (.tuple (children.map (·.type)))) :
      Obeys E env (.tuple site elements) (.mk site.key type children)
  | map {env : Env} {site : Site} {entries : List (Node × Node)} {children : List Typed}
      {type key value : Ty} (hlength : (entryNodes entries).length = children.length)
      (hchildren : ∀ pair ∈ (entryNodes entries).zip children, Obeys E env pair.1 pair.2)
      (hentries : Alternate E key value (children.map (·.type))) (htype : E type (.map key value)) :
      Obeys E env (.map site entries) (.mk site.key type children)
  | conditional {env : Env} {site : Site} {condition yes no : Node} {test first second : Typed}
      {type : Ty} (hcondition : Obeys E env condition test) (hyes : Obeys E env yes first)
      (hno : Obeys E env no second) (htest : E test.type .boolean) (hfirst : E first.type type)
      (hsecond : E second.type type) :
      Obeys E env (.conditional site condition yes (some no))
        (.mk site.key type [test, first, second])
  | application {env : Env} {site : Site} {function argument : Node} {called given : Typed}
      {type result : Ty} {more : List Ty} (hfunction : Obeys E env function called)
      (hargument : Obeys E env argument given)
      (hcalled : E called.type (.curried (given.type :: result :: more)))
      (htype : E type (Ty.applied result more)) :
      Obeys E env (.application site function (some argument)) (.mk site.key type [called, given])
  | abstraction {env : Env} {site : Site} {params : List Pattern} {body : Node}
      {leaves : List Typed} {inner : Typed} {type : Ty} (hlength : params.length = leaves.length)
      (hleaves : ∀ pair ∈ params.zip leaves, ∃ t, pair.2 = .mk pair.1.site.key t [])
      (hbody : Obeys E (env.bind params leaves) body inner)
      (htype : E type (.curried (leaves.map (·.type) ++ [inner.type]))) :
      Obeys E env (.abstraction site [(params, body)]) (.mk site.key type (leaves ++ [inner]))

/-! ### Changing all types -/

mutual

def Typed.mapTypes (f : Ty → Ty) : Typed → Typed
  | .mk key type children => .mk key (f type) (mapTypesAll f children)

def Typed.mapTypesAll (f : Ty → Ty) : List Typed → List Typed
  | [] => []
  | typed :: rest => mapTypes f typed :: mapTypesAll f rest

end

theorem Typed.mapTypesAll_eq_map (f : Ty → Ty) (typeds : List Typed) :
    mapTypesAll f typeds = typeds.map (mapTypes f) :=
  eq_map_of_cons rfl (fun _ _ => rfl) typeds

@[simp]
theorem Typed.mapTypes_mk (f : Ty → Ty) (key : Nat) (type : Ty) (children : List Typed) :
    mapTypes f (.mk key type children) = .mk key (f type) (children.map (mapTypes f)) := by
  rw [mapTypes, mapTypesAll_eq_map]

@[simp]
theorem Typed.type_mapTypes (f : Ty → Ty) (typed : Typed) :
    (typed.mapTypes f).type = f typed.type := by
  cases typed
  rw [mapTypes_mk]
  rfl

theorem Typed.types_mapTypes (f : Ty → Ty) (typeds : List Typed) :
    (typeds.map (mapTypes f)).map (·.type) = (typeds.map (·.type)).map f := by
  simp

mutual

theorem Typed.mapTypes_id : ∀ typed : Typed, typed.mapTypes id = typed
  | .mk key type children => by
    rw [mapTypes, mapTypesAll_id children]
    rfl

theorem Typed.mapTypesAll_id : ∀ typeds : List Typed, mapTypesAll id typeds = typeds
  | [] => rfl
  | typed :: rest => by rw [mapTypesAll, mapTypes_id typed, mapTypesAll_id rest]

end

section Change

variable {E F : Ty → Ty → Prop} {f : Ty → Ty} {env other : Env} {node : Node} {typed : Typed}

theorem Alternate.map (hE : ∀ t u, E t u → F (f t) (f u)) {first second : Ty} {ts : List Ty}
    (halternate : Alternate E first second ts) : Alternate F (f first) (f second) (ts.map f) := by
  induction ts generalizing first second with
  | nil => trivial
  | cons t ts ih => exact ⟨hE _ _ halternate.1, ih halternate.2⟩

theorem alternate_self_iff {t : Ty} {ts : List Ty} : Alternate E t t ts ↔ ∀ u ∈ ts, E u t := by
  induction ts with
  | nil => exact iff_of_true trivial nofun
  | cons u ts ih => rw [Alternate, ih, forall_mem_cons]

theorem Env.bind_map (henv : ∀ name t, env name t → other name (f t)) {params : List Pattern}
    {leaves : List Typed} {name : String} {t : Ty} (hbind : env.bind params leaves name t) :
    other.bind params (leaves.map (Typed.mapTypes f)) name (f t) := by
  unfold Env.bind at hbind ⊢
  split
  · rename_i hname
    rw [if_pos hname] at hbind
    intro pair hpair hmem
    rw [zip_map_right] at hpair
    obtain ⟨whole, hwhole, rfl⟩ := mem_map.mp hpair
    rw [hbind whole hwhole hmem]
    exact (Typed.type_mapTypes f _).symm
  · rename_i hname
    rw [if_neg hname] at hbind
    exact henv name t hbind

theorem Obeys.mapTypes (hobeys : Obeys E env node typed)
    (hparametric : ∀ name ts, f (.parametric name ts) = .parametric name (ts.map f))
    (hcurried : ∀ ts, f (.curried ts) = .curried (ts.map f))
    (hE : ∀ t u, E t u → F (f t) (f u)) (henv : ∀ name t, env name t → other name (f t)) :
    Obeys F other node (typed.mapTypes f) := by
  -- the parts of a node with several
  have hparts : ∀ {env other : Env} {nodes : List Node} {children : List Typed},
      (∀ pair ∈ nodes.zip children, ∀ {other : Env}, (∀ name t, env name t → other name (f t)) →
        Obeys F other pair.1 (pair.2.mapTypes f)) →
      (∀ name t, env name t → other name (f t)) →
      ∀ pair ∈ nodes.zip (children.map (Typed.mapTypes f)), Obeys F other pair.1 pair.2 := by
    intro env other nodes children hall henv pair hpair
    rw [zip_map_right] at hpair
    obtain ⟨inner, hinner, rfl⟩ := mem_map.mp hpair
    exact hall inner hinner henv
  induction hobeys generalizing other with
  | @literal env value type htype =>
    have hliteral : f (Infer.literalType value) = Infer.literalType value := by
      cases value <;> exact hparametric _ []
    rw [Typed.mapTypes_mk]
    refine .literal ?_
    have hmapped := hE _ _ htype
    rwa [hliteral] at hmapped
  | identifier hused htype =>
    rw [Typed.mapTypes_mk]
    exact .identifier (henv _ _ hused) (hE _ _ htype)
  | @list env site elements children type element hlength hchildren helements htype ih =>
    rw [Typed.mapTypes_mk]
    have hlist : f (.list element) = .list (f element) := hparametric _ _
    refine .list (by simpa using hlength) (hparts ih henv) ?_ (hlist ▸ hE _ _ htype)
    rw [forall_mem_map]
    intro child hchild
    rw [Typed.type_mapTypes]
    exact hE _ _ (helements child hchild)
  | @tuple env site elements children type hlength hchildren htype ih =>
    rw [Typed.mapTypes_mk]
    have htuple : ∀ ts, f (.tuple ts) = .tuple (ts.map f) := hparametric _
    refine .tuple (by simpa using hlength) (hparts ih henv) ?_
    rw [Typed.types_mapTypes, ← htuple]
    exact hE _ _ htype
  | @map env site entries children type key value hlength hchildren hentries htype ih =>
    rw [Typed.mapTypes_mk]
    have hmap : f (.map key value) = .map (f key) (f value) := hparametric _ _
    refine .map (by simpa using hlength) (hparts ih henv) ?_ (hmap ▸ hE _ _ htype)
    rw [Typed.types_mapTypes]
    exact hentries.map hE
  | conditional hcondition hyes hno htest hfirst hsecond ihcondition ihyes ihno =>
    rw [Typed.mapTypes_mk]
    have hboolean : f .boolean = .boolean := hparametric _ []
    refine .conditional (ihcondition henv) (ihyes henv) (ihno henv) ?_ ?_ ?_
    · rw [Typed.type_mapTypes, ← hboolean]
      exact hE _ _ htest
    · rw [Typed.type_mapTypes]
      exact hE _ _ hfirst
    · rw [Typed.type_mapTypes]
      exact hE _ _ hsecond
  | @application env site function argument called given type result more hfunction hargument
      hcalled htype ihfunction ihargument =>
      rw [Typed.mapTypes_mk]
      have happlied : f (Ty.applied result more) = Ty.applied (f result) (more.map f) := by
        cases more with
        | nil => rfl
        | cons t ts => exact hcurried _
      refine .application (ihfunction henv) (ihargument henv) ?_ (happlied ▸ hE _ _ htype)
      have hmapped := hE _ _ hcalled
      rw [hcurried] at hmapped
      rwa [Typed.type_mapTypes, Typed.type_mapTypes]
  | @abstraction env site params body leaves inner type hlength hleaves hbody htype ih =>
    rw [Typed.mapTypes_mk, map_append]
    refine .abstraction (by simpa using hlength) ?_ (ih fun name t => Env.bind_map henv) ?_
    · intro pair hpair
      rw [zip_map_right] at hpair
      obtain ⟨whole, hwhole, rfl⟩ := mem_map.mp hpair
      obtain ⟨t, ht⟩ := hleaves whole hwhole
      refine ⟨f t, ?_⟩
      simp [ht]
    · have hmapped := hE _ _ htype
      rw [hcurried, map_append] at hmapped
      rwa [Typed.types_mapTypes, Typed.type_mapTypes]

theorem Obeys.mono (hobeys : Obeys E env node typed) (hE : ∀ t u, E t u → F t u) :
    Obeys F env node typed := by
  have hmapped : Obeys F env node (typed.mapTypes id) :=
    hobeys.mapTypes (by simp) (by simp) hE fun _ _ => id
  rwa [Typed.mapTypes_id] at hmapped

end Change

end TypeSearch
