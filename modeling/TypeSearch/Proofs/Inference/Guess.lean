import TypeSearch.Proofs.Inference.Typing

/-!
# Typing rules with guesses

The types for which inference takes new variables are guessed here: an expression has a type for
given guesses, in the order in which the variables are taken. The rules are those of the first-order
fragment, for the expressions whose inference does not depend on what is known already. Only calls
look at a type, and so the function of a call must be seen to be one.
-/

namespace TypeSearch

open List
open TypeSearch.Tree (Literal Node Pattern Site boundNames entryNodes)

def Ty.Takes : Nat → Ty → Prop
  | 0, _ => True
  | arity + 1, t => ∃ param result more,
      t = .curried (param :: result :: more) ∧ Takes arity (Ty.applied result more)

/-! ### Plain expressions -/

/-- What is known of names: a number of arguments that they are seen to take, and the number of
types that are guessed for a use of them. -/
abbrev Names := String → (arity count : Nat) → Prop

namespace Names

def bind (names : Names) (bound : List String) : Names := fun name arity count =>
  if name ∈ bound then arity = 0 ∧ count = 0 else names name arity count

def without (names : Names) (hidden : String) : Names := fun name arity count =>
  name ≠ hidden ∧ names name arity count

end Names

def Tree.Pattern.IsName (pattern : Pattern) : Prop :=
  ∃ site name, pattern = .identifier ⟨site, name, none⟩

/-- An expression that is inferred without a look at what is known, that is seen to take a number of
arguments, and for which a number of types are guessed. -/
inductive Plain : Names → Node → (arity count : Nat) → Prop
  | literal {names : Names} (value : Literal) : Plain names (.literal value) 0 0
  | identifier {names : Names} (site : Site) {name : String} {arity count : Nat}
      (hname : names name arity count) : Plain names (.identifier site name) arity count
  | list {names : Names} (site : Site) {elements : List Node} {counts : List Nat}
      (hlength : elements.length = counts.length)
      (helements : ∀ pair ∈ elements.zip counts, Plain names pair.1 0 pair.2) :
      Plain names (.list site elements) 0 (counts.sum + 1)
  | tuple {names : Names} (site : Site) {elements : List Node} {counts : List Nat}
      (hlength : elements.length = counts.length)
      (helements : ∀ pair ∈ elements.zip counts, Plain names pair.1 0 pair.2) :
      Plain names (.tuple site elements) 0 counts.sum
  | map {names : Names} (site : Site) {entries : List (Node × Node)} {counts : List Nat}
      (hlength : (entryNodes entries).length = counts.length)
      (hentries : ∀ pair ∈ (entryNodes entries).zip counts, Plain names pair.1 0 pair.2) :
      Plain names (.map site entries) 0 (counts.sum + 2)
  | conditional {names : Names} (site : Site) {condition yes no : Node} {first second third : Nat}
      (hcondition : Plain names condition 0 first) (hyes : Plain names yes 0 second)
      (hno : Plain names no 0 third) :
      Plain names (.conditional site condition yes (some no)) 0 (first + (second + third))
  | application {names : Names} (site : Site) {function argument : Node}
      {arity first second : Nat} (hfunction : Plain names function (arity + 1) first)
      (hargument : Plain names argument 0 second) :
      Plain names (.application site function (some argument)) arity (first + second)
  | abstraction {names : Names} (site : Site) {params : List Pattern} {body : Node}
      {arity count : Nat} (hparams : ∀ p ∈ params, p.IsName) (hne : params ≠ [])
      (hnodup : (boundNames params).Nodup) (harity : arity ≤ params.length)
      (hbody : Plain (names.bind (boundNames params)) body 0 count) :
      Plain names (.abstraction site [(params, body)]) arity (params.length + count)

/-! ### The rules -/

/-- The types that each name may be used with, for given guesses. -/
abbrev Uses := String → (guesses : List Ty) → Ty → Prop

def Uses.bind (uses : Uses) (bound : List String) (values : List Ty) : Uses :=
  fun name guesses t =>
    if name ∈ bound then guesses = [] ∧ (name, t) ∈ bound.zip values else uses name guesses t

def SameTypes : List Ty → List Ty → Prop := List.Forall₂ fun t u => t.same u = true

mutual

/-- The expression has the type, for the given guesses. -/
inductive HasType : Uses → Node → (guesses : List Ty) → Ty → Prop
  | literal {uses : Uses} {value : Literal} {t : Ty}
      (htype : t.same (Infer.literalType value) = true) : HasType uses (.literal value) [] t
  | identifier {uses : Uses} {site : Site} {name : String} {guesses : List Ty} {t used : Ty}
      (hused : uses name guesses used) (htype : t.same used = true) :
      HasType uses (.identifier site name) guesses t
  | list {uses : Uses} {site : Site} {elements : List Node} {guesses ts : List Ty} {element t : Ty}
      (helements : HasTypes uses elements guesses ts)
      (hsame : ∀ u ∈ ts, u.same element = true) (htype : t.same (.list element) = true) :
      HasType uses (.list site elements) (guesses ++ [element]) t
  | tuple {uses : Uses} {site : Site} {elements : List Node} {guesses ts : List Ty} {t : Ty}
      (helements : HasTypes uses elements guesses ts) (htype : t.same (.tuple ts) = true) :
      HasType uses (.tuple site elements) guesses t
  | map {uses : Uses} {site : Site} {entries : List (Node × Node)} {guesses ts : List Ty}
      {key value t : Ty} (hentries : HasTypes uses (entryNodes entries) guesses ts)
      (hsame : Alternate (fun t u => t.same u = true) key value ts)
      (htype : t.same (.map key value) = true) :
      HasType uses (.map site entries) (guesses ++ [key, value]) t
  | conditional {uses : Uses} {site : Site} {condition yes no : Node} {guesses : List Ty}
      {test first second t : Ty}
      (hparts : HasTypes uses [condition, yes, no] guesses [test, first, second])
      (htest : test.same .boolean = true) (hfirst : first.same t = true)
      (hsecond : second.same t = true) :
      HasType uses (.conditional site condition yes (some no)) guesses t
  | application {uses : Uses} {site : Site} {function argument : Node} {guesses : List Ty}
      {called given result t : Ty} {more : List Ty}
      (hparts : HasTypes uses [function, argument] guesses [called, given])
      (hcalled : called.same (.curried (given :: result :: more)) = true)
      (htype : t.same (Ty.applied result more) = true) :
      HasType uses (.application site function (some argument)) guesses t
  | abstraction {uses : Uses} {site : Site} {params : List Pattern} {body : Node}
      {values guesses : List Ty} {inner t : Ty} (hlength : params.length = values.length)
      (hbody : HasType (uses.bind (boundNames params) values) body guesses inner)
      (htype : t.same (.curried (values ++ [inner])) = true) :
      HasType uses (.abstraction site [(params, body)]) (values ++ guesses) t

/-- The expressions have the types, for the guesses of one after those of the other. -/
inductive HasTypes : Uses → List Node → (guesses types : List Ty) → Prop
  | nil {uses : Uses} : HasTypes uses [] [] []
  | cons {uses : Uses} {node : Node} {nodes : List Node} {guesses others : List Ty} {t : Ty}
      {ts : List Ty} (hnode : HasType uses node guesses t)
      (hnodes : HasTypes uses nodes others ts) :
      HasTypes uses (node :: nodes) (guesses ++ others) (t :: ts)

end

section Plain

variable {names : Names} {uses other : Uses} {node : Node} {nodes : List Node} {counts : List Nat}
  {arity count : Nat} {guesses ts : List Ty} {t : Ty}

theorem forall_mem_of_zip {P : Node → Prop} (hlength : nodes.length = counts.length)
    (hall : ∀ pair ∈ nodes.zip counts, P pair.1) : ∀ node ∈ nodes, P node := by
  intro node hnode
  rw [← map_fst_zip hlength.le] at hnode
  obtain ⟨pair, hpair, rfl⟩ := mem_map.mp hnode
  exact hall pair hpair

theorem Plain.fragment (hplain : Plain names node arity count) {known : String → Prop}
    (hknown : ∀ name arity count, names name arity count → known name) :
    Tree.Fragment known node := by
  induction hplain generalizing known with
  | literal value => exact .literal value
  | identifier site hname => exact .identifier site (hknown _ _ _ hname)
  | list site hlength _ ih =>
    exact .list site (forall_mem_of_zip hlength fun pair hpair => ih pair hpair hknown)
  | tuple site hlength _ ih =>
    exact .tuple site (forall_mem_of_zip hlength fun pair hpair => ih pair hpair hknown)
  | map site hlength _ ih =>
    exact .map site (forall_mem_of_zip hlength fun pair hpair => ih pair hpair hknown)
  | conditional site _ _ _ ihcondition ihyes ihno =>
    exact .conditional site (ihcondition hknown) (ihyes hknown) (ihno hknown)
  | application site _ _ ihfunction ihargument =>
    exact .application site (ihfunction hknown) (ihargument hknown)
  | abstraction site hparams hne _ _ _ ih =>
    refine .abstraction site (fun p hp => ?_) hne (ih fun name arity count hname => ?_)
    · obtain ⟨site, name, rfl⟩ := hparams p hp
      exact .identifier site name
    · unfold Names.bind at hname
      split at hname
      · exact .inl ‹_›
      · exact .inr (hknown name arity count hname)

theorem HasTypes.length_types (htypes : HasTypes uses nodes guesses ts) :
    nodes.length = ts.length := by
  induction nodes generalizing guesses ts with
  | nil =>
    cases htypes
    rfl
  | cons node nodes ih =>
    cases htypes with
    | cons _ hnodes => rw [length_cons, length_cons, ih hnodes]

/-! ### Guesses of another environment -/

section Transfer

variable {K : Prop}

theorem HasTypes.transfer (htypes : HasTypes uses nodes guesses ts)
    (hlength : nodes.length = counts.length)
    (hall : ∀ pair ∈ nodes.zip counts, ∀ guesses t, HasType uses pair.1 guesses t →
      (K → guesses.length = pair.2) ∧ HasType other pair.1 guesses t) :
    (K → guesses.length = counts.sum) ∧ HasTypes other nodes guesses ts := by
  induction nodes generalizing counts guesses ts with
  | nil =>
    cases htypes
    rw [length_eq_zero_iff.mp hlength.symm]
    exact ⟨fun _ => rfl, .nil⟩
  | cons node nodes ih =>
    cases counts with
    | nil => cases hlength
    | cons count counts =>
      rw [zip_cons_cons, forall_mem_cons] at hall
      cases htypes with
      | cons hnode hnodes =>
        obtain ⟨hfirst, hnode⟩ := hall.1 _ _ hnode
        obtain ⟨hrest, hnodes⟩ := ih hnodes (Nat.succ.inj hlength) hall.2
        exact ⟨fun hK => by rw [length_append, sum_cons, hfirst hK, hrest hK], .cons hnode hnodes⟩

theorem Plain.transfer (hplain : Plain names node arity count)
    (huses : ∀ name arity count, names name arity count → ∀ guesses t, uses name guesses t →
      (K → guesses.length = count) ∧ other name guesses t)
    (htype : HasType uses node guesses t) :
    (K → guesses.length = count) ∧ HasType other node guesses t := by
  induction hplain generalizing uses other guesses t with
  | literal value =>
    cases htype with
    | literal htype => exact ⟨fun _ => rfl, .literal htype⟩
  | identifier site hname =>
    cases htype with
    | identifier hused htype =>
      exact (huses _ _ _ hname _ _ hused).imp_right (.identifier · htype)
  | list site hlength _ ih =>
    cases htype with
    | list helements hsame htype =>
      obtain ⟨hcount, helements⟩ :=
        helements.transfer hlength fun pair hpair _ _ => ih pair hpair huses
      exact ⟨fun hK => by rw [length_append, hcount hK]; rfl, .list helements hsame htype⟩
  | tuple site hlength _ ih =>
    cases htype with
    | tuple helements htype =>
      exact (helements.transfer hlength fun pair hpair _ _ => ih pair hpair huses).imp_right
        (.tuple · htype)
  | map site hlength _ ih =>
    cases htype with
    | map hentries hsame htype =>
      obtain ⟨hcount, hentries⟩ :=
        hentries.transfer hlength fun pair hpair _ _ => ih pair hpair huses
      exact ⟨fun hK => by rw [length_append, hcount hK]; rfl, .map hentries hsame htype⟩
  | @conditional _ _ condition yes no first second third _ _ _ ihcondition ihyes ihno =>
    cases htype with
    | conditional hparts htest hfirst hsecond =>
      refine (hparts.transfer (rfl : _ = [first, second, third].length) ?_).imp_right
        (.conditional · htest hfirst hsecond)
      simp only [zip_cons_cons, zip_nil_right, forall_mem_cons]
      exact ⟨fun _ _ => ihcondition huses, fun _ _ => ihyes huses, fun _ _ => ihno huses,
        forall_mem_nil _⟩
  | @application _ _ function argument _ first second _ _ ihfunction ihargument =>
    cases htype with
    | application hparts hcalled htype =>
      refine (hparts.transfer (rfl : _ = [first, second].length) ?_).imp_right
        (.application · hcalled htype)
      simp only [zip_cons_cons, zip_nil_right, forall_mem_cons]
      exact ⟨fun _ _ => ihfunction huses, fun _ _ => ihargument huses, forall_mem_nil _⟩
  | abstraction site _ _ _ _ _ ih =>
    cases htype with
    | abstraction hlength hbody htype =>
      refine (ih ?_ hbody).imp (fun hcount hK => ?_) (.abstraction hlength · htype)
      · intro name arity count hname guesses t hused
        unfold Names.bind at hname
        unfold Uses.bind at hused ⊢
        split at hname
        · rename_i hbound
          rw [if_pos hbound] at hused ⊢
          exact ⟨fun _ => by rw [hused.1, hname.2]; rfl, hused⟩
        · rename_i hbound
          rw [if_neg hbound] at hused ⊢
          exact huses name arity count hname guesses t hused
      · rw [length_append, ← hlength, hcount hK]

end Transfer

theorem Plain.length_guesses (hplain : Plain names node arity count)
    (huses : ∀ name arity count, names name arity count →
      ∀ guesses t, uses name guesses t → guesses.length = count)
    (htype : HasType uses node guesses t) : guesses.length = count :=
  (hplain.transfer (fun name arity count hname guesses t hused =>
    ⟨fun _ => huses name arity count hname guesses t hused, hused⟩) htype).1 trivial

/-- Names that are not used play no part. -/
theorem Plain.mono (hplain : Plain names node arity count)
    (huses : ∀ name arity count, names name arity count →
      ∀ guesses t, uses name guesses t → other name guesses t)
    (htype : HasType uses node guesses t) : HasType other node guesses t :=
  (hplain.transfer (fun name arity count hname guesses t hused =>
    ⟨False.elim, huses name arity count hname guesses t hused⟩) htype).2

end Plain

end TypeSearch
