import TypeSearch.Proofs.Inference.Search
import TypeSearch.Proofs.Tree.Covered

/-!
# Answers that fit

An answer fits if, as long as `P` holds, its types are proper, and as long as `K` holds, its tree
has what `covers` asks for. Disjunctions and combinations fit if there is an answer in them and all
of them do. Here is what the operations on disjunctions make of that; `covers` is left open, so that
each kind of node can ask for its own parts.
-/

namespace TypeSearch

open List
open TypeSearch.Tree (Node Site)

variable {tree child : Typed} {typed : Nat → Prop} {p : Tree.Pattern} {found : Disjunction Typed}
  {all : List (Typed → Prop)}

namespace Typed

def keys (tree : Typed) : List Nat := tree.entries.map (·.1)

def key : Typed → Nat
  | mk key _ _ => key

theorem entriesAll_eq_flatMap (children : List Typed) :
    entriesAll children = children.flatMap entries := by
  induction children with
  | nil => rfl
  | cons child children ih => rw [entriesAll, ih, flatMap_cons]

theorem mem_keys_iff {key other : Nat} {type : Ty} {children : List Typed} :
    other ∈ (mk key type children).keys ↔ other = key ∨ ∃ child ∈ children, other ∈ child.keys := by
  rw [keys, entries, entriesAll_eq_flatMap, map_cons, mem_cons, map_flatMap, mem_flatMap]
  rfl

inductive Proper : Typed → Prop
  | mk {key : Nat} {type : Ty} {children : List Typed} (htype : type.Proper)
      (hchildren : ∀ child ∈ children, Proper child) : Proper (.mk key type children)

theorem Proper.type (hproper : tree.Proper) : tree.type.Proper := by
  cases hproper with
  | mk htype _ => exact htype

theorem Proper.children (hproper : tree.Proper) : ∀ child ∈ tree.children, child.Proper := by
  cases hproper with
  | mk _ hchildren => exact hchildren

theorem Proper.entries (hproper : tree.Proper) : ∀ entry ∈ tree.entries, entry.2.Proper := by
  induction hproper with
  | mk htype _ ih =>
    rw [Typed.entries, entriesAll_eq_flatMap]
    exact forall_mem_cons.mpr ⟨htype, forall_mem_flatMap.mpr ih⟩

/-- The tree has the key, or it is among those that have a type anyway. -/
def Marks (typed : Nat → Prop) (tree : Typed) (key : Nat) : Prop := key ∈ tree.keys ∨ typed key

variable {typed : Nat → Prop} {key other : Nat} {type : Ty} {children : List Typed}

theorem marks_self : Marks typed (mk key type children) key := .inl (mem_keys_iff.mpr (.inl rfl))

theorem Marks.parent (hchild : child ∈ children) (hmarks : Marks typed child other) :
    Marks typed (mk key type children) other :=
  hmarks.imp_left fun hmem => mem_keys_iff.mpr (.inr ⟨child, hchild, hmem⟩)

theorem Marks.widen (hkey : tree.key = key) (hchildren : tree.children ⊆ children)
    (hmarks : Marks typed tree other) : Marks typed (mk key type children) other := by
  refine hmarks.imp_left fun hmem => ?_
  cases tree with
  | mk ownKey ownType ownChildren =>
    obtain rfl : ownKey = key := hkey
    refine mem_keys_iff.mpr ((mem_keys_iff.mp hmem).imp_right ?_)
    exact fun ⟨child, hchild, hin⟩ => ⟨child, hchildren hchild, hin⟩

end Typed

/-- The tree has a typing of a node and its parts. -/
def Tree.Node.Shows (typed : Nat → Prop) (node : Node) (tree : Typed) : Prop :=
  node.Covered (tree.Marks typed)

def Tree.Pattern.Shows (typed : Nat → Prop) (p : Tree.Pattern) (tree : Typed) : Prop :=
  p.Covered (tree.Marks typed)

theorem Tree.Node.Shows.parent {node : Node} (hshows : node.Shows typed child) {key : Nat}
    {type : Ty} {children : List Typed} (hchild : child ∈ children) :
    node.Shows typed (.mk key type children) :=
  hshows.mono fun _ hmarks => hmarks.parent hchild

theorem Tree.Pattern.Shows.parent (hshows : p.Shows typed child) {key : Nat} {type : Ty}
    {children : List Typed} (hchild : child ∈ children) : p.Shows typed (.mk key type children) :=
  hshows.mono fun _ hmarks => hmarks.parent hchild

theorem Tree.Node.Shows.widen {node : Node} (hshows : node.Shows typed tree) {key : Nat}
    (hkey : tree.key = key) {type : Ty} {children : List Typed}
    (hchildren : tree.children ⊆ children) : node.Shows typed (.mk key type children) :=
  hshows.mono fun _ hmarks => hmarks.widen hkey hchildren

theorem Tree.Pattern.Shows.widen (hshows : p.Shows typed tree) {key : Nat} (hkey : tree.key = key)
    {type : Ty} {children : List Typed} (hchildren : tree.children ⊆ children) :
    p.Shows typed (.mk key type children) :=
  hshows.mono fun _ hmarks => hmarks.widen hkey hchildren

variable {P K K' : Prop} {covers covers' : Typed → Prop}

namespace Answer

structure Proper (answer : Answer Typed) : Prop where
  type : answer.type.Proper
  graph : ∀ classes ∈ answer.graph, classes.Proper
  node : answer.node.Proper

theorem Proper.classes {answer : Answer Typed} (hproper : answer.Proper) :
    answer.classes.Proper := by
  unfold Answer.classes
  cases hgraph : answer.graph with
  | none => exact Classes.proper_empty
  | some classes => exact hproper.graph classes hgraph

structure Fits (P K : Prop) (covers : Typed → Prop) (answer : Answer Typed) : Prop where
  proper : P → answer.Proper
  covers : K → covers answer.node

variable {answer : Answer Typed}

section Fits

variable (hfits : answer.Fits P K covers)
include hfits

theorem Fits.mono (hK : K' → K) (himp : K' → ∀ tree, covers tree → covers' tree) :
    answer.Fits P K' covers' :=
  ⟨hfits.proper, fun hK' => himp hK' _ (hfits.covers (hK hK'))⟩

theorem Fits.type (hP : P) : answer.type.Proper :=
  (hfits.proper hP).type

theorem Fits.classes (hP : P) : answer.classes.Proper :=
  (hfits.proper hP).classes

theorem Fits.node (hP : P) : answer.node.Proper :=
  (hfits.proper hP).node

theorem Fits.reduced {ε : Type} {fails : ε → Prop} :
    (answer.reduced : Outcome ε Ty).Meets (fun t => P → t.Proper) fails := by
  unfold Answer.reduced
  split
  · rename_i classes hgraph
    exact Classes.reduce_meets (fun hP => (hfits.proper hP).graph classes hgraph) hfits.type
  · exact hfits.type

end Fits

end Answer

structure Disjunction.Fit (P K : Prop) (covers : Typed → Prop) (found : Disjunction Typed) :
    Prop where
  some : found.answers ≠ []
  each : ∀ answer ∈ found.answers, answer.Fits P K covers

theorem Disjunction.Fit.mono (hfit : found.Fit P K covers) (hK : K' → K)
    (himp : K' → ∀ tree, covers tree → covers' tree) : found.Fit P K' covers' :=
  ⟨hfit.some, fun answer hanswer => (hfit.each answer hanswer).mono hK himp⟩

theorem Disjunction.Fit.restrict (hfit : found.Fit P K covers) (hK : K' → K) :
    found.Fit P K' covers :=
  hfit.mono hK fun _ _ => id

namespace Infer

variable {site : Site}

theorem fits_answer {type : Ty} {children : List Typed} {classes : Classes}
    (htype : P → type.Proper) (hchildren : P → ∀ child ∈ children, child.Proper)
    (hclasses : P → classes.Proper) (hcovers : K → covers (.mk site.key type children)) :
    (answer site type children classes).Fits P K covers := by
  refine ⟨fun hP => ⟨htype hP, ?_, .mk (htype hP) (hchildren hP)⟩, hcovers⟩
  rintro _ ⟨⟩
  exact hclasses hP

theorem fit_leaf {type : Ty} {classes : Classes} (htype : P → type.Proper)
    (hclasses : P → classes.Proper) (hcovers : K → covers (.mk site.key type [])) :
    (leaf site type classes).Fit P K covers := by
  refine ⟨cons_ne_nil _ _, fun a ha => ?_⟩
  rw [mem_singleton.mp ha]
  exact fits_answer htype (fun _ => nofun) hclasses hcovers

/-! ### Searches among answers -/

section Searches

variable {table : Table} {left right found : Disjunction Typed}
  {coversLeft coversRight : Typed → Prop}

theorem tries_search {γ : Type} {candidates : List γ} {attempt : γ → Infer (List (Answer Typed))}
    (hsome : candidates ≠ []) (hattempt : ∀ candidate ∈ candidates, Tries table (fun answers =>
      answers ≠ [] ∧ ∀ a ∈ answers, a.Fits P K covers) (attempt candidate)) :
    Tries table (Disjunction.Fit P K covers) (searchAll candidates attempt) :=
  (tries_searchAll hattempt hsome).mono fun _ hall => ⟨hall.1, hall.2⟩

theorem Tries.single {computation : Infer (Answer Typed)}
    (htries : Tries table (Answer.Fits P K covers) computation) :
    Tries table (fun answers => answers ≠ [] ∧ ∀ a ∈ answers, a.Fits P K covers)
      (do return [← computation]) :=
  htries.bind fun _ ha => tries_pure ⟨cons_ne_nil _ _, forall_mem_singleton.mpr ha⟩

theorem tries_map {f : Answer Typed → Infer (Answer Typed)} (hfound : found.Fit P K covers)
    (hf : ∀ a, a.Fits P K covers → Tries table (Answer.Fits P K covers') (f a)) :
    Tries table (Disjunction.Fit P K covers') (found.map f) :=
  tries_search hfound.some fun a ha => (hf a (hfound.each a ha)).single

theorem tries_flatMap {f : Answer Typed → Infer (Disjunction Typed)} (hfound : found.Fit P K covers)
    (hf : ∀ a, a.Fits P K covers → Tries table (Disjunction.Fit P K covers') (f a)) :
    Tries table (Disjunction.Fit P K covers') (found.flatMap f) :=
  tries_search hfound.some fun a ha =>
    (hf a (hfound.each a ha)).bind fun _ hmore => tries_pure ⟨hmore.some, hmore.each⟩

theorem pairs_ne_nil (hleft : left.answers ≠ []) (hright : right.answers ≠ []) :
    left.pairs right ≠ [] := by
  obtain ⟨a, ha⟩ := exists_mem_of_ne_nil _ hleft
  obtain ⟨b, hb⟩ := exists_mem_of_ne_nil _ hright
  exact ne_nil_of_mem (mem_flatMap.mpr ⟨a, ha, mem_map.mpr ⟨b, hb, rfl⟩⟩)

theorem tries_merge {combine : Answer Typed → Answer Typed → Classes → Infer (Answer Typed)}
    (hleft : left.Fit P K coversLeft) (hright : right.Fit P K coversRight)
    (hcombine : ∀ a b classes, a.Fits P K coversLeft → b.Fits P K coversRight →
      (P → classes.Proper) → Tries table (Answer.Fits P K covers) (combine a b classes)) :
    Tries table (Disjunction.Fit P K covers) (left.merge right combine) := by
  refine tries_search (pairs_ne_nil hleft.some hright.some) ?_
  rintro ⟨a, b⟩ hpair
  obtain ⟨a, ha, hpair⟩ := mem_flatMap.mp hpair
  obtain ⟨b, hb, heq⟩ := mem_map.mp hpair
  cases heq
  have ha := hleft.each a ha
  have hb := hright.each b hb
  have hbuild := Classes.build_meets (fun hP => (ha.proper hP).graph) fun hP => (hb.proper hP).graph
  exact (tries_liftM hbuild.asFailure).bind fun classes hclasses =>
    (hcombine a b classes ha hb hclasses).single

end Searches

end Infer

/-! ### Combinations -/

structure Combination.Fits (P K : Prop) (covers : List (Typed → Prop))
    (combination : Combination Typed) : Prop where
  proper : P → ∀ answer ∈ combination.answers, answer.Proper
  graph : P → ∀ classes ∈ combination.graph, classes.Proper
  covers : K → List.Forall₂ (fun covers (answer : Answer Typed) => covers answer.node) covers
    combination.answers

structure Combinations.Fit (P K : Prop) (covers : List (Typed → Prop))
    (combinations : Combinations Typed) : Prop where
  some : combinations.all ≠ []
  each : ∀ combination ∈ combinations.all, combination.Fits P K covers

namespace Combination

variable {all : List (Typed → Prop)} {combination : Combination Typed}

theorem Fits.types (hfits : combination.Fits P K all) (hP : P) :
    ∀ type ∈ combination.types, type.Proper := by
  intro type htype
  obtain ⟨answer, hanswer, rfl⟩ := mem_map.mp htype
  exact (hfits.proper hP answer hanswer).type

theorem Fits.nodes (hfits : combination.Fits P K all) (hP : P) :
    ∀ node ∈ combination.nodes, node.Proper := by
  intro node hnode
  obtain ⟨answer, hanswer, rfl⟩ := mem_map.mp hnode
  exact (hfits.proper hP answer hanswer).node

theorem Fits.classes (hfits : combination.Fits P K all) (hP : P) :
    combination.classes.Proper := by
  unfold Combination.classes
  cases hgraph : combination.graph with
  | none => exact Classes.proper_empty
  | some classes => exact hfits.graph hP classes hgraph

theorem Fits.forall₂_nodes {ι : Type} {items : List ι} {shows : ι → Typed → Prop}
    (hfits : combination.Fits P K (items.map shows)) (hK : K) :
    Forall₂ shows items combination.nodes := by
  have hall := hfits.covers hK
  rw [forall₂_map_left_iff] at hall
  unfold Combination.nodes
  rw [forall₂_map_right_iff]
  exact hall

theorem Fits.append {left right : Combination Typed} {first second : List (Typed → Prop)}
    (hleft : left.Fits P K first) (hright : right.Fits P K second) {classes : Classes}
    (hclasses : P → classes.Proper) :
    (⟨left.answers ++ right.answers, some classes⟩ : Combination Typed).Fits P K
      (first ++ second) where
  proper hP answer hanswer := (mem_append.mp hanswer).elim (hleft.proper hP answer)
    (hright.proper hP answer)
  graph hP := by
    rintro _ ⟨⟩
    exact hclasses hP
  covers hK := rel_append (hleft.covers hK) (hright.covers hK)

end Combination

namespace Combinations

variable {first second : List (Typed → Prop)} {left right : Combination Typed}
  {siblings : List (Disjunction Typed)}

theorem join_meets (hleft : left.Fits P K first) (hright : right.Fits P K second) :
    (join left right).Meets (Combination.Fits P K (first ++ second)) fun _ => True :=
  (Classes.build_meets hleft.graph hright.graph).bind fun _ hclasses =>
    hleft.append hright hclasses

structure Kept.Spared (P K : Prop) (covers : List (Typed → Prop)) (found : Kept Typed) : Prop where
  kept : ∀ combination ∈ found.kept, combination.Fits P K covers
  cause : ∀ failure ∈ found.cause, failure.Classified

def Kept.Tested (kept : Kept Typed) : Prop := kept.kept ≠ [] ∨ kept.cause ≠ none

theorem joinAll_meets {pairs : List (Combination Typed × Combination Typed)} {kept : Kept Typed}
    (hpairs : ∀ pair ∈ pairs, pair.1.Fits P K first ∧ pair.2.Fits P K second)
    (hspared : kept.Spared P K (first ++ second)) (htested : pairs ≠ [] ∨ kept.Tested) :
    (joinAll pairs kept).Meets (fun last => last.Spared P K (first ++ second) ∧ last.Tested)
      Failure.Classified := by
  induction pairs generalizing kept with
  | nil => exact ⟨hspared, htested.resolve_left fun hne => hne rfl⟩
  | cons pair pairs ih =>
    rw [forall_mem_cons] at hpairs
    have hjoin := join_meets hpairs.1.1 hpairs.1.2
    rw [joinAll]
    split <;> rename_i heq <;> rw [heq] at hjoin
    · refine ih hpairs.2 ⟨?_, hspared.cause⟩ (.inr (.inl (cons_ne_nil _ _)))
      exact forall_mem_cons.mpr ⟨hjoin, hspared.kept⟩
    · rename_i mismatch
      refine ih hpairs.2 ⟨hspared.kept, ?_⟩ (.inr (.inr ?_))
      · cases hcause : kept.cause with
        | none =>
          rintro _ ⟨⟩
          exact trivial
        | some cause =>
          rintro _ ⟨⟩
          exact hspared.cause cause hcause
      · cases kept.cause <;> exact Option.some_ne_none _
    · exact hjoin

theorem product_meets {all others : Combinations Typed} (hall : all.Fit P K first)
    (hothers : others.Fit P K second) :
    (product all others).Meets (Combinations.Fit P K (first ++ second)) Failure.Classified := by
  have hpairs : ∀ pair ∈ all.all.flatMap fun x => others.all.map fun y => (x, y),
      pair.1.Fits P K first ∧ pair.2.Fits P K second := by
    intro pair hpair
    obtain ⟨x, hx, hpair⟩ := mem_flatMap.mp hpair
    obtain ⟨y, hy, rfl⟩ := mem_map.mp hpair
    exact ⟨hall.each x hx, hothers.each y hy⟩
  have hsome : (all.all.flatMap fun x => others.all.map fun y => (x, y)) ≠ [] := by
    obtain ⟨x, hx⟩ := exists_mem_of_ne_nil _ hall.some
    obtain ⟨y, hy⟩ := exists_mem_of_ne_nil _ hothers.some
    exact ne_nil_of_mem (mem_flatMap.mpr ⟨x, hx, mem_map.mpr ⟨y, hy, rfl⟩⟩)
  have hnone : Kept.Spared P K (first ++ second) {} := by
    refine ⟨?_, ?_⟩ <;> rintro _ ⟨⟩
  refine (joinAll_meets hpairs hnone (.inl hsome)).bind ?_
  rintro kept ⟨hspared, htested⟩
  split
  · rename_i hnil
    have hcause := htested.resolve_left (not_not.mpr (List.isEmpty_iff.mp hnil))
    obtain ⟨cause, heq⟩ := Option.ne_none_iff_exists'.mp hcause
    rw [heq]
    exact (hspared.cause cause heq).noTyping _
  · rename_i hkept
    rw [List.isEmpty_iff] at hkept
    refine ⟨fun hnil => hkept (reverse_eq_nil_iff.mp hnil), fun combination hmem => ?_⟩
    exact hspared.kept combination (mem_reverse.mp hmem)

theorem fit_lift {sibling : Disjunction Typed} (hfit : sibling.Fit P K covers) :
    (lift sibling).Fit P K [covers] := by
  refine ⟨fun hnil => hfit.some (map_eq_nil_iff.mp hnil), fun combination hmem => ?_⟩
  obtain ⟨answer, hanswer, rfl⟩ := mem_map.mp hmem
  have hfits := hfit.each answer hanswer
  refine ⟨fun hP other hother => ?_, fun hP => (hfits.proper hP).graph, fun hK => ?_⟩
  · rw [mem_singleton.mp hother]
    exact hfits.proper hP
  · exact .cons (hfits.covers hK) .nil

theorem productAll_meets {rest : List (Typed → Prop)}
    (hsiblings : Forall₂ (fun covers sibling => sibling.Fit P K covers) rest siblings)
    {all : Combinations Typed} {done : List (Typed → Prop)} (hall : all.Fit P K done) :
    (productAll all siblings).Meets (Combinations.Fit P K (done ++ rest)) Failure.Classified := by
  induction hsiblings generalizing all done with
  | nil =>
    rw [append_nil]
    exact hall
  | @cons covers sibling rest siblings hsibling _ ih =>
    refine (product_meets hall (fit_lift hsibling)).bind fun more hmore => ?_
    have hrest := ih hmore
    rwa [append_assoc] at hrest

theorem distribute_meets
    (hsiblings : Forall₂ (fun covers sibling => sibling.Fit P K covers) all siblings)
    {classes : Classes} (hclasses : P → classes.Proper) :
    (distribute siblings (some classes)).Meets (Combinations.Fit P K all) Failure.Classified := by
  cases hsiblings with
  | nil =>
    refine ⟨cons_ne_nil _ _, fun combination hmem => ?_⟩
    rw [mem_singleton.mp hmem]
    refine ⟨fun _ => nofun, fun hP => ?_, fun _ => .nil⟩
    rintro _ ⟨⟩
    exact hclasses hP
  | cons hfirst hrest => exact productAll_meets hrest (fit_lift hfirst)

end Combinations

namespace Infer

theorem tries_collect {table : Table} {combinations : Combinations Typed}
    {f : Combination Typed → Infer (Answer Typed)} (hfit : combinations.Fit P K all)
    (hf : ∀ combination, combination.Fits P K all →
      Tries table (Answer.Fits P K covers) (f combination)) :
    Tries table (Disjunction.Fit P K covers) (combinations.collect f) :=
  tries_search hfit.some fun combination hmem =>
    (hf combination (hfit.each combination hmem)).single

end Infer

end TypeSearch
