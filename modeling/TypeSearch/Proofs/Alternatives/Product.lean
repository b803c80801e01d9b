import TypeSearch.Alternatives.Combination
import TypeSearch.Proofs.Classes.Alike
import TypeSearch.Proofs.Classes.Single

/-!
# Products of combinations

A product keeps, in lexicographic order, the pairs of combinations whose graphs can be built
together. Three disjunctions can be combined from the left or from the right. For first-order graphs
that makes no difference: building is the conjunction of graphs, so both ways keep the same triples,
and the two graphs of a triple have the same solutions. With unions it does: joining unions widens
them, and joining a union with another type narrows it.
-/

namespace TypeSearch

open List

def Outcome.value? {ε α : Type} : Outcome ε α → Option α
  | .ok value => some value
  | _ => none

theorem Outcome.ne_halted_of_bind {ε α β : Type} {x : Outcome ε α} {f : α → Outcome ε β}
    (hends : ∀ cause, x >>= f ≠ .halted cause) (cause : Halt) : x ≠ .halted cause := by
  rintro rfl
  exact hends cause rfl

namespace Combinations

open Classes (FirstOrderGraph ReduceAlike)

variable {ν : Type} {x y z : Combination ν} {left right : Combinations ν}

def joined? (x y : Combination ν) : Option (Combination ν) := (join x y).value?

def joinable (left right : Combinations ν) : List (Combination ν) :=
  left.all.flatMap fun x => right.all.filterMap fun y => joined? x y

theorem joinAll_eq {pairs : List (Combination ν × Combination ν)} {kept : Kept ν}
    (hends : ∀ cause, joinAll pairs kept ≠ .halted cause) :
    ∃ result, joinAll pairs kept = .ok result ∧
      result.kept = (pairs.filterMap fun pair => joined? pair.1 pair.2).reverse ++ kept.kept := by
  induction pairs generalizing kept with
  | nil => exact ⟨kept, rfl, rfl⟩
  | cons pair rest ih =>
    obtain ⟨x, y⟩ := pair
    rw [joinAll] at hends ⊢
    cases hjoin : join x y with
    | ok joined =>
      simp only [hjoin] at hends ⊢
      obtain ⟨result, hresult, hkept⟩ := ih hends
      refine ⟨result, hresult, hkept.trans ?_⟩
      simp [joined?, hjoin, Outcome.value?]
    | failed mismatch =>
      simp only [hjoin] at hends ⊢
      obtain ⟨result, hresult, hkept⟩ := ih hends
      refine ⟨result, hresult, hkept.trans ?_⟩
      simp [joined?, hjoin, Outcome.value?]
    | halted cause =>
      simp only [hjoin] at hends
      exact absurd rfl (hends cause)

/-- The product fails if nothing can be joined, and else gives all that can. -/
def Gives (outcome : Outcome Failure (Combinations ν)) (kept : List (Combination ν)) : Prop :=
  (kept = [] ∧ ∃ failure, outcome = .failed failure) ∨ (kept ≠ [] ∧ outcome = .ok ⟨kept⟩)

theorem product_gives (hends : ∀ cause, product left right ≠ .halted cause) :
    Gives (product left right) (joinable left right) := by
  have hpairs : ((left.all.flatMap fun x => right.all.map fun y => (x, y)).filterMap fun pair =>
      joined? pair.1 pair.2) = joinable left right := by
    rw [joinable, filterMap_flatMap]
    simp only [filterMap_map, Function.comp_def]
  rw [product] at hends ⊢
  obtain ⟨result, hresult, hkept⟩ := joinAll_eq (Outcome.ne_halted_of_bind hends)
  rw [hpairs, append_nil] at hkept
  rw [hresult, Outcome.bind_ok, hkept]
  by_cases hnone : joinable left right = []
  · exact .inl ⟨hnone, _, by rw [hnone]; rfl⟩
  · refine .inr ⟨hnone, ?_⟩
    rw [if_neg (by simpa using hnone), reverse_reverse]
    rfl

/-! ### Three disjunctions -/

def leftFirst (a b c : Disjunction ν) : Outcome Failure (Combinations ν) := do
  let joined ← (lift a).product (lift b)
  joined.product (lift c)

def rightFirst (a b c : Disjunction ν) : Outcome Failure (Combinations ν) := do
  let joined ← (lift b).product (lift c)
  (lift a).product joined

theorem distribute_three (a b c : Disjunction ν) (base : Option Classes) :
    distribute [a, b, c] base = leftFirst a b c := by
  simp only [distribute, productAll, leftFirst]
  cases (lift a).product (lift b) with
  | ok joined =>
    rw [Outcome.bind_ok, Outcome.bind_ok]
    cases joined.product (lift c) <;> rfl
  | failed failure | halted cause => rfl

def triples (select : Combination ν → Combination ν → Combination ν → Option (Combination ν))
    (a b c : Disjunction ν) : List (Combination ν) :=
  (lift a).all.flatMap fun x => (lift b).all.flatMap fun y => (lift c).all.filterMap (select x y)

def joinedLeft? (x y z : Combination ν) : Option (Combination ν) :=
  (joined? x y).bind fun xy => joined? xy z

def joinedRight? (x y z : Combination ν) : Option (Combination ν) :=
  (joined? y z).bind fun yz => joined? x yz

theorem triples_joinedLeft (a b c : Disjunction ν) :
    triples joinedLeft? a b c = joinable ⟨joinable (lift a) (lift b)⟩ (lift c) := by
  simp only [triples, joinable, flatMap_assoc]
  refine flatMap_congr fun x _ => ?_
  induction (lift b).all with
  | nil => rfl
  | cons y ys ih =>
    rw [flatMap_cons, filterMap_cons, ih]
    have hselect : joinedLeft? x y = fun z => (joined? x y).bind fun xy => joined? xy z := rfl
    rw [hselect]
    cases joined? x y <;> simp

theorem triples_joinedRight (a b c : Disjunction ν) :
    triples joinedRight? a b c = joinable (lift a) ⟨joinable (lift b) (lift c)⟩ := by
  simp only [triples, joinable, filterMap_flatMap, filterMap_filterMap]
  rfl

theorem leftFirst_gives {a b c : Disjunction ν} (hends : ∀ cause, leftFirst a b c ≠ .halted cause) :
    Gives (leftFirst a b c) (triples joinedLeft? a b c) := by
  rw [triples_joinedLeft]
  rw [leftFirst] at hends ⊢
  obtain ⟨hnone, failure, hfailed⟩ | ⟨-, hok⟩ := product_gives (Outcome.ne_halted_of_bind hends)
  · rw [hfailed, hnone]
    exact .inl ⟨rfl, failure, rfl⟩
  · rw [hok, Outcome.bind_ok] at hends ⊢
    exact product_gives hends

theorem rightFirst_gives {a b c : Disjunction ν}
    (hends : ∀ cause, rightFirst a b c ≠ .halted cause) :
    Gives (rightFirst a b c) (triples joinedRight? a b c) := by
  rw [triples_joinedRight]
  rw [rightFirst] at hends ⊢
  obtain ⟨hnone, failure, hfailed⟩ | ⟨-, hok⟩ := product_gives (Outcome.ne_halted_of_bind hends)
  · rw [hfailed, hnone]
    exact .inl ⟨by simp [joinable], failure, rfl⟩
  · rw [hok, Outcome.bind_ok] at hends ⊢
    exact product_gives hends

/-! ### First-order graphs -/

def FirstOrder (x : Combination ν) : Prop := ∀ graph, x.graph = some graph → FirstOrderGraph graph

def Solved (σ : VarId → Ty) (x : Combination ν) : Prop :=
  ∀ graph, x.graph = some graph → graph.Solves σ

/-- What is found has the answers of all parts, in their order, and a graph with the solutions that
all of them have; nothing is found exactly if they have none in common. -/
structure Conjoins (parts : List (Combination ν)) (found : Option (Combination ν)) : Prop where
  some_iff : (∃ z, found = some z) ↔ ∃ σ, ∀ x ∈ parts, Solved σ x
  answers : ∀ z, found = some z → z.answers = parts.flatMap (·.answers)
  graph : ∀ z, found = some z → ∃ graph, z.graph = some graph ∧ FirstOrderGraph graph ∧
    ∀ σ, graph.Solves σ ↔ ∀ x ∈ parts, Solved σ x

theorem conjoins_none {parts : List (Combination ν)} (hparts : ¬ ∃ σ, ∀ x ∈ parts, Solved σ x) :
    Conjoins parts none :=
  ⟨iff_of_false (by rintro ⟨z, ⟨⟩⟩) hparts, by rintro z ⟨⟩, by rintro z ⟨⟩⟩

theorem conjoins_joined? (hx : FirstOrder x) (hy : FirstOrder y) :
    Conjoins [x, y] (joined? x y) := by
  have hgraphs : ∀ graph, some graph ∈ [x.graph, y.graph] → FirstOrderGraph graph := by
    intro graph hmem
    rcases mem_pair.mp hmem with heq | heq
    · exact hx graph heq.symm
    · exact hy graph heq.symm
  have hall : ∀ σ, Classes.SolvesAll σ [x.graph, y.graph] ↔ ∀ w ∈ [x, y], Solved σ w := by
    intro σ
    simp only [Classes.SolvesAll, Solved, mem_cons, not_mem_nil, or_false,
      forall_eq, or_imp, forall_and, eq_comm (a := some _)]
  have hexists := Classes.exists_build_iff hgraphs
  simp only [hall] at hexists
  rw [joined?, join]
  cases hbuild : Classes.build [x.graph, y.graph] with
  | ok graph =>
    have hsolves := Classes.solves_build_iff hgraphs hbuild
    simp only [hall] at hsolves
    refine ⟨iff_of_true ⟨_, rfl⟩ (hexists.mp ⟨graph, hbuild⟩), ?_, ?_⟩
    · rintro z ⟨⟩
      simp
    · rintro z ⟨⟩
      exact ⟨graph, rfl, .build hgraphs hbuild, hsolves⟩
  | failed mismatch | halted cause =>
    refine conjoins_none ?_
    rw [← hexists, hbuild]
    rintro ⟨graph, ⟨⟩⟩

section Conjoins

variable {parts : List (Combination ν)} {found found' : Option (Combination ν)}
  (hfound : Conjoins parts found)
include hfound

theorem Conjoins.firstOrder (hz : found = some z) : FirstOrder z := by
  obtain ⟨graph, hgraph, hfirst, -⟩ := hfound.graph z hz
  rintro _ hsome
  cases hgraph.symm.trans hsome
  exact hfirst

theorem Conjoins.solved_iff (hz : found = some z)
    (σ : VarId → Ty) : Solved σ z ↔ ∀ x ∈ parts, Solved σ x := by
  obtain ⟨graph, hgraph, -, hsolves⟩ := hfound.graph z hz
  rw [← hsolves σ]
  constructor
  · exact fun hsolved => hsolved graph hgraph
  · intro hsolved _ hsome
    cases hgraph.symm.trans hsome
    exact hsolved

theorem Conjoins.congr {parts' : List (Combination ν)}
    (hsolved : ∀ σ, (∀ x ∈ parts, Solved σ x) ↔ ∀ x ∈ parts', Solved σ x)
    (hanswers : parts.flatMap (·.answers) = parts'.flatMap (·.answers)) :
    Conjoins parts' found := by
  refine ⟨?_, fun z hz => (hfound.answers z hz).trans hanswers, fun z hz => ?_⟩
  · rw [hfound.some_iff]
    simp only [hsolved]
  · obtain ⟨graph, hgraph, hfirst, hsolves⟩ := hfound.graph z hz
    exact ⟨graph, hgraph, hfirst, fun σ => (hsolves σ).trans (hsolved σ)⟩

theorem Conjoins.append (hz : FirstOrder z) :
    Conjoins (parts ++ [z]) (found.bind fun w => joined? w z) := by
  cases found with
  | none =>
    refine conjoins_none fun ⟨σ, hsolved⟩ => ?_
    obtain ⟨w, hw⟩ := hfound.some_iff.mpr ⟨σ, fun x hx => hsolved x (by simp [hx])⟩
    cases hw
  | some w =>
    refine (conjoins_joined? (hfound.firstOrder rfl) hz).congr (fun σ => ?_) ?_
    · simp [hfound.solved_iff rfl, or_imp, forall_and]
    · simp [hfound.answers w rfl]

theorem Conjoins.cons (hx : FirstOrder x) :
    Conjoins (x :: parts) (found.bind fun w => joined? x w) := by
  cases found with
  | none =>
    refine conjoins_none fun ⟨σ, hsolved⟩ => ?_
    obtain ⟨w, hw⟩ := hfound.some_iff.mpr ⟨σ, fun y hy => hsolved y (by simp [hy])⟩
    cases hw
  | some w =>
    refine (conjoins_joined? hx (hfound.firstOrder rfl)).congr (fun σ => ?_) ?_
    · simp [hfound.solved_iff rfl]
    · simp [hfound.answers w rfl]

def Alike (z w : Combination ν) : Prop :=
  z.answers = w.answers ∧ ReduceAlike z.classes w.classes

theorem Conjoins.alike (hfound' : Conjoins parts found') : Option.Rel Alike found found' := by
  have hsome := hfound.some_iff.trans hfound'.some_iff.symm
  cases found with
  | none =>
    cases found' with
    | none => exact .none
    | some w => simp at hsome
  | some z =>
    cases found' with
    | none => simp at hsome
    | some w =>
      obtain ⟨graph, hgraph, hfirst, hsolves⟩ := hfound.graph z rfl
      obtain ⟨graph', hgraph', hfirst', hsolves'⟩ := hfound'.graph w rfl
      refine .some ⟨(hfound.answers z rfl).trans (hfound'.answers w rfl).symm, ?_⟩
      rw [Combination.classes, Combination.classes, hgraph, hgraph']
      exact hfirst.reduceAlike hfirst' fun σ => (hsolves σ).trans (hsolves' σ).symm

end Conjoins

section Lifted

variable {a b c : Disjunction ν}

def Plain (a : Disjunction ν) : Prop :=
  ∀ answer ∈ a.answers, ∀ graph, answer.graph = some graph → FirstOrderGraph graph

theorem forall₂_lift (ha : Plain a) :
    Forall₂ (fun x y => x = y ∧ FirstOrder x) (lift a).all (lift a).all := by
  refine forall₂_same.mpr fun x hx => ⟨rfl, ?_⟩
  obtain ⟨answer, hanswer, rfl⟩ := mem_map.mp hx
  exact ha answer hanswer

theorem alike_triples (ha : Plain a) (hb : Plain b) (hc : Plain c) :
    Forall₂ Alike (triples joinedLeft? a b c) (triples joinedRight? a b c) := by
  refine rel_flatMap (forall₂_lift ha) ?_
  rintro x _ ⟨rfl, hx⟩
  refine rel_flatMap (forall₂_lift hb) ?_
  rintro y _ ⟨rfl, hy⟩
  refine rel_filterMap ?_ (forall₂_lift hc)
  rintro z _ ⟨rfl, hz⟩
  exact ((conjoins_joined? hx hy).append hz).alike ((conjoins_joined? hy hz).cons hx)

/-- **Distribution is associative for first-order graphs.** If neither way halts, combining three
disjunctions from the left and from the right either fails both times, or gives the same answers in
the same order, in graphs that agree on which types are equal. What is combined from the left is
what `distribute` gives. -/
theorem product_associative (hgraphs : ∀ answer ∈ a.answers ++ b.answers ++ c.answers,
      ∀ graph, answer.graph = some graph → FirstOrderGraph graph)
    (hleft : ∀ cause, leftFirst a b c ≠ .halted cause)
    (hright : ∀ cause, rightFirst a b c ≠ .halted cause) :
    (∀ base, distribute [a, b, c] base = leftFirst a b c) ∧
      ((∃ failure failure', leftFirst a b c = .failed failure ∧
          rightFirst a b c = .failed failure') ∨
        ∃ left right, leftFirst a b c = .ok left ∧ rightFirst a b c = .ok right ∧
          left.all.map (·.answers) = right.all.map (·.answers) ∧
          List.Forall₂ (fun x y => ReduceAlike x.classes y.classes) left.all right.all) := by
  refine ⟨distribute_three a b c, ?_⟩
  simp only [List.forall_mem_append] at hgraphs
  obtain ⟨⟨ha, hb⟩, hc⟩ := hgraphs
  have halike := alike_triples ha hb hc
  obtain ⟨hnone, failure, hfailed⟩ | ⟨hsome, hok⟩ := leftFirst_gives hleft
  · rw [hnone] at halike
    obtain ⟨-, failure', hfailed'⟩ | ⟨hsome', -⟩ := rightFirst_gives hright
    · exact .inl ⟨failure, failure', hfailed, hfailed'⟩
    · exact absurd (List.forall₂_nil_left_iff.mp halike) hsome'
  · obtain ⟨hnone', -⟩ | ⟨-, hok'⟩ := rightFirst_gives hright
    · rw [hnone'] at halike
      exact absurd (List.forall₂_nil_right_iff.mp halike) hsome
    · refine .inr ⟨_, _, hok, hok', ?_, halike.imp fun _ _ => And.right⟩
      rw [← List.forall₂_eq_eq_eq, List.forall₂_map_left_iff, List.forall₂_map_right_iff]
      exact halike.imp fun _ _ => And.left

end Lifted

section Single

variable {graph : Classes} {mismatch : Mismatch}

theorem product_of_build (hbuild : Classes.build [x.graph, y.graph] = .ok graph) :
    product ⟨[x]⟩ ⟨[y]⟩ = .ok ⟨[⟨x.answers ++ y.answers, some graph⟩]⟩ := by
  change (do let kept ← joinAll [(x, y)] {}; _) = _
  rw [joinAll, join, hbuild]
  rfl

theorem product_of_pruned (hbuild : Classes.build [x.graph, z.graph] = .ok graph)
    (hfailed : Classes.build [y.graph, z.graph] = .failed mismatch) :
    product ⟨[x, y]⟩ ⟨[z]⟩ = .ok ⟨[⟨x.answers ++ z.answers, some graph⟩]⟩ := by
  change (do let kept ← joinAll [(x, z), (y, z)] {}; _) = _
  rw [joinAll, join, hbuild]
  change (do let kept ← joinAll [(y, z)] _; _) = _
  rw [joinAll, join, hfailed]
  rfl

theorem lift_single (node : String) (t : Ty) (graph : Option Classes) :
    lift (Disjunction.single node t graph) = ⟨[⟨[⟨node, t, graph⟩], graph⟩]⟩ := rfl

/-- One of two alternatives for `x` is dropped, whichever side is combined first. -/
theorem product_associative_pruned : ∃ number string : Classes,
    Classes.empty.equate (.var ⟨1, "x"⟩) .number = .ok number ∧
    Classes.empty.equate (.var ⟨1, "x"⟩) .string = .ok string ∧
    let a : Disjunction String :=
      ⟨[⟨"a", .var ⟨1, "x"⟩, some number⟩, ⟨"a", .var ⟨1, "x"⟩, some string⟩]⟩
    let b := Disjunction.single "b" (.var ⟨1, "x"⟩) (some number)
    let c := Disjunction.single "c" (.var ⟨1, "x"⟩) (some number)
    ∃ left right, leftFirst a b c = .ok left ∧ rightFirst a b c = .ok right ∧ left.size = 1 ∧
      left.all.map (·.answers) = right.all.map (·.answers) ∧
      List.Forall₂ (fun x y => ReduceAlike x.classes y.classes) left.all right.all := by
  obtain ⟨number, hnumber, hknows⟩ := Classes.exists_knows (v := ⟨1, "x"⟩) (t := .number) rfl
    fun depth => rfl
  obtain ⟨string, hstring, hother⟩ := Classes.exists_knows (v := ⟨1, "x"⟩) (t := .string) rfl
    fun depth => rfl
  have hmeet : ∀ facts depth,
      Facts.unifyWithin (depth + 4) .number .number facts = .ok (.number, facts) :=
    fun facts depth => rfl
  obtain ⟨twice, htwice, hknowstwice⟩ := hknows.build_ok hknows rfl hmeet
  obtain ⟨last, hlast, -⟩ := hknowstwice.build_ok hknows rfl hmeet
  obtain ⟨last', hlast', -⟩ := hknows.build_ok hknowstwice rfl hmeet
  have hpruned {graph : Classes} (hgraph : Classes.Knows 1 .number graph) :
      Classes.build [some string, some graph] =
        .failed { expected := .string, actual := .number } :=
    hother.build_failed hgraph rfl fun facts depth => rfl
  refine ⟨number, string, hnumber, hstring, ?_⟩
  intro a b c
  obtain ⟨answers, hleft⟩ : ∃ answers, leftFirst a b c = .ok ⟨[⟨answers, some last⟩]⟩ := by
    have hfirst : (lift a).product (lift b) = _ := product_of_pruned htwice (hpruned hknows)
    rw [leftFirst, hfirst]
    exact ⟨_, product_of_build hlast⟩
  obtain ⟨answers', hright⟩ : ∃ answers, rightFirst a b c = .ok ⟨[⟨answers, some last'⟩]⟩ := by
    rw [rightFirst, lift_single, lift_single, product_of_build htwice]
    exact ⟨_, product_of_pruned hlast' (hpruned hknowstwice)⟩
  have hplain : ∀ answer ∈ a.answers ++ b.answers ++ c.answers,
      ∀ graph, answer.graph = some graph → FirstOrderGraph graph := by
    have hvar : (Ty.var ⟨1, "x"⟩).FirstOrder := .var _
    have hfirst := FirstOrderGraph.empty.equate hvar (.parametric (by decide) (by simp)) hnumber
    have hsecond := FirstOrderGraph.empty.equate hvar (.parametric (by decide) (by simp)) hstring
    simp [a, b, c, Disjunction.single, hfirst, hsecond]
  obtain ⟨-, ⟨_, _, hfailed, -⟩ | ⟨left, right, hok, hok', hanswers, halike⟩⟩ :=
    product_associative hplain (by simp [hleft]) (by simp [hright])
  · cases hleft.symm.trans hfailed
  · cases hleft.symm.trans hok
    exact ⟨_, right, hleft, hok', rfl, hanswers, halike⟩

end Single

end Combinations

end TypeSearch
