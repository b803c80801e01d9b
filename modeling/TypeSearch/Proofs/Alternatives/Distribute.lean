import TypeSearch.Proofs.Alternatives.Product

/-!
# Distribution over siblings

Siblings are combined one after another, and combinations whose graphs cannot be built together are
dropped before the next sibling is looked at. What is left at the end is the same as if all choices
of one answer for each sibling were written down first, in lexicographic order, and every choice had
its graphs built together from the left. If nothing is left, the failure is that of the first
sibling after which nothing was.
-/

namespace TypeSearch.Combinations

open List

variable {ν α : Type} {siblings : List (Disjunction ν)} {sibling : Disjunction ν}
  {mismatch : Mismatch}

/-! ### Choices -/

/-- All ways to choose one answer for each sibling; the answer of the first one changes slowest. -/
def choices : List (Disjunction ν) → List (List (Answer ν))
  | [] => [[]]
  | sibling :: siblings =>
    sibling.answers.flatMap fun answer => (choices siblings).map (answer :: ·)

def buildNext (graph : Option Classes) (answer : Answer ν) : Outcome Mismatch (Option Classes) := do
  let classes ← Classes.build [graph, answer.graph]
  return some classes

def buildChoice : List (Answer ν) → Outcome Mismatch (Option Classes)
  | [] => .ok none
  | first :: rest => rest.foldlM buildNext first.graph

def survivor? (choice : List (Answer ν)) : Option (Combination ν) :=
  (buildChoice choice).value?.map fun graph => ⟨choice, graph⟩

def survivors (siblings : List (Disjunction ν)) : List (Combination ν) :=
  (choices siblings).filterMap survivor?

def positions : List (Disjunction ν) → List (List Nat)
  | [] => [[]]
  | sibling :: siblings =>
    (List.range sibling.answers.length).flatMap fun i => (positions siblings).map (i :: ·)

theorem mem_positions_iff {indices : List Nat} :
    indices ∈ positions siblings ↔
      Forall₂ (fun i sibling => i < sibling.answers.length) indices siblings := by
  induction siblings generalizing indices with
  | nil => simp [positions]
  | cons sibling siblings ih =>
    simp only [positions, mem_flatMap, mem_range, mem_map, ih]
    constructor
    · rintro ⟨i, hi, rest, hrest, rfl⟩
      exact .cons hi hrest
    · intro hall
      cases hall with
      | cons hi hrest => exact ⟨_, hi, _, hrest, rfl⟩

theorem pairwise_positions (siblings : List (Disjunction ν)) :
    (positions siblings).Pairwise (· < ·) := by
  induction siblings with
  | nil => exact pairwise_singleton _ _
  | cons sibling siblings ih =>
    refine pairwise_flatMap.mpr ⟨fun i _ => ?_, ?_⟩
    · refine pairwise_map.mpr (ih.imp fun hless => ?_)
      exact cons_lt_cons_iff.mpr (.inr ⟨rfl, hless⟩)
    · refine pairwise_lt_range.imp fun hless => ?_
      simp only [mem_map]
      rintro _ ⟨rest, -, rfl⟩ _ ⟨rest', -, rfl⟩
      exact cons_lt_cons_iff.mpr (.inl hless)

theorem forall₂_range_getElem? (items : List α) :
    Forall₂ (fun i item => items[i]? = some item) (List.range items.length) items := by
  rw [forall₂_iff_get]
  refine ⟨length_range, fun i hi hi' => ?_⟩
  simp

theorem forall₂_positions_choices (siblings : List (Disjunction ν)) :
    Forall₂ (fun indices choice =>
        choice.map some = zipWith (fun i sibling => sibling.answers[i]?) indices siblings)
      (positions siblings) (choices siblings) := by
  induction siblings with
  | nil => exact .cons rfl .nil
  | cons sibling siblings ih =>
    refine rel_flatMap (forall₂_range_getElem? sibling.answers) ?_
    intro i answer hanswer
    rw [forall₂_map_left_iff, forall₂_map_right_iff]
    refine ih.imp fun indices choice hchoice => ?_
    rw [map_cons, zipWith_cons_cons, hanswer, hchoice]

theorem choices_concat (siblings : List (Disjunction ν)) (sibling : Disjunction ν) :
    choices (siblings ++ [sibling]) = (choices siblings).flatMap fun choice =>
      sibling.answers.map fun answer => choice ++ [answer] := by
  induction siblings with
  | nil => simp [choices, map_eq_flatMap]
  | cons first siblings ih =>
    simp only [cons_append, choices, ih, flatMap_assoc, flatMap_map,
      map_flatMap, map_map]
    rfl

theorem ne_nil_of_mem_choices (hsome : siblings ≠ []) {choice : List (Answer ν)}
    (hchoice : choice ∈ choices siblings) : choice ≠ [] := by
  obtain ⟨first, rest, rfl⟩ := exists_cons_of_ne_nil hsome
  obtain ⟨answer, -, hmem⟩ := mem_flatMap.mp hchoice
  obtain ⟨tail, -, rfl⟩ := mem_map.mp hmem
  exact cons_ne_nil _ _

/-! ### One more sibling -/

section Concat

variable {choice : List (Answer ν)} {answer : Answer ν} {x : Combination ν}

def lone (answer : Answer ν) : Combination ν := ⟨[answer], answer.graph⟩

theorem lift_all (sibling : Disjunction ν) : (lift sibling).all = sibling.answers.map lone := rfl

theorem buildChoice_concat (hsome : choice ≠ []) (answer : Answer ν) :
    buildChoice (choice ++ [answer]) =
      buildChoice choice >>= fun graph => buildNext graph answer := by
  obtain ⟨first, rest, rfl⟩ := exists_cons_of_ne_nil hsome
  simp [buildChoice, foldlM_append]

theorem survivor?_concat (hsome : choice ≠ []) (answer : Answer ν) :
    survivor? (choice ++ [answer]) = (survivor? choice).bind fun x => joined? x (lone answer) := by
  rw [survivor?, buildChoice_concat hsome, survivor?]
  cases buildChoice choice with
  | ok graph =>
    rw [Outcome.bind_ok, buildNext]
    simp only [Outcome.value?, Option.map_some, Option.bind_some, joined?, join, lone]
    cases Classes.build [graph, answer.graph] <;> rfl
  | failed mismatch | halted cause => rfl

theorem flatMap_eq_of_filterMap {β γ : Type} {f : α → Option β} {g : β → List γ} {h : α → List γ}
    {items : List α} (hall : ∀ item ∈ items, h item = ((f item).map g).getD []) :
    items.flatMap h = (items.filterMap f).flatMap g := by
  induction items with
  | nil => rfl
  | cons item items ih =>
    rw [forall_mem_cons] at hall
    rw [flatMap_cons, filterMap_cons, hall.1, ih hall.2]
    cases f item <;> rfl

theorem survivors_concat (hsome : siblings ≠ []) (sibling : Disjunction ν) :
    survivors (siblings ++ [sibling]) = joinable ⟨survivors siblings⟩ (lift sibling) := by
  rw [survivors, choices_concat, filterMap_flatMap, joinable]
  refine flatMap_eq_of_filterMap fun choice hchoice => ?_
  rw [filterMap_map, lift_all]
  have hextend := survivor?_concat (ne_nil_of_mem_choices hsome hchoice)
  simp only [Function.comp_def, hextend, filterMap_map]
  cases survivor? choice <;> simp

def Halting (siblings : List (Disjunction ν)) : Prop :=
  ∃ choice ∈ choices siblings, ∃ cause, buildChoice choice = .halted cause

def HaltingPair (left right : Combinations ν) : Prop :=
  ∃ x ∈ left.all, ∃ y ∈ right.all, ∃ cause, join x y = .halted cause

theorem mem_survivors_iff :
    x ∈ survivors siblings ↔
      x.answers ∈ choices siblings ∧ buildChoice x.answers = .ok x.graph := by
  have hvalue : ∀ choice : List (Answer ν), survivor? choice = some x ↔
      choice = x.answers ∧ buildChoice x.answers = .ok x.graph := by
    intro choice
    obtain ⟨answers, graph⟩ := x
    rw [survivor?]
    cases hbuild : buildChoice choice with
    | ok built =>
      simp only [Outcome.value?, Option.map_some, Option.some.injEq, Combination.mk.injEq]
      constructor
      · rintro ⟨rfl, rfl⟩
        exact ⟨rfl, hbuild⟩
      · rintro ⟨rfl, hgraph⟩
        exact ⟨rfl, Outcome.ok.inj (hbuild.symm.trans hgraph)⟩
    | failed mismatch | halted cause =>
      constructor
      · intro hnone
        cases hnone
      · rintro ⟨rfl, hgraph⟩
        cases hbuild.symm.trans hgraph
  rw [survivors, mem_filterMap]
  constructor
  · rintro ⟨choice, hchoice, hsurvivor⟩
    obtain ⟨rfl, hgraph⟩ := (hvalue choice).mp hsurvivor
    exact ⟨hchoice, hgraph⟩
  · rintro ⟨hchoice, hgraph⟩
    exact ⟨x.answers, hchoice, (hvalue _).mpr ⟨rfl, hgraph⟩⟩

theorem join_lone_halts_iff :
    (∃ cause, join x (lone answer) = .halted cause) ↔
      ∃ cause, buildNext x.graph answer = .halted cause := by
  rw [join, buildNext, lone]
  cases Classes.build [x.graph, answer.graph] <;> simp [pure]

theorem halting_concat_iff (hsome : siblings ≠ []) (hanswers : sibling.answers ≠ []) :
    Halting (siblings ++ [sibling]) ↔
      Halting siblings ∨ HaltingPair ⟨survivors siblings⟩ (lift sibling) := by
  rw [Halting, choices_concat]
  constructor
  · rintro ⟨choice', hchoice', cause, hhalts⟩
    obtain ⟨choice, hchoice, hmem⟩ := mem_flatMap.mp hchoice'
    obtain ⟨answer, hanswer, rfl⟩ := mem_map.mp hmem
    rw [buildChoice_concat (ne_nil_of_mem_choices hsome hchoice)] at hhalts
    cases hbuild : buildChoice choice with
    | ok graph =>
      rw [hbuild, Outcome.bind_ok] at hhalts
      exact .inr ⟨⟨choice, graph⟩, mem_survivors_iff.mpr ⟨hchoice, hbuild⟩, lone answer,
        mem_map_of_mem hanswer, join_lone_halts_iff.mpr ⟨cause, hhalts⟩⟩
    | failed mismatch =>
      rw [hbuild] at hhalts
      cases hhalts
    | halted first => exact .inl ⟨choice, hchoice, first, hbuild⟩
  · rintro (⟨choice, hchoice, cause, hhalts⟩ | ⟨x, hx, y, hy, hhalts⟩)
    · obtain ⟨answer, hanswer⟩ := exists_mem_of_ne_nil _ hanswers
      refine ⟨choice ++ [answer],
        mem_flatMap.mpr ⟨choice, hchoice, mem_map_of_mem hanswer⟩, cause, ?_⟩
      rw [buildChoice_concat (ne_nil_of_mem_choices hsome hchoice), hhalts]
      rfl
    · obtain ⟨hchoice, hbuild⟩ := mem_survivors_iff.mp hx
      obtain ⟨answer, hanswer, rfl⟩ := mem_map.mp hy
      obtain ⟨cause, hnext⟩ := join_lone_halts_iff.mp hhalts
      refine ⟨x.answers ++ [answer],
        mem_flatMap.mpr ⟨x.answers, hchoice, mem_map_of_mem hanswer⟩, cause, ?_⟩
      rw [buildChoice_concat (ne_nil_of_mem_choices hsome hchoice), hbuild, Outcome.bind_ok, hnext]

end Concat

/-! ### Products -/

section Joined

variable {pairs : List (Combination ν × Combination ν)} {kept : Kept ν}
  {left right : Combinations ν}

theorem joinAll_ends_iff :
    (∀ cause, joinAll pairs kept ≠ .halted cause) ↔
      ∀ pair ∈ pairs, ∀ cause, join pair.1 pair.2 ≠ .halted cause := by
  induction pairs generalizing kept with
  | nil => simp [joinAll]
  | cons pair pairs ih =>
    obtain ⟨x, y⟩ := pair
    rw [forall_mem_cons, joinAll]
    cases hjoin : join x y with
    | ok joined | failed mismatch => simp [ih]
    | halted cause => simp

def pairings (left right : Combinations ν) : List (Combination ν × Combination ν) :=
  left.all.flatMap fun x => right.all.map fun y => (x, y)

theorem mem_pairings_iff {x y : Combination ν} :
    (x, y) ∈ pairings left right ↔ x ∈ left.all ∧ y ∈ right.all := by
  simp [pairings]

theorem length_pairings (left right : Combinations ν) :
    (pairings left right).length = left.all.length * right.all.length := by
  simp [pairings, length_flatMap]

theorem product_ends_iff :
    (∀ cause, product left right ≠ .halted cause) ↔ ¬ HaltingPair left right := by
  have hproduct : (∀ cause, product left right ≠ .halted cause) ↔
      ∀ cause, joinAll (pairings left right) {} ≠ .halted cause := by
    refine ⟨fun hends => Outcome.ne_halted_of_bind hends, fun hends cause => ?_⟩
    obtain ⟨result, hresult, -⟩ := joinAll_eq hends
    rw [product]
    change (joinAll (pairings left right) {} >>= _) ≠ _
    rw [hresult, Outcome.bind_ok]
    split <;> simp [pure]
  rw [hproduct, joinAll_ends_iff]
  constructor
  · rintro hends ⟨x, hx, y, hy, cause, hhalts⟩
    exact hends (x, y) (mem_pairings_iff.mpr ⟨hx, hy⟩) cause hhalts
  · rintro hends ⟨x, y⟩ hpair cause hhalts
    obtain ⟨hx, hy⟩ := mem_pairings_iff.mp hpair
    exact hends ⟨x, hx, y, hy, cause, hhalts⟩

theorem joinAll_cons_of_failed {x y : Combination ν} (hfirst : join x y = .failed mismatch) :
    joinAll ((x, y) :: pairs) kept =
      joinAll pairs
        { kept with
          cause := kept.cause.or (some (.mismatch mismatch))
          pruned := kept.pruned + 1 } := by
  rw [joinAll, hfirst]

theorem joinAll_of_failed {cause : Failure} (hcause : kept.cause = some cause)
    (hfailed : ∀ pair ∈ pairs, ∃ mismatch, join pair.1 pair.2 = .failed mismatch) :
    joinAll pairs kept = .ok { kept with pruned := kept.pruned + pairs.length } := by
  induction pairs generalizing kept with
  | nil => rfl
  | cons pair pairs ih =>
    rw [forall_mem_cons] at hfailed
    obtain ⟨mismatch, hfirst⟩ := hfailed.1
    rw [joinAll_cons_of_failed hfirst, hcause, Option.some_or, ih rfl hfailed.2, length_cons,
      Nat.add_assoc, Nat.add_comm 1]

theorem product_eq_failed (hends : ¬ HaltingPair left right) (hnone : joinable left right = [])
    {x y : Combination ν} (hx : left.all.head? = some x) (hy : right.all.head? = some y) :
    ∃ mismatch, join x y = .failed mismatch ∧
      product left right =
        .failed (.noTyping (some (.mismatch mismatch)) (left.all.length * right.all.length)) := by
  have hfailed : ∀ pair ∈ pairings left right,
      ∃ mismatch, join pair.1 pair.2 = .failed mismatch := by
    rintro ⟨x, y⟩ hpair
    obtain ⟨hx, hy⟩ := mem_pairings_iff.mp hpair
    cases hjoin : join x y with
    | ok joined =>
      have hmem : joined ∈ joinable left right := mem_flatMap.mpr
        ⟨x, hx, mem_filterMap.mpr ⟨y, hy, by rw [joined?, hjoin]; rfl⟩⟩
      rw [hnone] at hmem
      cases hmem
    | failed mismatch => exact ⟨mismatch, rfl⟩
    | halted cause => exact absurd ⟨x, hx, y, hy, cause, hjoin⟩ hends
  obtain ⟨xs, hxs⟩ := head?_eq_some_iff.mp hx
  obtain ⟨ys, hys⟩ := head?_eq_some_iff.mp hy
  obtain ⟨rest, hpairs⟩ : ∃ rest, pairings left right = (x, y) :: rest := by
    simp [pairings, hxs, hys]
  rw [hpairs, forall_mem_cons] at hfailed
  obtain ⟨mismatch, hfirst⟩ := hfailed.1
  refine ⟨mismatch, hfirst, ?_⟩
  have hcount : left.all.length * right.all.length = 1 + rest.length := by
    rw [← length_pairings, hpairs, length_cons, Nat.add_comm]
  rw [product]
  change (joinAll (pairings left right) {} >>= _) = _
  rw [hpairs, joinAll_cons_of_failed hfirst, joinAll_of_failed rfl hfailed.2, hcount]
  rfl

end Joined

/-! ### All siblings -/

section Run

variable {done rest : List (Disjunction ν)}

theorem survivors_single (sibling : Disjunction ν) : survivors [sibling] = (lift sibling).all := by
  simp [survivors, choices, lift, filterMap_flatMap, survivor?, buildChoice, Outcome.value?,
    map_eq_flatMap, pure]

theorem not_halting_single (sibling : Disjunction ν) : ¬ Halting [sibling] := by
  rintro ⟨choice, hchoice, cause, hhalts⟩
  obtain ⟨answer, -, hmem⟩ := mem_flatMap.mp hchoice
  obtain ⟨tail, htail, rfl⟩ := mem_map.mp hmem
  obtain rfl := mem_singleton.mp htail
  cases hhalts

theorem survivors_append_eq_nil (hnone : survivors done = []) (rest : List (Disjunction ν)) :
    survivors (done ++ rest) = [] := by
  induction rest generalizing done with
  | nil => rwa [append_nil]
  | cons sibling rest ih =>
    have hsome : done ≠ [] := by
      rintro rfl
      cases hnone
    rw [append_cons]
    refine ih ?_
    rw [survivors_concat hsome, hnone]
    rfl

theorem survivors_take_ne_nil (hsome : survivors siblings ≠ []) (k : Nat) :
    survivors (siblings.take k) ≠ [] := by
  intro hnone
  have hall := survivors_append_eq_nil hnone (siblings.drop k)
  rw [take_append_drop] at hall
  exact hsome hall

theorem Halting.append (hhalts : Halting done) (hsome : done ≠ [])
    (hanswers : ∀ sibling ∈ rest, sibling.answers ≠ []) : Halting (done ++ rest) := by
  induction rest generalizing done with
  | nil => rwa [append_nil]
  | cons sibling rest ih =>
    rw [forall_mem_cons] at hanswers
    rw [append_cons]
    exact ih ((halting_concat_iff hsome hanswers.1).mpr (.inl hhalts)) (by simp) hanswers.2

theorem not_halting_append (hends : ¬ Halting done) (hnone : survivors done = [])
    (hsome : done ≠ []) (hanswers : ∀ sibling ∈ rest, sibling.answers ≠ []) :
    ¬ Halting (done ++ rest) := by
  induction rest generalizing done with
  | nil => rwa [append_nil]
  | cons sibling rest ih =>
    rw [forall_mem_cons] at hanswers
    rw [append_cons]
    refine ih ?_ (survivors_append_eq_nil hnone [sibling]) (by simp) hanswers.2
    rw [halting_concat_iff hsome hanswers.1]
    rintro (hhalts | ⟨x, hx, -⟩)
    · exact hends hhalts
    · rw [hnone] at hx
      cases hx

/-- What distribution over siblings ends in: all that survives, or a failure at the first sibling
after which nothing does. It halts exactly if building the graphs of some choice does. -/
inductive Distributed (siblings : List (Disjunction ν)) : Outcome Failure (Combinations ν) → Prop
  | halted {cause : Halt} (hhalts : Halting siblings) : Distributed siblings (.halted cause)
  | ok (hends : ¬ Halting siblings) (hsome : survivors siblings ≠ []) :
      Distributed siblings (.ok ⟨survivors siblings⟩)
  | failed {done rest : List (Disjunction ν)} {sibling : Disjunction ν} {x : Combination ν}
      {answer : Answer ν} {mismatch : Mismatch} (hends : ¬ Halting siblings)
      (hsplit : siblings = done ++ sibling :: rest) (hnone : survivors (done ++ [sibling]) = [])
      (hx : (survivors done).head? = some x) (hanswer : sibling.answers.head? = some answer)
      (hbuild : Classes.build [x.graph, answer.graph] = .failed mismatch) :
      Distributed siblings (.failed (.noTyping (some (.mismatch mismatch))
        ((survivors done).length * sibling.answers.length)))

theorem build_of_join {x : Combination ν} {answer : Answer ν}
    (hjoin : join x (lone answer) = .failed mismatch) :
    Classes.build [x.graph, answer.graph] = .failed mismatch := by
  rw [join, lone] at hjoin
  rcases Outcome.bind_eq_failed hjoin with hbuild | ⟨classes, -, hlast⟩
  · exact hbuild
  · cases hlast

/-- Multiplying in the remaining siblings one by one distributes over all of them. -/
theorem distributed_productAll (hsome : done ≠ []) (hends : ¬ Halting done)
    (hleft : survivors done ≠ []) (hanswers : ∀ sibling ∈ rest, sibling.answers ≠ []) :
    Distributed (done ++ rest) (productAll ⟨survivors done⟩ rest) := by
  induction rest generalizing done with
  | nil =>
    rw [append_nil]
    exact .ok hends hleft
  | cons sibling rest ih =>
    rw [forall_mem_cons] at hanswers
    have hconcat := halting_concat_iff hsome hanswers.1
    rw [productAll]
    by_cases hpair : HaltingPair ⟨survivors done⟩ (lift sibling)
    · obtain ⟨cause, hhalts⟩ : ∃ cause,
          product ⟨survivors done⟩ (lift sibling) = .halted cause := by
        by_contra hnone
        exact product_ends_iff.mp (fun cause hhalts => hnone ⟨cause, hhalts⟩) hpair
      rw [hhalts]
      refine .halted ?_
      rw [append_cons]
      exact (hconcat.mpr (.inr hpair)).append (by simp) hanswers.2
    · have hends' : ¬ Halting (done ++ [sibling]) := by
        rw [hconcat]
        exact not_or.mpr ⟨hends, hpair⟩
      obtain ⟨hnone, -⟩ | ⟨hmore, hok⟩ := product_gives (product_ends_iff.mpr hpair)
      · -- nothing survives this sibling
        obtain ⟨x, hx⟩ := Option.ne_none_iff_exists'.mp (mt head?_eq_none_iff.mp hleft)
        obtain ⟨answer, hanswer⟩ :=
          Option.ne_none_iff_exists'.mp (mt head?_eq_none_iff.mp hanswers.1)
        obtain ⟨mismatch, hjoin, hfailed⟩ := product_eq_failed hpair hnone hx
          (y := lone answer) (by rw [lift_all, head?_map, hanswer]; rfl)
        rw [hfailed, lift_all, length_map]
        rw [← survivors_concat hsome] at hnone
        refine .failed ?_ rfl hnone hx hanswer (build_of_join hjoin)
        rw [append_cons]
        exact not_halting_append hends' hnone (by simp) hanswers.2
      · rw [hok, Outcome.bind_ok, append_cons, ← survivors_concat hsome]
        rw [← survivors_concat hsome] at hmore
        exact ih (by simp) hends' hmore hanswers.2

theorem distributed_distribute (hsome : siblings ≠ [])
    (hanswers : ∀ sibling ∈ siblings, sibling.answers ≠ []) (base : Option Classes) :
    Distributed siblings (distribute siblings base) := by
  obtain ⟨first, rest, rfl⟩ := exists_cons_of_ne_nil hsome
  rw [forall_mem_cons] at hanswers
  have hfirst : survivors [first] ≠ [] := by
    rw [survivors_single]
    exact mt map_eq_nil_iff.mp hanswers.1
  have hrun := distributed_productAll (cons_ne_nil _ _) (not_halting_single first) hfirst
    hanswers.2
  rwa [survivors_single] at hrun

/-- **Distribution is the pruned lexicographic product.** Choices are listed by the positions of
their answers in lexicographic order. Distribution over siblings that all have answers halts exactly
if building the graphs of some choice from the left does. If it succeeds, it gives the choices whose
graphs can be built, in their order, each with its answers and the graph that was built. If nothing
halts, it fails exactly if for some number of siblings no choice survives; for the first such
number, it counts all survivors of the siblings before, combined with each answer of the last one,
and the cause is why the first of those cannot be built. -/
theorem distribute_lexicographic (hsome : siblings ≠ [])
    (hanswers : ∀ sibling ∈ siblings, sibling.answers ≠ []) (base : Option Classes) :
    ((positions siblings).Pairwise (· < ·) ∧
      (∀ indices, indices ∈ positions siblings ↔
        List.Forall₂ (fun i sibling => i < sibling.answers.length) indices siblings) ∧
      List.Forall₂ (fun indices choice =>
          choice.map some = List.zipWith (fun i sibling => sibling.answers[i]?) indices siblings)
        (positions siblings) (choices siblings)) ∧
    ((∃ cause, distribute siblings base = .halted cause) ↔
      ∃ choice ∈ choices siblings, ∃ cause, buildChoice choice = .halted cause) ∧
    (∀ combinations, distribute siblings base = .ok combinations →
      combinations.all = (choices siblings).filterMap survivor?) ∧
    ((∃ failure, distribute siblings base = .failed failure) ↔
      (∀ choice ∈ choices siblings, ∀ cause, buildChoice choice ≠ .halted cause) ∧
        ∃ k ≤ siblings.length, survivors (siblings.take k) = []) ∧
    ∀ failure, distribute siblings base = .failed failure →
      ∃ k sibling x answer mismatch, siblings[k]? = some sibling ∧
        survivors (siblings.take (k + 1)) = [] ∧
        (∀ j ≤ k, survivors (siblings.take j) ≠ []) ∧
        (survivors (siblings.take k)).head? = some x ∧ sibling.answers.head? = some answer ∧
        Classes.build [x.graph, answer.graph] = .failed mismatch ∧
        failure = .noTyping (some (.mismatch mismatch))
          ((survivors (siblings.take k)).length * sibling.answers.length) := by
  have hnot : (∀ choice ∈ choices siblings, ∀ cause, buildChoice choice ≠ .halted cause) ↔
      ¬ Halting siblings := by
    simp only [Halting, not_exists, not_and, ne_eq]
  refine ⟨⟨pairwise_positions siblings, fun indices => mem_positions_iff,
    forall₂_positions_choices siblings⟩, ?_⟩
  rw [hnot]
  have hdistributed := distributed_distribute hsome hanswers base
  revert hdistributed
  generalize distribute siblings base = outcome
  intro hdistributed
  cases hdistributed with
  | halted hhalts =>
    exact ⟨iff_of_true ⟨_, rfl⟩ hhalts, nofun, iff_of_false nofun fun hnone => hnone.1 hhalts,
      nofun⟩
  | ok hends hleft =>
    refine ⟨iff_of_false nofun hends, ?_, iff_of_false nofun ?_, nofun⟩
    · rintro _ ⟨⟩
      rfl
    · rintro ⟨-, k, -, hnone⟩
      exact survivors_take_ne_nil hleft k hnone
  | @failed done rest sibling x answer mismatch hends hsplit hnone hx hanswer hbuild =>
    subst hsplit
    have htake : (done ++ sibling :: rest).take done.length = done := by simp
    have htake' : (done ++ sibling :: rest).take (done.length + 1) = done ++ [sibling] := by
      rw [List.take_length_add_append]
      rfl
    refine ⟨iff_of_false nofun hends, nofun,
      iff_of_true ⟨_, rfl⟩ ⟨hends, done.length + 1, ?_, ?_⟩, ?_⟩
    · simp
    · rw [htake', hnone]
    · rintro _ ⟨⟩
      refine ⟨done.length, sibling, x, answer, mismatch, by simp, by rw [htake', hnone], ?_,
        by rw [htake, hx], hanswer, hbuild, by rw [htake]⟩
      intro j hj
      have hdone : survivors done ≠ [] := by
        intro hempty
        rw [hempty] at hx
        cases hx
      rw [List.take_append_of_le_length hj]
      exact survivors_take_ne_nil hdone j

theorem buildChoice_pair_of_failed {p q : Answer ν}
    (hbuild : Classes.build [p.graph, q.graph] = .failed mismatch) :
    buildChoice [p, q] = .failed mismatch := by
  rw [buildChoice, foldlM_cons, buildNext, hbuild]
  rfl

/-- Of `Number` and `String` for `x`, neither agrees with `Boolean`; both are counted, and the first
one tells why. -/
theorem distribute_lexicographic_of_none : ∃ number string boolean : Classes,
    Classes.empty.equate (.var ⟨1, "x"⟩) .number = .ok number ∧
    Classes.empty.equate (.var ⟨1, "x"⟩) .string = .ok string ∧
    Classes.empty.equate (.var ⟨1, "x"⟩) .boolean = .ok boolean ∧
    let a : Disjunction String :=
      ⟨[⟨"a", .var ⟨1, "x"⟩, some number⟩, ⟨"a", .var ⟨1, "x"⟩, some string⟩]⟩
    let b := Disjunction.single "b" (.var ⟨1, "x"⟩) (some boolean)
    [a, b] ≠ [] ∧ (∀ sibling ∈ [a, b], sibling.answers ≠ []) ∧
    distribute [a, b] none =
      .failed (.noTyping (some (.mismatch { expected := .number, actual := .boolean })) 2) := by
  obtain ⟨number, hnumber, hknows⟩ := Classes.exists_knows (v := ⟨1, "x"⟩) (t := .number) rfl
    fun depth => rfl
  obtain ⟨string, hstring, hother⟩ := Classes.exists_knows (v := ⟨1, "x"⟩) (t := .string) rfl
    fun depth => rfl
  obtain ⟨boolean, hboolean, hlast⟩ := Classes.exists_knows (v := ⟨1, "x"⟩) (t := .boolean) rfl
    fun depth => rfl
  have hfirst : Classes.build [some number, some boolean] =
      .failed { expected := .number, actual := .boolean } :=
    hknows.build_failed hlast rfl fun facts depth => rfl
  have hsecond : Classes.build [some string, some boolean] =
      .failed { expected := .string, actual := .boolean } :=
    hother.build_failed hlast rfl fun facts depth => rfl
  refine ⟨number, string, boolean, hnumber, hstring, hboolean, ?_⟩
  intro a b
  have hanswers : ∀ sibling ∈ [a, b], sibling.answers ≠ [] := by simp [a, b, Disjunction.single]
  obtain ⟨-, -, -, hfails, hfailure⟩ :=
    distribute_lexicographic (List.cons_ne_nil a [b]) hanswers none
  have hchoices : choices [a, b] = [
      [⟨"a", .var ⟨1, "x"⟩, some number⟩, ⟨"b", .var ⟨1, "x"⟩, some boolean⟩],
      [⟨"a", .var ⟨1, "x"⟩, some string⟩, ⟨"b", .var ⟨1, "x"⟩, some boolean⟩]] := rfl
  have hbuild : ∀ choice ∈ choices [a, b], ∃ mismatch, buildChoice choice = .failed mismatch := by
    rw [hchoices, List.forall_mem_cons, List.forall_mem_singleton]
    exact ⟨⟨_, buildChoice_pair_of_failed hfirst⟩, ⟨_, buildChoice_pair_of_failed hsecond⟩⟩
  have hends : ∀ choice ∈ choices [a, b], ∀ cause, buildChoice choice ≠ .halted cause := by
    intro choice hchoice cause hhalts
    obtain ⟨mismatch, hfailed⟩ := hbuild choice hchoice
    cases hfailed.symm.trans hhalts
  have hnone : survivors [a, b] = [] := by
    refine List.filterMap_eq_nil_iff.mpr fun choice hchoice => ?_
    obtain ⟨mismatch, hfailed⟩ := hbuild choice hchoice
    rw [survivor?, hfailed]
    rfl
  obtain ⟨failure, hfailed⟩ := hfails.mpr ⟨hends, 2, Nat.le_refl 2, hnone⟩
  obtain ⟨k, sibling, x, answer, mismatch, hsibling, hlost, -, hx, hanswer, hmismatch, rfl⟩ :=
    hfailure failure hfailed
  refine ⟨List.cons_ne_nil _ _, hanswers, hfailed.trans ?_⟩
  cases k with
  | zero => cases hlost
  | succ k =>
    cases k with
    | zero =>
      cases hsibling
      cases hx
      cases hanswer
      cases hfirst.symm.trans hmismatch
      rfl
    | succ k => cases hsibling

end Run

end TypeSearch.Combinations
