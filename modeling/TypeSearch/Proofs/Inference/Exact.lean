import TypeSearch.Proofs.Classes.Alike
import TypeSearch.Proofs.Inference.Decide
import TypeSearch.Proofs.Inference.Meaning
import TypeSearch.Proofs.Inference.Reach
import TypeSearch.Proofs.Inference.Soundness

/-!
# Exactness of inference

Inference of a plain expression is decided by the typing rules with guesses. If something solves the
graph and types the expression, with its values for the variables that are taken next as guesses,
then there is one answer, and the solutions of its graph are exactly those. Otherwise there is no
answer. No variable is taken but those, and no issue is written down on the way to an answer.
-/

namespace TypeSearch

open Inference List
open Classes (FirstOrderGraph)
open TypeSearch.Tree (Fragment Literal Node Pattern Site boundNames entryNodes)

variable {ts us : List Ty} {first second : Ty}

/-! ### Types that are equal -/

theorem SameTypes.refl (ts : List Ty) : SameTypes ts ts :=
  forall₂_same.mpr fun t _ => t.same_refl

theorem SameTypes.symm (hsame : SameTypes ts us) : SameTypes us ts :=
  Forall₂.flip (hsame.imp fun _ _ => Ty.same_symm)

theorem SameTypes.trans {ws : List Ty} (hleft : SameTypes ts us) (hright : SameTypes us ws) :
    SameTypes ts ws := by
  induction hleft generalizing ws with
  | nil => exact hright
  | cons hhead _ ih =>
    cases hright with
    | cons hhead' hrest => exact .cons (Ty.same_trans hhead hhead') (ih hrest)

theorem SameTypes.forall_same {element : Ty} (hsame : SameTypes ts us)
    (hall : ∀ t ∈ ts, t.same element = true) : ∀ u ∈ us, u.same element = true := by
  intro u hu
  obtain ⟨t, ht, htu⟩ := exists_left_of_forall₂ hsame hu
  exact Ty.same_trans (Ty.same_symm htu) (hall t ht)

theorem SameTypes.alternate (hsame : SameTypes ts us)
    (hall : Alternate (fun t u => t.same u = true) first second ts) :
    Alternate (fun t u => t.same u = true) first second us := by
  induction hsame generalizing first second with
  | nil => trivial
  | cons hhead _ ih => exact ⟨Ty.same_trans (Ty.same_symm hhead) hall.1, ih hall.2⟩

theorem alternate_map_iff {σ : VarId → Ty} :
    Alternate (fun t u => t.same u = true) (first.apply σ) (second.apply σ)
      (ts.map (Ty.apply σ)) ↔ Alternate (Ty.Agree σ) first second ts := by
  induction ts generalizing first second with
  | nil => exact Iff.rfl
  | cons t ts ih => exact and_congr_right fun _ => ih

theorem Ty.FirstOrder.fst_instantiate {t : Ty} (ht : t.FirstOrder) (quantified : List VarId)
    (fresher : Fresher) : (t.instantiate quantified fresher).1.FirstOrder := by
  obtain ⟨replace, hvars, -, hinstance⟩ := ht.instantiate quantified fresher
  rw [hinstance]
  refine ht.subst fun v => ?_
  obtain ⟨w, hw⟩ := hvars v
  exact hw ▸ .var w

/-! ### The states of a run -/

/-- Inference can go on in the state, and it sees names as is said. -/
structure Inference.State.Ready (names : Names) (context : Context) (state : State) : Prop where
  context : context.Sound
  sound : state.Sound
  unmarked : state.table.next.exported = false
  names : ∀ name arity count, names name arity count → state.table.names name arity count

/-- Nothing has happened but that variables were taken and scopes were opened and left again. -/
structure Inference.State.Advances (count : Nat) (state after : State) : Prop where
  frame : Table.Frame False state.table after.table
  sound : after.Sound
  unmarked : after.table.next.exported = false
  fresher : after.fresher = state.fresher.skip count
  issues : after.issues = state.issues

namespace Inference.State

variable {names : Names} {context : Context} {state middle after : State} {first second : Nat}

theorem Ready.advances_refl (hready : state.Ready names context) : state.Advances 0 state :=
  ⟨hready.sound.wellFormed.frame_refl False, hready.sound, hready.unmarked, rfl, rfl⟩

theorem Advances.trans (hfirst : state.Advances first middle)
    (hsecond : middle.Advances second after) : state.Advances (first + second) after where
  frame := hfirst.frame.trans hsecond.frame
  sound := hsecond.sound
  unmarked := hsecond.unmarked
  fresher := by rw [hsecond.fresher, hfirst.fresher, Fresher.skip_add]
  issues := hsecond.issues.trans hfirst.issues

theorem Advances.skip (hadvances : state.Advances first after) (count : Nat) :
    state.Advances (first + count) { after with fresher := after.fresher.skip count } where
  frame := hadvances.frame
  sound := (hadvances.sound.grows_fresher _).sound
  unmarked := hadvances.unmarked
  fresher := by rw [Fresher.skip_add, ← hadvances.fresher]
  issues := hadvances.issues

theorem Advances.meaning_eq (hadvances : state.Advances first after)
    (hwf : state.table.WellFormed) : after.table.meaning = state.table.meaning :=
  Table.meaning_congr (hadvances.frame.resolve_eq hwf)

theorem Ready.advances_skip (hready : state.Ready names context) (count : Nat) :
    state.Advances count { state with fresher := state.fresher.skip count } := by
  have hskip := hready.advances_refl.skip count
  rwa [Nat.zero_add] at hskip

theorem Ready.advance (hready : state.Ready names context)
    (hadvances : state.Advances first after) : after.Ready names context where
  context := hready.context
  sound := hadvances.sound
  unmarked := hadvances.unmarked
  names name arity count hname := by
    rw [Table.names_congr (hadvances.frame.resolve_eq hready.sound.wellFormed)]
    exact hready.names name arity count hname

end Inference.State

namespace Infer

variable {names : Names} {context : Context} {state after : State} {classes graph : Classes}
  {node : Node} {nodes : List Node} {arity count : Nat} {counts : List Nat} {site : Site}
  {name : String} {solvable : Prop} {a : Answer Typed} {found front : List (Answer Typed)}
  {fits : (VarId → Ty) → List Ty → Prop}

/-! ### Answers that stand for all solutions -/

/-- The graph is solved, and the node has the type if the values of the variables that are taken
next are guessed. -/
def Fits (classes : Classes) (state : State) (node : Node) (count : Nat) (σ : VarId → Ty) (t : Ty) :
    Prop :=
  classes.Solves σ ∧ HasType (state.table.meaning σ) node ((state.fresher.upcoming count).map σ) t

def FitAll (classes : Classes) (state : State) (nodes : List Node) (counts : List Nat)
    (σ : VarId → Ty) (ts : List Ty) : Prop :=
  classes.Solves σ ∧
    HasTypes (state.table.meaning σ) nodes ((state.fresher.upcoming counts.sum).map σ) ts

/-- The solutions of the graph of the answer are those that `fits` allows, with the type of the
answer under them. -/
structure Exactly (arity : Nat) (fits : (VarId → Ty) → Ty → Prop) (a : Answer Typed) : Prop where
  graph_eq : a.graph = some a.classes
  firstOrderGraph : FirstOrderGraph a.classes
  firstOrder : a.type.FirstOrder
  takes : a.type.Takes arity
  fits_iff : ∀ σ t, fits σ t ↔ a.classes.Solves σ ∧ t.same (a.type.apply σ) = true

def Single (arity : Nat) (fits : (VarId → Ty) → Ty → Prop) (answers : Answers) : Prop :=
  ∃ a, answers = ⟨[a]⟩ ∧ Exactly arity fits a

theorem single_answer {fits : (VarId → Ty) → Ty → Prop} {type : Ty} {children : List Typed}
    (hgraph : FirstOrderGraph graph) (htype : type.FirstOrder) (htakes : type.Takes arity)
    (hfits : ∀ σ t, fits σ t ↔ graph.Solves σ ∧ t.same (type.apply σ) = true) :
    Single arity fits ⟨[answer site type children graph]⟩ :=
  ⟨_, rfl, rfl, hgraph, htype, htakes, hfits⟩

def Exact (names : Names) (node : Node) (arity count : Nat) : Prop :=
  ∀ ⦃classes : Classes⦄ ⦃context : Context⦄ ⦃state : State⦄, FirstOrderGraph classes →
    state.Ready names context →
    Decided (∃ σ t, Fits classes state node count σ t)
      (fun answers after => state.Advances count after ∧
        Single arity (Fits classes state node count) answers)
      (answersOf (statement classes node) context state)

/-! ### Nodes without parts -/

theorem exact_literal (names : Names) (value : Literal) : Exact names (.literal value) 0 0 := by
  intro classes context state hgraph hready
  have happly : ∀ σ, (literalType value).apply σ = literalType value := by
    intro σ
    cases value <;> exact Ty.apply_parametric _ []
  rw [statement]
  refine decided_of_ok rfl ⟨hready.advances_refl, ?_⟩
  refine single_answer hgraph (literalType_firstOrder value) trivial fun σ t => ?_
  rw [happly]
  refine and_congr_right fun _ => ⟨fun htype => ?_, .literal⟩
  cases htype with
  | literal hsame => exact hsame

theorem identifier_run {binding : Binding} (hresolve : state.table.resolve name = some binding)
    (hfirst : binding.type.FirstOrder) :
    identifier site name classes context state =
      (.ok (leaf site (binding.type.instantiate binding.quantified state.fresher).1 classes),
        { state with fresher := state.fresher.skip binding.quantified.length }) := by
  have hused := hfirst.fst_instantiate binding.quantified state.fresher
  have htable : table context state = (.ok state.table, state) := rfl
  have hinstantiate : instantiate binding.type binding.quantified context state =
      (.ok (binding.type.instantiate binding.quantified state.fresher).1,
        { state with fresher := state.fresher.skip binding.quantified.length }) := by
    rw [← Ty.instantiate_snd binding.type]
    rfl
  rw [identifier, bind_of_ok htable, hresolve]
  dsimp only
  rw [bind_of_ok hinstantiate]
  generalize (binding.type.instantiate binding.quantified state.fresher).1 = used at hused
  cases hused <;> rfl

theorem exact_identifier (site : Site) (hname : names name arity count) :
    Exact names (.identifier site name) arity count := by
  intro classes context state hgraph hready
  obtain ⟨binding, hresolve, hfirst, htakes, rfl⟩ := hready.names name arity count hname
  rw [statement, answersOf_asExpression]
  refine decided_of_ok (identifier_run hresolve hfirst) ⟨hready.advances_skip _, ?_⟩
  refine single_answer hgraph (hfirst.fst_instantiate _ _) (htakes.instantiate _ _) fun σ t => ?_
  rw [hfirst.apply_instantiate]
  refine and_congr_right fun _ => ⟨fun htype => ?_, fun hsame => ?_⟩
  · cases htype with
    | identifier hmeaning hsame =>
      obtain ⟨other, hother, -, rfl⟩ := hmeaning
      cases hresolve.symm.trans hother
      exact hsame
  · refine .identifier ⟨binding, hresolve, ?_, rfl⟩ hsame
    rw [length_map, Fresher.length_upcoming]

/-! ### Parts -/

/-- The answers of several parts stand together for all solutions. -/
structure ExactlyAll (classes : Classes) (fits : (VarId → Ty) → List Ty → Prop)
    (found : List (Answer Typed)) : Prop where
  graph_eq : ∀ a ∈ found, a.graph = some a.classes
  firstOrderGraph : ∀ a ∈ found, FirstOrderGraph a.classes
  firstOrder : ∀ a ∈ found, a.type.FirstOrder
  narrows : ∀ a ∈ found, ∀ σ, a.classes.Solves σ → classes.Solves σ
  fits_iff : ∀ σ ts, fits σ ts ↔ classes.Solves σ ∧ (∀ a ∈ found, a.classes.Solves σ) ∧
    SameTypes ts (found.map fun a => a.type.apply σ)

def Singles (classes : Classes) (fits : (VarId → Ty) → List Ty → Prop) (parts : List Answers) :
    Prop :=
  ∃ found : List (Answer Typed), parts = found.map (fun a => ⟨[a]⟩) ∧ ExactlyAll classes fits found

theorem allOrLast_cons_ok (answers : Answers) (given : List (Except Failure Answers)) :
    allOrLast (.ok answers :: given) = (answers :: ·) <$> allOrLast given := by
  simp only [allOrLast, filterMap_cons]
  cases (given.filterMap _).getLast? <;> rfl

theorem Decided.allOrLast_cons {solvable' : Prop} {post : Answers → State → Prop}
    {later : List Answers → State → Prop} {first : Infer Answers}
    {others : Infer (List (Except Failure Answers))}
    (hfirst : Decided solvable post (first context state))
    (hothers : ∀ answers middle, post answers middle →
      Decided solvable' (fun found after => later (answers :: found) after)
        ((others >>= allOrLast) context middle)) (himp : solvable' → solvable) :
    Decided solvable' later
      ((do
        let answers ← attempt first
        let given ← others
        allOrLast (answers :: given)) context state) := by
  rcases hfirst with ⟨answers, middle, hrun, hpost⟩ | ⟨hnever, hnone⟩
  · have hattempt : attempt first context state = (.ok (.ok answers), middle) := by
      rw [attempt, hrun]
    have hmap : (do
        let given ← others
        allOrLast (.ok answers :: given)) = (answers :: ·) <$> (others >>= allOrLast) := by
      simp only [allOrLast_cons_ok, map_bind]
    rw [bind_of_ok hattempt, hmap, map_eq_pure_bind]
    refine (hothers answers middle hpost).bind (fun found after hlater => ?_) id
    exact decided_of_ok rfl hlater
  · refine .inr ⟨fun found after hrun => ?_, fun hsolvable => hnone (himp hsolvable)⟩
    obtain ⟨answers, middle, hattempt, hrest⟩ := bind_eq_ok hrun
    obtain ⟨given, last, -, hall⟩ := bind_eq_ok hrest
    have hgiven := allOrLast_eq_ok hall
    rcases attempt_eq_ok hattempt with ⟨value, rfl, hvalue⟩ | ⟨failure, rfl, -⟩
    · exact hnever value middle hvalue
    · cases found with
      | nil | cons answers found => cases hgiven

theorem fitAll_cons_iff (hready : state.Ready names context)
    (hplain : Plain names node arity count) (hadvances : state.Advances count after)
    (σ : VarId → Ty) (ts : List Ty) :
    FitAll classes state (node :: nodes) (count :: counts) σ ts ↔
      ∃ t others, ts = t :: others ∧ Fits classes state node count σ t ∧
        FitAll classes after nodes counts σ others := by
  have hguesses : (state.fresher.upcoming (count :: counts).sum).map σ =
      (state.fresher.upcoming count).map σ ++ (after.fresher.upcoming counts.sum).map σ := by
    rw [sum_cons, Fresher.upcoming_add, map_append, hadvances.fresher]
  simp only [FitAll, Fits, hguesses, hadvances.meaning_eq hready.sound.wellFormed]
  constructor
  · rintro ⟨hsolves, htypes⟩
    generalize hall : (state.fresher.upcoming count).map σ ++ _ = all at htypes
    cases htypes with
    | cons hnode hnodes =>
      have hlength := hplain.length_guesses (fun name arity count hname guesses t =>
        Table.length_of_meaning (hready.names name arity count hname)) hnode
      obtain ⟨rfl, rfl⟩ := append_inj hall (by
        rw [hlength, length_map, Fresher.length_upcoming])
      exact ⟨_, _, rfl, ⟨hsolves, hnode⟩, hsolves, hnodes⟩
  · rintro ⟨t, others, rfl, ⟨hsolves, hnode⟩, -, hnodes⟩
    exact ⟨hsolves, .cons hnode hnodes⟩

theorem Exactly.cons {fits : (VarId → Ty) → Ty → Prop}
    {fitAll others : (VarId → Ty) → List Ty → Prop} (ha : Exactly arity fits a)
    (hfound : ExactlyAll classes others found) (hnarrows : ∀ σ t, fits σ t → classes.Solves σ)
    (hiff : ∀ σ ts, fitAll σ ts ↔ ∃ t rest, ts = t :: rest ∧ fits σ t ∧ others σ rest) :
    ExactlyAll classes fitAll (a :: found) where
  graph_eq := forall_mem_cons.mpr ⟨ha.graph_eq, hfound.graph_eq⟩
  firstOrderGraph := forall_mem_cons.mpr ⟨ha.firstOrderGraph, hfound.firstOrderGraph⟩
  firstOrder := forall_mem_cons.mpr ⟨ha.firstOrder, hfound.firstOrder⟩
  narrows := forall_mem_cons.mpr ⟨fun σ hsolves =>
    hnarrows σ _ ((ha.fits_iff σ _).mpr ⟨hsolves, Ty.same_refl _⟩), hfound.narrows⟩
  fits_iff σ ts := by
    rw [hiff, forall_mem_cons, map_cons]
    constructor
    · rintro ⟨t, rest, rfl, hfits, hothers⟩
      obtain ⟨hsolves, hsame⟩ := (ha.fits_iff σ t).mp hfits
      obtain ⟨hbase, hall, hrest⟩ := (hfound.fits_iff σ rest).mp hothers
      exact ⟨hbase, ⟨hsolves, hall⟩, .cons hsame hrest⟩
    · rintro ⟨hbase, ⟨hsolves, hall⟩, hsame⟩
      cases hsame with
      | cons hhead hrest =>
        exact ⟨_, _, rfl, (ha.fits_iff σ _).mpr ⟨hsolves, hhead⟩,
          (hfound.fits_iff σ _).mpr ⟨hbase, hall, hrest⟩⟩

theorem decided_parts (hgraph : FirstOrderGraph classes) (hready : state.Ready names context)
    (hlength : nodes.length = counts.length)
    (hplain : ∀ pair ∈ nodes.zip counts, Plain names pair.1 0 pair.2)
    (hexact : ∀ pair ∈ nodes.zip counts, Exact names pair.1 0 pair.2) :
    Decided (∃ σ ts, FitAll classes state nodes counts σ ts)
      (fun parts after => state.Advances counts.sum after ∧
        Singles classes (FitAll classes state nodes counts) parts)
      ((parts classes nodes >>= allOrLast) context state) := by
  induction nodes generalizing counts state with
  | nil =>
    rw [length_eq_zero_iff.mp hlength.symm, parts]
    refine decided_of_ok rfl ⟨hready.advances_refl, [], rfl, ?_⟩
    refine ⟨by simp, by simp, by simp, by simp, fun σ ts => ?_⟩
    refine and_congr_right fun _ => ⟨fun htypes => ?_, fun hsame => ?_⟩
    · cases htypes
      exact ⟨by simp, .nil⟩
    · cases hsame.2
      exact .nil
  | cons node nodes ih =>
    cases counts with
    | nil => cases hlength
    | cons count counts =>
      rw [zip_cons_cons, forall_mem_cons] at hplain hexact
      have hcons : (parts classes (node :: nodes) >>= allOrLast) = (do
          let answers ← attempt (answersOf (statement classes node))
          let given ← parts classes nodes
          allOrLast (answers :: given)) := by
        simp only [parts, bind_assoc, pure_bind]
      rw [hcons]
      refine (hexact.1 hgraph hready).allOrLast_cons (fun answers middle hpost => ?_) ?_
      · obtain ⟨hadvances, a, rfl, ha⟩ := hpost
        have hiff : ∀ σ ts, FitAll classes state (node :: nodes) (count :: counts) σ ts ↔ _ :=
          fitAll_cons_iff hready hplain.1 hadvances
        refine (ih (hready.advance hadvances) (Nat.succ.inj hlength) hplain.2 hexact.2).mono ?_ ?_
        · rintro ⟨σ, ts, hfits⟩
          obtain ⟨t, others, -, -, hothers⟩ := (hiff σ ts).mp hfits
          exact ⟨σ, others, hothers⟩
        · rintro _ after ⟨hrest, found, rfl, hfound⟩
          refine ⟨hadvances.trans hrest, a :: found, rfl, ?_⟩
          exact ha.cons hfound (fun _ _ hfits => hfits.1) hiff
      · rintro ⟨σ, ts, hfits⟩
        obtain ⟨t, others, -, hfirst, -⟩ :=
          (fitAll_cons_iff hready hplain.1 (hready.advances_skip count) σ ts).mp hfits
        exact ⟨σ, t, hfirst⟩

/-! ### Combinations -/

theorem liftM_bind {α β : Type} (outcome : Outcome Failure α) (next : α → Outcome Failure β) :
    (liftM (outcome >>= next) : Infer β) = liftM outcome >>= fun value => liftM (next value) := by
  cases outcome <;> rfl

theorem product_one (ha : a.graph = some graph) (base : Classes) :
    Combinations.product ⟨[⟨front, some base⟩]⟩ (Combinations.lift ⟨[a]⟩) =
      (Classes.build [some base, some graph]).mapError
          (fun mismatch => .noTyping (some (.mismatch mismatch)) 1) >>=
        fun built => .ok ⟨[⟨front ++ [a], some built⟩]⟩ := by
  simp only [Combinations.product, Combinations.lift, Combinations.joinAll, Combinations.join,
    flatMap_cons, flatMap_nil, map_cons, map_nil, append_nil, ha]
  cases Classes.build [some base, some graph] <;> rfl

theorem decided_product (hgraph : FirstOrderGraph graph) (ha : a.graph = some a.classes)
    (hclasses : FirstOrderGraph a.classes) :
    Decided (∃ σ, graph.Solves σ ∧ a.classes.Solves σ)
      (fun combinations after => after = state ∧ ∃ last, FirstOrderGraph last ∧
        combinations = ⟨[⟨front ++ [a], some last⟩]⟩ ∧
        ∀ σ, last.Solves σ ↔ graph.Solves σ ∧ a.classes.Solves σ)
      ((liftM (Combinations.product ⟨[⟨front, some graph⟩]⟩ (Combinations.lift ⟨[a]⟩)) :
        Infer (Combinations Typed)) context state) := by
  rw [product_one ha]
  rcases hgraph.build_cases hclasses with ⟨built, hbuild, hbuilt, hsolves⟩ | ⟨hnever, hnone⟩
  · rw [hbuild]
    exact decided_of_ok rfl ⟨rfl, built, hbuilt, rfl, hsolves⟩
  · refine .inr ⟨fun combinations after hrun => ?_, hnone⟩
    obtain ⟨built, hbuild, -⟩ := Outcome.bind_eq_ok (liftM_eq_ok hrun).1
    generalize Classes.build [some graph, some a.classes] = outcome at hnever hbuild
    cases outcome with
    | ok other => exact hnever other rfl
    | failed mismatch | halted cause => cases hbuild

theorem decided_productAll {rest : List (Answer Typed)} (hgraph : FirstOrderGraph graph)
    (hrest : ∀ a ∈ rest, a.graph = some a.classes)
    (hgraphs : ∀ a ∈ rest, FirstOrderGraph a.classes) :
    Decided (∃ σ, graph.Solves σ ∧ ∀ a ∈ rest, a.classes.Solves σ)
      (fun combinations after => after = state ∧ ∃ last, FirstOrderGraph last ∧
        combinations = ⟨[⟨front ++ rest, some last⟩]⟩ ∧
        ∀ σ, last.Solves σ ↔ graph.Solves σ ∧ ∀ a ∈ rest, a.classes.Solves σ)
      ((liftM (Combinations.productAll ⟨[⟨front, some graph⟩]⟩ (rest.map fun a => ⟨[a]⟩)) :
        Infer (Combinations Typed)) context state) := by
  induction rest generalizing front graph with
  | nil => exact decided_of_ok rfl ⟨rfl, graph, hgraph, by rw [append_nil], fun σ => by simp⟩
  | cons a rest ih =>
    rw [forall_mem_cons] at hrest hgraphs
    rw [map_cons, Combinations.productAll, liftM_bind]
    refine (decided_product hgraph hrest.1 hgraphs.1).bind (fun combinations after hpost => ?_) ?_
    · obtain ⟨rfl, joined, hjoined, rfl, hsolves⟩ := hpost
      have hboth : ∀ σ, (joined.Solves σ ∧ ∀ b ∈ rest, b.classes.Solves σ) ↔
          graph.Solves σ ∧ ∀ b ∈ a :: rest, b.classes.Solves σ := by
        intro σ
        rw [hsolves, forall_mem_cons, and_assoc]
      refine (ih hjoined hrest.2 hgraphs.2).mono (Exists.imp fun σ => (hboth σ).mpr) ?_
      rintro combinations last ⟨rfl, built, hbuilt, rfl, hbuiltSolves⟩
      refine ⟨rfl, built, hbuilt, by rw [append_assoc]; rfl, fun σ => ?_⟩
      rw [hbuiltSolves, hboth]
    · rintro ⟨σ, hsolves, hall⟩
      exact ⟨σ, hsolves, hall a (.head _)⟩

structure Joint (fits : (VarId → Ty) → List Ty → Prop) (combination : Combination Typed) :
    Prop where
  firstOrderGraph : FirstOrderGraph combination.classes
  firstOrder : ∀ t ∈ combination.types, t.FirstOrder
  fits_iff : ∀ σ ts, fits σ ts ↔
    combination.classes.Solves σ ∧ SameTypes ts (combination.types.map (Ty.apply σ))

theorem ExactlyAll.joint (hfound : ExactlyAll classes fits found) (hgraph : FirstOrderGraph graph)
    (hsolves : ∀ σ, graph.Solves σ ↔ classes.Solves σ ∧ ∀ a ∈ found, a.classes.Solves σ) :
    Joint fits ⟨found, some graph⟩ := by
  refine ⟨hgraph, forall_mem_map.mpr hfound.firstOrder, fun σ ts => ?_⟩
  rw [hfound.fits_iff, ← and_assoc, ← hsolves, Combination.types, map_map]
  rfl

theorem decided_distribute {parts : List Answers} (hgraph : FirstOrderGraph classes)
    (hparts : Singles classes fits parts) :
    Decided (∃ σ ts, fits σ ts)
      (fun combinations after => after = state ∧
        ∃ combination, combinations = ⟨[combination]⟩ ∧ Joint fits combination)
      ((liftM (Combinations.distribute parts (some classes)) : Infer (Combinations Typed))
        context state) := by
  obtain ⟨found, rfl, hfound⟩ := hparts
  cases found with
  | nil =>
    refine decided_of_ok rfl ⟨rfl, _, rfl, hfound.joint hgraph fun σ => ?_⟩
    simp
  | cons a rest =>
    have hgraphs := forall_mem_cons.mp hfound.firstOrderGraph
    have hsome := forall_mem_cons.mp hfound.graph_eq
    have hbase : ∀ σ, (a.classes.Solves σ ∧ ∀ b ∈ rest, b.classes.Solves σ) ↔
        classes.Solves σ ∧ ∀ b ∈ a :: rest, b.classes.Solves σ := by
      intro σ
      rw [forall_mem_cons]
      exact ⟨fun hall => ⟨hfound.narrows a (.head _) σ hall.1, hall⟩, And.right⟩
    rw [map_cons, Combinations.distribute, Combinations.lift, map_singleton, hsome.1]
    refine (decided_productAll hgraphs.1 hsome.2 hgraphs.2).mono ?_ ?_
    · rintro ⟨σ, ts, hfits⟩
      obtain ⟨hsolves, hall, -⟩ := (hfound.fits_iff σ ts).mp hfits
      exact ⟨σ, (hbase σ).mpr ⟨hsolves, hall⟩⟩
    · rintro combinations after ⟨rfl, last, hlast, rfl, hsolves⟩
      exact ⟨rfl, _, rfl, hfound.joint hlast fun σ => (hsolves σ).trans (hbase σ)⟩

theorem decided_compound {later : Answers → State → Prop} {fits : (VarId → Ty) → Ty → Prop}
    {rule : (VarId → Ty) → Ty → List Ty → Prop} {make : Combinations Typed → Infer Answers}
    (hgraph : FirstOrderGraph classes) (hready : state.Ready names context)
    (hlength : nodes.length = counts.length)
    (hplain : ∀ pair ∈ nodes.zip counts, Plain names pair.1 0 pair.2)
    (hexact : ∀ pair ∈ nodes.zip counts, Exact names pair.1 0 pair.2)
    (hfits : ∀ σ t, fits σ t ↔ ∃ ts, FitAll classes state nodes counts σ ts ∧ rule σ t ts)
    (hmake : ∀ combination after, state.Advances counts.sum after →
      Joint (FitAll classes state nodes counts) combination →
      Decided (∃ σ t, fits σ t) later (make ⟨[combination]⟩ context after)) :
    Decided (∃ σ t, fits σ t) later (answersOf (compound classes nodes fun found =>
      reportingAt site do
        let combinations ← liftM (Combinations.distribute found (some classes))
        make combinations) context state) := by
  have himp : (∃ σ t, fits σ t) → ∃ σ ts, FitAll classes state nodes counts σ ts := by
    rintro ⟨σ, t, hnode⟩
    obtain ⟨ts, hts, -⟩ := (hfits σ t).mp hnode
    exact ⟨σ, ts, hts⟩
  rw [compound, answersOf_asExpression, ← bind_assoc]
  refine (decided_parts hgraph hready hlength hplain hexact).bind
    (fun found after hpost => Decided.reportingAt ?_ site) himp
  refine (decided_distribute hgraph hpost.2).bind (fun combinations last hlast => ?_) himp
  obtain ⟨rfl, combination, rfl, hjoint⟩ := hlast
  exact hmake combination last hpost.1 hjoint

end Infer

end TypeSearch
