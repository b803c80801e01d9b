import TypeSearch.Proofs.Facts.Ground
import TypeSearch.Proofs.Inference.Nesting
import TypeSearch.Proofs.Inference.Typing

/-!
# The call shapes of a function

The branches of a function are merged in order. A branch whose type unifies with one of those before
it takes the place of all of them, since a union that is unified with a type is narrowed to the
member that agrees with it. Otherwise its type is one more. So a function need not accept the call
shapes of all its branches; it does if no two of them unify.
-/

namespace TypeSearch

open List

namespace Ty

variable {t u r : Ty} {kept types : List Ty}

structure IsShape (t : Ty) : Prop where
  ground : t.Ground
  isFunction : ∃ params, t = .curried params

theorem IsShape.meet? (ht : t.IsShape) (hu : u.IsShape) (hmeet : meet? t u = some r) :
    r.IsShape := by
  rcases unifyWithin_cases ht.ground hu.ground le_rfl Facts.empty with
    ⟨r', hmeet', hok⟩ | ⟨hnone, -⟩
  · obtain rfl := Option.some.inj (hmeet'.symm.trans hmeet)
    have hclosed : Facts.empty.Closed ∅ := fun v hv => hv.elim
    refine ⟨(Facts.grows_of_unify hclosed ht.ground hu.ground hok).2, ?_⟩
    obtain ⟨params, rfl⟩ := ht.isFunction
    obtain ⟨params', rfl⟩ := hu.isFunction
    obtain ⟨less, hless⟩ : ∃ less, Facts.unifyDepth (.curried params) (.curried params')
        Facts.empty = less + 1 := Nat.exists_eq_add_of_le' (Nat.one_le_two_pow ..)
    rw [hless, Facts.unifyWithin_ground ht.ground hu.ground] at hok
    obtain ⟨-, unified, -, rfl⟩ := Facts.unifyParams_eq_ok hok
    exact ⟨unified, rfl⟩
  · cases hnone.symm.trans hmeet

theorem IsShape.alternatives (ht : t.IsShape) : t.alternatives = [t] := by
  obtain ⟨params, rfl⟩ := ht.isFunction
  rfl

/-- Some member of the type, or the type itself if it is no union, unifies with the other. -/
def Accepts (t u : Ty) : Prop := ∃ member ∈ t.alternatives, ∃ r, Ty.meet? member u = some r

/-- The shapes that are kept when a branch is merged into those before it. -/
def keep (kept : List Ty) (t : Ty) : List Ty :=
  match kept.findSome? (Ty.meet? · t) with
  | some r => [r]
  | none => kept ++ [t]

def keptShapes (types : List Ty) : List Ty := types.foldl keep []

def ofShapes : List Ty → Ty
  | [t] => t
  | several => .union several

structure Kept (kept : List Ty) : Prop where
  shapes : ∀ t ∈ kept, t.IsShape
  apart : kept.Pairwise fun t u => Ty.meet? t u = none

theorem kept_nil : Kept [] := ⟨nofun, .nil⟩

theorem Kept.keep (hkept : Kept kept) (ht : t.IsShape) : Kept (keep kept t) := by
  unfold Ty.keep
  split
  · rename_i r hfound
    obtain ⟨member, hmember, hmeet⟩ := exists_of_findSome?_eq_some hfound
    exact ⟨by simpa using (hkept.shapes member hmember).meet? ht hmeet, pairwise_singleton _ _⟩
  · rename_i hnone
    rw [findSome?_eq_none_iff] at hnone
    refine ⟨fun u hu => ?_, pairwise_append.mpr ⟨hkept.apart, pairwise_singleton _ _, ?_⟩⟩
    · rcases mem_append.mp hu with hold | hnew
      · exact hkept.shapes u hold
      · rwa [mem_singleton.mp hnew]
    · intro member hmember u hu
      rw [mem_singleton.mp hu]
      exact hnone member hmember

theorem kept_keptShapes (htypes : ∀ t ∈ types, t.IsShape) : Kept (keptShapes types) :=
  foldlRecOn _ _ kept_nil fun _ hkept t ht => hkept.keep (htypes t ht)

theorem alternatives_ofShapes (hshapes : ∀ t ∈ kept, t.IsShape) :
    (ofShapes kept).alternatives = kept := by
  match kept with
  | [] => rfl
  | [t] => exact (hshapes t (.head _)).alternatives
  | _ :: _ :: _ => rfl

theorem ground_ofShapes (hshapes : ∀ t ∈ kept, t.IsShape) : (ofShapes kept).Ground := by
  match kept with
  | [] => exact (over_iff_components rfl).mpr nofun
  | [t] => exact (hshapes t (.head _)).ground
  | _ :: _ :: _ => exact (over_iff_components rfl).mpr fun t ht => (hshapes t ht).ground

theorem meet?_ofShapes (hshapes : ∀ t ∈ kept, t.IsShape) (ht : t.IsShape) :
    Ty.meet? (ofShapes kept) t = kept.findSome? (Ty.meet? · t) := by
  have hunion : t.isUnion = false := by
    obtain ⟨params, rfl⟩ := ht.isFunction
    rfl
  match kept with
  | [] => exact meet?_union (ground_ofShapes hshapes) ht.ground hunion
  | [u] => simp [ofShapes]
  | _ :: _ :: _ => exact meet?_union (ground_ofShapes hshapes) ht.ground hunion

theorem Kept.pairwise_not_same (hkept : Kept kept) : kept.Pairwise fun t u => same t u = false := by
  refine hkept.apart.imp_of_mem fun ht _ hapart => ?_
  rename_i t u hu
  by_contra hsame
  rw [Bool.not_eq_false] at hsame
  have hground := (hkept.shapes t ht).ground
  obtain ⟨r, hmeet⟩ := meet?_self hground
  rw [← hground.eq_of_same hsame, hmeet] at hapart
  cases hapart

theorem Kept.unionOf (hkept : Kept (kept ++ [t])) :
    Ty.unionOf [ofShapes kept, t] = ofShapes (kept ++ [t]) := by
  have hshapes : ∀ u ∈ kept, u.IsShape := fun u hu => hkept.shapes u (mem_append_left _ hu)
  have ht : t.IsShape := hkept.shapes t (by simp)
  have hdistinct : distinct [ofShapes kept, t] = kept ++ [t] := by
    rw [distinct, flatMap_cons, flatMap_singleton, alternatives_ofShapes hshapes,
      ht.alternatives]
    exact firsts_eq_append hkept.pairwise_not_same
  rw [unionOf_eq_distinct, hdistinct]
  generalize kept ++ [t] = several
  match several with
  | [] => rfl
  | [_] => rfl
  | _ :: _ :: _ => rfl

theorem keptShapes_eq_self (hkept : Kept types) : keptShapes types = types := by
  suffices hfold : ∀ kept, Kept (kept ++ types) → types.foldl Ty.keep kept = kept ++ types from
    hfold [] hkept
  induction types with
  | nil => exact fun kept _ => (append_nil kept).symm
  | cons t types ih =>
    intro kept hall
    have hnew : kept.findSome? (Ty.meet? · t) = none := by
      rw [findSome?_eq_none_iff]
      exact fun u hu => (pairwise_append.mp hall.apart).2.2 u hu t (.head _)
    have hsplit : kept ++ t :: types = kept ++ [t] ++ types := by simp
    rw [foldl_cons, keep, hnew, hsplit]
    rw [hsplit] at hall
    exact ih ⟨fun u hu => hkept.shapes u (.tail _ hu), hkept.apart.of_cons⟩ (kept ++ [t]) hall

section FirstOrder

theorem keep_of_mem (hshapes : ∀ u ∈ kept, u.IsShape ∧ u.FirstOrder) (ht : t ∈ kept) :
    keep kept t = [t] := by
  obtain ⟨hshape, hfirst⟩ := hshapes t ht
  have hmeets : ∀ u ∈ kept, ∀ r, Ty.meet? u t = some r ↔ t = u ∧ r = u := fun u hu r =>
    meet?_eq_some_iff (hshapes u hu).1.ground hshape.ground (hshapes u hu).2 hfirst
  unfold keep
  split
  · rename_i r hfound
    obtain ⟨u, hu, hmeet⟩ := exists_of_findSome?_eq_some hfound
    obtain ⟨rfl, rfl⟩ := (hmeets u hu r).mp hmeet
    rfl
  · rename_i hnone
    rw [findSome?_eq_none_iff] at hnone
    cases (hnone t ht).symm.trans ((hmeets t ht t).mpr ⟨rfl, rfl⟩)

theorem keep_of_not_mem (hshapes : ∀ u ∈ kept, u.IsShape ∧ u.FirstOrder) (ht : t.IsShape)
    (hfirst : t.FirstOrder) (hnew : t ∉ kept) : keep kept t = kept ++ [t] := by
  have hnone : kept.findSome? (Ty.meet? · t) = none := by
    rw [findSome?_eq_none_iff]
    intro u hu
    obtain ⟨hshape, hufirst⟩ := hshapes u hu
    by_contra hsome
    obtain ⟨r, hmeet⟩ := Option.ne_none_iff_exists'.mp hsome
    obtain ⟨rfl, -⟩ := (meet?_eq_some_iff hshape.ground ht.ground hufirst hfirst).mp hmeet
    exact hnew hu
  rw [keep, hnone]

theorem mem_of_mem_foldl_keep (hkept : ∀ u ∈ kept, u.IsShape ∧ u.FirstOrder)
    (htypes : ∀ u ∈ types, u.IsShape ∧ u.FirstOrder) (hr : r ∈ types.foldl keep kept) :
    r ∈ kept ∨ r ∈ types := by
  induction types generalizing kept with
  | nil => exact .inl hr
  | cons t types ih =>
    rw [forall_mem_cons] at htypes
    rw [foldl_cons] at hr
    have hnext : ∀ u ∈ keep kept t, u ∈ kept ∨ u = t := by
      by_cases ht : t ∈ kept
      · rw [keep_of_mem hkept ht]
        exact fun u hu => .inr (mem_singleton.mp hu)
      · rw [keep_of_not_mem hkept htypes.1.1 htypes.1.2 ht]
        simp
    have hshapes : ∀ u ∈ keep kept t, u.IsShape ∧ u.FirstOrder := fun u hu =>
      (hnext u hu).elim (hkept u) fun heq => heq ▸ htypes.1
    rcases ih hshapes htypes.2 hr with hmem | hmem
    · rcases hnext r hmem with hold | rfl
      · exact .inl hold
      · exact .inr (.head _)
    · exact .inr (.tail _ hmem)

theorem mem_of_mem_keptShapes (htypes : ∀ u ∈ types, u.IsShape ∧ u.FirstOrder)
    (hr : r ∈ keptShapes types) : r ∈ types :=
  (mem_of_mem_foldl_keep (fun _ hu => (not_mem_nil hu).elim) htypes hr).resolve_left
    not_mem_nil

theorem keptShapes_of_repeated {earlier later : List Ty}
    (htypes : ∀ u ∈ earlier, u.IsShape ∧ u.FirstOrder) (ht : t ∈ keptShapes earlier) :
    keptShapes (earlier ++ t :: later) = keptShapes (t :: later) := by
  have hkept : ∀ u ∈ keptShapes earlier, u.IsShape ∧ u.FirstOrder := fun u hu =>
    htypes u (mem_of_mem_keptShapes htypes hu)
  rw [keptShapes, foldl_append, foldl_cons, ← keptShapes, keep_of_mem hkept ht]
  rfl

theorem accepts_iff_mem_keptShapes {function : Ty}
    (htypes : ∀ u ∈ types, u.IsShape ∧ u.FirstOrder)
    (hfunction : function.alternatives = keptShapes types) (ht : t.IsShape)
    (hfirst : t.FirstOrder) :
    function.Accepts t ↔ t ∈ keptShapes types := by
  have hmeets : ∀ u ∈ keptShapes types, ∀ r, Ty.meet? u t = some r ↔ t = u ∧ r = u := fun u hu r =>
    have hu := htypes u (mem_of_mem_keptShapes htypes hu)
    meet?_eq_some_iff hu.1.ground ht.ground hu.2 hfirst
  unfold Accepts
  rw [hfunction]
  constructor
  · rintro ⟨u, hu, r, hmeet⟩
    rwa [((hmeets u hu r).mp hmeet).1]
  · intro hmem
    exact ⟨t, hmem, t, (hmeets t hmem t).mpr ⟨rfl, rfl⟩⟩

theorem mem_keptShapes_of_length_le (htypes : ∀ u ∈ types, u.IsShape ∧ u.FirstOrder)
    (hlength : types.length ≤ 2) (ht : t ∈ types) : t ∈ keptShapes types := by
  match types with
  | [] => cases ht
  | [_] => exact ht
  | [first, second] =>
    change t ∈ keep [first] second
    have hfirst : ∀ u ∈ [first], u.IsShape ∧ u.FirstOrder := fun u hu =>
      htypes u (mem_singleton.mp hu ▸ mem_cons_self)
    by_cases hmem : second ∈ [first]
    · rw [keep_of_mem hfirst hmem]
      rw [mem_singleton.mp hmem] at ht ⊢
      simpa using ht
    · have hsecond := htypes second (by simp)
      rwa [keep_of_not_mem hfirst hsecond.1 hsecond.2 hmem]
  | _ :: _ :: _ :: _ => simp at hlength

end FirstOrder

end Ty

namespace Infer

open Inference
open TypeSearch.Tree (Literal Node Pattern Site)

variable {context : Context} {classes : Classes} {site : Site} {function : Tree.Locus}
  {branches : List (List Pattern × Node)} {state after last : State} {answers : List (Answer Typed)}
  {a b : Answer Typed} {kept : List Ty}

inductive BranchRuns (context : Context) (classes : Classes) (site : Site)
    (function : Tree.Locus) :
    List (List Pattern × Node) → State → List (Answer Typed) → State → Prop
  | nil {state : State} : BranchRuns context classes site function [] state [] state
  | cons {params : List Pattern} {body : Node} {rest : List (List Pattern × Node)}
      {state middle last : State} {a : Answer Typed} {answers : List (Answer Typed)}
      (hbranch : branch function site params ⟨body.kind, state.table.file, body.site.span⟩
        (bodyAnswers body) classes context state = (.ok ⟨[a]⟩, middle))
      (hrest : BranchRuns context classes site function rest middle answers last) :
      BranchRuns context classes site function ((params, body) :: rest) state (a :: answers) last

def joinOnto (graph : Option Classes) : List (Answer Typed) → Outcome Mismatch (Option Classes)
  | [] => .ok graph
  | a :: answers => do
    let classes ← Classes.build [graph, a.graph]
    joinOnto (some classes) answers

def joinGraphs : List (Answer Typed) → Outcome Mismatch (Option Classes)
  | [] => .ok none
  | a :: answers => joinOnto a.graph answers

theorem mergeBranches_of_build {built : Classes} (hkept : Ty.Kept kept)
    (ha : a.type = Ty.ofShapes kept) (hb : b.type.IsShape)
    (hbuild : Classes.build [a.graph, b.graph] = .ok built) :
    mergeBranches site ⟨[a]⟩ ⟨[b]⟩ context state =
      (.ok ⟨[answer site (Ty.ofShapes (Ty.keep kept b.type)) (a.node.children ++ b.node.children)
        built]⟩, state) := by
  refine reportingAt_of_ok (merge_of_ok hbuild ?_)
  have hmeet := Ty.meet?_ofShapes hkept.shapes hb
  have hkeep := hkept.keep hb
  rcases Classes.unify_ground (Ty.ground_ofShapes hkept.shapes) hb.ground built with
    ⟨r, hsome, hok⟩ | ⟨hnone, mismatch, hfailed⟩
  · have hattempt : attempt (unify built a.type b.type) context state =
        (.ok (.ok (r, built)), state) := by
      rw [attempt, unify, ha, hok]
      rfl
    rw [bind_of_ok hattempt, Ty.keep, ← hmeet, hsome]
    rfl
  · have hattempt : attempt (unify built a.type b.type) context state =
        (.ok (.error (.mismatch mismatch)), state) := by
      rw [attempt, unify, ha, hfailed]
      rfl
    rw [Ty.keep, ← hmeet, hnone] at hkeep
    rw [bind_of_ok hattempt, Ty.keep, ← hmeet, hnone, ← hkeep.unionOf, ← ha]
    rfl

theorem build_of_mergeBranches {found : Answers}
    (hrun : mergeBranches site ⟨[a]⟩ ⟨[b]⟩ context state = (.ok found, after)) :
    ∃ built, Classes.build [a.graph, b.graph] = .ok built := by
  obtain ⟨built, -, hbuild, -⟩ := merge_one (reportingAt_eq_ok hrun)
  exact ⟨built, hbuild⟩

theorem branchesOnto_some
    (hruns : BranchRuns context classes site function branches state answers last)
    (hkept : Ty.Kept kept) (ha : a.type = Ty.ofShapes kept)
    (hshapes : ∀ b ∈ answers, b.type.IsShape) :
    ((∃ found after, branchesOnto classes site function (some ⟨[a]⟩) branches context state =
        (.ok found, after)) ↔ ∃ graph, joinOnto a.graph answers = .ok graph) ∧
      ∀ found after, branchesOnto classes site function (some ⟨[a]⟩) branches context state =
        (.ok found, after) → after = last ∧ ∃ b, found = ⟨[b]⟩ ∧
          b.type = Ty.ofShapes ((answers.map (·.type)).foldl Ty.keep kept) ∧
          joinOnto a.graph answers = .ok b.graph := by
  induction hruns generalizing a kept with
  | nil =>
    rw [branchesOnto_nil]
    refine ⟨⟨fun _ => ⟨a.graph, rfl⟩, fun _ => ⟨_, _, rfl⟩⟩, fun found after hrun => ?_⟩
    obtain ⟨rfl, rfl⟩ := pure_eq_ok hrun
    exact ⟨rfl, a, rfl, ha, rfl⟩
  | @cons params body rest state middle last b answers hbranch _ ih =>
    rw [forall_mem_cons] at hshapes
    have hbody : nodeLocus body context state =
      (.ok ⟨body.kind, state.table.file, body.site.span⟩, state) := rfl
    have hfirst : branchesOnto classes site function (some ⟨[a]⟩) ((params, body) :: rest) context
        state = (mergeBranches site ⟨[a]⟩ ⟨[b]⟩ >>= fun merged =>
          branchesOnto classes site function (some merged) rest) context middle := by
      rw [branchesOnto_cons, bind_of_ok hbody, bind_of_ok hbranch]
    rw [hfirst]
    by_cases hbuild : ∃ built, Classes.build [a.graph, b.graph] = .ok built
    · obtain ⟨built, hbuild⟩ := hbuild
      have hjoin : joinOnto a.graph (b :: answers) = joinOnto (some built) answers := by
        rw [joinOnto, hbuild]
        rfl
      rw [bind_of_ok (mergeBranches_of_build hkept ha hshapes.1 hbuild), hjoin]
      exact ih (hkept.keep hshapes.1) rfl hshapes.2
    · -- neither the branches nor the classes come together
      have hstuck : ∀ found after, (mergeBranches site ⟨[a]⟩ ⟨[b]⟩ >>= fun merged =>
          branchesOnto classes site function (some merged) rest) context middle ≠
            (.ok found, after) := by
        intro found after hrun
        obtain ⟨merged, _, hmerge, -⟩ := bind_eq_ok hrun
        exact hbuild (build_of_mergeBranches hmerge)
      refine ⟨⟨?_, ?_⟩, fun found after hrun => absurd hrun (hstuck found after)⟩
      · rintro ⟨found, after, hrun⟩
        exact absurd hrun (hstuck found after)
      · rintro ⟨graph, hjoin⟩
        obtain ⟨built, hbuilt, -⟩ := Outcome.bind_eq_ok hjoin
        exact absurd ⟨built, hbuilt⟩ hbuild

theorem branchesOnto_none
    (hruns : BranchRuns context classes site function branches state answers last)
    (hne : answers ≠ []) (hshapes : ∀ b ∈ answers, b.type.IsShape) :
    ((∃ found after, branchesOnto classes site function none branches context state =
        (.ok found, after)) ↔ ∃ graph, joinGraphs answers = .ok graph) ∧
      ∀ found after, branchesOnto classes site function none branches context state =
        (.ok found, after) → after = last ∧ ∃ b, found = ⟨[b]⟩ ∧
          b.type = Ty.ofShapes (Ty.keptShapes (answers.map (·.type))) ∧
          joinGraphs answers = .ok b.graph := by
  cases hruns with
  | nil => exact absurd rfl hne
  | @cons params body rest state middle last a answers hbranch hrest =>
    rw [forall_mem_cons] at hshapes
    have hbody : nodeLocus body context state =
      (.ok ⟨body.kind, state.table.file, body.site.span⟩, state) := rfl
    have hfirst : branchesOnto classes site function none ((params, body) :: rest) context state =
        branchesOnto classes site function (some ⟨[a]⟩) rest context middle := by
      rw [branchesOnto_cons, bind_of_ok hbody, bind_of_ok hbranch]
      rfl
    rw [hfirst]
    exact branchesOnto_some hrest (Ty.kept_nil.keep hshapes.1) rfl hshapes.2

/-! ### A repeated shape -/

theorem literalType_ground (value : Literal) : (literalType value).Ground := by
  cases value <;> exact (Ty.over_iff_components rfl).mpr fun _ ht => (not_mem_nil ht).elim

def literalBranch (pattern body : Literal) : List Pattern × Node :=
  ([.literal pattern.site pattern], .literal body)

def literalAnswer (site : Site) (pattern body : Literal) : Answer Typed :=
  answer site (.curried [literalType pattern, literalType body])
    [.mk pattern.site.key (literalType pattern) [.mk pattern.site.key (literalType pattern) []],
      .mk body.site.key (literalType body) []] Classes.empty

theorem literalAnswer_shape (site : Site) (pattern body : Literal) :
    (literalAnswer site pattern body).type.IsShape ∧
      (literalAnswer site pattern body).type.FirstOrder := by
  have hliteral : ∀ t ∈ [literalType pattern, literalType body], t.Ground ∧ t.FirstOrder := by
    intro t ht
    obtain rfl | rfl : t = literalType pattern ∨ t = literalType body := by simpa using ht
    · exact ⟨literalType_ground pattern, literalType_firstOrder pattern⟩
    · exact ⟨literalType_ground body, literalType_firstOrder body⟩
  exact ⟨⟨(Ty.over_iff_components rfl).mpr fun t ht => (hliteral t ht).1, _, rfl⟩,
    .curried fun t ht => (hliteral t ht).2⟩

def literalRun (site : Site) (pattern body : Literal) : Infer Answers :=
  branch ⟨.abstraction, "main", site.span⟩ site [.literal pattern.site pattern]
    ⟨body.kind, "main", body.site.span⟩
    (fun known => pure (leaf body.site (literalType body) known)) Classes.empty

theorem branchRuns_literal {pattern body : Literal} (hfile : state.table.file = "main")
    (hrun : (literalRun site pattern body context state).1 =
      .ok ⟨[literalAnswer site pattern body]⟩)
    (hrest : BranchRuns context Classes.empty site ⟨.abstraction, "main", site.span⟩ branches
      (literalRun site pattern body context state).2 answers last) :
    BranchRuns context Classes.empty site ⟨.abstraction, "main", site.span⟩
      (literalBranch pattern body :: branches) state (literalAnswer site pattern body :: answers)
      last := by
  have hbody : bodyAnswers (.literal body) =
      fun known => pure (leaf body.site (literalType body) known) := by
    funext known
    rw [bodyAnswers, statement]
    · rfl
    · rintro _ _ ⟨⟩
  have hliteral : branch ⟨.abstraction, "main", site.span⟩ site [.literal pattern.site pattern]
      ⟨body.kind, state.table.file, body.site.span⟩ (bodyAnswers (.literal body)) Classes.empty =
        literalRun site pattern body := by
    rw [hfile, hbody, literalRun]
  have hbranch := congrFun (congrFun hliteral context) state
  generalize literalRun site pattern body context state = run at hrun hrest hbranch
  obtain ⟨outcome, middle⟩ := run
  obtain rfl : outcome = _ := hrun
  exact .cons hbranch hrest

def one : Literal := .number ⟨1, Span.zero⟩ "1"

def letter : Literal := .string ⟨2, Span.zero⟩ "a"

def repeatedBranches : List (List Pattern × Node) :=
  [literalBranch one one, literalBranch letter letter, literalBranch one one]

def beforeFirst : State := { table := Table.ofFile "main" none [], fresher := {} }

def beforeSecond : State := (literalRun one.site one one emptyContext beforeFirst).2

def beforeThird : State := (literalRun one.site letter letter emptyContext beforeSecond).2

theorem repeatedBranches_run :
    BranchRuns emptyContext Classes.empty one.site
      ⟨.abstraction, beforeFirst.table.file, one.site.span⟩ repeatedBranches beforeFirst
      [literalAnswer one.site one one, literalAnswer one.site letter letter,
        literalAnswer one.site one one]
      (literalRun one.site one one emptyContext beforeThird).2 := by
  have hfirst : (literalRun one.site one one emptyContext beforeFirst).1 =
    .ok ⟨[literalAnswer one.site one one]⟩ := rfl
  have hsecond : (literalRun one.site letter letter emptyContext beforeSecond).1 =
    .ok ⟨[literalAnswer one.site letter letter]⟩ := by with_unfolding_all rfl
  have hthird : (literalRun one.site one one emptyContext beforeThird).1 =
    .ok ⟨[literalAnswer one.site one one]⟩ := by with_unfolding_all rfl
  have hfile : beforeSecond.table.file = "main" ∧ beforeThird.table.file = "main" := by
    with_unfolding_all exact ⟨rfl, rfl⟩
  exact branchRuns_literal rfl hfirst
    (branchRuns_literal hfile.1 hsecond (branchRuns_literal hfile.2 hthird .nil))

/-- **The call shapes of a function.** Where every branch has one answer, of a function type without
variables, the function has an answer exactly if the classes of all of them can be built together,
and then it has one. If no two branches unify, it accepts the call shapes of all. Among first-order
types it accepts those of two branches, but a branch that repeats a shape which the branches before
it left makes it refuse all that came before. -/
theorem function_accepts_kept_shapes
    (hruns : BranchRuns context classes site ⟨.abstraction, state.table.file, site.span⟩ branches
      state answers last)
    (hne : answers ≠ []) (hshapes : ∀ a ∈ answers, a.type.IsShape) :
    ((∃ result after, statement classes (.abstraction site branches) context state =
        (.ok result, after)) ↔ ∃ graph, joinGraphs answers = .ok graph) ∧
      ∀ result after, statement classes (.abstraction site branches) context state =
        (.ok result, after) → ∃ found, result.answers = ⟨[found]⟩ ∧
          found.type.alternatives = Ty.keptShapes (answers.map (·.type)) ∧
          ((answers.map (·.type)).Pairwise (fun t u => Ty.meet? t u = none) →
            ∀ a ∈ answers, found.type.Accepts a.type) ∧
          ((∀ a ∈ answers, a.type.FirstOrder) →
            (answers.length ≤ 2 → ∀ a ∈ answers, found.type.Accepts a.type) ∧
            ∀ earlier a later, answers = earlier ++ a :: later →
              a.type ∈ Ty.keptShapes (earlier.map (·.type)) → ∀ b ∈ answers,
                (found.type.Accepts b.type ↔
                  b.type ∈ Ty.keptShapes ((a :: later).map (·.type)))) := by
  obtain ⟨hiff, hanswer⟩ := branchesOnto_none hruns hne hshapes
  have htypes : ∀ t ∈ answers.map (·.type), t.IsShape := List.forall_mem_map.mpr hshapes
  refine ⟨?_, fun result after hrun => ?_⟩
  · rw [← hiff]
    constructor
    · rintro ⟨result, after, hrun⟩
      obtain ⟨found, hfound, -⟩ := abstraction_eq_ok_iff.mp hrun
      exact ⟨found, after, hfound⟩
    · rintro ⟨found, after, hfound⟩
      exact ⟨_, after, abstraction_eq_ok_iff.mpr ⟨found, hfound, rfl⟩⟩
  · obtain ⟨_, hfound, rfl⟩ := abstraction_eq_ok_iff.mp hrun
    obtain ⟨-, found, rfl, htype, -⟩ := hanswer _ after hfound
    have hkept : found.type.alternatives = Ty.keptShapes (answers.map (·.type)) := by
      rw [htype]
      exact Ty.alternatives_ofShapes (Ty.kept_keptShapes htypes).shapes
    refine ⟨found, rfl, hkept, fun hapart a ha => ?_, fun hfirst => ?_⟩
    · rw [Ty.keptShapes_eq_self ⟨htypes, hapart⟩] at hkept
      exact ⟨a.type, hkept ▸ List.mem_map_of_mem ha, Ty.meet?_self (hshapes a ha).ground⟩
    · have hboth : ∀ t ∈ answers.map (·.type), t.IsShape ∧ t.FirstOrder :=
        List.forall_mem_map.mpr fun a ha => ⟨hshapes a ha, hfirst a ha⟩
      have haccepts : ∀ a ∈ answers, found.type.Accepts a.type ↔
          a.type ∈ Ty.keptShapes (answers.map (·.type)) := fun a ha =>
        Ty.accepts_iff_mem_keptShapes hboth hkept (hshapes a ha) (hfirst a ha)
      refine ⟨fun hlength a ha => ?_, ?_⟩
      · rw [haccepts a ha]
        exact Ty.mem_keptShapes_of_length_le hboth (by simpa using hlength) (List.mem_map_of_mem ha)
      · rintro earlier a later rfl hrepeated b hb
        rw [haccepts b hb, List.map_append, List.map_cons]
        rw [Ty.keptShapes_of_repeated (fun t ht => hboth t ?_) hrepeated]
        rw [List.map_append]
        exact List.mem_append_left _ ht

theorem function_accepts_kept_shapes_of_repeated :
    ∃ answers last result after found,
      BranchRuns emptyContext Classes.empty one.site
        ⟨.abstraction, beforeFirst.table.file, one.site.span⟩ repeatedBranches beforeFirst answers
        last ∧
      answers.map (·.type) = [.curried [.number, .number], .curried [.string, .string],
        .curried [.number, .number]] ∧
      (∀ a ∈ answers, a.type.IsShape) ∧
      statement Classes.empty (.abstraction one.site repeatedBranches) emptyContext beforeFirst =
        (.ok result, after) ∧
      result.answers = ⟨[found]⟩ ∧ found.type.Accepts (.curried [.number, .number]) ∧
      ¬ found.type.Accepts (.curried [.string, .string]) := by
  have hshapes : ∀ a ∈ [literalAnswer one.site one one, literalAnswer one.site letter letter,
      literalAnswer one.site one one], a.type.IsShape ∧ a.type.FirstOrder := by
    intro a ha
    obtain rfl | rfl | rfl : a = literalAnswer one.site one one ∨
        a = literalAnswer one.site letter letter ∨ a = literalAnswer one.site one one := by
      simpa using ha
    all_goals exact literalAnswer_shape _ _ _
  obtain ⟨hiff, hanswer⟩ := function_accepts_kept_shapes repeatedBranches_run
    (List.cons_ne_nil _ _) fun a ha => (hshapes a ha).1
  obtain ⟨result, after, hrun⟩ := hiff.mpr ⟨some Classes.empty.refresh, rfl⟩
  obtain ⟨found, hfound, -, -, hfirst⟩ := hanswer result after hrun
  have hkept : (literalAnswer one.site one one).type ∈ Ty.keptShapes
      [(literalAnswer one.site one one).type, (literalAnswer one.site letter letter).type] := by
    refine Ty.mem_keptShapes_of_length_le (fun t ht => ?_) le_rfl (.head _)
    obtain rfl | rfl : t = _ ∨ t = _ := by simpa using ht
    all_goals exact literalAnswer_shape _ _ _
  have hrepeated := (hfirst fun a ha => (hshapes a ha).2).2
    [literalAnswer one.site one one, literalAnswer one.site letter letter]
    (literalAnswer one.site one one) [] rfl hkept
  refine ⟨_, _, result, after, found, repeatedBranches_run, rfl, fun a ha => (hshapes a ha).1, hrun,
    hfound, (hrepeated (literalAnswer one.site one one) (.head _)).mpr (.head _),
    fun haccepts => ?_⟩
  have hmem := (hrepeated (literalAnswer one.site letter letter) (by simp)).mp haccepts
  have hequal : Ty.curried [.string, .string] = .curried [.number, .number] :=
    List.mem_singleton.mp hmem
  simp [Ty.string, Ty.number] at hequal

end Infer

end TypeSearch
