import TypeSearch.Proofs.Order

/-!
# Topological order

The walk along targets is also a loop over a stack of frames, which ends whatever the targets are.
Nodes whose dependencies are nodes can be ordered if and only if none depends on itself, directly or
through others; and nodes that already come after their dependencies keep their order.
-/

namespace TypeSearch.Order

open List

/-! ### The loop -/

section Loop

variable {count : Nat} {targets : Fin count → List (Fin count)} {roots : List (Fin count)}
  {walk : Walk count} {node : Fin count} {result : Except (Cycle count) (Walk count)}

structure Frame (count : Nat) where
  node : Fin count
  rest : List (Fin count)

variable {frames : List (Frame count)}

/-- Where the loop is: the path, innermost frame first, the roots to come and the positions left. -/
structure Search (count : Nat) where
  frames : List (Frame count)
  roots : List (Fin count)
  walk : Walk count

local instance decidableMem (node : Fin count) (nodes : List (Fin count)) :
    Decidable (node ∈ nodes) :=
  decidable_of_iff (nodes.any (· = node)) (by simp)

namespace Search

def turn (targets : Fin count → List (Fin count)) :
    Search count → Search count ⊕ Except (Cycle count) (Walk count)
  | ⟨[], [], walk⟩ => .inr (.ok walk)
  | ⟨[], root :: roots, walk⟩ =>
    if root ∈ walk then .inl ⟨[], roots, walk⟩ else .inl ⟨[⟨root, targets root⟩], roots, walk⟩
  | ⟨⟨node, []⟩ :: frames, roots, walk⟩ => .inl ⟨frames, roots, node :: walk⟩
  | ⟨⟨node, target :: rest⟩ :: frames, roots, walk⟩ =>
    if h : target ∈ node :: frames.map Frame.node then .inr (.error ⟨_, target, h⟩)
    else if target ∈ walk then .inl ⟨⟨node, rest⟩ :: frames, roots, walk⟩
    else .inl ⟨⟨target, targets target⟩ :: ⟨node, rest⟩ :: frames, roots, walk⟩

inductive Ends (targets : Fin count → List (Fin count)) :
    Search count → Except (Cycle count) (Walk count) → Prop
  | stop {search : Search count} {result : Except (Cycle count) (Walk count)}
      (hturn : search.turn targets = .inr result) : Ends targets search result
  | next {search next : Search count} {result : Except (Cycle count) (Walk count)}
      (hturn : search.turn targets = .inl next) (hends : Ends targets next result) :
      Ends targets search result

def start (count : Nat) : Search count := ⟨[], List.finRange count, []⟩

/-- What the loop has to do after a visit that came to `visited`. -/
def Resumes (targets : Fin count → List (Fin count)) (frames : List (Frame count))
    (roots : List (Fin count)) (result : Except (Cycle count) (Walk count)) :
    Except (Cycle count) (Walk count) → Prop
  | .ok walk => Ends targets ⟨frames, roots, walk⟩ result
  | .error cycle => result = .error cycle

theorem Resumes.of_bind {frames' : List (Frame count)} {roots' : List (Fin count)}
    {visited : Except (Cycle count) (Walk count)}
    {onward : Walk count → Except (Cycle count) (Walk count)}
    (hresumes : Resumes targets frames roots result (visited >>= onward))
    (honward : ∀ walk, Resumes targets frames roots result (onward walk) →
      Ends targets ⟨frames', roots', walk⟩ result) :
    Resumes targets frames' roots' result visited := by
  cases visited with
  | ok walk => exact honward walk hresumes
  | error cycle => exact hresumes

/-- The outer induction is on `depth`, which never runs out, the inner one on the targets that the
frame of the position has left. -/
theorem ends_of_visit {depth : Nat} (hdepth : count ≤ frames.length + depth)
    (hnodup : (node :: frames.map Frame.node).Nodup)
    (hresumes : Resumes targets frames roots result
      (visit targets depth (frames.map Frame.node) node walk)) :
    Ends targets ⟨⟨node, targets node⟩ :: frames, roots, walk⟩ result := by
  induction depth generalizing frames node walk with
  | zero =>
    have hlength := hnodup.length_le_card
    rw [length_cons, length_map, Fintype.card_fin] at hlength
    omega
  | succ depth ih =>
    rw [visit] at hresumes
    generalize targets node = rest at hresumes ⊢
    induction rest generalizing walk with
    | nil => exact .next rfl hresumes
    | cons target rest ihrest =>
      rw [visitEach] at hresumes
      by_cases hpath : target ∈ node :: frames.map Frame.node
      · rw [dif_pos hpath] at hresumes
        refine .stop ?_
        rw [turn, dif_pos hpath]
        exact congrArg Sum.inr hresumes.symm
      · rw [dif_neg hpath] at hresumes
        by_cases hwalk : target ∈ walk
        · rw [if_pos hwalk] at hresumes
          refine .next ?_ (ihrest hresumes)
          rw [turn, dif_neg hpath, if_pos hwalk]
        · rw [if_neg hwalk, bind_assoc] at hresumes
          have hdown : Ends targets
              ⟨⟨target, targets target⟩ :: ⟨node, rest⟩ :: frames, roots, walk⟩ result :=
            ih (by rw [length_cons]; omega) (nodup_cons.mpr ⟨hpath, hnodup⟩)
              (hresumes.of_bind fun _ => ihrest)
          refine .next ?_ hdown
          rw [turn, dif_neg hpath, if_neg hwalk]

/-- A walk that resumes with an empty stack ends the machine's run. -/
theorem ends_of_visitEach
    (hresumes : Resumes targets [] [] result (visitEach (visit targets count []) [] roots walk)) :
    Ends targets ⟨[], roots, walk⟩ result := by
  induction roots generalizing walk with
  | nil => exact hresumes
  | cons root roots ih =>
    rw [visitEach, dif_neg not_mem_nil] at hresumes
    by_cases hwalk : root ∈ walk
    · rw [if_pos hwalk] at hresumes
      refine .next ?_ (ih hresumes)
      rw [turn, if_pos hwalk]
    · rw [if_neg hwalk] at hresumes
      have hdown : Ends targets ⟨[⟨root, targets root⟩], roots, walk⟩ result :=
        ends_of_visit (by simp) (nodup_singleton root) (hresumes.of_bind fun _ => ih)
      refine .next ?_ hdown
      rw [turn, if_neg hwalk]

theorem ends_walk (targets : Fin count → List (Fin count)) :
    Ends targets (start count) (Order.walk targets) := by
  refine ends_of_visitEach ?_
  change Resumes targets [] [] _ (Order.walk targets)
  cases Order.walk targets with
  | ok walk => exact .stop rfl
  | error cycle => rfl

end Search

/-! ### Positions in order -/

theorem visitEach_of_subset {visit : Fin count → Walk count → Except (Cycle count) (Walk count)}
    {path nodes : List (Fin count)} (hnodes : nodes ⊆ walk) (hpath : path.Disjoint walk) :
    visitEach visit path nodes walk = .ok walk := by
  induction nodes with
  | nil => rfl
  | cons node rest ih =>
    rw [cons_subset] at hnodes
    rw [visitEach, dif_neg fun hmem => hpath hmem hnodes.1, if_pos hnodes.1, ih hnodes.2]

theorem visitEach_of_sorted {depth : Nat} (hsorted : Sorted targets (walk.reverse ++ roots))
    (hnodup : (walk.reverse ++ roots).Nodup) :
    visitEach (visit targets (depth + 1) []) [] roots walk = .ok (roots.reverse ++ walk) := by
  induction roots generalizing walk with
  | nil => rfl
  | cons node rest ih =>
    have hnew : node ∉ walk := fun hmem =>
      disjoint_of_nodup_append hnodup (mem_reverse.mpr hmem) (.head _)
    have htargets : targets node ⊆ walk := fun target htarget =>
      mem_reverse.mp (hsorted walk.reverse node rest rfl htarget)
    have hvisit : visit targets (depth + 1) [] node walk = .ok (node :: walk) := by
      rw [visit, visitEach_of_subset htargets (singleton_disjoint.mpr hnew)]
      rfl
    have hsplit : walk.reverse ++ node :: rest = (node :: walk).reverse ++ rest := by simp
    rw [hsplit] at hsorted hnodup
    rw [visitEach, dif_neg not_mem_nil, if_neg hnew, hvisit, reverse_cons,
      append_assoc]
    exact ih hsorted hnodup

theorem walk_of_sorted (hsorted : Sorted targets (finRange count)) :
    Order.walk targets = .ok (finRange count).reverse := by
  cases count with
  | zero => rfl
  | succ depth =>
    have hwalk : visitEach (visit targets (depth + 1) []) [] (finRange _) [] = .ok _ :=
      visitEach_of_sorted hsorted (nodup_finRange _)
    rwa [append_nil] at hwalk

end Loop

/-! ### Nodes -/

section Nodes

open Relation

variable {α : Type} [DecidableEq α] {nodes ordered chain : List α} {dependencies : α → List α}
  {source target : α}

theorem unknown?_eq_none (hknown : ∀ node ∈ nodes, dependencies node ⊆ nodes) :
    unknown? nodes dependencies = none := by
  cases hunknown : unknown? nodes dependencies with
  | none => rfl
  | some pair =>
    obtain ⟨hsource, htarget, hnot⟩ := unknown?_eq_some hunknown
    exact absurd (hknown _ hsource htarget) hnot

theorem nodup_chain (hnodup : nodes.Nodup)
    (horder : order nodes dependencies = .error (.cycle source target chain)) : chain.Nodup := by
  have hwalk := walk_goesOn (targets nodes dependencies)
  rw [order] at horder
  split at horder
  · cases horder
  · split at horder
    · cases horder
    · rename_i cycle hcycle
      rw [hcycle] at hwalk
      cases horder
      exact (Cycle.Closes.chain hwalk).2.2.1.map (nodup_iff_injective_get.mp hnodup)

theorem sorted_of_order (horder : order nodes dependencies = .ok ordered) :
    ordered.Perm nodes ∧ Sorted dependencies ordered := by
  have horders := order_orders nodes dependencies
  rw [horder] at horders
  cases horders with
  | ok hperm hsorted => exact ⟨hperm, hsorted⟩

/-- **Ordering sorts topologically or names a cycle.** If all dependencies of distinct nodes are
nodes, the loop over a stack ends with what the walk comes to. Ordering succeeds if and only if no
node depends on itself through others. Then every node is listed once, after its dependencies;
otherwise the error is a cycle of distinct nodes. If some dependency is no node, such a one is the
error. -/
theorem order_topological (nodes : List α) (dependencies : α → List α) (hnodup : nodes.Nodup) :
    ((∀ node ∈ nodes, dependencies node ⊆ nodes) →
      Search.Ends (targets nodes dependencies) (.start nodes.length)
        (walk (targets nodes dependencies)) ∧
      ((∃ ordered, order nodes dependencies = .ok ordered) ↔
        ∀ node ∈ nodes, ¬ TransGen (DependsOn dependencies) node node) ∧
      (∀ ordered, order nodes dependencies = .ok ordered →
        ordered.Perm nodes ∧ Sorted dependencies ordered) ∧
      ∀ error, order nodes dependencies = .error error → ∃ source target chain,
        error = .cycle source target chain ∧ chain ⊆ nodes ∧ chain.Nodup ∧
          IsCycle dependencies source target chain) ∧
    ((∃ node ∈ nodes, ¬ dependencies node ⊆ nodes) → ∃ source target,
      order nodes dependencies = .error (.unknown source target) ∧
        source ∈ nodes ∧ target ∈ dependencies source ∧ target ∉ nodes) := by
  have horders := order_orders nodes dependencies
  refine ⟨fun hknown => ⟨Search.ends_walk _, ⟨?_, fun hacyclic => ?_⟩,
    fun ordered => sorted_of_order, ?_⟩, ?_⟩
  · rintro ⟨ordered, horder⟩ node hnode hcycle
    obtain ⟨hperm, hsorted⟩ := sorted_of_order horder
    exact hsorted.not_reachesCycle (hperm.nodup_iff.mpr hnodup) (hperm.mem_iff.mpr hnode)
      ⟨node, .refl, hcycle⟩
  · cases horder : order nodes dependencies with
    | ok ordered => exact ⟨ordered, rfl⟩
    | error error =>
      rw [horder] at horders
      cases horders with
      | cycle hnodes hcycle =>
        have hloop := hcycle.reaches_source hcycle.target_mem
        exact absurd (.head' hcycle.closes hloop) (hacyclic _ (hnodes hcycle.source_mem))
      | unknown hsource htarget hnot => exact absurd (hknown _ hsource htarget) hnot
  · intro error horder
    rw [horder] at horders
    cases horders with
    | cycle hnodes hcycle =>
      exact ⟨_, _, _, rfl, hnodes, nodup_chain hnodup horder, hcycle⟩
    | unknown hsource htarget hnot => exact absurd (hknown _ hsource htarget) hnot
  · rintro ⟨node, hnode, houtside⟩
    cases hunknown : unknown? nodes dependencies with
    | none => exact absurd (mem_of_unknown?_eq_none hunknown hnode) houtside
    | some pair =>
      refine ⟨pair.1, pair.2, ?_, unknown?_eq_some hunknown⟩
      rw [order, hunknown]

/-- `0` depends on `1`, and `1` and `2` on each other: the cycle is below the root of the walk.
Without `2` among the nodes, the dependency on it is the error. -/
theorem order_topological_of_cycle :
    [0, 1, 2].Nodup ∧ (∀ node ∈ [0, 1, 2], [node % 2 + 1] ⊆ [0, 1, 2]) ∧
    order [0, 1, 2] (fun node => [node % 2 + 1]) = .error (.cycle 2 1 [1, 2]) ∧
    IsCycle (fun node => [node % 2 + 1]) 2 1 [1, 2] ∧
    [0, 1].Nodup ∧ (∃ node ∈ [0, 1], ¬ [node % 2 + 1] ⊆ [0, 1]) ∧
    ∃ source target,
      order [0, 1] (fun node => [node % 2 + 1]) = .error (.unknown source target) := by
  have hknown : ∀ node ∈ [0, 1, 2], [node % 2 + 1] ⊆ [0, 1, 2] := by decide
  have houtside : ∃ node ∈ [0, 1], ¬ [node % 2 + 1] ⊆ [0, 1] := by decide
  have horder : order [0, 1, 2] (fun node => [node % 2 + 1]) = .error (.cycle 2 1 [1, 2]) := rfl
  obtain ⟨-, -, -, hcycles⟩ := (order_topological [0, 1, 2] _ (by decide)).1 hknown
  obtain ⟨source, target, chain, heq, -, -, hcycle⟩ := hcycles _ horder
  cases heq
  obtain ⟨source, target, hunknown, -⟩ :=
    (order_topological [0, 1] (fun node => [node % 2 + 1]) (by decide)).2 houtside
  exact ⟨by decide, hknown, horder, hcycle, by decide, houtside, source, target, hunknown⟩

theorem sorted_finRange (hnodup : nodes.Nodup) (hsorted : Sorted dependencies nodes) :
    Sorted (targets nodes dependencies) (finRange nodes.length) := by
  intro before index after heq target htarget
  have hnodes : nodes = before.map nodes.get ++ nodes.get index :: after.map nodes.get := by
    rw [← map_cons, ← map_append, ← heq, map_get_finRange]
  obtain ⟨position, hposition, hget⟩ :=
    mem_map.mp (hsorted _ _ _ hnodes (get_mem_dependencies htarget))
  rwa [← nodup_iff_injective_get.mp hnodup hget]

theorem order_of_sorted (hnodup : nodes.Nodup) (hsorted : Sorted dependencies nodes) :
    order nodes dependencies = .ok nodes := by
  have hknown : ∀ node ∈ nodes, dependencies node ⊆ nodes := by
    intro node hnode
    obtain ⟨before, after, rfl⟩ := append_of_mem hnode
    exact subset_append_of_subset_left _ (hsorted before node after rfl)
  rw [order, unknown?_eq_none hknown, walk_of_sorted (sorted_finRange hnodup hsorted)]
  simp

/-- **Ordering leaves ordered nodes as they are.** Distinct nodes are returned unchanged if and only
if each comes after its dependencies; so ordering a second time changes nothing. -/
theorem order_stable (nodes : List α) (dependencies : α → List α) (hnodup : nodes.Nodup) :
    (order nodes dependencies = .ok nodes ↔ Sorted dependencies nodes) ∧
      ∀ ordered, order nodes dependencies = .ok ordered →
        order ordered dependencies = .ok ordered := by
  refine ⟨⟨fun horder => (sorted_of_order horder).2, order_of_sorted hnodup⟩, ?_⟩
  intro ordered horder
  obtain ⟨hperm, hsorted⟩ := sorted_of_order horder
  exact order_of_sorted (hperm.nodup_iff.mpr hnodup) hsorted

/-- Each number depends on the smaller ones. -/
theorem order_stable_of_smaller :
    [2, 0, 1].Nodup ∧ order [2, 0, 1] List.range = .ok [0, 1, 2] ∧
      order [0, 1, 2] List.range = .ok [0, 1, 2] := by
  have horder : order [2, 0, 1] List.range = .ok [0, 1, 2] := rfl
  exact ⟨by decide, horder, (order_stable [2, 0, 1] List.range (by decide)).2 _ horder⟩

end Nodes

end TypeSearch.Order
