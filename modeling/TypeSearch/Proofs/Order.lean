import Mathlib.Data.Fintype.Card
import Mathlib.Data.List.Chain
import Mathlib.Data.List.FinRange
import Mathlib.Logic.Relation
import TypeSearch.Order

/-!
# Ordering by dependencies

A walk goes down from position to position along targets. The positions it has left are distinct and
come after their targets, and none of them is on the path; the path itself never meets a position
twice. So a walk is never deeper than there are positions, and it ends with all positions or with a
target on the path, which closes a cycle.
-/

namespace TypeSearch.Order

open List

section Sorted

variable {β γ : Type} {dependencies : β → List β} {ordered : List β} {node : β}

def Sorted (dependencies : β → List β) (ordered : List β) : Prop :=
  ∀ before node after, ordered = before ++ node :: after → dependencies node ⊆ before

theorem sorted_nil : Sorted dependencies [] := by
  intro before node after heq
  cases before <;> cases heq

theorem Sorted.concat (hsorted : Sorted dependencies ordered)
    (hnode : dependencies node ⊆ ordered) : Sorted dependencies (ordered ++ [node]) := by
  intro before other after heq
  obtain rfl | ⟨after, last, rfl⟩ := eq_nil_or_concat after
  · obtain ⟨rfl, hlast⟩ := append_inj' heq rfl
    cases hlast
    exact hnode
  · rw [concat_eq_append, ← cons_append, ← append_assoc] at heq
    exact hsorted before other after (append_inj_left' heq rfl)

end Sorted

section Walk

variable {count : Nat} {targets : Fin count → List (Fin count)} {path nodes : List (Fin count)}
  {walk : Walk count} {node : Fin count}

structure Left (targets : Fin count → List (Fin count)) (path : List (Fin count))
    (walk : Walk count) : Prop where
  nodup : walk.Nodup
  sorted : Sorted targets walk.reverse
  disjoint : path.Disjoint walk

/-- The path, which is given innermost first, follows targets and meets no position twice. -/
structure Descends (targets : Fin count → List (Fin count)) (path : List (Fin count)) : Prop where
  nodup : path.Nodup
  follows : path.IsChain fun inner outer => inner ∈ targets outer

structure Cycle.Closes (targets : Fin count → List (Fin count)) (cycle : Cycle count) : Prop where
  descends : Descends targets cycle.path
  closes : cycle.target ∈ targets cycle.source

def GoesOn (targets : Fin count → List (Fin count)) (path : List (Fin count)) (walk : Walk count)
    (nodes : List (Fin count)) : Except (Cycle count) (Walk count) → Prop
  | .ok next => Left targets path next ∧ walk ⊆ next ∧ nodes ⊆ next
  | .error cycle => cycle.Closes targets

theorem GoesOn.bind {path' nodes' : List (Fin count)} {walk' : Walk count}
    {result : Except (Cycle count) (Walk count)}
    {onward : Walk count → Except (Cycle count) (Walk count)}
    (hresult : GoesOn targets path walk nodes result)
    (honward : ∀ next, Left targets path next → walk ⊆ next → nodes ⊆ next →
      GoesOn targets path' walk' nodes' (onward next)) :
    GoesOn targets path' walk' nodes' (result >>= onward) := by
  cases result with
  | error cycle => exact hresult
  | ok next => exact honward next hresult.1 hresult.2.1 hresult.2.2

theorem GoesOn.mono {nodes' : List (Fin count)} {walk' : Walk count}
    {result : Except (Cycle count) (Walk count)} (hresult : GoesOn targets path walk nodes result)
    (hwalk : walk' ⊆ walk) (hnodes : ∀ next, walk ⊆ next → nodes ⊆ next → nodes' ⊆ next) :
    GoesOn targets path walk' nodes' result := by
  cases result with
  | error cycle => exact hresult
  | ok next =>
    obtain ⟨hleft, hgrows, hhas⟩ := hresult
    exact ⟨hleft, Subset.trans hwalk hgrows, hnodes next hgrows hhas⟩

/-- A walk over `nodes` goes on as each of its visits does. -/
theorem visitEach_goesOn {visit : Fin count → Walk count → Except (Cycle count) (Walk count)}
    (hvisit : ∀ node ∈ nodes, node ∉ path → ∀ walk, node ∉ walk → Left targets path walk →
      GoesOn targets path walk [node] (visit node walk))
    (hpath : Descends targets path)
    (hnodes : ∀ node outer, path = node :: outer → nodes ⊆ targets node)
    (hwalk : Left targets path walk) :
    GoesOn targets path walk nodes (visitEach visit path nodes walk) := by
  induction nodes generalizing walk with
  | nil => exact ⟨hwalk, Subset.refl walk, nil_subset _⟩
  | cons node rest ih =>
    have hlater {walk : Walk count} (hwalk : Left targets path walk) :
        GoesOn targets path walk rest (visitEach visit path rest walk) :=
      ih (fun node hnode => hvisit node (.tail _ hnode))
        (fun inner outer heq => (cons_subset.mp (hnodes inner outer heq)).2) hwalk
    rw [visitEach]
    by_cases honpath : node ∈ path
    · rw [dif_pos honpath]
      refine ⟨hpath, ?_⟩
      cases path with
      | nil => cases honpath
      | cons inner outer => exact hnodes inner outer rfl (.head _)
    · rw [dif_neg honpath]
      by_cases hleft : node ∈ walk
      · rw [if_pos hleft]
        refine (hlater hwalk).mono (Subset.refl walk) fun next hgrows hhas => ?_
        exact cons_subset.mpr ⟨hgrows hleft, hhas⟩
      · rw [if_neg hleft]
        refine (hvisit node (.head _) honpath walk hleft hwalk).bind ?_
        intro middle hmiddle hgrows hhas
        refine (hlater hmiddle).mono hgrows fun next hgrows' hhas' => ?_
        exact cons_subset.mpr ⟨hgrows' (hhas (.head _)), hhas'⟩

/-- The induction is on `depth`, which never runs out: the path and the position are distinct. -/
theorem visit_goesOn {depth : Nat} (hdepth : count ≤ path.length + depth)
    (hpath : Descends targets (node :: path)) (hnode : node ∉ walk)
    (hwalk : Left targets path walk) :
    GoesOn targets path walk [node] (visit targets depth path node walk) := by
  induction depth generalizing path node walk with
  | zero =>
    have hlength := hpath.nodup.length_le_card
    rw [length_cons, Fintype.card_fin] at hlength
    omega
  | succ depth ih =>
    have hdown : Left targets (node :: path) walk :=
      ⟨hwalk.nodup, hwalk.sorted, disjoint_cons_left.mpr ⟨hnode, hwalk.disjoint⟩⟩
    have hbelow : GoesOn targets (node :: path) walk (targets node)
        (visitEach (visit targets depth (node :: path)) (node :: path) (targets node) walk) := by
      refine visitEach_goesOn ?_ hpath ?_ hdown
      · intro next hnext honpath walk hnew hleft
        refine ih (by rw [length_cons]; omega) ⟨?_, ?_⟩ hnew hleft
        · exact nodup_cons.mpr ⟨honpath, hpath.nodup⟩
        · exact isChain_cons_cons.mpr ⟨hnext, hpath.follows⟩
      · rintro _ _ ⟨⟩
        exact Subset.refl _
    rw [visit]
    refine hbelow.bind fun next hnext hgrows hhas => ?_
    obtain ⟨hnew, hdisjoint⟩ := disjoint_cons_left.mp hnext.disjoint
    refine ⟨⟨nodup_cons.mpr ⟨hnew, hnext.nodup⟩, ?_, ?_⟩, ?_, by simp⟩
    · rw [reverse_cons]
      exact hnext.sorted.concat fun target htarget => mem_reverse.mpr (hhas htarget)
    · exact disjoint_cons_right.mpr ⟨(nodup_cons.mp hpath.nodup).1, hdisjoint⟩
    · exact subset_cons_of_subset _ hgrows

theorem walk_goesOn (targets : Fin count → List (Fin count)) :
    GoesOn targets [] [] (finRange count) (Order.walk targets) := by
  refine visitEach_goesOn ?_ ⟨nodup_nil, .nil⟩ (by rintro _ _ ⟨⟩)
    ⟨nodup_nil, sorted_nil, disjoint_nil_left _⟩
  intro node _ _ walk hnode hwalk
  exact visit_goesOn (by simp) ⟨nodup_singleton node, .singleton node⟩ hnode hwalk

theorem exists_takeWhile {target : Fin count} (htarget : target ∈ path) :
    ∃ outer, path = (path.takeWhile (· != target) ++ [target]) ++ outer := by
  induction path with
  | nil => cases htarget
  | cons node rest ih =>
    by_cases heq : node = target
    · exact ⟨rest, by simp [heq]⟩
    · obtain ⟨outer, houter⟩ := ih ((mem_cons.mp htarget).resolve_left (Ne.symm heq))
      refine ⟨outer, ?_⟩
      rw [takeWhile_cons_of_pos (by simpa using heq), cons_append, cons_append,
        ← houter]

theorem Cycle.Closes.chain {cycle : Cycle count} (hcycle : cycle.Closes targets) :
    cycle.chain.head? = some cycle.target ∧ cycle.chain.getLast? = some cycle.source ∧
      cycle.chain.Nodup ∧ cycle.chain.IsChain fun node next => next ∈ targets node := by
  obtain ⟨outer, houter⟩ := exists_takeWhile cycle.target_mem
  have hhead : cycle.path.head? = some cycle.source := head?_eq_some_head _
  have hnodup := hcycle.descends.nodup
  have hfollows := hcycle.descends.follows
  rw [houter] at hhead hnodup hfollows
  rw [Cycle.chain, head?_reverse, getLast?_reverse, nodup_reverse,
    isChain_reverse]
  refine ⟨by simp, ?_, hnodup.of_append_left, hfollows.left_of_append⟩
  rwa [head?_append_of_ne_nil _ (by simp)] at hhead

end Walk

section Nodes

variable {α : Type} [DecidableEq α] {nodes : List α} {dependencies : α → List α} {node : α}

theorem get_of_indexOf? {index : Fin nodes.length} (hindex : indexOf? nodes node = some index) :
    nodes.get index = node := by
  simpa using find?_some hindex

theorem exists_indexOf? (hnode : node ∈ nodes) : ∃ index, indexOf? nodes node = some index := by
  obtain ⟨index, hindex⟩ := get_of_mem hnode
  rw [← Option.isSome_iff_exists, indexOf?, find?_isSome]
  exact ⟨index, by simp, by simpa using hindex⟩

theorem get_mem_dependencies {index target : Fin nodes.length}
    (htarget : target ∈ targets nodes dependencies index) :
    nodes.get target ∈ dependencies (nodes.get index) := by
  obtain ⟨node, hnode, hindex⟩ := mem_filterMap.mp htarget
  rwa [get_of_indexOf? hindex]

theorem mem_of_unknown?_eq_none (hunknown : unknown? nodes dependencies = none) {source : α}
    (hsource : source ∈ nodes) : dependencies source ⊆ nodes := by
  intro target htarget
  have hnone := findSome?_eq_none_iff.mp hunknown source hsource
  have hknown := find?_eq_none.mp (Option.map_eq_none_iff.mp hnone) target htarget
  simpa using hknown

/-- `source` depends on `target`, and `chain` leads from `target` to `source`. -/
structure IsCycle (dependencies : α → List α) (source target : α) (chain : List α) : Prop where
  head : chain.head? = some target
  last : chain.getLast? = some source
  follows : chain.IsChain fun node next => next ∈ dependencies node
  closes : target ∈ dependencies source

inductive Orders (nodes : List α) (dependencies : α → List α) :
    Except (Error α) (List α) → Prop
  | ok {ordered : List α} (hperm : ordered.Perm nodes) (hsorted : Sorted dependencies ordered) :
      Orders nodes dependencies (.ok ordered)
  | cycle {source target : α} {chain : List α} (hnodes : chain ⊆ nodes)
      (hcycle : IsCycle dependencies source target chain) :
      Orders nodes dependencies (.error (.cycle source target chain))
  | unknown {source target : α} (hsource : source ∈ nodes) (htarget : target ∈ dependencies source)
      (hunknown : target ∉ nodes) : Orders nodes dependencies (.error (.unknown source target))

theorem sorted_map_get (hunknown : unknown? nodes dependencies = none)
    {positions : List (Fin nodes.length)}
    (hsorted : Sorted (targets nodes dependencies) positions) :
    Sorted dependencies (positions.map nodes.get) := by
  intro before node after heq target htarget
  obtain ⟨before, rest, rfl, rfl, hrest⟩ := map_eq_append_iff.mp heq
  obtain ⟨index, after, rfl, rfl, rfl⟩ := map_eq_cons_iff.mp hrest
  obtain ⟨position, hposition⟩ := exists_indexOf?
    (mem_of_unknown?_eq_none hunknown (get_mem nodes index) htarget)
  have hbefore := hsorted before index after rfl
    (mem_filterMap.mpr ⟨target, htarget, hposition⟩)
  exact mem_map.mpr ⟨position, hbefore, get_of_indexOf? hposition⟩

theorem isCycle_map_get {cycle : Cycle nodes.length}
    (hcycle : cycle.Closes (targets nodes dependencies)) :
    IsCycle dependencies (nodes.get cycle.source) (nodes.get cycle.target)
      (cycle.chain.map nodes.get) := by
  obtain ⟨hhead, hlast, -, hfollows⟩ := hcycle.chain
  refine ⟨?_, ?_, ?_, get_mem_dependencies hcycle.closes⟩
  · rw [head?_map, hhead, Option.map_some]
  · rw [getLast?_map, hlast, Option.map_some]
  · exact isChain_map_of_isChain _ (fun _ _ => get_mem_dependencies) hfollows

theorem order_orders (nodes : List α) (dependencies : α → List α) :
    Orders nodes dependencies (order nodes dependencies) := by
  rw [order]
  split
  next source target hunknown =>
    obtain ⟨hsource, htarget, hnot⟩ := unknown?_eq_some hunknown
    exact .unknown hsource htarget hnot
  next hunknown =>
    have hwalk := walk_goesOn (targets nodes dependencies)
    cases hresult : walk (targets nodes dependencies) with
    | error cycle =>
      rw [hresult] at hwalk
      refine .cycle ?_ (isCycle_map_get hwalk)
      intro node hnode
      obtain ⟨index, -, rfl⟩ := mem_map.mp hnode
      exact get_mem nodes index
    | ok visited =>
      rw [hresult] at hwalk
      obtain ⟨hleft, -, hall⟩ := hwalk
      refine .ok ?_ (sorted_map_get hunknown hleft.sorted)
      have hperm : visited.reverse.Perm (finRange nodes.length) := by
        refine (reverse_perm visited).trans ?_
        refine (perm_ext_iff_of_nodup hleft.nodup (nodup_finRange _)).mpr fun index => ?_
        exact ⟨fun _ => mem_finRange index, fun hindex => hall hindex⟩
      have hmap := hperm.map nodes.get
      rwa [map_get_finRange] at hmap

end Nodes

section Cycles

open Relation

variable {α : Type} {dependencies : α → List α} {ordered chain : List α} {node source target : α}

def DependsOn (dependencies : α → List α) (node next : α) : Prop := next ∈ dependencies node

def ReachesCycle (depends : α → α → Prop) (node : α) : Prop :=
  ∃ other, ReflTransGen depends node other ∧ TransGen depends other other

theorem Sorted.mem_of_transGen (hsorted : Sorted dependencies ordered) {before after : List α}
    {next : α} (hordered : ordered = before ++ node :: after)
    (hnext : TransGen (DependsOn dependencies) node next) : next ∈ before := by
  induction hnext with
  | single hnext => exact hsorted before node after hordered hnext
  | @tail middle next _ hstep ih =>
    obtain ⟨first, last, rfl⟩ := append_of_mem ih
    rw [append_assoc, cons_append] at hordered
    exact mem_append_left _ (hsorted first middle _ hordered hstep)

theorem Sorted.not_reachesCycle (hsorted : Sorted dependencies ordered) (hnodup : ordered.Nodup)
    (hnode : node ∈ ordered) : ¬ ReachesCycle (DependsOn dependencies) node := by
  rintro ⟨other, hreaches, hcycle⟩
  have hother : other ∈ ordered := by
    obtain rfl | hlater := reflTransGen_iff_eq_or_transGen.mp hreaches
    · exact hnode
    · obtain ⟨before, after, rfl⟩ := append_of_mem hnode
      exact mem_append_left _ (hsorted.mem_of_transGen rfl hlater)
  obtain ⟨before, after, rfl⟩ := append_of_mem hother
  have hbefore := hsorted.mem_of_transGen rfl hcycle
  exact (disjoint_of_nodup_append hnodup) hbefore (.head _)

section Cycle

variable (hcycle : IsCycle dependencies source target chain)
include hcycle

theorem IsCycle.reaches_source (hnode : node ∈ chain) :
    ReflTransGen (DependsOn dependencies) node source := by
  obtain ⟨before, after, rfl⟩ := append_of_mem hnode
  refine relationReflTransGen_of_exists_isChain_cons after hcycle.follows.right_of_append ?_
  have hlast := hcycle.last
  rw [getLast?_append_of_ne_nil _ (cons_ne_nil _ _),
    getLast?_eq_getLast_of_ne_nil (cons_ne_nil _ _)] at hlast
  exact Option.some.inj hlast

theorem IsCycle.source_mem : source ∈ chain :=
  mem_of_getLast? hcycle.last

theorem IsCycle.target_mem : target ∈ chain :=
  mem_of_head? hcycle.head

theorem IsCycle.reachesCycle (hnode : node ∈ chain) : ReachesCycle (DependsOn dependencies) node :=
  ⟨source, hcycle.reaches_source hnode,
    .head' hcycle.closes (hcycle.reaches_source hcycle.target_mem)⟩

end Cycle

end Cycles

end TypeSearch.Order
