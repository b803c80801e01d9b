import TypeSearch.Proofs.Classes.Forest

/-!
# What the concrete types of classes lead to

A class refers to another when its concrete type mentions a variable of it. Classes are acyclic when
no class refers to itself, directly or through others; this is acyclicity of their facts. The search
that `occursInClass` makes, round by round from the classes a type mentions, finds a class exactly
when the type leads to it.
-/

namespace TypeSearch.Classes

open List Relation

variable {classes : Classes} {id goal : VarId} {t : Ty}

def Refers (classes : Classes) (id other : VarId) : Prop :=
  ∃ t w, classes.concrete? id = some t ∧ t.occurs w = true ∧ classes.root w = other

/-- No class has a concrete type that leads back to the class. -/
def Acyclic (classes : Classes) : Prop := ∀ id, ¬ TransGen classes.Refers id id

/-- A type mentions the class of `goal`, directly or through the concrete types of classes. -/
def Reaches (classes : Classes) (t : Ty) (goal : VarId) : Prop :=
  ∃ w, t.occurs w = true ∧ ReflTransGen classes.Refers (classes.root w) goal

theorem transGen_of_reaches (hconcrete : classes.concrete? id = some t)
    (hreaches : classes.Reaches t goal) : TransGen classes.Refers id goal := by
  obtain ⟨w, hw, hpath⟩ := hreaches
  exact TransGen.head' ⟨t, w, hconcrete, hw, rfl⟩ hpath

section AsFacts

variable {v w : VarId}

section WellFormed

variable (hwf : classes.WellFormed)

include hwf

theorem WellFormed.mentions_iff :
    classes.facts.Mentions v w ↔
      (classes.root v ≠ v ∧ w = classes.root v) ∨
        ∃ t, classes.concrete? v = some t ∧ t.occurs w = true := by
  unfold Facts.Mentions
  simp only [hwf.find?_facts, fact?]
  by_cases hroot : classes.root v = v
  · simp [hroot]
  · have hnone : ∀ t, classes.concrete? v ≠ some t := fun t ht => hroot (hwf.root_of_concrete? ht)
    simp only [hroot, if_false, Option.some.injEq, exists_eq_left', Ty.occurs_var_iff,
      hwf.variableAt_id, ne_eq, not_false_eq_true, true_and, hnone, false_and, exists_false,
      or_false]
    exact eq_comm

theorem WellFormed.reflTransGen_root (v : VarId) :
    ReflTransGen classes.facts.Mentions v (classes.root v) := by
  by_cases hroot : classes.root v = v
  · rw [hroot]
  · exact .single (hwf.mentions_iff.mpr (.inl ⟨hroot, rfl⟩))

theorem WellFormed.transGen_of_refers (hrefers : classes.Refers v w) :
    TransGen classes.facts.Mentions v w := by
  obtain ⟨t, x, hconcrete, hx, rfl⟩ := hrefers
  exact TransGen.head' (hwf.mentions_iff.mpr (.inr ⟨t, hconcrete, hx⟩)) (hwf.reflTransGen_root x)

theorem WellFormed.reflTransGen_of_refers
    (hpath : ReflTransGen classes.Refers v w) : ReflTransGen classes.facts.Mentions v w := by
  induction hpath with
  | refl => exact .refl
  | tail _ hrefers ih => exact ih.trans (hwf.transGen_of_refers hrefers).to_reflTransGen

theorem WellFormed.transGen_refers
    (hpath : TransGen classes.facts.Mentions v w) :
    (v ≠ w ∧ w = classes.root v) ∨ TransGen classes.Refers (classes.root v) (classes.root w) := by
  induction hpath with
  | single hstep =>
    rcases hwf.mentions_iff.mp hstep with ⟨hroot, rfl⟩ | ⟨t, hconcrete, hoccurs⟩
    · exact .inl ⟨fun heq => hroot heq.symm, rfl⟩
    · rw [hwf.root_of_concrete? hconcrete]
      exact .inr (.single ⟨t, _, hconcrete, hoccurs, rfl⟩)
  | tail _ hstep ih =>
    rcases hwf.mentions_iff.mp hstep with ⟨hroot, rfl⟩ | ⟨t, hconcrete, hoccurs⟩
    · rcases ih with ⟨-, rfl⟩ | hpath
      · exact absurd (hwf.root_root v) hroot
      · rw [hwf.root_root]
        exact .inr hpath
    · have hrefers : classes.Refers _ _ := ⟨t, _, hconcrete, hoccurs, rfl⟩
      rcases ih with ⟨-, rfl⟩ | hpath
      · exact .inr (.single hrefers)
      · rw [hwf.root_of_concrete? hconcrete] at hpath
        exact .inr (hpath.tail hrefers)

theorem WellFormed.acyclic_facts_iff : classes.facts.Acyclic ↔ classes.Acyclic := by
  constructor
  · exact fun hacyclic v hpath =>
      hacyclic v (TransGen.closed (fun _ _ => hwf.transGen_of_refers) v v hpath)
  · intro hacyclic v hpath
    rcases hwf.transGen_refers hpath with ⟨hne, -⟩ | hpath
    · exact hne rfl
    · exact hacyclic _ hpath

theorem WellFormed.leads_iff (hgoal : classes.root goal = goal) :
    classes.facts.Leads t goal ↔ classes.Reaches t goal := by
  constructor
  · rintro ⟨w, hw, hpath⟩
    refine ⟨w, hw, ?_⟩
    rcases reflTransGen_iff_eq_or_transGen.mp hpath with rfl | hpath
    · rw [hgoal]
    · rcases hwf.transGen_refers hpath with ⟨-, rfl⟩ | hpath
      · exact .refl
      · rw [hgoal] at hpath
        exact hpath.to_reflTransGen
  · rintro ⟨w, hw, hpath⟩
    exact ⟨w, hw, (hwf.reflTransGen_root w).trans (hwf.reflTransGen_of_refers hpath)⟩

end WellFormed

end AsFacts

section Search

variable {frontier seen : List VarId} {rounds : Nat} {root : VarId}

theorem mem_mentioned_iff :
    id ∈ classes.mentioned t ↔
      ∃ w, t.occurs w = true ∧ classes.has w = true ∧ classes.root w = id := by
  simp only [mentioned, mem_map, mem_filter, ← Ty.mem_freeVariables_iff]
  constructor
  · rintro ⟨v, ⟨hv, hhas⟩, hroot⟩
    exact ⟨v.id, ⟨v, hv, rfl⟩, hhas, hroot⟩
  · rintro ⟨w, ⟨v, hv, rfl⟩, hhas, hroot⟩
    exact ⟨v, ⟨hv, hhas⟩, hroot⟩

def nextRound (classes : Classes) (frontier seen : List VarId) : List VarId :=
  (frontier.flatMap fun root =>
    ((classes.concrete? root).map classes.mentioned).getD []).eraseDups.filter (!seen.contains ·)

theorem mem_nextRound_iff :
    id ∈ classes.nextRound frontier seen ↔
      (∃ root ∈ frontier, ∃ t w, classes.concrete? root = some t ∧ t.occurs w = true ∧
        classes.has w = true ∧ classes.root w = id) ∧ id ∉ seen := by
  simp only [nextRound, mem_filter, mem_eraseDups, mem_flatMap,
    Bool.not_eq_true', ← Bool.not_eq_true, contains_iff_mem]
  refine and_congr_left fun _ => exists_congr fun root => and_congr_right fun _ => ?_
  cases hconcrete : classes.concrete? root with
  | none => simp
  | some t => simp [mem_mentioned_iff]

theorem reaches_succ (rounds : Nat) (frontier seen : List VarId) :
    classes.reaches goal (rounds + 1) frontier seen =
      (frontier.contains goal || (!(classes.nextRound frontier seen).isEmpty &&
        classes.reaches goal rounds (classes.nextRound frontier seen)
          (classes.nextRound frontier seen ++ seen))) := rfl

theorem exists_path_of_reaches (hreaches : classes.reaches goal rounds frontier seen = true) :
    ∃ root ∈ frontier, ReflTransGen classes.Refers root goal := by
  induction rounds generalizing frontier seen with
  | zero => cases hreaches
  | succ rounds ih =>
    rw [reaches_succ, Bool.or_eq_true, Bool.and_eq_true] at hreaches
    rcases hreaches with hfound | ⟨-, hrest⟩
    · exact ⟨goal, contains_iff_mem.mp hfound, .refl⟩
    · obtain ⟨other, hother, hpath⟩ := ih hrest
      obtain ⟨⟨root, hroot, t, w, hconcrete, hw, -, rfl⟩, -⟩ := mem_nextRound_iff.mp hother
      exact ⟨root, hroot, .head ⟨t, w, hconcrete, hw, rfl⟩ hpath⟩

/-- What the search knows after some rounds: all classes it saw but the newest have been looked
through, and the goal is not among those. -/
structure Searched (classes : Classes) (goal : VarId) (frontier seen : List VarId) : Prop where
  frontier_subset : frontier ⊆ seen
  has : ∀ id ∈ seen, classes.has id = true
  closed : ∀ id ∈ seen, id ∉ frontier → ∀ other, classes.Refers id other →
    classes.has other = true → other ∈ seen
  missing : goal ∈ seen → goal ∈ frontier

theorem has_of_path (hgoal : classes.has goal = true)
    (hpath : ReflTransGen classes.Refers id goal) : classes.has id = true := by
  rcases ReflTransGen.cases_head hpath with rfl | ⟨other, ⟨t, w, hconcrete, -, -⟩, -⟩
  · exact hgoal
  · exact has_of_concrete hconcrete

section Search

variable (hwf : classes.WellFormed)
include hwf

/-- One round of the search keeps a way to the goal open. -/
theorem Searched.exists_nextRound (hsearched : Searched classes goal frontier seen)
    (hgoal : classes.has goal = true) (hunseen : goal ∉ seen) (hroot : root ∈ seen)
    (hpath : ReflTransGen classes.Refers root goal) :
    ∃ other ∈ classes.nextRound frontier seen, ReflTransGen classes.Refers other goal := by
  induction hpath using ReflTransGen.head_induction_on with
  | refl => exact absurd hroot hunseen
  | head hrefers hrest ih =>
    rename_i here there
    by_cases hthere : there ∈ seen
    · exact ih hthere
    · have hhas := has_of_path hgoal hrest
      have hfrontier : here ∈ frontier := by
        by_contra hold
        exact hthere (hsearched.closed here hroot hold there hrefers hhas)
      obtain ⟨t, w, hconcrete, hw, rfl⟩ := hrefers
      refine ⟨_, mem_nextRound_iff.mpr ⟨?_, hthere⟩, hrest⟩
      exact ⟨here, hfrontier, t, w, hconcrete, hw, hwf.has_root_iff.mp hhas, rfl⟩

theorem Searched.next (hsearched : Searched classes goal frontier seen) (hunseen : goal ∉ seen) :
    Searched classes goal (classes.nextRound frontier seen)
      (classes.nextRound frontier seen ++ seen) := by
  refine ⟨subset_append_left _ _, ?_, ?_, ?_⟩
  · intro id hid
    rcases mem_append.mp hid with hid | hid
    · obtain ⟨⟨-, -, -, w, -, -, hhas, rfl⟩, -⟩ := mem_nextRound_iff.mp hid
      exact hwf.has_root_iff.mpr hhas
    · exact hsearched.has id hid
  · intro id hid hold other hrefers hhas
    rw [mem_append]
    by_cases hother : other ∈ seen
    · exact .inr hother
    · by_cases hfrontier : id ∈ frontier
      · obtain ⟨t, w, hconcrete, hw, rfl⟩ := hrefers
        refine .inl (mem_nextRound_iff.mpr ⟨?_, hother⟩)
        exact ⟨id, hfrontier, t, w, hconcrete, hw, hwf.has_root_iff.mp hhas, rfl⟩
      · have hseen := (mem_append.mp hid).resolve_left hold
        exact absurd (hsearched.closed id hseen hfrontier other hrefers hhas) hother
  · intro hmem
    exact (mem_append.mp hmem).resolve_right hunseen

theorem card_seen_le (hhas : ∀ id ∈ seen, classes.has id = true) :
    seen.toFinset.card ≤ classes.order.size := by
  have hsubset : seen.toFinset ⊆ classes.order.toList.toFinset := by
    intro id hid
    rw [mem_toFinset] at hid ⊢
    exact (hwf.mem_order_iff id).mpr (hhas id hid)
  calc seen.toFinset.card ≤ classes.order.toList.toFinset.card := Finset.card_le_card hsubset
    _ ≤ classes.order.toList.length := toFinset_card_le _
    _ = classes.order.size := Array.length_toList

theorem Searched.reaches (hsearched : Searched classes goal frontier seen)
    (hgoal : classes.has goal = true) (hrounds : classes.order.size < rounds + seen.toFinset.card)
    (hroot : root ∈ frontier) (hpath : ReflTransGen classes.Refers root goal) :
    classes.reaches goal rounds frontier seen = true := by
  induction rounds generalizing frontier seen root with
  | zero =>
    have hle := card_seen_le hwf hsearched.has
    omega
  | succ rounds ih =>
    rw [reaches_succ, Bool.or_eq_true, Bool.and_eq_true]
    by_cases hfound : goal ∈ frontier
    · exact .inl (contains_iff_mem.mpr hfound)
    · right
      have hunseen : goal ∉ seen := fun hseen => hfound (hsearched.missing hseen)
      obtain ⟨other, hother, hrest⟩ := hsearched.exists_nextRound hwf hgoal hunseen
        (hsearched.frontier_subset hroot) hpath
      -- each round sees a class anew, so the rounds do not run out before the path does
      have hcard : seen.toFinset.card <
          (classes.nextRound frontier seen ++ seen).toFinset.card := by
        refine Finset.card_lt_card ⟨?_, fun hsubset => ?_⟩
        · intro id hid
          rw [mem_toFinset] at hid ⊢
          exact mem_append_right _ hid
        · have hmem := hsubset (mem_toFinset.mpr (mem_append_left seen hother))
          exact (mem_nextRound_iff.mp hother).2 (mem_toFinset.mp hmem)
      refine ⟨?_, ih (hsearched.next hwf hunseen) (by omega) hother hrest⟩
      cases hnext : classes.nextRound frontier seen with
      | nil => simp [hnext] at hother
      | cons => rfl

theorem WellFormed.occursInClass_iff (hgoal : classes.has goal = true) :
    classes.occursInClass goal t = true ↔ classes.Reaches t goal := by
  unfold occursInClass
  constructor
  · intro hreaches
    obtain ⟨root, hroot, hpath⟩ := exists_path_of_reaches hreaches
    obtain ⟨w, hw, -, rfl⟩ := mem_mentioned_iff.mp (mem_eraseDups.mp hroot)
    exact ⟨w, hw, hpath⟩
  · rintro ⟨w, hw, hpath⟩
    have hhas := hwf.has_root_iff.mp (has_of_path hgoal hpath)
    have hroot : classes.root w ∈ (classes.mentioned t).eraseDups :=
      mem_eraseDups.mpr (mem_mentioned_iff.mpr ⟨w, hw, hhas, rfl⟩)
    refine Searched.reaches hwf ⟨Subset.refl _, ?_, ?_, fun hmem => hmem⟩ hgoal (by omega)
      hroot hpath
    · intro id hid
      obtain ⟨x, -, hx, rfl⟩ := mem_mentioned_iff.mp (mem_eraseDups.mp hid)
      exact hwf.has_root_iff.mpr hx
    · exact fun id hid hold => absurd hid hold

end Search

end Search

end TypeSearch.Classes
