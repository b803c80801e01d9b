import TypeSearch.Proofs.Classes.Transfer
import TypeSearch.Proofs.Inference.Meaning

/-!
# Local names

The typing rule for a body that uses a local name: the value of the name has the type of the name,
and the body is typed with it. What the rule says depends on the variables that occur in the types
of names only, and these were all given out before.
-/

namespace TypeSearch

open TypeSearch.Tree (Node)

/-! ### Variables that were given out -/

namespace Fresher

variable {fresher : Fresher} {count : Nat} {id : VarId}

def issued (fresher : Fresher) : Set VarId := {id | id.toNat ≤ fresher.last.toNat}

theorem not_mem_issued (hroom : fresher.last.toNat + count < 2 ^ 64)
    (hid : id ∈ fresher.upcoming count) : id ∉ fresher.issued :=
  fun hissued => absurd (mem_upcoming hroom hid).1 (Nat.not_lt.mpr hissued)

end Fresher

def Classes.Concerns (classes : Classes) (S : Set VarId) : Prop :=
  ∀ id t, classes.facts.find? id = some t → id ∈ S ∧ t.Over S

theorem Classes.Concerns.isLocal {classes : Classes} {S : Set VarId} (hwf : classes.WellFormed)
    (hconcerns : classes.Concerns S) : classes.Local S := by
  intro σ σ' heq hsolves
  rw [← hwf.solves_facts_iff] at hsolves ⊢
  intro id t hfind
  obtain ⟨hid, hover⟩ := hconcerns id t hfind
  rw [← heq hid, ← Ty.apply_congr fun other hother => heq (hover other hother)]
  exact hsolves id t hfind

def Table.Concerns (table : Table) (S : Set VarId) : Prop :=
  ∀ name binding, table.resolve name = some binding →
    ∀ id, binding.type.occurs id = true → id ∈ binding.quantified ∨ id ∈ S

theorem Table.Concerns.meaning_eq {table : Table} {S : Set VarId} (hconcerns : table.Concerns S)
    {σ σ' : VarId → Ty} (heq : Set.EqOn σ σ' S) : table.meaning σ = table.meaning σ' := by
  have happly : ∀ name binding, table.resolve name = some binding → ∀ guesses : List Ty,
      guesses.length = binding.quantified.length →
        binding.type.apply (override binding.quantified guesses σ) =
          binding.type.apply (override binding.quantified guesses σ') := by
    intro name binding hresolve guesses hlength
    refine Ty.apply_congr fun id hoccurs => ?_
    by_cases hquantified : id ∈ binding.quantified
    · exact override_of_mem hquantified hlength.symm _ _
    · rw [override_of_not_mem hquantified, override_of_not_mem hquantified]
      exact heq ((hconcerns name binding hresolve id hoccurs).resolve_left hquantified)
  funext name guesses t
  refine propext (exists_congr fun binding => and_congr_right fun hresolve =>
    and_congr_right fun hlength => ?_)
  rw [happly name binding hresolve guesses hlength]

/-! ### The rule -/

/-- A body that uses a local name has the type, for guesses of the types of the name, of its value
and of the body. -/
inductive HasLocal (uses : Uses) (name : String) (value body : Node) : (guesses : List Ty) → Ty →
    Prop
  | intro {bound u t : Ty} {first second : List Ty} (hvalue : HasType uses value first u)
      (hbound : u.same bound = true) (hbody : HasType (uses.bind [name] [bound]) body second t) :
      HasLocal uses name value body (bound :: (first ++ second)) t

section Plain

variable {names : Names} {uses : Uses} {name : String} {value body : Node} {arity count : Nat}
  {guesses first second : List Ty} {bound t : Ty}

theorem Plain.hasType_bind_iff (hplain : Plain (names.without name) value arity count)
    (bound : Ty) :
    HasType (uses.bind [name] [bound]) value guesses t ↔ HasType uses value guesses t := by
  have hother : ∀ other arity count, names.without name other arity count →
      (uses.bind [name] [bound]) other = uses other := by
    intro other arity count hname
    funext guesses t
    exact if_neg (by simpa using hname.1)
  constructor
  · refine hplain.mono fun other arity count hname guesses t hused => ?_
    rwa [hother other arity count hname] at hused
  · refine hplain.mono fun other arity count hname guesses t hused => ?_
    rwa [hother other arity count hname]

theorem Plain.hasLocal_iff (hplain : Plain names value arity count)
    (huses : ∀ name arity count, names name arity count →
      ∀ guesses t, uses name guesses t → guesses.length = count)
    (hlength : first.length = count) :
    HasLocal uses name value body (bound :: (first ++ second)) t ↔
      (∃ u, HasType uses value first u ∧ u.same bound = true) ∧
        HasType (uses.bind [name] [bound]) body second t := by
  constructor
  · intro hlocal
    generalize hall : bound :: (first ++ second) = all at hlocal
    cases hlocal with
    | intro hvalue hbound hbody =>
      obtain ⟨rfl, happend⟩ := List.cons_eq_cons.mp hall
      obtain ⟨rfl, rfl⟩ := List.append_inj happend
        (hlength.trans (hplain.length_guesses huses hvalue).symm)
      exact ⟨⟨_, hvalue, hbound⟩, hbody⟩
  · rintro ⟨⟨u, hvalue, hbound⟩, hbody⟩
    exact .intro hvalue hbound hbody

end Plain

end TypeSearch
