import TypeSearch.Proofs.Facts.Termination

/-!
# Facts over a history of requests

Facts start empty and change by requests: to record what a variable stands for, or to unify two
types. A request that fails leaves them as they are. Whatever the requests were, no variable leads
back to itself, so every variable is resolved, every type is reduced and the next request ends; and
what was known before a request is known after it.
-/

namespace TypeSearch.Facts

variable {facts next : Facts}

inductive Request where
  | add (v : Variable) (t : Ty)
  | unify (left right : Ty)
  deriving Repr

def perform (facts : Facts) : Request → Outcome Mismatch Facts
  | .add v t => facts.add v t
  | .unify left right => do
    let (_, next) ← Facts.unify left right facts
    return next

def after (facts : Facts) (request : Request) : Facts :=
  match facts.perform request with
  | .ok next => next
  | _ => facts

def history (requests : List Request) : Facts := requests.foldl after empty

theorem acyclic_empty : empty.Acyclic := by
  intro v hcycle
  obtain ⟨w, ⟨t, hfind, -⟩, -⟩ := Relation.TransGen.head'_iff.mp hcycle
  cases hfind

theorem Acyclic.add_ends (hacyclic : facts.Acyclic) (v : Variable) (t : Ty) :
    (facts.add v t).Ends fun next => Grows Set.univ facts next := by
  obtain ⟨s, hs⟩ := hacyclic.exists_resolve (ε := Mismatch) v
  have hresolves := resolves_of_resolve hs
  rw [add, hs, Outcome.bind_ok]
  split
  · rename_i free
    refine Outcome.Settles.mono (hacyclic.bind_ends (hresolves.find?_eq_none rfl) t) False.elim
      (fun _ => trivial) fun next hbind _ => ?_
    exact grows_of_bind (fun _ _ _ _ _ _ => Set.mem_univ _) (Set.mem_univ _)
      (fun _ _ => Set.mem_univ _) hbind
  · exact (hacyclic.unify_ends s t).bind fun result _ hgrows => hgrows

theorem Acyclic.perform_ends (hacyclic : facts.Acyclic) (request : Request) :
    (facts.perform request).Ends fun next => Grows Set.univ facts next := by
  cases request with
  | add v t => exact hacyclic.add_ends v t
  | unify left right =>
    exact (hacyclic.unify_ends left right).bind fun result _ hgrows => hgrows

theorem Acyclic.grows_after (hacyclic : facts.Acyclic) (request : Request) :
    Grows Set.univ facts (facts.after request) := by
  have hends := hacyclic.perform_ends request
  unfold after
  split
  · rename_i next hnext
    rwa [hnext] at hends
  · exact .refl

theorem acyclic_history (requests : List Request) : (history requests).Acyclic :=
  List.foldlRecOn _ _ acyclic_empty fun _ hacyclic request _ =>
    (hacyclic.grows_after request).acyclic hacyclic

theorem history_concat (requests : List Request) (request : Request) :
    history (requests ++ [request]) = (history requests).after request := by
  simp [history]

/-- **Facts stay acyclic and only grow.** After any history of requests, no variable with a fact is
reached from the type it stands for, every variable is resolved within the steps allowed, every type
is reduced, and a further request is answered or refused, keeping all that was known. -/
theorem history_acyclic_and_extends (requests : List Request) :
    (history requests).Acyclic ∧
      (∀ v, ∃ t, (history requests).resolveWithin ((history requests).size + 1) v = some t) ∧
      (∀ t, ∃ r, (history requests).reduce t = (.ok r : Outcome Mismatch Ty)) ∧
      ∀ request,
        (∀ cause, (history requests).perform request ≠ .halted cause) ∧
        ∀ v t, (history requests).find? v = some t →
          (history (requests ++ [request])).find? v = some t := by
  have hacyclic := acyclic_history requests
  refine ⟨hacyclic, fun v => ?_, hacyclic.exists_reduce, fun request => ⟨?_, fun v t hfind => ?_⟩⟩
  · exact hacyclic.exists_resolveWithin fun hfact => hacyclic.rank_lt_size hfact
  · exact (hacyclic.perform_ends request).ne_halted
  · rw [history_concat]
    exact (hacyclic.grows_after request).find?_eq_some hfind

end TypeSearch.Facts
