import Mathlib.Data.List.Forall2
import TypeSearch.Outcome

/-!
# Reasoning about outcomes

From a successful sequence of computations to its parts, and `Settles`: what an answer, a failure
and a halt of a computation mean. Two ways to use it have names: `Ends`, a computation never halts,
and `Answers`, which says what an answer or a failure means but not that there is one. `Meets` looks
at the failures and halts themselves: the only halts that it allows are those that types bring
about.
-/

namespace TypeSearch

namespace Halt

/-- A scope cannot be left as what it should be, or a function does not hold one body. -/
def OfScopes : Halt → Prop
  | leavingOther _ _ _ | leavingRoot | mergingNested _ _ _ => True
  | _ => False

/-- Facts that run in a circle or an expansion that does not end; on the way out, scopes may be
found open. Any other halt is a fault of the computation and not of the types that it works on. -/
def OfTypes : Halt → Prop
  | endless | cyclicFacts _ => True
  | during first last => first.OfTypes ∧ last.OfScopes
  | _ => False

end Halt

theorem exists_of_any {ε α : Type} {result : Except ε α} {test : α → Bool}
    (htest : result.toOption.any test = true) :
    ∃ value, result = .ok value ∧ test value = true := by
  cases result with
  | error error => cases htest
  | ok value => exact ⟨value, rfl, htest⟩

end TypeSearch

namespace TypeSearch.Outcome

variable {ε α β : Type} {f : α → Outcome ε β} {items : List α}

theorem bind_eq_ok {outcome : Outcome ε α} {next : α → Outcome ε β} {result : β}
    (hbind : (outcome >>= next) = .ok result) :
    ∃ value, outcome = .ok value ∧ next value = .ok result := by
  cases outcome with
  | ok value => exact ⟨value, rfl, hbind⟩
  | failed error | halted cause => cases hbind

theorem bind_eq_failed {outcome : Outcome ε α} {next : α → Outcome ε β} {error : ε}
    (hbind : (outcome >>= next) = .failed error) :
    outcome = .failed error ∨ ∃ value, outcome = .ok value ∧ next value = .failed error := by
  cases outcome with
  | ok value => exact .inr ⟨value, rfl, hbind⟩
  | failed error' =>
    cases hbind
    exact .inl rfl
  | halted cause => cases hbind

theorem bind_eq_halted {outcome : Outcome ε α} {next : α → Outcome ε β} {cause : Halt}
    (hbind : (outcome >>= next) = .halted cause) :
    outcome = .halted cause ∨ ∃ value, outcome = .ok value ∧ next value = .halted cause := by
  cases outcome with
  | ok value => exact .inr ⟨value, rfl, hbind⟩
  | failed error => cases hbind
  | halted cause' =>
    cases hbind
    exact .inl rfl

theorem failed_of_bind_pure {outcome : Outcome ε α} {f : α → β} {error : ε}
    (hbind : (outcome >>= fun value => pure (f value)) = .failed error) :
    outcome = .failed error := by
  cases outcome <;> cases hbind
  rfl

theorem halted_of_bind_pure {outcome : Outcome ε α} {f : α → β} {cause : Halt}
    (hbind : (outcome >>= fun value => pure (f value)) = .halted cause) :
    outcome = .halted cause := by
  cases outcome <;> cases hbind
  rfl

instance : LawfulMonad (Outcome ε) :=
  LawfulMonad.mk' _ (fun outcome => by cases outcome <;> rfl) (fun _ _ => rfl)
    (fun outcome _ _ => by cases outcome <;> rfl)

theorem forall₂_of_mapM {values : List β}
    (hmap : items.mapM f = .ok values) :
    List.Forall₂ (fun item value => f item = .ok value) items values := by
  induction items generalizing values with
  | nil =>
    cases hmap
    exact .nil
  | cons item items ih =>
    rw [List.mapM_cons] at hmap
    obtain ⟨value, hvalue, hmore⟩ := bind_eq_ok hmap
    obtain ⟨rest, hrest, hlast⟩ := bind_eq_ok hmore
    cases hlast
    exact .cons hvalue (ih hrest)

theorem mapM_of_forall₂ {values : List β}
    (hall : List.Forall₂ (fun item value => f item = .ok value) items values) :
    items.mapM f = .ok values := by
  induction hall with
  | nil => rfl
  | cons hhead _ ih => simp [List.mapM_cons, hhead, ih, pure]

theorem bind_ne_failed {outcome : Outcome ε α} {next : α → Outcome ε β} {error : ε}
    (hfirst : outcome ≠ .failed error) (hnext : ∀ value, next value ≠ .failed error) :
    (outcome >>= next) ≠ .failed error := by
  intro hbind
  rcases bind_eq_failed hbind with hfailed | ⟨value, -, hlast⟩
  · exact hfirst hfailed
  · exact hnext value hlast

theorem mapM_ne_failed {error : ε} (hf : ∀ item ∈ items, f item ≠ .failed error) :
    items.mapM f ≠ .failed error := by
  induction items with
  | nil => exact nofun
  | cons item items ih =>
    rw [List.forall_mem_cons] at hf
    rw [List.mapM_cons]
    exact bind_ne_failed hf.1 fun _ => bind_ne_failed (ih hf.2) fun _ => nofun

theorem foldlM_ne_failed {f : β → α → Outcome ε β} {error : ε} {start : β}
    (hf : ∀ value item, f value item ≠ .failed error) : items.foldlM f start ≠ .failed error := by
  induction items generalizing start with
  | nil => exact nofun
  | cons item items ih => exact bind_ne_failed (hf start item) fun _ => ih

/-- An answer has the property `post`, a failure means `refused`, and a halt means `halts`. -/
def Settles (halts : Prop) (post : α → Prop) (refused : Prop) : Outcome ε α → Prop
  | .ok value => post value
  | .failed _ => refused
  | .halted _ => halts

variable {halts halts' refused refused' : Prop} {post post' : α → Prop} {later : β → Prop}
  {outcome : Outcome ε α} {next : α → Outcome ε β}

theorem Settles.bind (hsettles : outcome.Settles halts post refused) (hhalts : halts → halts')
    (hrefused : refused → refused')
    (hnext : ∀ value, outcome = .ok value → post value →
      (next value).Settles halts' later refused') :
    (outcome >>= next).Settles halts' later refused' := by
  cases outcome with
  | ok value => exact hnext value rfl hsettles
  | failed error => exact hrefused hsettles
  | halted cause => exact hhalts hsettles

theorem Settles.mono (hsettles : outcome.Settles halts post refused) (hhalts : halts → halts')
    (hrefused : refused → refused')
    (himp : ∀ value, outcome = .ok value → post value → post' value) :
    outcome.Settles halts' post' refused' := by
  cases outcome with
  | ok value => exact himp value rfl hsettles
  | failed error => exact hrefused hsettles
  | halted cause => exact hhalts hsettles

/-- The computation ends in a failure or in a value of which `post` holds. -/
def Ends (post : α → Prop) (outcome : Outcome ε α) : Prop := outcome.Settles False post True

theorem Ends.bind (hends : outcome.Ends post)
    (hnext : ∀ value, outcome = .ok value → post value → (next value).Ends later) :
    (outcome >>= next).Ends later :=
  Settles.bind hends False.elim (fun _ => trivial) hnext

theorem Ends.ne_halted (hends : outcome.Ends post) (cause : Halt) : outcome ≠ .halted cause := by
  rintro rfl
  exact hends

/-- If the computation ends, it ends in a value of which `post` holds, or in a failure and then
`refused` holds. -/
def Answers (post : α → Prop) (refused : Prop) (outcome : Outcome ε α) : Prop :=
  outcome.Settles True post refused

theorem Answers.bind (hanswers : outcome.Answers post refused) (hrefused : refused → refused')
    (hnext : ∀ value, post value → (next value).Answers later refused') :
    (outcome >>= next).Answers later refused' :=
  Settles.bind hanswers (fun _ => trivial) hrefused fun value _ => hnext value

theorem Answers.mono (hanswers : outcome.Answers post refused) (hrefused : refused → refused')
    (himp : ∀ value, post value → post' value) : outcome.Answers post' refused' :=
  Settles.mono hanswers (fun _ => trivial) hrefused fun value _ => himp value

/-- An answer has the property `post`, a failure the property `fails`, and a halt comes from
types. -/
def Meets (post : α → Prop) (fails : ε → Prop) : Outcome ε α → Prop
  | .ok value => post value
  | .failed error => fails error
  | .halted cause => cause.OfTypes

variable {fails fails' : ε → Prop}

section Meets

variable (hmeets : outcome.Meets post fails)
include hmeets

theorem Meets.ok {value : α} (hok : outcome = .ok value) : post value := by
  rw [hok] at hmeets
  exact hmeets

theorem Meets.halted {cause : Halt} (hhalts : outcome = .halted cause) : cause.OfTypes := by
  rw [hhalts] at hmeets
  exact hmeets

theorem Meets.bind (hnext : ∀ value, post value → (next value).Meets later fails) :
    (outcome >>= next).Meets later fails := by
  cases outcome with
  | ok value => exact hnext value hmeets
  | failed error | halted cause => exact hmeets

theorem Meets.mono (himp : ∀ value, post value → post' value)
    (hfails : ∀ error, fails error → fails' error) : outcome.Meets post' fails' := by
  cases outcome with
  | ok value => exact himp value hmeets
  | failed error => exact hfails error hmeets
  | halted cause => exact hmeets

theorem Meets.imp (himp : ∀ value, post value → post' value) : outcome.Meets post' fails :=
  hmeets.mono himp fun _ => id

end Meets

theorem meets_mapM
    (hf : ∀ item ∈ items, (f item).Meets later fails) :
    (items.mapM f).Meets
      (fun values => values.length = items.length ∧ ∀ value ∈ values, later value) fails := by
  induction items with
  | nil => exact ⟨rfl, nofun⟩
  | cons item items ih =>
    rw [List.forall_mem_cons] at hf
    rw [List.mapM_cons]
    refine hf.1.bind fun value hvalue => (ih hf.2).bind ?_
    rintro values ⟨hlength, hvalues⟩
    exact ⟨congrArg (· + 1) hlength, List.forall_mem_cons.mpr ⟨hvalue, hvalues⟩⟩

end TypeSearch.Outcome

namespace TypeSearch.Ty

variable {ε : Type} {types : List Ty}

theorem function_of_ne_nil (hne : types ≠ []) :
    (function types : Outcome ε Ty) = .ok (curried types) :=
  if_neg (by simpa using hne)

theorem function_concat (types : List Ty) (result : Ty) :
    (function (types ++ [result]) : Outcome ε Ty) = .ok (curried (types ++ [result])) :=
  function_of_ne_nil (by simp)

theorem anyOf_of_ne_nil (hne : types ≠ []) : (anyOf types : Outcome ε Ty) = .ok (unionOf types) :=
  if_neg (by simpa using hne)

end TypeSearch.Ty
