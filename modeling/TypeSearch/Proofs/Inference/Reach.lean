import TypeSearch.Inference.File
import TypeSearch.Proofs.Inference.Nodes
import TypeSearch.Proofs.Tree.Keys

/-!
# States that inference reaches

A file is inferred after those that were inferred before it, starting with what every file knows.
All that inference does to its state from then on is listed by `Reachable`. In every state that is
reached the scopes are well-formed and all types are proper.
-/

namespace TypeSearch

open List
open TypeSearch.Tree (Node Pattern Program Site)

/-! ### Where inference starts -/

namespace Prelude

theorem proper_binary {operand result : Ty} (hoperand : operand.Proper) (hresult : result.Proper) :
    (binary operand result).Proper := by
  simp [binary, hoperand, hresult]

theorem proper_monomorphic : ∀ binding ∈ monomorphic, binding.type.Proper := by
  have hnumber : Ty.number.Proper := .parametric nofun
  have hstring : Ty.string.Proper := .parametric nofun
  have hplus : (Ty.unionOf [binary .number .number, binary .string .string]).Proper := by
    refine Ty.proper_unionOf (cons_ne_nil _ _) ?_
    simp [proper_binary, hnumber, hstring]
  simp [monomorphic, hplus, proper_binary, hnumber, Ty.proper_boolean]

theorem proper_polymorphic : ∀ scheme ∈ polymorphic, ∀ a : Ty, a.Proper → (scheme.2 a).Proper := by
  have hnumber : Ty.number.Proper := .parametric nofun
  simp +contextual [polymorphic, proper_binary, hnumber, Ty.proper_boolean, Ty.proper_void]

theorem proper_bindings (fresher : Fresher) :
    ∀ binding ∈ (bindings fresher).1, binding.type.Proper := by
  refine forall_mem_append.mpr ⟨proper_monomorphic, fun binding hbinding => ?_⟩
  rw [← map_uncurry_zip_eq_zipWith] at hbinding
  obtain ⟨⟨scheme, v⟩, hpair, rfl⟩ := mem_map.mp hbinding
  exact proper_polymorphic scheme (of_mem_zip hpair).1 (.var v) (.var v)

end Prelude

namespace Inference

def State.start (path : String) (program : Program) (fresher : Fresher) : State where
  table := Table.ofFile path (some ⟨.program, path, program.span⟩) (Prelude.bindings fresher).1
  fresher := (Prelude.bindings fresher).2

theorem State.sound_start (path : String) (program : Program) (fresher : Fresher) :
    (State.start path program fresher).Sound where
  wellFormed := Table.wellFormed_ofFile _ _ _
  proper := Table.proper_ofFile _ _ (Prelude.proper_bindings fresher)
  types key type htype := by
    rw [State.start] at htype
    simp at htype

end Inference

theorem Tree.admits_of_ofText {path text : String} {program : Program}
    (hread : Program.ofText path text = .ok program) {orderly : Prop}
    (horderly : orderly → program.Orderly) :
    ∀ node ∈ program.expressions, node.Admits orderly := fun node hnode =>
  { formed := Program.forall_mem_expressions (Program.formed_of_ofText hread) node hnode
    placed := fun hplaced => Program.forall_mem_expressions (horderly hplaced) node hnode }

namespace TypedFile

variable {path : String} {program : Program} {dependencies : List String} {files : List TypedFile}
  {fresher next : Fresher} {file : TypedFile}

theorem infer_run (path : String) (program : Program) (dependencies : List String)
    (files : List TypedFile) (fresher : Fresher) :
    ∃ outcome after, Infer.units program.statements ⟨program, dependencies, files⟩
        (.start path program fresher) = (outcome, after) ∧
      ((∃ halt, outcome = .halted halt ∧
          infer path program dependencies files fresher = .error halt) ∨
        outcome = .ok () ∧ infer path program dependencies files fresher =
          .ok (⟨path, program, dependencies, after.table, after.types, after.issues⟩,
            after.fresher)) := by
  have hsure := Infer.sure_units program.statements ⟨program, dependencies, files⟩
    (.start path program fresher)
  unfold infer Inference.State.start at *
  generalize Prelude.bindings fresher = known at hsure ⊢
  obtain ⟨prelude, known⟩ := known
  dsimp only at hsure ⊢
  generalize Infer.units program.statements _ _ = run at hsure ⊢
  obtain ⟨_ | failure | halt, after⟩ := run
  · exact ⟨_, _, rfl, .inr ⟨rfl, rfl⟩⟩
  · exact absurd rfl (hsure failure)
  · exact ⟨_, _, rfl, .inl ⟨halt, rfl, rfl⟩⟩

inductive Inferred : List TypedFile → Prop
  | none : Inferred []
  | more {files : List TypedFile} {path text : String} {program : Program}
      {dependencies : List String} {fresher next : Fresher} {file : TypedFile}
      (hfiles : Inferred files) (hread : Program.ofText path text = .ok program)
      (hinfer : infer path program dependencies files fresher = .ok (file, next)) :
      Inferred (files ++ [file])

section Whole

variable {path text : String} {program : Program} {dependencies : List String}
  {files : List TypedFile} {fresher next : Fresher} {file : TypedFile}
  (hfiles : ∀ file ∈ files, file.table.Proper) (hread : Program.ofText path text = .ok program)
include hfiles hread

theorem fulfilled_units (dependencies : List String) (fresher : Fresher)
    {prospect : Inference.Prospect} (hissues : prospect.issues = 0)
    (horderly : prospect.orderly → program.Orderly) :
    Infer.Fulfilled prospect (.start path program fresher)
      (fun K _ => K → ∀ node ∈ program.statements, node.Covered prospect.typed)
      (Infer.units program.statements ⟨program, dependencies, files⟩
        (.start path program fresher)) :=
  Infer.fulfils_units (K := True) (fun node hnode => (Infer.goesOn node
    (Tree.admits_of_ofText hread horderly node (Program.mem_expressions hnode))).1)
    _ _ hfiles (Inference.State.sound_start path program fresher) (hissues.trans_le (Nat.zero_le _))
    fun _ => trivial

theorem ofTypes_of_infer {halt : Halt}
    (hinfer : infer path program dependencies files fresher = .error halt)
    (horderly : program.Orderly) : halt.OfTypes := by
  have hissues : (⟨fun _ => True, 0, True⟩ : Inference.Prospect).issues = 0 := rfl
  have hunits := fulfilled_units hfiles hread dependencies fresher hissues fun _ => horderly
  obtain ⟨outcome, after, hrun, ⟨cause, rfl, hhalted⟩ | ⟨rfl, hok⟩⟩ :=
    infer_run path program dependencies files fresher
  · rw [hrun] at hunits
    rw [hhalted] at hinfer
    cases hinfer
    exact hunits.2 trivial
  · rw [hok] at hinfer
    cases hinfer

theorem grows_of_infer
    (hinfer : infer path program dependencies files fresher = .ok (file, next)) :
    ∃ after : Inference.State, (Inference.State.start path program fresher).Grows after ∧
      file.table = after.table ∧ file.types = after.types ∧ file.issues = after.issues ∧
      (file.issues = [] → ∀ node ∈ program.statements, node.Covered (· ∈ file.types)) := by
  have hissues : (⟨(· ∈ file.types), 0, False⟩ : Inference.Prospect).issues = 0 := rfl
  have hunits := fulfilled_units hfiles hread dependencies fresher hissues False.elim
  obtain ⟨outcome, after, hrun, ⟨cause, rfl, hhalted⟩ | ⟨rfl, hok⟩⟩ :=
    infer_run path program dependencies files fresher
  · rw [hhalted] at hinfer
    cases hinfer
  · rw [hrun] at hunits
    rw [hok] at hinfer
    cases hinfer
    exact ⟨after, hunits.1, rfl, rfl, rfl, fun hclean =>
      hunits.2 ⟨(congrArg List.length hclean).le, fun _ hkey => hkey⟩⟩

end Whole

theorem Inferred.sound {files : List TypedFile} (hfiles : Inferred files) :
    ∀ file ∈ files, file.table.Proper := by
  induction hfiles with
  | none => exact nofun
  | more _ hread hinfer ih =>
    obtain ⟨after, hgrows, htable, -⟩ := grows_of_infer ih hread hinfer
    refine forall_mem_append.mpr ⟨ih, forall_mem_singleton.mpr ?_⟩
    rw [htable]
    exact hgrows.sound.proper

end TypedFile

/-! ### What is reached -/

namespace Inference

open Infer

variable {context : Context} {state : State}

/-- The states that the inference of a file is in: its first one, and what comes of opening and
leaving scopes, of declaring names and binding them, of taking variables, of writing down issues,
and of inferring nodes and units. -/
inductive Reachable (context : Context) : State → Prop
  | start (hfiles : TypedFile.Inferred context.files) (path : String) (fresher : Fresher) :
      Reachable context (.start path context.program fresher)
  | opened {state : State} (hstate : Reachable context state) (kind : Scope.Kind)
      (node : Option Tree.Locus) :
      Reachable context { state with table := state.table.enter kind node }
  | closed {state : State} (hstate : Reachable context state) {kinds : List Scope.Kind}
      {left : Table} (hleave : state.table.leave kinds = .ok left) :
      Reachable context { state with table := left }
  | merged {state : State} (hstate : Reachable context state) {left : Table}
      (hleave : state.table.leaveAbstraction = .ok left) :
      Reachable context { state with table := left }
  | marked {state : State} (hstate : Reachable context state) (flags : Flags) :
      Reachable context { state with table := state.table.markNext flags }
  | named {state : State} (hstate : Reachable context state) (p : Pattern) :
      Reachable context (templates p context state).2
  | bound {state : State} (hstate : Reachable context state) :
      Reachable context (bindPending context state).2
  | varied {state : State} (hstate : Reachable context state) (fresher : Fresher) :
      Reachable context { state with fresher }
  | reported {state : State} (hstate : Reachable context state) {issue : Issue}
      (hcode : issue.cause.code ≠ 0) :
      Reachable context { state with issues := state.issues ++ [issue] }
  | inferred {state : State} (hstate : Reachable context state) (classes : Classes) {node : Node}
      (hnode : node.AllFormed)
      (hends : ∀ cause, (statement classes node context state).1 ≠ .halted cause) :
      Reachable context (statement classes node context state).2
  | settled {state : State} (hstate : Reachable context state) {node : Node}
      (hnode : node.AllFormed)
      (hends : ∀ cause,
        (unit node.site (statement Classes.empty node) context state).1 ≠ .halted cause) :
      Reachable context (unit node.site (statement Classes.empty node) context state).2

def State.prospect (state : State) (orderly : Prop) : Prospect :=
  ⟨fun _ => True, state.issues.length, orderly⟩

theorem State.Sound.of_fulfils {α : Type} {post : Prop → α → Prop} {computation : Infer α}
    (hcontext : context.Sound) (hsound : state.Sound)
    (hfulfils : Fulfils (state.prospect False) True post computation)
    (hends : ∀ cause, (computation context state).1 ≠ .halted cause) :
    (computation context state).2.Sound := by
  have hrun := hfulfils context state hcontext hsound le_rfl fun _ => trivial
  generalize computation context state = run at hrun hends ⊢
  obtain ⟨value | failure | cause, after⟩ := run
  · exact hrun.1.sound
  · exact hrun.1.sound
  · exact absurd rfl (hends cause)

theorem State.Sound.leave (hsound : state.Sound) {kinds : List Scope.Kind} {left : Table}
    (hleave : state.table.leave kinds = .ok left) :
    State.Sound { state with table := left } := by
  have hwf := (hsound.wellFormed.leave hleave).1
  obtain ⟨outer, rest, -, rfl⟩ := Table.leave_eq_ok hleave
  obtain ⟨hscopes, hprelude, hdeclared⟩ := hsound.proper
  exact ⟨hwf, ⟨hscopes, hprelude, hdeclared⟩, hsound.types⟩

theorem State.Sound.leaveAbstraction (hsound : state.Sound) {merged : Table}
    (hleave : state.table.leaveAbstraction = .ok merged) :
    State.Sound { state with table := merged } := by
  rw [Table.leaveAbstraction] at hleave
  cases hleft : state.table.leave [.abstraction] with
  | error halt =>
    rw [hleft] at hleave
    cases hleave
  | ok left =>
    rw [hleft] at hleave
    have hmerge : left.mergeBody state.table.current = .ok merged := hleave
    obtain ⟨hwf, hlt⟩ := hsound.wellFormed.leave hleft
    have hframe := (hwf.frame_refl True).mergeBody hlt hmerge
    obtain ⟨body, -, rfl⟩ := Table.mergeBody_eq_ok hmerge
    exact ⟨hframe.wellFormed, (hsound.leave hleft).proper.mergeInto _ _, hsound.types⟩

theorem Reachable.sound_context (hreach : Reachable context state) : context.Sound := by
  induction hreach with
  | start hfiles => exact hfiles.sound
  | _ => assumption

theorem Reachable.sound (hreach : Reachable context state) : state.Sound := by
  have hcontext := hreach.sound_context
  induction hreach with
  | start _ path fresher => exact State.sound_start path _ fresher
  | opened _ kind node ih => exact ih.enter kind node
  | closed _ hleave ih => exact ih.leave hleave
  | merged _ hleave ih => exact ih.leaveAbstraction hleave
  | marked _ flags ih => exact ih.of_fulfils hcontext (fulfils_markNext flags) nofun
  | named _ p ih => exact ih.of_fulfils hcontext (fulfils_templates p) nofun
  | bound _ ih => exact ih.of_fulfils hcontext fulfils_bindPending nofun
  | varied _ fresher ih => exact (ih.grows_fresher fresher).sound
  | reported _ hcode ih => exact ih.of_fulfils hcontext (fulfils_report hcode) nofun
  | @inferred state _ classes node hnode hends ih =>
    have hstatement : Fulfils (state.prospect False) True
        (Stated (state.prospect False) False node) (statement classes node) :=
      fulfils_statement False.elim node ⟨hnode, False.elim⟩
    exact ih.of_fulfils hcontext hstatement hends
  | @settled state _ node hnode hends ih =>
    have hstatement : Fulfils (state.prospect False) True
        (Stated (state.prospect False) True node) (statement Classes.empty node) :=
      fulfils_statement (fun _ => Classes.proper_empty) node ⟨hnode, False.elim⟩
    exact ih.of_fulfils hcontext (hstatement.unit node.site) hends

end Inference

end TypeSearch
