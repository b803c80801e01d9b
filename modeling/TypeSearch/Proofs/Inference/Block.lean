import TypeSearch.Proofs.Inference.Abstraction
import TypeSearch.Proofs.Inference.LocalName

/-!
# Blocks with a local name

A block that gives a name the type of a value and then uses it. If nothing is reported, the name is
new in the block and both statements have succeeded, so the answer of the block stands for all that
fits: the typing rule for a local name is what the block requires.
-/

namespace TypeSearch

open Inference List
open Classes (FirstOrderGraph)
open TypeSearch.Tree (Fragment Node Pattern Site)

variable {middle : State}

/-! ### Names of a block -/

namespace Table

variable {table : Table} {name : String} {fresher : Fresher}

theorem WellFormed.resolveAmong_enterBlock (hwf : table.WellFormed)
    (node other : Option Tree.Locus) (name : String) :
    (table.enterBlock node).resolveAmong (table.enterBlock node).ownScopes name =
      (table.enterBlock other).resolveAmong (table.enterBlock other).ownScopes name := by
  have hown : ∀ node, (table.enterBlock node).ownScopes =
      (if table.currentScope.kind = .abstraction then 1 else 0) + 1 := by
    intro node
    rw [ownScopes, enterBlock, currentScope_enter]
    split <;> rfl
  rw [hown, hown, enterBlock, enterBlock, hwf.resolveAmong_enter, hwf.resolveAmong_enter]

theorem canExport_enterBlock (table : Table) (node : Option Tree.Locus) :
    (table.enterBlock node).canExport = false := by
  rw [canExport, enterBlock, currentScope_enter]
  dsimp only
  split <;> rfl

theorem WellFormed.new_of_templates (hwf : table.WellFormed) {site : Site}
    (hexport : table.canExport = false)
    (hissues : (table.templates (.identifier ⟨site, name, none⟩) fresher).2.1 = []) :
    table.resolveAmong table.ownScopes name = none ∧ table.next.exported = false := by
  have hframe : Frame False table { table with next := {} } :=
    hwf.frame_marked {} _
  have hblankExport : { table with next := {} }.canExport = false := hexport
  have hissues := (append_eq_nil_iff.mp hissues).1
  dsimp only at hissues
  split at hissues
  · cases hissues
  · rename_i hduplicate
    have hnew := Option.map_eq_none_iff.mp hduplicate
    refine ⟨(hframe.resolveAmong_eq hwf _ name).symm.trans hnew, ?_⟩
    dsimp only at hissues
    rw [hblankExport, Bool.not_false, Bool.and_true] at hissues
    split at hissues
    · cases hissues
    · rename_i hmarks
      exact Bool.eq_false_iff.mpr hmarks

end Table

/-! ### Runs without an issue -/

theorem Inference.State.Grows.issues_eq {state after : State} (hfirst : state.Grows middle)
    (hsecond : middle.Grows after) (hissues : after.issues = state.issues) :
    middle.issues = state.issues := by
  obtain ⟨new, hnew, -⟩ := hfirst.issues
  obtain ⟨newer, hnewer, -⟩ := hsecond.issues
  rw [hnewer, hnew, append_assoc, append_right_eq_self, append_eq_nil_iff] at hissues
  rw [hnew, hissues.1, append_nil]

namespace Infer

variable {context : Context} {state after inside : State} {classes : Classes} {α : Type}
  {computation : Infer α} {value : α} {block stmt named : Site} {nodes : List Node}
  {answers before : Answers} {node body : Node} {result : Statement} {names : Names} {count : Nat}
  {outer : Table} {name : String} {a : Answer Typed} {template : Template}

theorem inBlock_eq_ok {node : Tree.Locus}
    (hrun : inBlock node computation context state = (.ok value, after)) :
    ∃ middle, computation context { state with table := state.table.enterBlock node } =
        (.ok value, middle) ∧ middle.issues = after.issues := by
  obtain ⟨middle, hmiddle, hexit⟩ := thenAlways_eq_ok hrun
  obtain ⟨left, -, rfl⟩ := tryTable_eq_ok hexit
  exact ⟨middle, hmiddle, rfl⟩

theorem answersOf_block (block : Site) (nodes : List Node) (classes : Classes) (context : Context)
    (state : State) : answersOf (statement classes (.block block nodes)) context state =
      inBlock ⟨.block, state.table.file, block.span⟩
        (sequence classes block (leaf block .void classes) nodes) context state := by
  have hlocus : locus .block block context state =
      (.ok ⟨.block, state.table.file, block.span⟩, state) := rfl
  rw [statement, answersOf_asExpression, bind_of_ok hlocus]

theorem exists_inBlock {locus : Tree.Locus} {inner : Infer Answers} (hcontext : context.Sound)
    (hsound : state.Sound) (hadmits : node.Admits True)
    (hinside : answersOf (statement classes node) context state =
      inBlock locus inner context state)
    (hrun : inner context { state with table := state.table.enterBlock locus } =
      (.ok answers, middle)) :
    ∃ last, answersOf (statement classes node) context state = (.ok answers, last) ∧
      last.issues = middle.issues := by
  have hfulfilled := fulfilled_answers hadmits hcontext hsound classes
  rw [hinside] at hfulfilled ⊢
  have hsure : Sure (do
      bindPending
      tryTable (·.leaveBlock)) := sure_bindPending.bind fun _ => sure_tryTable
  obtain ⟨last, hexit⟩ := exists_exit hrun hfulfilled trivial hsure
    fun _ _ hhalted => leave_ofScopes (tryTable_of_halted hhalted)
  obtain ⟨left, -, rfl⟩ := tryTable_eq_ok hexit
  exact ⟨_, thenAlways_of_ok hrun hexit, rfl⟩

theorem not_allows_of_failed {failure : Failure} (hcontext : context.Sound) (hsound : state.Sound)
    (hnode : node.Admits True)
    (hrun : statement classes node context state = (.failed failure, after)) :
    state.Grows after ∧ ¬(state.prospect True).Allows after := by
  have hfulfils : Fulfils (state.prospect True) True (Stated (state.prospect True) False node)
      (statement classes node) := fulfils_statement False.elim node hnode
  have hrun' := hfulfils context state hcontext hsound le_rfl fun _ => trivial
  rw [hrun] at hrun'
  exact ⟨hrun'.1, hrun'.2.2⟩

theorem sequence_cons_of_quiet {done : List Node} (hcontext : context.Sound) (hsound : state.Sound)
    (hbefore : before.Fit False True (ShowsStatements (fun _ => True) block done))
    (hnode : node.Admits True) (hnodes : ∀ other ∈ nodes, other.Admits True)
    (hrun : sequence classes block before (node :: nodes) context state = (.ok answers, after))
    (hissues : after.issues = state.issues) :
    ∃ result middle extended last,
      statement (known before classes) node context state = (.ok result, middle) ∧
      middle.issues = state.issues ∧
      extend block node.site nodes.isEmpty before result context middle = (.ok extended, last) ∧
      sequence classes block extended nodes context last = (.ok answers, after) := by
  let prospect := state.prospect True
  have hgoes : ∀ other ∈ nodes, GoesOn prospect other :=
    fun other hother => (goesOn other (hnodes other hother)).1
  rw [sequence, knownAfter_bind] at hrun
  obtain ⟨found, middle, hattempt, hrest⟩ := bind_eq_ok hrun
  rcases attempt_eq_ok hattempt with ⟨result, rfl, hresult⟩ | ⟨failure, rfl, hfailed⟩
  · have hstatement : Fulfils prospect True (Stated prospect False node)
        (statement (known before classes) node) := fulfils_statement False.elim node hnode
    have hfirst := hstatement context state hcontext hsound le_rfl fun _ => trivial
    rw [hresult] at hfirst
    have hrests : Fulfils prospect (prospect.Allows middle)
        (fun K' => Disjunction.Fit False K'
          (ShowsStatements prospect.typed block (done ++ [node] ++ nodes)))
        (extend block node.site nodes.isEmpty before result >>= fun extended =>
          sequence classes block extended nodes) :=
      (fulfils_extend (hbefore.restrict fun _ => trivial) hfirst.2).bind fun _ extended _ hfit =>
        fulfils_sequence False.elim (done ++ [node]) hfit hgoes
    have hlater := hrests context middle hcontext hfirst.1.sound hfirst.1.length_le id
    dsimp only at hrest
    rw [hrest] at hlater
    obtain ⟨extended, last, hextend, hsequence⟩ := bind_eq_ok hrest
    exact ⟨result, middle, extended, last, hresult, hfirst.1.issues_eq hlater.1 hissues, hextend,
      hsequence⟩
  · obtain ⟨hgrows, hnot⟩ := not_allows_of_failed hcontext hsound hnode hfailed
    dsimp only at hrest
    split at hrest
    · cases hrest
    · have hsequence : Fulfils prospect True _ (sequence classes block before nodes) :=
        fulfils_sequence False.elim done hbefore hgoes
      have hlater := hsequence context middle hcontext hgrows.sound hgrows.length_le
        fun _ => trivial
      rw [hrest] at hlater
      refine absurd ⟨?_, fun _ _ => trivial⟩ hnot
      exact (congrArg List.length (hgrows.issues_eq hlater.1 hissues)).le

theorem sequence_cons_of_ok {extended : Answers} {last : State}
    (hstatement : statement (known before classes) node context state = (.ok result, middle))
    (hextend : extend block node.site nodes.isEmpty before result context
      middle = (.ok extended, last)) :
    sequence classes block before (node :: nodes) context state =
      sequence classes block extended nodes context last := by
  have hattempt : attempt (statement (known before classes) node) context state =
      (.ok (.ok result), middle) := by rw [attempt, hstatement]
  rw [sequence, knownAfter_bind, bind_of_ok hattempt]
  exact bind_of_ok hextend

theorem sequence_one_eq_ok
    (hrun : sequence classes block before [node] context state = (.ok answers, after)) :
    ∃ result middle,
      statement (known before classes) node context state = (.ok result, middle) ∧
      extend block node.site true before result context middle = (.ok answers, after) := by
  rw [sequence, knownAfter_bind] at hrun
  obtain ⟨found, middle, hattempt, hrest⟩ := bind_eq_ok hrun
  rcases attempt_eq_ok hattempt with ⟨result, rfl, hresult⟩ | ⟨failure, rfl, -⟩
  · obtain ⟨extended, last, hextend, hlast⟩ := bind_eq_ok hrest
    rw [sequence] at hlast
    obtain ⟨rfl, rfl⟩ := pure_eq_ok hlast
    exact ⟨result, middle, hresult, hextend⟩
  · cases hrest

theorem isExpression_of_plain {arity : Nat} (hplain : Plain names node arity count)
    (hrun : statement classes node context state = (.ok result, after)) :
    result.isExpression = true := by
  cases hplain with
  | literal value =>
    rw [statement] at hrun
    obtain ⟨rfl, -⟩ := pure_eq_ok hrun
    rfl
  | identifier _ _ | list _ _ _ | tuple _ _ _ | map _ _ _ | conditional _ _ _ _
  | application _ _ _ | abstraction _ _ _ _ _ _ =>
    rw [statement] at hrun
    obtain ⟨answers, middle, -, hlast⟩ := bind_eq_ok hrun
    obtain ⟨rfl, -⟩ := pure_eq_ok hlast
    rfl

/-! ### What is known after the statements of a block -/

def Knows (solves : (VarId → Ty) → Prop) (answers : Answers) : Prop :=
  ∃ a, answers = ⟨[a]⟩ ∧ a.graph = some a.classes ∧ FirstOrderGraph a.classes ∧
    ∀ σ, a.classes.Solves σ ↔ solves σ

section Statements

variable {a b : Answer Typed} {site block : Site} {name : String}

theorem decided_assignment (hgraph : FirstOrderGraph a.classes) (htype : a.type.FirstOrder)
    (template : Template) (site named : Site) (name : String) (isFunction : Bool) :
    Decided (∃ σ, a.classes.Solves σ ∧ Ty.Agree σ (.var template.var) a.type)
      (fun result after => after = state ∧
        Knows (fun σ => a.classes.Solves σ ∧ Ty.Agree σ (.var template.var) a.type) result.answers)
      (assignment site (.identifier ⟨named, name, none⟩) [template] isFunction ⟨[a]⟩
        context state) := by
  refine (Decided.reportingAt (Decided.search ?_) site).bind
    (fun _ _ hpost => decided_of_ok rfl hpost) id
  rw [assign]
  simp only [bind_assoc, pure_bind]
  refine (decided_equate hgraph (.var _) htype).bind (fun graph after hpost => ?_) id
  obtain ⟨rfl, hlast, hsolves⟩ := hpost
  exact decided_of_ok rfl ⟨rfl, _, rfl, rfl, hlast, hsolves⟩

theorem decided_extend (ha : a.graph = some a.classes) (hb : b.graph = some b.classes)
    (hfirst : FirstOrderGraph a.classes) (hsecond : FirstOrderGraph b.classes) (block stmt : Site)
    (isLast : Bool) (hresult : result.answers = ⟨[b]⟩) :
    Decided (∃ σ, a.classes.Solves σ ∧ b.classes.Solves σ)
      (fun answers after => after = state ∧ ∃ c, answers = ⟨[c]⟩ ∧ c.graph = some c.classes ∧
        FirstOrderGraph c.classes ∧
        c.type = (if isLast && result.isExpression then b.type else .void) ∧
        ∀ σ, c.classes.Solves σ ↔ a.classes.Solves σ ∧ b.classes.Solves σ)
      (extend block stmt isLast ⟨[a]⟩ result context state) := by
  refine Decided.reportingAt ?_ stmt
  rw [hresult]
  refine decided_merge ha hb hfirst hsecond id fun built hbuilt hsolves => ?_
  exact decided_of_ok rfl ⟨rfl, _, rfl, rfl, hbuilt, rfl, hsolves⟩

end Statements

/-- The state after a name was added to the scope that is open, with the next variable. -/
structure Named (outer : Table) (name : String) (state named : State) : Prop where
  opens : outer.Opens named.table [name] [state.fresher.last + 1]
  unmarked : named.table.next.exported = false
  sound : named.Sound
  fresher : named.fresher = state.fresher.skip 1
  issues : named.issues = state.issues

theorem assignment_of_quiet {value : Node} (hcontext : context.Sound) (hsound : state.Sound)
    (hopens : outer.Opens state.table [] []) (hexport : state.table.canExport = false)
    (hvalue : value.Admits True)
    (hrun : statement classes (.assignment stmt (.identifier ⟨named, name, none⟩) value false)
      context state = (.ok result, after)) (hissues : after.issues = state.issues) :
    state.table.resolveAmong state.table.ownScopes name = none ∧
      state.table.next.exported = false ∧
      ∃ template inside values middle, template.var.id = state.fresher.last + 1 ∧
        Named outer name state inside ∧
        answersOf (statement classes value) context inside = (.ok values, middle) ∧
        assignment stmt (.identifier ⟨named, name, none⟩) [template] (isFunction value) values
          context middle = (.ok result, after) := by
  rw [statement] at hrun
  obtain ⟨found, inside, hnames, hrest⟩ := bind_eq_ok hrun
  have htemplates : templates (.identifier ⟨named, name, none⟩) context state =
      (.ok found, inside) := hnames
  let prospect := state.prospect True
  have hnamed : Fulfils prospect True (fun _ _ => True)
      (templates (.identifier ⟨named, name, none⟩)) := fulfils_templates _
  have hfirst := hnamed context state hcontext hsound le_rfl fun _ => trivial
  rw [htemplates] at hfirst
  have hrests : Fulfils prospect True
      (fun K' result => Typings prospect False
        (.assignment stmt (.identifier ⟨named, name, none⟩) value false) K' result.answers)
      (answersOf (statement classes value) >>= fun values =>
        assignment stmt (.identifier ⟨named, name, none⟩) found (isFunction value) values) :=
    (fulfils_statement False.elim value hvalue).answersOf.bind fun _ values _ hvalues =>
      fulfils_assignment false found _ hvalues
  have hlater := hrests context inside hcontext hfirst.1.sound hfirst.1.length_le fun _ => trivial
  rw [hrest] at hlater
  have hquiet := hfirst.1.issues_eq hlater.1 hissues
  have hreported : state.issues ++ (state.table.templates (.identifier ⟨named, name, none⟩)
      state.fresher).2.1 = inside.issues := congrArg (fun run => run.2.issues) htemplates
  rw [hquiet, append_right_eq_self] at hreported
  obtain ⟨hnew, hunmarked⟩ := hsound.wellFormed.new_of_templates hexport hreported
  obtain ⟨inner, template, htemplate, hid, hinner, -, hmarks⟩ :=
    templates_run state hopens hnew hunmarked named context
  cases htemplate.symm.trans htemplates
  obtain ⟨values, middle, hvalues, hassign⟩ := bind_eq_ok hrest
  exact ⟨hnew, hunmarked, template, _, values, middle, hid,
    ⟨hinner, hmarks, hfirst.1.sound, rfl, rfl⟩, hvalues, hassign⟩

section Named

variable {names : Names} {outer : Table} {name : String} {named middle : State} {count : Nat}
  {value : Node}

section Named

variable (hnamed : Named outer name state named)

include hnamed

theorem Named.meaning_eq (σ : VarId → Ty) :
    named.table.meaning σ = (outer.meaning σ).bind [name] [σ (state.fresher.last + 1)] :=
  hnamed.opens.meaning_eq σ

theorem Named.ready_without (hcontext : context.Sound) :
    named.Ready (outer.names.without name) context := by
  refine ⟨hcontext, hnamed.sound, hnamed.unmarked, fun other arity count hother => ?_⟩
  rw [Table.names, hnamed.opens.resolve_of_not_mem (by simpa using hother.1)]
  exact hother.2

theorem Named.ready_bind (hcontext : context.Sound) :
    named.Ready (outer.names.bind [name]) context :=
  ⟨hcontext, hnamed.sound, hnamed.unmarked, fun _ _ _ => hnamed.opens.names_of_bind⟩

theorem Named.fits_iff
    (hvalue : Plain (names.without name) value 0 count) (σ : VarId → Ty) (u : Ty) :
    Fits classes named value count σ u ↔ classes.Solves σ ∧
      HasType (outer.meaning σ) value (((state.fresher.skip 1).upcoming count).map σ) u := by
  rw [Fits, hnamed.meaning_eq, hnamed.fresher, hvalue.hasType_bind_iff]

theorem Named.agree_iff
    (hvalue : Plain (names.without name) value 0 count)
    (ha : Exactly 0 (Fits classes named value count) a) {v : Variable}
    (hv : v.id = state.fresher.last + 1) (σ : VarId → Ty) :
    (a.classes.Solves σ ∧ Ty.Agree σ (.var v) a.type) ↔ classes.Solves σ ∧
      ∃ u, HasType (outer.meaning σ) value (((state.fresher.skip 1).upcoming count).map σ) u ∧
        u.same (σ (state.fresher.last + 1)) = true := by
  have hfits : ∀ u, Fits classes named value count σ u ↔ _ := hnamed.fits_iff hvalue σ
  rw [← hv]
  constructor
  · rintro ⟨hsolves, hagree⟩
    obtain ⟨hbase, htype⟩ := (hfits _).mp ((ha.fits_iff σ _).mpr ⟨hsolves, Ty.same_refl _⟩)
    exact ⟨hbase, _, htype, Ty.same_symm hagree⟩
  · rintro ⟨hbase, u, htype, hsame⟩
    obtain ⟨hsolves, hu⟩ := (ha.fits_iff σ u).mp ((hfits u).mpr ⟨hbase, htype⟩)
    exact ⟨hsolves, Ty.same_trans (Ty.same_symm hsame) hu⟩

end Named

end Named

/-- The graph is solved, and the body has the type with the name for the value, if the values of the
variables that are taken next are guessed. -/
def FitsLocal (classes : Classes) (state : State) (name : String) (value body : Node) (count : Nat)
    (σ : VarId → Ty) (t : Ty) : Prop :=
  classes.Solves σ ∧
    HasLocal (state.table.meaning σ) name value body ((state.fresher.upcoming count).map σ) t

theorem fitsLocal_iff {value : Node} {guessed : Nat}
    (hvalue : Plain (state.table.names.without name) value 0 guessed) (more : Nat) (σ : VarId → Ty)
    (t : Ty) :
    FitsLocal classes state name value body (1 + (guessed + more)) σ t ↔
      classes.Solves σ ∧
        (∃ u, HasType (state.table.meaning σ) value
            (((state.fresher.skip 1).upcoming guessed).map σ) u ∧
          u.same (σ (state.fresher.last + 1)) = true) ∧
        HasType ((state.table.meaning σ).bind [name] [σ (state.fresher.last + 1)]) body
          ((((state.fresher.skip 1).skip guessed).upcoming more).map σ) t := by
  have hguesses : (state.fresher.upcoming (1 + (guessed + more))).map σ =
      σ (state.fresher.last + 1) :: (((state.fresher.skip 1).upcoming guessed).map σ ++
        (((state.fresher.skip 1).skip guessed).upcoming more).map σ) := by
    rw [upcoming_map_add, upcoming_map_add]
    rfl
  have hlength : (((state.fresher.skip 1).upcoming guessed).map σ).length = guessed := by
    rw [length_map, Fresher.length_upcoming]
  rw [FitsLocal, hguesses, hvalue.hasLocal_iff ?_ hlength]
  exact fun other arity count hother _ _ => Table.length_of_meaning hother.2

theorem decided_statement (hgraph : FirstOrderGraph classes) (hready : state.Ready names context)
    (hplain : Plain names node 0 count) :
    Decided (∃ σ t, Fits classes state node count σ t)
      (fun result after => state.Advances count after ∧ result.isExpression = true ∧
        Single 0 (Fits classes state node count) result.answers)
      (statement classes node context state) := by
  rcases exact_plain hplain hgraph hready with
    ⟨answers, after, hrun, hadvances, hsingle⟩ | ⟨hnever, hnone⟩
  · obtain ⟨result, last, hstatement, hpure⟩ := bind_eq_ok hrun
    obtain ⟨rfl, rfl⟩ := pure_eq_ok hpure
    exact decided_of_ok hstatement ⟨hadvances, isExpression_of_plain hplain hstatement, hsingle⟩
  · exact .inr ⟨fun result after hrun => hnever _ _ (bind_of_ok hrun), hnone⟩

theorem decided_last (ha : a.graph = some a.classes) (hgraph : FirstOrderGraph a.classes)
    (hready : state.Ready names context) (hplain : Plain names node 0 count) (block : Site) :
    Decided (∃ σ t, Fits a.classes state node count σ t)
      (fun answers after => after.issues = state.issues ∧
        Single 0 (Fits a.classes state node count) answers)
      ((do
        let found ← statement a.classes node
        extend block node.site true ⟨[a]⟩ found) context state) := by
  refine (decided_statement hgraph hready hplain).bind (fun found middle hpost => ?_) id
  obtain ⟨hadvances, hexpression, b, hfound, hb⟩ := hpost
  have hboth : ∀ σ t, Fits a.classes state node count σ t ↔
      (a.classes.Solves σ ∧ b.classes.Solves σ) ∧ t.same (b.type.apply σ) = true := by
    intro σ t
    rw [and_assoc, ← hb.fits_iff]
    exact (and_iff_right_of_imp And.left).symm
  refine (decided_extend ha hb.graph_eq hgraph hb.firstOrderGraph block _ _ hfound).mono ?_ ?_
  · rintro ⟨σ, t, hfits⟩
    exact ⟨σ, ((hboth σ t).mp hfits).1⟩
  · rintro answers after ⟨rfl, c, rfl, hcgraph, hc, htype, hsolves⟩
    rw [hexpression] at htype
    have hctype : c.type = b.type := htype
    refine ⟨hadvances.issues, c, rfl, hcgraph, hc, hctype ▸ hb.firstOrder, trivial, fun σ t => ?_⟩
    rw [hboth, hsolves, hctype]

def afterName (block stmt named : Site) (name : String) (template : Template) (value body : Node)
    (classes : Classes) : Infer Answers := do
  let values ← answersOf (statement classes value)
  let result ← assignment stmt (.identifier ⟨named, name, none⟩) [template] (isFunction value)
    values
  let extended ← extend block stmt false (leaf block .void classes) result
  let found ← statement (known extended classes) body
  extend block body.site true extended found

theorem exists_named (hcontext : context.Sound) (hsound : state.Sound)
    (hopens : outer.Opens state.table [] [])
    (hnew : state.table.resolveAmong state.table.ownScopes name = none)
    (hunmarked : state.table.next.exported = false) (named : Site) :
    ∃ template inside, templates (.identifier ⟨named, name, none⟩) context state =
        (.ok [template], inside) ∧ template.var.id = state.fresher.last + 1 ∧
      Named outer name state inside := by
  obtain ⟨inner, template, hrun, hid, hinner, -, hmarks⟩ :=
    templates_run state hopens hnew hunmarked named context
  have hinside := hsound.of_fulfils hcontext
    (fulfils_templates (.identifier ⟨named, name, none⟩)) nofun
  rw [hrun] at hinside
  exact ⟨template, _, hrun, hid, hinner, hmarks, hinside, rfl, rfl⟩

theorem sequence_of_afterName {value : Node}
    (htemplates : templates (.identifier ⟨named, name, none⟩) context state =
      (.ok [template], inside))
    (hafter : afterName block stmt named name template value body classes context inside =
      (.ok answers, after)) :
    sequence classes block (leaf block .void classes)
      [.assignment stmt (.identifier ⟨named, name, none⟩) value false, body] context state =
        (.ok answers, after) := by
  obtain ⟨values, first, hvalues, hafter⟩ := bind_eq_ok hafter
  obtain ⟨result, second, hassign, hafter⟩ := bind_eq_ok hafter
  obtain ⟨extended, third, hextend, hafter⟩ := bind_eq_ok hafter
  obtain ⟨found, fourth, hstatement, hextended⟩ := bind_eq_ok hafter
  have hknown : known (leaf block .void classes) classes = classes := rfl
  have hassignment : statement (known (leaf block .void classes) classes)
      (.assignment stmt (.identifier ⟨named, name, none⟩) value false) context state =
        (.ok result, second) := by
    rw [hknown, statement]
    exact (bind_of_ok htemplates).trans ((bind_of_ok hvalues).trans hassign)
  have hfirst : sequence classes block (leaf block .void classes)
      [.assignment stmt (.identifier ⟨named, name, none⟩) value false, body] context state =
        sequence classes block extended [body] context third :=
    sequence_cons_of_ok hassignment hextend
  have hsecond : sequence classes block extended [body] context third =
      sequence classes block answers [] context after := sequence_cons_of_ok hstatement hextended
  rw [hfirst, hsecond, sequence]
  rfl

section Local

variable {name : String} {value body : Node} {guessed more : Nat}
  (hvalue : Plain (state.table.names.without name) value 0 guessed)
  (hbody : Plain (state.table.names.bind [name]) body 0 more)
include hvalue hbody

theorem decided_afterName {entered : State} (hcontext : context.Sound)
    (hgraph : FirstOrderGraph classes) (hnamed : Named state.table name entered inside)
    (hentered : entered.fresher = state.fresher) (hid : template.var.id = state.fresher.last + 1)
    (block stmt named : Site) :
    Decided (∃ σ t, FitsLocal classes state name value body (1 + (guessed + more)) σ t)
      (fun answers after => after.issues = inside.issues ∧
        Single 0 (FitsLocal classes state name value body (1 + (guessed + more))) answers)
      (afterName block stmt named name template value body classes context inside) := by
  have hlocal : ∀ σ t, FitsLocal classes state name value body (1 + (guessed + more)) σ t ↔ _ :=
    fitsLocal_iff hvalue more
  simp only [← hentered] at hid hlocal
  -- the value, and then the name with its type
  refine (exact_plain hvalue hgraph (hnamed.ready_without hcontext)).bind
    (fun values middle hpost => ?_) ?_
  · obtain ⟨hadvances, a, rfl, ha⟩ := hpost
    have hagree : ∀ σ, _ ↔ _ := hnamed.agree_iff hvalue ha hid
    refine (decided_assignment ha.firstOrderGraph ha.firstOrder template stmt named name _).bind
      (fun result first hpost => ?_) ?_
    · obtain ⟨rfl, b, hresult, hbgraph, hb, hbsolves⟩ := hpost
      refine (decided_extend (a := answer block .void [] classes) rfl hbgraph hgraph hb block _ _
        hresult).bind (fun extended second hpost => ?_) ?_
      · obtain ⟨rfl, c, rfl, hcgraph, hc, -, hcsolves⟩ := hpost
        have hknown : ∀ σ, c.classes.Solves σ ↔ _ := fun σ => (hcsolves σ).trans
          ((and_congr_right fun _ => (hbsolves σ).trans (hagree σ)).trans
            (and_iff_right_of_imp And.left))
        -- the body, which knows the type of the name
        have hsame : FitsLocal classes state name value body (1 + (guessed + more)) =
            Fits c.classes second body more := by
          funext σ t
          rw [hlocal, Fits, hknown, and_assoc, hadvances.meaning_eq hnamed.sound.wellFormed,
            hnamed.meaning_eq, hadvances.fresher, hnamed.fresher]
        rw [hsame, ← hadvances.issues]
        exact decided_last hcgraph hc ((hnamed.ready_bind hcontext).advance hadvances) hbody block
      · rintro ⟨σ, t, hfits⟩
        obtain ⟨hsolves, hbound, -⟩ := (hlocal σ t).mp hfits
        exact ⟨σ, hsolves, (hbsolves σ).mpr ((hagree σ).mpr ⟨hsolves, hbound⟩)⟩
    · rintro ⟨σ, t, hfits⟩
      obtain ⟨hsolves, hbound, -⟩ := (hlocal σ t).mp hfits
      exact ⟨σ, (hagree σ).mpr ⟨hsolves, hbound⟩⟩
  · rintro ⟨σ, t, hfits⟩
    obtain ⟨hsolves, ⟨u, htype, -⟩, -⟩ := (hlocal σ t).mp hfits
    exact ⟨σ, u, (hnamed.fits_iff hvalue σ u).mpr ⟨hsolves, htype⟩⟩

omit hbody in
theorem admits_assignment (stmt named : Site) : Node.Admits True
    (.assignment stmt (.identifier ⟨named, name, none⟩) value false) :=
  Tree.Node.admits_of_parts trivial id (forall_mem_singleton.mpr (hvalue.admits True))

theorem block_of_quiet (hcontext : context.Sound) (hsound : state.Sound)
    (hgraph : FirstOrderGraph classes)
    (hrun : answersOf (statement classes (.block block
      [.assignment stmt (.identifier ⟨named, name, none⟩) value false, body])) context state =
        (.ok answers, after)) (hissues : after.issues = state.issues) :
    (∀ node, (state.table.enterBlock node).resolveAmong (state.table.enterBlock node).ownScopes
      name = none) ∧ state.table.next.exported = false ∧
      Single 0 (FitsLocal classes state name value body (1 + (guessed + more))) answers := by
  let node : Tree.Locus := ⟨.block, state.table.file, block.span⟩
  rw [answersOf_block] at hrun
  obtain ⟨last, hsequence, hlast⟩ := inBlock_eq_ok hrun
  have hstart : (leaf block .void classes).Fit False True
      (ShowsStatements (state.prospect True).typed block []) := fit_start False.elim block
  have hopens := Table.opens_enter hsound.wellFormed
    (if state.table.currentScope.kind = .abstraction then .body else .block) (some node)
  obtain ⟨result, first, extended, second, hassignment, hquiet, hextend, hrest⟩ :=
    sequence_cons_of_quiet hcontext (hsound.enter _ _) hstart (admits_assignment hvalue stmt named)
      (forall_mem_singleton.mpr (hbody.admits True)) hsequence (hlast.trans hissues)
  obtain ⟨hnew, hunmarked, template, inside, values, middle, hid, hnamed, hvalues, hassign⟩ :=
    assignment_of_quiet hcontext (hsound.enter _ _) hopens
      (Table.canExport_enterBlock state.table (some node)) (hvalue.admits True) hassignment hquiet
  obtain ⟨found, third, hstatement, hextended⟩ := sequence_one_eq_ok hrest
  have hafter : afterName block stmt named name template value body classes context inside =
      (.ok answers, last) :=
    (bind_of_ok hvalues).trans ((bind_of_ok hassign).trans ((bind_of_ok hextend).trans
      ((bind_of_ok hstatement).trans hextended)))
  refine ⟨fun other => (hsound.wellFormed.resolveAmong_enterBlock other _ name).trans hnew,
    hunmarked, ?_⟩
  exact ((decided_afterName hvalue hbody hcontext hgraph hnamed rfl hid block stmt named).run
    hafter).2

theorem block_of_fits (hcontext : context.Sound) (hsound : state.Sound)
    (hunmarked : state.table.next.exported = false) (hgraph : FirstOrderGraph classes)
    (hnew : ∀ node, (state.table.enterBlock node).resolveAmong
      (state.table.enterBlock node).ownScopes name = none)
    (hfits : ∃ σ t, FitsLocal classes state name value body (1 + (guessed + more)) σ t)
    (block stmt named : Site) :
    ∃ answers after, answersOf (statement classes (.block block
      [.assignment stmt (.identifier ⟨named, name, none⟩) value false, body])) context state =
        (.ok answers, after) ∧ after.issues = state.issues := by
  have hnamed := exists_named hcontext (hsound.enter _ _) (Table.opens_enter hsound.wellFormed _ _)
    (hnew (some ⟨.block, state.table.file, block.span⟩)) hunmarked named
  obtain ⟨template, inside, htemplates, hid, hnamed⟩ := hnamed
  obtain ⟨answers, last, hafter, hquiet, -⟩ :=
    (decided_afterName hvalue hbody hcontext hgraph hnamed rfl hid block stmt named).exists hfits
  have hadmits : Node.Admits True (.block block
      [.assignment stmt (.identifier ⟨named, name, none⟩) value false, body]) :=
    Tree.Node.admits_of_parts trivial id (forall_mem_cons.mpr
      ⟨admits_assignment hvalue stmt named, forall_mem_singleton.mpr (hbody.admits True)⟩)
  obtain ⟨final, hrun, hissues⟩ := exists_inBlock hcontext hsound hadmits
    (answersOf_block ..) (sequence_of_afterName htemplates hafter)
  exact ⟨answers, final, hrun, hissues.trans (hquiet.trans hnamed.issues)⟩

end Local

end Infer

end TypeSearch
