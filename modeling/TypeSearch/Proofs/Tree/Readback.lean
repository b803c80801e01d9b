import TypeSearch.Proofs.Tree.Fields

/-!
# Reading trees back

A tree that was written as its form is decoded to the same tree, up to where its nodes are. Only the
digits of numbers need care: they are read from the field `value`, and a key that is no field loses
them.
-/

namespace TypeSearch.Tree

open List
open Node (bare bareAll_eq form formAll_eq placed_iff)
open Yaml (Form Written Fits Record)

variable {origin : Origin} {key : String}

section Nodes

variable {digits name : String} {depth : Nat} {n function value target body condition yes : Node}
  {site : Site} {exported : Bool} {elements : List Node} {clauses : List (List Pattern × Node)}

theorem nodeBack_of {kind : Kind} {fields : List (String × Form)}
    {rest : Yaml.Mark → List (Yaml.Node × Yaml.Node) → Fields × Kind × Span → Decode Node}
    (hform : n.form key = nodeForm kind fields) (hfits : FitsAll fields)
    (hrest : ∀ {mark entries span}, n.Placed → ∀ record,
      Opened Fields.schema (("kind", .text kind.name) :: fields) depth record →
      Gives (fun found => found.bare id = n.bare (kept key))
        (rest mark entries (Fields.ofRecord record, kind, span)))
    (hnames : ("pos" :: "kind" :: fields.map (·.1)).Nodup := by simp)
    (hdecode : ∀ mark entries, nodeWithin origin (depth + 1) (.mapping mark entries) =
      decodeFields origin (.mapping mark entries) >>= rest mark entries := by
        intros; unfold nodeWithin; rfl) :
    NodeBack origin key (depth + 1) n := by
  intro node hplaced hdepth hwritten
  rw [hform] at hdepth hwritten
  obtain ⟨mark, entries, rfl⟩ := exists_mapping hwritten
  rw [hdecode]
  exact gives_decodeFields ⟨hnames, hfits⟩ hwritten hdepth (hrest hplaced)

/-! ### Literals -/

section Digits

variable (hkey : key = "value" ∨ Fields.schema.lookup key = none)
include hkey

theorem wellNamed_digits : WellNamed [(key, .text digits)] := by
  rcases hkey with rfl | hkey
  · exact ⟨by simp, .cons .node .nil⟩
  · have hne : ∀ {name}, Fields.schema.lookup name ≠ none → name ≠ key :=
      fun hname heq => hname (heq ▸ hkey)
    have hpos : "pos" ≠ key := hne (by decide)
    have hkind : "kind" ≠ key := hne (by decide)
    exact ⟨by simp [hpos, hkind], .cons (.unknown hkey) .nil⟩

theorem digits_eq {record : Record} {form : Form}
    (hhas : record.Has Fields.schema [("kind", form), (key, .text digits)]) :
    ((Fields.ofRecord record).value.map Yaml.Node.text).getD "" = kept key digits := by
  change ((record.node? "value").map _).getD "" = _
  rcases hkey with rfl | hkey
  · obtain ⟨child, hchild, hwritten⟩ := hhas.node?_eq (.tail _ (.head _)) rfl (by decide)
    cases hwritten
    rw [hchild, kept, if_pos rfl]
    rfl
  · have hne : key ≠ "value" := by
      rintro rfl
      cases hkey
    rw [hhas.node?_absent (by simp [hne.symm]), kept, if_neg hne]
    rfl

theorem nodeBack_literal (value : Literal) :
    NodeBack origin key (depth + 1) (Node.literal value) := by
  cases value with
  | number site digits =>
    have hnamed : WellNamed [(key, .text digits)] := wellNamed_digits hkey
    refine nodeBack_of (by rw [form, Literal.form]) hnamed.fits
      (fun _ record hopened => ?_) hnamed.names
    refine gives_atSite fun site => gives_pure ?_
    rw [digits_eq hkey hopened.has]
    rfl
  | string site text =>
    refine nodeBack_of (by rw [form, Literal.form]) (.cons .node .nil)
      fun _ record hopened => ?_
    refine gives_atSite fun site => gives_pure ?_
    rw [digits_eq (.inl rfl) hopened.has]
    rfl
  | boolean site value =>
    refine nodeBack_of (by rw [form, Literal.form]) (.cons .node .nil)
      fun _ record hopened => ?_
    obtain ⟨child, (hvalue : (Fields.ofRecord record).value = _), -, hwritten⟩ :=
      hopened.node (.tail _ (.head _))
    have hboolean : boolean? child.text = some value := by
      cases hwritten
      cases value <;> rfl
    simp only [hvalue, Option.map_some, Option.getD_some, hboolean]
    exact gives_atSite fun site => gives_pure rfl

end Digits

/-! ### Nodes without nodes inside -/

theorem nodeBack_identifier : NodeBack origin key (depth + 1) (.identifier site name) := by
  refine nodeBack_of (by rw [form]) (.cons .text .nil) fun _ record hopened => ?_
  have hname : (Fields.ofRecord record).name = name := hopened.has.text_eq
  refine gives_atSite fun site => gives_pure ?_
  rw [hname, bare, bare]

theorem nodeBack_importFile {path moduleName : String} {names : List String} :
    NodeBack origin key (depth + 1) (.importFile site path names moduleName) := by
  refine nodeBack_of (by rw [form]) (.cons .text (.cons .texts (.cons .text .nil)))
    fun hplaced record hopened => ?_
  have hpathGiven : path ≠ "" := (placed_iff.mp hplaced).1.2.2
  have hpath : (Fields.ofRecord record).path = path := hopened.has.text_eq
  have hnames : (Fields.ofRecord record).names = names := hopened.has.texts_eq
  have hmodule : (Fields.ofRecord record).moduleName = moduleName := hopened.has.text_eq
  simp only [hpath, hnames, hmodule, String.isEmpty_iff, hpathGiven, if_false]
  exact gives_atSite fun site => gives_pure rfl

theorem nodeBack_classType {members : List (String × TypeExpr)} :
    NodeBack origin key (depth + 1) (.classType site name members exported) := by
  refine nodeBack_of (by rw [form]) (.cons .text (.cons .nodes (.cons .flag .nil)))
    fun _ record hopened => ?_
  have hname : (Fields.ofRecord record).name = name := hopened.has.text_eq
  have hexported : (Fields.ofRecord record).exported = exported := hopened.has.flag_eq
  refine gives_atSite fun site => ?_
  refine (hopened.items (fun field : String × TypeExpr => (field.1, field.2.bare))
    (fun field => (field.1, field.2.bare)) (.tail _ (.tail _ (.head _))) rfl
    fun field _ _ => gives_field).bind fun found hfound => gives_pure ?_
  rw [bare, bare, hfound, hname, hexported]

theorem nodeBack_enumType {variants : List (String × List TypeExpr)} :
    NodeBack origin key (depth + 1) (.enumType site name variants exported) := by
  have hfits : FitsField ("variants", .list (variants.map Node.variantForm)) :=
    .records fun variant depth =>
      .aligned (by simp) (.cons ⟨rfl, .text⟩ (.cons ⟨rfl, .list fun _ _ => .node⟩ .nil))
  refine nodeBack_of (by rw [form]) (.cons .text (.cons hfits (.cons .flag .nil)))
    fun _ record hopened => ?_
  have hname : (Fields.ofRecord record).name = name := hopened.has.text_eq
  have hexported : (Fields.ofRecord record).exported = exported := hopened.has.flag_eq
  refine gives_atSite fun site => ?_
  refine (hopened.records (fun variant : String × List TypeExpr =>
      (variant.1, variant.2.map TypeExpr.bare))
    (fun variant => (variant.1, variant.2.map TypeExpr.bare)) (.tail _ (.tail _ (.head _))) rfl
    fun variant _ item hitem => ?_).bind fun found hfound => gives_pure ?_
  · refine (hitem.items TypeExpr.bare TypeExpr.bare (.tail _ (.head _)) rfl
      fun t _ _ => gives_type depth t).bind fun found hfound => gives_pure ?_
    rw [hitem.has.text_eq (.head _), hfound]
  · rw [bare, bare, hfound, hname, hexported]

/-! ### Nodes with nodes inside -/

structure ReadsBack (origin : Origin) (key : String) (depth : Nat) : Prop where
  pattern (p : Pattern) : PatternBack origin key depth p
  node (n : Node) : NodeBack origin key depth n

variable (hback : ReadsBack origin key depth)
include hback

theorem nodeBack_module :
    NodeBack origin key (depth + 1) (.module site name elements exported) := by
  refine nodeBack_of (by rw [form, formAll_eq])
    (.cons .text (.cons .nodes (.cons .flag .nil))) fun hplaced record hopened => ?_
  have hname : (Fields.ofRecord record).name = name := hopened.has.text_eq
  have hexported : (Fields.ofRecord record).exported = exported := hopened.has.flag_eq
  refine gives_atSite fun site => ?_
  refine (hopened.nodes hback.node (.tail _ (.tail _ (.head _))) hplaced.parts).bind
    fun found hfound => gives_pure ?_
  rw [bare, bare, bareAll_eq, bareAll_eq, hfound, hname, hexported]

theorem nodeBack_application {argument : Option Node} :
    NodeBack origin key (depth + 1) (.application site function argument) := by
  cases argument with
  | none =>
    refine nodeBack_of (by rw [form]) (.cons .node .nil) fun hplaced record hopened => ?_
    have hargument : (Fields.ofRecord record).argument = none := hopened.has.node?_absent (by simp)
    simp only [hargument, optional, present?, pure_bind]
    refine gives_atSite fun site => ?_
    refine (hopened.required hback.node (hplaced.parts _ (.head _))).bind
      fun found hfound => gives_pure ?_
    rw [bare, bare, hfound]
  | some argument =>
    refine nodeBack_of (by rw [form]) (.cons .node (.cons .node .nil))
      fun hplaced record hopened => ?_
    refine gives_atSite fun site => ?_
    refine (hopened.required hback.node (hplaced.parts _ (.head _))).bind fun found hfound => ?_
    refine (hopened.optional hback.node (hplaced.parts _ (.tail _ (.head _)))).bind ?_
    rintro _ ⟨given, rfl, hgiven⟩
    refine gives_pure ?_
    rw [bare, bare, hfound, hgiven]

theorem nodeBack_conditional {no : Option Node} :
    NodeBack origin key (depth + 1) (.conditional site condition yes no) := by
  cases no with
  | none =>
    refine nodeBack_of (by rw [form]) (.cons .node (.cons .node .nil))
      fun hplaced record hopened => ?_
    have hno : (Fields.ofRecord record).no = none := hopened.has.node?_absent (by simp)
    simp only [hno, optional, present?, pure_bind]
    refine gives_atSite fun site => ?_
    refine (hopened.required hback.node (hplaced.parts _ (.head _))).bind fun found hfound => ?_
    refine (hopened.required hback.node (hplaced.parts _ (.tail _ (.head _)))).bind
      fun foundYes hfoundYes => gives_pure ?_
    rw [bare, bare, hfound, hfoundYes]
  | some no =>
    refine nodeBack_of (by rw [form]) (.cons .node (.cons .node (.cons .node .nil)))
      fun hplaced record hopened => ?_
    refine gives_atSite fun site => ?_
    refine (hopened.required hback.node (hplaced.parts _ (.head _))).bind fun found hfound => ?_
    refine (hopened.required hback.node (hplaced.parts _ (.tail _ (.head _)))).bind
      fun foundYes hfoundYes => ?_
    refine (hopened.optional hback.node (hplaced.parts _ (.tail _ (.tail _ (.head _))))).bind ?_
    rintro _ ⟨foundNo, rfl, hfoundNo⟩
    refine gives_pure ?_
    rw [bare, bare, hfound, hfoundYes, hfoundNo]

theorem nodeBack_assignment {p : Pattern} :
    NodeBack origin key (depth + 1) (.assignment site p value exported) := by
  refine nodeBack_of (by rw [form]) (.cons .node (.cons .node (.cons .flag .nil)))
    fun hplaced record hopened => ?_
  have hexported : (Fields.ofRecord record).exported = exported := hopened.has.flag_eq
  refine gives_atSite fun site => ?_
  refine (hopened.pattern hback.pattern (.tail _ (.head _))).bind fun foundTarget hfoundTarget => ?_
  refine (hopened.required hback.node (hplaced.parts _ (.head _))).bind
    fun found hfound => gives_pure ?_
  rw [bare, bare, hfoundTarget, hfound, hexported]

theorem nodeBack_access : NodeBack origin key (depth + 1) (.access site target name) := by
  refine nodeBack_of (by rw [form]) (.cons .node (.cons .text .nil))
    fun hplaced record hopened => ?_
  have hmember : (Fields.ofRecord record).member = name := hopened.has.text_eq
  refine gives_atSite fun site => ?_
  refine (hopened.required hback.node (hplaced.parts _ (.head _))).bind
    fun found hfound => gives_pure ?_
  rw [bare, bare, hfound, hmember]

/-- A node that is a list of nodes and nothing else. -/
inductive Lists (site : Site) (elements : List Node) : Node → Prop
  | list : Lists site elements (.list site elements)
  | tuple : Lists site elements (.tuple site elements)
  | block : Lists site elements (.block site elements)

theorem nodeBack_elements (hn : Lists site elements n) : NodeBack origin key (depth + 1) n := by
  cases hn
  all_goals
    refine nodeBack_of (by rw [form, formAll_eq]) (.cons .nodes .nil)
      fun hplaced record hopened => ?_
    refine gives_atSite fun site => ?_
    refine (hopened.nodes hback.node (.tail _ (.head _)) hplaced.parts).bind
      fun found hfound => gives_pure ?_
    rw [bare, bare, bareAll_eq, bareAll_eq, hfound]

theorem nodeBack_annotated {t : TypeExpr} :
    NodeBack origin key (depth + 1) (.annotated site value t) := by
  refine nodeBack_of (by rw [form]) (.cons .node (.cons .node .nil))
    fun hplaced record hopened => ?_
  refine gives_atSite fun site => ?_
  refine (hopened.required hback.node (hplaced.parts _ (.head _))).bind fun found hfound => ?_
  refine (hopened.type (.tail _ (.tail _ (.head _)))).bind fun foundType hfoundType => gives_pure ?_
  rw [bare, bare, hfound, hfoundType]

theorem nodeBack_map {pairs : List (Node × Node)} :
    NodeBack origin key (depth + 1) (.map site pairs) := by
  refine nodeBack_of (by rw [form, Node.formEntries_eq]) (.cons (.records
      fun _ _ => .aligned (by simp) (.cons ⟨rfl, .node⟩ (.cons ⟨rfl, .node⟩ .nil))) .nil)
    fun hplaced record hopened => ?_
  refine gives_atSite fun site => ?_
  refine (hopened.records (fun entry : Node × Node => (entry.1.bare id, entry.2.bare id))
    (fun entry => (entry.1.bare (kept key), entry.2.bare (kept key))) (.tail _ (.head _)) rfl
    fun entry hentry item hitem => ?_).bind fun found hfound => gives_pure ?_
  · refine (hitem.required hback.node (hplaced.parts entry.1 (fst_mem_entryNodes hentry))).bind
      fun foundKey hfoundKey => ?_
    refine (hitem.required hback.node (hplaced.parts entry.2 (snd_mem_entryNodes hentry))).bind
      fun foundValue hfoundValue => gives_pure ?_
    rw [hfoundKey, hfoundValue]
  · rw [bare, bare, Node.bareEntries_eq, Node.bareEntries_eq, hfound]

theorem nodeBack_comprehension {generators : List (Pattern × Node)} :
    NodeBack origin key (depth + 1) (.comprehension site generators body) := by
  refine nodeBack_of (by rw [form, Node.formGenerators_eq]) (.cons (.records
      fun _ _ => .aligned (by simp) (.cons ⟨rfl, .node⟩ (.cons ⟨rfl, .node⟩ .nil)))
      (.cons .node .nil)) fun hplaced record hopened => ?_
  refine gives_atSite fun site => ?_
  refine (hopened.records
    (fun generator : Pattern × Node => (generator.1.bare id, generator.2.bare id))
    (fun generator => (generator.1.bare (kept key), generator.2.bare (kept key)))
    (.tail _ (.head _)) rfl fun generator hgenerator item hitem => ?_).bind fun found hfound => ?_
  · refine (hitem.pattern hback.pattern (.head _)).bind fun foundTarget hfoundTarget => ?_
    refine (hitem.required hback.node (hplaced.parts generator.2
      (mem_append_left _ (mem_map_of_mem hgenerator)))).bind
      fun foundIterable hfoundIterable => gives_pure ?_
    rw [hfoundTarget, hfoundIterable]
  · refine (hopened.required hback.node (hplaced.parts _ (mem_append_right _ (.head _)))).bind
      fun foundBody hfoundBody => gives_pure ?_
    rw [bare, bare, Node.bareGenerators_eq, Node.bareGenerators_eq, hfound, hfoundBody]

theorem nodeBack_abstraction : NodeBack origin key (depth + 1) (.abstraction site clauses) := by
  refine nodeBack_of (by rw [form, Node.formClauses_eq]; rfl) (.cons (.records
      fun _ _ => .aligned (by simp) (.cons ⟨rfl, .list fun _ _ => .node⟩ (.cons ⟨rfl, .node⟩ .nil)))
      .nil) fun hplaced record hopened => ?_
  obtain ⟨⟨-, hsome, -⟩, hparts⟩ := placed_iff.mp hplaced
  have hbranches : (Fields.ofRecord record).branches.isEmpty = false := by
    refine isEmpty_eq_false_iff.mpr fun hnil => hsome ?_
    have hlength := (hopened.has.records_eq (.tail _ (.head _)) rfl).length_eq
    rw [length_map] at hlength
    rw [map_eq_nil_iff.mp hnil] at hlength
    exact length_eq_zero_iff.mp hlength
  simp only [hbranches]
  refine gives_atSite fun site => ?_
  refine (hopened.records (fun clause : List Pattern × Node =>
      (clause.1.map (Pattern.bare id), clause.2.bare id))
    (fun clause => (clause.1.map (Pattern.bare (kept key)), clause.2.bare (kept key)))
    (.tail _ (.head _)) rfl fun clause hclause item hitem => ?_).bind
    fun found hfound => gives_pure ?_
  · refine (hitem.patterns hback.pattern (.head _)).bind fun foundPatterns hfoundPatterns => ?_
    refine (hitem.required hback.node (hparts clause.2 (mem_map_of_mem hclause))).bind
      fun foundBody hfoundBody => gives_pure ?_
    rw [hfoundPatterns, hfoundBody]
  · rw [bare, bare, Node.bareClauses_eq, Node.bareClauses_eq, hfound]

theorem nodeBack_when : NodeBack origin key (depth + 1) (.when site value clauses) := by
  refine nodeBack_of (by rw [form, Node.formClauses_eq]; rfl) (.cons .node
      (.cons (.records fun _ _ => .aligned (by simp)
        (.cons ⟨rfl, .list fun _ _ => .node⟩ (.cons ⟨rfl, .node⟩ .nil))) .nil))
    fun hplaced record hopened => ?_
  obtain ⟨⟨-, hsome, -⟩, hparts⟩ := placed_iff.mp hplaced
  refine gives_atSite fun site => ?_
  refine (hopened.required hback.node (hparts _ (.head _))).bind
    fun foundSubject hfoundSubject => ?_
  refine (hopened.records (fun clause : List Pattern × Node =>
      (clause.1.map (Pattern.bare id), clause.2.bare id))
    (fun clause => (clause.1.map (Pattern.bare (kept key)), clause.2.bare (kept key)))
    (.tail _ (.tail _ (.head _))) rfl fun clause hclause item hitem => ?_).bind
    fun found hfound => gives_pure ?_
  · refine (hitem.patterns hback.pattern (.head _)).bind fun foundPatterns hfoundPatterns => ?_
    have hnonempty : foundPatterns.isEmpty = false := by
      refine isEmpty_eq_false_iff.mpr fun hnil => hsome _ hclause ?_
      rw [hnil, map_nil] at hfoundPatterns
      exact map_eq_nil_iff.mp hfoundPatterns.symm
    simp only [hnonempty]
    refine (hitem.required hback.node (hparts clause.2 (.tail _ (mem_map_of_mem hclause)))).bind
      fun foundBody hfoundBody => gives_pure ?_
    rw [hfoundPatterns, hfoundBody]
  · rw [bare, bare, Node.bareClauses_eq, Node.bareClauses_eq, hfound, hfoundSubject]

end Nodes

/-- What is written at any depth reads back, by induction on the depth. -/
theorem readsBack (hkey : key = "value" ∨ Fields.schema.lookup key = none) (depth : Nat) :
    ReadsBack origin key depth := by
  induction depth with
  | zero =>
    exact ⟨fun p _ hdepth => absurd hdepth p.depth_form_pos.not_ge,
      fun n _ _ hdepth => absurd hdepth n.depth_form_pos.not_ge⟩
  | succ depth ih =>
    refine ⟨patternBack_succ ih.node ih.pattern, fun n => ?_⟩
    cases n with
    | literal value => exact nodeBack_literal hkey value
    | identifier => exact nodeBack_identifier
    | list => exact nodeBack_elements ih .list
    | tuple => exact nodeBack_elements ih .tuple
    | map => exact nodeBack_map ih
    | application => exact nodeBack_application ih
    | abstraction => exact nodeBack_abstraction ih
    | assignment => exact nodeBack_assignment ih
    | block => exact nodeBack_elements ih .block
    | when => exact nodeBack_when ih
    | conditional => exact nodeBack_conditional ih
    | comprehension => exact nodeBack_comprehension ih
    | access => exact nodeBack_access ih
    | annotated => exact nodeBack_annotated ih
    | importFile => exact nodeBack_importFile
    | module => exact nodeBack_module ih
    | classType => exact nodeBack_classType
    | enumType => exact nodeBack_enumType
    | pattern p | type t => exact fun _ hplaced => absurd trivial (placed_iff.mp hplaced).1.1

theorem gives_statements (hkey : key = "value" ∨ Fields.schema.lookup key = none)
    {statements : List Node} (hplaced : ∀ statement ∈ statements, statement.Placed)
    (hheight : origin.document.root.height ≤ 2 * origin.document.size)
    (hwritten : Written (fileForm key statements) origin.document.root) :
    Gives (fun found => found.map (bare id) = statements.map (bare (kept key)))
      (decodeRoot origin) := by
  have hdepth : ∀ statement ∈ statements,
      (statement.form key).depth ≤ 2 * origin.document.size + 2 := by
    intro statement hstatement
    calc (statement.form key).depth
        ≤ (Form.list (statements.map (Node.form key))).depth :=
          (Form.depth_item_lt (mem_map_of_mem hstatement)).le
      _ ≤ (fileForm key statements).depth := (Form.depth_field_lt (.head _)).le
      _ ≤ origin.document.root.height := hwritten.depth_le
      _ ≤ 2 * origin.document.size + 2 := hheight.trans (Nat.le_add_right _ _)
  obtain ⟨mark, entries, hroot⟩ := exists_mapping hwritten
  rw [decodeRoot, hroot]
  rw [hroot] at hwritten
  refine (gives_fields (by simp) (.cons .nodes .nil) hwritten).bind ?_
  rintro _ ⟨record, rfl, hhas⟩
  exact gives_items _ _ (hhas.nodes_eq (.head _) rfl) fun statement hstatement node =>
    (readsBack hkey _).node statement node (hplaced statement hstatement)
      (hdepth statement hstatement)

theorem height_le_of_ofText {text : String} {document : Yaml.Document}
    (hread : Yaml.Document.ofText text = .ok (some document)) :
    document.root.height ≤ 2 * document.size := by
  unfold Yaml.Document.ofText at hread
  dsimp only at hread
  generalize StateT.run _ _ = run at hread
  rcases run with _ | ⟨_ | root, state⟩ <;> cases hread
  exact (le_max_right _ _).trans (Nat.le_mul_of_pos_left _ Nat.two_pos)

/-- A text is read as the tree that its document was written from. -/
theorem ofText_of_written (hkey : key = "value" ∨ Fields.schema.lookup key = none)
    {statements : List Node} (hplaced : ∀ statement ∈ statements, statement.Placed)
    {path text : String} {document : Yaml.Document}
    (hread : Yaml.Document.ofText text = .ok (some document))
    (hwritten : Written (fileForm key statements) document.root) :
    ∃ program, Program.ofText path text = .ok program ∧
      program.statements.map (bare id) = statements.map (bare (kept key)) := by
  have hgives : Gives _ (decodeRoot { path, lines := .ofText text, document }) :=
    gives_statements hkey hplaced (height_le_of_ofText hread) hwritten
  obtain ⟨found, count, hrun, hfound⟩ := hgives 0
  refine ⟨{ path, span := ⟨0, (Lines.ofText text).size⟩, statements := found }, ?_, hfound⟩
  unfold Program.ofText
  dsimp only
  rw [hread]
  dsimp only
  rw [hrun]
  rfl

/-- **A tree that was written is read back.** Its nodes can be of all kinds, as long as they are
placed where nodes of their kind belong: decoding succeeds, and the tree that comes out differs from
the tree that was written only in where its nodes are, if the digits of numbers stand under `value`.
If they stand under a key that is no field, numbers have no digits afterwards, and the rest is the
same. -/
theorem written_tree_is_read_back {key : String}
    (hkey : key = "value" ∨ Fields.schema.lookup key = none) {statements : List Node}
    (hplaced : ∀ statement ∈ statements, statement.Placed)
    (hheight : origin.document.root.height ≤ 2 * origin.document.size)
    (hwritten : Written (fileForm key statements) origin.document.root) :
    ∃ found count, (decodeRoot origin).run 0 = .ok (found, count) ∧
      found.map (Node.bare id) =
        statements.map (Node.bare fun digits => if key = "value" then digits else "") :=
  gives_statements hkey hplaced hheight hwritten 0

/-- A file with an import and a function that matches numbers, lists and what is left of them. -/
def matchingFile : List Node :=
  [.importFile default "list" ["Some"] "",
    .assignment default (.identifier ⟨default, "f", some (.mk default "Number" [])⟩)
      (.abstraction default
        [([.literal default (.number default "0"),
            .list default [.wildcard default] (some ⟨default, "rest", none⟩)],
          .when default (.identifier default "rest")
            [([.tuple default [], .constructor default "Some" []],
              .literal (.number default "12"))])])
      true]

/-- Where the file is, if the digits of its numbers stand under a key that is no field. -/
def matchingOrigin : Origin :=
  { path := "main", lines := Lines.ofText "",
    document := { root := (fileForm "syntax" matchingFile).toNode, anchored := #[], size := 6 } }

theorem matching_file_is_read_back :
    (∀ statement ∈ matchingFile, statement.Placed) ∧
      matchingOrigin.document.root.height ≤ 2 * matchingOrigin.document.size ∧
      ∃ found count, (decodeRoot matchingOrigin).run 0 = .ok (found, count) ∧
        found.map (Node.bare id) = matchingFile.map (Node.bare fun _ => "") := by
  have hplaced : ∀ statement ∈ matchingFile, statement.Placed := by
    simp [matchingFile, Node.Placed, Node.expressions, Node.expressionsClauses, Node.Misplaced,
      Node.Formed, Node.NamesFile]
  have hheight : matchingOrigin.document.root.height ≤ 2 * matchingOrigin.document.size := by
    decide
  exact ⟨hplaced, hheight, written_tree_is_read_back (.inr (by decide)) hplaced hheight
    (Form.written_toNode _)⟩

end TypeSearch.Tree
