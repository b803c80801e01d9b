import TypeSearch.Proofs.Tree.Form

/-!
# Reading fields back

Decoding a node starts with its fields. Those that were written are found under their names, and the
types and patterns among them are read back.
-/

namespace TypeSearch.Tree

open List
open Yaml (Form Written WrittenItems Fits Record)

variable {γ δ α : Type} {form : Form} {value name : String} {fields : List (String × Form)}
  {schema : Yaml.Schema} {record : Record} {kind : Kind} {depth : Nat} {t : TypeExpr}
  {targets : List α}

/-- What is read of the digits of a number that stand under a key. -/
def kept (key digits : String) : String := if key = "value" then digits else ""

/-! ### Decoding without errors -/

section Gives

variable {α β : Type} {post : α → Prop} {later : β → Prop} {decode : Decode α}

/-- The decoding succeeds with a value that has a property. -/
def Gives (post : α → Prop) (decode : Decode α) : Prop :=
  ∀ count, ∃ value next, decode.run count = .ok (value, next) ∧ post value

theorem gives_pure {value : α} (hvalue : post value) : Gives post (pure value : Decode α) :=
  fun count => ⟨value, count, rfl, hvalue⟩

theorem Gives.bind {next : α → Decode β} (hdecode : Gives post decode)
    (hnext : ∀ value, post value → Gives later (next value)) : Gives later (decode >>= next) := by
  intro count
  obtain ⟨value, middle, hvalue, hpost⟩ := hdecode count
  obtain ⟨result, last, hresult, hlater⟩ := hnext value hpost middle
  refine ⟨result, last, ?_, hlater⟩
  rw [StateT.run_bind, hvalue]
  exact hresult

theorem gives_atSite {origin : Origin} {span : Span} {next : Site → Decode β}
    (hnext : ∀ site, Gives later (next site)) : Gives later (origin.site span >>= next) :=
  fun count => hnext ⟨count, span⟩ (count + 1)

theorem gives_items {W : Form → β → Prop} {form : α → Form} {f : β → Decode γ} {targets : List α}
    {items : List β} (view : γ → δ) (goal : α → δ) (hitems : Forall₂ W (targets.map form) items)
    (hf : ∀ target ∈ targets, ∀ item, W (form target) item →
      Gives (fun found => view found = goal target) (f item)) :
    Gives (fun found => found.map view = targets.map goal) (items.mapM f) := by
  induction targets generalizing items with
  | nil =>
    cases hitems
    exact gives_pure rfl
  | cons target targets ih =>
    rw [forall_mem_cons] at hf
    cases hitems with
    | cons hitem hitems =>
      rw [mapM_cons]
      refine (hf.1 _ hitem).bind fun value hvalue => ?_
      refine (ih hitems hf.2).bind fun values hvalues => gives_pure ?_
      rw [map_cons, map_cons, hvalue, hvalues]

end Gives

/-! ### Fields -/

/-- Whatever shape a field has under this name, the form fits it. -/
def FitsField (field : String × Form) : Prop :=
  ∀ depth shape, Fields.schema.lookup field.1 = some shape → Fits (depth + 7) shape field.2

namespace FitsField

variable {name : String}

theorem unknown (hname : Fields.schema.lookup name = none) : FitsField (name, form) :=
  fun _ _ hshape => by cases hname.symm.trans hshape

theorem text (hname : Fields.schema.lookup name = some .text := by rfl) :
    FitsField (name, .text value) := by
  intro depth shape hshape
  cases hname.symm.trans hshape
  exact .text

theorem flag {value : Bool} (hname : Fields.schema.lookup name = some .flag := by rfl) :
    FitsField (name, .flag value) := by
  intro depth shape hshape
  cases hname.symm.trans hshape
  exact .flag

theorem node (hname : Fields.schema.lookup name = some .node := by rfl) :
    FitsField (name, form) := by
  intro depth shape hshape
  cases hname.symm.trans hshape
  exact .node

theorem list {shape : Yaml.Shape} {items : List Form}
    (hname : Fields.schema.lookup name = some (.list shape))
    (hitems : ∀ item ∈ items, ∀ depth, Fits (depth + 6) shape item) :
    FitsField (name, .list items) := by
  intro depth shape' hshape
  cases hname.symm.trans hshape
  exact .list fun item hitem => hitems item hitem depth

theorem nodes {items : List Form}
    (hname : Fields.schema.lookup name = some (.list .node) := by rfl) :
    FitsField (name, .list items) :=
  list hname fun _ _ _ => .node

theorem texts {values : List String}
    (hname : Fields.schema.lookup name = some (.list .text) := by rfl) :
    FitsField (name, .list (values.map .text)) := by
  refine list hname fun item hitem depth => ?_
  obtain ⟨value, -, rfl⟩ := mem_map.mp hitem
  exact .text

theorem records {inner : Yaml.Schema} {fields : α → List (String × Form)}
    (hfields : ∀ target depth, Fits (depth + 6) (.record inner) (.record (fields target)))
    (hname : Fields.schema.lookup name = some (.list (.record inner)) := by rfl) :
    FitsField (name, .list (targets.map fun target => .record (fields target))) := by
  refine list hname fun item hitem depth => ?_
  obtain ⟨target, -, rfl⟩ := mem_map.mp hitem
  exact hfields target depth

end FitsField

def FitsAll (fields : List (String × Form)) : Prop := ∀ field ∈ fields, FitsField field

theorem FitsAll.nil : FitsAll [] := forall_mem_nil _

theorem FitsAll.cons {field : String × Form} (hfield : FitsField field) (hfields : FitsAll fields) :
    FitsAll (field :: fields) :=
  forall_mem_cons.mpr ⟨hfield, hfields⟩

theorem fits_fields (hnames : (fields.map (·.1)).Nodup) (hfields : FitsAll fields) (depth : Nat) :
    Fits (depth + 9) (.record Fields.schema) (.record fields) :=
  .record hnames fun name form shape hfield hshape => hfields (name, form) hfield depth shape hshape

variable {origin : Origin}

section Written

variable {node : Yaml.Node}

theorem gives_record (hfits : ∀ depth, Fits (depth + 9) (.record schema) (.record fields))
    (hwritten : Written (.record fields) node) :
    Gives (fun record => record.Has schema fields) (origin.record schema node) := by
  obtain ⟨record, hrecord, hhas⟩ := Record.ofNode_of_written origin.document hfits hwritten
  rw [Origin.record, hrecord]
  exact gives_pure hhas

theorem gives_fields (hnames : (fields.map (·.1)).Nodup) (hfields : FitsAll fields)
    (hwritten : Written (.record fields) node) :
    Gives (fun found => ∃ record, found = Fields.ofRecord record ∧
      record.Has Fields.schema fields) (origin.fields node) :=
  (gives_record (fits_fields hnames hfields) hwritten).bind fun record hhas =>
    gives_pure ⟨record, rfl, hhas⟩

theorem gives_span (node : Yaml.Node) (hhas : record.Has Fields.schema fields)
    (hpos : "pos" ∉ fields.map (·.1)) :
    Gives (fun _ => True) (origin.span node (Fields.ofRecord record)) := by
  have hnone : (Fields.ofRecord record).pos = none := hhas.ints?_absent hpos
  rw [Origin.span, hnone]
  exact gives_pure trivial

theorem Kind.ofName?_name (kind : Kind) : Kind.ofName? kind.name = some kind := by
  cases kind <;> rfl

structure WellNamed (fields : List (String × Form)) : Prop where
  names : ("pos" :: "kind" :: fields.map (·.1)).Nodup
  fits : FitsAll fields

theorem gives_nodeFields (hnamed : WellNamed fields)
    (hwritten : Written (nodeForm kind fields) node) :
    Gives (fun found => ∃ record, found = Fields.ofRecord record ∧
      record.Has Fields.schema (("kind", .text kind.name) :: fields)) (origin.fields node) :=
  have hfits : FitsAll (("kind", .text kind.name) :: fields) := .cons .text hnamed.fits
  gives_fields (nodup_cons.mp hnamed.names).2 hfits hwritten

theorem exists_mapping (hwritten : Written (.record fields) node) :
    ∃ mark entries, node = .mapping mark entries := by
  cases hwritten
  exact ⟨_, _, rfl⟩

theorem present?_some (hwritten : Written form node) : present? (some node) = some node := by
  rw [present?, hwritten.isNull]
  rfl

end Written

/-- A record whose fields were read. What stands in them nests no deeper than `depth`. -/
structure Opened (schema : Yaml.Schema) (fields : List (String × Form)) (depth : Nat)
    (record : Record) : Prop where
  has : record.Has schema fields
  depth_le {name : String} {form : Form} : (name, form) ∈ fields → form.depth ≤ depth

namespace Opened

variable {inner : Yaml.Schema} {β : Type}

theorem of_depth_le (hhas : record.Has schema fields)
    (hdepth : (Form.record fields).depth ≤ depth + 1) : Opened schema fields depth record :=
  ⟨hhas, fun hfield => Nat.le_of_lt_succ ((Form.depth_field_lt hfield).trans_le hdepth)⟩

theorem node (hopened : Opened schema fields depth record) (hfield : (name, form) ∈ fields)
    (hshape : schema.lookup name = some .node := by rfl) (hname : name ∉ Form.spare := by decide) :
    ∃ child, record.node? name = some child ∧ form.depth ≤ depth ∧ Written form child := by
  obtain ⟨child, hchild, hwritten⟩ := hopened.has.node?_eq hfield hshape hname
  exact ⟨child, hchild, hopened.depth_le hfield, hwritten⟩

theorem items (hopened : Opened schema fields depth record) {form : α → Form}
    {f : Yaml.Node → Decode β} (view : β → δ) (goal : α → δ)
    (hfield : (name, .list (targets.map form)) ∈ fields)
    (hshape : schema.lookup name = some (.list .node))
    (hf : ∀ target ∈ targets, ∀ node, (form target).depth ≤ depth → Written (form target) node →
      Gives (fun found => view found = goal target) (f node)) :
    Gives (fun found => found.map view = targets.map goal) ((record.nodes name).mapM f) :=
  gives_items view goal (hopened.has.nodes_eq hfield hshape) fun target htarget node =>
    hf target htarget node
      ((Form.depth_item_lt (mem_map_of_mem htarget)).le.trans (hopened.depth_le hfield))

theorem records (hopened : Opened schema fields depth record) {within : α → List (String × Form)}
    {make : Record → β} {f : β → Decode γ} (view : γ → δ) (goal : α → δ)
    (hfield : (name, .list (targets.map fun target => .record (within target))) ∈ fields)
    (hshape : schema.lookup name = some (.list (.record inner)))
    (hf : ∀ target ∈ targets, ∀ item, Opened inner (within target) depth item →
      Gives (fun found => view found = goal target) (f (make item))) :
    Gives (fun found => found.map view = targets.map goal)
      (((record.records name).map make).mapM f) := by
  have hitems : Forall₂ (fun form source => ∃ item fields,
      source = make item ∧ form = Form.record fields ∧ item.Has inner fields)
      (targets.map fun target => .record (within target)) ((record.records name).map make) := by
    rw [forall₂_map_right_iff]
    exact (hopened.has.records_eq hfield hshape).imp fun _ item ⟨fields, hform, hhas⟩ =>
      ⟨item, fields, rfl, hform, hhas⟩
  refine gives_items view goal hitems ?_
  rintro target htarget _ ⟨item, fields, rfl, ⟨⟩, hhas⟩
  refine hf target htarget item ⟨hhas, fun hinner => ?_⟩
  have hmem := mem_map_of_mem (f := fun target => Form.record (within target)) htarget
  exact (Form.depth_field_lt hinner).le.trans
    ((Form.depth_item_lt hmem).le.trans (hopened.depth_le hfield))

end Opened

variable {node : Yaml.Node}

theorem gives_decodeFields {post : α → Prop}
    {rest : Fields × Kind × Span → Decode α} (hnamed : WellNamed fields)
    (hwritten : Written (nodeForm kind fields) node)
    (hdepth : (nodeForm kind fields).depth ≤ depth + 1)
    (hrest : ∀ {span} record,
      Opened Fields.schema (("kind", .text kind.name) :: fields) depth record →
      Gives post (rest (Fields.ofRecord record, kind, span))) :
    Gives post (decodeFields origin node >>= rest) := by
  obtain ⟨mark, entries, rfl⟩ := exists_mapping hwritten
  rw [decodeFields, bind_assoc]
  refine (gives_nodeFields hnamed hwritten).bind ?_
  rintro _ ⟨record, rfl, hhas⟩
  have hkind : (Fields.ofRecord record).kind = kind.name := hhas.text_eq (.head _) rfl
  rw [hkind, Kind.ofName?_name, bind_assoc]
  refine (gives_span _ hhas (nodup_cons.mp hnamed.names).1).bind fun span _ => ?_
  rw [pure_bind]
  exact hrest record (.of_depth_le hhas hdepth)

/-! ### Types -/

theorem wellNamed_type (name : String) (args : List TypeExpr) :
    WellNamed [("name", .text name), ("args", .list (TypeExpr.formAll args))] :=
  ⟨by simp, .cons (.text rfl) (.cons (.nodes rfl) .nil)⟩

theorem gives_type (depth : Nat) (t : TypeExpr) (hdepth : t.form.depth ≤ depth)
    (hwritten : Written t.form node) :
    Gives (fun found => found.bare = t.bare) (typeWithin origin depth (some node)) := by
  induction depth generalizing t node with
  | zero =>
    obtain ⟨site, name, args⟩ := t
    exact absurd hdepth (Nat.not_succ_le_zero _)
  | succ depth ih =>
    obtain ⟨site, name, args⟩ := t
    have hnamed := wellNamed_type name args
    rw [TypeExpr.form] at hwritten hdepth
    rw [TypeExpr.formAll_eq] at hwritten hdepth hnamed
    obtain ⟨mark, entries, rfl⟩ := exists_mapping hwritten
    rw [typeWithin, present?_some hwritten]
    refine (gives_nodeFields hnamed hwritten).bind ?_
    rintro _ ⟨record, rfl, hhas⟩
    have hopened := Opened.of_depth_le hhas hdepth
    have hkind : (Fields.ofRecord record).kind = "type" := hhas.text_eq (.head _) rfl
    have hname : (Fields.ofRecord record).name = name := hhas.text_eq (.tail _ (.head _)) rfl
    rw [if_neg (fun hboth => hboth.2 hkind), hname]
    refine (gives_span _ hhas (nodup_cons.mp hnamed.names).1).bind fun span _ => ?_
    refine (hopened.items TypeExpr.bare TypeExpr.bare (.tail _ (.tail _ (.head _))) rfl
      fun arg _ _ => ih arg).bind fun found hfound => ?_
    refine gives_atSite fun site => gives_pure ?_
    rw [TypeExpr.bare, TypeExpr.bare, TypeExpr.bareAll_eq, TypeExpr.bareAll_eq, hfound]

theorem Opened.type (hopened : Opened schema fields depth record) (hfield : (name, t.form) ∈ fields)
    (hshape : schema.lookup name = some .node := by rfl) (hname : name ∉ Form.spare := by decide) :
    Gives (fun found => found.bare = t.bare) (typeWithin origin depth (record.node? name)) := by
  obtain ⟨child, hchild, hdepth, hwritten⟩ := hopened.node hfield hshape hname
  rw [hchild]
  exact gives_type depth t hdepth hwritten

theorem gives_field (hdepth : (Node.fieldForm (name, t)).depth ≤ depth)
    (hwritten : Written (Node.fieldForm (name, t)) node) :
    Gives (fun found => (found.1, found.2.bare) = (name, t.bare))
      (decodeField origin depth node) := by
  have hfits : ∀ depth, Fits (depth + 9) (.record [("name", .text), ("type", .node)])
      (.record [("name", .text name), ("type", t.form)]) := fun depth =>
    .aligned (by simp) (.cons ⟨rfl, .text⟩ (.cons ⟨rfl, .node⟩ .nil))
  refine (gives_record hfits hwritten).bind fun record hhas => ?_
  have hopened := Opened.of_depth_le hhas (hdepth.trans (Nat.le_succ depth))
  refine (hopened.type (.tail _ (.head _)) rfl (by decide)).bind fun found hfound => gives_pure ?_
  rw [hhas.text_eq (.head _) rfl, hfound]

/-! ### Patterns -/

def PatternBack (origin : Origin) (key : String) (depth : Nat) (p : Pattern) : Prop :=
  ∀ node, (p.form key).depth ≤ depth → Written (p.form key) node →
    Gives (fun found => found.bare id = p.bare (kept key)) (patternWithin origin depth (some node))

def NodeBack (origin : Origin) (key : String) (depth : Nat) (n : Node) : Prop :=
  ∀ node, n.Placed → (n.form key).depth ≤ depth → Written (n.form key) node →
    Gives (fun found => found.bare id = n.bare (kept key)) (nodeWithin origin depth node)

section Patterns

variable {key : String} {site : Site} {elements : List Pattern}

theorem gives_patternWithin {post : Pattern → Prop}
    {rest : Yaml.Mark → List (Yaml.Node × Yaml.Node) → Fields × Kind × Span → Decode Pattern}
    (hwritten : Written (nodeForm kind fields) node)
    (hdepth : (nodeForm kind fields).depth ≤ depth + 1) (hfits : FitsAll fields)
    (hrest : ∀ {mark entries span} record,
      Opened Fields.schema (("kind", .text kind.name) :: fields) depth record →
      Gives post (rest mark entries (Fields.ofRecord record, kind, span)))
    (hnames : ("pos" :: "kind" :: fields.map (·.1)).Nodup := by simp [optionalForm])
    (hdecode : ∀ mark entries, patternWithin origin (depth + 1) (some (.mapping mark entries)) =
      decodeFields origin (.mapping mark entries) >>= rest mark entries := by
        intros; unfold patternWithin; rfl) :
    Gives post (patternWithin origin (depth + 1) (some node)) := by
  obtain ⟨mark, entries, rfl⟩ := exists_mapping hwritten
  rw [hdecode]
  exact gives_decodeFields ⟨hnames, hfits⟩ hwritten hdepth hrest

theorem gives_binder (binder : Binder) (hdepth : binder.form.depth ≤ depth)
    (hwritten : Written binder.form node) :
    Gives (fun found => ∃ binder', found = .identifier binder' ∧ binder'.bare = binder.bare)
      (patternWithin origin depth (some node)) := by
  obtain ⟨depth, rfl⟩ := Nat.exists_eq_add_of_lt (Nat.zero_lt_of_lt hdepth)
  rw [Nat.zero_add] at hdepth ⊢
  obtain ⟨site, name, type⟩ := binder
  rw [Binder.form] at hwritten hdepth
  cases type with
  | none =>
    refine gives_patternWithin hwritten hdepth (.cons .text .nil) fun record hopened => ?_
    have hname : (Fields.ofRecord record).name = name := hopened.has.text_eq
    have htype : (Fields.ofRecord record).declared = none :=
      hopened.has.node?_absent (by simp [optionalForm])
    simp only [htype, hname, present?, pure_bind]
    exact gives_atSite fun site => gives_pure ⟨_, rfl, rfl⟩
  | some t =>
    refine gives_patternWithin hwritten hdepth (.cons .text (.cons .node .nil))
      fun record hopened => ?_
    have hname : (Fields.ofRecord record).name = name := hopened.has.text_eq
    obtain ⟨child, (htype : (Fields.ofRecord record).declared = _), hdepth', hwritten'⟩ :=
      hopened.node (.tail _ (.tail _ (.head _)))
    simp only [htype, hname, present?_some hwritten', pure_bind]
    refine (gives_type depth t hdepth' hwritten').bind fun found hfound => ?_
    refine gives_atSite fun site => gives_pure ⟨_, rfl, ?_⟩
    rw [Binder.bare, Binder.bare, Option.map_some, Option.map_some, hfound]

theorem patternBack_wildcard : PatternBack origin key (depth + 1) (.wildcard site) := by
  intro node hdepth hwritten
  rw [Pattern.form] at hwritten hdepth
  refine gives_patternWithin hwritten hdepth .nil fun record hopened => ?_
  exact gives_atSite fun site => gives_pure rfl

variable (hnodes : ∀ n, NodeBack origin key depth n)
  (hpatterns : ∀ p, PatternBack origin key depth p)

section Opened

variable (hopened : Opened schema fields depth record) {part : Node}

include hopened hnodes

theorem Opened.required {parent : Yaml.Node} {label : String} (hplaced : part.Placed)
    (hfield : (name, part.form key) ∈ fields := by simp)
    (hshape : schema.lookup name = some .node := by rfl) (hname : name ∉ Form.spare := by decide) :
    Gives (fun found => found.bare id = part.bare (kept key))
      (required origin (nodeWithin origin depth) parent (record.node? name) label) := by
  obtain ⟨child, hchild, hdepth, hwritten⟩ := hopened.node hfield hshape hname
  rw [Tree.required, hchild, present?_some hwritten]
  exact hnodes part child hplaced hdepth hwritten

theorem Opened.optional (hplaced : part.Placed)
    (hfield : (name, part.form key) ∈ fields := by simp)
    (hshape : schema.lookup name = some .node := by rfl) (hname : name ∉ Form.spare := by decide) :
    Gives (fun found => ∃ part', found = some part' ∧ part'.bare id = part.bare (kept key))
      (optional (nodeWithin origin depth) (record.node? name)) := by
  obtain ⟨child, hchild, hdepth, hwritten⟩ := hopened.node hfield hshape hname
  rw [Tree.optional, hchild, present?_some hwritten]
  exact (hnodes part child hplaced hdepth hwritten).bind fun found hfound =>
    gives_pure ⟨found, rfl, hfound⟩

theorem Opened.nodes {parts : List Node}
    (hfield : (name, .list (parts.map (Node.form key))) ∈ fields)
    (hplaced : ∀ part ∈ parts, part.Placed)
    (hshape : schema.lookup name = some (.list .node) := by rfl) :
    Gives (fun found => found.map (Node.bare id) = parts.map (Node.bare (kept key)))
      ((record.nodes name).mapM (nodeWithin origin depth)) :=
  hopened.items _ _ hfield hshape fun part hpart node => hnodes part node (hplaced part hpart)

omit hnodes
include hpatterns

theorem Opened.pattern {p : Pattern} (hfield : (name, p.form key) ∈ fields)
    (hshape : schema.lookup name = some .node := by rfl) (hname : name ∉ Form.spare := by decide) :
    Gives (fun found => found.bare id = p.bare (kept key))
      (patternWithin origin depth (record.node? name)) := by
  obtain ⟨child, hchild, hdepth, hwritten⟩ := hopened.node hfield hshape hname
  rw [hchild]
  exact hpatterns p child hdepth hwritten

theorem Opened.patterns (hfield : (name, .list (elements.map (Pattern.form key))) ∈ fields)
    (hshape : schema.lookup name = some (.list .node) := by rfl) :
    Gives (fun found => found.map (Pattern.bare id) = elements.map (Pattern.bare (kept key)))
      ((record.nodes name).mapM fun node => patternWithin origin depth (some node)) :=
  hopened.items _ _ hfield hshape fun p _ => hpatterns p

end Opened

include hnodes in
theorem patternBack_literal {value : Literal} :
    PatternBack origin key (depth + 1) (.literal site value) := by
  intro node hdepth hwritten
  rw [Pattern.form] at hwritten hdepth
  refine gives_patternWithin hwritten hdepth (.cons .node .nil) fun record hopened => ?_
  have hplaced : (Node.literal value).Placed :=
    Node.placed_iff.mpr ⟨⟨id, trivial, trivial⟩, forall_mem_nil _⟩
  refine (hopened.required hnodes hplaced (.tail _ (.head _))).bind fun found hfound => ?_
  obtain ⟨value', rfl, hvalue⟩ := Node.exists_literal_of_bare hfound
  refine gives_atSite fun site => gives_pure ?_
  rw [Pattern.bare, Pattern.bare, hvalue]

include hpatterns

theorem patternBack_tuple : PatternBack origin key (depth + 1) (.tuple site elements) := by
  intro node hdepth hwritten
  rw [Pattern.form, Pattern.formAll_eq] at hwritten hdepth
  refine gives_patternWithin hwritten hdepth (.cons .nodes .nil) fun record hopened => ?_
  refine (hopened.patterns hpatterns (.tail _ (.head _))).bind fun found hfound => ?_
  refine gives_atSite fun site => gives_pure ?_
  rw [Pattern.bare, Pattern.bare, Pattern.bareAll_eq, Pattern.bareAll_eq, hfound]

theorem patternBack_constructor :
    PatternBack origin key (depth + 1) (.constructor site name elements) := by
  intro node hdepth hwritten
  rw [Pattern.form, Pattern.formAll_eq] at hwritten hdepth
  refine gives_patternWithin hwritten hdepth (.cons .text (.cons .nodes .nil))
    fun record hopened => ?_
  have hname : (Fields.ofRecord record).name = name := hopened.has.text_eq
  refine (hopened.patterns hpatterns (.tail _ (.tail _ (.head _)))).bind fun found hfound => ?_
  refine gives_atSite fun site => gives_pure ?_
  rw [Pattern.bare, Pattern.bare, Pattern.bareAll_eq, Pattern.bareAll_eq, hfound, hname]

theorem patternBack_list {rest : Option Binder} :
    PatternBack origin key (depth + 1) (.list site elements rest) := by
  intro node hdepth hwritten
  rw [Pattern.form, Pattern.formAll_eq] at hwritten hdepth
  cases rest with
  | none =>
    refine gives_patternWithin hwritten hdepth (.cons .nodes .nil) fun record hopened => ?_
    have hrest : (Fields.ofRecord record).rest = none :=
      hopened.has.node?_absent (by simp [optionalForm])
    simp only [hrest, present?, pure_bind]
    refine (hopened.patterns hpatterns (.tail _ (.head _))).bind fun found hfound => ?_
    refine gives_atSite fun site => gives_pure ?_
    rw [Pattern.bare, Pattern.bare, Pattern.bareAll_eq, Pattern.bareAll_eq, hfound]
  | some binder =>
    refine gives_patternWithin hwritten hdepth (.cons .nodes (.cons .node .nil))
      fun record hopened => ?_
    obtain ⟨child, (hrest : (Fields.ofRecord record).rest = _), hdepth', hwritten'⟩ :=
      hopened.node (.tail _ (.tail _ (.head _)))
    simp only [hrest, present?_some hwritten']
    refine (hopened.patterns hpatterns (.tail _ (.head _))).bind fun found hfound => ?_
    refine (gives_binder binder hdepth' hwritten').bind ?_
    rintro _ ⟨binder', rfl, hbinder⟩
    simp only [pure_bind]
    refine gives_atSite fun site => gives_pure ?_
    rw [Pattern.bare, Pattern.bare, Pattern.bareAll_eq, Pattern.bareAll_eq, hfound,
      Option.map_some, Option.map_some, hbinder]

include hnodes

theorem patternBack_succ (p : Pattern) : PatternBack origin key (depth + 1) p := by
  cases p with
  | identifier binder =>
    intro node hdepth hwritten count
    rw [Pattern.form] at hdepth hwritten
    obtain ⟨_, next, hrun, binder', rfl, hbare⟩ := gives_binder binder hdepth hwritten count
    exact ⟨_, next, hrun, congrArg Pattern.identifier hbare⟩
  | wildcard => exact patternBack_wildcard
  | literal => exact patternBack_literal hnodes
  | tuple => exact patternBack_tuple hpatterns
  | list => exact patternBack_list hpatterns
  | constructor => exact patternBack_constructor hpatterns

end Patterns

end TypeSearch.Tree
