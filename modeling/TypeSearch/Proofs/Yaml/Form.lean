import Mathlib.Data.List.Forall2
import Mathlib.Order.MinMax
import TypeSearch.Yaml.Record

/-!
# Reading what is written

A form is what a tree of texts, truth values, lists and records says, wherever in a file its parts
stand. A record that is written without aliases is read back field by field: each field of the
schema holds what was written for it, and keys that are no fields are passed over.
-/

namespace TypeSearch.Yaml

open List

variable {items : List Form} {fields : List (String × Form)} {form : Form} {node : Node}
  {schema : Schema} {shape : Shape} {entries : List (Node × Node)}

inductive Form where
  | text (value : String)
  | flag (value : Bool)
  | list (items : List Form)
  | record (fields : List (String × Form))
  deriving Repr, Inhabited

namespace Form

def IsDefault : Form → Prop
  | text value => value = ""
  | flag value => value = false
  | list items => items = []
  | record _ => False

def spare : List String := ["exported", "alias", "names"]

mutual

/-- How many lists and records stand around each other at most. -/
def depth : Form → Nat
  | text _ | flag _ => 0
  | list items => depthOfItems items
  | record fields => depthOfFields fields + 1

def depthOfItems : List Form → Nat
  | [] => 0
  | item :: items => max (depth item + 1) (depthOfItems items)

def depthOfFields : List (String × Form) → Nat
  | [] => 0
  | (_, form) :: fields => max (depth form) (depthOfFields fields)

end

theorem depth_item_lt {item : Form} (hitem : item ∈ items) : item.depth < (list items).depth := by
  rw [depth]
  induction items with
  | nil => cases hitem
  | cons first items ih =>
    rw [depthOfItems]
    rcases mem_cons.mp hitem with rfl | hmem
    · omega
    · have := ih hmem
      omega

theorem depth_field_lt {name : String} (hfield : (name, form) ∈ fields) :
    form.depth < (record fields).depth := by
  rw [depth]
  induction fields with
  | nil => cases hfield
  | cons first fields ih =>
    rw [depthOfFields]
    rcases mem_cons.mp hfield with rfl | hmem
    · dsimp only
      omega
    · have := ih hmem
      omega

theorem IsDefault.depth_eq (hdefault : form.IsDefault) : form.depth = 0 := by
  cases form with
  | text | flag => rfl
  | list items =>
    obtain rfl : items = [] := hdefault
    rfl
  | record => exact hdefault.elim

end Form

mutual

/-- The node says what the form says, without aliases and with plain tags. -/
inductive Written : Form → Node → Prop
  | text (mark : Mark) (value : String) : Written (.text value) (.scalar mark "!!str" value)
  | flag (mark : Mark) (value : Bool) :
      Written (.flag value) (.scalar mark "!!bool" (if value then "true" else "false"))
  | list {items : List Form} {nodes : List Node} (mark : Mark)
      (hitems : WrittenItems items nodes) : Written (.list items) (.sequence mark nodes)
  | record {fields : List (String × Form)} {entries : List (Node × Node)} (mark : Mark)
      (hfields : WrittenFields fields entries) : Written (.record fields) (.mapping mark entries)

inductive WrittenItems : List Form → List Node → Prop
  | nil : WrittenItems [] []
  | cons {item : Form} {node : Node} {items : List Form} {nodes : List Node}
      (hitem : Written item node) (hitems : WrittenItems items nodes) :
      WrittenItems (item :: items) (node :: nodes)

/-- The entries of a mapping give the fields in their order; a spare field may be left out. -/
inductive WrittenFields : List (String × Form) → List (Node × Node) → Prop
  | nil : WrittenFields [] []
  | field {name : String} {form : Form} {node : Node} {fields : List (String × Form)}
      {entries : List (Node × Node)} (mark : Mark) (hform : Written form node)
      (hfields : WrittenFields fields entries) :
      WrittenFields ((name, form) :: fields) ((.scalar mark "!!str" name, node) :: entries)
  | leftOut {name : String} {form : Form} {fields : List (String × Form)}
      {entries : List (Node × Node)} (hspare : name ∈ Form.spare) (hdefault : form.IsDefault)
      (hfields : WrittenFields fields entries) : WrittenFields ((name, form) :: fields) entries

end

namespace Form

mutual

def toNode : Form → Node
  | text value => .scalar default "!!str" value
  | flag value => .scalar default "!!bool" (if value then "true" else "false")
  | list items => .sequence default (toNodes items)
  | record fields => .mapping default (toEntries fields)

def toNodes : List Form → List Node
  | [] => []
  | item :: items => toNode item :: toNodes items

def toEntries : List (String × Form) → List (Node × Node)
  | [] => []
  | (name, form) :: fields => (.scalar default "!!str" name, toNode form) :: toEntries fields

end

mutual

theorem written_toNode (form : Form) : Written form form.toNode :=
  match form with
  | text value => .text default value
  | flag value => .flag default value
  | list items => .list default (writtenItems_toNodes items)
  | record fields => .record default (writtenFields_toEntries fields)

theorem writtenItems_toNodes (items : List Form) : WrittenItems items (toNodes items) :=
  match items with
  | [] => .nil
  | item :: items => .cons (written_toNode item) (writtenItems_toNodes items)

theorem writtenFields_toEntries (fields : List (String × Form)) :
    WrittenFields fields (toEntries fields) :=
  match fields with
  | [] => .nil
  | (_, form) :: fields => .field default (written_toNode form) (writtenFields_toEntries fields)

end

end Form

mutual

theorem Written.depth_le {form : Form} {node : Node} (hwritten : Written form node) :
    form.depth ≤ node.height :=
  match hwritten with
  | .text _ _ | .flag _ _ => Nat.zero_le _
  | .list _ hitems => hitems.depth_le
  | .record _ hfields => Nat.succ_le_succ hfields.depth_le

theorem WrittenItems.depth_le {items : List Form} {nodes : List Node}
    (hwritten : WrittenItems items nodes) : Form.depthOfItems items ≤ Node.heightOfItems nodes :=
  match hwritten with
  | .nil => le_rfl
  | .cons hitem hitems => max_le_max (Nat.succ_le_succ hitem.depth_le) hitems.depth_le

theorem WrittenFields.depth_le {fields : List (String × Form)} {entries : List (Node × Node)}
    (hwritten : WrittenFields fields entries) :
    Form.depthOfFields fields ≤ Node.heightOfEntries entries :=
  match hwritten with
  | .nil => le_rfl
  | .field _ hform hfields =>
    max_le_max (hform.depth_le.trans (le_max_right _ _)) hfields.depth_le
  | .leftOut _ hdefault hfields =>
    max_le (hdefault.depth_eq.le.trans (Nat.zero_le _)) hfields.depth_le

end

theorem WrittenItems.forall₂ {R : Form → Node → Prop} {nodes : List Node}
    (hitems : WrittenItems items nodes)
    (himp : ∀ item ∈ items, ∀ node, Written item node → R item node) :
    Forall₂ R items nodes := by
  induction items generalizing nodes with
  | nil =>
    cases hitems
    exact .nil
  | cons item items ih =>
    rw [forall_mem_cons] at himp
    cases hitems with
    | cons hitem hitems => exact .cons (himp.1 _ hitem) (ih hitems himp.2)

theorem Written.isNull (hwritten : Written form node) : node.isNull = false := by
  cases hwritten <;> rfl

/-! ### Readings without aliases -/

section Reads

variable {α β : Type} {post : α → Prop} {later : β → Prop} {reading : Reading α}

/-- Outside of aliases, the reading is not refused and gives a value with a property. -/
def Reads (post : α → Prop) (reading : Reading α) : Prop :=
  ∀ position tally, position.aliases = [] → tally.behind = 0 →
    ∃ value next, reading position tally = .ok (value, next) ∧ next.behind = 0 ∧ post value

theorem Reads.bind {next : α → Reading β} (hreading : Reads post reading)
    (hnext : ∀ value, post value → Reads later (next value)) : Reads later (reading >>= next) := by
  intro position tally hposition htally
  obtain ⟨value, middle, hvalue, hmiddle, hpost⟩ := hreading position tally hposition htally
  obtain ⟨result, last, hresult, hlast, hlater⟩ :=
    hnext value hpost position middle hposition hmiddle
  refine ⟨result, last, ?_, hlast, hlater⟩
  change (reading position tally >>= fun found => next found.1 position found.2) = _
  rw [hvalue]
  exact hresult

theorem reads_pure {value : α} (hvalue : post value) : Reads post (pure value : Reading α) :=
  fun _ tally _ htally => ⟨value, tally, rfl, htally, hvalue⟩

theorem Reads.mono {post' : α → Prop} (hreading : Reads post reading)
    (himp : ∀ value, post value → post' value) : Reads post' reading := by
  intro position tally hposition htally
  obtain ⟨value, next, hvalue, hnext, hpost⟩ := hreading position tally hposition htally
  exact ⟨value, next, hvalue, hnext, himp value hpost⟩

theorem reads_count : Reads (fun _ => True) Reading.count := by
  rintro ⟨anchored, aliases⟩ ⟨all, behind⟩ rfl rfl
  exact ⟨(), ⟨all + 1, 0⟩, rfl, rfl, trivial⟩

theorem reads_mapM {γ : Type} {f : β → Reading γ} {R : α → γ → Prop} {targets : List α}
    {items : List β}
    (hf : Forall₂ (fun target item => Reads (R target) (f item)) targets items) :
    Reads (Forall₂ R targets) (items.mapM f) := by
  induction hf with
  | nil =>
    rw [mapM_nil]
    exact reads_pure .nil
  | cons hitem hitems ih =>
    rw [mapM_cons]
    exact hitem.bind fun value hvalue => ih.bind fun values hvalues =>
      reads_pure (.cons hvalue hvalues)

end Reads

/-! ### Values that hold what was written -/

/-- The value is what a field of the shape holds once the form was read. A record has only fields
that were written. -/
inductive Holds : Shape → Form → Value → Prop
  | text (value : String) : Holds .text (.text value) (.text value)
  | flag (value : Bool) : Holds .flag (.flag value) (.flag value)
  | node {form : Form} {node : Node} (hwritten : Written form node) : Holds .node form (.node node)
  | list {shape : Shape} {items : List Form} {values : List Value}
      (hlength : items.length = values.length)
      (hitems : ∀ item value, (item, value) ∈ items.zip values → Holds shape item value) :
      Holds (.list shape) (.list items) (.list (some values))
  | record {schema : Schema} {fields : List (String × Form)} {stored : List (String × Value)}
      (hstored : ∀ name form shape value, (name, form) ∈ fields → schema.lookup name = some shape →
        stored.lookup name = some value → Holds shape form value)
      (hspare : ∀ name form shape, (name, form) ∈ fields → schema.lookup name = some shape →
        stored.lookup name = none → name ∈ Form.spare ∧ form.IsDefault)
      (hother : ∀ name, name ∉ fields.map (·.1) → stored.lookup name = none) :
      Holds (.record schema) (.record fields) (.record stored)

/-- A form that a field of the shape takes, read at a depth. Fields that the schema does not have
can be anything. -/
inductive Fits : Nat → Shape → Form → Prop
  | text {depth : Nat} {value : String} : Fits (depth + 1) .text (.text value)
  | flag {depth : Nat} {value : Bool} : Fits (depth + 1) .flag (.flag value)
  | node {depth : Nat} {form : Form} : Fits (depth + 1) .node form
  | list {depth : Nat} {shape : Shape} {items : List Form}
      (hitems : ∀ item ∈ items, Fits depth shape item) :
      Fits (depth + 1) (.list shape) (.list items)
  | record {depth : Nat} {schema : Schema} {fields : List (String × Form)}
      (hnames : (fields.map (·.1)).Nodup)
      (hfields : ∀ name form shape, (name, form) ∈ fields → schema.lookup name = some shape →
        Fits (depth + 1) shape form) :
      Fits (depth + 3) (.record schema) (.record fields)

theorem Fits.aligned {depth : Nat} (hnames : (fields.map (·.1)).Nodup)
    (hfields : Forall₂
      (fun field entry => field.1 = entry.1 ∧ Fits (depth + 1) entry.2 field.2) fields schema) :
    Fits (depth + 3) (.record schema) (.record fields) := by
  refine .record hnames ?_
  induction hfields with
  | nil => exact fun _ _ _ hfield => absurd hfield not_mem_nil
  | @cons field entry fields schema hfirst hrest ih =>
    obtain ⟨name, form⟩ := field
    obtain ⟨entryName, shape⟩ := entry
    obtain ⟨rfl, hfits⟩ := hfirst
    rw [map_cons, nodup_cons] at hnames
    intro name' form' shape' hfield hshape
    rcases mem_cons.mp hfield with heq | hmem
    · cases heq
      rw [lookup_cons_self] at hshape
      cases hshape
      exact hfits
    · have hne : name' ≠ name := by
        rintro rfl
        exact hnames.1 (mem_map.mpr ⟨_, hmem, rfl⟩)
      rw [lookup_cons, beq_eq_false_iff_ne.mpr hne] at hshape
      exact ih hnames.2 name' form' shape' hmem hshape

def Stored (shape : Shape) (form : Form) (found : Option Value) : Prop :=
  ∃ value, found = some value ∧ Holds shape form value

theorem holds_list {found : List (Option Value)}
    (hfound : Forall₂ (Stored shape) items found) :
    Holds (.list shape) (.list items) (.list (some (found.filterMap id))) := by
  have hvalues : Forall₂ (Holds shape) items (found.filterMap id) := by
    induction hfound with
    | nil => exact .nil
    | cons hfirst hrest ih =>
      obtain ⟨value, rfl, hholds⟩ := hfirst
      exact .cons hholds ih
  obtain ⟨hlength, hitems⟩ := forall₂_iff_zip.mp hvalues
  exact .list hlength fun _ _ => hitems

/-- What reading the fields adds to the values that are known. -/
structure Gathers (schema : Schema) (fields : List (String × Form))
    (before after : List (String × Value)) : Prop where
  stored {name : String} {form : Form} {shape : Shape} (hfield : (name, form) ∈ fields)
    (hshape : schema.lookup name = some shape) :
    Stored shape form (after.lookup name) ∨
      (name ∈ Form.spare ∧ form.IsDefault) ∧ after.lookup name = before.lookup name
  other {name : String} (hname : name ∉ fields.map (·.1)) : after.lookup name = before.lookup name

namespace Gathers

variable {schema : Schema} {name : String} {form : Form} {fields : List (String × Form)}
  {before after : List (String × Value)}

theorem nil : Gathers schema [] before before :=
  ⟨fun hfield => absurd hfield not_mem_nil, fun _ => rfl⟩

theorem put {value : Value} (hrest : Gathers schema fields ((name, value) :: before) after)
    (hname : name ∉ fields.map (·.1)) (hshape : schema.lookup name = some shape)
    (hvalue : Holds shape form value) : Gathers schema ((name, form) :: fields) before after where
  stored {name' form' shape'} hfield hshape' := by
    rcases mem_cons.mp hfield with heq | hmem
    · cases heq
      cases hshape.symm.trans hshape'
      refine .inl ⟨value, ?_, hvalue⟩
      rw [hrest.other hname, lookup_cons_self]
    · refine (hrest.stored hmem hshape').imp_right fun hleft => ⟨hleft.1, ?_⟩
      have hne : name' ≠ name := fun heq => hname (heq ▸ mem_map_of_mem hmem)
      rw [hleft.2, lookup_cons, beq_eq_false_iff_ne.mpr hne]
  other {name'} hname' := by
    rw [map_cons, mem_cons, not_or] at hname'
    rw [hrest.other hname'.2, lookup_cons, beq_eq_false_iff_ne.mpr hname'.1]

theorem pass (hrest : Gathers schema fields before after) (hname : name ∉ fields.map (·.1))
    (hpass : schema.lookup name = none ∨ name ∈ Form.spare ∧ form.IsDefault) :
    Gathers schema ((name, form) :: fields) before after where
  stored {name' form' shape'} hfield hshape := by
    rcases mem_cons.mp hfield with heq | hmem
    · cases heq
      refine .inr ⟨hpass.resolve_left ?_, hrest.other hname⟩
      rw [hshape]
      exact Option.some_ne_none _
    · exact hrest.stored hmem hshape
  other hname' := hrest.other fun hmem => hname' (.tail _ hmem)

theorem holds (hgathers : Gathers schema fields [] after) :
    Holds (.record schema) (.record fields) (.record after) := by
  refine .record ?_ ?_ fun name hname => hgathers.other hname
  · intro name form shape value hfield hshape hvalue
    rcases hgathers.stored hfield hshape with ⟨found, hfound, hholds⟩ | hleft
    · cases hvalue.symm.trans hfound
      exact hholds
    · cases hvalue.symm.trans hleft.2
  · intro name form shape hfield hshape hnone
    rcases hgathers.stored hfield hshape with ⟨found, hfound, hholds⟩ | hleft
    · cases hnone.symm.trans hfound
    · exact hleft.1

end Gathers

/-! ### Reading forms -/

theorem readWithin_text (depth : Nat) (mark : Mark) (tag text : String) :
    readWithin (depth + 1) .text (.scalar mark tag text) = (do
      Reading.count
      Scalar.store tag text .text) := by
  simp only [readWithin]

theorem reads_key (depth : Nat) (mark : Mark) (name : String) :
    Reads (· = some name) (keyName? (readWithin (depth + 1)) (.scalar mark "!!str" name)) := by
  have htext : Reads (· = some (.text name))
      (readWithin (depth + 1) .text (.scalar mark "!!str" name)) := by
    rw [readWithin_text]
    exact reads_count.bind fun _ _ => reads_pure rfl
  refine htext.bind ?_
  rintro _ rfl
  exact reads_pure rfl

theorem WrittenFields.exists_key (hwritten : WrittenFields fields entries) :
    ∀ entry ∈ entries, ∃ mark, ∃ name ∈ fields.map (·.1), entry.1 = .scalar mark "!!str" name := by
  induction fields generalizing entries with
  | nil =>
    cases hwritten
    exact fun _ hentry => absurd hentry not_mem_nil
  | cons field fields ih =>
    have hlater : ∀ {entries}, WrittenFields fields entries → ∀ entry ∈ entries,
        ∃ mark, ∃ name ∈ (field :: fields).map (·.1), entry.1 = .scalar mark "!!str" name := by
      intro entries hrest entry hentry
      obtain ⟨mark, name, hname, heq⟩ := ih hrest entry hentry
      exact ⟨mark, name, .tail _ hname, heq⟩
    cases hwritten with
    | field mark hform hfields =>
      rw [forall_mem_cons]
      exact ⟨⟨mark, _, .head _, rfl⟩, hlater hfields⟩
    | leftOut hspare hdefault hfields => exact hlater hfields

theorem WrittenFields.hasRepeatedKey (hwritten : WrittenFields fields entries)
    (hnames : (fields.map (·.1)).Nodup) : Node.hasRepeatedKey entries = false := by
  induction fields generalizing entries with
  | nil =>
    cases hwritten
    rfl
  | cons field fields ih =>
    rw [map_cons, nodup_cons] at hnames
    cases hwritten with
    | leftOut hspare hdefault hfields => exact ih hfields hnames.2
    | field mark hform hfields =>
      rw [Node.hasRepeatedKey, ih hfields hnames.2, Bool.or_false, any_eq_false]
      intro other hother hsame
      obtain ⟨mark', name, hname, heq⟩ := hfields.exists_key other hother
      rw [heq] at hsame
      exact hnames.1 (eq_of_beq hsame ▸ hname)

section Entries

variable {depth : Nat} {schema : Schema} (hnames : (fields.map (·.1)).Nodup)
  (hreader : ∀ name form shape node, (name, form) ∈ fields → schema.lookup name = some shape →
    Written form node → Reads (Stored shape form) (readWithin (depth + 1) shape node))
include hnames hreader

theorem readEntries_reads (hwritten : WrittenFields fields entries)
    (own : List String) (hown : ∀ name ∈ fields.map (·.1), name ∉ own) (gathered : Gathered)
    (htaken : gathered.taken = none) :
    Reads (fun found => found.2 = none ∧ Gathers schema fields gathered.fields found.1.fields)
      (readEntries (readWithin (depth + 1)) schema entries own none gathered) := by
  induction fields generalizing entries own gathered with
  | nil =>
    cases hwritten
    exact reads_pure ⟨rfl, .nil⟩
  | cons field fields ih =>
    rw [map_cons, nodup_cons] at hnames
    rw [map_cons, forall_mem_cons] at hown
    replace ih := fun {entries} (hfields : WrittenFields fields entries) => ih hnames.2
      (fun name form shape node hfield => hreader name form shape node (.tail _ hfield)) hfields
    cases hwritten with
    | leftOut hspare hdefault hfields =>
      exact (ih hfields own hown.2 gathered htaken).mono fun found hfound =>
        ⟨hfound.1, hfound.2.pass hnames.1 (.inr ⟨hspare, hdefault⟩)⟩
    | @field name form node _ entries mark hform hfields =>
      have hclaim : gathered.claim name = some gathered := by
        rw [Gathered.claim, htaken]
      have hmerge : Node.isMergeKey (.scalar mark "!!str" name) = false := Bool.and_false _
      rw [readEntries, hmerge]
      refine (reads_key depth mark name).bind ?_
      rintro _ rfl
      rw [Option.bind_some, hclaim, Option.map_some]
      dsimp only
      cases hshape : schema.lookup name with
      | none =>
        exact (ih hfields own hown.2 gathered htaken).mono fun found hfound =>
          ⟨hfound.1, hfound.2.pass hnames.1 (.inl hshape)⟩
      | some shape =>
        have hfree : own.contains name = false := by
          rw [contains_eq_mem]
          exact decide_eq_false hown.1
        dsimp only
        rw [hfree]
        refine (hreader name form shape node (.head _) hshape hform).bind ?_
        rintro _ ⟨value, rfl, hvalue⟩
        refine (ih hfields (name :: own) ?_ (gathered.put name (some value)) htaken).mono
          fun found hfound => ⟨hfound.1, hfound.2.put hnames.1 hshape hvalue⟩
        intro other hother hmem
        rcases mem_cons.mp hmem with rfl | hmem
        · exact hnames.1 hother
        · exact hown.2 other hother hmem

theorem gatherWithin_reads (hwritten : Written (.record fields) node) :
    Reads (fun found => ∃ gathered, found = some gathered ∧
        Holds (.record schema) (.record fields) (.record gathered.fields))
      (gatherWithin (depth + 2) schema {} node) := by
  cases hwritten with
  | record mark hfields =>
    rw [gatherWithin]
    refine reads_count.bind fun _ _ => ?_
    dsimp only
    rw [hfields.hasRepeatedKey hnames]
    refine (readEntries_reads hnames hreader hfields [] (fun _ _ => not_mem_nil) {} rfl).bind ?_
    rintro ⟨gathered, merged⟩ ⟨rfl, hgathers⟩
    exact reads_pure ⟨gathered, rfl, hgathers.holds⟩

end Entries

theorem Fits.reads {depth : Nat} (hfits : Fits depth shape form) :
    ∀ {node : Node}, Written form node →
      Reads (Stored shape form) (readWithin depth shape node) := by
  induction hfits with
  | text =>
    intro node hwritten
    cases hwritten
    rw [readWithin_text]
    exact reads_count.bind fun _ _ => reads_pure ⟨_, rfl, .text _⟩
  | @flag depth value =>
    intro node hwritten
    cases hwritten
    simp only [readWithin]
    cases value <;> exact reads_count.bind fun _ _ => reads_pure ⟨_, rfl, .flag _⟩
  | node =>
    intro node hwritten
    rw [readWithin]
    exact reads_count.bind fun _ _ => reads_pure ⟨_, rfl, .node hwritten⟩
  | list hitems ih =>
    intro node hwritten
    cases hwritten with
    | list mark hwritten =>
      rw [readWithin]
      refine reads_count.bind fun _ _ => ?_
      refine (reads_mapM (hwritten.forall₂ fun item hitem _ => ih item hitem)).bind ?_
      exact fun found hfound => reads_pure ⟨_, rfl, holds_list hfound⟩
  | record hnames hfields ih =>
    intro node hwritten
    rw [readWithin]
    refine (gatherWithin_reads hnames (fun name form shape node hfield hshape =>
      ih name form shape hfield hshape) hwritten).bind ?_
    rintro _ ⟨gathered, rfl, hholds⟩
    exact reads_pure ⟨_, rfl, hholds⟩

namespace Record

/-- The record has the fields of the schema that were written. -/
def Has (schema : Schema) (fields : List (String × Form)) (record : Record) : Prop :=
  Holds (.record schema) (.record fields) (.record record.fields)

/-- **A record that was written is read back.** Its depth does not matter: what stands in the fields
is read later. -/
theorem ofNode_of_written (document : Document)
    (hfits : ∀ depth, Fits (depth + 9) (.record schema) (.record fields))
    (hwritten : Written (.record fields) node) :
    ∃ record, ofNode document schema node = .ok record ∧ record.Has schema fields := by
  cases hfits document.size with
  | record hnames hfields =>
    obtain ⟨_, next, hread, -, gathered, rfl, hholds⟩ := gatherWithin_reads hnames
      (fun name form shape node hfield hshape => (hfields name form shape hfield hshape).reads)
      hwritten { anchored := document.anchored } {} rfl rfl
    refine ⟨⟨gathered.fields⟩, ?_, hholds⟩
    change (gatherWithin (document.size + 8) schema {} node _ _ >>= _) = _
    rw [hread]
    rfl

namespace Has

variable {schema : Schema} {fields : List (String × Form)} {record : Record} {name : String}

section Has

variable (hhas : record.Has schema fields)

include hhas

theorem stored (hfield : (name, form) ∈ fields)
    (hshape : schema.lookup name = some shape) :
    (∃ value, record.fields.lookup name = some value ∧ Holds shape form value) ∨
      record.fields.lookup name = none ∧ name ∈ Form.spare ∧ form.IsDefault := by
  cases hhas with
  | record hstored hspare hother =>
    cases hvalue : record.fields.lookup name with
    | none => exact .inr ⟨rfl, hspare name form shape hfield hshape hvalue⟩
    | some value => exact .inl ⟨value, rfl, hstored name form shape value hfield hshape hvalue⟩

theorem absent (hname : name ∉ fields.map (·.1)) : record.fields.lookup name = none := by
  cases hhas with
  | record hstored hspare hother => exact hother name hname

theorem text_eq {value : String}
    (hfield : (name, .text value) ∈ fields := by simp)
    (hshape : schema.lookup name = some .text := by rfl) : record.text name = value := by
  rcases hhas.stored hfield hshape with ⟨_, hvalue, ⟨⟩⟩ | ⟨hnone, -, hdefault⟩
  · rw [Record.text, hvalue]
  · rw [Record.text, hnone]
    exact hdefault.symm

theorem flag_eq {value : Bool}
    (hfield : (name, .flag value) ∈ fields := by simp)
    (hshape : schema.lookup name = some .flag := by rfl) : record.flag name = value := by
  rcases hhas.stored hfield hshape with ⟨_, hvalue, ⟨⟩⟩ | ⟨hnone, -, hdefault⟩
  · rw [Record.flag, hvalue]
  · rw [Record.flag, hnone]
    exact hdefault.symm

theorem node?_eq (hfield : (name, form) ∈ fields)
    (hshape : schema.lookup name = some .node) (hname : name ∉ Form.spare) :
    ∃ node, record.node? name = some node ∧ Written form node := by
  rcases hhas.stored hfield hshape with ⟨_, hvalue, hholds⟩ | ⟨-, hspare, -⟩
  · cases hholds with
    | @node _ node hwritten =>
      refine ⟨node, ?_, hwritten⟩
      rw [Record.node?, hvalue]
  · exact absurd hspare hname

theorem node?_absent (hname : name ∉ fields.map (·.1)) : record.node? name = none := by
  rw [Record.node?, hhas.absent hname]

theorem ints?_absent (hname : name ∉ fields.map (·.1)) : record.ints? name = none := by
  rw [Record.ints?, Record.list?, hhas.absent hname]

theorem list?_eq {α : Type} {item : Value → Option α} {R : Form → α → Prop}
    (hfield : (name, .list items) ∈ fields)
    (hshape : schema.lookup name = some (.list shape))
    (hitem : ∀ form value, Holds shape form value →
      ∃ found, item value = some found ∧ R form found) :
    Forall₂ R items ((record.list? name item).getD []) := by
  rcases hhas.stored hfield hshape with ⟨_, hvalue, hholds⟩ | ⟨hnone, -, hdefault⟩
  · cases hholds with
    | @list _ _ values hlength hitems =>
      have hall : Forall₂ (Holds shape) items values :=
        forall₂_iff_zip.mpr ⟨hlength, hitems _ _⟩
      have hlist : (record.list? name item).getD [] = values.filterMap item := by
        rw [Record.list?, hvalue]
        rfl
      rw [hlist]
      clear hitems hlength hfield hvalue hlist
      induction hall with
      | nil => exact .nil
      | cons hfirst hrest ih =>
        obtain ⟨found, hfound, hR⟩ := hitem _ _ hfirst
        rw [filterMap_cons, hfound]
        exact .cons hR ih
  · have hlist : (record.list? name item).getD [] = [] := by
      rw [Record.list?, hnone]
      rfl
    obtain rfl : items = [] := hdefault
    rw [hlist]
    exact .nil

theorem nodes_eq (hfield : (name, .list items) ∈ fields)
    (hshape : schema.lookup name = some (.list .node)) :
    Forall₂ Written items (record.nodes name) :=
  hhas.list?_eq hfield hshape fun form value hholds => by
    cases hholds with
    | node hwritten => exact ⟨_, rfl, hwritten⟩

theorem texts_eq {values : List String}
    (hfield : (name, .list (values.map .text)) ∈ fields := by simp)
    (hshape : schema.lookup name = some (.list .text) := by rfl) : record.texts name = values := by
  have hall : Forall₂ (fun form found => form = Form.text found) (values.map Form.text)
      (record.texts name) :=
    hhas.list?_eq hfield hshape fun form value hholds => by
      cases hholds with
      | text value => exact ⟨value, rfl, rfl⟩
  rw [forall₂_map_left_iff] at hall
  rw [eq_comm, ← forall₂_eq_eq_eq]
  exact hall.imp fun _ _ heq => Form.text.inj heq

theorem records_eq {inner : Schema}
    (hfield : (name, .list items) ∈ fields)
    (hshape : schema.lookup name = some (.list (.record inner))) :
    Forall₂ (fun form item => ∃ fields, form = .record fields ∧ Has inner fields item) items
      (record.records name) :=
  hhas.list?_eq hfield hshape fun form value hholds => by
    cases hholds with
    | record hstored hspare hother => exact ⟨_, rfl, _, rfl, .record hstored hspare hother⟩

end Has

end Has

end Record

end TypeSearch.Yaml
