import TypeSearch.Proofs.Tree.Expressions

/-!
# What reading a tree gives

Reading a tree counts up, and a node has one of the numbers that were passed while it was read. So
of two statements of a file the later one has the greater key. All nodes that are read lie in the
text, and all expressions among them are formed.
-/

namespace TypeSearch

/-- The range lies in a text of `size` bytes. -/
def Span.Within (size : Nat) (span : Span) : Prop :=
  0 ≤ span.start ∧ span.start ≤ span.stop ∧ span.stop ≤ size

namespace Tree

open List Node

variable {α β : Type} {post : α → Prop} {later : β → Prop} {decode : Decode α} {origin : Origin}
  {toNode : α → Node} {place : Option Yaml.Node} {span : Span} {next : α → Decode β}

/-- Reading never counts down, and every value that is read has a property. -/
def Advances (post : α → Prop) (decode : Decode α) : Prop :=
  ∀ key value next, decode key = .ok (value, next) → key ≤ next ∧ post value

/-- All nodes in a node are formed and lie in a text of `size` bytes. -/
def Node.Fits (size : Nat) (node : Node) : Prop :=
  ∀ part ∈ node.walk, part.Formed ∧ part.site.span.Within size

theorem Origin.explicitSpan?_eq_some (origin : Origin) {pos : List Int} :
    origin.explicitSpan? pos = some span ↔
      pos = [span.start, span.stop] ∧ span.Within origin.lines.size := by
  unfold Origin.explicitSpan?
  split
  · rename_i start stop
    split
    · rename_i hwithin
      constructor
      · rintro ⟨⟩
        exact ⟨rfl, hwithin⟩
      · rintro ⟨⟨⟩, -⟩
        rfl
    · rename_i hnot
      refine iff_of_false nofun ?_
      rintro ⟨⟨⟩, hwithin⟩
      exact hnot hwithin
  · rename_i hnot
    exact iff_of_false nofun fun hpos => hnot _ _ hpos.1

/-- The range of a node: where its YAML node is, or the range that it gives itself. -/
def Origin.Spans (origin : Origin) (node : Yaml.Node) (span : Span) : Prop :=
  span = origin.spanOf node ∨ ∃ record pos,
    Yaml.Record.ofNode origin.document Fields.schema node = .ok record ∧
      record.ints? "pos" = some pos ∧ origin.explicitSpan? pos = some span

theorem Origin.Spans.within {node : Yaml.Node} (hspan : origin.Spans node span) :
    span.Within origin.lines.size := by
  rcases hspan with rfl | ⟨-, pos, -, -, hgiven⟩
  · have hoffset : origin.offset node ≤ origin.lines.size := Nat.min_le_right ..
    cases node <;> simp only [Origin.spanOf, Span.Within] <;> omega
  · exact (origin.explicitSpan?_eq_some.mp hgiven).2

/-- What is read of a YAML node has a key that was passed while it was read, it has the range of the
YAML node, and all that it holds fits the text. -/
def Numbers (origin : Origin) (toNode : α → Node) (place : Option Yaml.Node) (decode : Decode α) :
    Prop :=
  ∀ key value next, decode key = .ok (value, next) →
    (key ≤ (toNode value).site.key ∧ (toNode value).site.key < next) ∧
      (∃ node ∈ place, origin.Spans node (toNode value).site.span) ∧
        (toNode value).Fits origin.lines.size

theorem bind_eq_ok {key last : Nat} {result : β}
    (hrun : (decode >>= next) key = .ok (result, last)) :
    ∃ value middle, decode key = .ok (value, middle) ∧ next value middle = .ok (result, last) := by
  change (decode key >>= fun found => next found.1 found.2) = .ok (result, last) at hrun
  cases hfound : decode key with
  | error error =>
    rw [hfound] at hrun
    cases hrun
  | ok found =>
    rw [hfound] at hrun
    exact ⟨found.1, found.2, rfl, hrun⟩

theorem Advances.bind (hdecode : Advances post decode)
    (hnext : ∀ value, post value → Advances later (next value)) :
    Advances later (decode >>= next) := by
  intro key result last hrun
  obtain ⟨value, middle, hvalue, hresult⟩ := bind_eq_ok hrun
  obtain ⟨hmiddle, hpost⟩ := hdecode key value middle hvalue
  obtain ⟨hlast, hlater⟩ := hnext value hpost middle result last hresult
  exact ⟨by omega, hlater⟩

theorem advances_pure {value : α} (hvalue : post value) :
    Advances post (pure value : Decode α) := by
  rintro key _ _ ⟨⟩
  exact ⟨Nat.le_refl _, hvalue⟩

theorem advances_fail (node : Option Yaml.Node) (message : String) :
    Advances post (origin.fail node message) := by
  rintro key _ _ ⟨⟩

theorem advances_mapM {f : α → Decode β} (hf : ∀ item, Advances later (f item))
    (items : List α) :
    Advances (fun values => values.length = items.length ∧ ∀ value ∈ values, later value)
      (items.mapM f) := by
  induction items with
  | nil =>
    rw [mapM_nil]
    exact advances_pure ⟨rfl, nofun⟩
  | cons item items ih =>
    rw [mapM_cons]
    refine (hf item).bind fun value hvalue => ih.bind ?_
    rintro values ⟨hlength, hvalues⟩
    exact advances_pure ⟨congrArg (· + 1) hlength, forall_mem_cons.mpr ⟨hvalue, hvalues⟩⟩

theorem Numbers.advances (hnumbers : Numbers origin toNode place decode) :
    Advances (fun value => (toNode value).Fits origin.lines.size) decode := by
  intro key value next hrun
  obtain ⟨⟨hfrom, hto⟩, -, hfits⟩ := hnumbers key value next hrun
  exact ⟨by omega, hfits⟩

/-- The site is taken before the parts are read. -/
theorem numbers_atSite {node : Yaml.Node} {make : Site → Decode α} (hspan : origin.Spans node span)
    (hmake : ∀ site, Advances (fun value => (toNode value).site = site ∧ (toNode value).Formed ∧
      ∀ part ∈ (toNode value).held, part.Fits origin.lines.size) (make site)) :
    Numbers origin toNode (some node) (origin.site span >>= make) := by
  intro key value last hrun
  obtain ⟨site, middle, hsite, hvalue⟩ := bind_eq_ok hrun
  cases hsite
  obtain ⟨hnext, hsite, hformed, hheld⟩ := hmake _ _ value last hvalue
  rw [Node.Fits, forall_mem_walk, hsite]
  exact ⟨⟨Nat.le_refl _, hnext⟩, ⟨node, rfl, hspan⟩, ⟨hformed, hspan.within⟩, hheld⟩

/-- The site is taken after the parts are read. -/
theorem Advances.numbers {toNode : β → Node} (hdecode : Advances post decode)
    (hnext : ∀ value, post value → Numbers origin toNode place (next value)) :
    Numbers origin toNode place (decode >>= next) := by
  intro key result last hrun
  obtain ⟨value, middle, hvalue, hresult⟩ := bind_eq_ok hrun
  obtain ⟨hmiddle, hpost⟩ := hdecode key value middle hvalue
  obtain ⟨⟨hfrom, hto⟩, hlater⟩ := hnext value hpost middle result last hresult
  exact ⟨⟨by omega, hto⟩, hlater⟩

theorem Numbers.map {toNode' : β → Node} {f : α → β} (hdecode : Numbers origin toNode place decode)
    (hf : ∀ value, toNode' (f value) = toNode value) :
    Numbers origin toNode' place (do return f (← decode)) := by
  intro key result last hrun
  obtain ⟨value, _, hvalue, hresult⟩ := bind_eq_ok hrun
  cases hresult
  rw [hf value]
  exact hdecode key value last hvalue

theorem numbers_fail (node : Option Yaml.Node) (message : String) :
    Numbers origin toNode place (origin.fail node message) := by
  rintro key _ _ ⟨⟩

/-! ### What is read of a node before its parts -/

theorem advances_record (schema : Yaml.Schema) (node : Yaml.Node) :
    Advances (fun record => Yaml.Record.ofNode origin.document schema node = .ok record)
      (origin.record schema node) := by
  unfold Origin.record
  split
  · rename_i hrecord
    exact advances_pure hrecord
  · rintro key _ _ ⟨⟩

theorem advances_fields (node : Yaml.Node) :
    Advances (fun fields => ∃ record, fields = Fields.ofRecord record ∧
      Yaml.Record.ofNode origin.document Fields.schema node = .ok record) (origin.fields node) :=
  (advances_record _ node).bind fun record hrecord => advances_pure ⟨record, rfl, hrecord⟩

theorem advances_span {node : Yaml.Node} {fields : Fields}
    (hfields : ∃ record, fields = Fields.ofRecord record ∧
      Yaml.Record.ofNode origin.document Fields.schema node = .ok record) :
    Advances (origin.Spans node) (origin.span node fields) := by
  obtain ⟨record, rfl, hrecord⟩ := hfields
  unfold Origin.span
  split
  · exact advances_pure (.inl rfl)
  · rename_i pos hpos
    split
    · rename_i span hspan
      exact advances_pure (.inr ⟨record, pos, hrecord, hpos, hspan⟩)
    · exact advances_fail _ _

theorem advances_decodeFields (node : Yaml.Node) :
    Advances (fun found => origin.Spans node found.2.2) (decodeFields origin node) := by
  unfold decodeFields
  split
  · refine (advances_fields _).bind fun fields hfields => ?_
    split
    · exact advances_fail _ _
    · exact (advances_span hfields).bind fun _ hspan => advances_pure hspan
  · exact advances_fail _ _

theorem numbers_decodeScalar (node : Yaml.Node) (tag text : String) :
    Numbers origin id (some node) (decodeScalar origin node tag text) := by
  have hleaf {make : Site → Node} (hmake : ∀ site,
      (make site).site = site ∧ (make site).Formed ∧ (make site).held = []) :
      Numbers origin id (some node) (do return make (← origin.site (origin.spanOf node))) :=
    numbers_atSite (.inl rfl) fun site => advances_pure
      ⟨(hmake site).1, (hmake site).2.1, fun part hpart => by simp_all⟩
  unfold decodeScalar
  dsimp only
  split
  · exact hleaf fun _ => ⟨rfl, trivial, rfl⟩
  · exact hleaf fun _ => ⟨rfl, trivial, rfl⟩
  · split
    · exact hleaf fun _ => ⟨rfl, trivial, rfl⟩
    · exact numbers_fail _ _
  · exact hleaf fun _ => ⟨rfl, trivial, rfl⟩
  · exact numbers_fail _ _

theorem eq_of_present? {node : Option Yaml.Node} {child : Yaml.Node}
    (hpresent : present? node = some child) : node = some child := by
  unfold present? at hpresent
  split at hpresent
  · split at hpresent
    · cases hpresent
    · exact hpresent
  · cases hpresent

/-- A type read here takes a fresh key and a span of its text, and so do its parts. -/
theorem numbers_typeWithin (depth : Nat) (node : Option Yaml.Node) :
    Numbers origin type node (typeWithin origin depth node) := by
  induction depth generalizing node with
  | zero => exact numbers_fail _ _
  | succ depth ih =>
    unfold typeWithin
    split
    · exact numbers_fail _ _
    · rename_i hpresent
      obtain rfl := eq_of_present? hpresent
      split
      · exact numbers_atSite (.inl rfl) fun _ => advances_pure ⟨rfl, trivial, nofun⟩
      · refine (advances_fields _).numbers fun fields hfields => ?_
        split
        · exact numbers_fail _ _
        · refine (advances_span hfields).numbers fun span hspan => ?_
          refine (advances_mapM (fun arg => (ih (some arg)).advances) _).numbers
            fun args hargs => ?_
          exact numbers_atSite hspan fun _ =>
            advances_pure ⟨rfl, trivial, forall_mem_map.mpr hargs.2⟩

theorem advances_decodeField (depth : Nat) (node : Yaml.Node) :
    Advances (fun found => (type found.2).Fits origin.lines.size) (decodeField origin depth node) :=
  (advances_record _ node).bind fun _ _ =>
    (numbers_typeWithin depth _).advances.bind fun _ htype => advances_pure htype

theorem advances_variant (depth : Nat) (variant : String × List Yaml.Node) :
    Advances (fun found => ∀ part ∈ found.2.map type, part.Fits origin.lines.size)
      (do return (variant.1, ← variant.2.mapM fun type => typeWithin origin depth (some type)) :
        Decode (String × List TypeExpr)) :=
  (advances_mapM (fun type => (numbers_typeWithin _ (some type)).advances) _).bind
    fun _ htypes => advances_pure (forall_mem_map.mpr htypes.2)

section Parts

variable {size : Nat} {read : Yaml.Node → Decode Node} {pattern : Option Yaml.Node → Decode Pattern}
  (hread : ∀ node, Advances (Fits size) (read node))
  (hpattern : ∀ node, Advances (fun p => (Node.pattern p).Fits size) (pattern node))
  (node : Yaml.Node)

include hread

theorem advances_required (child : Option Yaml.Node) (field : String) :
    Advances (Fits size) (required origin read node child field) := by
  unfold required
  split
  · exact hread _
  · exact advances_fail _ _

theorem advances_optional (child : Option Yaml.Node) :
    Advances (fun found => ∀ n ∈ found.toList, n.Fits size) (optional read child) := by
  unfold optional
  split
  · exact (hread _).bind fun n hn => advances_pure (forall_mem_singleton.mpr hn)
  · exact advances_pure nofun

theorem advances_entry (entry : Option Yaml.Node × Option Yaml.Node) :
    Advances (fun found => ∀ part ∈ [found.1, found.2], part.Fits size)
      (do return (← required origin read node entry.1 "key",
        ← required origin read node entry.2 "value") : Decode (Node × Node)) :=
  (advances_required hread node entry.1 "key").bind fun _ hkey =>
    (advances_required hread node entry.2 "value").bind fun _ hvalue =>
      advances_pure (forall_mem_cons.mpr ⟨hkey, forall_mem_singleton.mpr hvalue⟩)

include hpattern

theorem advances_clause (clause : List Yaml.Node × Option Yaml.Node) :
    Advances (fun found => ∀ part ∈ found.1.map Node.pattern ++ [found.2], part.Fits size)
      (do
        let patterns ← clause.1.mapM fun node => pattern (some node)
        return (patterns, ← required origin read node clause.2 "body") :
        Decode (List Pattern × Node)) :=
  (advances_mapM (fun node => hpattern (some node)) _).bind fun _ hpatterns =>
    (advances_required hread node clause.2 "body").bind fun _ hbody => advances_pure
      (forall_mem_append.mpr ⟨forall_mem_map.mpr hpatterns.2, forall_mem_singleton.mpr hbody⟩)

theorem advances_case (clause : List Yaml.Node × Option Yaml.Node) :
    Advances (fun found => found.1 ≠ [] ∧
        ∀ part ∈ found.1.map Node.pattern ++ [found.2], part.Fits size)
      (do
        let patterns ← clause.1.mapM fun node => pattern (some node)
        if patterns.isEmpty then origin.fail node "when case must have at least one pattern"
        else return (patterns, ← required origin read node clause.2 "body") :
        Decode (List Pattern × Node)) := by
  refine (advances_mapM (fun node => hpattern (some node)) _).bind fun patterns hpatterns => ?_
  split
  · exact advances_fail _ _
  · rename_i hsome
    refine (advances_required hread node clause.2 "body").bind fun _ hbody => advances_pure
      ⟨fun hnil => hsome (List.isEmpty_iff.mpr hnil), forall_mem_append.mpr ⟨?_, ?_⟩⟩
    · exact forall_mem_map.mpr hpatterns.2
    · exact forall_mem_singleton.mpr hbody

theorem advances_generator (generator : Option Yaml.Node × Option Yaml.Node) :
    Advances (fun found => ∀ part ∈ [Node.pattern found.1, found.2], part.Fits size)
      (do return (← pattern generator.1, ← required origin read node generator.2 "iterable") :
        Decode (Pattern × Node)) :=
  (hpattern _).bind fun _ htarget =>
    (advances_required hread node generator.2 "iterable").bind fun _ hiterable =>
      advances_pure (forall_mem_cons.mpr ⟨htarget, forall_mem_singleton.mpr hiterable⟩)

end Parts

theorem branches_ne_nil {branches : List α} {only : α} {found : List (List Pattern × Node)}
    (hlength : found.length = (if branches.isEmpty then [only] else branches).length) :
    found ≠ [] := by
  apply ne_nil_of_length_pos
  rw [hlength]
  cases branches <;> simp

/-! ### Nodes -/

section Step

variable {depth : Nat}
  (hpattern : ∀ node, Numbers origin pattern node (patternWithin origin depth node))
  (hread : ∀ node, Numbers origin id (some node) (nodeWithin origin depth node))
include hpattern hread

theorem numbers_patternWithin (node : Option Yaml.Node) :
    Numbers origin pattern node (patternWithin origin (depth + 1) node) := by
  have hall (nodes : List Yaml.Node) := advances_mapM
    (fun node => (hpattern (some node)).advances) nodes
  unfold patternWithin
  dsimp only
  split
  · exact numbers_fail _ _
  · rename_i present hpresent
    obtain rfl := eq_of_present? hpresent
    have hidentifier {span : Span} (hspan : origin.Spans present span) (name : String)
        (type : Option TypeExpr)
        (htype : ∀ part ∈ type.toList.map Node.type, part.Fits origin.lines.size) :
        Numbers origin pattern (some present)
          (do return .identifier ⟨← origin.site span, name, type⟩) :=
      numbers_atSite hspan fun _ => advances_pure ⟨rfl, trivial, htype⟩
    have hlist {span : Span} (hspan : origin.Spans present span) (elements : List Pattern)
        (rest : Option Binder)
        (hheld : ∀ part ∈ elements.map pattern ++
          rest.toList.map fun binder => pattern (.identifier binder),
          part.Fits origin.lines.size) :
        Numbers origin pattern (some present)
          (do return .list (← origin.site span) elements rest) :=
      numbers_atSite hspan fun _ => advances_pure ⟨rfl, trivial, hheld⟩
    split
    · refine numbers_atSite (.inl rfl) fun _ => ?_
      split
      · exact advances_pure ⟨rfl, trivial, nofun⟩
      · exact advances_pure ⟨rfl, trivial, nofun⟩
    · refine numbers_atSite (.inl rfl) fun _ =>
        (numbers_decodeScalar _ _ _).advances.bind fun found hfound => ?_
      split
      · exact advances_pure ⟨rfl, trivial, forall_mem_singleton.mpr hfound⟩
      · exact advances_fail _ _
    · refine (advances_decodeFields _).numbers ?_
      rintro ⟨fields, kind, span⟩ hspan
      cases kind with
      | identifierPattern =>
        dsimp only
        split
        · refine (numbers_typeWithin depth _).advances.numbers fun _ htype => ?_
          rw [pure_bind]
          exact hidentifier hspan _ _ (forall_mem_singleton.mpr htype)
        · rw [pure_bind]
          exact hidentifier hspan _ _ nofun
      | wildcardPattern => exact numbers_atSite hspan fun _ => advances_pure ⟨rfl, trivial, nofun⟩
      | literalPattern =>
        refine (advances_required (fun node => (hread node).advances) _ _ _).numbers
          fun found hfound => ?_
        split
        · exact numbers_atSite hspan fun _ =>
            advances_pure ⟨rfl, trivial, forall_mem_singleton.mpr hfound⟩
        · exact numbers_fail _ _
      | tuplePattern | constructorPattern =>
        refine (hall _).numbers fun _ hparts => ?_
        exact numbers_atSite hspan fun _ =>
          advances_pure ⟨rfl, trivial, forall_mem_map.mpr hparts.2⟩
      | listPattern =>
        refine (hall _).numbers fun _ hparts => ?_
        dsimp only
        split
        · rw [pure_bind]
          exact hlist hspan _ _ (forall_mem_append.mpr ⟨forall_mem_map.mpr hparts.2, nofun⟩)
        · refine (hpattern _).advances.numbers fun found hfound => ?_
          split
          · rw [pure_bind]
            exact hlist hspan _ _ (forall_mem_append.mpr
              ⟨forall_mem_map.mpr hparts.2, forall_mem_singleton.mpr hfound⟩)
          · exact numbers_fail _ _
      | _ => exact numbers_fail _ _

/-- A statement read here takes a fresh key and a span of its text, and so do its parts. -/
theorem numbers_nodeWithin (node : Yaml.Node) :
    Numbers origin id (some node) (nodeWithin origin (depth + 1) node) := by
  have hpatterns (node : Option Yaml.Node) := (hpattern node).advances
  have hnodes (node : Yaml.Node) := (hread node).advances
  have hrequired (child : Option Yaml.Node) (field : String) : Advances (Fits origin.lines.size)
      (required origin (nodeWithin origin depth) node child field) :=
    advances_required hnodes node child field
  have hall (nodes : List Yaml.Node) := advances_mapM hnodes nodes
  unfold nodeWithin
  dsimp only
  split
  · exact numbers_decodeScalar _ _ _
  · refine (advances_decodeFields _).numbers ?_
    rintro ⟨fields, kind, span⟩ hspan
    cases kind with
    | number | string | identifier =>
      exact numbers_atSite hspan fun _ => advances_pure ⟨rfl, trivial, nofun⟩
    | boolean =>
      dsimp only
      split
      · exact numbers_atSite hspan fun _ => advances_pure ⟨rfl, trivial, nofun⟩
      · exact numbers_fail _ _
    | list | tuple | block | module =>
      exact numbers_atSite hspan fun _ => (hall _).bind fun parts hparts =>
        advances_pure ⟨rfl, trivial, hparts.2⟩
    | map =>
      exact numbers_atSite hspan fun _ => (advances_mapM (advances_entry hnodes node) _).bind
        fun _ hentries => advances_pure ⟨rfl, trivial, forall_mem_flatMap.mpr hentries.2⟩
    | application =>
      exact numbers_atSite hspan fun _ => (hrequired _ _).bind fun function hfunction =>
        (advances_optional hnodes _).bind fun argument hargument =>
          advances_pure ⟨rfl, trivial, forall_mem_cons.mpr ⟨hfunction, hargument⟩⟩
    | abstraction =>
      exact numbers_atSite hspan fun _ =>
        (advances_mapM (advances_clause hnodes hpatterns node) _).bind fun branches hbranches =>
          advances_pure ⟨rfl, branches_ne_nil hbranches.1, forall_mem_flatMap.mpr hbranches.2⟩
    | assignment =>
      exact numbers_atSite hspan fun _ => (hpatterns _).bind fun _ htarget =>
        (hrequired _ _).bind fun value hvalue => advances_pure
          ⟨rfl, trivial, forall_mem_cons.mpr ⟨htarget, forall_mem_singleton.mpr hvalue⟩⟩
    | when =>
      exact numbers_atSite hspan fun _ => (hrequired _ _).bind fun _ hsubject =>
        (advances_mapM (advances_case hnodes hpatterns node) _).bind fun _ hcases =>
          have hparts := forall_mem_flatMap.mpr fun clause hclause => (hcases.2 clause hclause).2
          advances_pure ⟨rfl, fun clause hclause => (hcases.2 clause hclause).1,
            forall_mem_cons.mpr ⟨hsubject, hparts⟩⟩
    | conditional =>
      exact numbers_atSite hspan fun _ => (hrequired _ _).bind fun condition hcondition =>
        (hrequired _ _).bind fun yes hyes => (advances_optional hnodes _).bind fun no hno =>
          advances_pure ⟨rfl, trivial,
            forall_mem_cons.mpr ⟨hcondition, forall_mem_cons.mpr ⟨hyes, hno⟩⟩⟩
    | comprehension =>
      exact numbers_atSite hspan fun _ =>
        (advances_mapM (advances_generator hnodes hpatterns node) _).bind fun _ hgenerators =>
          (hrequired _ _).bind fun _ hbody => advances_pure ⟨rfl, trivial, forall_mem_append.mpr
            ⟨forall_mem_flatMap.mpr hgenerators.2, forall_mem_singleton.mpr hbody⟩⟩
    | access =>
      exact numbers_atSite hspan fun _ => (hrequired _ _).bind fun target htarget =>
        advances_pure ⟨rfl, trivial, forall_mem_singleton.mpr htarget⟩
    | annotated =>
      exact numbers_atSite hspan fun _ => (hrequired _ _).bind fun value hvalue =>
        (numbers_typeWithin _ _).advances.bind fun _ htype => advances_pure
          ⟨rfl, trivial, forall_mem_cons.mpr ⟨htype, forall_mem_singleton.mpr hvalue⟩⟩
    | importFile =>
      dsimp only
      split
      · exact numbers_fail _ _
      · exact numbers_atSite hspan fun _ => advances_pure ⟨rfl, trivial, nofun⟩
    | classType =>
      exact numbers_atSite hspan fun _ => (advances_mapM (advances_decodeField _) _).bind
        fun _ hfields => advances_pure ⟨rfl, trivial, forall_mem_map.mpr hfields.2⟩
    | enumType =>
      exact numbers_atSite hspan fun _ => (advances_mapM (advances_variant depth) _).bind
        fun _ hvariants => advances_pure ⟨rfl, trivial, forall_mem_flatMap.mpr hvariants.2⟩
    | type => exact (numbers_typeWithin _ _).map fun _ => rfl
    | _ => exact (hpattern _).map fun _ => rfl

end Step

/-- By induction on the depth, for patterns and nodes at once: a pattern can hold a literal. -/
theorem numbers_within (origin : Origin) (depth : Nat) :
    (∀ node, Numbers origin pattern node (patternWithin origin depth node)) ∧
      ∀ node, Numbers origin id (some node) (nodeWithin origin depth node) := by
  induction depth with
  | zero => exact ⟨fun _ => numbers_fail _ _, fun _ => numbers_fail _ _⟩
  | succ depth ih =>
    exact ⟨numbers_patternWithin ih.1 ih.2, numbers_nodeWithin ih.1 ih.2⟩

theorem pairwise_mapM {f : Yaml.Node → Decode Node}
    (hf : ∀ item, Numbers origin id (some item) (f item))
    (items : List Yaml.Node) {key next : Nat} {values : List Node}
    (hrun : items.mapM f key = .ok (values, next)) :
    (∀ value ∈ values, key ≤ value.site.key) ∧
      values.Pairwise fun first second => first.site.key < second.site.key := by
  induction items generalizing key values with
  | nil =>
    rw [mapM_nil] at hrun
    cases hrun
    exact ⟨nofun, .nil⟩
  | cons item items ih =>
    rw [mapM_cons] at hrun
    obtain ⟨value, middle, hvalue, hrun⟩ := bind_eq_ok hrun
    obtain ⟨others, last, hothers, hrun⟩ := bind_eq_ok hrun
    cases hrun
    obtain ⟨⟨hfrom, hto⟩, -⟩ := hf item key value middle hvalue
    dsimp only [id] at hfrom hto
    obtain ⟨hmiddle, hpairwise⟩ := ih hothers
    refine ⟨forall_mem_cons.mpr ⟨hfrom, fun other hother => ?_⟩, .cons ?_ hpairwise⟩
    · have hlater := hmiddle other hother
      omega
    · intro other hother
      have hlater := hmiddle other hother
      omega

/-! ### Programs -/

namespace Program

variable {path text : String} {program : Program}

variable (hread : Program.ofText path text = .ok program)
include hread

theorem ofText_eq_ok : program.span = ⟨0, text.utf8ByteSize⟩ ∧
      (program.statements = [] ∨ ∃ origin depth nodes key next, origin.lines = .ofText text ∧
        List.mapM (nodeWithin origin depth) nodes key = .ok (program.statements, next)) := by
  unfold Program.ofText at hread
  dsimp only at hread
  split at hread
  · cases hread
  · cases hread
    exact ⟨rfl, .inl rfl⟩
  · split at hread
    · rename_i hrun
      cases hread
      refine ⟨rfl, .inr ?_⟩
      unfold decodeRoot at hrun
      dsimp only at hrun
      split at hrun
      · obtain ⟨fields, middle, -, hrun⟩ := bind_eq_ok hrun
        exact ⟨_, _, _, _, _, rfl, hrun⟩
      · cases hrun
    · cases hread

theorem pairwise_of_ofText :
    program.statements.Pairwise fun first second => first.site.key < second.site.key := by
  obtain ⟨-, hnone | ⟨origin, depth, nodes, key, next, -, hrun⟩⟩ := ofText_eq_ok hread
  · rw [hnone]
    exact .nil
  · exact (pairwise_mapM (numbers_within origin depth).2 nodes hrun).2

theorem fits_of_ofText : ∀ node ∈ program.statements, node.Fits text.utf8ByteSize := by
  obtain ⟨-, hnone | ⟨origin, depth, nodes, key, next, hlines, hrun⟩⟩ := ofText_eq_ok hread
  · rw [hnone]
    exact nofun
  · have hsize : origin.lines.size = text.utf8ByteSize := congrArg Lines.size hlines
    have hnodes (node : Yaml.Node) := ((numbers_within origin depth).2 node).advances
    exact hsize ▸ (advances_mapM hnodes nodes key _ next hrun).2.2

theorem formed_of_ofText : ∀ node ∈ program.expressions, node.Formed := by
  rw [Program.expressions, forall_mem_flatMap]
  intro node hnode part hpart
  exact (fits_of_ofText hread node hnode part (node.expressions_subset_walk hpart)).1

end Program

end Tree

end TypeSearch
