import Mathlib.Data.String.Basic
import TypeSearch.Proofs.Outcome
import TypeSearch.Proofs.Tree.Keys

/-!
# Where nodes are recorded to be

The lines of a text are found by their bytes, and a column counts the characters before it. As the
two are added, a node is recorded where it stands only if the characters before it in its line take
one byte each, and otherwise too early.
-/

namespace TypeSearch

open String (utf8Len)

namespace Lines

variable {text : String} {lines line more : List Char}

/-- A place in a text at which a character stands: behind `lines`, which are whole, and `line`,
which is the beginning of the next one. -/
structure IsPlace (text : String) (lines line : List Char) : Prop where
  split : ∃ rest, rest ≠ [] ∧ text.toList = lines ++ (line ++ rest)
  whole : lines = [] ∨ lines.getLast? = some '\n'
  unbroken : '\n' ∉ line

/-- The bytes that characters take beyond one each. -/
def surplus : List Char → Nat
  | [] => 0
  | c :: rest => (c.utf8Size - 1) + surplus rest

theorem utf8Len_eq_length_add_surplus (chars : List Char) :
    utf8Len chars = chars.length + surplus chars := by
  induction chars with
  | nil => rfl
  | cons c rest ih =>
    have hpos := c.utf8Size_pos
    rw [String.utf8Len_cons, surplus, List.length_cons]
    omega

theorem surplus_eq_zero_iff {chars : List Char} :
    surplus chars = 0 ↔ ∀ c ∈ chars, c.utf8Size = 1 := by
  induction chars with
  | nil => simp [surplus]
  | cons c rest ih =>
    have hpos := c.utf8Size_pos
    rw [surplus, List.forall_mem_cons, ← ih]
    omega

/-- A line starts where the lines before it end, if something follows. -/
theorem getElem?_startsFrom {pending : Bool} {index : Nat}
    (hwhole : lines = [] ∧ pending = true ∨ lines.getLast? = some '\n') (hmore : more ≠ [])
    (hindex : index + 1 = lines.count '\n' + pending.toNat) (offset : Nat) :
    (startsFrom (lines ++ more) offset pending)[index]? = some (offset + utf8Len lines) := by
  induction lines generalizing pending index offset with
  | nil =>
    obtain ⟨-, rfl⟩ : _ ∧ pending = true := hwhole.resolve_right nofun
    obtain ⟨c, rest, rfl⟩ := List.exists_cons_of_ne_nil hmore
    obtain rfl : index = 0 := by simpa using hindex
    rfl
  | cons c rest ih =>
    have hlast : (c :: rest).getLast? = some '\n' := hwhole.resolve_left nofun
    have hrest : rest = [] ∧ (c == '\n') = true ∨ rest.getLast? = some '\n' := by
      cases rest with
      | nil => simpa using hlast
      | cons => exact .inr hlast
    have hcount : (c :: rest).count '\n' = rest.count '\n' + (c == '\n').toNat := by
      rw [List.count_cons]
      cases c == '\n' <;> rfl
    have hbreak : 0 < (c :: rest).count '\n' := List.count_pos_iff.mpr (List.mem_of_getLast? hlast)
    rw [String.utf8Len_cons, Nat.add_comm (utf8Len rest), ← Nat.add_assoc]
    cases pending with
    | false => exact ih hrest (hindex.trans hcount) _
    | true =>
      -- the first start is that of the line that was pending
      obtain ⟨previous, rfl⟩ : ∃ previous, index = previous + 1 :=
        Nat.exists_eq_succ_of_ne_zero (by simp at hindex; omega)
      exact ih hrest (by simpa using hindex.trans (congrArg (· + 1) hcount)) _

variable (hplace : IsPlace text lines line)
include hplace

theorem IsPlace.getElem?_starts :
    (ofText text).starts[lines.count '\n']? = some (utf8Len lines) := by
  obtain ⟨rest, hrest, hsplit⟩ := hplace.split
  rw [ofText, hsplit, List.getElem?_toArray, ← Nat.zero_add (utf8Len lines)]
  exact getElem?_startsFrom (hplace.whole.imp_left fun hnil => ⟨hnil, rfl⟩) (by simp [hrest]) rfl 0

theorem IsPlace.utf8Len_le_size : utf8Len (lines ++ line) ≤ (ofText text).size := by
  obtain ⟨rest, -, hsplit⟩ := hplace.split
  have hsize : (ofText text).size = utf8Len text.toList := by
    rw [← String.utf8ByteSize_ofList, String.ofList_toList]
    rfl
  simp [hsize, hsplit]

end Lines

namespace Tree

open Lines

variable {path text : String} {document : Yaml.Document} {node : Yaml.Node} {lines line : List Char}
  {origin : Origin} {span : Span}

/-- An expression, pattern or type that is read from a YAML node is recorded at a range. -/
inductive Origin.Records (origin : Origin) (node : Yaml.Node) : Span → Prop
  | node {depth key next : Nat} {found : Node}
      (hread : nodeWithin origin depth node key = .ok (found, next)) :
      origin.Records node found.site.span
  | pattern {depth key next : Nat} {found : Pattern}
      (hread : patternWithin origin depth (some node) key = .ok (found, next)) :
      origin.Records node found.site.span
  | type {depth key next : Nat} {found : TypeExpr}
      (hread : typeWithin origin depth (some node) key = .ok (found, next)) :
      origin.Records node found.site.span

theorem Origin.Records.spans (hrecords : origin.Records node span) : origin.Spans node span := by
  cases hrecords with
  | node hread =>
    obtain ⟨_, ⟨⟩, hspans⟩ := ((numbers_within origin _).2 node _ _ _ hread).2.1
    exact hspans
  | pattern hread =>
    obtain ⟨_, ⟨⟩, hspans⟩ := ((numbers_within origin _).1 (some node) _ _ _ hread).2.1
    exact hspans
  | type hread =>
    obtain ⟨_, ⟨⟩, hspans⟩ := (numbers_typeWithin _ (some node) _ _ _ hread).2.1
    exact hspans

theorem Origin.start_spanOf (origin : Origin) (node : Yaml.Node) :
    (origin.spanOf node).start = origin.offset node := by
  cases node <;> rfl

theorem Origin.offset_of_isPlace (hplace : IsPlace text lines line)
    (hline : node.line = lines.count '\n' + 1) (hcolumn : node.column = line.length + 1) :
    Origin.offset ⟨path, .ofText text, document⟩ node = utf8Len lines + line.length := by
  have hstart := hplace.getElem?_starts
  have hcount : lines.count '\n' < (ofText text).count := (Array.getElem?_eq_some_iff.mp hstart).1
  have hsize : utf8Len lines + line.length ≤ (ofText text).size := by
    have hle := hplace.utf8Len_le_size
    rw [String.utf8Len_append, utf8Len_eq_length_add_surplus line] at hle
    omega
  have hfound : (ofText text).startOf (lines.count '\n' + 1) = utf8Len lines := by
    rw [startOf, Array.getD_eq_getD_getElem?, Nat.add_sub_cancel, hstart, Option.getD_some]
  rw [offset, hline, hcolumn, Nat.min_eq_left hcount, hfound, Nat.add_sub_cancel,
    Nat.min_eq_left hsize]

/-- A node without a range of its own is recorded before the byte at which it stands, by as many
bytes as the characters before it in its line take beyond one each. -/
theorem recorded_start_counts_characters (hplace : IsPlace text lines line)
    (hline : node.line = lines.count '\n' + 1) (hcolumn : node.column = line.length + 1)
    (hpos : ∀ record, Yaml.Record.ofNode document Fields.schema node = .ok record →
      record.ints? "pos" = none)
    (hrecords : Origin.Records ⟨path, .ofText text, document⟩ node span) :
    span.start + surplus line = utf8Len (lines ++ line) ∧
      (span.start = utf8Len (lines ++ line) ↔ ∀ c ∈ line, c.utf8Size = 1) := by
  have hstart : span.start = (utf8Len lines + line.length : Nat) := by
    rcases hrecords.spans with rfl | ⟨record, pos, hrecord, hgiven, -⟩
    · rw [Origin.start_spanOf, Origin.offset_of_isPlace hplace hline hcolumn]
    · cases (hpos record hrecord).symm.trans hgiven
  have hbytes := utf8Len_eq_length_add_surplus line
  rw [← surplus_eq_zero_iff, String.utf8Len_append, hstart]
  omega

/-- Behind `é` a node is recorded one byte before the place at which it stands. -/
theorem recorded_start_counts_characters_behind_wide :
    let line := "statements: [é, ".toList
    let node := .scalar ⟨16, 0, 16⟩ "!!str" "xyz"
    let origin : Origin :=
      ⟨"main.yaml", .ofText "statements: [é, xyz]\n", ⟨.sequence ⟨12, 0, 12⟩ [node], #[], 1⟩⟩
    IsPlace "statements: [é, xyz]\n" [] line ∧ origin.Records node ⟨16, 19⟩ ∧
      (16 : Int) + surplus line = utf8Len ([] ++ line) ∧ surplus line = 1 := by
  intro line node origin
  have hplace : IsPlace "statements: [é, xyz]\n" [] line :=
    ⟨⟨"xyz]\n".toList, by decide, by decide⟩, .inl rfl, by decide⟩
  have hread : nodeWithin origin 1 node 0 = .ok (.identifier ⟨0, ⟨16, 19⟩⟩ "xyz", 1) := rfl
  have hrecords : origin.Records node ⟨16, 19⟩ := .node hread
  refine ⟨hplace, hrecords, (recorded_start_counts_characters hplace rfl rfl ?_ hrecords).1, rfl⟩
  intro record hrecord
  cases hrecord

/-! ### Ranges lie in the text -/

end Tree

end TypeSearch
