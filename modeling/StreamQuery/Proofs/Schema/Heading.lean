/-
The index of a heading says what its columns say.

A heading is never changed: it is made of columns, and the index is made with it.  So whatever way
it was had, its index is the one that its columns have, and that at every level, for the headings of
records inside it were made in the same way.  All else follows: a name leads to the last column of
that name, headings with the same attributes are the same, and where two headings are joined the
index finds in the joined row what it found in the row on its own.
-/
import Mathlib
import StreamQuery.Proofs.Json.Decode
import StreamQuery.Proofs.Lookup
import StreamQuery.Row
import StreamQuery.Schema.Heading

namespace StreamQuery

/-! ### The map -/

namespace NameIndex

variable {x y : NameIndex} {name other : String}

theorem lookup_filter_ne {entries : List (String × Nat)} (h : name ≠ other) :
    (entries.filter fun e => e.1 != other).lookup name = entries.lookup name := by
  induction entries with
  | nil => rfl
  | cons e entries ih =>
      obtain ⟨key, i⟩ := e
      by_cases hkey : key = other
      · subst hkey
        rw [List.filter_cons_of_neg (by simp), ih, Lookup.cons, if_neg h]
      · rw [List.filter_cons_of_pos (by simpa using hkey), Lookup.cons, Lookup.cons, ih]

theorem find?_insert (x : NameIndex) (other : String) (i : Nat) (name : String) :
    (x.insert other i).find? name = if name = other then some i else x.find? name := by
  unfold find? insert
  rw [Lookup.cons]
  split
  · rfl
  · rename_i hne
    exact lookup_filter_ne hne

theorem same_self (x : NameIndex) : x.same x = true := by
  unfold same
  rw [beq_self_eq_true, Bool.true_and, List.all_eq_true]
  intro e he
  rw [beq_iff_eq]
  exact (Lookup.eq_some_iff_mem x.distinct).mpr he

end NameIndex

/-! ### The last column of a name -/

namespace Schema

variable {s t : Schema} {a : Attribute} {name : String} {i : Nat}

/-- Looking on from a position finds what looking from the front does, that much further on. -/
theorem go_eq (name : String) : ∀ (s : Schema) (i : Nat) (found : Option Nat),
    indexOf?.go name s i found = ((indexOf? s name).map (i + ·)).or found
  | [], _, _ => rfl
  | a :: rest, i, found => by
      unfold indexOf?
      rw [indexOf?.go, indexOf?.go, go_eq name rest, go_eq name rest (0 + 1)]
      cases indexOf? rest name with
      | some j => simp [Nat.add_assoc, Nat.add_comm 1 j]
      | none => by_cases ha : a.name = name <;> simp [ha]

theorem indexOf?_cons (a : Attribute) (rest : Schema) (name : String) :
    indexOf? (a :: rest) name
      = ((indexOf? rest name).map (1 + ·)).or (if a.name = name then some 0 else none) :=
  go_eq name rest 1 _

theorem indexOf?_eq_none : s.indexOf? name = none ↔ ∀ a ∈ s, a.name ≠ name := by
  induction s with
  | nil => exact iff_of_true rfl nofun
  | cons a rest ih =>
      rw [indexOf?_cons, Option.or_eq_none_iff, Option.map_eq_none_iff, ih, List.forall_mem_cons]
      simp [and_comm]

/-- A name leads to the last column of that name: to one that has it, with none behind that has. -/
theorem indexOf?_eq_some : s.indexOf? name = some i ↔
    s[i]?.map Attribute.name = some name ∧ ∀ a ∈ s.drop (i + 1), a.name ≠ name := by
  induction s generalizing i with
  | nil => exact iff_of_false nofun nofun
  | cons a rest ih =>
      rw [indexOf?_cons]
      cases i with
      | zero =>
          rw [List.drop_succ_cons, List.drop_zero, ← indexOf?_eq_none]
          cases indexOf? rest name <;> simp
      | succ k =>
          rw [List.drop_succ_cons, List.getElem?_cons_succ, ← ih]
          cases indexOf? rest name with
          | none => by_cases ha : a.name = name <;> simp [ha]
          | some j => simp [Nat.add_comm 1 j]

theorem lt_of_indexOf? (h : s.indexOf? name = some i) : i < s.length := by
  obtain ⟨a, ha, -⟩ := Option.map_eq_some_iff.mp (indexOf?_eq_some.mp h).1
  exact (List.getElem?_eq_some_iff.mp ha).1

theorem indexOf?_append (s t : Schema) (name : String) :
    indexOf? (s ++ t) name = match indexOf? t name with
      | some j => some (s.length + j)
      | none => indexOf? s name := by
  induction s with
  | nil =>
      rw [List.nil_append]
      cases indexOf? t name <;> simp [indexOf?, indexOf?.go]
  | cons a rest ih =>
      rw [List.cons_append, indexOf?_cons, ih, indexOf?_cons]
      cases indexOf? t name with
      | some j => simp; omega
      | none => rfl

end Schema

/-! ### Columns and attributes -/

theorem Column.attributes_eq_map (cs : List Column) :
    Column.attributes cs = cs.map fun c => ⟨c.name, c.type.plain⟩ := by
  induction cs with
  | nil => rfl
  | cons c rest ih =>
      obtain ⟨name, type⟩ := c
      rw [Column.attributes, ih, List.map_cons]

theorem Column.ofAttributes_eq_map (as : List Attribute) :
    Column.ofAttributes as = as.map fun a => ⟨a.name, ColumnType.ofPlain a.type⟩ := by
  induction as with
  | nil => rfl
  | cons a rest ih =>
      obtain ⟨name, type⟩ := a
      rw [Column.ofAttributes, ih, List.map_cons]

mutual
theorem ColumnType.plain_ofPlain : ∀ t : DataType, (ColumnType.ofPlain t).plain = t
  | .null => rfl
  | .int => rfl
  | .bool => rfl
  | .string => rfl
  | .struct as => by
      rw [ColumnType.ofPlain, Heading.new, ColumnType.plain, Column.attributes_ofAttributes as]
  | .unresolved key => rfl
theorem Column.attributes_ofAttributes : ∀ as : List Attribute,
    Column.attributes (Column.ofAttributes as) = as
  | [] => rfl
  | ⟨name, type⟩ :: rest => by
      rw [Column.ofAttributes, Column.attributes, ColumnType.plain_ofPlain type,
        Column.attributes_ofAttributes rest]
end

mutual
theorem ColumnType.same_self : ∀ t : ColumnType, t.same t = true
  | .null => rfl
  | .int => rfl
  | .bool => rfl
  | .string => rfl
  | .struct ⟨cs, x⟩ => by
      rw [ColumnType.same, Column.sameAll_self cs, NameIndex.same_self x, Bool.and_self]
  | .unresolved key => by
      rw [ColumnType.same, beq_self_eq_true]
theorem Column.sameAll_self : ∀ cs : List Column, Column.sameAll cs cs = true
  | [] => rfl
  | ⟨name, type⟩ :: rest => by
      rw [Column.sameAll, beq_self_eq_true, ColumnType.same_self type, Column.sameAll_self rest,
        Bool.and_self, Bool.and_self]
end

mutual
theorem ColumnType.plain_of_same : ∀ {t u : ColumnType}, t.same u = true → t.plain = u.plain
  | .null, u, h => by cases u <;> simp_all [ColumnType.same]
  | .int, u, h => by cases u <;> simp_all [ColumnType.same]
  | .bool, u, h => by cases u <;> simp_all [ColumnType.same]
  | .string, u, h => by cases u <;> simp_all [ColumnType.same]
  | .struct ⟨cs, x⟩, u, h => by
      cases u with
      | struct s =>
          obtain ⟨ds, y⟩ := s
          rw [ColumnType.same, Bool.and_eq_true] at h
          exact congrArg DataType.struct (Column.attributes_of_sameAll h.1)
      | _ => simp [ColumnType.same] at h
  | .unresolved k, u, h => by cases u <;> simp_all [ColumnType.same]
theorem Column.attributes_of_sameAll : ∀ {cs ds : List Column}, Column.sameAll cs ds = true →
    Column.attributes cs = Column.attributes ds
  | [], [], _ => rfl
  | [], _ :: _, h => by simp [Column.sameAll] at h
  | _ :: _, [], h => by simp [Column.sameAll] at h
  | ⟨n, t⟩ :: cs, ⟨m, u⟩ :: ds, h => by
      simp only [Column.sameAll, Bool.and_eq_true, beq_iff_eq] at h
      rw [Column.attributes, Column.attributes, h.1.1, ColumnType.plain_of_same h.1.2,
        Column.attributes_of_sameAll h.2]
end

namespace Heading

variable {s t u : Heading} {name : String}

/-! ### Headings that can be had -/

/-- A heading made of columns, of lists, of two headings or of a text.  The records inside its
columns have headings that were had in the same way. -/
inductive Obtained : Heading → Prop
  | new {columns : List Column}
      (h : ∀ c ∈ columns, ∀ s, c.type = .struct s → Obtained s) : Obtained (new columns)
  | ofLists {names : List String} {types : List ColumnType}
      (h : ∀ t ∈ types, ∀ s, t = .struct s → Obtained s) : Obtained (ofLists names types)
  | merge {s t : Heading} (hs : Obtained s) (ht : Obtained t) : Obtained (s.merge t)
  | ofJson {j : Json} {s : Heading} (h : ofJson? j = some s) : Obtained s

theorem schema_ofSchema (s : Schema) : (ofSchema s).schema = s :=
  Column.attributes_ofAttributes s

theorem schema_merge (s t : Heading) : (s.merge t).schema = s.schema.merge t.schema := by
  unfold schema merge new Schema.merge
  rw [Column.attributes_eq_map, List.map_append, ← Column.attributes_eq_map,
    ← Column.attributes_eq_map]

theorem schema_ofLists (names : List String) (types : List ColumnType) :
    (ofLists names types).schema = Schema.ofLists names (types.map ColumnType.plain) := by
  unfold schema ofLists new Schema.ofLists
  rw [Column.attributes_eq_map, List.map_zipWith, List.zipWith_map_right]

/-- A type is rebuilt from what is left of it without indexes, if the headings in it are. -/
theorem ofPlain_plain {t : ColumnType} (h : ∀ s, t = .struct s → s = ofSchema s.schema) :
    ColumnType.ofPlain t.plain = t := by
  cases t with
  | struct s =>
      have hs := h s rfl
      obtain ⟨cs, x⟩ := s
      rw [ColumnType.plain, ColumnType.ofPlain]
      exact congrArg ColumnType.struct hs.symm
  | _ => rfl

theorem ofAttributes_attributes {cs : List Column}
    (h : ∀ c ∈ cs, ∀ s, c.type = .struct s → s = ofSchema s.schema) :
    Column.ofAttributes (Column.attributes cs) = cs := by
  rw [Column.attributes_eq_map, Column.ofAttributes_eq_map, List.map_map]
  conv_rhs => rw [← List.map_id cs]
  refine List.map_congr_left fun c hc => ?_
  obtain ⟨name, type⟩ := c
  exact congrArg (Column.mk name) (ofPlain_plain (h _ hc))

/-- The attributes of a heading determine it, its index and all. -/
theorem Obtained.eq_ofSchema (h : s.Obtained) : s = ofSchema s.schema := by
  induction h with
  | new h ih => exact congrArg Heading.new (ofAttributes_attributes ih).symm
  | @ofLists names types h ih =>
      refine congrArg Heading.new (ofAttributes_attributes fun c hc s hs => ?_).symm
      rw [← List.map_uncurry_zip_eq_zipWith] at hc
      obtain ⟨⟨name, t⟩, hmem, rfl⟩ := List.mem_map.mp hc
      exact ih t (List.of_mem_zip hmem).2 s hs
  | @merge s t hs ht ihs iht =>
      have hcs : s.columns = Column.ofAttributes s.schema := congrArg Heading.columns ihs
      have hct : t.columns = Column.ofAttributes t.schema := congrArg Heading.columns iht
      rw [ofSchema, schema_merge, Schema.merge, Column.ofAttributes_eq_map, List.map_append,
        ← Column.ofAttributes_eq_map, ← Column.ofAttributes_eq_map, ← hcs, ← hct, Heading.merge]
  | ofJson h =>
      obtain ⟨schema, -, rfl⟩ := Option.map_eq_some_iff.mp h
      rw [schema_ofSchema]

/-- Headings are the same exactly if their columns are, or if their attributes are. -/
theorem Obtained.same_iff (hs : s.Obtained) (ht : t.Obtained) :
    s.same t = true ↔ s.schema = t.schema := by
  constructor
  · intro h
    exact Column.attributes_of_sameAll (Bool.and_eq_true_iff.mp h).1
  · intro h
    rw [hs.eq_ofSchema, ht.eq_ofSchema, h]
    unfold same
    rw [Column.sameAll_self, NameIndex.same_self, Bool.and_self]

theorem Obtained.sameAll_iff (hs : s.Obtained) (ht : t.Obtained) :
    Column.sameAll s.columns t.columns = true ↔ s.schema = t.schema := by
  refine ⟨Column.attributes_of_sameAll, fun h => ?_⟩
  rw [hs.eq_ofSchema, ht.eq_ofSchema, h]
  exact Column.sameAll_self _

/-! ### Where the names lead -/

/-- The index that is made while the columns are gone through is that of the attributes. -/
theorem find?_enter (name : String) : ∀ (cs : List Column) (i : Nat) (x : NameIndex),
    (enter cs i x).find? name
      = Schema.indexOf?.go name (Column.attributes cs) i (x.find? name)
  | [], _, _ => rfl
  | ⟨other, type⟩ :: rest, i, x => by
      rw [enter, find?_enter name rest, NameIndex.find?_insert, Column.attributes,
        Schema.indexOf?.go]
      simp only [eq_comm]

theorem indexOf?_new (cs : List Column) (name : String) :
    (new cs).indexOf? name = Schema.indexOf? (Column.attributes cs) name :=
  find?_enter name cs 0 .empty

theorem Obtained.indexOf? (h : s.Obtained) (name : String) :
    s.indexOf? name = s.schema.indexOf? name := by
  conv_lhs => rw [h.eq_ofSchema]
  rw [ofSchema, indexOf?_new, Column.attributes_ofAttributes]

/-- Making a heading of its own columns changes nothing. -/
theorem Obtained.new_columns (h : s.Obtained) : Heading.new s.columns = s := by
  have hcolumns : s.columns = Column.ofAttributes s.schema := congrArg Heading.columns h.eq_ofSchema
  rw [hcolumns]
  exact h.eq_ofSchema.symm

theorem length_schema (s : Heading) : s.schema.length = s.size := by
  rw [schema, Column.attributes_eq_map, List.length_map, size]

/-! ### Headings that are joined -/

theorem merge_assoc (s t u : Heading) : (s.merge t).merge u = s.merge (t.merge u) :=
  congrArg Heading.new (List.append_assoc s.columns t.columns u.columns)

theorem Obtained.empty_merge (h : s.Obtained) : empty.merge s = s :=
  h.new_columns

theorem Obtained.merge_empty (h : s.Obtained) : s.merge empty = s := by
  have hcolumns : s.columns ++ empty.columns = s.columns := List.append_nil s.columns
  rw [Heading.merge, hcolumns]
  exact h.new_columns

theorem Obtained.indexOf?_merge (hs : s.Obtained) (ht : t.Obtained) (name : String) :
    (s.merge t).indexOf? name = match t.indexOf? name with
      | some j => some (s.size + j)
      | none => s.indexOf? name := by
  rw [(hs.merge ht).indexOf?, schema_merge, Schema.merge, Schema.indexOf?_append, length_schema,
    ← hs.indexOf?, ← ht.indexOf?]

/-- In a joined row a name leads to the field that it leads to in the right row, or else to the one
that it leads to in the left row. -/
theorem Obtained.field_merge (hs : s.Obtained) (ht : t.Obtained) {left right : Item}
    (hleft : left.fields.length = s.size) (name : String) :
    ((s.merge t).indexOf? name).bind ((left.append right).fields[·]?)
      = match t.indexOf? name with
        | some j => right.fields[j]?
        | none => (s.indexOf? name).bind (left.fields[·]?) := by
  have hfields : (left.append right).fields = left.fields ++ right.fields := rfl
  rw [hs.indexOf?_merge ht, hfields]
  cases t.indexOf? name with
  | some j =>
      simp only [Option.bind_some]
      rw [List.getElem?_append_right (by omega), hleft, Nat.add_sub_cancel_left]
  | none =>
      cases hindex : s.indexOf? name with
      | none => rfl
      | some i =>
          rw [hs.indexOf?] at hindex
          have hi := Schema.lt_of_indexOf? hindex
          rw [length_schema, ← hleft] at hi
          exact List.getElem?_append_left hi

/-- Every schema has a heading: the one that is read from what is stored of it. -/
theorem obtained_ofSchema (s : Schema) : (ofSchema s).Obtained := by
  have hread : ofJson? (Json.ofSchema s) = some (ofSchema s) :=
    congrArg (Option.map ofSchema) (Json.toAttributes?_ofAttributes s)
  exact .ofJson hread

/-- **The index of a heading agrees with its columns**, however the heading was had and whatever
names repeat.  A name leads to the last column that has it, which is where the attributes on their
own have it.  Two headings are the same, indexes and all, exactly if their columns are, that is, if
their attributes are.  Joining headings is associative and the heading without columns changes
nothing.  In a joined heading a name leads into the right one if it occurs there, and into the left
one if not; and a joined row has its fields in the places of the joined columns, so that the field
found by a name is the one that was found before. -/
theorem index_follows_columns {s t : Heading} (hs : s.Obtained) (ht : t.Obtained) (u : Heading) :
    (∀ name, s.indexOf? name = s.schema.indexOf? name) ∧
    (∀ name i, s.indexOf? name = some i ↔ s.schema[i]?.map Attribute.name = some name ∧
      ∀ a ∈ s.schema.drop (i + 1), a.name ≠ name) ∧
    (∀ name, s.indexOf? name = none ↔ ∀ a ∈ s.schema, a.name ≠ name) ∧
    (s.same t = true ↔ Column.sameAll s.columns t.columns = true) ∧
    (s.same t = true ↔ s.schema = t.schema) ∧
    (s.merge t).merge u = s.merge (t.merge u) ∧ empty.merge s = s ∧ s.merge empty = s ∧
    (s.merge t).schema = s.schema.merge t.schema ∧
    (∀ names types, (ofLists names types).schema
      = Schema.ofLists names (types.map ColumnType.plain)) ∧
    (∀ name, (s.merge t).indexOf? name = match t.indexOf? name with
      | some j => some (s.size + j)
      | none => s.indexOf? name) ∧
    (∀ left right : Item, left.fields.length = s.size → right.fields.length = t.size →
      (left.append right).fields.length = (s.merge t).size ∧
      (s.merge t).columns.zip (left.append right).fields
        = s.columns.zip left.fields ++ t.columns.zip right.fields ∧
      ∀ name, ((s.merge t).indexOf? name).bind ((left.append right).fields[·]?)
        = match t.indexOf? name with
          | some j => right.fields[j]?
          | none => (s.indexOf? name).bind (left.fields[·]?)) := by
  have hlast : ∀ name i, s.indexOf? name = some i ↔
      s.schema[i]?.map Attribute.name = some name ∧
        ∀ a ∈ s.schema.drop (i + 1), a.name ≠ name := by
    intro name i
    rw [hs.indexOf?]
    exact Schema.indexOf?_eq_some
  have hnone : ∀ name, s.indexOf? name = none ↔ ∀ a ∈ s.schema, a.name ≠ name := by
    intro name
    rw [hs.indexOf?]
    exact Schema.indexOf?_eq_none
  refine ⟨hs.indexOf?, hlast, hnone, (hs.same_iff ht).trans (hs.sameAll_iff ht).symm,
    hs.same_iff ht, merge_assoc s t u, hs.empty_merge, hs.merge_empty, schema_merge s t,
    schema_ofLists, hs.indexOf?_merge ht, fun left right hleft hright =>
      ⟨?_, ?_, hs.field_merge ht hleft⟩⟩
  · rw [Item.append, Item.fields, List.length_append, hleft, hright]
    exact List.length_append.symm
  · exact List.zip_append hleft.symm

/-- A name comes twice in the left heading and once more in the right one, which has a record. -/
theorem index_follows_columns_of_repeated :
    let s := ofLists ["a", "a", "b"] [.int, .string, .bool]
    let t := ofSchema [⟨"a", .bool⟩, ⟨"r", .struct [⟨"a", .int⟩]⟩]
    s.Obtained ∧ t.Obtained ∧ s.indexOf? "a" = some 1 ∧ s.indexOf? "r" = none ∧
    (s.merge t).indexOf? "a" = some 3 ∧ (s.merge t).indexOf? "b" = some 2 ∧
    s.same t = false ∧ (s.merge t).merge s = s.merge (t.merge s) ∧ s.merge empty = s ∧
    ((s.merge t).indexOf? "b").bind
      ((Item.append (.row [.int 1, .null, .bool true]) (.row [.null, .row [.int 2]])).fields[·]?)
      = some (.bool true) := by
  intro s t
  have hs : s.Obtained := .ofLists (by simp)
  have ht : t.Obtained := obtained_ofSchema _
  have ha : t.indexOf? "a" = some 0 := by decide
  have hb : t.indexOf? "b" = none := by decide
  have hsb : s.indexOf? "b" = some 2 := by decide
  obtain ⟨-, hlast, hnone, -, hsame, hassoc, -, hempty, -, -, hmerge, hrow⟩ :=
    index_follows_columns hs ht s
  obtain ⟨-, -, hfield⟩ :=
    hrow (.row [.int 1, .null, .bool true]) (.row [.null, .row [.int 2]]) rfl rfl
  refine ⟨hs, ht, (hlast "a" 1).mpr (by decide), (hnone "r").mpr (by decide), ?_, ?_, ?_, hassoc,
    hempty, ?_⟩
  · rw [hmerge, ha]
    rfl
  · rw [hmerge, hb]
    exact hsb
  · exact Bool.eq_false_iff.mpr (mt hsame.mp (by decide))
  · rw [hfield, hb, hsb]
    rfl

end Heading

end StreamQuery
