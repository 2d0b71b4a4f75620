/-
Definitions are read as they were written.

A list of columns is written piece by piece, a comma between any two.  A column makes one piece, its
name and its type with a colon between them; blanks may stand around both, and pieces with nothing
but blanks may stand anywhere.  What comes back is exactly the columns: a name holds no colon, so
the first colon of a piece is the one that was put there, and no part holds a comma.  A type may
hold colons and equals signs, and so may what stands behind the first equals sign of a definition.
-/
import Mathlib
import StreamQuery.Failure
import StreamQuery.Proofs.Config.Columns
import StreamQuery.Proofs.Text.Parts

namespace StreamQuery.Config

open Text

/-! ### What can be written, and how -/

/-- A name that a type can be given in a definition. -/
structure Nameable (name : String) : Prop where
  nonempty : name ≠ ""
  trimmed : trim name.toList = name.toList
  sign : '=' ∉ name.toList

/-- A name and a type that can be written as a column. -/
structure Writable (c : String × String) : Prop where
  name_trimmed : trim c.1.toList = c.1.toList
  type_trimmed : trim c.2.toList = c.2.toList
  name_comma : ',' ∉ c.1.toList
  name_colon : ':' ∉ c.1.toList
  type_comma : ',' ∉ c.2.toList

/-- The pieces that columns are written as, with any blanks around the parts and any blank pieces
in between. -/
inductive Pieces : List (String × String) → List (List Char) → Prop
  | nil : Pieces [] []
  | blank {columns : List (String × String)} {piece : List Char} {pieces : List (List Char)}
      (hpiece : Blank piece) (hrest : Pieces columns pieces) : Pieces columns (piece :: pieces)
  | column {name type : String} {columns : List (String × String)} {n t : List Char}
      {pieces : List (List Char)} (hname : Padded name.toList n) (htype : Padded type.toList t)
      (hrest : Pieces columns pieces) :
      Pieces ((name, type) :: columns) ((n ++ ':' :: t) :: pieces)

/-- A text that columns are written as: pieces with commas between them. -/
def Writes (columns : List (String × String)) (text : List Char) : Prop :=
  ∃ pieces, Pieces columns pieces ∧ pieces ≠ [] ∧ text = [','].intercalate pieces

/-- A text that defines no type. -/
inductive Malformed : List Char → Prop
  /-- There is no equals sign. -/
  | noSign {text : List Char} (h : '=' ∉ text) : Malformed text
  /-- There is no name in front of it. -/
  | noName {name value : List Char} (h : Blank name) : Malformed (name ++ '=' :: value)
  /-- There is nothing behind it but blanks and commas. -/
  | noColumn {name value : List Char} (hname : '=' ∉ name)
      (hvalue : ∀ c ∈ value, c = ',' ∨ isBlank c = true) : Malformed (name ++ '=' :: value)

variable {columns : List (String × String)} {text before after piece : List Char}

theorem isBlank_comma : isBlank ',' = false := by decide

theorem isBlank_colon : isBlank ':' = false := by decide

theorem isBlank_sign : isBlank '=' = false := by decide

/-! ### One piece -/

/-- The column of a piece; a piece with nothing but blanks has none. -/
def columnOf? (piece : List Char) : Option (List Char × List Char) :=
  if (trim piece).isEmpty then none else some (splitColumn piece)

theorem splitColumns_eq_filterMap (text : List Char) :
    splitColumns text = (pieces ',' text).filterMap columnOf? := by
  unfold splitColumns
  induction pieces ',' text with
  | nil => rfl
  | cons p ps ih =>
      rw [List.filterMap_cons, ← ih, List.filter_cons]
      by_cases hp : (trim p).isEmpty = true <;> simp [columnOf?, hp]

theorem columnOf?_eq_none : columnOf? piece = none ↔ Blank piece := by
  unfold columnOf?
  rw [← trim_eq_nil, ← List.isEmpty_iff]
  by_cases h : (trim piece).isEmpty = true <;> simp [h]

theorem splitColumn_blank_append (h : Blank before) (piece : List Char) :
    splitColumn (before ++ piece) = splitColumn piece := by
  have hcolon := not_mem_of_blank isBlank_colon h
  unfold splitColumn
  by_cases hpiece : ':' ∈ piece
  · obtain ⟨name, type, rfl, hname⟩ := List.eq_append_cons_of_mem hpiece
    have hfront : ':' ∉ before ++ name := by simp [hcolon, hname]
    rw [← List.append_assoc, cut_append hfront, cut_append hname]
    simp only [trim_blank_append h]
  · have hall : ':' ∉ before ++ piece := by simp [hcolon, hpiece]
    rw [cut_of_not_mem hall, cut_of_not_mem hpiece]
    simp only [trim_blank_append h]

theorem splitColumn_append_blank (h : Blank after) (piece : List Char) :
    splitColumn (piece ++ after) = splitColumn piece := by
  have hcolon := not_mem_of_blank isBlank_colon h
  unfold splitColumn
  by_cases hpiece : ':' ∈ piece
  · obtain ⟨name, type, rfl, hname⟩ := List.eq_append_cons_of_mem hpiece
    rw [List.append_assoc, List.cons_append, cut_append hname, cut_append hname]
    simp only [Option.getD_some, trim_append_blank h]
  · have hall : ':' ∉ piece ++ after := by simp [hcolon, hpiece]
    rw [cut_of_not_mem hall, cut_of_not_mem hpiece]
    simp only [trim_append_blank h]

theorem columnOf?_blank_append (h : Blank before) (piece : List Char) :
    columnOf? (before ++ piece) = columnOf? piece := by
  unfold columnOf?
  rw [trim_blank_append h, splitColumn_blank_append h]

theorem columnOf?_append_blank (h : Blank after) (piece : List Char) :
    columnOf? (piece ++ after) = columnOf? piece := by
  unfold columnOf?
  rw [trim_append_blank h, splitColumn_append_blank h]

/-- A column is read off the piece that it was written as. -/
theorem columnOf?_column {name type : String} {n t : List Char} (h : Writable (name, type))
    (hname : Padded name.toList n) (htype : Padded type.toList t) :
    columnOf? (n ++ ':' :: t) = some (name.toList, type.toList) := by
  have hn : ':' ∉ n := hname.not_mem isBlank_colon h.name_colon
  have hnot : ¬ Blank (n ++ ':' :: t) := fun hblank => by
    have hcolon := hblank ':' (by simp)
    rw [isBlank_colon] at hcolon
    cases hcolon
  have htrimmed : (trim (n ++ ':' :: t)).isEmpty = false := by
    rw [List.isEmpty_eq_false_iff]
    exact mt trim_eq_nil.mp hnot
  unfold columnOf? splitColumn
  rw [htrimmed, cut_append hn]
  simp only [Option.getD_some, hname.trim, htype.trim, h.name_trimmed, h.type_trimmed]
  rfl

/-! ### Lists of columns -/

theorem splitColumns_blank_append (h : Blank before) (text : List Char) :
    splitColumns (before ++ text) = splitColumns text := by
  rw [splitColumns_eq_filterMap, splitColumns_eq_filterMap]
  cases hpieces : pieces ',' text with
  | nil => exact absurd hpieces (pieces_ne_nil ',' text)
  | cons p ps =>
      rw [pieces_append_left (not_mem_of_blank isBlank_comma h) hpieces, List.filterMap_cons,
        List.filterMap_cons, columnOf?_blank_append h]

theorem splitColumns_append_blank (h : Blank after) (text : List Char) :
    splitColumns (text ++ after) = splitColumns text := by
  obtain ⟨ps, p, htext, hafter⟩ :=
    pieces_append_right (not_mem_of_blank isBlank_comma h) text
  rw [splitColumns_eq_filterMap, splitColumns_eq_filterMap, htext, hafter, List.filterMap_append,
    List.filterMap_append, List.filterMap_cons, List.filterMap_cons, columnOf?_append_blank h]

/-- Blanks around a list of columns do not matter. -/
theorem splitColumns_trim (text : List Char) : splitColumns (trim text) = splitColumns text := by
  obtain ⟨before, after, hbefore, hafter, htext⟩ := padded_trim text
  conv_rhs => rw [htext]
  rw [splitColumns_append_blank hafter, splitColumns_blank_append hbefore]

theorem splitColumns_eq_nil :
    splitColumns text = [] ↔ ∀ c ∈ text, c = ',' ∨ isBlank c = true := by
  rw [splitColumns_eq_filterMap, List.filterMap_eq_nil_iff, ← blank_pieces]
  simp only [columnOf?_eq_none]

theorem Pieces.not_mem_comma {ps : List (List Char)} (h : Pieces columns ps)
    (hcolumns : ∀ c ∈ columns, Writable c) : ∀ p ∈ ps, ',' ∉ p := by
  induction h with
  | nil => exact nofun
  | blank hpiece hrest ih =>
      exact List.forall_mem_cons.mpr ⟨not_mem_of_blank isBlank_comma hpiece, ih hcolumns⟩
  | column hname htype hrest ih =>
      obtain ⟨hcolumn, hothers⟩ := List.forall_mem_cons.mp hcolumns
      have hn := hname.not_mem isBlank_comma hcolumn.name_comma
      have ht := htype.not_mem isBlank_comma hcolumn.type_comma
      exact List.forall_mem_cons.mpr ⟨by simp [hn, ht], ih hothers⟩

theorem Pieces.filterMap {ps : List (List Char)} (h : Pieces columns ps)
    (hcolumns : ∀ c ∈ columns, Writable c) :
    ps.filterMap columnOf? = columns.map fun c => (c.1.toList, c.2.toList) := by
  induction h with
  | nil => rfl
  | blank hpiece hrest ih =>
      rw [List.filterMap_cons_none (columnOf?_eq_none.mpr hpiece), ih hcolumns]
  | column hname htype hrest ih =>
      obtain ⟨hcolumn, hothers⟩ := List.forall_mem_cons.mp hcolumns
      rw [List.filterMap_cons_some (columnOf?_column hcolumn hname htype), ih hothers,
        List.map_cons]

/-- Columns are read as they were written. -/
theorem Writes.splitColumns (h : Writes columns text) (hcolumns : ∀ c ∈ columns, Writable c) :
    splitColumns text = columns.map fun c => (c.1.toList, c.2.toList) := by
  obtain ⟨ps, hps, hne, rfl⟩ := h
  rw [splitColumns_eq_filterMap, pieces_intercalate (hps.not_mem_comma hcolumns) hne,
    hps.filterMap hcolumns]

/-! ### Definitions of types -/

variable {definition : String} {n v : List Char}

theorem splitAssignment_of_not_mem (h : '=' ∉ text) :
    splitAssignment text = .error (.notAssignment (String.ofList text)) := by
  unfold splitAssignment
  rw [cut_of_not_mem h]

theorem splitAssignment_of_blank (h : Blank n) (v : List Char) :
    splitAssignment (n ++ '=' :: v)
      = .error (.notAssignment (String.ofList (n ++ '=' :: v))) := by
  have hname : (trim n).isEmpty = true := List.isEmpty_iff.mpr (trim_eq_nil.mpr h)
  unfold splitAssignment
  rw [cut_append (not_mem_of_blank isBlank_sign h)]
  simp [hname]

theorem splitAssignment_of_name (hsign : '=' ∉ n) (hn : ¬ Blank n) (v : List Char) :
    splitAssignment (n ++ '=' :: v) = .ok (trim n, trim v) := by
  have hname : (trim n).isEmpty = false := by
    rw [List.isEmpty_eq_false_iff]
    exact mt trim_eq_nil.mp hn
  unfold splitAssignment
  rw [cut_append hsign]
  simp [hname]

theorem parseType_of_refused {f : ConfigFault} (hdefinition : definition.toList = text)
    (h : splitAssignment text = .error f) : parseType definition = .error f := by
  unfold parseType
  rw [hdefinition, h]
  rfl

/-- A name, an equals sign and columns define a type, if there are any columns. -/
theorem parseType_of_name (hdefinition : definition.toList = n ++ '=' :: v) (hsign : '=' ∉ n)
    (hn : ¬ Blank n) : parseType definition =
      if splitColumns v = [] then .error (.noFields (String.ofList (trim n)))
      else .ok ⟨String.ofList (trim n),
        (splitColumns v).map fun c => (String.ofList c.1, String.ofList c.2)⟩ := by
  unfold parseType
  rw [hdefinition, splitAssignment_of_name hsign hn]
  simp only [bind, Except.bind, splitColumns_trim]
  cases splitColumns v with
  | nil => rfl
  | cons c cs => rfl

/-- A type is not read exactly if its text is malformed. -/
theorem malformed_iff :
    Malformed definition.toList ↔ ∃ f, parseType definition = .error f := by
  constructor
  · intro h
    generalize hchars : definition.toList = chars at h
    cases h with
    | noSign h => exact ⟨_, parseType_of_refused hchars (splitAssignment_of_not_mem h)⟩
    | noName h => exact ⟨_, parseType_of_refused hchars (splitAssignment_of_blank h _)⟩
    | @noColumn name value hname hvalue =>
        by_cases hblank : Blank name
        · exact ⟨_, parseType_of_refused hchars (splitAssignment_of_blank hblank value)⟩
        · refine ⟨.noFields (String.ofList (trim name)), ?_⟩
          rw [parseType_of_name hchars hname hblank, if_pos (splitColumns_eq_nil.mpr hvalue)]
  · rintro ⟨f, hf⟩
    by_cases hsign : '=' ∈ definition.toList
    · obtain ⟨name, value, hchars, hname⟩ := List.eq_append_cons_of_mem hsign
      rw [hchars]
      by_cases hblank : Blank name
      · exact .noName hblank
      · refine .noColumn hname (splitColumns_eq_nil.mp ?_)
        by_contra hcolumns
        rw [parseType_of_name hchars hname hblank, if_neg hcolumns] at hf
        cases hf
    · exact .noSign hsign

/-- A type is read as it was written. -/
theorem parseType_of_written {name : String} (hname : Nameable name)
    (hn : Padded name.toList n) (hv : Writes columns v) (hsome : columns ≠ [])
    (hcolumns : ∀ c ∈ columns, Writable c) (hdefinition : definition.toList = n ++ '=' :: v) :
    parseType definition = .ok ⟨name, columns⟩ := by
  have htrim : trim n = name.toList := hn.trim.trans hname.trimmed
  have hblank : ¬ Blank n := by
    rw [← trim_eq_nil, htrim]
    simpa using hname.nonempty
  have hsplit := hv.splitColumns hcolumns
  have hnonempty : splitColumns v ≠ [] := by
    rw [hsplit]
    simpa using hsome
  rw [parseType_of_name hdefinition (hn.not_mem isBlank_sign hname.sign) hblank,
    if_neg hnonempty, htrim, hsplit, List.map_map]
  simp [Function.comp_def, String.ofList_toList]

/-! ### Schemas -/

/-- The types of columns are created one after the other in one scope, all of them. -/
inductive Creates (types : TypeFactory) :
    List (String × String) → Binding → Schema → Binding → Prop
  | nil (b : Binding) : Creates types [] b [] b
  | cons {name type : String} {columns : List (String × String)} {t : DataType} {schema : Schema}
      {b b₁ b₂ : Binding} (hfirst : Binding.withResolver (types.createType type) b = (.ok t, b₁))
      (hrest : Creates types columns b₁ schema b₂) :
      Creates types ((name, type) :: columns) b (⟨name, t⟩ :: schema) b₂

variable {types : TypeFactory} {b b' : Binding} {schema : Schema}

/-- The columns of a schema are built exactly if all their types are created. -/
theorem creates_iff_buildColumns : ∀ {columns : List (String × String)} {b b' : Binding}
    {schema : Schema}, Creates types columns b schema b' ↔
      buildColumns types (columns.map fun c => (c.1.toList, c.2.toList)) b = (.ok schema, b') := by
  intro columns
  induction columns with
  | nil =>
      intro b b' schema
      constructor
      · rintro ⟨⟩
        rfl
      · intro h
        cases h
        exact .nil b
  | cons column rest ih =>
      intro b b' schema
      obtain ⟨name, type⟩ := column
      rw [List.map_cons]
      constructor
      · rintro (_ | ⟨hfirst, hrest⟩)
        unfold buildColumns
        simp only [String.ofList_toList, hfirst, ih.mp hrest]
      · intro h
        obtain ⟨t, b₁, more, rfl, hfirst, hrest⟩ := buildColumns_cons h
        rw [String.ofList_toList] at hfirst ⊢
        exact .cons hfirst (ih.mpr hrest)

theorem Creates.ne_nil (h : Creates types columns b schema b') (hsome : columns ≠ []) :
    schema ≠ [] := by
  cases h with
  | nil => exact absurd rfl hsome
  | cons => exact List.cons_ne_nil _ _

/-- A schema is read exactly if the types of its columns are created. -/
theorem parseSchema_of_written {source : String} (hv : Writes columns source.toList)
    (hsome : columns ≠ []) (hcolumns : ∀ c ∈ columns, Writable c) :
    parseSchema types source b = (.ok schema, b') ↔ Creates types columns b schema b' := by
  have hsplit := hv.splitColumns hcolumns
  constructor
  · intro h
    have hbuild := (parseSchema_eq_ok h).1
    rw [hsplit] at hbuild
    exact creates_iff_buildColumns.mpr hbuild
  · intro h
    refine parseSchema_of_buildColumns (h.ne_nil hsome) ?_
    rw [hsplit]
    exact creates_iff_buildColumns.mp h

/-- Columns that cannot be built fail at the first whose type cannot be created. -/
theorem first_of_buildColumns : ∀ {columns : List (String × String)} {b b' : Binding}
    {f : ConfigFault},
    buildColumns types (columns.map fun c => (c.1.toList, c.2.toList)) b = (.error f, b') →
      ∃ earlier name type later schema b₁ u, columns = earlier ++ (name, type) :: later ∧
        Creates types earlier b schema b₁ ∧
        Binding.withResolver (types.createType type) b₁ = (.error u, b') ∧
        f = .unknownColumnType type name := by
  intro columns
  induction columns with
  | nil => exact nofun
  | cons column rest ih =>
      intro b b' f h
      obtain ⟨name, type⟩ := column
      rw [List.map_cons] at h
      unfold buildColumns at h
      simp only [String.ofList_toList] at h
      split at h
      · rename_i u b₁ hfirst
        cases h
        exact ⟨[], name, type, rest, [], b, u, rfl, .nil b, hfirst, rfl⟩
      · rename_i t b₁ hfirst
        split at h
        · rename_i g b₂ hrest
          cases h
          obtain ⟨earlier, other, unknown, later, schema, b₃, u, rfl, hearlier, hfails, hg⟩ :=
            ih hrest
          exact ⟨(name, type) :: earlier, other, unknown, later, _, b₃, u, rfl,
            .cons hfirst hearlier, hfails, hg⟩
        · cases h

theorem parseSchema_of_nothing {source : String}
    (h : ∀ c ∈ source.toList, c = ',' ∨ isBlank c = true) (b : Binding) :
    parseSchema types source b = (.error .noColumns, b) := by
  unfold parseSchema
  rw [splitColumns_eq_nil.mpr h]
  rfl

/-- A schema that is not read has a column, the first, whose type cannot be created. -/
theorem first_of_parseSchema {source : String} {f : ConfigFault} (hv : Writes columns source.toList)
    (hsome : columns ≠ []) (hcolumns : ∀ c ∈ columns, Writable c)
    (h : parseSchema types source b = (.error f, b')) :
    ∃ earlier name type later schema b₁ u, columns = earlier ++ (name, type) :: later ∧
      Creates types earlier b schema b₁ ∧
      Binding.withResolver (types.createType type) b₁ = (.error u, b') ∧
      f = .unknownColumnType type name := by
  unfold parseSchema at h
  rw [hv.splitColumns hcolumns] at h
  split at h
  · rename_i after hbuild
    exact absurd rfl ((creates_iff_buildColumns.mpr hbuild).ne_nil hsome)
  · exact first_of_buildColumns h

/-- **Definitions are read back as they were written.**  A type's name, an equals sign and columns
are read as that name and those columns in order, whatever blanks stand around the parts and
whatever blank pieces between the commas.  The same columns make a schema exactly if their types are
created one after the other in the scope that there is, and it has those names and those types; if
not, the fault names the first column whose type cannot be created.  A text that has no equals sign,
no name in front of it or no column behind it defines no type, and only such a text; and blanks and
commas make no schema.  All these faults are failures of validation. -/
theorem definitions_are_read_back (types : TypeFactory) (b : Binding) :
    (∀ (name : String) (columns : List (String × String)) (n v : List Char) (definition : String),
      Nameable name → columns ≠ [] → (∀ c ∈ columns, Writable c) → Padded name.toList n →
      Writes columns v → definition.toList = n ++ '=' :: v →
        parseType definition = .ok ⟨name, columns⟩ ∧
        (∀ schema b', parseSchema types (String.ofList v) b = (.ok schema, b') ↔
          Creates types columns b schema b') ∧
        ∀ f b', parseSchema types (String.ofList v) b = (.error f, b') →
          ∃ earlier name type later schema b₁ u, columns = earlier ++ (name, type) :: later ∧
            Creates types earlier b schema b₁ ∧
            Binding.withResolver (types.createType type) b₁ = (.error u, b') ∧
            f = .unknownColumnType type name) ∧
    (∀ definition : String,
      Malformed definition.toList ↔ ∃ f, parseType definition = .error f) ∧
    (∀ source : String, (∀ c ∈ source.toList, c = ',' ∨ isBlank c = true) →
      parseSchema types source b = (.error .noColumns, b)) ∧
    ∀ f, (Failure.config f).kind = .validation := by
  refine ⟨fun name columns n v definition hname hsome hcolumns hn hv hdefinition => ?_,
    fun definition => malformed_iff, fun source h => parseSchema_of_nothing h b, fun _ => rfl⟩
  have hsource : Writes columns (String.ofList v).toList := by rwa [String.toList_ofList]
  exact ⟨parseType_of_written hname hn hv hsome hcolumns hdefinition,
    fun schema b' => parseSchema_of_written hsource hsome hcolumns,
    fun f b' => first_of_parseSchema hsource hsome hcolumns⟩

/-- A definition with an equals sign in a column's name, a blank piece, and blanks of several kinds
around its parts. -/
theorem definitions_are_read_back_of_point :
    parseType "\u00a0Point = x :int,\t,y=z: VARCHAR ,"
      = .ok ⟨"Point", [("x", "int"), ("y=z", "VARCHAR")]⟩ ∧
    parseSchema .empty (String.ofList " x :int,\t,y=z: VARCHAR ,".toList) none
      = (.ok [⟨"x", .int⟩, ⟨"y=z", .string⟩], none) ∧
    ∃ f, parseType "x:int" = .error f := by
  have hcolumns : ∀ c ∈ [("x", "int"), ("y=z", "VARCHAR")], Writable c := by
    intro c hc
    simp only [List.mem_cons, List.not_mem_nil, or_false] at hc
    rcases hc with rfl | rfl <;> exact ⟨by decide, by decide, by decide, by decide, by decide⟩
  have hblank : ∀ {cs : List Char}, cs.all isBlank = true → Blank cs := List.all_eq_true.mp
  have hwrites : Writes [("x", "int"), ("y=z", "VARCHAR")] " x :int,\t,y=z: VARCHAR ,".toList := by
    have hx : Padded "x".toList [' ', 'x', ' '] :=
      ⟨[' '], [' '], hblank (by decide), hblank (by decide), by decide⟩
    have hint : Padded "int".toList ['i', 'n', 't'] :=
      ⟨[], [], hblank (by decide), hblank (by decide), by decide⟩
    have hyz : Padded "y=z".toList ['y', '=', 'z'] :=
      ⟨[], [], hblank (by decide), hblank (by decide), by decide⟩
    have hvarchar : Padded "VARCHAR".toList " VARCHAR ".toList :=
      ⟨[' '], [' '], hblank (by decide), hblank (by decide), by decide⟩
    have htab : Blank ['\t'] := hblank (by decide)
    have hnothing : Blank [] := hblank (by decide)
    exact ⟨_, .column hx hint (.blank htab (.column hyz hvarchar (.blank hnothing .nil))),
      by simp, by decide⟩
  have hall := definitions_are_read_back .empty none
  have hpoint := hall.1 "Point" [("x", "int"), ("y=z", "VARCHAR")] "\u00a0Point ".toList
    " x :int,\t,y=z: VARCHAR ,".toList "\u00a0Point = x :int,\t,y=z: VARCHAR ,"
    ⟨by decide, by decide, by decide⟩ (by simp) hcolumns
    ⟨['\u00a0'], [' '], hblank (by decide), hblank (by decide), by decide⟩ hwrites (by decide)
  refine ⟨hpoint.1, (hpoint.2.1 _ _).mpr ?_, (hall.2.1 "x:int").mp (.noSign (by decide))⟩
  exact .cons rfl (.cons rfl (.nil none))

end StreamQuery.Config
