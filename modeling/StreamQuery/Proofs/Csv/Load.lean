/-
What a text of comma-separated values is loaded as.

Every row that is loaded is as wide as the schema.  A value is read from its text: of the type of
its column only the kind matters, that is, which primitive it is or that it is a record.  What the
fields of a record are is looked at when the value is checked, and a check gives nothing but a
fault.  So two schemas whose columns are of the same kinds may refuse different texts, but a text
that both of them accept has the same rows with both.
-/
import Mathlib.Data.List.Forall2
import StreamQuery.Csv.Load

namespace StreamQuery

namespace Csv

variable {schema schema' : Schema}

/-! ### Steps of loading -/

theorem readFields_cons {a : Attribute} {field : List Char} {rest : List (List Char)} {row : Row}
    (h : readFields (a :: schema) (field :: rest) = .ok row) : ∃ v vs,
      readField a.type field = .ok v ∧ readFields schema rest = .ok vs ∧ row = v :: vs := by
  simp only [readFields, bind, Except.bind] at h
  split at h
  · cases h
  · rename_i v hv
    split at h
    · cases h
    · rename_i vs hvs
      cases h
      exact ⟨v, vs, hv, hvs, rfl⟩

theorem readRecord_eq_ok {record : Nat} {fields : List (List Char)} {row : Row}
    (h : readRecord schema record fields = .ok row) :
    fields.length = schema.length ∧ readFields schema fields = .ok row := by
  unfold readRecord at h
  split at h
  · rename_i hlength
    cases hread : readFields schema fields with
    | error f => rw [hread] at h; cases h
    | ok row' => rw [hread] at h; cases h; exact ⟨hlength, rfl⟩
  · cases h

theorem loadFrom_cons {width i : Nat} {r : RawRecord} {rest : List RawRecord} {rows : List Row}
    (h : loadFrom schema width i (r :: rest) = .ok rows) :
    ∃ fields row more, texts i r.start 0 r.fields = .ok fields ∧
      readRecord schema (i + 1) fields = .ok row ∧ loadFrom schema width (i + 1) rest = .ok more ∧
      rows = row :: more := by
  simp only [loadFrom, bind, Except.bind] at h
  split at h
  · cases h
  · split at h
    · cases h
    · rename_i fields hfields
      split at h
      · cases h
      · rename_i row hrow
        split at h
        · cases h
        · rename_i more hmore
          cases h
          exact ⟨fields, row, more, hfields, hrow, hmore, rfl⟩

/-! ### Widths -/

theorem length_readFields : ∀ {schema : Schema} {fields : List (List Char)} {row : Row},
    readFields schema fields = .ok row → fields.length = schema.length →
      row.length = schema.length := by
  intro schema
  induction schema with
  | nil =>
      intro fields row h _
      cases h
      rfl
  | cons a as ih =>
      intro fields row h hlen
      cases fields with
      | nil => simp at hlen
      | cons field rest =>
          obtain ⟨v, vs, -, hvs, rfl⟩ := readFields_cons h
          rw [List.length_cons, List.length_cons, ih hvs (by simpa using hlen)]

theorem length_loadFrom {width : Nat} : ∀ {records : List RawRecord} {i : Nat} {rows : List Row},
    loadFrom schema width i records = .ok rows → ∀ r ∈ rows, r.length = schema.length := by
  intro records
  induction records with
  | nil =>
      intro i rows h
      cases h
      simp
  | cons record records ih =>
      intro i rows h
      obtain ⟨fields, row, more, -, hrow, hmore, rfl⟩ := loadFrom_cons h
      obtain ⟨hlength, hfields⟩ := readRecord_eq_ok hrow
      exact List.forall_mem_cons.mpr ⟨length_readFields hfields hlength, ih hmore⟩

/-- **Loaded rows are as wide as the schema they were loaded at.** -/
theorem length_load {bytes : List UInt8} {rows : List Row} (h : load schema bytes = .ok rows) :
    ∀ r ∈ rows, r.length = schema.length := by
  unfold load at h
  split at h
  · cases h
    simp
  · exact length_loadFrom h

/-! ### Kinds of types -/

/-- Two types are the same or both are records. -/
def SameKind (t t' : DataType) : Prop :=
  t = t' ∨ (∃ attributes, t = .struct attributes) ∧ ∃ attributes, t' = .struct attributes

/-- Two schemas have columns of the same kinds. -/
abbrev SameKinds (schema schema' : Schema) : Prop :=
  List.Forall₂ (fun a a' => SameKind a.type a'.type) schema schema'

/-- The value of a field of a record type, which is read without looking at the type. -/
def recordValue? (field : List Char) : Option Value :=
  let word := Text.trim field
  if word.isEmpty || Text.lower word = ['n', 'u', 'l', 'l'] then some .null
  else Json.read word >>= Json.toValue?

theorem recordValue?_of_readField {attributes : List Attribute} {field : List Char} {v : Value}
    (h : readField (.struct attributes) field = .ok v) : recordValue? field = some v := by
  unfold readField at h
  unfold recordValue?
  simp only at h ⊢
  split at h
  · cases h
    rename_i hblank
    rw [if_pos hblank]
  · rename_i hword
    rw [if_neg hword]
    split at h
    · rename_i u hu
      simp only [bind, Except.bind] at h
      split at h
      · cases h
      · cases h
        exact hu
    · cases h

/-- A field that can be read at two types of one kind has one value. -/
theorem SameKind.readField {t t' : DataType} {field : List Char} {v v' : Value}
    (ht : SameKind t t') (h : readField t field = .ok v) (h' : Csv.readField t' field = .ok v') :
    v = v' := by
  rcases ht with rfl | ⟨⟨attributes, rfl⟩, attributes', rfl⟩
  · rw [h] at h'
    exact Except.ok.inj h'
  · have hv := recordValue?_of_readField h
    rw [recordValue?_of_readField h'] at hv
    exact (Option.some.inj hv).symm

theorem readFields_sameKinds (hkinds : SameKinds schema schema') :
    ∀ {fields : List (List Char)} {row row' : Row}, readFields schema fields = .ok row →
      readFields schema' fields = .ok row' → row = row' := by
  have hnil : ∀ {s : Schema} {r : Row}, readFields s [] = .ok r → r = [] := by
    intro s r h
    cases s <;> cases h <;> rfl
  induction hkinds with
  | nil =>
      intro fields row row' h h'
      cases h
      cases h'
      rfl
  | cons hkind _ ih =>
      intro fields row row' h h'
      cases fields with
      | nil => rw [hnil h, hnil h']
      | cons field rest =>
          obtain ⟨v, vs, hv, hvs, rfl⟩ := readFields_cons h
          obtain ⟨v', vs', hv', hvs', rfl⟩ := readFields_cons h'
          rw [hkind.readField hv hv', ih hvs hvs']

theorem loadFrom_sameKinds (hkinds : SameKinds schema schema') {width : Nat} :
    ∀ {records : List RawRecord} {i : Nat} {rows rows' : List Row},
      loadFrom schema width i records = .ok rows → loadFrom schema' width i records = .ok rows' →
      rows = rows' := by
  intro records
  induction records with
  | nil =>
      intro i rows rows' h h'
      cases h
      cases h'
      rfl
  | cons r rest ih =>
      intro i rows rows' h h'
      obtain ⟨fields, row, more, hfields, hrow, hmore, rfl⟩ := loadFrom_cons h
      obtain ⟨fields', row', more', hfields', hrow', hmore', rfl⟩ := loadFrom_cons h'
      rw [hfields] at hfields'
      cases hfields'
      rw [readFields_sameKinds hkinds (readRecord_eq_ok hrow).2 (readRecord_eq_ok hrow').2,
        ih hmore hmore']

/-- **A text that can be loaded with two schemas of the same kinds has the same rows.** -/
theorem load_sameKinds (hkinds : SameKinds schema schema') {bytes : List UInt8}
    {rows rows' : List Row} (h : load schema bytes = .ok rows)
    (h' : load schema' bytes = .ok rows') : rows = rows' := by
  unfold load at h h'
  cases hrecords : records bytes with
  | nil =>
      rw [hrecords] at h h'
      cases h
      cases h'
      rfl
  | cons r rest =>
      rw [hrecords] at h h'
      exact loadFrom_sameKinds hkinds h h'

end Csv

end StreamQuery
