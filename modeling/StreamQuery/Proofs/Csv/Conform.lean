/-
What is loaded out of comma-separated text is of the types of its columns.

A value is of the type of its column or it is not loaded: a primitive is read as one, and a row is
checked field by field after it was read.  The other way round every value of a type can be
written so that it is read again, namely as its JSON, unless it nests deeper than JSON may; blanks
around it are dropped.  A column of strings is apart: every text stands for itself there.

Records are loaded one after the other, up to the first that cannot be.  The fault is that of this
record and says which one it is.
-/
import StreamQuery.Proofs.Csv.Load
import StreamQuery.Proofs.Expr.Typing
import StreamQuery.Proofs.Json.Decode
import StreamQuery.Proofs.Json.Nesting
import StreamQuery.Proofs.Text.Parts

namespace StreamQuery

namespace Text

/-! ### Blanks -/

theorem toNat_of_isDigit {c : Char} (h : c.isDigit = true) : 48 ≤ c.toNat ∧ c.toNat ≤ 57 := by
  simpa [Char.isDigit, UInt32.le_iff_toNat_le] using h

theorem isBlank_of_isDigit {c : Char} (h : c.isDigit = true) : isBlank c = false := by
  have hrange := toNat_of_isDigit h
  simp [isBlank, blankRanges]
  omega

theorem toLower_of_isDigit {c : Char} (h : c.isDigit = true) : c.toLower = c := by
  have hrange := toNat_of_isDigit h
  unfold Char.toLower
  rw [dif_neg]
  intro hupper
  have hfirst : 65 ≤ c.toNat := UInt32.le_iff_toNat_le.mp hupper.1
  omega

/-! ### Integers -/

theorem toInt_of_toInt64? {n : Int} {k : Int64} (h : toInt64? n = some k) : k.toInt = n := by
  unfold toInt64? at h
  split at h
  · rename_i hrange
    cases h
    have hmin : Int64.minValue.toInt = -2 ^ 63 := rfl
    have hmax : Int64.maxValue.toInt = 2 ^ 63 - 1 := rfl
    exact Int64.toInt_ofInt_of_le (by omega) (by omega)
  · cases h

theorem readDigits_decimal (k : Nat) : readDigits (decimal k) = some k := by
  have hall : (decimal k).all Char.isDigit = true :=
    List.all_eq_true.mpr fun _ => Json.isDigit_of_mem_decimal
  have hne : (decimal k).isEmpty = false := by
    rw [List.isEmpty_eq_false_iff]
    exact Nat.toDigits_ne_nil
  unfold readDigits
  rw [hall, hne]
  exact congrArg some Nat.ofDigitChars_ten_toDigits

/-- A number without a sign begins with a digit. -/
theorem decimal_cons (k : Nat) : ∃ d ds, decimal k = d :: ds ∧ d.isDigit = true := by
  cases hchars : decimal k with
  | nil => exact absurd hchars Nat.toDigits_ne_nil
  | cons d ds =>
      have hmem : d ∈ decimal k := by
        rw [hchars]
        exact List.mem_cons_self
      exact ⟨d, ds, rfl, Json.isDigit_of_mem_decimal hmem⟩

/-- An integer is read back from its text. -/
theorem readSigned_signedDecimal (n : Int64) : readSigned (signedDecimal n.toInt) = some n := by
  unfold signedDecimal
  by_cases hneg : n.toInt < 0
  · have hn : -(n.toInt.natAbs : Int) = n.toInt := by omega
    rw [if_pos hneg]
    simp only [readSigned, readDigits_decimal, Option.bind_eq_bind, Option.bind_some, hn,
      Json.toInt64?_toInt]
  · have hn : (n.toInt.natAbs : Int) = n.toInt := by omega
    obtain ⟨d, ds, hchars, hd⟩ := decimal_cons n.toInt.natAbs
    have hread := readDigits_decimal n.toInt.natAbs
    rw [if_neg hneg]
    rw [hchars] at hread ⊢
    unfold readSigned
    split
    · rename_i heq
      cases heq
      cases hd
    · rename_i heq
      cases heq
      cases hd
    · rw [hread, Option.bind_eq_bind, Option.bind_some, hn, Json.toInt64?_toInt]

end Text

namespace Json

/-! ### Values and their JSON -/

mutual
/-- What is decoded to a value is its JSON. -/
theorem eq_ofValue_of_toValue? : ∀ {j : Json} {v : Value}, toValue? j = some v → j = ofValue v
  | .null, v, h => by cases h; rfl
  | .bool _, v, h => by cases h; rfl
  | .int n, v, h => by
      rw [toValue?, Option.map_eq_some_iff] at h
      obtain ⟨k, hk, rfl⟩ := h
      rw [ofValue, Text.toInt_of_toInt64? hk]
  | .decimal _ _, v, h => by cases h
  | .str _, v, h => by cases h; rfl
  | .arr items, v, h => by
      rw [toValue?, Option.map_eq_some_iff] at h
      obtain ⟨vs, hvs, rfl⟩ := h
      rw [ofValue, ← eq_ofValues_of_toValues? hvs]
  | .obj _, v, h => by cases h
  | .unread, v, h => by cases h
theorem eq_ofValues_of_toValues? : ∀ {js : List Json} {vs : List Value},
    toValues? js = some vs → js = ofValues vs
  | [], vs, h => by cases h; rfl
  | j :: js, vs, h => by
      rw [toValues?] at h
      split at h
      · rename_i v more hv hmore
        cases h
        rw [ofValues, ← eq_ofValue_of_toValue? hv, ← eq_ofValues_of_toValues? hmore]
      · cases h
end

end Json

namespace Csv

/-! ### Values of a type -/

mutual
/-- The check lets through what is of a type. -/
theorem check_eq_ok_iff : ∀ (v : Value) (t : DataType), check v t = .ok () ↔ v.Conforms t
  | .null, t => by simp [check]
  | .int n, t => by cases t <;> simp [check, Value.Conforms]
  | .bool b, t => by cases t <;> simp [check, Value.Conforms]
  | .string s, t => by cases t <;> simp [check, Value.Conforms]
  | .row fields, .struct attributes => by
      rw [check, Value.Conforms, ← checkAll_eq_ok_iff fields attributes]
      split
      · rename_i hlength
        exact (and_iff_right hlength).symm
      · rename_i hlength
        simp [hlength]
  | .row _, .null => by simp [check, Value.Conforms]
  | .row _, .int => by simp [check, Value.Conforms]
  | .row _, .bool => by simp [check, Value.Conforms]
  | .row _, .string => by simp [check, Value.Conforms]
  | .row _, .unresolved _ => by simp [check, Value.Conforms]
theorem checkAll_eq_ok_iff : ∀ (vs : List Value) (as : List Attribute),
    (vs.length = as.length ∧ checkAll vs as = .ok ()) ↔ Value.ConformAll vs as
  | [], [] => by simp [checkAll, Value.ConformAll]
  | [], _ :: _ => by simp [Value.ConformAll]
  | _ :: _, [] => by simp [Value.ConformAll]
  | v :: vs, a :: as => by
      rw [Value.ConformAll, ← check_eq_ok_iff v a.type, ← checkAll_eq_ok_iff vs as, checkAll]
      cases check v a.type with
      | error f => simp [bind, Except.bind]
      | ok u => simp [bind, Except.bind]
end

/-! ### The text of a value -/

/-- The text of a value begins with no blank, and with that letter only if it is null. -/
theorem chars_begin (v : Value) : ∃ c rest, (Json.ofValue v).chars = c :: rest ∧
    Text.isBlank c = false ∧ (v ≠ .null → c.toLower ≠ 'n') := by
  cases v with
  | null => exact ⟨_, _, rfl, by decide, by simp⟩
  | bool b => cases b <;> exact ⟨_, _, rfl, by decide, by decide⟩
  | string s => exact ⟨'"', _, rfl, by decide, fun _ => by decide⟩
  | row fields => exact ⟨'[', _, rfl, by decide, fun _ => by decide⟩
  | int n =>
      rw [Json.ofValue, Json.chars]
      unfold Text.signedDecimal
      split
      · exact ⟨'-', _, rfl, by decide, fun _ => by decide⟩
      · obtain ⟨d, ds, hchars, hd⟩ := Text.decimal_cons n.toInt.natAbs
        refine ⟨d, ds, hchars, Text.isBlank_of_isDigit hd, fun _ => ?_⟩
        rw [Text.toLower_of_isDigit hd]
        rintro rfl
        cases hd

/-- The text of a value ends with no blank. -/
theorem chars_end (v : Value) : ∃ rest c, (Json.ofValue v).chars = rest ++ [c] ∧
    Text.isBlank c = false := by
  cases v with
  | null => exact ⟨['n', 'u', 'l'], 'l', rfl, by decide⟩
  | bool b =>
      cases b
      · exact ⟨['f', 'a', 'l', 's'], 'e', rfl, by decide⟩
      · exact ⟨['t', 'r', 'u'], 'e', rfl, by decide⟩
  | string s => exact ⟨_, '"', rfl, by decide⟩
  | row fields => exact ⟨_, ']', rfl, by decide⟩
  | int n =>
      have hne : Text.decimal n.toInt.natAbs ≠ [] := Nat.toDigits_ne_nil
      have hlast := Json.isDigit_of_mem_decimal (List.getLast_mem hne)
      have hsplit := List.dropLast_concat_getLast hne
      rw [Json.ofValue, Json.chars]
      unfold Text.signedDecimal
      split
      · refine ⟨'-' :: (Text.decimal n.toInt.natAbs).dropLast, _, ?_, Text.isBlank_of_isDigit hlast⟩
        rw [List.cons_append, hsplit]
      · exact ⟨_, _, hsplit.symm, Text.isBlank_of_isDigit hlast⟩

/-- What is left of the text of a value with blanks around it. -/
theorem trim_chars {before after : List Char} (hbefore : ∀ c ∈ before, Text.isBlank c = true)
    (hafter : ∀ c ∈ after, Text.isBlank c = true) (v : Value) :
    Text.trim (before ++ (Json.ofValue v).chars ++ after) = (Json.ofValue v).chars := by
  have hpadded : Text.Padded (Json.ofValue v).chars (before ++ (Json.ofValue v).chars ++ after) :=
    ⟨before, after, hbefore, hafter, rfl⟩
  obtain ⟨c, rest, hchars, hc, -⟩ := chars_begin v
  exact hpadded.trim.trans (Text.trim_eq_self ⟨c, rest, hchars, hc⟩ (chars_end v))

/-- The text of a value other than null does not stand for null. -/
theorem chars_not_null {v : Value} (hv : v ≠ .null) :
    ((Json.ofValue v).chars.isEmpty
      || decide (Text.lower (Json.ofValue v).chars = ['n', 'u', 'l', 'l'])) = false := by
  obtain ⟨c, rest, hchars, -, hc⟩ := chars_begin v
  rw [hchars]
  simp [Text.lower, hc hv]

/-! ### Fields -/

variable {t : DataType} {v : Value} {field : List Char}

/-- What is read is of the type that it was read at. -/
theorem conforms_of_readField (h : readField t field = .ok v) : v.Conforms t := by
  cases t with
  | string =>
      cases h
      trivial
  | struct attributes =>
      simp only [readField] at h
      split at h
      · cases h
        simp
      · split at h
        · rename_i u _
          cases hcheck : check u (.struct attributes) with
          | error f =>
              rw [hcheck] at h
              cases h
          | ok _ =>
              rw [hcheck] at h
              cases h
              exact (check_eq_ok_iff _ _).mp hcheck
        · cases h
  | _ =>
      simp only [readField] at h
      split at h
      · cases h
        simp
      · first
          | (split at h <;> cases h <;> trivial)
          | cases h

/-- What is read at another type than that of strings nests no deeper than JSON may. -/
theorem depth_of_readField (ht : t ≠ .string) (h : readField t field = .ok v) :
    (Json.ofValue v).depth ≤ Json.maxDepth := by
  have hconforms := conforms_of_readField h
  cases t with
  | string => exact absurd rfl ht
  | struct attributes =>
      have hread := recordValue?_of_readField h
      unfold recordValue? at hread
      simp only at hread
      split at hread
      · cases hread
        exact Nat.zero_le _
      · obtain ⟨j, hj, hvalue⟩ := Option.bind_eq_some_iff.mp hread
        rw [← Json.eq_ofValue_of_toValue? hvalue]
        exact Json.depth_of_read hj
  | _ =>
      cases v with
      | row fields => exact hconforms.elim
      | _ => exact Nat.zero_le _

/-- **The text of a value of a type is read as this value**, with blanks around it or without. -/
theorem readField_chars (ht : t ≠ .string) (hv : v.Conforms t)
    (hdepth : (Json.ofValue v).depth ≤ Json.maxDepth) {before after : List Char}
    (hbefore : ∀ c ∈ before, Text.isBlank c = true)
    (hafter : ∀ c ∈ after, Text.isBlank c = true) :
    readField t (before ++ (Json.ofValue v).chars ++ after) = .ok v := by
  have htrim := trim_chars hbefore hafter v
  cases v with
  | null =>
      cases t with
      | string => exact absurd rfl ht
      | _ =>
          simp only [readField, htrim]
          rfl
  | int n =>
      cases t with
      | int =>
          have hread : Text.readSigned (Json.ofValue (.int n)).chars = some n :=
            Text.readSigned_signedDecimal n
          simp only [readField, htrim, chars_not_null (Value.noConfusion : Value.int n ≠ .null),
            Bool.false_eq_true, if_false, hread]
      | _ => exact hv.elim
  | bool b =>
      cases t with
      | bool =>
          simp only [readField, htrim]
          cases b <;> rfl
      | _ => exact hv.elim
  | string s =>
      cases t with
      | string => exact absurd rfl ht
      | _ => exact hv.elim
  | row fields =>
      cases t with
      | struct attributes =>
          have hread : (Json.read (Json.ofValue (.row fields)).chars >>= Json.toValue?)
              = some (.row fields) := by
            rw [Json.read_chars (Json.written_ofValue _), Json.cut_of_le _ hdepth,
              Option.bind_eq_bind, Option.bind_some, Json.toValue?_ofValue]
          have hrow : Value.row fields ≠ .null := Value.noConfusion
          simp only [readField, htrim, chars_not_null hrow, Bool.false_eq_true, if_false, hread,
            (check_eq_ok_iff _ _).mpr hv]
          rfl
      | _ => exact hv.elim

/-! ### Records -/

variable {schema : Schema}

/-- The row of a record, which has to be as wide as the first one. -/
def recordRow (schema : Schema) (width i : Nat) (r : RawRecord) : Except LoadFault Row :=
  if r.fields.length = width then texts i r.start 0 r.fields >>= readRecord schema (i + 1)
  else .error (.ragged i r.start r.fields.length width)

/-- The number of the record that a fault is about, counted from zero. -/
def LoadFault.index : LoadFault → Nat
  | .ragged record _ _ _ => record
  | .notText record _ _ _ => record
  | .width record _ _ => record - 1
  | .field record _ => record - 1

/-- The fields of a record are texts, and these are read as the values of a row, one for each
column. -/
inductive Gives : Schema → List (List UInt8) → Row → Prop where
  | nil : Gives [] [] []
  | cons {a : Attribute} {schema : Schema} {bytes : List UInt8} {rest : List (List UInt8)}
      {text : List Char} {v : Value} {row : Row} (htext : Text.Utf8.decode bytes = .ok text)
      (hread : readField a.type text = .ok v) (hrest : Gives schema rest row) :
      Gives (a :: schema) (bytes :: rest) (v :: row)

theorem Gives.length {fields : List (List UInt8)} {row : Row} (h : Gives schema fields row) :
    fields.length = schema.length := by
  induction h with
  | nil => rfl
  | cons _ _ _ ih => rw [List.length_cons, List.length_cons, ih]

theorem Gives.conforms {fields : List (List UInt8)} {row : Row} (h : Gives schema fields row) :
    row.Conforms schema := by
  induction h with
  | nil => trivial
  | cons _ hread _ ih => exact ⟨conforms_of_readField hread, ih⟩

theorem texts_cons {record : Nat} {start : Position} {i : Nat} {bytes : List UInt8}
    {rest : List (List UInt8)} {fields : List (List Char)} :
    texts record start i (bytes :: rest) = .ok fields ↔ ∃ text more,
      Text.Utf8.decode bytes = .ok text ∧ texts record start (i + 1) rest = .ok more ∧
        fields = text :: more := by
  rw [texts]
  cases Text.Utf8.decode bytes with
  | error n => simp
  | ok text =>
      cases texts record start (i + 1) rest with
      | error f => simp [bind, Except.bind]
      | ok more => simp [bind, Except.bind, pure, Except.pure, eq_comm]

theorem readFields_cons_iff {a : Attribute} {field : List Char} {rest : List (List Char)}
    {row : Row} : readFields (a :: schema) (field :: rest) = .ok row ↔ ∃ v vs,
      readField a.type field = .ok v ∧ readFields schema rest = .ok vs ∧ row = v :: vs := by
  refine ⟨readFields_cons, ?_⟩
  rintro ⟨v, vs, hv, hvs, rfl⟩
  simp only [readFields, hv, hvs, bind, Except.bind]
  rfl

/-- A row is given by the fields of a record if they are texts, as many as there are columns, and
are read as the row. -/
theorem gives_iff (record : Nat) (start : Position) : ∀ {schema : Schema}
    {fields : List (List UInt8)} {row : Row} (i : Nat), Gives schema fields row ↔ ∃ cs,
      texts record start i fields = .ok cs ∧ cs.length = schema.length ∧
        readFields schema cs = .ok row := by
  intro schema
  induction schema with
  | nil =>
      intro fields row i
      constructor
      · rintro ⟨⟩
        exact ⟨[], rfl, rfl, rfl⟩
      · rintro ⟨cs, hcs, hlength, hread⟩
        obtain rfl := List.length_eq_zero_iff.mp hlength
        cases fields with
        | nil =>
            cases hread
            exact .nil
        | cons bytes rest =>
            obtain ⟨text, more, -, -, hsame⟩ := texts_cons.mp hcs
            cases hsame
  | cons a schema ih =>
      intro fields row i
      constructor
      · rintro (_ | ⟨htext, hread, hrest⟩)
        obtain ⟨cs, hcs, hlength, hreads⟩ := (ih (i + 1)).mp hrest
        exact ⟨_, texts_cons.mpr ⟨_, cs, htext, hcs, rfl⟩, congrArg (· + 1) hlength,
          readFields_cons_iff.mpr ⟨_, _, hread, hreads, rfl⟩⟩
      · rintro ⟨cs, hcs, hlength, hreads⟩
        cases fields with
        | nil =>
            cases hcs
            cases hlength
        | cons bytes rest =>
            obtain ⟨text, more, htext, hmore, rfl⟩ := texts_cons.mp hcs
            obtain ⟨v, vs, hread, hrest, rfl⟩ := readFields_cons_iff.mp hreads
            exact .cons htext hread
              ((ih (i + 1)).mpr ⟨more, hmore, Nat.succ.inj hlength, hrest⟩)

theorem readRecord_eq_ok_iff {record : Nat} {fields : List (List Char)} {row : Row} :
    readRecord schema record fields = .ok row ↔
      fields.length = schema.length ∧ readFields schema fields = .ok row := by
  refine ⟨readRecord_eq_ok, fun ⟨hlength, hread⟩ => ?_⟩
  unfold readRecord
  rw [if_pos hlength, hread]
  rfl

theorem recordRow_eq_ok_iff {width i : Nat} {r : RawRecord} {row : Row} :
    recordRow schema width i r = .ok row ↔
      r.fields.length = width ∧ Gives schema r.fields row := by
  rw [gives_iff i r.start 0]
  unfold recordRow
  by_cases hwidth : r.fields.length = width
  · rw [if_pos hwidth]
    cases texts i r.start 0 r.fields with
    | error f => simp [hwidth, bind, Except.bind]
    | ok cs => simp [hwidth, bind, Except.bind, readRecord_eq_ok_iff]
  · simp [hwidth]

theorem index_of_texts {record : Nat} {start : Position} : ∀ {fields : List (List UInt8)} {i : Nat}
    {f : LoadFault}, texts record start i fields = .error f → f.index = record := by
  intro fields
  induction fields with
  | nil => intro i f h; cases h
  | cons bytes rest ih =>
      intro i f h
      rw [texts] at h
      split at h
      · cases h
        rfl
      · cases hrest : texts record start (i + 1) rest with
        | error f' =>
            rw [hrest] at h
            cases h
            exact ih hrest
        | ok more =>
            rw [hrest] at h
            cases h

theorem index_of_readRecord {i : Nat} {fields : List (List Char)} {f : LoadFault}
    (h : readRecord schema (i + 1) fields = .error f) : f.index = i := by
  unfold readRecord at h
  split at h
  · cases hread : readFields schema fields with
    | error fault =>
        rw [hread] at h
        cases h
        rfl
    | ok row =>
        rw [hread] at h
        cases h
  · cases h
    rfl

/-- The fault of a record says which one it is. -/
theorem index_of_recordRow {width i : Nat} {r : RawRecord} {f : LoadFault}
    (h : recordRow schema width i r = .error f) : f.index = i := by
  unfold recordRow at h
  split at h
  · cases htexts : texts i r.start 0 r.fields with
    | error f' =>
        rw [htexts] at h
        cases h
        exact index_of_texts htexts
    | ok cs =>
        rw [htexts] at h
        exact index_of_readRecord h
  · cases h
    rfl

/-! ### Loading -/

theorem loadFrom_cons_eq (width i : Nat) (r : RawRecord) (rest : List RawRecord) :
    loadFrom schema width i (r :: rest) = recordRow schema width i r >>= fun row =>
      (loadFrom schema width (i + 1) rest).map (row :: ·) := by
  rw [loadFrom]
  unfold recordRow
  by_cases hwidth : r.fields.length = width
  · rw [if_pos hwidth, if_neg (by simp [hwidth])]
    cases texts i r.start 0 r.fields with
    | error f => rfl
    | ok cs =>
        cases hrow : readRecord schema (i + 1) cs with
        | error f => simp [bind, Except.bind, hrow]
        | ok row =>
            cases loadFrom schema width (i + 1) rest <;>
              simp [bind, Except.bind, pure, Except.pure, hrow, Except.map]
  · rw [if_neg hwidth, if_pos (by simp [hwidth])]
    rfl

theorem loadFrom_cons_iff {width i : Nat} {r : RawRecord} {rest : List RawRecord}
    {rows : List Row} : loadFrom schema width i (r :: rest) = .ok rows ↔ ∃ row more,
      recordRow schema width i r = .ok row ∧ loadFrom schema width (i + 1) rest = .ok more ∧
        rows = row :: more := by
  rw [loadFrom_cons_eq]
  cases recordRow schema width i r with
  | error f => simp [bind, Except.bind]
  | ok row =>
      cases loadFrom schema width (i + 1) rest with
      | error f => simp [bind, Except.bind, Except.map]
      | ok more => simp [bind, Except.bind, Except.map, eq_comm]

/-- Records are loaded if every one of them gives its row. -/
theorem loadFrom_eq_ok_iff {width : Nat} : ∀ {records : List RawRecord} {i : Nat} {rows : List Row},
    loadFrom schema width i records = .ok rows ↔
      List.Forall₂ (fun r row => r.fields.length = width ∧ Gives schema r.fields row)
        records rows := by
  intro records
  induction records with
  | nil =>
      intro i rows
      simp [loadFrom, eq_comm]
  | cons r rest ih =>
      intro i rows
      rw [loadFrom_cons_iff, List.forall₂_cons_left_iff]
      constructor
      · rintro ⟨row, more, hrow, hmore, rfl⟩
        exact ⟨row, more, recordRow_eq_ok_iff.mp hrow, ih.mp hmore, rfl⟩
      · rintro ⟨row, more, hrow, hmore, rfl⟩
        exact ⟨row, more, recordRow_eq_ok_iff.mpr hrow, ih.mpr hmore, rfl⟩

/-- The fault is that of the first record that gives no row. -/
theorem loadFrom_eq_error_iff {width : Nat} {f : LoadFault} :
    ∀ {records : List RawRecord} {i : Nat}, loadFrom schema width i records = .error f ↔
      ∃ before r after rows, records = before ++ r :: after ∧
        loadFrom schema width i before = .ok rows ∧
        recordRow schema width (i + before.length) r = .error f := by
  intro records
  induction records with
  | nil =>
      intro i
      simp [loadFrom]
  | cons r rest ih =>
      intro i
      constructor
      · intro h
        rw [loadFrom_cons_eq] at h
        cases hrow : recordRow schema width i r with
        | error f' =>
            rw [hrow] at h
            cases h
            exact ⟨[], r, rest, [], rfl, rfl, hrow⟩
        | ok row =>
            have hrest : loadFrom schema width (i + 1) rest = .error f := by
              rw [hrow] at h
              cases hmore : loadFrom schema width (i + 1) rest with
              | error f' =>
                  rw [hmore] at h
                  cases h
                  rfl
              | ok more =>
                  rw [hmore] at h
                  cases h
            obtain ⟨before, r', after, rows, rfl, hbefore, hfault⟩ := ih.mp hrest
            refine ⟨r :: before, r', after, row :: rows, rfl,
              loadFrom_cons_iff.mpr ⟨row, rows, hrow, hbefore, rfl⟩, ?_⟩
            rw [List.length_cons, show i + (before.length + 1) = i + 1 + before.length by omega]
            exact hfault
      · rintro ⟨before, r', after, rows, hsplit, hbefore, hfault⟩
        rw [loadFrom_cons_eq]
        cases before with
        | nil =>
            cases hsplit
            rw [show recordRow schema width i r = .error f from hfault]
            rfl
        | cons first before =>
            obtain ⟨rfl, rfl⟩ : r = first ∧ rest = before ++ r' :: after := by simpa using hsplit
            obtain ⟨row, more, hrow, hmore, rfl⟩ := loadFrom_cons_iff.mp hbefore
            have hrest : loadFrom schema width (i + 1) (before ++ r' :: after) = .error f := by
              refine ih.mpr ⟨before, r', after, more, rfl, hmore, ?_⟩
              rw [show i + 1 + before.length = i + (before.length + 1) by omega]
              exact hfault
            rw [hrow, hrest]
            rfl

/-- A text is loaded if every one of its records gives its row. -/
theorem load_eq_ok_iff {bytes : List UInt8} {rows : List Row} : load schema bytes = .ok rows ↔
    List.Forall₂ (fun r row => Gives schema r.fields row) (records bytes) rows := by
  unfold load
  cases records bytes with
  | nil => simp [eq_comm]
  | cons first rest =>
      refine loadFrom_eq_ok_iff.trans ⟨fun h => h.imp fun _ _ => And.right, fun h => ?_⟩
      obtain ⟨row, more, hfirst, -, rfl⟩ := List.forall₂_cons_left_iff.mp h
      exact h.imp fun r row hr => ⟨hr.length.trans hfirst.length.symm, hr⟩

/-- Otherwise there is a first record that gives no row, and the fault is about it. -/
theorem exists_of_load_eq_error {bytes : List UInt8} {f : LoadFault}
    (h : load schema bytes = .error f) : ∃ before r after rows,
      records bytes = before ++ r :: after ∧
        List.Forall₂ (fun r row => Gives schema r.fields row) before rows ∧
        (∀ row, ¬ Gives schema r.fields row) ∧ f.index = before.length := by
  unfold load at h
  cases hrecords : records bytes with
  | nil =>
      rw [hrecords] at h
      cases h
  | cons first rest =>
      rw [hrecords] at h
      obtain ⟨before, r, after, rows, hsplit, hbefore, hfault⟩ := loadFrom_eq_error_iff.mp h
      rw [Nat.zero_add] at hfault
      have hgives := loadFrom_eq_ok_iff.mp hbefore
      refine ⟨before, r, after, rows, hsplit, hgives.imp fun _ _ => And.right, ?_,
        index_of_recordRow hfault⟩
      intro row hr
      have hwidth : r.fields.length = first.fields.length := by
        cases before with
        | nil =>
            cases hsplit
            rfl
        | cons first' before =>
            cases hsplit
            obtain ⟨row', more, ⟨-, hfirst⟩, -, rfl⟩ := List.forall₂_cons_left_iff.mp hgives
            exact hr.length.trans hfirst.length.symm
      rw [recordRow_eq_ok_iff.mpr ⟨hwidth, hr⟩] at hfault
      cases hfault

/-- **What is loaded is what conforms to the schema.**

* Records are loaded exactly if each of them is as wide as the first and its fields are texts that
  are read, one for each column; the rows are theirs, in order.  Such a record is as wide as the
  schema, and its row conforms to it.
* Otherwise the fault is that of the first record that gives no row, and says which one it is.
* So a text is loaded exactly if the fields of each of its records are texts that are read, one for
  each column, and otherwise the fault is about the first record of which they are not.
* At a type other than that of strings the values that some text is read as are those of the type
  that nest no deeper than JSON may.  The JSON of such a value is a text for it, with any blanks
  around it.
* At the type of strings every text is read as itself. -/
theorem loads_what_conforms (schema : Schema) (width : Nat) (records : List RawRecord) :
    ((∀ rows, loadFrom schema width 0 records = .ok rows ↔
        List.Forall₂ (fun r row => r.fields.length = width ∧ Gives schema r.fields row)
          records rows) ∧
      ∀ fields row, Gives schema fields row →
        fields.length = schema.length ∧ row.Conforms schema) ∧
    (∀ f, loadFrom schema width 0 records = .error f ↔ ∃ before r after rows,
      records = before ++ r :: after ∧ loadFrom schema width 0 before = .ok rows ∧
        recordRow schema width before.length r = .error f ∧ f.index = before.length) ∧
    (∀ bytes,
      (∀ rows, load schema bytes = .ok rows ↔
        List.Forall₂ (fun r row => Gives schema r.fields row) (Csv.records bytes) rows) ∧
      ∀ f, load schema bytes = .error f → ∃ before r after rows,
        Csv.records bytes = before ++ r :: after ∧
          List.Forall₂ (fun r row => Gives schema r.fields row) before rows ∧
          (∀ row, ¬ Gives schema r.fields row) ∧ f.index = before.length) ∧
    (∀ t v, t ≠ .string →
      ((∃ field, readField t field = .ok v) ↔
        v.Conforms t ∧ (Json.ofValue v).depth ≤ Json.maxDepth) ∧
      (v.Conforms t → (Json.ofValue v).depth ≤ Json.maxDepth → ∀ before after,
        (∀ c ∈ before, Text.isBlank c = true) → (∀ c ∈ after, Text.isBlank c = true) →
          readField t (before ++ (Json.ofValue v).chars ++ after) = .ok v)) ∧
    ∀ field, readField .string field = .ok (.string (String.ofList field)) := by
  refine ⟨⟨fun rows => loadFrom_eq_ok_iff, fun fields row h => ⟨h.length, h.conforms⟩⟩,
    fun f => ?_, fun bytes => ⟨fun rows => load_eq_ok_iff, fun f => exists_of_load_eq_error⟩,
    fun t v ht => ⟨⟨?_, ?_⟩, ?_⟩, fun field => rfl⟩
  · rw [loadFrom_eq_error_iff]
    constructor
    · rintro ⟨before, r, after, rows, hsplit, hbefore, hfault⟩
      rw [Nat.zero_add] at hfault
      exact ⟨before, r, after, rows, hsplit, hbefore, hfault, index_of_recordRow hfault⟩
    · rintro ⟨before, r, after, rows, hsplit, hbefore, hfault, -⟩
      exact ⟨before, r, after, rows, hsplit, hbefore, by rwa [Nat.zero_add]⟩
  · rintro ⟨field, hread⟩
    exact ⟨conforms_of_readField hread, depth_of_readField ht hread⟩
  · rintro ⟨hv, hdepth⟩
    exact ⟨_, readField_chars ht hv hdepth (List.forall_mem_nil _) (List.forall_mem_nil _)⟩
  · exact fun hv hdepth before after hbefore hafter => readField_chars ht hv hdepth hbefore hafter

/-- The text of a record of a number and a string that begins with a blank and looks like a null,
and of a second record whose first field is no number. -/
def halfLoadable : List UInt8 :=
  [0x37, 0x2c, 0x20, 0x6e, 0x75, 0x6c, 0x6c, 0x0a, 0x78, 0x2c, 0x79, 0x0a]

/-- The first of these records gives a row, and the fault of both is about the second.  A row in a
row, whose string looks like a null, is read with blanks around it. -/
theorem loads_what_conforms_of_nested :
    (∃ r, records (halfLoadable.take 8) = [r] ∧
      Gives [⟨"n", .int⟩, ⟨"s", .string⟩] r.fields [.int 7, .string " null"]) ∧
    (∃ f, load [⟨"n", .int⟩, ⟨"s", .string⟩] halfLoadable = .error f ∧ f.index = 1) ∧
    ∃ t v, t = .struct [⟨"x", .int⟩, ⟨"y", .struct [⟨"z", .string⟩, ⟨"w", .bool⟩]⟩] ∧
      v = .row [.int (-5), .row [.string " null ", .null]] ∧ t ≠ .string ∧
      Value.Conforms v t ∧ (Json.ofValue v).depth ≤ Json.maxDepth ∧
      readField t ([' ', '\t'] ++ (Json.ofValue v).chars ++ ['\u3000']) = .ok v := by
  refine ⟨?_, ?_, _, _, rfl, rfl, ?_⟩
  · obtain ⟨-, -, htext, -⟩ := loads_what_conforms [⟨"n", .int⟩, ⟨"s", .string⟩] 0 []
    have hload : load [⟨"n", .int⟩, ⟨"s", .string⟩] (halfLoadable.take 8)
        = .ok [[.int 7, .string " null"]] := rfl
    obtain ⟨r, rest, hgives, hnil, hrecords⟩ :=
      List.forall₂_cons_right_iff.mp (((htext _).1 _).mp hload)
    obtain rfl := List.forall₂_nil_right_iff.mp hnil
    exact ⟨r, hrecords, hgives⟩
  · exact ⟨_, rfl, rfl⟩
  generalize ht : DataType.struct [⟨"x", .int⟩, ⟨"y", .struct [⟨"z", .string⟩, ⟨"w", .bool⟩]⟩] = t
  have hne : t ≠ .string := by
    rw [← ht]
    nofun
  have hv : Value.Conforms (.row [.int (-5), .row [.string " null ", .null]]) t := by
    rw [← ht]
    exact ⟨trivial, ⟨trivial, trivial, trivial⟩, trivial⟩
  have hbefore : ∀ c ∈ [' ', '\t'], Text.isBlank c = true :=
    List.forall_mem_cons.mpr ⟨rfl, List.forall_mem_singleton.mpr rfl⟩
  have hafter : ∀ c ∈ ['\u3000'], Text.isBlank c = true := List.forall_mem_singleton.mpr rfl
  obtain ⟨-, -, -, htypes, -⟩ := loads_what_conforms [] 0 []
  exact ⟨hne, hv, by decide, (htypes t _ hne).2 hv (by decide) _ _ hbefore hafter⟩

end Csv

end StreamQuery
