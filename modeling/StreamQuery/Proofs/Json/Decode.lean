/-
What is written decodes to what it was written from.

Values, types, expressions and operations each nest, and each has an encoder and a decoder
that recur in the same way, so there is one induction for each kind.  What a record or a
choice carries stands under keys, and the decoders take a key by what it says, not by where
it stands.

An object that is written with its keys in order comes back as its members in some order,
and that is all that is said of it: which order does not matter to anybody who asks for
permutations.  Along the way it is noted that all that is encoded is printed as it is:
integers fit 64 bits, and the keys of one object differ.
-/
import Mathlib.Data.List.Perm.Basic
import StreamQuery.Json.Plan
import StreamQuery.Proofs.Json.Read

namespace StreamQuery.Json

/-! ### Numbers and lists -/

theorem toInt64?_toInt (n : Int64) : Text.toInt64? n.toInt = some n := by
  unfold Text.toInt64?
  rw [if_pos ⟨n.minValue_le_toInt, n.toInt_le⟩, Int64.ofInt_toInt]

theorem toWord?_toNat (n : UInt64) : Text.toWord? n.toNat = some n := by
  unfold Text.toWord?
  rw [if_pos n.toNat_lt_size, UInt64.ofNat_toNat]

@[simp]
theorem toWord?_ofWord (n : UInt64) : toWord? (ofWord n) = some n := by
  simp only [ofWord, toWord?, Int.natCast_nonneg, if_true, Int.toNat_natCast, toWord?_toNat]

@[simp]
theorem written_ofWord (n : UInt64) : (ofWord n).Written := by
  have hmin : Int64.minValue.toInt < 0 := by decide
  have hlt := n.toNat_lt_size
  rw [ofWord, Written]
  omega

/-- A list of which each part is read back is read back. -/
theorem mapM_map_some {α β : Type} {read : β → Option α} {write : α → β} {as : List α}
    (h : ∀ a ∈ as, read (write a) = some a) : (as.map write).mapM read = some as := by
  induction as with
  | nil => rfl
  | cons a as ih =>
      rw [List.map_cons, List.mapM_cons, h a List.mem_cons_self,
        ih fun b hb => h b (List.mem_cons_of_mem a hb)]
      rfl

theorem toList?_map {α : Type} {read : Json → Option α} {write : α → Json} {as : List α}
    (h : ∀ a ∈ as, read (write a) = some a) : toList? read (.arr (as.map write)) = some as :=
  mapM_map_some h

/-! ### Objects with their keys in order -/

/-- What stands in another order than the parts of a list were written in was written from these
parts in another order. -/
theorem exists_of_perm_map {α β : Type} {write : α → β} {bs : List β} {as : List α}
    (h : bs.Perm (as.map write)) : ∃ as' : List α, bs = as'.map write ∧ as'.Perm as :=
  (congrFun (congrFun (List.eq_map_comp_perm write) bs) as).mpr h

/-- The members of an object are read back in some order. -/
theorem mapM_sortMembers {α : Type} (read : String × Json → Option α)
    (write : α → String × Json) (as : List α) (h : ∀ a ∈ as, read (write a) = some a) :
    ∃ as', (sortMembers (as.map write)).mapM read = some as' ∧ as'.Perm as := by
  obtain ⟨as', heq, hperm⟩ := exists_of_perm_map (List.mergeSort_perm (as.map write) _)
  have hread : (as'.map write).mapM read = some as' :=
    mapM_map_some fun a ha => h a (hperm.subset ha)
  exact ⟨as', (congrArg (List.mapM read) heq).trans hread, hperm⟩

theorem written_object {members : List (String × Json)} (hkeys : (members.map Prod.fst).Nodup)
    (hvalues : ∀ m ∈ members, m.2.Written) : (object members).Written := by
  have hperm : (sortMembers members).Perm members := List.mergeSort_perm _ _
  rw [object, Written, membersWritten_iff]
  exact ⟨(hperm.map Prod.fst).nodup_iff.mpr hkeys,
    fun m hm => hvalues m (hperm.subset hm)⟩

theorem depthMembers_perm {ms ns : List (String × Json)} (h : ms.Perm ns) :
    depthMembers ms = depthMembers ns := by
  induction h with
  | nil => rfl
  | cons m _ ih => rw [depthMembers, depthMembers, ih]
  | swap m n _ =>
      rw [depthMembers, depthMembers, depthMembers, depthMembers]
      omega
  | trans _ _ ih ih' => exact ih.trans ih'

/-- The order of its keys has nothing to do with how deep an object nests. -/
theorem depth_object (members : List (String × Json)) :
    (object members).depth = depthMembers members + 1 :=
  congrArg (· + 1) (depthMembers_perm (List.mergeSort_perm members _))

/-! ### Values -/

mutual
/-- A value of a field is decoded. -/
theorem toValue?_ofValue : ∀ v : Value, toValue? (ofValue v) = some v
  | .null => rfl
  | .int n => by rw [ofValue, toValue?, toInt64?_toInt]; rfl
  | .bool _ => rfl
  | .string _ => rfl
  | .row fields => by rw [ofValue, toValue?, toValues?_ofValues fields]; rfl
theorem toValues?_ofValues : ∀ vs : List Value, toValues? (ofValues vs) = some vs
  | [] => rfl
  | v :: vs => by rw [ofValues, toValues?, toValue?_ofValue v, toValues?_ofValues vs]
end

mutual
theorem written_ofValue : ∀ v : Value, (ofValue v).Written
  | .null => by rw [ofValue, Written]; trivial
  | .int n => by
      have hmax : Int64.maxValue.toInt < UInt64.size := by decide
      rw [ofValue, Written]
      exact ⟨n.minValue_le_toInt, Int.lt_of_le_of_lt n.toInt_le hmax⟩
  | .bool _ => by rw [ofValue, Written]; trivial
  | .string _ => by rw [ofValue, Written]; trivial
  | .row fields => by rw [ofValue, Written]; exact allWritten_ofValues fields
theorem allWritten_ofValues : ∀ vs : List Value, AllWritten (ofValues vs)
  | [] => by rw [ofValues, AllWritten]; trivial
  | v :: vs => by
      rw [ofValues, AllWritten]
      exact ⟨written_ofValue v, allWritten_ofValues vs⟩
end

/-! ### Types and schemas -/

theorem toTypeKey?_ofTypeKey (key : TypeKey) : toTypeKey? (ofTypeKey key) = some key := by
  unfold ofTypeKey toTypeKey? fields? onlyMember?
  simp

mutual
/-- A type is decoded. -/
theorem toDataType?_ofDataType : ∀ t : DataType, toDataType? (ofDataType t) = some t
  | .null => rfl
  | .int => rfl
  | .bool => rfl
  | .string => rfl
  | .struct attributes => by
      rw [ofDataType, toDataType?, if_pos rfl]
      simp only [toAttributes?_ofAttributes attributes, Option.map_some]
  | .unresolved key => by
      rw [ofDataType, toDataType?.eq_def]
      simp [toTypeKey?_ofTypeKey]
theorem toAttributes?_ofAttributes : ∀ as : List Attribute,
    toAttributes? (ofAttributes as) = some as
  | [] => rfl
  | ⟨name, type⟩ :: rest => by
      have hcolumn : toAttribute? (.obj [("dtype", ofDataType type), ("name", .str name)])
          = some ⟨name, type⟩ := by
        rw [toAttribute?, memberTypes?, memberTypes?, if_pos rfl, toDataType?_ofDataType type]
        rfl
      rw [ofAttributes, toAttributes?, hcolumn, toAttributes?_ofAttributes rest]
end

mutual
theorem written_ofDataType : ∀ t : DataType, (ofDataType t).Written
  | .null => by rw [ofDataType, Written]; trivial
  | .int => by rw [ofDataType, Written]; trivial
  | .bool => by rw [ofDataType, Written]; trivial
  | .string => by rw [ofDataType, Written]; trivial
  | .struct attributes => by
      simp [ofDataType, Written, MembersWritten, allWritten_ofAttributes attributes]
  | .unresolved key => by simp [ofDataType, ofTypeKey, Written, MembersWritten]
theorem allWritten_ofAttributes : ∀ as : List Attribute, AllWritten (ofAttributes as)
  | [] => by rw [ofAttributes, AllWritten]; trivial
  | ⟨name, type⟩ :: rest => by
      simp [ofAttributes, AllWritten, Written, MembersWritten, written_ofDataType type,
        allWritten_ofAttributes rest]
end

/-! ### Expressions -/

theorem toOp?_opName (op : Op) : toOp? (.str (opName op)) = some op := by
  cases op <;> rfl

mutual
/-- An expression is decoded. -/
theorem toExpr?_ofExpr (form : PartsForm) : ∀ e : Expr, toExpr? form (ofExpr e) = some e
  | .literal v => by
      rw [ofExpr, toExpr?.eq_def]
      simp [toValue?_ofValue]
  | .inputRef i => by
      rw [ofExpr, toExpr?.eq_def]
      simp
  | .parameter i => by
      rw [ofExpr, toExpr?.eq_def]
      simp
  | .outer name => by
      rw [ofExpr, toExpr?.eq_def]
      simp [toText?]
  | .call op operands => by
      have hoperands : memberOperands? form
          [("op", .str (opName op)), ("operands", .arr (ofExprs operands))] = some [operands] := by
        rw [memberOperands?.eq_def]
        simp [memberOperands?, toExprs?_ofExprs form operands]
      rw [ofExpr, toExpr?.eq_def]
      simp [hoperands, onlyMember?, toOp?_opName]
  | .field e name => by
      have hexpr : memberExprs? form [("expr", ofExpr e), ("field", .str name)] = some [e] := by
        rw [memberExprs?, if_pos rfl, memberExprs?, if_neg (by decide), memberExprs?,
          toExpr?_ofExpr form e]
      rw [ofExpr, toExpr?.eq_def]
      simp [hexpr, onlyMember?]
theorem toExprs?_ofExprs (form : PartsForm) : ∀ es : List Expr,
    toExprs? form (ofExprs es) = some es
  | [] => rfl
  | e :: es => by rw [ofExprs, toExprs?, toExpr?_ofExpr form e, toExprs?_ofExprs form es]
end

mutual
theorem written_ofExpr : ∀ e : Expr, (ofExpr e).Written
  | .literal v => by simp [ofExpr, Written, MembersWritten, written_ofValue v]
  | .inputRef i => by simp [ofExpr, Written, MembersWritten]
  | .parameter i => by simp [ofExpr, Written, MembersWritten]
  | .outer name => by simp [ofExpr, Written, MembersWritten]
  | .call op operands => by
      simp [ofExpr, Written, MembersWritten, allWritten_ofExprs operands]
  | .field e name => by simp [ofExpr, Written, MembersWritten, written_ofExpr e]
theorem allWritten_ofExprs : ∀ es : List Expr, AllWritten (ofExprs es)
  | [] => by rw [ofExprs, AllWritten]; trivial
  | e :: es => by
      rw [ofExprs, AllWritten]
      exact ⟨written_ofExpr e, allWritten_ofExprs es⟩
end

theorem ofExprs_eq_map : ∀ es : List Expr, ofExprs es = es.map ofExpr
  | [] => rfl
  | e :: es => by rw [ofExprs, ofExprs_eq_map es, List.map_cons]

/-! ### Operations -/

theorem toCondition?_ofExpr (condition : Expr) :
    toCondition? (.obj [("condition", ofExpr condition)]) = some condition := by
  unfold toCondition? fields? onlyMember?
  simp [toExpr?_ofExpr]

/-- Stored rows are decoded unless there is a mark among them, which is written like a row. -/
theorem toStored?_ofStored {items : List Item} (h : .endOfStream ∉ items) :
    toStored? (ofStored items) = some items := by
  have hrows : toList? toRow? (ofStored items) = some (items.map Item.fields) :=
    toList?_map fun r _ => toValues?_ofValues r
  rw [toStored?, hrows, Option.map_some, Item.map_row_fields h]

/-- No decoded row is a mark. -/
theorem rows_of_toStored? {j : Json} {items : List Item} (h : toStored? j = some items) :
    .endOfStream ∉ items := by
  obtain ⟨rows, -, rfl⟩ := Option.map_eq_some_iff.mp h
  exact Item.not_mem_map_row rows

/-- **An operation is decoded.** -/
theorem toPlanNode?_ofPlanNode : ∀ {op : PlanNode}, op.RowsOnly →
    toPlanNode? (ofPlanNode op) = some op
  | .scan table, _ => rfl
  | .values schema rows, h => by
      have hrows : toStored? (ofStored rows) = some rows := toStored?_ofStored h
      have hschema : toSchema? (ofSchema schema) = some schema :=
        toAttributes?_ofAttributes schema
      simp [ofPlanNode, toPlanNode?, choice?, fields?, onlyMember?, hrows, hschema]
  | .filter condition, _ => by
      simp [ofPlanNode, toPlanNode?, choice?, toCondition?_ofExpr]
  | .project exprs names, _ => by
      have hexprs : toList? (toExpr? .named) (.arr (ofExprs exprs)) = some exprs := by
        rw [ofExprs_eq_map]
        exact toList?_map fun e _ => toExpr?_ofExpr .named e
      have hnames : toList? toText? (.arr (names.map .str)) = some names :=
        toList?_map fun _ _ => rfl
      simp [ofPlanNode, toPlanNode?, choice?, fields?, onlyMember?, hexprs, hnames]
  | .join condition, _ => by
      simp [ofPlanNode, toPlanNode?, choice?, toCondition?_ofExpr]
  | .union, _ => rfl

theorem rowsOnly_of_toPlanNode? {j : Json} {op : PlanNode} (h : toPlanNode? j = some op) :
    op.RowsOnly := by
  cases op with
  | values schema rows =>
      have hread : ∃ stored, toStored? stored = some rows := by
        unfold toPlanNode? at h
        split at h
        · simp only [Option.bind_eq_bind] at h
          split_ifs at h <;> (try split at h) <;>
            grind [Option.bind_eq_some_iff, Option.map_eq_some_iff]
        · cases h
      obtain ⟨stored, hstored⟩ := hread
      exact rows_of_toStored? hstored
  | _ => trivial

theorem written_ofPlanNode : ∀ op : PlanNode, (ofPlanNode op).Written
  | .scan table => by simp [ofPlanNode, Written, MembersWritten]
  | .values schema rows => by
      have hrows : (ofStored rows).Written := by
        rw [ofStored, ofRows, Written, allWritten_iff, List.forall_mem_map]
        intro r _
        rw [ofRow, Written]
        exact allWritten_ofValues r
      simp [ofPlanNode, ofSchema, Written, MembersWritten, hrows, allWritten_ofAttributes]
  | .filter condition => by simp [ofPlanNode, Written, MembersWritten, written_ofExpr]
  | .project exprs names => by
      have hnames : AllWritten (names.map .str) := by simp [allWritten_iff, Written]
      simp [ofPlanNode, Written, MembersWritten, allWritten_ofExprs, hnames]
  | .join condition => by simp [ofPlanNode, Written, MembersWritten, written_ofExpr]
  | .union => by simp [ofPlanNode, Written, MembersWritten]

end StreamQuery.Json
