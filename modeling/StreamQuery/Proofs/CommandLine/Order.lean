/-
The order of the tables of a run.

Tables are loaded one after the other in one scope.  The order decides which record types have
been built when a table is loaded, but of the type of a column it decides no more than where a
record that leads back to itself is cut off, and a value is read from its text, not from its type.
So the order can decide whether a table is refused, and nothing else: when all tables are loaded in
both orders, the same comes out of both.

A table is refused because of the order where two types lead to each other and a value reaches into
the one that was cut off.  Where no two types lead to each other, no table is refused in one order
and loaded in another.
-/
import StreamQuery.Proofs.Config.Columns
import StreamQuery.Proofs.Csv.Load
import StreamQuery.Proofs.Query.Retype

namespace StreamQuery

namespace Config

/-- Attributes of one column have one name and are of one kind. -/
theorem IsColumn.alike {column : List Char × List Char} {a a' : Attribute} (h : IsColumn column a)
    (h' : IsColumn column a') : a.name = a'.name ∧ Csv.SameKind a.type a'.type := by
  refine ⟨h.1.trans h'.1.symm, ?_⟩
  have hkind := h.2
  have hkind' := h'.2
  unfold Binding.OfKind at hkind hkind'
  cases hp : DataType.ofName? (String.ofList column.2) with
  | some p =>
      rw [hp] at hkind hkind'
      exact .inl (hkind.trans hkind'.symm)
  | none =>
      rw [hp] at hkind hkind'
      exact .inr ⟨hkind, hkind'⟩

theorem alike_of_columns {columns : List (List Char × List Char)} {schema schema' : Schema}
    (h : List.Forall₂ IsColumn columns schema) (h' : List.Forall₂ IsColumn columns schema') :
    schema.SameNames schema' ∧ Csv.SameKinds schema schema' := by
  induction h generalizing schema' with
  | nil =>
      cases h'
      exact ⟨rfl, .nil⟩
  | cons hfirst _ ih =>
      cases h' with
      | cons hfirst' hrest' =>
        obtain ⟨hname, hkind⟩ := hfirst.alike hfirst'
        obtain ⟨hnames, hkinds⟩ := ih hrest'
        refine ⟨?_, .cons hkind hkinds⟩
        unfold Schema.SameNames at *
        rw [List.map_cons, List.map_cons, hname, hnames]

end Config

namespace CommandLine

open Config

variable {files : Reader Id} {types : TypeFactory} {c cat : Catalog} {b b' : Binding}
  {t : TableConfig} {ts : List TableConfig} {schema schema' : Schema} {table table' : Table}

/-! ### Loading tables -/

theorem loadTable_eq_ok (h : loadTable files t schema = (.ok table : Except Failure Table)) :
    ∃ bytes rows, files t.path = (.ok bytes : Except FileFault (List UInt8)) ∧
      Csv.load schema bytes = .ok rows ∧ table = .named t.name schema (rows.map .row) := by
  unfold loadTable at h
  simp only [bind, pure] at h
  cases hfile : (files t.path : Except FileFault (List UInt8)) with
  | error f =>
      rw [hfile] at h
      cases f <;> cases h
  | ok bytes =>
      rw [hfile] at h
      simp only at h
      cases hload : Csv.load schema bytes with
      | error f => rw [hload] at h; cases h
      | ok rows =>
          rw [hload] at h
          cases h
          exact ⟨bytes, rows, rfl, hload, rfl⟩

theorem loadTables_cons
    (h : loadTables files types (t :: ts) c b = (.ok cat : Except Failure Catalog)) :
    ∃ schema b₁ table, parseSchema types t.columns b = (.ok schema, b₁) ∧
      loadTable files t schema = (.ok table : Except Failure Table) ∧
      loadTables files types ts (c.add table) b₁ = (.ok cat : Except Failure Catalog) := by
  unfold loadTables at h
  split at h
  · cases h
  · rename_i schema b₁ hschema
    simp only [bind, pure] at h
    cases htable : (loadTable files t schema : Except Failure Table) with
    | error f => rw [htable] at h; cases h
    | ok table =>
        rw [htable] at h
        exact ⟨schema, b₁, table, hschema, htable, h⟩

theorem loadTables_of_cons {b₁ : Binding} (hschema : parseSchema types t.columns b = (.ok schema, b₁))
    (htable : loadTable files t schema = (.ok table : Except Failure Table))
    (hrest : loadTables files types ts (c.add table) b₁ = (.ok cat : Except Failure Catalog)) :
    loadTables files types (t :: ts) c b = (.ok cat : Except Failure Catalog) := by
  unfold loadTables
  rw [hschema]
  simp only [bind, htable]
  exact hrest

/-- A table is what its file gives with columns of the names and kinds that it was given. -/
def Holds (files : Reader Id) (t : TableConfig) (table : Table) : Prop :=
  ∃ schema, List.Forall₂ IsColumn (splitColumns t.columns.toList) schema ∧
    loadTable files t schema = (.ok table : Except Failure Table)

/-- What a file gives with columns of the same names and kinds has the same rows. -/
theorem Holds.alike (h : Holds files t table) (h' : Holds files t table') :
    table'.rows = table.rows ∧ table.schema.SameNames table'.schema := by
  obtain ⟨schema, hcolumns, hload⟩ := h
  obtain ⟨schema', hcolumns', hload'⟩ := h'
  obtain ⟨bytes, rows, hfile, hrows, rfl⟩ := loadTable_eq_ok hload
  obtain ⟨bytes', rows', hfile', hrows', rfl⟩ := loadTable_eq_ok hload'
  rw [hfile] at hfile'
  cases hfile'
  obtain ⟨hnames, hkinds⟩ := alike_of_columns hcolumns hcolumns'
  have hsame := (Csv.load_sameKinds hkinds hrows hrows').symm
  exact ⟨congrArg (List.map Item.row) hsame, hnames⟩

theorem Holds.id (h : Holds files t table) : table.id = Table.idOf t.name := by
  obtain ⟨schema, -, hload⟩ := h
  obtain ⟨bytes, rows, -, -, rfl⟩ := loadTable_eq_ok hload
  rfl

theorem table?_add (c : Catalog) (table : Table) (id : UInt64) :
    (c.add table).table? id = if table.id = id then some table else c.table? id := by
  unfold Catalog.add Catalog.table?
  by_cases hid : table.id = id
  · rw [if_pos hid]
    exact List.find?_cons_of_pos (by simpa using hid)
  · rw [if_neg hid, List.find?_cons_of_neg (by simpa using hid), List.find?_filter]
    congr 1
    funext u
    by_cases hu : u.id = id
    · simp [hu, Ne.symm hid]
    · simp [hu]

/-- **Loading puts every table under its number and leaves the other numbers alone.** -/
theorem table?_of_loadTables : ∀ {ts : List TableConfig} {c : Catalog} {b : Binding},
    b.Ready types → (ts.map fun t => Table.idOf t.name).Nodup →
    loadTables files types ts c b = (.ok cat : Except Failure Catalog) →
    (∀ t ∈ ts, ∃ table, cat.table? (Table.idOf t.name) = some table ∧ Holds files t table) ∧
      ∀ id, (∀ t ∈ ts, Table.idOf t.name ≠ id) → cat.table? id = c.table? id := by
  intro ts
  induction ts with
  | nil =>
      intro c b _ _ h
      cases h
      exact ⟨fun t ht => absurd ht List.not_mem_nil, fun _ _ => rfl⟩
  | cons t ts ih =>
      intro c b hb hids h
      rw [List.map_cons, List.nodup_cons] at hids
      obtain ⟨schema, b₁, table, hschema, htable, hrest⟩ := loadTables_cons h
      obtain ⟨hb₁, hcolumns⟩ := isColumn_of_parseSchema hb hschema
      have hholds : Holds files t table := ⟨schema, hcolumns, htable⟩
      obtain ⟨hin, hout⟩ := ih hb₁ hids.2 hrest
      refine ⟨List.forall_mem_cons.mpr ⟨⟨table, ?_, hholds⟩, hin⟩, ?_⟩
      · have hother : ∀ u ∈ ts, Table.idOf u.name ≠ Table.idOf t.name := by
          intro u hu hsame
          exact hids.1 (List.mem_map.mpr ⟨u, hu, hsame⟩)
        rw [hout _ hother, table?_add, if_pos hholds.id]
      · intro id hid
        have hids' := List.forall_mem_cons.mp hid
        rw [hout id hids'.2, table?_add, if_neg]
        rw [hholds.id]
        exact hids'.1

/-- Catalogs of the same tables differ in the types of columns only. -/
theorem retypes_of_loadTables {cat' : Catalog} {ts' : List TableConfig} {name : String}
    (hb : b.Ready types) (hb' : b'.Ready types) (hperm : ts.Perm ts')
    (hids : (ts.map fun t => Table.idOf t.name).Nodup)
    (h : loadTables files types ts (.empty name) b = (.ok cat : Except Failure Catalog))
    (h' : loadTables files types ts' (.empty name) b' = (.ok cat' : Except Failure Catalog)) :
    cat.Retypes cat' := by
  have hids' : (ts'.map fun t => Table.idOf t.name).Nodup := (hperm.map _).nodup_iff.mp hids
  obtain ⟨hin, hout⟩ := table?_of_loadTables hb hids h
  obtain ⟨hin', -⟩ := table?_of_loadTables hb' hids' h'
  intro name table hnamed
  by_cases hconfigured : ∃ t ∈ ts, Table.idOf t.name = Table.idOf name
  · obtain ⟨t, ht, hid⟩ := hconfigured
    obtain ⟨table₁, htable, hholds⟩ := hin t ht
    obtain ⟨table', htable', hholds'⟩ := hin' t (hperm.mem_iff.mp ht)
    rw [hid] at htable htable'
    obtain rfl : table₁ = table := Option.some.inj (htable.symm.trans hnamed)
    exact ⟨table', htable', hholds.alike hholds'⟩
  · have hnone := hout (Table.idOf name) fun t ht hid => hconfigured ⟨t, ht, hid⟩
    have hnamed' : cat.table? (Table.idOf name) = some table := hnamed
    rw [hnone] at hnamed'
    cases hnamed'

/-! ### Tables that are loaded in any order -/

/-- A table is loaded whatever types were built before. -/
def Accepted (files : Reader Id) (types : TypeFactory) (t : TableConfig) : Prop :=
  ∀ b : Binding, b.Clean types → ∃ schema b' table,
    parseSchema types t.columns b = (.ok schema, b') ∧ b'.Clean types ∧
      loadTable files t schema = (.ok table : Except Failure Table)

theorem accepted_of_loadTables (hkeys : types.KeysApart) (hlayered : types.Layered) :
    ∀ {ts : List TableConfig} {c : Catalog} {b : Binding}, b.Clean types →
      loadTables files types ts c b = (.ok cat : Except Failure Catalog) →
      ∀ t ∈ ts, Accepted files types t := by
  intro ts
  induction ts with
  | nil => intro c b _ _ t ht; cases ht
  | cons t ts ih =>
      intro c b hb h
      obtain ⟨schema, b₁, table, hschema, htable, hrest⟩ := loadTables_cons h
      obtain ⟨hb₁, hany⟩ := parseSchema_anywhere hkeys hlayered hb hschema
      refine List.forall_mem_cons.mpr ⟨fun other hother => ?_, ih hb₁ hrest⟩
      obtain ⟨after, hparsed⟩ := hany other hother
      obtain ⟨hafter, -⟩ := parseSchema_anywhere hkeys hlayered hother hparsed
      exact ⟨schema, after, table, hparsed, hafter, htable⟩

theorem loadTables_of_accepted : ∀ {ts : List TableConfig} (c : Catalog) {b : Binding},
    b.Clean types → (∀ t ∈ ts, Accepted files types t) →
    ∃ cat, loadTables files types ts c b = (.ok cat : Except Failure Catalog) := by
  intro ts
  induction ts with
  | nil => intro c b _ _; exact ⟨c, rfl⟩
  | cons t ts ih =>
      intro c b hb haccepted
      obtain ⟨hfirst, hrest⟩ := List.forall_mem_cons.mp haccepted
      obtain ⟨schema, b₁, table, hschema, hb₁, htable⟩ := hfirst b hb
      obtain ⟨cat, hcat⟩ := ih (c.add table) hb₁ hrest
      exact ⟨cat, loadTables_of_cons hschema htable hcat⟩

/-! ### Runs -/

/-- The tables of a configuration are loaded into a catalog. -/
def LoadsTables (files : Reader Id) (c : RunConfig) (cat : Catalog) : Prop :=
  loadTables files c.factory c.tables (.empty "cli") (some .empty)
    = (.ok cat : Except Failure Catalog)

variable {c c' : RunConfig} {cat cat' : Catalog} {out : String}

/-- What a run that succeeds has done. -/
theorem run_eq_ok_iff : run files c = (.ok out : Except RunError String) ↔
    ∃ cat text plan r count, LoadsTables files c cat ∧
      readText files c.plan = (.ok text : Except FileFault (List Char)) ∧
      readPlan text = .ok plan ∧ query cat plan = .ok (r, count) ∧ render c.format r = out := by
  unfold run LoadsTables
  simp only [bind, pure]
  constructor
  · intro h
    split at h
    · cases h
    · rename_i cat hcat
      split at h
      · cases h
      · rename_i text htext
        split at h
        · cases h
        · rename_i plan hplan
          cases hquery : query cat plan with
          | error err => rw [hquery] at h; cases h
          | ok answer =>
              rw [hquery] at h
              cases h
              exact ⟨cat, text, plan, answer.1, answer.2, hcat, htext, hplan, hquery, rfl⟩
  · rintro ⟨cat, text, plan, r, count, hcat, htext, hplan, hquery, rfl⟩
    rw [hcat]
    simp only [htext, hplan, hquery]
    rfl

/-- The other configuration differs in the order of the tables only. -/
structure Reordered (c c' : RunConfig) : Prop where
  plan : c.plan = c'.plan
  format : c.format = c'.format
  types : c.types = c'.types
  tables : c.tables.Perm c'.tables

theorem Reordered.symm (h : Reordered c c') : Reordered c' c :=
  ⟨h.plan.symm, h.format.symm, h.types.symm, h.tables.symm⟩

theorem Reordered.factory (h : Reordered c c') : c.factory = c'.factory :=
  congrArg TypeFactory.ofList h.types

/-- A run that succeeds in one order succeeds in every other in which the tables are loaded. -/
theorem Reordered.run (h : Reordered c c')
    (hids : (c.tables.map fun t => Table.idOf t.name).Nodup) (hloads : LoadsTables files c' cat')
    (hrun : run files c = (.ok out : Except RunError String)) :
    CommandLine.run files c' = (.ok out : Except RunError String) := by
  obtain ⟨cat, text, plan, r, count, hcat, htext, hplan, hquery, rfl⟩ := run_eq_ok_iff.mp hrun
  have hready : Binding.Ready c.factory (some .empty) := (Binding.clean_empty _).ready
  have hloads' := hloads
  unfold LoadsTables at hcat hloads
  rw [← h.factory] at hloads
  have hretypes := retypes_of_loadTables hready hready h.tables hids hcat hloads
  obtain ⟨schema, hquery', hnames⟩ := query_retyped hretypes hquery
  rw [h.plan] at htext
  refine run_eq_ok_iff.mpr ⟨cat', text, plan, _, count, hloads', htext, hplan, hquery', ?_⟩
  rw [← h.format, ← render_sameNames c.format hnames]

/-- Where no two types lead to each other, tables that are loaded in one order are loaded in
every other. -/
theorem Reordered.loads (h : Reordered c c') (hkeys : c.factory.KeysApart)
    (hlayered : c.factory.Layered) (hloads : LoadsTables files c cat) :
    ∃ cat', LoadsTables files c' cat' := by
  have haccepted := accepted_of_loadTables hkeys hlayered (Binding.clean_empty _) hloads
  unfold LoadsTables
  rw [← h.factory]
  exact loadTables_of_accepted (.empty "cli") (Binding.clean_empty _) fun t ht =>
    haccepted t (h.tables.mem_iff.mpr ht)

/-- **The order of the tables decides nothing but whether a table is refused.**

The names of the tables have different numbers, and the files stay the same.  If the tables can be
loaded in two orders, a run succeeds in both or in none, and its output is the same.  Where no two
types lead to each other, and the names of the types have different keys, a run that succeeds in
one order succeeds in every other, with the same output. -/
theorem run_reordered {files : Reader Id} {c c' : RunConfig} (h : Reordered c c')
    (hids : (c.tables.map fun t => Table.idOf t.name).Nodup) :
    (∀ cat cat', LoadsTables files c cat → LoadsTables files c' cat' →
      ∀ out, run files c = (.ok out : Except RunError String) ↔
        run files c' = (.ok out : Except RunError String)) ∧
    (c.factory.KeysApart → c.factory.Layered →
      ∀ out, run files c = (.ok out : Except RunError String) ↔
        run files c' = (.ok out : Except RunError String)) := by
  have hids' : (c'.tables.map fun t => Table.idOf t.name).Nodup :=
    (h.tables.map _).nodup_iff.mp hids
  refine ⟨fun cat cat' hcat hcat' out => ⟨h.run hids hcat', h.symm.run hids' hcat⟩, ?_⟩
  refine fun hkeys hlayered out => ⟨fun hrun => ?_, fun hrun => ?_⟩
  · obtain ⟨cat, -, -, -, -, hcat, -⟩ := run_eq_ok_iff.mp hrun
    obtain ⟨cat', hcat'⟩ := h.loads hkeys hlayered hcat
    exact h.run hids hcat' hrun
  · obtain ⟨cat', -, -, -, -, hcat', -⟩ := run_eq_ok_iff.mp hrun
    rw [h.factory] at hkeys hlayered
    obtain ⟨cat, hcat⟩ := h.symm.loads hkeys hlayered hcat'
    exact h.symm.run hids' hcat hrun

/-! ### Two tables -/

/-- Files with a plan that reads the table b, and with that table. -/
def readB (table : String) : Reader Id
  | "plan" => .ok ("\x7b\"nodes\":\x7b\"0\":\x7b\"Scan\":[\"b\"]\x7d\x7d,"
      ++ "\"edges\":\x7b\x7d,\"root\":\"0\"\x7d").toUTF8.toList
  | "b.csv" => .ok table.toUTF8.toList
  | _ => .ok []

/-- The tables a and b with one column each. -/
def twoTables (a b : String) (types : List Descriptor) : RunConfig :=
  ⟨"plan", [⟨"a", "a.csv", a⟩, ⟨"b", "b.csv", b⟩], .table, types⟩

theorem twoTables_ids (a b : String) (types : List Descriptor) :
    ((twoTables a b types).tables.map fun t => Table.idOf t.name).Nodup := by
  have hne : Table.idOf "a" ≠ Table.idOf "b" := by decide +kernel
  simpa [twoTables] using hne

theorem twoTables_reordered (a b : String) (types : List Descriptor) :
    Reordered (twoTables a b types)
      { twoTables a b types with tables := (twoTables a b types).tables.reverse } :=
  ⟨rfl, rfl, rfl, (List.reverse_perm _).symm⟩

/-- Two tables of links, each of which may lead to a next one. -/
theorem run_reordered_of_links : ∃ (c c' : RunConfig) (out : String), Reordered c c' ∧
    (c.tables.map fun t => Table.idOf t.name).Nodup ∧ c.factory.KeysApart ∧ c.factory.Layered ∧
      run (readB "[null]") c = (.ok out : Except RunError String) ∧
      run (readB "[null]") c' = (.ok out : Except RunError String) := by
  let c : RunConfig := twoTables "x:Link" "y:Link" [⟨"Link", [("next", "Link")]⟩]
  have hall : c.factory.descriptors = [⟨"Link", [("next", "Link")]⟩] := rfl
  have hkeys : c.factory.KeysApart := by
    unfold TypeFactory.KeysApart
    rw [hall]
    simp
  have hlayered : c.factory.Layered := by
    have hitself : ∀ name other, c.factory.Refers name other → name = other := by
      rintro name other ⟨d, hd, field, hfield, rfl, -⟩
      have hname := TypeFactory.find?_name hd
      have hmem := List.mem_of_find?_eq_some hd
      rw [hall, List.mem_singleton] at hmem
      subst hmem
      rw [List.mem_singleton.mp hfield]
      exact hname.symm
    intro name other hleads _
    clear * - hleads hitself
    induction hleads with
    | refl => rfl
    | tail _ hlast ih => exact ih.trans (hitself _ _ hlast)
  have hreordered : Reordered c _ := twoTables_reordered _ _ _
  have hrun : run (readB "[null]") c
      = (.ok "y         \n(NULL)    \n" : Except RunError String) := by cbv
  exact ⟨c, _, _, hreordered, twoTables_ids _ _ _, hkeys, hlayered, hrun,
    ((run_reordered hreordered (twoTables_ids _ _ _)).2 hkeys hlayered _).mp hrun⟩

/-- **The order of the tables can decide whether a table is refused.**  The types of two tables
refer to each other.  When the other table comes first, a placeholder for its type is left inside
the type of the table that is read, and a value that would fit without it is refused. -/
theorem order_may_refuse_table : ∃ c c' : RunConfig, Reordered c c' ∧
    (c.tables.map fun t => Table.idOf t.name).Nodup ∧
      run (readB "[[null]]") c = (.error (.failed (.load (.field 1 (.misfit (.row [.null])
        (.unresolved (.named "A")))))) : Except RunError String) ∧
      run (readB "[[null]]") c'
        = (.ok "y         \n((NULL))  \n" : Except RunError String) := by
  refine ⟨twoTables "x:A" "y:B" [⟨"A", [("b", "B")]⟩, ⟨"B", [("a", "A")]⟩], _,
    twoTables_reordered _ _ _, twoTables_ids _ _ _, ?_, ?_⟩
  · cbv
  · cbv

end CommandLine

end StreamQuery
