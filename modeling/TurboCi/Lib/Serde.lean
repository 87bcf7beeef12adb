import Mathlib.Data.List.Basic

set_option autoImplicit false

/-! # Reading values by their schema

Documents are values made of scalars, arrays and tables; a `Schema` says which values a type is
read from and what they are read as. The fields of a struct are read by their names, a missing one
has its default if it has any, and a key that is no field's name is ignored. Whatever holds a value
is written back.

`ignored` lists the keys that reading a value ignores, with the way to each.
-/

namespace Serde

abbrev Key := List Char

/-- A value of a document. -/
inductive Value (α : Type) where
  | scalar (x : α)
  | array (items : List (Value α))
  | table (entries : List (Key × Value α))

/-- What a value is read as. -/
inductive Data (α : Type) where
  | scalar (x : α)
  | none
  | some (data : Data α)
  | list (items : List (Data α))
  | map (entries : List (Key × Data α))
  | struct (fields : List (Key × Data α))

/-- A type, as far as reading and writing go. -/
inductive Schema (α : Type) where
  /-- a scalar, as which some scalars are read -/
  | scalar (read : α → Option α)
  | option (schema : Schema α)
  | list (schema : Schema α)
  /-- keys that are free -/
  | map (schema : Schema α)
  /-- the fields, each with its default if it has any -/
  | struct (fields : List (Key × Schema α × Option (Data α)))

variable {α : Type}

/-! ## Reading -/

/-- Reads all values of a table. -/
def readAll (read : Value α → Option (Data α)) :
    List (Key × Value α) → Option (List (Key × Data α))
  | [] => some []
  | (key, value) :: rest =>
      (read value).bind fun data => (readAll read rest).map ((key, data) :: ·)

/-- Reads the value of a field, if there is one. -/
def readField (read : Value α → Option (Data α)) (default : Option (Data α)) :
    Option (Value α) → Option (Data α)
  | some value => read value
  | none => default

mutual

def deserialize : Schema α → Value α → Option (Data α)
  | .scalar read, .scalar x => (read x).map .scalar
  | .option schema, value => (deserialize schema value).map .some
  | .list schema, .array items => (items.mapM (deserialize schema)).map .list
  | .map schema, .table entries => (readAll (deserialize schema) entries).map .map
  | .struct fields, .table entries => (deserializeFields fields entries).map .struct
  | _, _ => none

def deserializeFields : List (Key × Schema α × Option (Data α)) → List (Key × Value α) →
    Option (List (Key × Data α))
  | [], _ => some []
  | (key, schema, default) :: rest, entries =>
      (readField (deserialize schema) default (entries.lookup key)).bind fun data =>
        (deserializeFields rest entries).map ((key, data) :: ·)

end

/-! ## Writing -/

mutual

/-- What is written for the data; nothing where it holds no value. -/
def serialize : Data α → Option (Value α)
  | .scalar x => some (.scalar x)
  | .none => none
  | .some data => serialize data
  | .list items => some (.array (serializeItems items))
  | .map entries => some (.table (serializeEntries entries))
  | .struct fields => some (.table (serializeEntries fields))

def serializeItems : List (Data α) → List (Value α)
  | [] => []
  | data :: rest => (serialize data).toList ++ serializeItems rest

def serializeEntries : List (Key × Data α) → List (Key × Value α)
  | [] => []
  | (key, data) :: rest => (serialize data).toList.map (key, ·) ++ serializeEntries rest

end

/-! ## Ignored keys -/

/-- A step on the way to a key. -/
inductive Step where
  | key (name : Key)
  | item
  deriving DecidableEq

mutual

/-- The keys of the value that are no field's name, at any depth. -/
def ignored : Schema α → Value α → List (List Step)
  | .option schema, value => ignored schema value
  | .list schema, .array items =>
      items.flatMap fun value => (ignored schema value).map (.item :: ·)
  | .map schema, .table entries =>
      entries.flatMap fun entry => (ignored schema entry.2).map (.key entry.1 :: ·)
  | .struct fields, .table entries =>
      entries.flatMap fun entry => ignoredField fields entry.1 entry.2
  | _, _ => []

/-- The same for the value of one key of a struct. -/
def ignoredField : List (Key × Schema α × Option (Data α)) → Key → Value α → List (List Step)
  | [], key, _ => [[.key key]]
  | (name, schema, _) :: rest, key, value =>
      if name = key then (ignored schema value).map (.key key :: ·)
      else ignoredField rest key value

end

/-! ## Tables -/

mutual

/-- No table has a key twice. -/
def Value.Distinct : Value α → Prop
  | .scalar _ => True
  | .array items => distinctItems items
  | .table entries => (entries.map Prod.fst).Nodup ∧ distinctEntries entries

def distinctItems : List (Value α) → Prop
  | [] => True
  | value :: rest => value.Distinct ∧ distinctItems rest

def distinctEntries : List (Key × Value α) → Prop
  | [] => True
  | (_, value) :: rest => value.Distinct ∧ distinctEntries rest

end

theorem distinct_of_mem : ∀ {entries : List (Key × Value α)} {entry : Key × Value α},
    distinctEntries entries → entry ∈ entries → entry.2.Distinct
  | (_, _) :: _, _, h, hmem => by
      rw [distinctEntries] at h
      rcases List.mem_cons.mp hmem with rfl | hmem
      · exact h.1
      · exact distinct_of_mem h.2 hmem

/-- In a table without a key twice, every entry is found by its key. -/
theorem lookup_of_mem {β : Type} {entries : List (Key × β)} {entry : Key × β}
    (hnodup : (entries.map Prod.fst).Nodup) (hmem : entry ∈ entries) :
    entries.lookup entry.1 = some entry.2 := by
  induction entries with
  | nil => cases hmem
  | cons first rest ih =>
      obtain ⟨habsent, hrest⟩ := List.nodup_cons.mp hnodup
      rcases List.mem_cons.mp hmem with rfl | hmem
      · exact List.lookup_cons_self
      · have hne : entry.1 ≠ first.1 := by
          intro heq
          exact habsent (heq ▸ List.mem_map_of_mem hmem)
        rw [List.lookup_cons, beq_false_of_ne hne]
        exact ih hrest hmem

/-! ## All scalars -/

section All

variable (p : α → Bool)

mutual

/-- Every scalar of the value has the property. -/
def Value.all : Value α → Bool
  | .scalar x => p x
  | .array items => allItems items
  | .table entries => allEntries entries

def allItems : List (Value α) → Bool
  | [] => true
  | value :: rest => value.all && allItems rest

def allEntries : List (Key × Value α) → Bool
  | [] => true
  | (_, value) :: rest => value.all && allEntries rest

end

mutual

/-- Every scalar that the data holds has it. -/
def Data.all : Data α → Bool
  | .scalar x => p x
  | .none => true
  | .some data => data.all
  | .list items => allData items
  | .map entries => allFields entries
  | .struct fields => allFields fields

def allData : List (Data α) → Bool
  | [] => true
  | data :: rest => data.all && allData rest

def allFields : List (Key × Data α) → Bool
  | [] => true
  | (_, data) :: rest => data.all && allFields rest

end

mutual

/-- What is read of a scalar that has it has it, and so have the defaults. -/
def Schema.Keeps : Schema α → Prop
  | .scalar read => ∀ x y, p x = true → read x = some y → p y = true
  | .option schema => schema.Keeps
  | .list schema => schema.Keeps
  | .map schema => schema.Keeps
  | .struct fields => keepsFields fields

def keepsFields : List (Key × Schema α × Option (Data α)) → Prop
  | [] => True
  | (_, schema, default) :: rest =>
      schema.Keeps ∧ (∀ data ∈ default, data.all p = true) ∧ keepsFields rest

end

variable {p}

theorem all_of_lookup {key : Key} {value : Value α} : ∀ {entries : List (Key × Value α)},
    allEntries p entries = true → entries.lookup key = some value → value.all p = true
  | (name, first) :: rest, hall, h => by
      rw [allEntries, Bool.and_eq_true] at hall
      by_cases hname : key = name
      · rw [hname, List.lookup_cons_self] at h
        obtain rfl := Option.some.inj h
        exact hall.1
      · rw [List.lookup_cons, beq_false_of_ne hname] at h
        exact all_of_lookup hall.2 h

theorem all_mapM {read : Value α → Option (Data α)}
    (hread : ∀ value data, value.all p = true → read value = some data → data.all p = true) :
    ∀ {items : List (Value α)} {datas : List (Data α)}, allItems p items = true →
      items.mapM read = some datas → allData p datas = true
  | [], datas, _, h => by
      obtain rfl : [] = datas := by simpa using h
      rfl
  | value :: rest, datas, hall, h => by
      rw [allItems, Bool.and_eq_true] at hall
      rw [List.mapM_cons] at h
      obtain ⟨data, hdata, h⟩ := Option.bind_eq_some_iff.mp h
      obtain ⟨more, hmore, h⟩ := Option.bind_eq_some_iff.mp h
      obtain rfl := Option.some.inj h
      rw [allData, hread value data hall.1 hdata, all_mapM hread hall.2 hmore]
      rfl

theorem all_readAll {read : Value α → Option (Data α)}
    (hread : ∀ value data, value.all p = true → read value = some data → data.all p = true) :
    ∀ {entries : List (Key × Value α)} {datas : List (Key × Data α)},
      allEntries p entries = true → readAll read entries = some datas → allFields p datas = true
  | [], datas, _, h => by
      obtain rfl := Option.some.inj h
      rfl
  | (key, value) :: rest, datas, hall, h => by
      rw [allEntries, Bool.and_eq_true] at hall
      rw [readAll] at h
      obtain ⟨data, hdata, h⟩ := Option.bind_eq_some_iff.mp h
      obtain ⟨more, hmore, rfl⟩ := Option.map_eq_some_iff.mp h
      rw [allFields, hread value data hall.1 hdata, all_readAll hread hall.2 hmore]
      rfl

mutual

/-- **What is read of a value whose scalars all have the property has it.** -/
theorem all_deserialize : ∀ (schema : Schema α) {value : Value α} {data : Data α},
    schema.Keeps p → value.all p = true → deserialize schema value = some data →
      data.all p = true
  | .scalar read, .scalar x, data, hkeeps, hall, h => by
      rw [deserialize] at h
      obtain ⟨y, hy, rfl⟩ := Option.map_eq_some_iff.mp h
      exact hkeeps x y hall hy
  | .option schema, value, data, hkeeps, hall, h => by
      rw [deserialize] at h
      obtain ⟨held, hheld, rfl⟩ := Option.map_eq_some_iff.mp h
      show held.all p = true
      exact all_deserialize schema hkeeps hall hheld
  | .list schema, .array items, data, hkeeps, hall, h => by
      rw [deserialize] at h
      obtain ⟨datas, hdatas, rfl⟩ := Option.map_eq_some_iff.mp h
      exact all_mapM (fun value data => all_deserialize schema hkeeps) hall hdatas
  | .map schema, .table entries, data, hkeeps, hall, h => by
      rw [deserialize] at h
      obtain ⟨datas, hdatas, rfl⟩ := Option.map_eq_some_iff.mp h
      exact all_readAll (fun value data => all_deserialize schema hkeeps) hall hdatas
  | .struct fields, .table entries, data, hkeeps, hall, h => by
      rw [deserialize] at h
      obtain ⟨datas, hdatas, rfl⟩ := Option.map_eq_some_iff.mp h
      exact all_deserializeFields fields hkeeps hall hdatas

theorem all_deserializeFields : ∀ (fields : List (Key × Schema α × Option (Data α)))
    {entries : List (Key × Value α)} {datas : List (Key × Data α)},
    keepsFields p fields → allEntries p entries = true →
      deserializeFields fields entries = some datas → allFields p datas = true
  | [], entries, datas, _, _, h => by
      rw [deserializeFields] at h
      obtain rfl := Option.some.inj h
      rfl
  | (key, schema, default) :: rest, entries, datas, hkeeps, hall, h => by
      obtain ⟨hschema, hdefault, hrest⟩ := hkeeps
      rw [deserializeFields] at h
      obtain ⟨data, hdata, h⟩ := Option.bind_eq_some_iff.mp h
      obtain ⟨more, hmore, rfl⟩ := Option.map_eq_some_iff.mp h
      have hfirst : data.all p = true := by
        cases hlookup : entries.lookup key with
        | none =>
            rw [hlookup] at hdata
            exact hdefault data hdata
        | some value =>
            rw [hlookup] at hdata
            exact all_deserialize schema hschema (all_of_lookup hall hlookup) hdata
      rw [allFields, hfirst, all_deserializeFields rest hrest hall hmore]
      rfl

end

mutual

/-- It is written of the data as it is held. -/
theorem all_serialize : ∀ (data : Data α) {value : Value α}, data.all p = true →
    serialize data = some value → value.all p = true
  | .scalar x, value, hall, h => by
      rw [serialize] at h
      obtain rfl := Option.some.inj h
      exact hall
  | .none, value, _, h => by
      rw [serialize] at h
      cases h
  | .some data, value, hall, h => by
      rw [serialize] at h
      exact all_serialize data hall h
  | .list items, value, hall, h => by
      rw [serialize] at h
      obtain rfl := Option.some.inj h
      exact all_serializeItems items hall
  | .map entries, value, hall, h => by
      rw [serialize] at h
      obtain rfl := Option.some.inj h
      exact all_serializeEntries entries hall
  | .struct fields, value, hall, h => by
      rw [serialize] at h
      obtain rfl := Option.some.inj h
      exact all_serializeEntries fields hall

theorem all_serializeItems : ∀ (items : List (Data α)), allData p items = true →
    allItems p (serializeItems items) = true
  | [], _ => by rw [serializeItems]; rfl
  | data :: rest, hall => by
      rw [allData, Bool.and_eq_true] at hall
      have hrest := all_serializeItems rest hall.2
      rw [serializeItems]
      cases hdata : serialize data with
      | none => exact hrest
      | some value =>
          show (value.all p && allItems p (serializeItems rest)) = true
          rw [all_serialize data hall.1 hdata, hrest]
          rfl

theorem all_serializeEntries : ∀ (entries : List (Key × Data α)), allFields p entries = true →
    allEntries p (serializeEntries entries) = true
  | [], _ => by rw [serializeEntries]; rfl
  | (key, data) :: rest, hall => by
      rw [allFields, Bool.and_eq_true] at hall
      have hrest := all_serializeEntries rest hall.2
      rw [serializeEntries]
      cases hdata : serialize data with
      | none => exact hrest
      | some value =>
          show (value.all p && allEntries p (serializeEntries rest)) = true
          rw [all_serialize data hall.1 hdata, hrest]
          rfl

end

end All

/-! ## Options -/

/-- The type of the value that an option holds. -/
def Schema.inner : Schema α → Schema α
  | .option schema => schema.inner
  | schema => schema

/-- A value is read as an option when it is read as what the option holds. -/
theorem deserialize_inner : ∀ {schema : Schema α} {value : Value α} {data : Data α},
    deserialize schema value = some data → ∃ held, deserialize schema.inner value = some held ∧
      serialize data = serialize held
  | .option schema, value, data, h => by
      rw [deserialize] at h
      obtain ⟨data', hdata', rfl⟩ := Option.map_eq_some_iff.mp h
      obtain ⟨held, hheld, hsame⟩ := deserialize_inner hdata'
      exact ⟨held, hheld, by rw [serialize, hsame]⟩
  | .scalar _, _, data, h => ⟨data, h, rfl⟩
  | .list _, _, data, h => ⟨data, h, rfl⟩
  | .map _, _, data, h => ⟨data, h, rfl⟩
  | .struct _, _, data, h => ⟨data, h, rfl⟩

theorem ignored_inner : ∀ (schema : Schema α) (value : Value α),
    ignored schema value = ignored schema.inner value
  | .option schema, value => by rw [ignored, Schema.inner, ignored_inner schema value]
  | .scalar _, _ => rfl
  | .list _, _ => rfl
  | .map _, _ => rfl
  | .struct _, _ => rfl

theorem inner_ne_option : ∀ (schema inner : Schema α), schema.inner ≠ .option inner
  | .option schema, inner => by
      rw [Schema.inner]
      exact inner_ne_option schema inner
  | .scalar _, _ => nofun
  | .list _, _ => nofun
  | .map _, _ => nofun
  | .struct _, _ => nofun

/-- How a value of each kind is read. -/
theorem read_cases {schema : Schema α} {value : Value α} {data : Data α}
    (h : deserialize schema value = some data) :
    (∃ x y, value = .scalar x ∧ serialize data = some (.scalar y) ∧ ignored schema value = []) ∨
    (∃ items written inner, value = .array items ∧ serialize data = some (.array written) ∧
      ignored schema value = items.flatMap fun v => (ignored inner v).map (.item :: ·)) ∨
    (∃ entries inner read, value = .table entries ∧
      readAll (deserialize inner) entries = some read ∧
      serialize data = some (.table (serializeEntries read)) ∧
      ignored schema value = entries.flatMap fun e => (ignored inner e.2).map (.key e.1 :: ·)) ∨
    ∃ entries fields read, value = .table entries ∧
      deserializeFields fields entries = some read ∧
      serialize data = some (.table (serializeEntries read)) ∧
      ignored schema value = entries.flatMap fun e => ignoredField fields e.1 e.2 := by
  obtain ⟨held, hheld, hsame⟩ := deserialize_inner h
  rw [hsame, ignored_inner]
  have hoption := inner_ne_option schema
  generalize schema.inner = inner at hheld hoption
  cases inner with
  | option inner => exact absurd rfl (hoption inner)
  | scalar read =>
      cases value with
      | scalar x =>
          rw [deserialize] at hheld
          obtain ⟨y, -, rfl⟩ := Option.map_eq_some_iff.mp hheld
          exact .inl ⟨x, y, rfl, by rw [serialize], by simp [ignored]⟩
      | array items => simp [deserialize] at hheld
      | table entries => simp [deserialize] at hheld
  | list inner =>
      cases value with
      | scalar x => simp [deserialize] at hheld
      | table entries => simp [deserialize] at hheld
      | array items =>
          rw [deserialize] at hheld
          obtain ⟨read, -, rfl⟩ := Option.map_eq_some_iff.mp hheld
          exact .inr (.inl ⟨items, _, inner, rfl, by rw [serialize], by rw [ignored]⟩)
  | map inner =>
      cases value with
      | scalar x => simp [deserialize] at hheld
      | array items => simp [deserialize] at hheld
      | table entries =>
          rw [deserialize] at hheld
          obtain ⟨read, hread, rfl⟩ := Option.map_eq_some_iff.mp hheld
          exact .inr (.inr (.inl
            ⟨entries, inner, read, rfl, hread, by rw [serialize], by rw [ignored]⟩))
  | struct fields =>
      cases value with
      | scalar x => simp [deserialize] at hheld
      | array items => simp [deserialize] at hheld
      | table entries =>
          rw [deserialize] at hheld
          obtain ⟨read, hread, rfl⟩ := Option.map_eq_some_iff.mp hheld
          exact .inr (.inr (.inr
            ⟨entries, fields, read, rfl, hread, by rw [serialize], by rw [ignored]⟩))

/-- **What was read is written.** -/
theorem exists_serialize {schema : Schema α} {value : Value α} {data : Data α}
    (h : deserialize schema value = some data) : ∃ written, serialize data = some written := by
  rcases read_cases h with ⟨_, _, -, hs, -⟩ | ⟨_, _, _, -, hs, -⟩ | ⟨_, _, _, -, -, hs, -⟩ |
    ⟨_, _, _, -, -, hs, -⟩
  · exact ⟨_, hs⟩
  · exact ⟨_, hs⟩
  · exact ⟨_, hs⟩
  · exact ⟨_, hs⟩

/-! ## The entries of what is written -/

theorem lookup_serialize_self {key : Key} {data : Data α} {written : Value α}
    (h : serialize data = some written) (rest : List (Key × Data α)) :
    (serializeEntries ((key, data) :: rest)).lookup key = some written := by
  rw [serializeEntries, h]
  exact List.lookup_cons_self

theorem lookup_serialize_ne {key name : Key} (hne : key ≠ name) (data : Data α)
    (rest : List (Key × Data α)) :
    (serializeEntries ((name, data) :: rest)).lookup key = (serializeEntries rest).lookup key := by
  rw [serializeEntries]
  cases serialize data with
  | none => rfl
  | some written =>
      show ((name, written) :: serializeEntries rest).lookup key = _
      rw [List.lookup_cons, beq_false_of_ne hne]

/-- An entry was read: what is written for its key is what was read, or it is ignored and nothing
is written for the key. -/
inductive WasRead (known : List (Key × Value α)) (key : Key) (value : Value α) :
    List (List Step) → Prop where
  | ignored : known.lookup key = none → WasRead known key value [[.key key]]
  | read {schema : Schema α} {data : Data α} : deserialize schema value = some data →
      known.lookup key = serialize data →
      WasRead known key value ((ignored schema value).map (.key key :: ·))

theorem WasRead.congr {known known' : List (Key × Value α)} {key : Key} {value : Value α}
    {paths : List (List Step)} (h : WasRead known key value paths)
    (heq : known'.lookup key = known.lookup key) : WasRead known' key value paths := by
  cases h with
  | ignored hnone => exact .ignored (heq.trans hnone)
  | read hread hlookup => exact .read hread (heq.trans hlookup)

/-- **A field's name decides.** -/
theorem wasRead_field {entries : List (Key × Value α)} {key : Key} {value : Value α}
    (hentry : entries.lookup key = some value) :
    ∀ {fields : List (Key × Schema α × Option (Data α))} {read : List (Key × Data α)},
      deserializeFields fields entries = some read →
      WasRead (serializeEntries read) key value (ignoredField fields key value)
  | [], read, h => by
      rw [deserializeFields] at h
      obtain rfl := Option.some.inj h
      rw [ignoredField]
      exact .ignored (by rw [serializeEntries]; rfl)
  | (name, schema, default) :: rest, read, h => by
      rw [deserializeFields] at h
      obtain ⟨data, hdata, h⟩ := Option.bind_eq_some_iff.mp h
      obtain ⟨more, hmore, rfl⟩ := Option.map_eq_some_iff.mp h
      rw [ignoredField]
      by_cases hname : name = key
      · rw [if_pos hname]
        subst hname
        rw [hentry] at hdata
        obtain ⟨written, hwritten⟩ := exists_serialize hdata
        exact .read hdata ((lookup_serialize_self hwritten more).trans hwritten.symm)
      · rw [if_neg hname]
        exact (wasRead_field hentry hmore).congr (lookup_serialize_ne (Ne.symm hname) data more)

/-- **Every key of a map is read.** -/
theorem wasRead_entry {schema : Schema α} {key : Key} {value : Value α} :
    ∀ {entries : List (Key × Value α)} {read : List (Key × Data α)},
      entries.lookup key = some value → readAll (deserialize schema) entries = some read →
      WasRead (serializeEntries read) key value ((ignored schema value).map (.key key :: ·))
  | (name, first) :: rest, read, hentry, h => by
      rw [readAll] at h
      obtain ⟨data, hdata, h⟩ := Option.bind_eq_some_iff.mp h
      obtain ⟨more, hmore, rfl⟩ := Option.map_eq_some_iff.mp h
      by_cases hname : name = key
      · subst hname
        rw [List.lookup_cons_self] at hentry
        obtain rfl := Option.some.inj hentry
        obtain ⟨written, hwritten⟩ := exists_serialize hdata
        exact .read hdata ((lookup_serialize_self hwritten more).trans hwritten.symm)
      · have hne : key ≠ name := Ne.symm hname
        rw [List.lookup_cons, beq_false_of_ne hne] at hentry
        exact (wasRead_entry hentry hmore).congr (lookup_serialize_ne hne data more)

end Serde
