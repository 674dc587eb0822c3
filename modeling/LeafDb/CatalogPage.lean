import LeafDb.Pager
import LeafDb.Base.Result
import LeafDb.Sql.Expr

/-!
# The catalog on page 0 (`catalog.py`)

`save` writes the tables and the free list as one JSON object, padded with zero bytes; `load` strips the
zeros and reads the tables back, but not the free list. The `json` module is a parameter: `dumps` gives the
encoded text of a value, `loads` the value of a text.
-/

namespace LeafDb

/-! ### JSON values -/

inductive Json
  | null
  | bool (b : Bool)
  | num (n : Int)
  | str (s : String)
  | arr (items : List Json)
  | obj (members : List (String × Json))

structure JsonLib where
  dumps : Json → Bytes
  loads : Bytes → Except PyError Json

namespace Json

/-- `d[key]`. -/
def item : Json → String → Except PyError Json
  | obj members, key =>
    match members.lookup key with
    | some v => .ok v
    | none => .error .keyError
  | _, _ => .error .typeError

/-- `d.get(key, default)`. -/
def getD : Json → String → Json → Except PyError Json
  | obj members, key, default => .ok ((members.lookup key).getD default)
  | _, _, _ => .error .attributeError

def asStr : Json → Except PyError String
  | str s => .ok s
  | _ => .error .typeError

def asInt : Json → Except PyError Int
  | num n => .ok n
  | _ => .error .typeError

def asNat : Json → Except PyError Nat
  | num (.ofNat n) => .ok n
  | _ => .error .typeError

def asBool : Json → Except PyError Bool
  | bool b => .ok b
  | _ => .error .typeError

def asArr : Json → Except PyError (List Json)
  | arr items => .ok items
  | _ => .error .typeError

/-- `d.items()`. -/
def items : Json → Except PyError (List (String × Json))
  | obj members => .ok members
  | _ => .error .attributeError

end Json

/-! ### Tables -/

namespace ColType

def toJson : ColType → Json
  | int => .str "INT"
  | float => .str "FLOAT"
  | text => .str "TEXT"

def ofJson : Json → Except PyError ColType
  | .str "INT" => .ok int
  | .str "FLOAT" => .ok float
  | .str "TEXT" => .ok text
  | _ => .error .typeError

theorem ofJson_toJson (t : ColType) : ofJson t.toJson = .ok t := by
  cases t <;> rfl

end ColType

namespace ColumnDef

def toJson (c : ColumnDef) : Json := .obj [("name", .str c.name), ("type", c.type.toJson), ("pk", .bool c.pk)]

def ofJson (d : Json) : Except PyError ColumnDef := do
  return ⟨← (← d.item "name").asStr, ← ColType.ofJson (← d.item "type"), ← (← d.item "pk").asBool⟩

theorem ofJson_toJson (c : ColumnDef) : ofJson c.toJson = .ok c := by
  obtain ⟨name, type, pk⟩ := c
  cases type <;> rfl

end ColumnDef

namespace TableMeta

/-- `to_dict`. -/
def toDict (m : TableMeta) : Json :=
  .obj [("name", .str m.name), ("columns", .arr (m.columns.map ColumnDef.toJson)), ("root_page", .num m.rootPage),
    ("row_count", .num m.rowCount), ("next_rowid", .num m.nextRowid),
    ("indexes", .obj (m.indexes.map fun p => (p.1, .str p.2)))]

/-- `from_dict`. -/
def fromDict (d : Json) : Except PyError TableMeta := do
  let name ← (← d.item "name").asStr
  let columns ← (← (← d.item "columns").asArr).mapM ColumnDef.ofJson
  let rootPage ← (← d.item "root_page").asNat
  let rowCount ← (← d.getD "row_count" (.num 0)).asNat
  let nextRowid ← (← d.getD "next_rowid" (.num 1)).asInt
  let indexes ← (← (← d.getD "indexes" (.obj [])).items).mapM fun p => do return (p.1, ← p.2.asStr)
  return ⟨name, columns, rootPage, rowCount, nextRowid, indexes⟩

theorem fromDict_toDict (m : TableMeta) : fromDict m.toDict = .ok m := by
  have hcols : (m.columns.map ColumnDef.toJson).mapM ColumnDef.ofJson = .ok m.columns :=
    mapM_eq_ok.2 (List.forall₂_map_left_iff.2 (List.forall₂_same.2 fun c _ => c.ofJson_toJson))
  have hidx : (m.indexes.map fun p => (p.1, Json.str p.2)).mapM (fun p => do return (p.1, ← p.2.asStr)) =
      (.ok m.indexes : Except PyError (List (String × String))) :=
    mapM_eq_ok.2 (List.forall₂_map_left_iff.2 (List.forall₂_same.2 fun _ _ => rfl))
  have h : fromDict m.toDict = (do
      let columns ← (m.columns.map ColumnDef.toJson).mapM ColumnDef.ofJson
      let indexes ← (m.indexes.map fun p => (p.1, Json.str p.2)).mapM fun p => do return (p.1, ← p.2.asStr)
      return ⟨m.name, columns, m.rootPage, m.rowCount, m.nextRowid, indexes⟩) := rfl
  rw [h, hcols, hidx]
  rfl

end TableMeta

/-! ### The catalog -/

/-- `d[key] = v`. -/
def dictSet {β : Type} (d : List (String × β)) (key : String) (v : β) : List (String × β) :=
  if key ∈ d.map Prod.fst then d.map fun e => if e.1 = key then (key, v) else e else d ++ [(key, v)]

/-- The tables by name, in the order of the dictionary, and `free_pages`. -/
structure Catalog where
  tables : List (String × TableMeta)
  freePages : List Nat
  nodup : (tables.map Prod.fst).Nodup

namespace Catalog

@[ext] theorem ext {c c' : Catalog} (ht : c.tables = c'.tables) (hf : c.freePages = c'.freePages) : c = c' := by
  obtain ⟨t, f, hn⟩ := c
  obtain ⟨t', f', hn'⟩ := c'
  cases ht
  cases hf
  rfl

/-- `Catalog()`. -/
def empty : Catalog := ⟨[], [], .nil⟩

/-- The value that `to_json` dumps. -/
def json (c : Catalog) : Json :=
  .obj [("tables", .obj (c.tables.map fun e => (e.1, e.2.toDict))),
    ("free_pages", .arr (c.freePages.map fun p => .num p))]

/-- `save`: the image of page 0. -/
def save (lib : JsonLib) (c : Catalog) : Except PyError Bytes :=
  let raw := lib.dumps c.json
  if pageSize - 8 < raw.length then .error .catalogError else .ok (padTo pageSize raw)

theorem nodup_dictSet {β : Type} {d : List (String × β)} {key : String} {v : β} (h : (d.map Prod.fst).Nodup) :
    ((dictSet d key v).map Prod.fst).Nodup := by
  rw [dictSet]
  split
  · have hkeys : (d.map fun e => if e.1 = key then (key, v) else e).map Prod.fst = d.map Prod.fst := by
      rw [List.map_map]
      refine List.map_congr_left fun e _ => ?_
      by_cases he : e.1 = key <;> simp [he]
    rwa [hkeys]
  · rename_i hkey
    rw [List.map_append]
    refine List.nodup_append.2 ⟨h, by simp, fun a ha b hb hab => hkey ?_⟩
    obtain rfl : b = key := by simpa using hb
    exact hab ▸ ha

/-- `cat.tables[name] = meta`. -/
def setTable (c : Catalog) (name : String) (m : TableMeta) : Catalog :=
  ⟨dictSet c.tables name m, c.freePages, nodup_dictSet c.nodup⟩

/-- `load` of the image of page 0. -/
def load (lib : JsonLib) (page : Bytes) : Except PyError Catalog := do
  let raw := page.rdropWhile (· == 0)
  if raw = [] then return empty
  else
    let data ← lib.loads raw
    (← (← data.item "tables").items).foldlM (fun c e => do return c.setTable e.1 (← TableMeta.fromDict e.2)) empty

/-- Zeros at the end are padding when the text does not end with a zero. -/
theorem rdropWhile_padTo {size : Nat} {raw : Bytes} {b : UInt8} (h : raw.getLast? = some b) (hb : b ≠ 0) :
    (padTo size raw).rdropWhile (· == 0) = raw := by
  obtain ⟨init, rfl⟩ := List.getLast?_eq_some_iff.1 h
  rw [padTo, List.rdropWhile, List.reverse_append, List.reverse_replicate, List.dropWhile_append_of_pos (by simp)]
  rw [List.reverse_append, List.reverse_singleton, List.singleton_append, List.dropWhile_cons_of_neg (by simpa using hb)]
  simp

/-- Reading the tables in their order gives them back. -/
theorem foldlM_setTable {ts : List (String × TableMeta)} {c : Catalog} (hnd : ((c.tables ++ ts).map Prod.fst).Nodup) :
    ∃ c', (ts.map fun e => (e.1, e.2.toDict)).foldlM (fun c e => do return c.setTable e.1 (← TableMeta.fromDict e.2)) c =
      (.ok c' : Except PyError Catalog) ∧ c'.tables = c.tables ++ ts ∧ c'.freePages = c.freePages := by
  induction ts generalizing c with
  | nil => exact ⟨c, rfl, by simp, rfl⟩
  | cons e ts ih =>
    have hfresh : e.1 ∉ c.tables.map Prod.fst := fun hm => by
      rw [List.map_append, List.nodup_append] at hnd
      exact hnd.2.2 _ hm e.1 (by simp) rfl
    have htables : (c.setTable e.1 e.2).tables = c.tables ++ [e] := if_neg hfresh
    have hrest : (((c.setTable e.1 e.2).tables ++ ts).map Prod.fst).Nodup := by
      rw [htables]
      simpa using hnd
    obtain ⟨c', hfold, ht, hf⟩ := ih hrest
    refine ⟨c', ?_, by rw [ht, htables, List.append_assoc, List.singleton_append], hf⟩
    rw [List.map_cons, List.foldlM_cons, TableMeta.fromDict_toDict]
    exact hfold

/-- A saved catalog is loaded without its free list. -/
theorem load_save {lib : JsonLib} {c : Catalog} {page : Bytes} {b : UInt8} (hs : c.save lib = .ok page)
    (hinv : lib.loads (lib.dumps c.json) = .ok c.json) (hlast : (lib.dumps c.json).getLast? = some b) (hb : b ≠ 0) :
    load lib page = .ok ⟨c.tables, [], c.nodup⟩ := by
  rw [save] at hs
  split at hs
  · cases hs
  · obtain rfl := Except.ok.inj hs
    obtain ⟨c', hfold, ht, hf⟩ := @foldlM_setTable c.tables empty (by simpa [empty] using c.nodup)
    have hne : lib.dumps c.json ≠ [] := by
      intro h
      simp [h] at hlast
    rw [load, rdropWhile_padTo hlast hb, if_neg hne, hinv]
    refine (show _ = _ from hfold).trans (congrArg Except.ok (Catalog.ext ?_ ?_))
    · simpa [empty] using ht
    · simpa [empty] using hf

/-- Loading gives back the catalog that was saved when no page was free. The text of a dictionary ends
with `}`. -/
theorem load_save_iff {lib : JsonLib} {c : Catalog} {page : Bytes} (hs : c.save lib = .ok page)
    (hinv : lib.loads (lib.dumps c.json) = .ok c.json) (hlast : (lib.dumps c.json).getLast? = some 125) :
    load lib page = .ok c ↔ c.freePages = [] := by
  rw [load_save hs hinv hlast (by decide)]
  constructor
  · intro h
    exact (congrArg freePages (Except.ok.inj h)).symm
  · intro h
    exact congrArg Except.ok (Catalog.ext rfl h.symm)

/-! A database whose only table was dropped. -/

/-- Page 5 is free and there are no tables. -/
def oneFree : Catalog := ⟨[], [5], .nil⟩

/-- `{"tables": {}, "free_pages": [5]}`. -/
def oneFreeText : Bytes :=
  [123, 34, 116, 97, 98, 108, 101, 115, 34, 58, 32, 123, 125, 44, 32, 34, 102, 114, 101, 101, 95, 112, 97,
    103, 101, 115, 34, 58, 32, 91, 53, 93, 125]

def oneFreeLib : JsonLib where
  dumps _ := oneFreeText
  loads text := if text = oneFreeText then .ok oneFree.json else .error .valueError

theorem save_oneFree : save oneFreeLib oneFree = .ok (padTo pageSize oneFreeText) := by
  rw [save]
  exact if_neg (by decide)

theorem loads_oneFree : oneFreeLib.loads (oneFreeLib.dumps oneFree.json) = .ok oneFree.json := by
  simp only [oneFreeLib, if_true]

theorem load_save_oneFree : load oneFreeLib (padTo pageSize oneFreeText) = .ok oneFree ↔ oneFree.freePages = [] :=
  load_save_iff save_oneFree loads_oneFree rfl

/-- Its free page is lost. -/
theorem not_load_save : ¬∀ (lib : JsonLib) (c : Catalog) (page : Bytes), c.save lib = .ok page →
    lib.loads (lib.dumps c.json) = .ok c.json → (lib.dumps c.json).getLast? = some 125 → load lib page = .ok c := by
  intro h
  have hload := h oneFreeLib oneFree (padTo pageSize oneFreeText) save_oneFree loads_oneFree rfl
  rw [load_save save_oneFree loads_oneFree (b := 125) rfl (by decide)] at hload
  exact absurd (congrArg freePages (Except.ok.inj hload)) (by decide)

end Catalog

end LeafDb
