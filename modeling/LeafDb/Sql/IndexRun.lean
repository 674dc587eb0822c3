import LeafDb.Base.Run
import LeafDb.Sql.IndexInv
import LeafDb.Sql.Pushdown

/-!
# Index and table never disagree

`Work.Ok` is the invariant of one table and its indexes, `Database.Ok` that of the session. A statement
about a table is shown to keep the first (`Kept`); `ok_onTable` carries that to the second, and the run
lemma follows.
-/

namespace LeafDb

/-! ### The tree of a table -/

/-- What the cells of a table hold. -/
structure Stored.Ok (t : Stored) : Prop where
  ascending : t.cells.Pairwise fun a b => a.1 < b.1
  typed : ∀ c ∈ t.cells, ∃ row, decodeRow t.tmeta.types c.2 = .ok row ∧ List.Forall₂ HasType t.tmeta.types row

/-- The rows of a table, with their rowids. -/
def Stored.rows (t : Stored) : Set (Int × Row) :=
  {r | ∃ blob, (r.1, blob) ∈ t.cells ∧ decodeRow t.tmeta.types blob = .ok r.2}

namespace Cells

variable {cells : List Cell} {key : Int} {value : Bytes}

theorem isSome_search : (search cells key).isSome = true ↔ ∃ v, (key, v) ∈ cells := by
  rw [search, Option.isSome_map, List.find?_isSome]
  simp

theorem eq_of_mem (ha : cells.Pairwise fun a b => a.1 < b.1) {v v' : Bytes} (h : (key, v) ∈ cells)
    (h' : (key, v') ∈ cells) : v = v' := by
  have hn : (cells.map Prod.fst).Nodup := by
    rw [List.Nodup, List.pairwise_map]
    exact ha.imp fun h => h.ne
  exact congrArg Prod.snd (List.inj_on_of_nodup_map hn h h' rfl)

theorem insert_eq_ok {cells' : List Cell} (h : insert cells key value = .ok cells') :
    (∀ v, (key, v) ∉ cells) ∧ cells' = cells.orderedInsert (fun a b => a.1 ≤ b.1) (key, value) := by
  rw [insert] at h
  split at h
  · cases h
  · split at h
    · cases h
    · rename_i hs
      rw [isSome_search, not_exists] at hs
      split at h
      · cases h
        exact ⟨hs, rfl⟩
      · cases h

theorem pairwise_orderedInsert (ha : cells.Pairwise fun a b => a.1 < b.1) (hk : ∀ v, (key, v) ∉ cells) :
    (cells.orderedInsert (fun a b => a.1 ≤ b.1) (key, value)).Pairwise fun a b => a.1 < b.1 := by
  induction cells with
  | nil => simp
  | cons c cells ih =>
    obtain ⟨hc, ha⟩ := List.pairwise_cons.1 ha
    have hne : key ≠ c.1 := fun e => hk c.2 (by simp [e])
    rw [List.orderedInsert]
    split
    · rename_i hle
      refine List.pairwise_cons.2 ⟨?_, List.pairwise_cons.2 ⟨hc, ha⟩⟩
      intro b hb
      rcases List.mem_cons.1 hb with rfl | hb
      · exact lt_of_le_of_ne hle hne
      · exact hle.trans_lt (hc b hb)
    · rename_i hlt
      refine List.pairwise_cons.2 ⟨?_, ih ha fun v hv => hk v (List.mem_cons_of_mem _ hv)⟩
      intro b hb
      rcases (List.mem_orderedInsert _).1 hb with rfl | hb
      · exact not_le.1 hlt
      · exact hc b hb

theorem upsert_eq_ok {cells' : List Cell} {v : Bytes} (hk : (key, v) ∈ cells) (h : upsert cells key value = .ok cells') :
    cells' = cells.map fun c => if c.1 = key then (key, value) else c := by
  rw [upsert, insert, if_pos (isSome_search.2 ⟨v, hk⟩)] at h
  by_cases hlen : maxValueSize < value.length
  · rw [if_pos hlen] at h
    cases h
  · rw [if_neg hlen] at h
    cases h
    rfl

end Cells

namespace Stored

variable {t : Stored}

theorem Ok.eq_of_mem (h : t.Ok) (rid : Int) {row row' : Row} (hr : (rid, row) ∈ t.rows) (hr' : (rid, row') ∈ t.rows) :
    row = row' := by
  obtain ⟨b, hb, hd⟩ := hr
  obtain ⟨b', hb', hd'⟩ := hr'
  obtain rfl := Cells.eq_of_mem h.ascending hb hb'
  exact Except.ok.inj (hd.symm.trans hd')

theorem Ok.typed_row (h : t.Ok) {r : Int × Row} (hr : r ∈ t.rows) : List.Forall₂ HasType t.tmeta.types r.2 := by
  obtain ⟨b, hb, hd⟩ := hr
  obtain ⟨row, hrow, ht⟩ := h.typed _ hb
  rw [hd] at hrow
  cases hrow
  exact ht

/-- The rows a scan yields. -/
theorem Ok.scanTable (h : t.Ok) {rows : List (Int × Row)} (hs : t.scanTable = .ok rows) :
    (∀ r, r ∈ rows ↔ r ∈ t.rows) ∧ (rows.map Prod.fst).Nodup := by
  have hall : List.Forall₂ (fun (c : Cell) (r : Int × Row) => c.1 = r.1 ∧ decodeRow t.tmeta.types c.2 = .ok r.2)
      t.cells rows := by
    refine (mapM_eq_ok.1 hs).imp fun c r hcr => ?_
    obtain ⟨row, hrow, hr⟩ := do_eq_ok.1 hcr
    cases hr
    exact ⟨rfl, hrow⟩
  constructor
  · intro r
    constructor
    · intro hr
      obtain ⟨i, hi⟩ := List.mem_iff_getElem?.1 hr
      obtain ⟨c, hc, hcr, hd⟩ := forall₂_getElem?' hall hi
      exact ⟨c.2, hcr ▸ List.mem_of_getElem? hc, hd⟩
    · rintro ⟨b, hb, hd⟩
      obtain ⟨i, hi⟩ := List.mem_iff_getElem?.1 hb
      obtain ⟨r', hr', hcr, hd'⟩ := forall₂_getElem? hall hi
      have hrr : r = r' := Prod.ext hcr (Except.ok.inj (hd.symm.trans hd'))
      exact hrr ▸ List.mem_of_getElem? hr'
  · have hmap : rows.map Prod.fst = t.cells.map Prod.fst := by
      clear hs
      generalize t.cells = cells at hall
      induction hall with
      | nil => rfl
      | cons hcr _ ih => simp [hcr.1, ih]
    rw [hmap, List.Nodup, List.pairwise_map]
    exact h.ascending.imp fun h => h.ne

/-- A cell that replaces the ones under its key, if there are any. -/
theorem Ok.put (h : t.Ok) {m : TableMeta} (hm : m.types = t.tmeta.types) {rid : Int} {row : Row} {blob : Bytes}
    {cells : List Cell} (hrow : List.Forall₂ HasType t.tmeta.types row) (hb : encodeRow t.tmeta.types row = .ok blob)
    (ha : cells.Pairwise fun a b => a.1 < b.1)
    (hc : ∀ c, c ∈ cells ↔ c = (rid, blob) ∨ c ∈ t.cells ∧ c.1 ≠ rid) :
    (Stored.mk m cells).Ok ∧ (Stored.mk m cells).rows = insert (rid, row) {r | r ∈ t.rows ∧ r.1 ≠ rid} := by
  have hdec : decodeRow t.tmeta.types blob = .ok row := by simpa using decodeRow_encodeRow hrow hb []
  constructor
  · refine ⟨ha, fun c hcm => ?_⟩
    simp only [hm]
    rcases (hc c).1 hcm with rfl | ⟨hcm, -⟩
    · exact ⟨row, hdec, hrow⟩
    · exact h.typed c hcm
  · ext ⟨rid', row'⟩
    constructor
    · rintro ⟨b, hbm, hd⟩
      simp only [hm] at hd
      rcases (hc _).1 hbm with he | ⟨hbm, hne⟩
      · cases he
        rw [hdec] at hd
        cases hd
        exact .inl rfl
      · exact .inr ⟨⟨b, hbm, hd⟩, hne⟩
    · rintro (he | ⟨⟨b, hbm, hd⟩, hne⟩)
      · cases he
        exact ⟨blob, (hc _).2 (.inl rfl), by simp only [hm]; exact hdec⟩
      · exact ⟨b, (hc _).2 (.inr ⟨hbm, hne⟩), by simp only [hm]; exact hd⟩

end Stored

/-! ### One table -/

structure Work.Ok (w : Work) : Prop where
  table : w.table.Ok
  indexes : IndexesOk w.table.tmeta w.table.rows w.indexes

/-- What a statement about a table does to it and to the other tables' indexes. -/
structure Kept (w w' : Work) : Prop where
  ok : w'.Ok
  name : w'.table.tmeta.name = w.table.tmeta.name
  columns : w'.table.tmeta.columns = w.table.tmeta.columns
  frame : ∀ key, key.1 ≠ w.table.tmeta.name → w'.indexes key = w.indexes key

theorem Kept.refl {w : Work} (h : w.Ok) : Kept w w := ⟨h, rfl, rfl, fun _ _ => rfl⟩

theorem Kept.trans {w w' w'' : Work} (h : Kept w w') (h' : Kept w' w'') : Kept w w'' :=
  ⟨h'.ok, h'.name.trans h.name, h'.columns.trans h.columns,
    fun key hkey => (h'.frame key (by rwa [h.name])).trans (h.frame key hkey)⟩

theorem Kept.types {w w' : Work} (h : Kept w w') : w'.table.tmeta.types = w.table.tmeta.types := by
  rw [TableMeta.types, TableMeta.types, h.columns]

namespace Database

theorem encodeChecked_eq_ok {types : List ColType} {row : Row} {blob : Bytes} (h : encodeChecked types row = .ok blob) :
    encodeRow types row = .ok blob := by
  obtain ⟨b, hb, h⟩ := do_eq_ok.1 h
  split at h
  · cases h
  · cases h
    exact hb

/-- A new row: what it changes of its table. -/
theorem putRow_spec {w w' : Work} {dup : PyError} {rid : Int} {row : Row} {blob : Bytes} {u : Unit} (h : w.Ok)
    (hrow : List.Forall₂ HasType w.table.tmeta.types row) (hb : encodeRow w.table.tmeta.types row = .ok blob)
    (hx : putRow dup rid row blob w = .ok u w') :
    Kept w w' ∧ (∀ c ∈ w.table.cells, c.1 ≠ rid) ∧ w'.table.rows = Insert.insert (rid, row) w.table.rows ∧
      w'.table.tmeta = { w.table.tmeta with
        nextRowid := max w.table.tmeta.nextRowid (rid + 1), rowCount := w.table.tmeta.rowCount + 1 } ∧
      w'.table.cells = w.table.cells.orderedInsert (fun a b => a.1 ≤ b.1) (rid, blob) ∧
      (Finds w.table.tmeta w.table.rows w.indexes → Finds w'.table.tmeta w'.table.rows w'.indexes) := by
  unfold putRow at hx
  simp only [Exec.bind_eq_ok, Exec.get_eq_ok, Exec.lift_eq_ok, Exec.set_eq_ok] at hx
  obtain ⟨_, _, ⟨rfl, rfl⟩, cells, _, ⟨hcells, rfl⟩, _, _, rfl, idxs, _, ⟨hidx, rfl⟩, rfl⟩ := hx
  have hins : Cells.insert w.table.cells rid blob = .ok cells := by
    unfold uniqueError at hcells
    split at hcells
    · cases hcells
    · exact hcells
  obtain ⟨hfresh, rfl⟩ := Cells.insert_eq_ok hins
  have hnew : ∀ c ∈ w.table.cells, c.1 ≠ rid := fun c hc e => hfresh c.2 (by rw [← e]; exact hc)
  obtain ⟨hok, hrows⟩ := h.table.put (m := w.table.tmeta) rfl hrow hb (Cells.pairwise_orderedInsert h.table.ascending hfresh)
    fun c => by
      rw [List.mem_orderedInsert]
      exact or_congr_right ⟨fun hc => ⟨hc, hnew c hc⟩, And.left⟩
  have hsame : {r | r ∈ w.table.rows ∧ r.1 ≠ rid} = w.table.rows := by
    ext r
    exact ⟨And.left, fun hr => ⟨hr, fun e => by obtain ⟨b, hbm, -⟩ := hr; exact hnew _ hbm e⟩⟩
  have hmeta : IndexesOk { w.table.tmeta with
      nextRowid := max w.table.tmeta.nextRowid (rid + 1), rowCount := w.table.tmeta.rowCount + 1 }
      w.table.rows w.indexes := h.indexes.of_meta rfl rfl rfl
  obtain ⟨hidxs, hframe⟩ := hmeta.add hrow hidx
  rw [hsame] at hrows
  refine ⟨⟨⟨⟨hok.ascending, hok.typed⟩, ?_⟩, rfl, rfl, hframe⟩, hnew, hrows, rfl, rfl, fun hf => ?_⟩
  · exact hrows ▸ hidxs
  · have hfinds := (hf.of_meta { w.table.tmeta with
      nextRowid := max w.table.tmeta.nextRowid (rid + 1), rowCount := w.table.tmeta.rowCount + 1 }
      rfl rfl).add hmeta hidx
    exact hrows ▸ hfinds

theorem typed_coerceRow {types : List ColType} {full row : Row} {blob : Bytes} (h : coerceRow types full = .ok row)
    (hb : encodeRow types row = .ok blob) : List.Forall₂ HasType types row := by
  have hlen : row.length = types.length := by
    by_contra hne
    rw [encodeRow, if_pos hne] at hb
    cases hb
  refine List.forall₂_iff_get.2 ⟨hlen.symm, fun i hi hi' => ?_⟩
  obtain ⟨p, hp, hc⟩ := forall₂_getElem?' (mapM_eq_ok.1 h) (List.getElem?_eq_getElem hi')
  obtain ⟨ht, -⟩ := List.getElem?_zip_eq_some.1 hp
  rw [List.getElem?_eq_getElem hi] at ht
  rw [List.get_eq_getElem, Option.some.inj ht]
  exact hasType_coerceValue hc

theorem kept_insertRow {declared : Option (List String)} {width : Nat} {exprs : List Expr} {w w' : Work} {u : Unit}
    (h : w.Ok) (hx : insertRow declared width exprs w = .ok u w') : Kept w w' := by
  unfold insertRow at hx
  simp only [Exec.bind_eq_ok, Exec.guard_eq_ok, Exec.get_eq_ok, Exec.lift_eq_ok] at hx
  obtain ⟨-, _, _, ⟨rfl, rfl⟩, values, _, ⟨-, rfl⟩, full, _, ⟨-, rfl⟩, p, _, ⟨-, rfl⟩, row, _, ⟨hrow, rfl⟩,
    blob, _, ⟨hb, rfl⟩, -, hx⟩ := hx
  have hb := encodeChecked_eq_ok hb
  exact (putRow_spec h (typed_coerceRow hrow hb) hb hx).1

theorem kept_bulkRow {full : Row} {w w' : Work} {u : Unit} (h : w.Ok) (hx : bulkRow full w = .ok u w') :
    Kept w w' := by
  unfold bulkRow at hx
  simp only [Exec.bind_eq_ok, Exec.guard_eq_ok, Exec.get_eq_ok, Exec.lift_eq_ok] at hx
  obtain ⟨_, _, ⟨rfl, rfl⟩, -, p, _, ⟨-, rfl⟩, row, _, ⟨hrow, rfl⟩, blob, _, ⟨hb, rfl⟩, hx⟩ := hx
  have hb := encodeChecked_eq_ok hb
  exact (putRow_spec h (typed_coerceRow hrow hb) hb hx).1

/-- A loop whose steps each keep the table. -/
theorem kept_forM {α : Type} {f : α → Exec Work Unit} (hf : ∀ a w w', w.Ok → f a w = .ok () w' → Kept w w') {as : List α}
    {w w' : Work} {u : Unit} (h : w.Ok) (hx : as.forM f w = .ok u w') : Kept w w' :=
  Exec.forM_rule (P := fun _ v => Kept w v) (fun a _ v v' hk hv => hk.trans (hf a v v' hk.ok hv)) (.refl h) hx

/-! ### UPDATE and DELETE -/

theorem view_eq_ok {w : Work} {d : TableData} (h : w.view = .ok d) :
    ∃ rows, w.table.scanTable = .ok rows ∧ d = ⟨w.table.tmeta, rows, fun col => w.indexes (w.table.tmeta.name, col)⟩ := by
  obtain ⟨rows, hrows, h⟩ := do_eq_ok.1 h
  cases h
  exact ⟨rows, hrows, rfl⟩

theorem search_mem {d : TableData} {rid : Int} {row : Row} (h : d.search rid = some row) : (rid, row) ∈ d.rows := by
  obtain ⟨r, hr, rfl⟩ := Option.map_eq_some_iff.1 h
  have := List.find?_some hr
  rw [← of_decide_eq_true this]
  exact List.mem_of_find?_eq_some hr

theorem indexLookup_mem {d : TableData} (hn : ∀ col idx, d.index col = some idx → ∀ e ∈ idx, e.2.Nodup) (col : String)
    (v : Value) : (∀ r ∈ d.indexLookup col v, r ∈ d.rows) ∧ ((d.indexLookup col v).map Prod.fst).Nodup := by
  rw [TableData.indexLookup]
  split
  · simp
  · rename_i idx hidx
    have hnd : ((idx.get v).insertionSort (· ≤ ·)).Nodup :=
      (List.perm_insertionSort _ _).nodup_iff.2 (Buckets.nodup_get (hn col idx hidx) v)
    generalize (idx.get v).insertionSort (· ≤ ·) = rids at hnd
    constructor
    · intro r hr
      obtain ⟨rid, -, hr⟩ := List.mem_filterMap.1 hr
      obtain ⟨row, hrow, rfl⟩ := Option.map_eq_some_iff.1 hr
      exact search_mem hrow
    · refine List.Nodup.sublist ?_ hnd
      clear hnd
      induction rids with
      | nil => simp
      | cons rid rids ih =>
        rcases hs : d.search rid with _ | row
        · simpa [hs] using ih.trans (List.sublist_cons_self _ _)
        · simpa [hs] using ih

/-- The rows a WHERE clause matches are rows of the table, each once. -/
theorem matchingRows_mem {lib : PyLib} {d : TableData} {where? : Option Expr} {matched : List (Int × Row)}
    (hrows : (d.rows.map Prod.fst).Nodup) (hn : ∀ col idx, d.index col = some idx → ∀ e ∈ idx, e.2.Nodup)
    (h : matchingRows lib d where? = .ok matched) : (∀ r ∈ matched, r ∈ d.rows) ∧ (matched.map Prod.fst).Nodup := by
  rcases where? with _ | w
  · cases h
    exact ⟨fun _ => id, hrows⟩
  rw [matchingRows] at h
  obtain ⟨scope, -, h⟩ := do_eq_ok.1 h
  obtain ⟨fn, -, h⟩ := do_eq_ok.1 h
  set source := ((chooseShortcut d.tmeta (findEquiPredicates (flattenAnd w))).bind (shortcutRows d)).getD d.rows with hsource
  have hsrc : (∀ r ∈ source, r ∈ d.rows) ∧ (source.map Prod.fst).Nodup := by
    rcases hs : (chooseShortcut d.tmeta (findEquiPredicates (flattenAnd w))).bind (shortcutRows d) with _ | rows
    · rw [hsource, hs]
      exact ⟨fun _ => id, hrows⟩
    · rw [hsource, hs]
      obtain ⟨access, -, hrows⟩ := Option.bind_eq_some_iff.1 hs
      rcases access with _ | v | ⟨col, v⟩
      · cases hrows
      · rw [shortcutRows] at hrows
        split at hrows
        · cases hrows
        · split at hrows
          · rename_i hrow
            cases hrows
            simpa using search_mem hrow
          · cases hrows
            simp
      · cases hrows
        exact indexLookup_mem hn col v
  have hsub : matched.Sublist source := keepTrue_ok h ▸ List.filter_sublist
  exact ⟨fun r hr => hsrc.1 r (hsub.subset hr), (hsub.map Prod.fst).nodup hsrc.2⟩

theorem matched_mem {lib : PyLib} {w : Work} (h : w.Ok) {where? : Option Expr} {matched : List (Int × Row)}
    (hm : (do matchingRows lib (← w.view) where?) = Except.ok matched) :
    (∀ r ∈ matched, r ∈ w.table.rows) ∧ (matched.map Prod.fst).Nodup := by
  obtain ⟨d, hd, hm⟩ := do_eq_ok.1 hm
  obtain ⟨rows, hrows, rfl⟩ := view_eq_ok hd
  obtain ⟨hmem, hnd⟩ := h.table.scanTable hrows
  obtain ⟨h1, h2⟩ := matchingRows_mem hnd (fun col idx hidx => (h.indexes.ok col idx hidx).nodup) hm
  exact ⟨fun r hr => (hmem r).1 (h1 r hr), h2⟩

theorem forall₂_set {α β : Type} {R : α → β → Prop} {as : List α} {bs : List β} (h : List.Forall₂ R as bs) {i : Nat} {a : α} {b : β}
    (ha : as[i]? = some a) (hab : R a b) : List.Forall₂ R as (bs.set i b) := by
  induction h generalizing i with
  | nil => simp at ha
  | cons hr hrs ih =>
    rcases i with _ | i
    · obtain rfl := by simpa using ha
      exact .cons hab hrs
    · exact .cons hr (ih (by simpa using ha))

/-- One assignment of an UPDATE of `row`. -/
def assignOne (types : List ColType) (row new : Row) (a : Assignment) : Except PyError Row := do
  let v ← a.2 [some row] none
  match types[a.1]? with
  | some t => return new.set a.1 (← coerceValue t v)
  | none => throw .indexError

theorem assignedRow_eq {types : List ColType} {assigns : List Assignment} {row : Row} :
    assignedRow types assigns row = assigns.foldlM (assignOne types row) row := rfl

/-- An assignment sets its column to a value of the column's type. -/
theorem assignOne_eq_ok {types : List ColType} {row cur new : Row} {a : Assignment}
    (h : assignOne types row cur a = .ok new) :
    ∃ v t x, a.2 [some row] none = .ok v ∧ types[a.1]? = some t ∧ coerceValue t v = .ok x ∧ new = cur.set a.1 x := by
  obtain ⟨v, hv, h⟩ := do_eq_ok.1 h
  split at h
  · rename_i t ht
    obtain ⟨x, hx, h⟩ := do_eq_ok.1 h
    cases h
    exact ⟨v, t, x, hv, ht, hx, rfl⟩
  · cases h

theorem typed_assignedRow {types : List ColType} {assigns : List Assignment} {row new : Row}
    (h : assignedRow types assigns row = .ok new) (hrow : List.Forall₂ HasType types row) :
    List.Forall₂ HasType types new := by
  have hloop : ∀ (assigns : List Assignment) (cur : Row), List.Forall₂ HasType types cur →
      assigns.foldlM (assignOne types row) cur = Except.ok new → List.Forall₂ HasType types new := by
    intro assigns
    induction assigns with
    | nil =>
      intro cur hcur h
      cases h
      exact hcur
    | cons a assigns ih =>
      intro cur hcur h
      rw [List.foldlM_cons] at h
      obtain ⟨cur', hcur', h⟩ := do_eq_ok.1 h
      obtain ⟨v, t, x, -, ht, hx, rfl⟩ := assignOne_eq_ok hcur'
      exact ih _ (forall₂_set hcur ht (hasType_coerceValue hx)) h
  exact hloop assigns row hrow (assignedRow_eq.symm.trans h)

theorem updateRow_spec {assigns : List Assignment} {r : Int × Row} {w w' : Work} (h : w.Ok) (hr : r ∈ w.table.rows)
    (hx : updateRow assigns r w = .ok () w') : ∃ new, assignedRow w.table.tmeta.types assigns r.2 = .ok new ∧
      Kept w w' ∧ w'.table.rows = Insert.insert (r.1, new) {q | q ∈ w.table.rows ∧ q.1 ≠ r.1} ∧
      w'.table.tmeta = w.table.tmeta ∧ w'.table.cells.map Prod.fst = w.table.cells.map Prod.fst ∧
      (Finds w.table.tmeta w.table.rows w.indexes → Finds w'.table.tmeta w'.table.rows w'.indexes) := by
  unfold updateRow at hx
  simp only [Exec.bind_eq_ok, Exec.get_eq_ok, Exec.lift_eq_ok, Exec.set_eq_ok] at hx
  obtain ⟨_, _, ⟨rfl, rfl⟩, new, _, ⟨hnew, rfl⟩, blob, _, ⟨hb, rfl⟩, cells, _, ⟨hcells, rfl⟩, _, _, rfl,
    idxs, _, ⟨hrem, rfl⟩, _, _, rfl, idxs', _, ⟨hadd, rfl⟩, rfl⟩ := hx
  have htyped := typed_assignedRow hnew (h.table.typed_row hr)
  have hold := hr
  obtain ⟨old, hold, -⟩ := hold
  obtain rfl := Cells.upsert_eq_ok hold hcells
  obtain ⟨hok, hrows⟩ := @Stored.Ok.put _ h.table w.table.tmeta rfl r.1 new blob
    (w.table.cells.map fun c => if c.1 = r.1 then (r.1, blob) else c) htyped (encodeChecked_eq_ok hb)
    (List.pairwise_map.2 (h.table.ascending.imp fun hlt => by split <;> split <;> simp_all))
    fun c => by
      rw [List.mem_map]
      constructor
      · rintro ⟨c', hc', rfl⟩
        split
        · exact .inl rfl
        · rename_i hne
          exact .inr ⟨hc', hne⟩
      · rintro (rfl | ⟨hc, hne⟩)
        · exact ⟨_, hold, if_pos rfl⟩
        · exact ⟨c, hc, if_neg hne⟩
  have hS : ∀ row', (r.1, row') ∈ w.table.rows → row' = r.2 := fun row' hrow' => h.table.eq_of_mem _ hrow' hr
  obtain ⟨hidx, hframe⟩ := h.indexes.remove hS hrem
  obtain ⟨hidx', hframe'⟩ := hidx.add htyped hadd
  refine ⟨new, hnew, ⟨⟨hok, ?_⟩, rfl, rfl, fun key hkey => (hframe' key hkey).trans (hframe key hkey)⟩, hrows, rfl, ?_,
    fun hf => ?_⟩
  · exact hrows ▸ hidx'
  · rw [List.map_map]
    refine List.map_congr_left fun c _ => ?_
    simp only [Function.comp]
    split
    · rename_i he
      exact he.symm
    · rfl
  · have hfinds := (hf.remove h.indexes hS hrem).add hidx hadd
    exact hrows ▸ hfinds

theorem deleteRow_spec {r : Int × Row} {w w' : Work} (h : w.Ok) (hr : r ∈ w.table.rows)
    (hx : deleteRow r w = .ok () w') : Kept w w' ∧ w'.table.rows = {q | q ∈ w.table.rows ∧ q.1 ≠ r.1} ∧
      w'.table.tmeta = { w.table.tmeta with rowCount := w.table.tmeta.rowCount - 1 } ∧
      w'.table.cells = w.table.cells.filter (fun c => decide (c.1 ≠ r.1)) ∧
      (Finds w.table.tmeta w.table.rows w.indexes → Finds w'.table.tmeta w'.table.rows w'.indexes) := by
  obtain ⟨_, _, hget, hx⟩ := Exec.bind_eq_ok.1 hx
  obtain ⟨rfl, rfl⟩ := Exec.get_eq_ok.1 hget
  have hfound : (Cells.search w.table.cells r.1).isSome = true := by
    obtain ⟨blob, hblob, -⟩ := hr
    exact Cells.isSome_search.2 ⟨blob, hblob⟩
  simp only [Cells.delete, hfound, if_true, Exec.bind_eq_ok, Exec.lift_eq_ok, Exec.set_eq_ok] at hx
  obtain ⟨_, _, rfl, idxs, _, ⟨hrem, rfl⟩, rfl⟩ := hx
  have hmeta : IndexesOk { w.table.tmeta with rowCount := w.table.tmeta.rowCount - 1 } w.table.rows w.indexes :=
    h.indexes.of_meta rfl rfl rfl
  have hS : ∀ row', (r.1, row') ∈ w.table.rows → row' = r.2 := fun row' hrow' => h.table.eq_of_mem _ hrow' hr
  obtain ⟨hidx, hframe⟩ := hmeta.remove hS hrem
  have hrows : (Stored.mk { w.table.tmeta with rowCount := w.table.tmeta.rowCount - 1 }
      (w.table.cells.filter fun c => decide (c.1 ≠ r.1))).rows = {q | q ∈ w.table.rows ∧ q.1 ≠ r.1} := by
    ext q
    constructor
    · rintro ⟨blob, hb, hd⟩
      obtain ⟨hb, hne⟩ := List.mem_filter.1 hb
      exact ⟨⟨blob, hb, hd⟩, of_decide_eq_true hne⟩
    · rintro ⟨⟨blob, hb, hd⟩, hne⟩
      exact ⟨blob, List.mem_filter.2 ⟨hb, decide_eq_true hne⟩, hd⟩
  refine ⟨⟨⟨⟨h.table.ascending.filter _, fun c hc => h.table.typed c (List.mem_filter.1 hc).1⟩, ?_⟩, rfl, rfl, hframe⟩,
    hrows, rfl, rfl, fun hf => ?_⟩
  · exact hrows ▸ hidx
  · have hfinds := (hf.of_meta { w.table.tmeta with rowCount := w.table.tmeta.rowCount - 1 } rfl rfl).remove hmeta hS hrem
    exact hrows ▸ hfinds

theorem kept_updateRow {assigns : List Assignment} {r : Int × Row} {w w' : Work} (h : w.Ok) (hr : r ∈ w.table.rows)
    (hx : updateRow assigns r w = .ok () w') : Kept w w' ∧ ∀ q ∈ w.table.rows, q.1 ≠ r.1 → q ∈ w'.table.rows := by
  obtain ⟨new, -, hk, hrows, -⟩ := updateRow_spec h hr hx
  exact ⟨hk, fun q hq hne => by rw [hrows]; exact .inr ⟨hq, hne⟩⟩

theorem kept_deleteRow {r : Int × Row} {w w' : Work} (h : w.Ok) (hr : r ∈ w.table.rows)
    (hx : deleteRow r w = .ok () w') : Kept w w' ∧ ∀ q ∈ w.table.rows, q.1 ≠ r.1 → q ∈ w'.table.rows := by
  obtain ⟨hk, hrows, -⟩ := deleteRow_spec h hr hx
  exact ⟨hk, fun q hq hne => by rw [hrows]; exact ⟨hq, hne⟩⟩

/-- A loop over matched rows: each step keeps the rows still to come. -/
theorem kept_matched {f : Int × Row → Exec Work Unit}
    (hf : ∀ r w w', w.Ok → r ∈ w.table.rows → f r w = .ok () w' →
      Kept w w' ∧ ∀ q ∈ w.table.rows, q.1 ≠ r.1 → q ∈ w'.table.rows)
    {matched : List (Int × Row)} {w w' : Work} {u : Unit} (h : w.Ok) (hm : ∀ r ∈ matched, r ∈ w.table.rows)
    (hn : (matched.map Prod.fst).Nodup) (hx : matched.forM f w = .ok u w') : Kept w w' := by
  refine (Exec.forM_rule (P := fun rest v => Kept w v ∧ (∀ r ∈ rest, r ∈ v.table.rows) ∧ (rest.map Prod.fst).Nodup)
    ?_ ⟨.refl h, hm, hn⟩ hx).1
  rintro r rest v v' ⟨hk, hm, hn⟩ hv
  obtain ⟨hr, hm⟩ := List.forall_mem_cons.1 hm
  obtain ⟨hne, hn⟩ := List.nodup_cons.1 hn
  obtain ⟨hk', hrest⟩ := hf r v v' hk.ok hr hv
  exact ⟨hk.trans hk', fun q hq => hrest q (hm q hq) fun e => hne (e ▸ List.mem_map_of_mem hq), hn⟩

/-! ### CREATE INDEX -/

theorem buildIndex_ok {m : TableMeta} {col : String} {rows : List (Int × Row)} {idx : Buckets Int}
    (ht : ∀ r ∈ rows, List.Forall₂ HasType m.types r.2) (h : buildIndex m col rows = .ok idx) :
    IndexOk m {r | r ∈ rows} col idx ∧ ∀ j, m.colnames.idxOf? col = some j → FindsAt {r | r ∈ rows} j idx := by
  have hloop : ∀ (rows : List (Int × Row)) (S : Set (Int × Row)) (idx₀ : Buckets Int), IndexOk m S col idx₀ →
      (∀ j, m.colnames.idxOf? col = some j → FindsAt S j idx₀) →
      (∀ r ∈ rows, List.Forall₂ HasType m.types r.2) →
      rows.foldlM (fun idx r => do
        let v ← columnValue m r.2 col
        return if v = .none then idx else idx.insert v r.1) idx₀ = Except.ok idx →
      IndexOk m {r | r ∈ rows ∨ r ∈ S} col idx ∧
        ∀ j, m.colnames.idxOf? col = some j → FindsAt {r | r ∈ rows ∨ r ∈ S} j idx := by
    intro rows
    induction rows with
    | nil =>
      intro S idx₀ h₀ hf₀ _ h
      cases h
      simpa using ⟨h₀, hf₀⟩
    | cons r rows ih =>
      intro S idx₀ h₀ hf₀ ht h
      obtain ⟨hr, ht⟩ := List.forall_mem_cons.1 ht
      rw [List.foldlM_cons] at h
      obtain ⟨idx₁, h₁, h⟩ := do_eq_ok.1 h
      obtain ⟨v, hv, h₁⟩ := do_eq_ok.1 h₁
      cases h₁
      have hS : {q | q ∈ r :: rows ∨ q ∈ S} = {q | q ∈ rows ∨ q ∈ Insert.insert (r.1, r.2) S} := by
        ext q
        change q ∈ r :: rows ∨ q ∈ S ↔ q ∈ rows ∨ q = r ∨ q ∈ S
        rw [List.mem_cons]
        tauto
      rw [hS]
      refine ih _ _ (h₀.insert r.1 hr hv) (fun j hj => ?_) ht h
      obtain ⟨j', hj', hval⟩ := columnValue_eq_ok.1 hv
      rw [hj] at hj'
      cases hj'
      exact (hf₀ j hj).insert _ hval
  have := hloop rows ∅ [] .empty (fun j _ => by simp [FindsAt, Buckets.get]) ht h
  simpa using this

/-- The index a scan of the table builds. -/
theorem buildIndex_scan {t : Stored} (h : t.Ok) {col : String} {idx : Buckets Int}
    (hb : (do buildIndex t.tmeta col (← t.scanTable)) = Except.ok idx) : IndexOk t.tmeta t.rows col idx ∧
      ∀ j, t.tmeta.colnames.idxOf? col = some j → FindsAt t.rows j idx := by
  obtain ⟨rows, hrows, hb⟩ := do_eq_ok.1 hb
  obtain ⟨hmem, -⟩ := h.scanTable hrows
  have hok := buildIndex_ok (fun r hr => h.typed_row ((hmem r).1 hr)) hb
  rwa [show {r | r ∈ rows} = t.rows from Set.ext hmem] at hok

/-! ### The session -/

/-- The invariant of a session. -/
structure Ok (s : Database) : Prop where
  names : (s.tables.map (·.tmeta.name)).Nodup
  tables : ∀ t ∈ s.tables, Work.Ok ⟨t, s.indexes⟩
  known : ∀ key, (s.indexes key).isSome = true → key.1 ∈ s.tables.map (·.tmeta.name)

theorem lookupMeta_mem {s : Database} {name : String} {t : Stored} (h : s.lookupMeta name = .ok t) : t ∈ s.tables := by
  rw [lookupMeta] at h
  split at h
  · rename_i t' ht
    cases h
    exact List.mem_of_find?_eq_some ht
  · cases h

theorem Ok.eq_of_name {s : Database} (h : s.Ok) {t t' : Stored} (ht : t ∈ s.tables) (ht' : t' ∈ s.tables)
    (hn : t.tmeta.name = t'.tmeta.name) : t = t' :=
  List.inj_on_of_nodup_map h.names ht ht' hn

/-- A statement that keeps its table keeps the session. -/
theorem ok_onTable {α : Type} {name : String} {x : Exec Work α} {s s' : Database} {a : α} (h : s.Ok)
    (hk : ∀ w w', w.Ok → x w = .ok a w' → Kept w w') (hx : onTable name x s = .ok a s') : s'.Ok := by
  rw [onTable] at hx
  split at hx
  · cases hx
  rename_i t ht
  split at hx
  swap
  · cases hx
  rename_i a' w' hw
  cases hx
  have htm := lookupMeta_mem ht
  obtain ⟨hok, hname, -, hframe⟩ := hk _ _ (h.tables t htm) hw
  have hnames : (s.put w').tables.map (·.tmeta.name) = s.tables.map (·.tmeta.name) := by
    rw [put, List.map_map]
    refine List.map_congr_left fun t' _ => ?_
    simp only [Function.comp]
    split
    · rename_i he
      exact he.symm
    · rfl
  refine ⟨hnames ▸ h.names, fun t' ht' => ?_, fun key hkey => ?_⟩
  · obtain ⟨t₀, ht₀, rfl⟩ := List.mem_map.1 ht'
    split
    · exact hok
    · rename_i hne
      obtain ⟨h1, h2⟩ := h.tables t₀ ht₀
      exact ⟨h1, h2.frame fun c => hframe _ (hname ▸ hne)⟩
  · rw [hnames]
    by_cases hn : key.1 = t.tmeta.name
    · rw [hn]
      exact List.mem_map_of_mem htm
    · exact h.known key ((congrArg Option.isSome (hframe key hn)).symm.trans hkey)

theorem save_eq_ok {fits : Bool} {s s' : Database} {u : Unit} (h : save fits s = .ok u s') : s' = s := by
  rw [save] at h
  split at h
  · exact (Exec.pure_eq_ok.1 h).2.symm
  · exact absurd h Exec.throw_ne_ok

/-- A statement about one table followed by `catalog.save`. -/
theorem ok_onTable_save {name : String} {x : Exec Work Unit} {fits : Bool} {s s' : Database} {u : Unit} (h : s.Ok)
    (hk : ∀ w w', w.Ok → x w = .ok () w' → Kept w w')
    (hx : (do onTable name x; save fits) s = .ok u s') : s'.Ok := by
  obtain ⟨⟨⟩, s₁, hx, hs⟩ := Exec.bind_eq_ok.1 hx
  obtain rfl := save_eq_ok hs
  exact ok_onTable h hk hx

variable {lib : PyLib} {fits : Bool} {s s' : Database} {u : Unit}

theorem ok_insert {stmt : InsertStmt} (h : s.Ok) (hx : insert fits stmt s = .ok u s') : s'.Ok := by
  refine ok_onTable_save h (fun w w' hw hx => ?_) hx
  simp only [Exec.bind_eq_ok, Exec.get_eq_ok, Exec.lift_eq_ok] at hx
  obtain ⟨_, _, ⟨rfl, rfl⟩, width, _, ⟨-, rfl⟩, hx⟩ := hx
  exact kept_forM (fun _ _ _ => kept_insertRow) hw hx

theorem ok_bulkInsert {table : String} {rows : List Row} (h : s.Ok) (hx : bulkInsert fits table rows s = .ok u s') :
    s'.Ok :=
  ok_onTable_save h (fun _ _ hw hx => kept_forM (fun _ _ _ => kept_bulkRow) hw hx) hx

theorem ok_update {stmt : UpdateStmt} (h : s.Ok) (hx : update lib fits stmt s = .ok u s') : s'.Ok := by
  refine ok_onTable_save h (fun w w' hw hx => ?_) hx
  simp only [Exec.bind_eq_ok, Exec.get_eq_ok, Exec.lift_eq_ok] at hx
  obtain ⟨_, _, ⟨rfl, rfl⟩, _, _, ⟨-, rfl⟩, matched, _, ⟨hm, rfl⟩, assigns, _, ⟨-, rfl⟩, hx⟩ := hx
  obtain ⟨hmem, hn⟩ := matched_mem hw hm
  exact kept_matched (fun _ _ _ => kept_updateRow) hw hmem hn hx

theorem ok_delete {stmt : DeleteStmt} (h : s.Ok) (hx : delete lib fits stmt s = .ok u s') : s'.Ok := by
  refine ok_onTable_save h (fun w w' hw hx => ?_) hx
  simp only [Exec.bind_eq_ok, Exec.get_eq_ok, Exec.lift_eq_ok] at hx
  obtain ⟨_, _, ⟨rfl, rfl⟩, matched, _, ⟨hm, rfl⟩, hx⟩ := hx
  obtain ⟨hmem, hn⟩ := matched_mem hw hm
  exact kept_matched (fun _ _ _ => kept_deleteRow) hw hmem hn hx

theorem ok_vacuum {table : String} (h : s.Ok) (hx : vacuum fits table s = .ok u s') : s'.Ok := by
  refine ok_onTable_save h (fun w w' hw hx => ?_) hx
  obtain ⟨-, rfl⟩ := Exec.pure_eq_ok.1 hx
  exact .refl hw

theorem kept_createIndex {name column : String} {w w' : Work} (hw : w.Ok) (hx : (do
    let w ← get
    let m := w.table.tmeta
    if column ∉ m.colnames then throw .catalogError
    if some column = m.pkColumn then throw .catalogError
    if column ∈ m.indexes.map Prod.fst then throw .catalogError
    let t := { w.table with tmeta := { m with indexes := m.indexes ++ [(column, name)] } }
    set (Work.mk t w.indexes)
    let idx ← Exec.lift (do buildIndex t.tmeta column (← t.scanTable))
    set (Work.mk t (Function.update w.indexes (m.name, column) (some idx))) : Exec Work Unit) w = .ok u w') : Kept w w' := by
  simp only [Exec.bind_eq_ok, Exec.guard_eq_ok, Exec.get_eq_ok, Exec.lift_eq_ok, Exec.set_eq_ok] at hx
  obtain ⟨_, _, ⟨rfl, rfl⟩, -, -, hnew, _, _, rfl, idx, _, ⟨hidx, rfl⟩, rfl⟩ := hx
  obtain ⟨⟨hasc, htyp⟩, hidxs⟩ := hw
  have hidx' := (buildIndex_scan ⟨hasc, htyp⟩ hidx).1
  refine ⟨⟨⟨hasc, htyp⟩, ⟨?_, fun c => ?_, fun c idx' hc => ?_⟩⟩, rfl, rfl, fun key hkey => ?_⟩
  · rw [List.map_append, List.nodup_append]
    refine ⟨hidxs.cols_nodup, by simp, ?_⟩
    rintro c hc c' hc' rfl
    obtain rfl := List.mem_singleton.1 hc'
    exact hnew hc
  · by_cases hc : c = column
    · simp [hc]
    · have hne : (w.table.tmeta.name, c) ≠ (w.table.tmeta.name, column) := fun e => hc (Prod.mk.inj e).2
      simp only [Function.update_of_ne hne, hidxs.isSome_iff, List.map_append, List.mem_append, List.map_cons,
        List.map_nil, List.mem_singleton, hc, or_false]
  · by_cases hcc : c = column
    · subst hcc
      simp only [Function.update_self] at hc
      cases hc
      obtain ⟨h1, h2, h3⟩ := hidx'
      exact ⟨h1, h2, h3⟩
    · have hne : (w.table.tmeta.name, c) ≠ (w.table.tmeta.name, column) := fun e => hcc (Prod.mk.inj e).2
      simp only [Function.update_of_ne hne] at hc
      obtain ⟨h1, h2, h3⟩ := hidxs.ok c idx' hc
      exact ⟨h1, h2, h3⟩
  · exact Function.update_of_ne (fun e => hkey (by rw [e])) _ _

theorem ok_createIndex {name table column : String} (h : s.Ok) (hx : createIndex fits name table column s = .ok u s') :
    s'.Ok :=
  ok_onTable_save h (fun _ _ hw hx => kept_createIndex hw hx) hx

theorem ok_createTable {root : Nat} {name : String} {specs : List ColumnSpec} (h : s.Ok)
    (hx : createTable fits root name specs s = .ok u s') : s'.Ok := by
  unfold createTable at hx
  simp only [Exec.bind_eq_ok, Exec.guard_eq_ok, Exec.get_eq_ok, Exec.lift_eq_ok, Exec.set_eq_ok] at hx
  obtain ⟨cols, _, ⟨-, rfl⟩, _, _, ⟨rfl, rfl⟩, hnew, _, _, rfl, hs⟩ := hx
  obtain rfl := save_eq_ok hs
  refine ⟨?_, fun t ht => ?_, fun key hkey => ?_⟩
  · rw [List.map_append, List.nodup_append]
    refine ⟨h.names, by simp, ?_⟩
    rintro n hn n' hn' rfl
    obtain rfl := List.mem_singleton.1 hn'
    exact hnew hn
  · rcases List.mem_append.1 ht with ht | ht
    · exact h.tables t ht
    · obtain rfl := List.mem_singleton.1 ht
      have hnone : ∀ c, s.indexes (name, c) = none := by
        intro c
        rw [← Option.not_isSome_iff_eq_none]
        exact fun hc => hnew (h.known _ hc)
      exact ⟨⟨by simp, by simp⟩, ⟨by simp, by simp [hnone], fun c idx hc => by simp [hnone] at hc⟩⟩
  · rw [List.map_append]
    exact List.mem_append_left _ (h.known key hkey)

theorem ok_dropTable {name : String} (h : s.Ok) (hx : dropTable fits name s = .ok u s') : s'.Ok := by
  unfold dropTable at hx
  simp only [Exec.bind_eq_ok, Exec.get_eq_ok, Exec.lift_eq_ok, Exec.set_eq_ok] at hx
  obtain ⟨_, _, ⟨rfl, rfl⟩, t, _, ⟨ht, rfl⟩, _, _, rfl, hs⟩ := hx
  obtain rfl := save_eq_ok hs
  have htm := lookupMeta_mem ht
  refine ⟨(List.filter_sublist.map _).nodup h.names, fun t' ht' => ?_, fun key hkey => ?_⟩
  · obtain ⟨ht', hne⟩ := List.mem_filter.1 ht'
    have hne := of_decide_eq_true hne
    obtain ⟨h1, h2⟩ := h.tables t' ht'
    exact ⟨h1, h2.frame fun c => if_neg fun hc => hne hc.1⟩
  · simp only at hkey
    split at hkey
    · cases hkey
    · rename_i hkept
      obtain ⟨t', ht', hn⟩ := List.mem_map.1 (h.known key hkey)
      refine List.mem_map.2 ⟨t', List.mem_filter.2 ⟨ht', decide_eq_true fun hd => hkept ?_⟩, hn⟩
      obtain rfl := h.eq_of_name ht' htm hd
      refine ⟨hn.symm, ((h.tables t' ht').indexes.isSome_iff key.2).1 ?_⟩
      simp only [hn]
      exact hkey

theorem ok_dropIndex {name : String} (h : s.Ok) (hx : dropIndex fits name s = .ok u s') : s'.Ok := by
  unfold dropIndex at hx
  obtain ⟨_, _, hget, hx⟩ := Exec.bind_eq_ok.1 hx
  obtain ⟨rfl, rfl⟩ := Exec.get_eq_ok.1 hget
  rcases hf : findIndex s.tables name with _ | ⟨table, col⟩
  · rw [hf] at hx
    exact absurd hx Exec.throw_ne_ok
  simp only [hf, Exec.bind_eq_ok, Exec.set_eq_ok] at hx
  obtain ⟨_, _, rfl, hs⟩ := hx
  obtain rfl := save_eq_ok hs
  have hnames : ∀ t : Stored, (if t.tmeta.name = table then
      { t with tmeta := { t.tmeta with indexes := t.tmeta.indexes.filter fun e => decide (e.1 ≠ col) } }
      else t).tmeta.name = t.tmeta.name := by
    intro t
    split <;> rfl
  have hmap : (s.tables.map fun t => if t.tmeta.name = table then
      { t with tmeta := { t.tmeta with indexes := t.tmeta.indexes.filter fun e => decide (e.1 ≠ col) } }
      else t).map (·.tmeta.name) = s.tables.map (·.tmeta.name) := by
    rw [List.map_map]
    exact List.map_congr_left fun t _ => hnames t
  refine ⟨by simp only [hmap]; exact h.names, fun t ht => ?_, fun key hkey => ?_⟩
  · obtain ⟨t₀, ht₀, rfl⟩ := List.mem_map.1 ht
    obtain ⟨⟨hasc, htyp⟩, hidxs⟩ := h.tables t₀ ht₀
    split
    · rename_i hn
      subst hn
      refine ⟨⟨hasc, htyp⟩, (hidxs.cols_nodup.sublist (List.filter_sublist.map _)), fun c => ?_, fun c idx hc => ?_⟩
      · by_cases hcc : c = col
        · simp [hcc]
        · have hne : (t₀.tmeta.name, c) ≠ (t₀.tmeta.name, col) := fun e => hcc (Prod.mk.inj e).2
          simp only [Function.update_of_ne hne, hidxs.isSome_iff]
          simp only [List.mem_map, List.mem_filter]
          constructor
          · rintro ⟨e, he, rfl⟩
            exact ⟨e, ⟨he, by simpa using hcc⟩, rfl⟩
          · rintro ⟨e, ⟨he, -⟩, rfl⟩
            exact ⟨e, he, rfl⟩
      · by_cases hcc : c = col
        · subst hcc
          simp at hc
        · have hne : (t₀.tmeta.name, c) ≠ (t₀.tmeta.name, col) := fun e => hcc (Prod.mk.inj e).2
          simp only [Function.update_of_ne hne] at hc
          obtain ⟨h1, h2, h3⟩ := hidxs.ok c idx hc
          exact ⟨h1, h2, h3⟩
    · rename_i hn
      exact ⟨⟨hasc, htyp⟩, hidxs.frame fun c => Function.update_of_ne (fun e => hn (Prod.mk.inj e).1) _ _⟩
  · simp only [hmap]
    refine h.known key ?_
    by_cases hk : key = (table, col)
    · subst hk
      simp at hkey
    · simpa only [Function.update_of_ne hk] using hkey

/-- The indexes `_rebuild_indexes` gives one table. -/
theorem indexesOk_rebuilt {t : Stored} (ht : t.Ok) (hcols : (t.tmeta.indexes.map Prod.fst).Nodup) {idxs idxs' : Indexes}
    (hold : ∀ c, idxs (t.tmeta.name, c) = none)
    (h : forIndexes t.tmeta.name (fun col _ => do return some (← buildIndex t.tmeta col (← t.scanTable)))
      (t.tmeta.indexes.map Prod.fst) idxs = .ok idxs') : IndexesOk t.tmeta t.rows idxs' := by
  obtain ⟨hin, hout⟩ := forIndexes_ok hcols h
  have hnew : ∀ c ∈ t.tmeta.indexes.map Prod.fst, ∃ idx, idxs' (t.tmeta.name, c) = some idx ∧
      IndexOk t.tmeta t.rows c idx := by
    intro c hc
    obtain ⟨rows, hrows, hb⟩ := do_eq_ok.1 (hin c hc)
    obtain ⟨idx, hb, hc'⟩ := do_eq_ok.1 hb
    exact ⟨idx, (Except.ok.inj hc').symm, (buildIndex_scan ht (do_eq_ok.2 ⟨rows, hrows, hb⟩)).1⟩
  have hnone : ∀ c ∉ t.tmeta.indexes.map Prod.fst, idxs' (t.tmeta.name, c) = none := by
    intro c hc
    rw [hout (t.tmeta.name, c) (.inr hc), hold]
  refine ⟨hcols, fun c => ?_, fun c idx hc => ?_⟩
  · by_cases hc : c ∈ t.tmeta.indexes.map Prod.fst
    · obtain ⟨idx, hidx, -⟩ := hnew c hc
      rw [hidx, iff_true_right hc]
      rfl
    · rw [hnone c hc, iff_false_right hc]
      simp
  · by_cases hcm : c ∈ t.tmeta.indexes.map Prod.fst
    · obtain ⟨idx', hidx', hok⟩ := hnew c hcm
      rw [hc] at hidx'
      cases hidx'
      exact hok
    · rw [hnone c hcm] at hc
      cases hc

theorem ok_rebuildIndexes {tables : List Stored} {idxs : Indexes} (hn : (tables.map (·.tmeta.name)).Nodup)
    (ht : ∀ t ∈ tables, t.Ok ∧ (t.tmeta.indexes.map Prod.fst).Nodup) (h : rebuildIndexes tables = .ok idxs) :
    Ok ⟨tables, idxs⟩ := by
  have hloop : ∀ (rest done : List Stored) (idxs₀ : Indexes), Ok ⟨done, idxs₀⟩ →
      ((done ++ rest).map (·.tmeta.name)).Nodup → (∀ t ∈ rest, t.Ok ∧ (t.tmeta.indexes.map Prod.fst).Nodup) →
      rest.foldlM (fun idxs t =>
        forIndexes t.tmeta.name (fun col _ => do return some (← buildIndex t.tmeta col (← t.scanTable)))
          (t.tmeta.indexes.map Prod.fst) idxs) idxs₀ = Except.ok idxs → Ok ⟨done ++ rest, idxs⟩ := by
    intro rest
    induction rest with
    | nil =>
      intro done idxs₀ h₀ _ _ h
      cases h
      simpa using h₀
    | cons t rest ih =>
      intro done idxs₀ h₀ hn ht h
      rw [List.foldlM_cons] at h
      obtain ⟨idxs₁, h₁, h⟩ := do_eq_ok.1 h
      obtain ⟨⟨htok, hcols⟩, ht⟩ := List.forall_mem_cons.1 ht
      rw [List.append_cons] at hn ⊢
      refine ih _ idxs₁ ?_ hn ht h
      obtain ⟨-, hout⟩ := forIndexes_ok hcols h₁
      have hname : t.tmeta.name ∉ done.map (·.tmeta.name) := by
        rw [List.map_append, List.map_append] at hn
        have := (List.nodup_append.1 (List.nodup_append.1 hn).1).2.2
        exact fun hm => this _ hm _ (by simp) rfl
      refine ⟨(List.nodup_append.1 (List.map_append ▸ hn)).1, fun t' ht' => ?_, fun key hkey => ?_⟩
      · rcases List.mem_append.1 ht' with ht' | ht'
        · obtain ⟨h1, h2⟩ := h₀.tables t' ht'
          exact ⟨h1, h2.frame fun c => hout _ (.inl fun e => hname (e ▸ List.mem_map_of_mem ht'))⟩
        · obtain rfl := List.mem_singleton.1 ht'
          have hold : ∀ c, idxs₀ (t'.tmeta.name, c) = none := by
            intro c
            rw [← Option.not_isSome_iff_eq_none]
            exact fun hc => hname (h₀.known _ hc)
          exact ⟨htok, indexesOk_rebuilt htok hcols hold h₁⟩
      · rw [List.map_append, List.mem_append]
        by_cases hk : key.1 = t.tmeta.name
        · exact .inr (by simp [hk])
        · exact .inl (h₀.known key ((congrArg Option.isSome (hout key (.inl hk))).symm.trans hkey))
  have hempty : Ok ⟨[], fun _ => none⟩ := ⟨by simp, by simp, by simp⟩
  exact hloop tables [] _ hempty hn ht h

theorem ok_reopen (h : s.Ok) (hx : reopen s = .ok u s') : s'.Ok := by
  unfold reopen at hx
  simp only [Exec.bind_eq_ok, Exec.get_eq_ok, Exec.lift_eq_ok, Exec.set_eq_ok] at hx
  obtain ⟨_, _, ⟨rfl, rfl⟩, idxs, _, ⟨hidx, rfl⟩, rfl⟩ := hx
  exact ok_rebuildIndexes h.names (fun t ht => ⟨(h.tables t ht).table, (h.tables t ht).indexes.cols_nodup⟩) hidx

/-- One operation that completes normally. -/
theorem ok_step {op : Op} (h : s.Ok) (hx : step lib s op = some s') : s'.Ok := by
  rw [step] at hx
  split at hx
  swap
  · cases hx
  rename_i hop
  cases hx
  rcases op with stmt | stmt | stmt | ⟨table, rows⟩ | table | ⟨root, name, specs⟩ | name | ⟨name, table, column⟩ | name | _
  · exact ok_insert h hop
  · exact ok_update h hop
  · exact ok_delete h hop
  · exact ok_bulkInsert h hop
  · exact ok_vacuum h hop
  · exact ok_createTable h hop
  · exact ok_dropTable h hop
  · exact ok_createIndex h hop
  · exact ok_dropIndex h hop
  · exact ok_reopen h hop

theorem ok_empty : Ok empty := ⟨by simp [empty], by simp [empty], by simp [empty]⟩

/-- The index of an INT or TEXT column is the inverse of the column, and a table has exactly the indexes
its catalog entry lists. -/
def IndexesAgree (s : Database) : Prop :=
  ∀ t ∈ s.tables, ∀ c,
    ((s.indexes (t.tmeta.name, c)).isSome = true ↔ c ∈ t.tmeta.indexes.map Prod.fst) ∧
    ∀ idx j, s.indexes (t.tmeta.name, c) = some idx → t.tmeta.colnames.idxOf? c = some j →
      t.tmeta.types[j]? ≠ some .float →
      (∀ v, v ≠ .none → (idx.get v).Nodup ∧ ∀ rid, rid ∈ idx.get v ↔
        ∃ row x, (rid, row) ∈ t.rows ∧ row[j]? = some x ∧ x.pyEq v = true) ∧
      idx.Pairwise fun a b => a.2.Disjoint b.2

theorem Ok.indexesAgree (h : s.Ok) : s.IndexesAgree := by
  intro t ht c
  obtain ⟨htable, hidxs⟩ := h.tables t ht
  refine ⟨hidxs.isSome_iff c, fun idx j hidx hj hfloat => ?_⟩
  have hok := hidxs.ok c idx hidx
  refine ⟨fun v hv => ⟨Buckets.nodup_get hok.nodup v, fun rid => ?_⟩,
    hok.disjoint (fun rid row row' => htable.eq_of_mem rid) hj hfloat⟩
  rw [(hok.agrees j hj hfloat).2]
  refine exists_congr fun row => exists_congr fun x => and_congr_right fun _ => and_congr_right fun _ =>
    and_iff_right_of_imp fun hx hnone => ?_
  rw [hnone, Value.pyEq_symm, Value.pyEq_none] at hx
  exact hv hx

theorem indexesAgree_of_run {ops : List Op} (h : Run (step lib) (fun _ _ => True) empty ops s) : s.IndexesAgree :=
  (h.invariant (fun _ _ _ ho _ hs => ok_step ho hs) ok_empty).indexesAgree

/-- `CREATE TABLE t (a INT PRIMARY KEY, b TEXT)`, two rows, `CREATE INDEX i ON t (b)`, a DELETE. -/
def sampleOps : List Op :=
  [.createTable 1 "t" [⟨"a", "INT", true⟩, ⟨"b", "TEXT", false⟩],
   .insert ⟨"t", none, [[.literal (.int 1), .literal (.str "x")], [.literal (.int 2), .literal (.str "x")]]⟩,
   .createIndex "i" "t" "b",
   .delete ⟨"t", some (.binop .eq (.column "b" none) (.literal (.str "x")))⟩,
   .insert ⟨"t", none, [[.literal .none, .literal (.str "x")]]⟩]

theorem run_of_foldlM {ops : List Op} (h : ops.foldlM (step lib) s = some s') :
    Run (step lib) (fun _ _ => True) s ops s' := by
  induction ops generalizing s with
  | nil =>
    cases h
    exact .nil _
  | cons op ops ih =>
    rw [List.foldlM_cons] at h
    obtain ⟨t, ht, h⟩ := Option.bind_eq_some_iff.1 h
    exact .cons trivial ht (ih h)

theorem indexesAgree_sampleOps : ∃ s, sampleOps.foldlM (step plainLib) empty = some s ∧
    s.indexes ("t", "b") = some [(.str "x", [3])] ∧ s.IndexesAgree := by
  have h : (sampleOps.foldlM (step plainLib) empty).any
      fun s => decide (s.indexes ("t", "b") = some [(.str "x", [3])]) := by decide +kernel
  obtain ⟨s, hs, hidx⟩ := (Option.any_eq_true _ _).1 h
  exact ⟨s, hs, of_decide_eq_true hidx, indexesAgree_of_run (run_of_foldlM hs)⟩

end Database

end LeafDb
