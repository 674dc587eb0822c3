import LeafDb.Sql.Engine
import LeafDb.Sql.Join

/-!
# What index maintenance does to one table

`IndexesOk m S idxs`: the entries of `idxs` for the table `m` are the indexes its catalog entry lists, and
each agrees with the rows `S`. `_index_add` and `_index_remove` follow a row that enters or leaves `S`.
-/

namespace LeafDb

/-! ### Buckets -/

namespace Buckets

variable {d : Buckets Int} {k : Value} {rid : Int}

theorem mem_get_insert {v : Value} {rid' : Int} :
    rid' ∈ (d.insert k rid).get v ↔ rid' ∈ d.get v ∨ k.pyEq v = true ∧ rid' = rid := by
  induction d with
  | nil => rcases hk : k.pyEq v <;> simp [insert, get, hk]
  | cons e d ih =>
    rw [insert]
    split
    · rename_i hek
      have hev : e.1.pyEq v = k.pyEq v := by
        rw [Bool.eq_iff_iff]
        exact ⟨Value.pyEq_trans (by rw [Value.pyEq_symm]; exact hek), Value.pyEq_trans hek⟩
      rcases hkv : k.pyEq v <;> simp [get, hev, hkv, or_comm]
    · rename_i hek
      rcases hev : e.1.pyEq v
      · simpa [get, hev] using ih
      · have hkv : ¬k.pyEq v = true := by
          intro hkv
          rw [Value.pyEq_symm] at hkv
          exact hek (Value.pyEq_trans hev hkv)
        simp [get, hev, hkv]

theorem mem_get_discard (hd : ∀ e ∈ d, e.2.Nodup) {v : Value} {rid' : Int} :
    rid' ∈ (d.discard k rid).get v ↔ rid' ∈ d.get v ∧ ¬(k.pyEq v = true ∧ rid' = rid) := by
  induction d with
  | nil => simp [discard, get]
  | cons e d ih =>
    rw [discard]
    split
    · rename_i hek
      have hev : e.1.pyEq v = k.pyEq v := by
        rw [Bool.eq_iff_iff]
        exact ⟨Value.pyEq_trans (by rw [Value.pyEq_symm]; exact hek), Value.pyEq_trans hek⟩
      rcases hkv : k.pyEq v <;> simp [get, hev, hkv, (hd e (by simp)).mem_erase_iff, and_comm]
    · rename_i hek
      rcases hev : e.1.pyEq v
      · simpa [get, hev] using ih fun e he => hd e (by simp [he])
      · have hkv : ¬k.pyEq v = true := by
          intro hkv
          rw [Value.pyEq_symm] at hkv
          exact hek (Value.pyEq_trans hev hkv)
        simp [get, hev, hkv]

theorem keys_insert (d : Buckets Int) (k : Value) (rid : Int) : (d.insert k rid).map Prod.fst = d.map Prod.fst ∨
    (d.insert k rid).map Prod.fst = d.map Prod.fst ++ [k] ∧ ∀ e ∈ d, e.1.pyEq k = false := by
  induction d with
  | nil => simp [insert]
  | cons e d ih =>
    rw [insert]
    split
    · simp
    · rename_i hek
      rcases ih with h | ⟨h, hall⟩
      · simp [h]
      · exact .inr ⟨by simp [h], by simpa [hek] using hall⟩

@[simp] theorem keys_discard : (d.discard k rid).map Prod.fst = d.map Prod.fst := by
  induction d with
  | nil => rfl
  | cons e d ih =>
    rw [discard]
    split <;> simp [ih]

theorem nodup_insert (hd : ∀ e ∈ d, e.2.Nodup) : ∀ e ∈ d.insert k rid, e.2.Nodup := by
  induction d with
  | nil => simp [insert]
  | cons e d ih =>
    obtain ⟨he, hd⟩ := List.forall_mem_cons.1 hd
    rw [insert]
    split
    · exact List.forall_mem_cons.2 ⟨he.insert, hd⟩
    · exact List.forall_mem_cons.2 ⟨he, ih hd⟩

theorem nodup_discard (hd : ∀ e ∈ d, e.2.Nodup) : ∀ e ∈ d.discard k rid, e.2.Nodup := by
  induction d with
  | nil => simp [discard]
  | cons e d ih =>
    obtain ⟨he, hd⟩ := List.forall_mem_cons.1 hd
    rw [discard]
    split
    · exact List.forall_mem_cons.2 ⟨he.erase _, hd⟩
    · exact List.forall_mem_cons.2 ⟨he, ih hd⟩

theorem nodup_get (hd : ∀ e ∈ d, e.2.Nodup) (v : Value) : (d.get v).Nodup := by
  rw [get]
  split
  · rename_i e he
    exact hd e (List.mem_of_find?_eq_some he)
  · exact List.nodup_nil

theorem get_of_mem (hk : (d.map Prod.fst).Pairwise fun a b => a.pyEq b = false) {e : Value × List Int} (he : e ∈ d)
    (hself : e.1.pyEq e.1 = true) : d.get e.1 = e.2 := by
  induction d with
  | nil => cases he
  | cons e' d ih =>
    obtain ⟨hne, hk⟩ := List.pairwise_cons.1 hk
    rcases List.mem_cons.1 he with rfl | he
    · simp [get, hself]
    · have := hne e.1 (List.mem_map_of_mem he)
      rw [← ih hk he]
      simp [get, this]

end Buckets

/-! ### One index -/

/-- A lookup in the index finds the rowids of the rows of `S` with an equal value in column `j`. -/
def FindsAt (S : Set (Int × Row)) (j : Nat) (idx : Buckets Int) : Prop :=
  ∀ v rid, rid ∈ idx.get v ↔ ∃ row x, (rid, row) ∈ S ∧ row[j]? = some x ∧ x ≠ .none ∧ x.pyEq v = true

namespace FindsAt

variable {S : Set (Int × Row)} {j : Nat} {idx : Buckets Int} {rid : Int} {row : Row} {v : Value}

theorem insert (rid : Int) (h : FindsAt S j idx) (hv : row[j]? = some v) :
    FindsAt (Insert.insert (rid, row) S) j (if v = .none then idx else idx.insert v rid) := by
  have hex : ∀ (u : Value) (rid' : Int),
      (∃ row' x, (rid', row') ∈ (Insert.insert (rid, row) S : Set (Int × Row)) ∧ row'[j]? = some x ∧ x ≠ .none ∧ x.pyEq u = true) ↔
      (∃ row' x, (rid', row') ∈ S ∧ row'[j]? = some x ∧ x ≠ .none ∧ x.pyEq u = true) ∨
        (v ≠ .none ∧ v.pyEq u = true ∧ rid' = rid) := by
    intro u rid'
    constructor
    · rintro ⟨row', x, hm | hm, hx, hne, heq⟩
      · cases hm
        rw [hv] at hx
        cases hx
        exact .inr ⟨hne, heq, rfl⟩
      · exact .inl ⟨row', x, hm, hx, hne, heq⟩
    · rintro (⟨row', x, hm, hx, hne, heq⟩ | ⟨hne, heq, rfl⟩)
      · exact ⟨row', x, .inr hm, hx, hne, heq⟩
      · exact ⟨row, v, .inl rfl, hv, hne, heq⟩
  intro u rid'
  split
  · rename_i hnone
    rw [hex, h]
    simp [hnone]
  · rename_i hnone
    rw [hex, Buckets.mem_get_insert, h]
    simp [hnone]

theorem discard (h : FindsAt S j idx) (hd : ∀ e ∈ idx, e.2.Nodup) (hS : ∀ row', (rid, row') ∈ S → row' = row)
    (hv : row[j]? = some v) :
    FindsAt {r | r ∈ S ∧ r.1 ≠ rid} j (if v = .none then idx else idx.discard v rid) := by
  have hex : ∀ (u : Value) (rid' : Int),
      (∃ row' x, (rid', row') ∈ {r | r ∈ S ∧ r.1 ≠ rid} ∧ row'[j]? = some x ∧ x ≠ .none ∧ x.pyEq u = true) ↔
      (∃ row' x, (rid', row') ∈ S ∧ row'[j]? = some x ∧ x ≠ .none ∧ x.pyEq u = true) ∧
        ¬(v ≠ .none ∧ v.pyEq u = true ∧ rid' = rid) := by
    intro u rid'
    constructor
    · rintro ⟨row', x, ⟨hm, hne'⟩, hx, hne, heq⟩
      exact ⟨⟨row', x, hm, hx, hne, heq⟩, fun hc => hne' hc.2.2⟩
    · rintro ⟨⟨row', x, hm, hx, hne, heq⟩, hc⟩
      refine ⟨row', x, ⟨hm, ?_⟩, hx, hne, heq⟩
      rintro rfl
      rw [hS row' hm, hv] at hx
      cases hx
      exact hc ⟨hne, heq, rfl⟩
  intro u rid'
  split
  · rename_i hnone
    rw [hex, h]
    simp [hnone]
  · rename_i hnone
    rw [hex, Buckets.mem_get_discard hd, h]
    simp [hnone]

end FindsAt

/-- The index of one column. A value of a FLOAT column may be NaN, which is not equal to itself. -/
structure IndexOk (m : TableMeta) (S : Set (Int × Row)) (col : String) (idx : Buckets Int) : Prop where
  keys : (idx.map Prod.fst).Pairwise fun a b => a.pyEq b = false
  nodup : ∀ e ∈ idx, e.2.Nodup
  agrees : ∀ j, m.colnames.idxOf? col = some j → m.types[j]? ≠ some .float →
    (∀ k ∈ idx.map Prod.fst, k.pyEq k = true) ∧
    ∀ v rid, rid ∈ idx.get v ↔ ∃ row x, (rid, row) ∈ S ∧ row[j]? = some x ∧ x ≠ .none ∧ x.pyEq v = true

theorem columnValue_eq_ok {m : TableMeta} {row : Row} {col : String} {v : Value} :
    columnValue m row col = .ok v ↔ ∃ j, m.colnames.idxOf? col = some j ∧ row[j]? = some v := by
  rw [columnValue, do_eq_ok]
  refine exists_congr fun j => and_congr ?_ ?_
  · rw [TableMeta.columnIndex]
    rcases m.colnames.idxOf? col with _ | i <;> simp
  · rcases row[j]? with _ | w <;> simp [throw, throwThe, MonadExceptOf.throw, pure, Except.pure]

theorem HasType.pyEq_self {t : ColType} {v : Value} (h : HasType t v) (ht : t ≠ .float) : v.pyEq v = true := by
  rcases t <;> rcases v with _ | b | i | f | s <;>
    first | exact absurd rfl ht | cases h; done | simp [Value.pyEq, Value.ext, Ext.eq]

theorem types_getElem? {m : TableMeta} {col : String} {j : Nat} (hj : m.colnames.idxOf? col = some j) :
    ∃ t, m.types[j]? = some t := by
  have hlt : j < m.colnames.length := (List.idxOf?_eq_some_iff.1 hj).1
  have hlt' : j < m.types.length := by
    rw [TableMeta.types, List.length_map]
    rwa [TableMeta.colnames, List.length_map] at hlt
  exact ⟨_, List.getElem?_eq_getElem hlt'⟩

namespace IndexOk

variable {m : TableMeta} {S : Set (Int × Row)} {col : String} {idx : Buckets Int} {rid : Int} {row : Row} {v : Value}

theorem empty : IndexOk m ∅ col [] := by
  refine ⟨.nil, by simp, fun j _ _ => ⟨by simp, ?_⟩⟩
  simp [Buckets.get]

theorem insert (h : IndexOk m S col idx) (rid : Int) (hrow : List.Forall₂ HasType m.types row)
    (hv : columnValue m row col = .ok v) :
    IndexOk m (Insert.insert (rid, row) S) col (if v = .none then idx else idx.insert v rid) := by
  obtain ⟨j, hj, hv⟩ := columnValue_eq_ok.1 hv
  refine ⟨?_, ?_, fun j' hj' ht => ?_⟩
  · split
    · exact h.keys
    · rcases Buckets.keys_insert idx v rid with hk | ⟨hk, hne⟩
      · rw [hk]
        exact h.keys
      · rw [hk, List.pairwise_append]
        refine ⟨h.keys, by simp, ?_⟩
        simpa using fun k b hb => hne (k, b) hb
  · split
    · exact h.nodup
    · exact Buckets.nodup_insert h.nodup
  · rw [hj] at hj'
    cases hj'
    obtain ⟨hself, hmem⟩ := h.agrees j hj ht
    refine ⟨?_, FindsAt.insert rid hmem hv⟩
    obtain ⟨t, htj⟩ := types_getElem? hj
    obtain ⟨x, hx, hxt⟩ := forall₂_getElem? hrow htj
    rw [hv] at hx
    cases hx
    have hvv : v.pyEq v = true := hxt.pyEq_self fun e => ht (e ▸ htj)
    split
    · exact hself
    · rcases Buckets.keys_insert idx v rid with hk | ⟨hk, -⟩
      · rwa [hk]
      · rw [hk]
        intro k hkm
        rcases List.mem_append.1 hkm with hkm | hkm
        · exact hself k hkm
        · rw [List.mem_singleton.1 hkm]
          exact hvv

theorem discard (h : IndexOk m S col idx) (hS : ∀ row', (rid, row') ∈ S → row' = row)
    (hv : columnValue m row col = .ok v) :
    IndexOk m {r | r ∈ S ∧ r.1 ≠ rid} col (if v = .none then idx else idx.discard v rid) := by
  obtain ⟨j, hj, hv⟩ := columnValue_eq_ok.1 hv
  refine ⟨?_, ?_, fun j' hj' ht => ?_⟩
  · split
    · exact h.keys
    · rw [Buckets.keys_discard]
      exact h.keys
  · split
    · exact h.nodup
    · exact Buckets.nodup_discard h.nodup
  · rw [hj] at hj'
    cases hj'
    obtain ⟨hself, hmem⟩ := h.agrees j hj ht
    refine ⟨?_, FindsAt.discard hmem h.nodup hS hv⟩
    split
    · exact hself
    · rwa [Buckets.keys_discard]

/-- A rowid is in one bucket only. -/
theorem disjoint (h : IndexOk m S col idx) (hS : ∀ rid row row', (rid, row) ∈ S → (rid, row') ∈ S → row = row')
    {j : Nat} (hj : m.colnames.idxOf? col = some j) (ht : m.types[j]? ≠ some .float) :
    idx.Pairwise fun a b => a.2.Disjoint b.2 := by
  obtain ⟨hself, hmem⟩ := h.agrees j hj ht
  refine List.Pairwise.imp_of_mem ?_ (List.pairwise_map.1 h.keys)
  intro a b ha hb hab rid hra hrb
  rw [← Buckets.get_of_mem h.keys ha (hself _ (List.mem_map_of_mem ha))] at hra
  rw [← Buckets.get_of_mem h.keys hb (hself _ (List.mem_map_of_mem hb))] at hrb
  obtain ⟨row, x, hr, hx, -, hxa⟩ := (hmem _ _).1 hra
  obtain ⟨row', x', hr', hx', -, hxb⟩ := (hmem _ _).1 hrb
  rw [hS _ _ _ hr hr', hx'] at hx
  cases hx
  rw [Value.pyEq_symm] at hxa
  rw [Value.pyEq_trans hxa hxb] at hab
  cases hab

end IndexOk

/-! ### The indexes of a table -/

structure IndexesOk (m : TableMeta) (S : Set (Int × Row)) (idxs : Indexes) : Prop where
  cols_nodup : (m.indexes.map Prod.fst).Nodup
  isSome_iff : ∀ c, (idxs (m.name, c)).isSome = true ↔ c ∈ m.indexes.map Prod.fst
  ok : ∀ c idx, idxs (m.name, c) = some idx → IndexOk m S c idx

theorem forIndexes_ok {name : String}
    {change : String → Option (Buckets Int) → Except PyError (Option (Buckets Int))} {cols : List String}
    {idxs idxs' : Indexes} (hn : cols.Nodup) (h : forIndexes name change cols idxs = .ok idxs') :
    (∀ c ∈ cols, change c (idxs (name, c)) = .ok (idxs' (name, c))) ∧
      ∀ key, key.1 ≠ name ∨ key.2 ∉ cols → idxs' key = idxs key := by
  induction cols generalizing idxs with
  | nil =>
    cases h
    simp
  | cons c cols ih =>
    rw [forIndexes, List.foldlM_cons] at h
    obtain ⟨idxs₁, h₁, h⟩ := do_eq_ok.1 h
    obtain ⟨b, hb, h₁⟩ := do_eq_ok.1 h₁
    cases h₁
    obtain ⟨hc, hn⟩ := List.nodup_cons.1 hn
    obtain ⟨hin, hout⟩ := ih hn h
    constructor
    · intro c' hc'
      rcases List.mem_cons.1 hc' with rfl | hc'
      · rw [hb, hout _ (.inr hc), Function.update_self]
      · have hne : (name, c') ≠ (name, c) := fun e => hc (by rw [← (Prod.mk.inj e).2]; exact hc')
        have := hin c' hc'
        rwa [Function.update_of_ne hne] at this
    · intro key hkey
      have hne : key ≠ (name, c) := by
        rintro rfl
        simp at hkey
      rw [hout key (hkey.imp_right fun h hm => h (List.mem_cons_of_mem _ hm)), Function.update_of_ne hne]

namespace IndexesOk

variable {m m' : TableMeta} {S : Set (Int × Row)} {idxs idxs' : Indexes} {rid : Int} {row : Row}

/-- Only the name, the columns and the list of indexes of the entry matter. -/
theorem of_meta (h : IndexesOk m S idxs) (hn : m'.name = m.name) (hc : m'.columns = m.columns)
    (hi : m'.indexes = m.indexes) : IndexesOk m' S idxs := by
  have hcol : m'.colnames = m.colnames := by rw [TableMeta.colnames, TableMeta.colnames, hc]
  have htyp : m'.types = m.types := by rw [TableMeta.types, TableMeta.types, hc]
  refine ⟨hi ▸ h.cols_nodup, by rw [hn, hi]; exact h.isSome_iff, fun c idx hidx => ?_⟩
  rw [hn] at hidx
  obtain ⟨h1, h2, h3⟩ := h.ok c idx hidx
  exact ⟨h1, h2, by rw [hcol, htyp]; exact h3⟩

/-- Entries of other tables do not matter. -/
theorem frame (h : IndexesOk m S idxs) (hf : ∀ c, idxs' (m.name, c) = idxs (m.name, c)) : IndexesOk m S idxs' :=
  ⟨h.cols_nodup, fun c => by rw [hf, h.isSome_iff], fun c idx hidx => h.ok c idx (by rw [← hf, hidx])⟩

/-- A loop over the indexes that brings each of them up to date: `P` held of each and `Q` holds of its new value. -/
theorem changed_forall {P Q : String → Buckets Int → Prop}
    {change : String → Option (Buckets Int) → Except PyError (Option (Buckets Int))} (h : IndexesOk m S idxs)
    (hP : ∀ c idx, idxs (m.name, c) = some idx → P c idx)
    (hc : ∀ c old new, P c old → change c (some old) = .ok new → ∃ idx, new = some idx ∧ Q c idx)
    (ha : forIndexes m.name change (m.indexes.map Prod.fst) idxs = .ok idxs') :
    (∀ c, (idxs' (m.name, c)).isSome = true ↔ c ∈ m.indexes.map Prod.fst) ∧
      (∀ c idx, idxs' (m.name, c) = some idx → Q c idx) ∧ ∀ key, key.1 ≠ m.name → idxs' key = idxs key := by
  obtain ⟨hin, hout⟩ := forIndexes_ok h.cols_nodup ha
  have hnew : ∀ c ∈ m.indexes.map Prod.fst, ∃ idx, idxs' (m.name, c) = some idx ∧ Q c idx := by
    intro c hcm
    obtain ⟨old, hold⟩ := Option.isSome_iff_exists.1 ((h.isSome_iff c).2 hcm)
    exact hc c old _ (hP c old hold) (hold ▸ hin c hcm)
  refine ⟨fun c => ?_, fun c idx hidx => ?_, fun key hkey => hout key (.inl hkey)⟩
  · by_cases hcm : c ∈ m.indexes.map Prod.fst
    · obtain ⟨idx, hidx, -⟩ := hnew c hcm
      simp [hidx, hcm]
    · rw [hout _ (.inr hcm), h.isSome_iff]
  · by_cases hcm : c ∈ m.indexes.map Prod.fst
    · obtain ⟨idx', hidx', hok⟩ := hnew c hcm
      rw [hidx] at hidx'
      cases hidx'
      exact hok
    · have hs := h.isSome_iff c
      rw [← hout _ (.inr hcm), hidx] at hs
      exact absurd (hs.1 rfl) hcm

theorem add (h : IndexesOk m S idxs) (hrow : List.Forall₂ HasType m.types row)
    (ha : indexAdd m rid row idxs = .ok idxs') :
    IndexesOk m (insert (rid, row) S) idxs' ∧ ∀ key, key.1 ≠ m.name → idxs' key = idxs key := by
  obtain ⟨hsome, hok, hframe⟩ := h.changed_forall h.ok (Q := IndexOk m (insert (rid, row) S)) (fun c old new hold hnew => by
    obtain ⟨v, hval, hv⟩ := do_eq_ok.1 hnew
    have hok := hold.insert rid hrow hval
    cases hv
    split at hok
    · exact ⟨old, by simp_all, hok⟩
    · exact ⟨old.insert v rid, by simp_all, hok⟩) ha
  exact ⟨⟨h.cols_nodup, hsome, hok⟩, hframe⟩

theorem remove (h : IndexesOk m S idxs) (hS : ∀ row', (rid, row') ∈ S → row' = row)
    (ha : indexRemove m rid row idxs = .ok idxs') :
    IndexesOk m {r | r ∈ S ∧ r.1 ≠ rid} idxs' ∧ ∀ key, key.1 ≠ m.name → idxs' key = idxs key := by
  obtain ⟨hsome, hok, hframe⟩ := h.changed_forall h.ok (Q := IndexOk m {r | r ∈ S ∧ r.1 ≠ rid}) (fun c old new hold hnew => by
    obtain ⟨v, hval, hv⟩ := do_eq_ok.1 hnew
    have hok := hold.discard hS hval
    cases hv
    split at hok
    · exact ⟨old, by simp_all, hok⟩
    · exact ⟨old.discard v rid, by simp_all, hok⟩) ha
  exact ⟨⟨h.cols_nodup, hsome, hok⟩, hframe⟩

end IndexesOk

/-! ### What lookups find -/

/-- Every index of the table finds the rows `S`, a FLOAT column included. -/
def Finds (m : TableMeta) (S : Set (Int × Row)) (idxs : Indexes) : Prop :=
  ∀ c idx, idxs (m.name, c) = some idx → ∀ j, m.colnames.idxOf? c = some j → FindsAt S j idx

namespace Finds

variable {m : TableMeta} {S : Set (Int × Row)} {idxs idxs' : Indexes} {rid : Int} {row : Row}

theorem of_meta (m' : TableMeta) (h : Finds m S idxs) (hn : m'.name = m.name) (hc : m'.columns = m.columns) :
    Finds m' S idxs := by
  have hcol : m'.colnames = m.colnames := by rw [TableMeta.colnames, TableMeta.colnames, hc]
  intro c idx hidx
  rw [hn] at hidx
  rw [hcol]
  exact h c idx hidx

theorem frame (h : Finds m S idxs) (hf : ∀ c, idxs' (m.name, c) = idxs (m.name, c)) : Finds m S idxs' :=
  fun c idx hidx => h c idx (by rw [← hf, hidx])

theorem add (h : Finds m S idxs) (hidx : IndexesOk m S idxs) (ha : indexAdd m rid row idxs = .ok idxs') :
    Finds m (insert (rid, row) S) idxs' := by
  refine (hidx.changed_forall h (Q := fun c idx => ∀ j, m.colnames.idxOf? c = some j → FindsAt (insert (rid, row) S) j idx)
    (fun c old new hold hnew => ?_) ha).2.1
  obtain ⟨v, hval, hv⟩ := do_eq_ok.1 hnew
  obtain ⟨j, hj, hval⟩ := columnValue_eq_ok.1 hval
  have hins := (hold j hj).insert rid hval
  cases hv
  split at hins
  · refine ⟨old, by simp_all, fun j' hj' => ?_⟩
    rw [hj] at hj'
    cases hj'
    exact hins
  · refine ⟨old.insert v rid, by simp_all, fun j' hj' => ?_⟩
    rw [hj] at hj'
    cases hj'
    exact hins

theorem remove (h : Finds m S idxs) (hidx : IndexesOk m S idxs) (hS : ∀ row', (rid, row') ∈ S → row' = row)
    (ha : indexRemove m rid row idxs = .ok idxs') : Finds m {r | r ∈ S ∧ r.1 ≠ rid} idxs' := by
  refine (hidx.changed_forall (P := fun c idx => (∀ e ∈ idx, e.2.Nodup) ∧ ∀ j, m.colnames.idxOf? c = some j → FindsAt S j idx)
    (fun c idx hc => ⟨(hidx.ok c idx hc).nodup, h c idx hc⟩)
    (Q := fun c idx => ∀ j, m.colnames.idxOf? c = some j → FindsAt {r | r ∈ S ∧ r.1 ≠ rid} j idx)
    (fun c old new hold hnew => ?_) ha).2.1
  obtain ⟨v, hval, hv⟩ := do_eq_ok.1 hnew
  obtain ⟨j, hj, hval⟩ := columnValue_eq_ok.1 hval
  have hdis := (hold.2 j hj).discard hold.1 hS hval
  cases hv
  split at hdis
  · refine ⟨old, by simp_all, fun j' hj' => ?_⟩
    rw [hj] at hj'
    cases hj'
    exact hdis
  · refine ⟨old.discard v rid, by simp_all, fun j' hj' => ?_⟩
    rw [hj] at hj'
    cases hj'
    exact hdis

end Finds

end LeafDb
