import LeafDb.Base.StableSort
import LeafDb.Sql.RunSelect

/-!
# ORDER BY, LIMIT and OFFSET

The loop of `run_select` sorts by one key after another, the last key first. `sortLoop` is that loop with
the comparisons that could raise; it returns `sortRows`, and by the stability of each sort the result is
ordered lexicographically by all keys (`sortFrom_keysLe`).
-/

namespace LeafDb

/-! ### The loop -/

/-- A tuple of `sort_wrap`. -/
structure SortKey where
  group : Nat
  kind : Nat
  value : Value

/-- `sort_wrap`. -/
def sortWrap : Value → SortKey
  | .none => ⟨0, 0, .int 0⟩
  | .bool b => ⟨2, 0, .int (if b then 1 else 0)⟩
  | .str s => ⟨1, 0, .str s⟩
  | v => ⟨1, 1, v⟩

namespace SortKey

/-- `a < b`: the first difference decides. A text and a number have no order. -/
def lt (a b : SortKey) : Except PyError Bool :=
  if a.group ≠ b.group then .ok (decide (a.group < b.group))
  else if a.kind ≠ b.kind then .ok (decide (a.kind < b.kind))
  else if a.value.isStr ≠ b.value.isStr then .error .typeError
  else .ok (a.value.pyLt b.value)

def less (a b : SortKey) : Bool := (a.lt b).toOption.getD false

end SortKey

/-- `item[1][p]`. -/
def Projected.keyAt (pos : Nat) (p : Projected) : Except PyError Value :=
  match p.keys[pos]? with
  | some v => .ok v
  | none => .error .indexError

/-- `projected.sort(key=..., reverse=desc)`. All keys are computed first, and only keys of the list are
compared with each other. -/
def sortStep (pos : Nat) (desc : Bool) (rows : List Projected) : Except PyError (List Projected) := do
  let keyed ← rows.mapM fun p => do return (sortWrap (← p.keyAt pos), p)
  let _ ← keyed.mapM fun a => keyed.mapM fun b => a.1.lt b.1
  return (keyed.mergeSort fun a b => if desc then !a.1.less b.1 else !b.1.less a.1).map Prod.snd

/-- `for pos in reversed(range(len(sel.order_by)))`. -/
def sortLoop (orderBy : List OrderItem) (rows : List Projected) : Except PyError (List Projected) :=
  (orderBy.zipIdx.reverse).foldlM (fun rows o => sortStep o.2 o.1.desc rows) rows

/-- The tuples of two values can always be compared. -/
theorem sortWrap_lt (a b : Value) : (sortWrap a).lt (sortWrap b) = .ok (sortLt a b) := by
  cases a <;> cases b <;> simp [sortWrap, SortKey.lt, sortLt, Value.isStr, Value.pyLt, Value.ext, Ext.lt]

theorem sortWrap_less (a b : Value) : (sortWrap a).less (sortWrap b) = sortLt a b := by
  rw [SortKey.less, sortWrap_lt]
  rfl

section Loop

variable {pos : Nat} {desc : Bool} {rows : List Projected} {orderBy : List OrderItem}

theorem keyAt_eq {p : Projected} (h : pos < p.keys.length) : p.keyAt pos = .ok (p.keys.getD pos .none) := by
  rw [Projected.keyAt, List.getElem?_eq_getElem h, List.getD_eq_getElem _ _ h]

/-- One sort raises nothing. -/
theorem sortStep_eq (h : ∀ p ∈ rows, pos < p.keys.length) : sortStep pos desc rows = .ok (sortBy pos desc rows) := by
  let keyed := rows.map fun p => (sortWrap (p.keys.getD pos .none), p)
  have hkeyed : (rows.mapM fun p => do return (sortWrap (← p.keyAt pos), p)) = Except.ok keyed := by
    rw [mapM_eq_ok, List.forall₂_map_right_iff, List.forall₂_same]
    intro p hp
    rw [keyAt_eq (h p hp)]
    rfl
  have hcompared : ∀ a ∈ keyed, ∀ b ∈ keyed, a.1.lt b.1 = .ok (a.1.less b.1) := by
    intro a ha b hb
    obtain ⟨p, -, rfl⟩ := List.mem_map.1 ha
    obtain ⟨q, -, rfl⟩ := List.mem_map.1 hb
    rw [sortWrap_lt, sortWrap_less]
  have hpairs : (keyed.mapM fun a => keyed.mapM fun b => a.1.lt b.1) =
      Except.ok (keyed.map fun a => keyed.map fun b => a.1.less b.1) := by
    rw [mapM_eq_ok, List.forall₂_map_right_iff, List.forall₂_same]
    intro a ha
    rw [mapM_eq_ok, List.forall₂_map_right_iff, List.forall₂_same]
    exact hcompared a ha
  have hsorted : (keyed.mergeSort fun a b => if desc then !a.1.less b.1 else !b.1.less a.1) =
      (sortBy pos desc rows).map fun p => (sortWrap (p.keys.getD pos .none), p) := by
    rw [sortBy, List.map_mergeSort]
    intro p _ q _
    simp only [sortWrap_less]
  rw [sortStep, hkeyed]
  simp only [bind, Except.bind, hpairs, hsorted, List.map_map]
  exact congrArg Except.ok ((List.map_congr_left fun _ _ => rfl).trans (List.map_id _))

theorem sortBy_perm (pos : Nat) (desc : Bool) (rows : List Projected) : (sortBy pos desc rows).Perm rows :=
  List.mergeSort_perm ..

/-- The sorts by the keys from `pos` on. -/
def sortFrom (pos : Nat) (orderBy : List OrderItem) (rows : List Projected) : List Projected :=
  ((orderBy.zipIdx pos).reverse).foldl (fun rows o => sortBy o.2 o.1.desc rows) rows

@[simp] theorem sortFrom_nil : sortFrom pos [] rows = rows := rfl

@[simp] theorem sortFrom_cons {o : OrderItem} :
    sortFrom pos (o :: orderBy) rows = sortBy pos o.desc (sortFrom (pos + 1) orderBy rows) := by
  simp [sortFrom, List.zipIdx_cons, List.foldl_append]

theorem sortFrom_perm (pos : Nat) (orderBy : List OrderItem) (rows : List Projected) :
    (sortFrom pos orderBy rows).Perm rows := by
  induction orderBy generalizing pos with
  | nil => rfl
  | cons o orderBy ih =>
    rw [sortFrom_cons]
    exact (sortBy_perm ..).trans (ih _)

/-- The loop raises nothing and is `sortRows`. -/
theorem sortLoop_eq (h : ∀ p ∈ rows, p.keys.length = orderBy.length) : sortLoop orderBy rows = .ok (sortRows orderBy rows) := by
  suffices ∀ (sorts : List (OrderItem × Nat)) (rows : List Projected), (∀ o ∈ sorts, o.2 < orderBy.length) →
      (∀ p ∈ rows, p.keys.length = orderBy.length) →
      sorts.foldlM (fun rows o => sortStep o.2 o.1.desc rows) rows =
        Except.ok (sorts.foldl (fun rows o => sortBy o.2 o.1.desc rows) rows) by
    refine this _ rows (fun o ho => ?_) h
    obtain ⟨-, hlt, -⟩ := List.mem_zipIdx (List.mem_reverse.1 ho)
    omega
  intro sorts
  induction sorts with
  | nil => exact fun _ _ _ => rfl
  | cons o sorts ih =>
    intro rows hlt hlen
    rw [List.foldlM_cons, sortStep_eq fun p hp => (hlen p hp).symm ▸ hlt o List.mem_cons_self]
    refine ih _ (fun o' ho' => hlt o' (List.mem_cons_of_mem _ ho')) fun p hp => ?_
    exact hlen p ((sortBy_perm ..).mem_iff.1 hp)

end Loop

/-! ### The order -/

namespace Value

/-- NULL, integers and texts. -/
def Plain : Value → Prop
  | none => True
  | int _ => True
  | str _ => True
  | _ => False

/-- NULL first, then the texts in their order, then the integers in theirs. -/
def place : Value → WithBot (Lex (String ⊕ Int))
  | str s => ((toLex (Sum.inl s) : Lex (String ⊕ Int)) : WithBot (Lex (String ⊕ Int)))
  | int i => ((toLex (Sum.inr i) : Lex (String ⊕ Int)) : WithBot (Lex (String ⊕ Int)))
  | _ => ⊥

theorem Plain.eq_of_place {a b : Value} (ha : a.Plain) (hb : b.Plain) (h : a.place = b.place) : a = b := by
  cases a <;> cases b <;> simp_all [Plain, place]

end Value

theorem sortLt_iff {a b : Value} (ha : a.Plain) (hb : b.Plain) : sortLt a b = true ↔ a.place < b.place := by
  cases a <;> cases b <;> simp_all [Value.Plain, Value.place, sortLt, Value.pyLt, Value.ext, Ext.lt]

/-- The order of one key under ASC or DESC. -/
def OrderItem.Before (o : OrderItem) (a b : Value) : Prop := if o.desc then b.place < a.place else a.place < b.place

/-- Lexicographic order of the key lists: a row with the keys `ks` may stand before one with the keys `ks'`. -/
def KeysLe : List OrderItem → List Value → List Value → Prop
  | o :: os, k :: ks, k' :: ks' => o.Before k k' ∨ (k = k' ∧ KeysLe os ks ks')
  | _, _, _ => True

section Sorted

variable {pos : Nat} {desc : Bool} {rows : List Projected} {orderBy : List OrderItem}

/-- The comparison of `sortBy`. -/
def keyLe (pos : Nat) (desc : Bool) (p q : Projected) : Bool :=
  if desc then !sortLt (p.keys.getD pos .none) (q.keys.getD pos .none)
  else !sortLt (q.keys.getD pos .none) (p.keys.getD pos .none)

/-- Every row has a plain key at `pos`. -/
def PlainAt (pos : Nat) (rows : List Projected) : Prop := ∀ p ∈ rows, (p.keys.getD pos .none).Plain

theorem keyLe_iff {p q : Projected} (h : PlainAt pos rows) (hp : p ∈ rows) (hq : q ∈ rows) :
    keyLe pos desc p q = true ↔ if desc then (q.keys.getD pos .none).place ≤ (p.keys.getD pos .none).place
      else (p.keys.getD pos .none).place ≤ (q.keys.getD pos .none).place := by
  rw [keyLe]
  cases desc
  · rw [if_neg Bool.false_ne_true, if_neg Bool.false_ne_true, ← not_lt, ← sortLt_iff (h q hq) (h p hp), Bool.not_eq_true',
      Bool.not_eq_true]
  · rw [if_pos rfl, if_pos rfl, ← not_lt, ← sortLt_iff (h p hp) (h q hq), Bool.not_eq_true', Bool.not_eq_true]

theorem preorderOn_keyLe (h : PlainAt pos rows) : StableSort.PreorderOn (keyLe pos desc) rows where
  trans p hp q hq r hr hpq hqr := by
    rw [keyLe_iff h hp hq] at hpq
    rw [keyLe_iff h hq hr] at hqr
    rw [keyLe_iff h hp hr]
    cases desc
    · exact le_trans hpq hqr
    · exact le_trans hqr hpq
  total p hp q hq := by
    rw [keyLe_iff h hp hq, keyLe_iff h hq hp]
    cases desc
    · exact le_total _ _
    · exact le_total _ _

theorem PlainAt.perm {rows' : List Projected} (h : PlainAt pos rows) (hp : rows'.Perm rows) : PlainAt pos rows' :=
  fun p hm => h p (hp.mem_iff.1 hm)

/-- All keys of the rows are there and plain. -/
structure PlainKeys (n : Nat) (rows : List Projected) : Prop where
  length : ∀ p ∈ rows, p.keys.length = n
  plain : ∀ p ∈ rows, ∀ v ∈ p.keys, v.Plain

theorem PlainKeys.plainAt {n : Nat} (h : PlainKeys n rows) (hpos : pos < n) : PlainAt pos rows := by
  intro p hp
  have hlt : pos < p.keys.length := (h.length p hp).symm ▸ hpos
  rw [List.getD_eq_getElem _ _ hlt]
  exact h.plain p hp _ (List.getElem_mem hlt)

/-- A sort by one more key, in front of the keys the rows are sorted by. -/
theorem sortBy_keysLe {o : OrderItem} {n : Nat} (h : PlainKeys n rows) (hpos : pos < n)
    (hs : rows.Pairwise fun p q => KeysLe orderBy (p.keys.drop (pos + 1)) (q.keys.drop (pos + 1))) :
    (sortBy pos o.desc rows).Pairwise fun p q => KeysLe (o :: orderBy) (p.keys.drop pos) (q.keys.drop pos) := by
  have hplain := h.plainAt hpos
  refine ((preorderOn_keyLe hplain).pairwise_sort_of hs).imp_of_mem fun {p q} hp hq hpq => ?_
  have hp : p ∈ rows := (sortBy_perm pos o.desc rows).mem_iff.1 hp
  have hq : q ∈ rows := (sortBy_perm pos o.desc rows).mem_iff.1 hq
  have hlt : pos < p.keys.length := (h.length p hp).symm ▸ hpos
  have hlt' : pos < q.keys.length := (h.length q hq).symm ▸ hpos
  obtain ⟨hle, hrest⟩ := hpq
  rw [keyLe_iff hplain hp hq] at hle
  rw [keyLe_iff hplain hq hp] at hrest
  rw [List.getD_eq_getElem _ _ hlt, List.getD_eq_getElem _ _ hlt'] at hle hrest
  rw [List.drop_eq_getElem_cons hlt, List.drop_eq_getElem_cons hlt', KeysLe, OrderItem.Before]
  have heq (he : p.keys[pos].place = q.keys[pos].place) : p.keys[pos] = q.keys[pos] :=
    Value.Plain.eq_of_place (h.plain p hp _ (List.getElem_mem hlt)) (h.plain q hq _ (List.getElem_mem hlt')) he
  cases hd : o.desc
  · simp only [hd, Bool.false_eq_true, ↓reduceIte] at hle hrest ⊢
    rcases lt_or_eq_of_le hle with hlt | he
    · exact .inl hlt
    · exact .inr ⟨heq he, hrest he.ge⟩
  · simp only [hd, ↓reduceIte] at hle hrest ⊢
    rcases lt_or_eq_of_le hle with hlt | he
    · exact .inl hlt
    · exact .inr ⟨heq he.symm, hrest he.ge⟩

theorem PlainKeys.perm {n : Nat} {rows' : List Projected} (h : PlainKeys n rows) (hp : rows'.Perm rows) : PlainKeys n rows' where
  length p hm := h.length p (hp.mem_iff.1 hm)
  plain p hm := h.plain p (hp.mem_iff.1 hm)

/-- The loop sorts by all keys: induction on the keys, the last one first. -/
theorem sortFrom_keysLe {n : Nat} (h : PlainKeys n rows) (hn : pos + orderBy.length ≤ n) :
    (sortFrom pos orderBy rows).Pairwise fun p q => KeysLe orderBy (p.keys.drop pos) (q.keys.drop pos) := by
  induction orderBy generalizing pos with
  | nil => exact List.pairwise_of_forall fun _ _ => trivial
  | cons o orderBy ih =>
    rw [List.length_cons] at hn
    rw [sortFrom_cons]
    exact sortBy_keysLe (h.perm (sortFrom_perm ..)) (by omega) (ih (by omega))

/-- Rows with the same keys keep their order. -/
theorem sortFrom_filter {n : Nat} (h : PlainKeys n rows) (hn : pos + orderBy.length ≤ n) (ks : List Value) :
    (sortFrom pos orderBy rows).filter (fun p => p.keys = ks) = rows.filter fun p => p.keys = ks := by
  induction orderBy generalizing pos with
  | nil => rfl
  | cons o orderBy ih =>
    rw [List.length_cons] at hn
    have hpos : pos < n := by omega
    have hrest : pos + 1 + orderBy.length ≤ n := by omega
    have hplain := (h.perm (sortFrom_perm (pos + 1) orderBy rows)).plainAt hpos
    rw [sortFrom_cons, ← ih hrest]
    refine (preorderOn_keyLe hplain).filter_sort fun p hp q hq hpk hqk => ?_
    rw [keyLe_iff hplain hp hq, of_decide_eq_true hpk, of_decide_eq_true hqk]
    split <;> exact le_rfl

/-- `projected[start:end]`, position by position. -/
theorem slice_getElem? (sel : SelectStmt) (rows : List Projected) (i : Nat) :
    (slice sel rows)[i]? = if sel.limit?.all (i < ·) then rows[sel.offset?.getD 0 + i]? else none := by
  rw [slice]
  rcases sel.limit? with _ | n
  · simp
  · simp [List.getElem?_take]

end Sorted

/-- ORDER BY sorts stably by all keys, and LIMIT and OFFSET cut out a contiguous part. -/
theorem orderBy_sorts (orderBy : List OrderItem) (rows : List Projected)
    (hlen : ∀ p ∈ rows, p.keys.length = orderBy.length) (hplain : ∀ p ∈ rows, ∀ v ∈ p.keys, v.Plain) :
    ∃ sorted, sortLoop orderBy rows = .ok sorted ∧ sorted.Perm rows ∧
      sorted.Pairwise (fun p q => KeysLe orderBy p.keys q.keys) ∧
      (∀ ks, sorted.filter (fun p => p.keys = ks) = rows.filter fun p => p.keys = ks) ∧
      ∀ (sel : SelectStmt) (i : Nat),
        (slice sel sorted)[i]? = if sel.limit?.all (i < ·) then sorted[sel.offset?.getD 0 + i]? else none := by
  have h : PlainKeys orderBy.length rows := ⟨hlen, hplain⟩
  have hn : 0 + orderBy.length ≤ orderBy.length := by omega
  refine ⟨sortRows orderBy rows, sortLoop_eq hlen, sortFrom_perm .., ?_, ?_, fun sel i => slice_getElem? ..⟩
  · exact sortFrom_keysLe h hn
  · exact sortFrom_filter h hn

/-- `ORDER BY v ASC, id DESC` on a NULL, a text and two equal numbers. -/
theorem orderBy_sorts_mixed :
    let order : List OrderItem := [⟨.column "v" none, false⟩, ⟨.column "id" none, true⟩]
    let rows : List Projected :=
      [⟨[.int 1], [.int 7, .int 1]⟩, ⟨[.int 2], [.none, .int 2]⟩, ⟨[.int 3], [.int 7, .int 3]⟩, ⟨[.int 4], [.str "a", .int 4]⟩]
    ∃ sorted, sortLoop order rows = .ok sorted ∧ sorted.Perm rows ∧
      sorted.Pairwise (fun p q => KeysLe order p.keys q.keys) ∧
      (∀ ks, sorted.filter (fun p => p.keys = ks) = rows.filter fun p => p.keys = ks) ∧
      ∀ (sel : SelectStmt) (i : Nat),
        (slice sel sorted)[i]? = if sel.limit?.all (i < ·) then sorted[sel.offset?.getD 0 + i]? else none :=
  orderBy_sorts _ _ (by simp) (by simp [Value.Plain])

end LeafDb
