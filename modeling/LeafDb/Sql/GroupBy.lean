import LeafDb.Base.Grouping
import LeafDb.Sql.OrderBy

/-!
# GROUP BY and the aggregates

`_aggregate` without HAVING, on keys that are NULL, integers or texts and aggregate arguments that are
integers or NULL: one unit for each key tuple, and in its environment each aggregate over the members of
the group (`aggregate_groups`).
-/

namespace LeafDb

/-! ### Keys -/

section Keys

variable {fns : List Closure} {parts : Parts}

/-- The values of the GROUP BY expressions on a row context. -/
def keyTuple (fns : List Closure) (parts : Parts) : List Value := fns.map fun fn => (fn parts none).toOption.getD .none

/-- Every GROUP BY expression is NULL, an integer or a text there. -/
def PlainOn (fns : List Closure) (parts : Parts) : Prop := ∀ fn ∈ fns, ∃ v, fn parts none = .ok v ∧ v.Plain

theorem PlainOn.keyTuple_plain (h : PlainOn fns parts) : ∀ v ∈ keyTuple fns parts, v.Plain := by
  intro v hv
  obtain ⟨fn, hfn, rfl⟩ := List.mem_map.1 hv
  obtain ⟨w, hw, hp⟩ := h fn hfn
  rw [hw]
  exact hp

theorem groupKey_eq (h : PlainOn fns parts) : groupKey fns parts = .ok ((keyTuple fns parts).map groupKeyValue) := by
  rw [groupKey, keyTuple, List.map_map, mapM_eq_ok, List.forall₂_map_right_iff, List.forall₂_same]
  intro fn hfn
  obtain ⟨v, hv, -⟩ := h fn hfn
  simp [hv, bind, Except.bind, pure, Except.pure, Except.toOption]

theorem groupKeyValue_eq {v w : Value} (hv : v.Plain) (hw : w.Plain) :
    (groupKeyValue v).eq (groupKeyValue w) = decide (v = w) := by
  cases v <;> cases w <;>
    simp_all [Value.Plain, groupKeyValue, GroupKeyValue.eq, Value.pyEq, Value.ext, Ext.eq]

/-- Tagged tuples are equal when the tuples are: NULL equals NULL, and a number is no text. -/
theorem groupKey_eq_iff {k k' : List Value} (hk : ∀ v ∈ k, v.Plain) (hk' : ∀ v ∈ k', v.Plain) :
    GroupKey.eq (k.map groupKeyValue) (k'.map groupKeyValue) = true ↔ k = k' := by
  induction k generalizing k' with
  | nil => cases k' <;> simp [GroupKey.eq]
  | cons v k ih =>
    rcases k' with _ | ⟨w, k'⟩
    · simp [GroupKey.eq]
    · have hv := hk v List.mem_cons_self
      have hw := hk' w List.mem_cons_self
      rw [List.map_cons, List.map_cons, GroupKey.eq, groupKeyValue_eq hv hw, Bool.and_eq_true, decide_eq_true_eq,
        ih (fun u hu => hk u (List.mem_cons_of_mem _ hu)) fun u hu => hk' u (List.mem_cons_of_mem _ hu), List.cons.injEq]

end Keys

/-! ### The grouping loop -/

/-- One round of the loop, on groups with the tuples `ks` as their keys. -/
theorem groups_add {ks : List (List Value)} {m : List Value → List Parts} {k : List Value} {parts : Parts}
    (hks : ∀ k' ∈ ks, ∀ v ∈ k', v.Plain) (hk : ∀ v ∈ k, v.Plain) (hnd : ks.Nodup) :
    Groups.add (k.map groupKeyValue) parts (ks.map fun k' => (k'.map groupKeyValue, m k')) =
      (ks.map fun k' => (k'.map groupKeyValue, if k = k' then m k' ++ [parts] else m k')) ++
        if k ∈ ks then [] else [(k.map groupKeyValue, [parts])] := by
  induction ks with
  | nil => simp [Groups.add]
  | cons k' ks ih =>
    obtain ⟨hk', hnd⟩ := List.nodup_cons.1 hnd
    have heq := groupKey_eq_iff (hks k' List.mem_cons_self) hk
    rw [List.map_cons, Groups.add]
    by_cases h : k' = k
    · -- the other groups stay
      subst h
      have hrest : (ks.map fun k'' => (k''.map groupKeyValue, if k' = k'' then m k'' ++ [parts] else m k'')) =
          ks.map fun k'' => (k''.map groupKeyValue, m k'') :=
        List.map_congr_left fun k'' hm => by rw [if_neg (ne_of_mem_of_not_mem hm hk').symm]
      rw [if_pos (heq.2 rfl), List.map_cons, if_pos rfl, hrest, if_pos List.mem_cons_self, List.append_nil]
    · have hmem : k ∈ k' :: ks ↔ k ∈ ks := by simp [Ne.symm h]
      rw [if_neg fun he => h (heq.1 he), ih (fun k'' hm => hks k'' (List.mem_cons_of_mem _ hm)) hnd, List.map_cons,
        if_neg (Ne.symm h), List.cons_append]
      simp only [hmem]

/-- The groups of a list of contexts. -/
def groupsOf (fns : List Closure) (contexts : List Parts) : Groups :=
  (Grouping.keys (keyTuple fns) contexts).map fun k => (k.map groupKeyValue, Grouping.members (keyTuple fns) contexts k)

theorem plain_of_mem_keys {fns : List Closure} {contexts : List Parts} (h : ∀ parts ∈ contexts, PlainOn fns parts)
    {k : List Value} (hk : k ∈ Grouping.keys (keyTuple fns) contexts) : ∀ v ∈ k, v.Plain := by
  obtain ⟨parts, hp, rfl⟩ := (Grouping.mem_keys _).1 hk
  exact (h parts hp).keyTuple_plain

/-- The loop groups each context behind the contexts before it. -/
theorem groupsOf_concat {fns : List Closure} {contexts : List Parts} {parts : Parts}
    (h : ∀ p ∈ contexts, PlainOn fns p) (hp : PlainOn fns parts) :
    Groups.add ((keyTuple fns parts).map groupKeyValue) parts (groupsOf fns contexts) = groupsOf fns (contexts ++ [parts]) := by
  have hmem : (∃ b ∈ contexts, keyTuple fns b = keyTuple fns parts) ↔
      keyTuple fns parts ∈ Grouping.keys (keyTuple fns) contexts := (Grouping.mem_keys _).symm
  rw [groupsOf, groups_add (fun k hk => plain_of_mem_keys h hk) hp.keyTuple_plain (Grouping.nodup_keys ..), groupsOf,
    Grouping.keys_concat]
  simp only [hmem, Grouping.members_concat]
  split
  · rw [List.append_nil]
  · rename_i hnew
    have hnone : Grouping.members (keyTuple fns) contexts (keyTuple fns parts) = [] := by
      refine List.filter_eq_nil_iff.2 fun b hb he => hnew (hmem.1 ⟨b, hb, of_decide_eq_true he⟩)
    rw [List.map_append, List.map_cons, List.map_nil, if_pos rfl, hnone, List.nil_append]

theorem groupContexts_eq {fns : List Closure} {contexts : List Parts} (hne : fns ≠ [])
    (h : ∀ parts ∈ contexts, PlainOn fns parts) : groupContexts fns contexts = .ok (groupsOf fns contexts) := by
  rw [groupContexts, if_neg (by simpa using hne)]
  suffices ∀ rest done : List Parts, (∀ parts ∈ done ++ rest, PlainOn fns parts) →
      rest.foldlM (fun gs parts => do return Groups.add (← groupKey fns parts) parts gs) (groupsOf fns done) =
        Except.ok (groupsOf fns (done ++ rest)) from this contexts [] h
  intro rest
  induction rest with
  | nil => exact fun done _ => by rw [List.append_nil]; rfl
  | cons parts rest ih =>
    intro done h
    have hdone : ∀ p ∈ done, PlainOn fns p := fun p hp => h p (List.mem_append_left _ hp)
    have hparts : PlainOn fns parts := h parts (by simp)
    rw [List.append_cons] at h ⊢
    rw [List.foldlM_cons, groupKey_eq hparts]
    simp only [bind, Except.bind, pure, Except.pure, groupsOf_concat hdone hparts]
    exact ih _ h

/-! ### Aggregates -/

/-- An integer or NULL. -/
def Value.IntOrNull : Value → Prop
  | .none => True
  | .int _ => True
  | _ => False

/-- The integers among the values of an argument on the members of a group. -/
def argInts (fn : Closure) (members : List Parts) : List Int :=
  members.filterMap fun parts =>
    match fn parts none with
    | .ok (.int i) => some i
    | _ => none

/-- The definition of COUNT, SUM, MIN and MAX over a group. -/
def aggregateOf (c : CompiledAgg) (members : List Parts) : Value :=
  match c.fn with
  | none => .int members.length
  | some fn =>
    let ints := if c.distinct then (argInts fn members).eraseDups else argInts fn members
    if c.name = "COUNT" then .int ints.length
    else if c.name = "SUM" then if ints = [] then .none else .int ints.sum
    else if c.name = "MIN" then ints.min?.elim .none .int
    else ints.max?.elim .none .int

/-- The arguments of an aggregate are integers or NULL on the contexts, and it is none of AVG's kind. -/
def CompiledAgg.Counts (c : CompiledAgg) (contexts : List Parts) : Prop :=
  ∀ fn, c.fn = some fn → c.name ∈ ["COUNT", "SUM", "MIN", "MAX"] ∧
    ∀ parts ∈ contexts, ∃ v, fn parts none = .ok v ∧ v.IntOrNull

theorem addValues_ints (total : Int) (ints : List Int) :
    addValues (.int total) (ints.map .int) = .ok (.int (total + ints.sum)) := by
  induction ints generalizing total with
  | nil => simp [addValues]
  | cons i ints ih =>
    have hstep : numericOp (Value.arith (· + ·) PyFloat.add) (.int total) (.int i) = .ok (.int (total + i)) := rfl
    rw [List.map_cons, addValues, hstep, List.sum_cons, ← add_assoc]
    exact ih (total + i)

/-- The values `f` makes are ordered as what it makes them of. -/
def OrderedBy {α : Type} [LinearOrder α] (f : α → Value) : Prop :=
  ∀ a b, (f a).orderCmp (f b) = .ok (if a < b then -1 else if b < a then 1 else 0)

theorem orderedBy_int : OrderedBy Value.int := by
  intro i j
  by_cases h : i < j <;> by_cases h' : j < i <;>
    simp [Value.orderCmp, Value.isStr, Value.pyLt, Value.ext, Ext.lt, h, h']

section Best

variable {α : Type} [LinearOrder α] {f : α → Value}

theorem bestValue_min (hf : OrderedBy f) (best : α) (as : List α) :
    bestValue "MIN" (f best) (as.map f) = .ok (f (as.foldl min best)) := by
  induction as generalizing best with
  | nil => rfl
  | cons a as ih =>
    have hbest : (if 0 < (if best < a then -1 else if a < best then (1 : Int) else 0) then f a else f best) =
        f (min best a) := by
      rcases lt_trichotomy best a with h | rfl | h
      · simp [h, h.le]
      · simp
      · simp [h, h.le, not_lt.2 h.le]
    rw [List.map_cons, bestValue, hf, List.foldl_cons, ← ih]
    simp [bind, Except.bind, hbest]

theorem bestValue_max (hf : OrderedBy f) (best : α) (as : List α) :
    bestValue "MAX" (f best) (as.map f) = .ok (f (as.foldl max best)) := by
  induction as generalizing best with
  | nil => rfl
  | cons a as ih =>
    have hbest : (if (if best < a then -1 else if a < best then (1 : Int) else 0) < 0 then f a else f best) =
        f (max best a) := by
      rcases lt_trichotomy best a with h | rfl | h
      · simp [h, h.le]
      · simp
      · simp [h, h.le, not_lt.2 h.le]
    rw [List.map_cons, bestValue, hf, List.foldl_cons, ← ih]
    simp [bind, Except.bind, hbest]

end Best

/-- `dict.fromkeys` keeps the first of equal integers. -/
theorem fromKeys_ints (ints : List Int) : fromKeys (ints.map .int) = ints.eraseDups.map .int := by
  induction ints using List.reverseRecOn with
  | nil => rfl
  | append_singleton ints i ih =>
    rw [fromKeys] at ih
    rw [fromKeys, List.map_append, List.foldl_append, ih, Grouping.eraseDups_concat]
    have hany : ((ints.eraseDups.map Value.int).any fun v => v.pyEq (.int i)) = decide (i ∈ ints) := by
      rw [List.any_map, Bool.eq_iff_iff, List.any_eq_true, decide_eq_true_eq]
      constructor
      · rintro ⟨j, hj, he⟩
        obtain rfl : j = i := by simpa [Value.pyEq, Value.ext, Ext.eq] using he
        exact List.mem_eraseDups.1 hj
      · exact fun h => ⟨i, List.mem_eraseDups.2 h, by simp [Value.pyEq, Value.ext, Ext.eq]⟩
    simp only [List.map_cons, List.map_nil, List.foldl_cons, List.foldl_nil, hany, decide_eq_true_eq]
    split <;> simp

/-- The values of an argument that are not `None`. -/
theorem argValues_eq {fn : Closure} {members : List Parts}
    (h : ∀ parts ∈ members, ∃ v, fn parts none = .ok v ∧ v.IntOrNull) :
    ∃ vs, (members.mapM fun parts => fn parts none) = Except.ok vs ∧
      vs.filter (fun v => decide (v ≠ .none)) = (argInts fn members).map .int := by
  induction members with
  | nil => exact ⟨[], rfl, rfl⟩
  | cons parts members ih =>
    obtain ⟨vs, hvs, hf⟩ := ih fun p hp => h p (List.mem_cons_of_mem _ hp)
    obtain ⟨v, hv, hi⟩ := h parts List.mem_cons_self
    refine ⟨v :: vs, ?_, ?_⟩
    · rw [List.mapM_cons, hv, hvs]
      rfl
    · rw [argInts] at hf ⊢
      cases v with
      | none => simpa [hv] using hf
      | int i => simpa [hv] using hf
      | _ => exact hi.elim

theorem accumulate_ints {name : String} (h : name ∈ ["COUNT", "SUM", "MIN", "MAX"]) (ints : List Int) :
    accumulate name (ints.map .int) = .ok (if name = "COUNT" then .int ints.length
      else if name = "SUM" then if ints = [] then .none else .int ints.sum
      else if name = "MIN" then ints.min?.elim .none .int else ints.max?.elim .none .int) := by
  have hcases : name = "COUNT" ∨ name = "SUM" ∨ name = "MIN" ∨ name = "MAX" := by simpa using h
  rcases ints with _ | ⟨i, ints⟩
  · rcases hcases with rfl | rfl | rfl | rfl <;> rfl
  · rcases hcases with rfl | rfl | rfl | rfl
    · simp [accumulate]
    · simp [accumulate, addValues_ints]
    · simp [accumulate, bestValue_min orderedBy_int, List.min?_cons', -List.min?_cons]
    · simp [accumulate, bestValue_max orderedBy_int, List.max?_cons', -List.max?_cons]

/-- Each aggregate of a group is its definition. -/
theorem CompiledAgg.value_eq {c : CompiledAgg} {members : List Parts} (h : c.Counts members) :
    c.value members = .ok (aggregateOf c members) := by
  obtain ⟨id, name, fn, distinct⟩ := c
  rcases fn with _ | fn
  · rfl
  · obtain ⟨hname, hargs⟩ := h fn rfl
    obtain ⟨vs, hvs, hints⟩ := argValues_eq hargs
    simp only [CompiledAgg.value, hvs, bind, Except.bind, hints, aggregateOf]
    rcases distinct with _ | _
    · exact accumulate_ints hname _
    · simp only [if_true, fromKeys_ints]
      exact accumulate_ints hname _

/-! ### Units -/

section Units

variable {lib : PyLib} {sel : SelectStmt} {scope : Scope} {aggs : List CompiledAgg} {contexts : List Parts}

theorem compileAgg_id {f : AggCall} {c : CompiledAgg} (h : compileAgg lib scope f = .ok c) : c.id = f.id := by
  rw [compileAgg] at h
  split at h
  · cases h
    rfl
  · split at h
    · cases h
    · obtain ⟨fn, -, h⟩ := do_eq_ok.1 h
      cases h
      rfl

/-- `func_nodes` holds each node once. -/
theorem aggIds_nodup (h : sel.aggCalls.mapM (compileAgg lib scope) = .ok aggs) : (aggs.map CompiledAgg.id).Nodup := by
  have hcalls : (sel.aggCalls.map AggCall.id).Nodup := List.pairwise_map.2 (List.pairwise_pwFilter _)
  have hids : sel.aggCalls.map AggCall.id = aggs.map CompiledAgg.id := by
    rw [← List.forall₂_eq_eq_eq, List.forall₂_map_left_iff, List.forall₂_map_right_iff]
    exact (mapM_eq_ok.1 h).imp fun f c hc => (compileAgg_id hc).symm
  rwa [← hids]

/-- The environment of a group. -/
def groupEnv (aggs : List CompiledAgg) (members : List Parts) : AggEnv :=
  some fun id => (aggs.map fun c => (c.id, aggregateOf c members)).lookup id

theorem aggEnv_eq {members : List Parts} (h : ∀ c ∈ aggs, c.Counts members) :
    aggEnv aggs members = .ok (groupEnv aggs members) := by
  have hvalues : (aggs.mapM fun c => do return (c.id, ← c.value members)) =
      Except.ok (aggs.map fun c => (c.id, aggregateOf c members)) := by
    rw [mapM_eq_ok, List.forall₂_map_right_iff, List.forall₂_same]
    intro c hc
    rw [CompiledAgg.value_eq (h c hc)]
    rfl
  rw [aggEnv, hvalues]
  rfl

theorem lookup_map_of_nodup {f : CompiledAgg → Value} {c : CompiledAgg} (hnd : (aggs.map CompiledAgg.id).Nodup)
    (hc : c ∈ aggs) : (aggs.map fun c => (c.id, f c)).lookup c.id = some (f c) := by
  induction aggs with
  | nil => simp at hc
  | cons a aggs ih =>
    rw [List.map_cons, List.nodup_cons] at hnd
    rw [List.map_cons, List.lookup_cons]
    rcases List.mem_cons.1 hc with rfl | hc
    · simp
    · have hne : c.id ≠ a.id := fun he => hnd.1 (he ▸ List.mem_map_of_mem hc)
      rw [beq_false_of_ne hne]
      exact ih hnd.2 hc

/-- The key tuples of the units: one, the empty tuple, without GROUP BY. -/
def unitKeys (fns : List Closure) (contexts : List Parts) : List (List Value) :=
  if fns = [] then [[]] else Grouping.keys (keyTuple fns) contexts

/-- The unit of a group; without a member it is represented by no row at all. -/
def groupUnit (scope : Scope) (aggs : List CompiledAgg) (members : List Parts) : SelectUnit :=
  ⟨members.head?.getD (List.replicate scope.sources.length none), members, groupEnv aggs members⟩

theorem members_nil (contexts : List Parts) : Grouping.members (keyTuple []) contexts [] = contexts :=
  List.filter_eq_self.2 fun _ _ => decide_eq_true rfl

theorem unitKeys_groups {fns : List Closure} (h : ∀ parts ∈ contexts, PlainOn fns parts) :
    groupContexts fns contexts = .ok ((unitKeys fns contexts).map fun k =>
      (k.map groupKeyValue, Grouping.members (keyTuple fns) contexts k)) := by
  by_cases hne : fns = []
  · subst hne
    simp [groupContexts, unitKeys, members_nil]
  · rw [groupContexts_eq hne h, unitKeys, if_neg hne, groupsOf]

theorem unitKeys_nodup (fns : List Closure) (contexts : List Parts) : (unitKeys fns contexts).Nodup := by
  rw [unitKeys]
  split
  · exact List.nodup_singleton _
  · exact Grouping.nodup_keys ..

/-- The members of the units partition the contexts. -/
theorem unitKeys_perm (fns : List Closure) (contexts : List Parts) :
    ((unitKeys fns contexts).flatMap (Grouping.members (keyTuple fns) contexts)).Perm contexts := by
  by_cases hne : fns = []
  · subst hne
    simp [unitKeys, members_nil]
  · rw [unitKeys, if_neg hne]
    exact Grouping.flatMap_members_perm ..

theorem CompiledAgg.Counts.members {c : CompiledAgg} (h : c.Counts contexts) (fns : List Closure) (k : List Value) :
    c.Counts (Grouping.members (keyTuple fns) contexts k) := fun fn hfn =>
  ⟨(h fn hfn).1, fun parts hp => (h fn hfn).2 parts (List.mem_of_mem_filter hp)⟩

theorem aggregate_eq {fns : List Closure} (hhaving : sel.having? = none)
    (haggs : sel.aggCalls.mapM (compileAgg lib scope) = .ok aggs)
    (hfns : sel.groupBy.mapM (compileExpr lib scope [] false) = .ok fns)
    (hplain : ∀ parts ∈ contexts, PlainOn fns parts) (hargs : ∀ c ∈ aggs, c.Counts contexts) :
    aggregate lib sel scope contexts = .ok ((unitKeys fns contexts).map fun k =>
      groupUnit scope aggs (Grouping.members (keyTuple fns) contexts k)) := by
  have hunits : (((unitKeys fns contexts).map fun k =>
      (k.map groupKeyValue, Grouping.members (keyTuple fns) contexts k)).mapM fun g => do
        let env ← aggEnv aggs g.2
        return some (⟨g.2.head?.getD (List.replicate scope.sources.length none), g.2, env⟩ : SelectUnit)) =
      Except.ok ((unitKeys fns contexts).map fun k =>
        some (groupUnit scope aggs (Grouping.members (keyTuple fns) contexts k))) := by
    rw [mapM_eq_ok, List.forall₂_map_left_iff, List.forall₂_map_right_iff, List.forall₂_same]
    intro k _
    simp only [aggEnv_eq fun c hc => (hargs c hc).members fns k]
    rfl
  rw [aggregate, haggs, hfns, hhaving]
  simp only [bind, Except.bind, Option.mapM_none, pure, Except.pure, unitKeys_groups hplain] at hunits ⊢
  rw [hunits]
  simp [List.filterMap_map]

end Units

/-- `_aggregate` without HAVING: a unit for each key tuple in the order of first appearance, its members the
contexts with that tuple, in their order, and each aggregate its definition over the members. -/
theorem aggregate_groups {lib : PyLib} {sel : SelectStmt} {scope : Scope} {contexts : List Parts}
    {aggs : List CompiledAgg} {fns : List Closure} (hhaving : sel.having? = none)
    (haggs : sel.aggCalls.mapM (compileAgg lib scope) = .ok aggs)
    (hfns : sel.groupBy.mapM (compileExpr lib scope [] false) = .ok fns)
    (hplain : ∀ parts ∈ contexts, PlainOn fns parts) (hargs : ∀ c ∈ aggs, c.Counts contexts) :
    let keys := if sel.groupBy = [] then [[]] else Grouping.keys (keyTuple fns) contexts
    let members := Grouping.members (keyTuple fns) contexts
    ∃ units, aggregate lib sel scope contexts = .ok units ∧
      List.Forall₂ (fun u k => u.rowsCtx = some (members k) ∧
        u.parts = (members k).head?.getD (List.replicate scope.sources.length none) ∧
        ∀ c ∈ aggs, u.aggEnv.bind (· c.id) = some (aggregateOf c (members k))) units keys ∧
      keys.Nodup ∧ (keys.flatMap members).Perm contexts ∧
      ∀ c ∈ aggs, c.fn = none → ∃ counts : List Nat,
        units.map (fun u => u.aggEnv.bind (· c.id)) = counts.map (fun n => some (.int n)) ∧ counts.sum = contexts.length := by
  intro keys members
  have hempty : sel.groupBy = [] ↔ fns = [] := by
    rw [← List.length_eq_zero_iff, (mapM_eq_ok.1 hfns).length_eq, List.length_eq_zero_iff]
  have hkeys : unitKeys fns contexts = keys := if_congr hempty.symm rfl rfl
  have hperm : (keys.flatMap members).Perm contexts := hkeys ▸ unitKeys_perm fns contexts
  have henv (k : List Value) : ∀ c ∈ aggs, (groupEnv aggs (members k)).bind (· c.id) = some (aggregateOf c (members k)) :=
    fun c hc => lookup_map_of_nodup (aggIds_nodup haggs) hc
  refine ⟨_, hkeys ▸ aggregate_eq hhaving haggs hfns hplain hargs, ?_, hkeys ▸ unitKeys_nodup fns contexts, hperm,
    fun c hc hstar => ?_⟩
  · rw [List.forall₂_map_left_iff, List.forall₂_same]
    exact fun k _ => ⟨rfl, rfl, henv k⟩
  · refine ⟨keys.map fun k => (members k).length, ?_, ?_⟩
    · rw [List.map_map, List.map_map]
      refine List.map_congr_left fun k _ => (henv k c hc).trans ?_
      rw [aggregateOf, hstar]
      rfl
    · rw [← hperm.length_eq, List.length_flatMap]

/-- `SELECT COUNT(*), SUM(v) FROM t GROUP BY k` over three rows, two of them with the same `k`. -/
theorem aggregate_groups_two :
    let m : TableMeta := ⟨"t", [⟨"k", .int, false⟩, ⟨"v", .int, false⟩], 1, 3, 4, []⟩
    let items := [.expr (.func 0 "COUNT" none true false) "n", .expr (.func 1 "SUM" (some (.column "v" none)) false false) "s"]
    let sel : SelectStmt := ⟨⟨"t", none, [], none⟩, false, items, [.column "k" none], none, [], none, none⟩
    let ones := [[some [.int 1, .int 5]], [some [.int 1, .none]]]
    let contexts := [[some [.int 1, .int 5]], [some [.none, .int 7]], [some [.int 1, .none]]]
    ∃ u v, aggregate ⟨fun _ => "", fun _ _ => false⟩ sel ⟨[("t", m)], []⟩ contexts = .ok [u, v] ∧
      u.rowsCtx = some ones ∧ u.aggEnv.bind (· 0) = some (.int 2) ∧ u.aggEnv.bind (· 1) = some (.int 5) ∧
      v.rowsCtx = some [[some [.none, .int 7]]] ∧ v.aggEnv.bind (· 0) = some (.int 1) ∧ v.aggEnv.bind (· 1) = some (.int 7) := by
  intro m items sel ones contexts
  obtain ⟨units, hunits, hkeys, -⟩ := @aggregate_groups ⟨fun _ => "", fun _ _ => false⟩ sel ⟨[("t", m)], []⟩ contexts
    [⟨0, "COUNT", none, false⟩, ⟨1, "SUM", some (readCol 0 1), false⟩] [readCol 0 0] rfl rfl rfl
    (by simp [contexts, PlainOn, readCol, Value.Plain])
    (by simp [contexts, CompiledAgg.Counts, readCol, Value.IntOrNull])
  have hks : Grouping.keys (keyTuple [readCol 0 0]) contexts = [[.int 1], [.none]] := by decide
  have hones : Grouping.members (keyTuple [readCol 0 0]) contexts [.int 1] = ones := by decide
  have hnull : Grouping.members (keyTuple [readCol 0 0]) contexts [.none] = [[some [.none, .int 7]]] := by decide
  rw [if_neg (by simp [sel]), hks] at hkeys
  obtain ⟨u, us, hu, hus, rfl⟩ := List.forall₂_cons_right_iff.1 hkeys
  obtain ⟨v, vs, hv, hvs, rfl⟩ := List.forall₂_cons_right_iff.1 hus
  obtain rfl := List.forall₂_nil_right_iff.1 hvs
  rw [hones] at hu
  rw [hnull] at hv
  exact ⟨u, v, hunits, hu.1, hu.2.2 ⟨0, "COUNT", none, false⟩ (by simp), hu.2.2 ⟨1, "SUM", some (readCol 0 1), false⟩ (by simp),
    hv.1, hv.2.2 ⟨0, "COUNT", none, false⟩ (by simp), hv.2.2 ⟨1, "SUM", some (readCol 0 1), false⟩ (by simp)⟩

end LeafDb
