import LeafDb.Sql.Where

/-!
# What `_join` returns

Whatever the algorithm, the output of `_join` is a permutation of `joinSpec`: the matching pairs of the
left contexts and the right rows, then the unmatched left contexts and the unmatched right rows the join
type pads with `None`. A hash join restricts the pairs to those with equal keys.
-/

namespace LeafDb

/-! ### Hash tables keyed by values -/

/-- What a value is as a key of a `dict`: equal keys for equal values, none for a NaN. -/
inductive DictKey
  | none
  | str (s : String)
  | num (x : Ext)

namespace Value

def dictKey : Value → Option DictKey
  | none => some .none
  | str s => some (.str s)
  | bool b => some (.num (.fin (if b then 1 else 0)))
  | int i => some (.num (.fin i))
  | float .nan => .none
  | float (.inf n) => some (.num (.inf n))
  | float (.fin n m) => some (.num (.fin (PyFloat.signed n m)))

theorem pyEq_iff {a b : Value} : a.pyEq b = true ↔ ∃ k, a.dictKey = some k ∧ b.dictKey = some k := by
  rcases a with _ | a | a | (_ | a | ⟨a, a'⟩) | a <;> rcases b with _ | b | b | (_ | b | ⟨b, b'⟩) | b <;>
    simp [pyEq, ext, Ext.eq, dictKey, eq_comm]

theorem pyEq_trans {a b c : Value} (h : a.pyEq b = true) (h' : b.pyEq c = true) : a.pyEq c = true := by
  obtain ⟨k, ha, hb⟩ := pyEq_iff.1 h
  obtain ⟨k', hb', hc⟩ := pyEq_iff.1 h'
  rw [hb] at hb'
  cases hb'
  exact pyEq_iff.2 ⟨k, ha, hc⟩

end Value

namespace Buckets

variable {α : Type}

theorem get_add (d : Buckets α) (k : Value) (a : α) (k' : Value) :
    (d.add k a).get k' = if k.pyEq k' then d.get k' ++ [a] else d.get k' := by
  induction d with
  | nil => rcases hk : k.pyEq k' <;> simp [add, get, hk]
  | cons e d ih =>
    have hsymm : e.1.pyEq k = k.pyEq e.1 := Value.pyEq_symm _ _
    rw [add]
    by_cases hk : e.1.pyEq k = true
    · have hiff : e.1.pyEq k' = k.pyEq k' := by
        rw [Bool.eq_iff_iff]
        exact ⟨Value.pyEq_trans (hsymm ▸ hk), Value.pyEq_trans hk⟩
      rw [if_pos hk]
      simp only [get, List.find?_cons, hiff]
      rcases k.pyEq k' <;> simp
    · rw [if_neg hk]
      simp only [get, List.find?_cons] at ih ⊢
      rcases he : e.1.pyEq k' with _ | _
      · simpa using ih
      · have hkk : ¬ k.pyEq k' = true := fun h => hk (Value.pyEq_trans he (Value.pyEq_symm k k' ▸ h))
        simp [hkk]

end Buckets

/-- A probe finds the elements built in with an equal key, in order. -/
theorem probe_buildBuckets {α : Type} (pairs : List (Value × α)) (k : Value) :
    probe (buildBuckets pairs) k =
      (pairs.filter fun p => decide (p.1 ≠ .none) && (decide (k ≠ .none) && p.1.pyEq k)).map Prod.snd := by
  have hget : ∀ (pairs : List (Value × α)) (d : Buckets α),
      (pairs.foldl (fun d p => if p.1 = .none then d else d.add p.1 p.2) d).get k =
        d.get k ++ (pairs.filter fun p => decide (p.1 ≠ .none) && p.1.pyEq k).map Prod.snd := by
    intro pairs
    induction pairs with
    | nil => simp
    | cons p pairs ih =>
      intro d
      rw [List.foldl_cons, ih]
      by_cases hp : p.1 = .none
      · simp [hp]
      · rw [if_neg hp, Buckets.get_add]
        rcases hk : p.1.pyEq k <;> simp [hp, hk]
  rw [probe]
  split
  · rename_i hk
    simp [hk]
  · rename_i hk
    rw [buildBuckets, hget]
    simp [hk, Buckets.get]

/-! ### Filters and matches -/

theorem keepTrue_ok {α : Type} {test : α → Except PyError Value} {as out : List α} (h : keepTrue test as = .ok out) :
    out = as.filter fun a => decide (test a = .ok (.bool true)) := by
  induction as generalizing out with
  | nil =>
    cases h
    rfl
  | cons a as ih =>
    obtain ⟨v, hv, h⟩ := do_eq_ok.1 h
    obtain ⟨rest, hr, h⟩ := do_eq_ok.1 h
    obtain rfl := ih hr
    cases h
    by_cases hb : v = .bool true <;> simp [hv, hb]

section Spec

variable {lib : PyLib}

/-- The pairs a join algorithm looks at. -/
def candidate (lib : PyLib) (algo : JoinAlgo) (scope : Scope) (m : TableMeta) (parts : Parts) (r : Int × Row) : Bool :=
  match algo with
  | .nested => true
  | .hashRight equi => keysMatch equi
  | .hashLeft equi => keysMatch equi
where
  keysMatch (equi : EquiKey) : Bool :=
    match compileExpr lib scope [] false (.column equi.acc.2 equi.acc.1), m.columnIndex equi.new with
    | .ok acc, .ok nidx =>
      match acc parts none, r.2[nidx]? with
      | .ok k, some v => decide (v ≠ .none) && (decide (k ≠ .none) && v.pyEq k)
      | _, _ => false
    | _, _ => false

/-- The matching pairs, unmatched left contexts and unmatched right rows of a join. -/
def joinSpec (hit : Parts → Int × Row → Bool) (jtype : JoinType) (width : Nat) (left : List Parts)
    (right : List (Int × Row)) : List Parts :=
  (left.flatMap fun l => (right.filter (hit l)).map fun r => l ++ [some r.2]) ++
  (if jtype = .left ∨ jtype = .full then
    (left.filter fun l => right.all fun r => !hit l r).map fun l => l ++ [none] else []) ++
  (if jtype = .right ∨ jtype = .full then
    (right.filter fun r => left.all fun l => !hit l r).map fun r => List.replicate width none ++ [some r.2] else [])

theorem flatMap_swap {α β γ : Type} (as : List α) (bs : List β) (p : α → β → Bool) (f : α → β → γ) :
    (bs.flatMap fun b => (as.filter fun a => p a b).map fun a => f a b).Perm
      (as.flatMap fun a => (bs.filter (p a)).map (f a)) := by
  have hfilter : ∀ {δ : Type} (l : List δ) (q : δ → Bool) (g : δ → γ),
      (l.filter q).map g = l.flatMap fun x => if q x then [g x] else [] := by
    intro δ l q g
    induction l with
    | nil => rfl
    | cons x l ih => rcases hq : q x <;> simp [hq, ih]
  simp only [hfilter]
  rw [← Multiset.coe_eq_coe]
  simp only [← Multiset.coe_bind]
  exact Multiset.bind_bind _ _

/-- The hash table over right rows, filtered by key. -/
theorem filter_keyed_right {nidx : Nat} {right : List (Int × Row)} {keyed : List (Value × Int × Row)}
    (h : List.Forall₂ (fun (r : Int × Row) b => (match r.2[nidx]? with
      | some v => Except.ok (v, r)
      | none => .error PyError.indexError) = .ok b) right keyed) (p : Value → Bool) :
    (keyed.filter fun e => p e.1).map Prod.snd = right.filter fun r => (r.2[nidx]?.map p).getD false := by
  induction h with
  | nil => rfl
  | @cons r e right keyed hr _ ih =>
    rcases hv : r.2[nidx]? with _ | v
    · simp [hv] at hr
    · obtain rfl : (v, r) = e := by simpa [hv] using hr
      rcases hp : p v <;> simp [hp, hv, ih]

/-- The hash table over left contexts, filtered by key. -/
theorem filter_keyed_left {acc : Closure} {left : List (Nat × Parts)} {keyed : List (Value × Nat × Parts)}
    (h : List.Forall₂ (fun (l : Nat × Parts) b => (do return (← acc l.2 none, l)) = Except.ok b) left keyed)
    (p : Value → Bool) :
    (keyed.filter fun e => p e.1).map Prod.snd = left.filter fun l =>
      match acc l.2 none with
      | .ok k => p k
      | .error _ => false := by
  induction h with
  | nil => rfl
  | @cons l e left keyed hl _ ih =>
    obtain ⟨k, hk, hl⟩ := do_eq_ok.1 hl
    cases hl
    rcases hp : p k <;> simp [hp, hk, ih]

/-- The lists of a `mapM`, each known, one after the other. -/
theorem flatten_of_forall₂ {α β : Type} {f : α → Except PyError (List β)} {as : List α} {hits : List (List β)}
    (h : List.Forall₂ (fun a b => f a = .ok b) as hits) {g : α → List β}
    (hg : ∀ a ∈ as, ∀ b, f a = .ok b → b = g a) : hits.flatten = as.flatMap g := by
  induction h with
  | nil => rfl
  | @cons a b as hits ha _ ih =>
    rw [List.flatten_cons, List.flatMap_cons, hg a (by simp) b ha, ih fun a' ha' => hg a' (by simp [ha'])]

theorem candidates_perm {algo : JoinAlgo} {scope : Scope} {m : TableMeta} {left : List (Nat × Parts)}
    {right : List (Int × Row)} {cands : List Candidate} (h : candidates lib algo scope m left right = .ok cands) :
    cands.Perm (left.flatMap fun l => (right.filter (candidate lib algo scope m l.2)).map fun r => (l, r)) := by
  rcases algo with _ | equi | equi
  · cases h
    have hall : ∀ l : Nat × Parts, right.filter (candidate lib .nested scope m l.2) = right :=
      fun l => List.filter_eq_self.2 fun _ _ => rfl
    simp [hall]
  · obtain ⟨acc, hacc, h⟩ := do_eq_ok.1 h
    obtain ⟨nidx, hn, h⟩ := do_eq_ok.1 h
    obtain ⟨keyed, hk, h⟩ := do_eq_ok.1 h
    obtain ⟨hits, hh, h⟩ := do_eq_ok.1 h
    cases h
    refine .of_eq (flatten_of_forall₂ (mapM_eq_ok.1 hh) fun l _ b hb => ?_)
    obtain ⟨k, hk', hb⟩ := do_eq_ok.1 hb
    cases hb
    rw [probe_buildBuckets, filter_keyed_right (mapM_eq_ok.1 hk)
      fun v => decide (v ≠ .none) && (decide (k ≠ .none) && v.pyEq k)]
    congr 2
    funext r
    simp only [candidate, candidate.keysMatch, hacc, hn, hk']
    rcases r.2[nidx]? <;> rfl
  · obtain ⟨acc, hacc, h⟩ := do_eq_ok.1 h
    obtain ⟨nidx, hn, h⟩ := do_eq_ok.1 h
    obtain ⟨keyed, hk, h⟩ := do_eq_ok.1 h
    obtain ⟨hits, hh, h⟩ := do_eq_ok.1 h
    cases h
    refine .trans (.of_eq (flatten_of_forall₂ (mapM_eq_ok.1 hh) fun r _ b hb => ?_))
      (flatMap_swap left right (fun l r => candidate lib (.hashLeft equi) scope m l.2 r) fun l r => (l, r))
    rcases hv : r.2[nidx]? with _ | v
    · simp [hv] at hb
    · obtain rfl : (probe (buildBuckets keyed) v).map (fun l => (l, r)) = b := by simpa [hv] using hb
      rw [probe_buildBuckets, filter_keyed_left (mapM_eq_ok.1 hk)
        fun k => decide (k ≠ .none) && (decide (v ≠ .none) && k.pyEq v)]
      congr 2
      funext l
      simp only [candidate, candidate.keysMatch, hacc, hn, hv]
      rcases acc l.2 none with e | k
      · rfl
      · simp only [Value.pyEq_symm k v]
        rcases decide (k ≠ .none) <;> rcases decide (v ≠ .none) <;> rfl

/-- The pairs a join keeps. -/
def hits (lib : PyLib) (j : JoinPlan) (scope : Scope) (parts : Parts) (r : Int × Row) : Bool :=
  candidate lib j.algo scope j.table.tmeta parts r &&
    match compileExpr lib scope [] false j.on with
    | .ok onFn => decide (onFn (parts ++ [some r.2]) none = .ok (.bool true))
    | .error _ => false

theorem join_perm {left out : List Parts} {j : JoinPlan} {scope : Scope} (h : join lib left j scope = .ok out) :
    out.Perm (joinSpec (hits lib j scope) j.jtype (scope.sources.length - 1) left j.table.rows) := by
  obtain ⟨onFn, hon, h⟩ := do_eq_ok.1 h
  obtain ⟨cands, hc, h⟩ := do_eq_ok.1 h
  obtain ⟨kept, hk, h⟩ := do_eq_ok.1 h
  cases h
  obtain rfl := keepTrue_ok hk
  set numbered : List (Nat × Parts) := left.zipIdx.map fun p => (p.2, p.1) with hnum
  set kept := cands.filter fun c : Candidate => decide (onFn (c.1.2 ++ [some c.2.2]) none = .ok (.bool true)) with hkept
  have hperm : kept.Perm (numbered.flatMap fun l => (j.table.rows.filter (hits lib j scope l.2)).map fun r => (l, r)) := by
    refine ((candidates_perm hc).filter _).trans (.of_eq ?_)
    rw [List.filter_flatMap]
    congr 1
    funext l
    rw [List.filter_map, List.filter_filter]
    congr 2
    funext r
    simp only [Function.comp_def, hits, hon]
    exact Bool.and_comm _ _
  have hmem : ∀ c, c ∈ kept ↔ c.1 ∈ numbered ∧ c.2 ∈ j.table.rows ∧ hits lib j scope c.1.2 c.2 = true := by
    intro c
    rw [hperm.mem_iff, List.mem_flatMap]
    constructor
    · rintro ⟨l, hl, hc⟩
      obtain ⟨r, hr, rfl⟩ := List.mem_map.1 hc
      exact ⟨hl, List.mem_filter.1 hr⟩
    · rintro ⟨hl, hr⟩
      exact ⟨c.1, hl, List.mem_map.2 ⟨c.2, List.mem_filter.2 hr, rfl⟩⟩
  have hleft : numbered.map Prod.snd = left := by simp [hnum, Function.comp_def]
  have hfst : (numbered.map Prod.fst).Nodup := by
    rw [hnum, List.map_map]
    simpa [Function.comp_def] using List.nodup_range' (s := 0) (n := left.length)
  clear_value numbered
  have hpadL : (numbered.filter fun l => decide (l.1 ∉ kept.map fun c => c.1.1)).map (fun l => l.2 ++ [none]) =
      (left.filter fun l => j.table.rows.all fun r => !hits lib j scope l r).map fun l => l ++ [none] := by
    rw [← hleft, List.filter_map, List.map_map]
    refine congrArg (List.map fun l : Nat × Parts => l.2 ++ [none]) (List.filter_congr fun l hl => ?_)
    simp only [Function.comp_def]
    rw [Bool.eq_iff_iff, decide_eq_true_eq, List.all_eq_true]
    constructor
    · intro hn r hr
      rw [Bool.not_eq_true', ← Bool.not_eq_true]
      exact fun hh => hn (List.mem_map.2 ⟨(l, r), (hmem _).2 ⟨hl, hr, hh⟩, rfl⟩)
    · intro hall hm
      obtain ⟨c, hc, e⟩ := List.mem_map.1 hm
      obtain ⟨hcl, hcr, hh⟩ := (hmem c).1 hc
      rw [List.inj_on_of_nodup_map hfst hcl hl e] at hh
      simpa [hh] using hall c.2 hcr
  have hpadR : (j.table.rows.filter fun r => decide (r.1 ∉ kept.map fun c => c.2.1)) =
      j.table.rows.filter fun r => left.all fun l => !hits lib j scope l r := by
    refine List.filter_congr fun r hr => ?_
    rw [Bool.eq_iff_iff, decide_eq_true_eq, List.all_eq_true]
    constructor
    · intro hn l hl
      rw [← hleft] at hl
      obtain ⟨l', hl', rfl⟩ := List.mem_map.1 hl
      rw [Bool.not_eq_true', ← Bool.not_eq_true]
      exact fun hh => hn (List.mem_map.2 ⟨(l', r), (hmem _).2 ⟨hl', hr, hh⟩, rfl⟩)
    · intro hall hm
      obtain ⟨c, hc, e⟩ := List.mem_map.1 hm
      obtain ⟨hcl, hcr, hh⟩ := (hmem c).1 hc
      rw [List.inj_on_of_nodup_map j.table.nodup_rowids hcr hr e] at hh
      have hcl' : c.1.2 ∈ left := hleft ▸ List.mem_map_of_mem hcl
      simpa [hh] using hall c.1.2 hcl'
  have hout : (kept.map fun c => c.1.2 ++ [some c.2.2]).Perm
      (left.flatMap fun l => (j.table.rows.filter (hits lib j scope l)).map fun r => l ++ [some r.2]) := by
    refine (hperm.map _).trans (.of_eq ?_)
    rw [← hleft, List.map_flatMap, List.flatMap_map]
    congr 1
    funext l
    rw [List.map_map]
    rfl
  rw [joinSpec, ← hpadL, ← hpadR]
  exact (hout.append_right _).append_right _

end Spec

/-! ### Joins that return -/

section Returns

variable {lib : PyLib}

theorem returns_of_mapM {α β : Type} {f : α → Except PyError β} {as : List α} {bs : List β} (h : as.mapM f = .ok bs) {a : α}
    (ha : a ∈ as) : ∃ b, f a = .ok b := by
  obtain ⟨i, hi⟩ := List.mem_iff_getElem?.1 ha
  obtain ⟨b, -, hb⟩ := forall₂_getElem? (mapM_eq_ok.1 h) hi
  exact ⟨b, hb⟩

theorem keepTrue_returns {α : Type} {test : α → Except PyError Value} {as : List α} :
    (∃ out, keepTrue test as = .ok out) ↔ ∀ a ∈ as, ∃ v, test a = .ok v := by
  induction as with
  | nil => simp [keepTrue]
  | cons a as ih =>
    rw [List.forall_mem_cons, ← ih]
    constructor
    · rintro ⟨out, h⟩
      obtain ⟨v, hv, h⟩ := do_eq_ok.1 h
      obtain ⟨rest, hr, -⟩ := do_eq_ok.1 h
      exact ⟨⟨v, hv⟩, rest, hr⟩
    · rintro ⟨hv, hr⟩
      exact exists_do hv fun v _ => exists_do hr fun rest _ => ⟨_, rfl⟩

/-- The keys of the left contexts are all that a join algorithm evaluates. -/
theorem candidates_returns {algo : JoinAlgo} {scope : Scope} {m : TableMeta} {left left' : List (Nat × Parts)}
    {right : List (Int × Row)} (hsub : ∀ l ∈ left', ∃ k ∈ left, k.2 = l.2)
    (h : ∃ cands, candidates lib algo scope m left right = .ok cands) :
    ∃ cands, candidates lib algo scope m left' right = .ok cands := by
  obtain ⟨cands, h⟩ := h
  rcases algo with _ | equi | equi
  · exact ⟨_, rfl⟩
  · obtain ⟨acc, hacc, h⟩ := do_eq_ok.1 h
    obtain ⟨nidx, hn, h⟩ := do_eq_ok.1 h
    obtain ⟨keyed, hk, h⟩ := do_eq_ok.1 h
    obtain ⟨hits, hh, -⟩ := do_eq_ok.1 h
    refine exists_do ⟨acc, hacc⟩ fun acc' hacc' => exists_do ⟨nidx, hn⟩ fun nidx' hn' =>
      exists_do ⟨keyed, ?_⟩ fun keyed' _ => exists_do (exists_mapM fun l hl => ?_) fun _ _ => ⟨_, rfl⟩
    · cases hn.symm.trans hn'
      exact hk
    · cases hacc.symm.trans hacc'
      obtain ⟨k, hk, hkl⟩ := hsub l hl
      obtain ⟨b, hb⟩ := returns_of_mapM hh hk
      obtain ⟨v, hv, -⟩ := do_eq_ok.1 hb
      rw [← hkl]
      exact exists_do ⟨v, hv⟩ fun _ _ => ⟨_, rfl⟩
  · obtain ⟨acc, hacc, h⟩ := do_eq_ok.1 h
    obtain ⟨nidx, hn, h⟩ := do_eq_ok.1 h
    obtain ⟨keyed, hk, h⟩ := do_eq_ok.1 h
    obtain ⟨hits, hh, -⟩ := do_eq_ok.1 h
    refine exists_do ⟨acc, hacc⟩ fun acc' hacc' => exists_do ⟨nidx, hn⟩ fun nidx' hn' =>
      exists_do (exists_mapM fun l hl => ?_) fun keyed' _ => exists_do (exists_mapM fun r hr => ?_) fun _ _ => ⟨_, rfl⟩
    · cases hacc.symm.trans hacc'
      obtain ⟨k, hk', hkl⟩ := hsub l hl
      obtain ⟨b, hb⟩ := returns_of_mapM hk hk'
      obtain ⟨v, hv, -⟩ := do_eq_ok.1 hb
      rw [← hkl]
      exact exists_do ⟨v, hv⟩ fun _ _ => ⟨_, rfl⟩
    · cases hn.symm.trans hn'
      obtain ⟨b, hb⟩ := returns_of_mapM hh hr
      rcases hv : r.2[nidx]? with _ | v
      · simp [hv] at hb
      · exact ⟨_, rfl⟩

/-- A join of fewer left contexts evaluates nothing else. -/
theorem join_returns {left left' : List Parts} {j : JoinPlan} {scope : Scope} (hsub : left' ⊆ left)
    (h : ∃ out, join lib left j scope = .ok out) : ∃ out, join lib left' j scope = .ok out := by
  obtain ⟨out, h⟩ := h
  obtain ⟨onFn, hon, h⟩ := do_eq_ok.1 h
  obtain ⟨cands, hc, h⟩ := do_eq_ok.1 h
  obtain ⟨kept, hk, -⟩ := do_eq_ok.1 h
  have hnum (ls : List Parts) (l : Parts) : l ∈ ls ↔ ∃ i, (i, l) ∈ ls.zipIdx.map fun p => (p.2, p.1) := by
    have hls : (ls.zipIdx.map fun p => (p.2, p.1)).map Prod.snd = ls := by simp [Function.comp_def]
    conv_lhs => rw [← hls]
    simp
  refine exists_do ⟨onFn, hon⟩ fun onFn' hon' => exists_do (candidates_returns ?_ ⟨cands, hc⟩) fun cands' hc' =>
    exists_do (keepTrue_returns.2 fun c hcm => ?_) fun _ _ => ⟨_, rfl⟩
  · rintro ⟨i, l⟩ hl
    obtain ⟨i', hi'⟩ := (hnum _ _).1 (hsub ((hnum _ _).2 ⟨i, hl⟩))
    exact ⟨_, hi', rfl⟩
  · cases hon.symm.trans hon'
    rw [(candidates_perm hc').mem_iff, List.mem_flatMap] at hcm
    obtain ⟨⟨i, l⟩, hl, hcm⟩ := hcm
    obtain ⟨r, hr, rfl⟩ := List.mem_map.1 hcm
    obtain ⟨i', hi'⟩ := (hnum _ _).1 (hsub ((hnum _ _).2 ⟨i, hl⟩))
    have hmem : ((i', l), r) ∈ cands :=
      (candidates_perm hc).mem_iff.2 (List.mem_flatMap.2 ⟨(i', l), hi', List.mem_map.2 ⟨r, hr, rfl⟩⟩)
    exact keepTrue_returns.1 ⟨kept, hk⟩ ((i', l), r) hmem

end Returns

end LeafDb
