import LeafDb.Sql.Join

/-!
# Hash joins lose no pair (`_join`, `find_join_equi`)

The key of a hash join comes from one conjunct of ON, resolved by `find_join_equi` on its own terms. Where
it finds an owner, the scope of the join resolves the column to the same place (`resolve_owner`), so a pair
on which ON is `True` has equal keys that are not `None`, and every algorithm returns `joinSpec` of the
pairs on which ON is `True`.
-/

namespace LeafDb

/-! ### Owners and the scope -/

section Owner

variable {known : List (String × TableMeta)} {rlabel name a : String} {rmeta : TableMeta} {table : Option String}

/-- The scope of a join: the sources so far and the new table. -/
def joinScope (known : List (String × TableMeta)) (rlabel : String) (rmeta : TableMeta) : Scope :=
  ⟨known ++ [(rlabel, rmeta)], []⟩

theorem mem_of_lookup {sources : List (String × TableMeta)} {m : TableMeta} (h : sources.lookup a = some m) :
    (a, m) ∈ sources := by
  induction sources with
  | nil => cases h
  | cons e sources ih =>
    obtain ⟨b, mb⟩ := e
    rw [List.lookup_cons] at h
    split at h
    · rename_i hb
      obtain rfl := eq_of_beq hb
      cases h
      simp
    · exact List.mem_cons_of_mem _ (ih h)

/-- What `find_join_equi` says of the owner of a column. -/
theorem owner_mem (h : owner known rlabel rmeta name table = some a) :
    ∃ m, (a, m) ∈ known ++ [(rlabel, rmeta)] ∧ name ∈ m.colnames ∧
      (table = some a ∨ table = none ∧
        (known ++ [(rlabel, rmeta)]).filter (fun e => decide (name ∈ e.2.colnames)) = [(a, m)]) := by
  unfold owner at h
  split at h
  · rename_i t
    split at h
    · rename_i ht
      subst ht
      split at h
      · rename_i hn
        cases h
        exact ⟨rmeta, by simp, hn, .inl rfl⟩
      · cases h
    · split at h
      · rename_i m hm
        split at h
        · rename_i hn
          cases h
          exact ⟨m, List.mem_append_left _ (mem_of_lookup hm), hn, .inl rfl⟩
        · cases h
      · cases h
  · split at h
    · rename_i hit hf
      cases h
      have hm : hit ∈ (known ++ [(rlabel, rmeta)]).filter fun e => decide (name ∈ e.2.colnames) := by simp [hf]
      obtain ⟨hmem, hn⟩ := List.mem_filter.1 hm
      exact ⟨hit.2, hmem, by simpa using hn, .inr ⟨rfl, hf⟩⟩
    · cases h

/-- A name that one source has is a column of that source. -/
theorem hits_of_filter {sources : List (String × TableMeta)} {m : TableMeta} {k i j : Nat}
    (hf : sources.filter (fun e => decide (name ∈ e.2.colnames)) = [(a, m)]) (hi : sources[i]? = some (a, m))
    (hj : m.colnames.idxOf? name = some j) : Scope.hits name k sources = [(k + i, j)] := by
  have hnil : ∀ (sources : List (String × TableMeta)) (k : Nat),
      sources.filter (fun e => decide (name ∈ e.2.colnames)) = [] → Scope.hits name k sources = [] := by
    intro sources
    induction sources with
    | nil => exact fun _ _ => rfl
    | cons e sources ih =>
      intro k hf
      by_cases hn : name ∈ e.2.colnames
      · simp [hn] at hf
      · rw [Scope.hits, List.idxOf?_eq_none_iff.2 hn]
        exact ih _ (by simpa [hn] using hf)
  induction sources generalizing k i with
  | nil => simp at hf
  | cons e sources ih =>
    by_cases hn : name ∈ e.2.colnames
    · rw [List.filter_cons_of_pos (by simpa using hn), List.cons.injEq] at hf
      obtain ⟨rfl, hf⟩ := hf
      obtain rfl : i = 0 := by
        rcases i with _ | i
        · rfl
        · have hmem : (a, m) ∈ sources.filter fun e => decide (name ∈ e.2.colnames) :=
            List.mem_filter.2 ⟨List.mem_of_getElem? hi, by simpa using hn⟩
          rw [hf] at hmem
          cases hmem
      simp only [Scope.hits, hj, hnil _ _ hf, Nat.add_zero]
    · rw [List.filter_cons_of_neg (by simpa using hn)] at hf
      rcases i with _ | i
      · obtain rfl : e = (a, m) := by simpa using hi
        have hmem : (a, m) ∈ sources.filter fun e => decide (name ∈ e.2.colnames) := by simp [hf]
        exact absurd (by simpa using (List.mem_filter.1 hmem).2) hn
      · rw [Scope.hits, List.idxOf?_eq_none_iff.2 hn]
        simp only
        rw [ih hf (by simpa using hi), Nat.add_right_comm, Nat.add_assoc]

/-- The scope of the join resolves a column with an owner to a column of the owner, qualified or not. -/
theorem resolve_owner (hnd : ((known ++ [(rlabel, rmeta)]).map Prod.fst).Nodup)
    (h : owner known rlabel rmeta name table = some a) :
    ∃ i j m, (joinScope known rlabel rmeta).resolve name table = .ok (i, j) ∧
      (joinScope known rlabel rmeta).resolve name (some a) = .ok (i, j) ∧
      (known ++ [(rlabel, rmeta)])[i]? = some (a, m) ∧ m.colnames.idxOf? name = some j := by
  obtain ⟨m, hm, hn, htab⟩ := owner_mem h
  obtain ⟨i, hi⟩ := List.getElem?_of_mem hm
  obtain ⟨j, hj⟩ := Option.isSome_iff_exists.1 (List.isSome_idxOf?.2 hn)
  have hqual : (joinScope known rlabel rmeta).resolve name (some a) = .ok (i, j) := by
    have hidx : (known ++ [(rlabel, rmeta)]).findIdx? (·.1 = a) = some i := by
      obtain ⟨hlt, hget⟩ := List.getElem?_eq_some_iff.1 hi
      rw [List.findIdx?_eq_some_iff_getElem]
      refine ⟨hlt, by simp [hget], fun k hk => ?_⟩
      have hne : k ≠ i := hk.ne
      have hk' : k < (known ++ [(rlabel, rmeta)]).length := hk.trans hlt
      have hinj := (@List.Nodup.getElem_inj_iff _ _ hnd k (by simpa using hk') i (by simpa using hlt)).not.2 hne
      simp only [List.getElem_map, hget] at hinj
      simpa using hinj
    simp only [Scope.resolve, joinScope, hidx, hi, Option.bind_some, hj]
  refine ⟨i, j, m, ?_, hqual, hi, hj⟩
  rcases htab with rfl | ⟨rfl, hf⟩
  · exact hqual
  · simp only [Scope.resolve, joinScope, hits_of_filter (k := 0) hf hi hj, Nat.zero_add]

/-- The new table is the last source. -/
theorem index_of_new {i : Nat} {m : TableMeta} (hnd : ((known ++ [(rlabel, rmeta)]).map Prod.fst).Nodup)
    (hi : (known ++ [(rlabel, rmeta)])[i]? = some (a, m)) :
    (a = rlabel → i = known.length ∧ m = rmeta) ∧ (a ≠ rlabel → i < known.length ∧ known[i]? = some (a, m)) := by
  rw [List.map_append, List.map_singleton, List.nodup_append] at hnd
  rcases lt_trichotomy i known.length with hlt | rfl | hgt
  · rw [List.getElem?_append_left hlt] at hi
    refine ⟨fun ha => ?_, fun _ => ⟨hlt, hi⟩⟩
    subst ha
    exact absurd rfl (hnd.2.2 a (List.mem_map.2 ⟨_, List.mem_of_getElem? hi, rfl⟩) a (by simp))
  · simp only [List.getElem?_concat_length, Option.some.injEq, Prod.mk.injEq] at hi
    exact ⟨fun _ => ⟨rfl, hi.2.symm⟩, fun ha => absurd hi.1.symm ha⟩
  · rw [List.getElem?_eq_none (by simp; omega)] at hi
    cases hi

end Owner

/-- Where the key of a hash join comes from. -/
theorem findJoinEqui_some {known : List (String × TableMeta)} {rlabel : String} {rmeta : TableMeta} {conjs : List Expr}
    {equi : EquiKey} (h : findJoinEqui known rlabel rmeta conjs = some equi) :
    equi.acc.1 ≠ rlabel ∧ ∃ at' nt, owner known rlabel rmeta equi.acc.2 at' = some equi.acc.1 ∧
      owner known rlabel rmeta equi.new nt = some rlabel ∧
      (Expr.binop .eq (.column equi.acc.2 at') (.column equi.new nt) ∈ conjs ∨
        Expr.binop .eq (.column equi.new nt) (.column equi.acc.2 at') ∈ conjs) := by
  have hmono : ∀ {c : Expr} {rest : List Expr} {x y : Expr}, x ∈ rest ∨ y ∈ rest → x ∈ c :: rest ∨ y ∈ c :: rest :=
    fun h => h.imp (List.mem_cons_of_mem _) (List.mem_cons_of_mem _)
  induction conjs with
  | nil => cases h
  | cons c rest ih =>
    unfold findJoinEqui at h
    split at h
    · cases h
    · rename_i ln lt rn rt rest' e
      obtain ⟨rfl, rfl⟩ := List.cons.inj e
      split at h
      · rename_i lo ro hlo hro
        split at h
        · obtain ⟨hne, at', nt, h1, h2, h3⟩ := ih h
          exact ⟨hne, at', nt, h1, h2, hmono h3⟩
        · rename_i hlr
          split at h
          · rename_i hr
            cases h
            subst hr
            exact ⟨hlr, lt, rt, hlo, hro, .inl (by simp)⟩
          · rename_i hr
            split at h
            · rename_i hl
              cases h
              subst hl
              exact ⟨hr, rt, lt, hro, hlo, .inr (by simp)⟩
            · obtain ⟨hne, at', nt, h1, h2, h3⟩ := ih h
              exact ⟨hne, at', nt, h1, h2, hmono h3⟩
      · obtain ⟨hne, at', nt, h1, h2, h3⟩ := ih h
        exact ⟨hne, at', nt, h1, h2, hmono h3⟩
    · rename_i rest' _ e
      obtain ⟨-, rfl⟩ := List.cons.inj e
      obtain ⟨hne, at', nt, h1, h2, h3⟩ := ih h
      exact ⟨hne, at', nt, h1, h2, hmono h3⟩

/-! ### Left contexts -/

/-- A context has a row of the right width, or `None`, for each source. -/
def Fits (known : List (String × TableMeta)) (parts : Parts) : Prop :=
  List.Forall₂ (fun (src : String × TableMeta) (part : Option Row) =>
    ∀ row ∈ part, row.length = src.2.columns.length) known parts

theorem readCol_of_fits {known : List (String × TableMeta)} {parts : Parts} {i j : Nat} {a name : String} {m : TableMeta}
    (hf : Fits known parts) (hi : known[i]? = some (a, m)) (hj : m.colnames.idxOf? name = some j) :
    ∃ v, ∀ rest env, readCol i j (parts ++ rest) env = .ok v := by
  obtain ⟨part, hp, hw⟩ := forall₂_getElem? hf hi
  have happ : ∀ rest : Parts, (parts ++ rest)[i]? = some part := by
    intro rest
    rw [List.getElem?_append_left (List.getElem?_eq_some_iff.1 hp).1, hp]
  rcases part with _ | row
  · exact ⟨.none, fun rest env => by simp [readCol, happ]⟩
  · have hlt : j < row.length := by
      rw [hw row rfl]
      simpa [TableMeta.colnames] using (List.idxOf?_eq_some_iff.1 hj).1
    exact ⟨row[j], fun rest env => by simp [readCol, happ, List.getElem?_eq_getElem hlt]⟩

/-! ### The three algorithms -/

/-- The algorithm is one that the planner can choose for ON. -/
def JoinAlgo.For (known : List (String × TableMeta)) (rlabel : String) (rmeta : TableMeta) (on : Expr) : JoinAlgo → Prop
  | .nested => True
  | .hashRight equi => findJoinEqui known rlabel rmeta (flattenAnd on) = some equi
  | .hashLeft equi => findJoinEqui known rlabel rmeta (flattenAnd on) = some equi

/-- ON is `True` on a pair. -/
def onTrue (onFn : Closure) (parts : Parts) (r : Int × Row) : Bool :=
  decide (onFn (parts ++ [some r.2]) none = .ok (.bool true))

section Algorithms

variable {lib : PyLib} {known : List (String × TableMeta)} {rlabel : String} {t : Table} {on : Expr} {onFn : Closure}
  {equi : EquiKey} {left : List Parts}

/-- What a hash join reads: a value of each context and of each right row. On a pair where ON is `True` they
are equal and not `None`. -/
theorem key_values (hnd : ((known ++ [(rlabel, t.tmeta)]).map Prod.fst).Nodup)
    (hkey : findJoinEqui known rlabel t.tmeta (flattenAnd on) = some equi)
    (hon : compileExpr lib (joinScope known rlabel t.tmeta) [] false on = .ok onFn) :
    ∃ acc nidx, compileExpr lib (joinScope known rlabel t.tmeta) [] false (.column equi.acc.2 equi.acc.1) = .ok acc ∧
      t.tmeta.columnIndex equi.new = .ok nidx ∧ (∀ r ∈ t.rows, nidx < r.2.length) ∧
      ∀ parts, Fits known parts → ∃ k, acc parts none = .ok k ∧ ∀ r ∈ t.rows, onTrue onFn parts r = true →
        ∃ v, r.2[nidx]? = some v ∧ v ≠ .none ∧ k ≠ .none ∧ v.pyEq k = true := by
  obtain ⟨hne, at', nt, hacc, hnew, hmem⟩ := findJoinEqui_some hkey
  obtain ⟨i, j, m, hi1, hi2, hi3, hj⟩ := resolve_owner hnd hacc
  obtain ⟨-, hi⟩ := (index_of_new hnd hi3).2 hne
  obtain ⟨i', nidx, m', hn1, -, hn3, hnj⟩ := resolve_owner hnd hnew
  obtain ⟨rfl, rfl⟩ := (index_of_new hnd hn3).1 rfl
  have hwidth : ∀ r ∈ t.rows, nidx < r.2.length := by
    intro r hr
    rw [t.width r hr]
    simpa [TableMeta.colnames] using (List.idxOf?_eq_some_iff.1 hnj).1
  refine ⟨readCol i j, nidx, ?_, by rw [TableMeta.columnIndex, hnj], hwidth, fun parts hparts => ?_⟩
  · simp only [compileExpr, compileColumn, hi2]
  obtain ⟨k, hk⟩ := readCol_of_fits hparts hi hj
  refine ⟨k, by simpa using hk [] none, fun r hr htrue => ?_⟩
  have hlt := hwidth r hr
  refine ⟨r.2[nidx], List.getElem?_eq_getElem hlt, ?_⟩
  -- the conjunct of the key is true when ON is
  have hv : readCol known.length nidx (parts ++ [some r.2]) none = .ok r.2[nidx] := by
    have hlen := hparts.length_eq
    simp [readCol, hlen, List.getElem?_eq_getElem hlt]
  obtain ⟨fns, hfns, hflat⟩ := flatten_compile hon
  have hall := (hflat _ _ (of_decide_eq_true htrue)).truthy.1 rfl
  have hconj : ∀ {x y : Closure} {a b : Value} {f : Closure}, x (parts ++ [some r.2]) none = .ok a →
      y (parts ++ [some r.2]) none = .ok b → f = binopFn .eq x y →
      (∃ u, f (parts ++ [some r.2]) none = .ok u ∧ u.truthy = true) → a ≠ .none ∧ b ≠ .none ∧ a.pyEq b = true := by
    rintro x y a b f ha hb rfl ⟨u, hu, ht⟩
    simp only [binopFn, strictFn, ha, hb, bind, Except.bind] at hu
    split at hu
    · cases hu
      cases ht
    · rename_i hab
      rw [not_or] at hab
      cases hu
      exact ⟨hab.1, hab.2, by simpa [Value.eq_eq_pyEq, Value.truthy] using ht⟩
  rcases hmem with hc | hc
  · obtain ⟨n, hn⟩ := List.getElem?_of_mem hc
    obtain ⟨f, hf, hcf⟩ := forall₂_getElem? hfns hn
    simp only [compileExpr, compileColumn, hi1, hn1, bind, Except.bind, pure, Except.pure, Except.ok.injEq] at hcf
    obtain ⟨h1, h2, h3⟩ := hconj (hk _ none) hv hcf.symm (hall f (List.mem_of_getElem? hf))
    exact ⟨h2, h1, Value.pyEq_symm _ _ ▸ h3⟩
  · obtain ⟨n, hn⟩ := List.getElem?_of_mem hc
    obtain ⟨f, hf, hcf⟩ := forall₂_getElem? hfns hn
    simp only [compileExpr, compileColumn, hi1, hn1, bind, Except.bind, pure, Except.pure, Except.ok.injEq] at hcf
    exact hconj hv (hk _ none) hcf.symm (hall f (List.mem_of_getElem? hf))

theorem joinSpec_congr {hit hit' : Parts → Int × Row → Bool} {jtype : JoinType} {width : Nat} {right : List (Int × Row)}
    (h : ∀ l ∈ left, ∀ r ∈ right, hit l r = hit' l r) :
    joinSpec hit jtype width left right = joinSpec hit' jtype width left right := by
  rw [joinSpec, joinSpec]
  congr 2
  · exact List.flatMap_congr fun l hl => by rw [List.filter_congr fun r hr => h l hl r hr]
  · congr 1
    refine congrArg _ (List.filter_congr fun l hl => ?_)
    rw [Bool.eq_iff_iff, List.all_eq_true, List.all_eq_true]
    exact forall₂_congr fun r hr => by rw [h l hl r hr]
  · refine congrArg (List.map fun r : Int × Row => List.replicate width none ++ [some r.2]) (List.filter_congr fun r hr => ?_)
    rw [Bool.eq_iff_iff, List.all_eq_true, List.all_eq_true]
    exact forall₂_congr fun l hl => by rw [h l hl r hr]

/-- A hash join looks at every pair on which ON is `True`. -/
theorem candidate_of_onTrue (hnd : ((known ++ [(rlabel, t.tmeta)]).map Prod.fst).Nodup) {algo : JoinAlgo}
    (halgo : algo.For known rlabel t.tmeta on) (hon : compileExpr lib (joinScope known rlabel t.tmeta) [] false on = .ok onFn)
    {parts : Parts} (hfit : Fits known parts) {r : Int × Row} (hr : r ∈ t.rows) (htrue : onTrue onFn parts r = true) :
    candidate lib algo (joinScope known rlabel t.tmeta) t.tmeta parts r = true := by
  have hkeys : ∀ equi, findJoinEqui known rlabel t.tmeta (flattenAnd on) = some equi →
      candidate.keysMatch lib (joinScope known rlabel t.tmeta) t.tmeta parts r equi = true := by
    intro equi hkey
    obtain ⟨acc, nidx, hacc, hn, -, hread⟩ := key_values hnd hkey hon
    obtain ⟨k, hk, hrows⟩ := hread parts hfit
    obtain ⟨v, hv, h1, h2, h3⟩ := hrows r hr htrue
    simp [candidate.keysMatch, hacc, hn, hk, hv, h1, h2, h3]
  rcases algo with _ | equi | equi
  · rfl
  · exact hkeys equi halgo
  · exact hkeys equi halgo

theorem candidates_ok (hnd : ((known ++ [(rlabel, t.tmeta)]).map Prod.fst).Nodup) {algo : JoinAlgo}
    (halgo : algo.For known rlabel t.tmeta on) (hon : compileExpr lib (joinScope known rlabel t.tmeta) [] false on = .ok onFn)
    {numbered : List (Nat × Parts)} (hfit : ∀ l ∈ numbered, Fits known l.2) :
    ∃ cands, candidates lib algo (joinScope known rlabel t.tmeta) t.tmeta numbered t.rows = .ok cands := by
  rcases algo with _ | equi | equi
  · exact ⟨_, rfl⟩
  · obtain ⟨acc, nidx, hacc, hn, hwidth, hread⟩ := key_values hnd halgo hon
    refine exists_do ⟨acc, hacc⟩ fun acc' hacc' => exists_do ⟨nidx, hn⟩ fun nidx' hn' => ?_
    obtain rfl := Except.ok.inj (hacc.symm.trans hacc')
    obtain rfl := Except.ok.inj (hn.symm.trans hn')
    refine exists_do (exists_mapM fun r hr => ?_) fun keyed _ => exists_do (exists_mapM fun l hl => ?_) fun hits _ => ⟨_, rfl⟩
    · exact ⟨(r.2.get ⟨nidx, hwidth r hr⟩, r), by rw [List.getElem?_eq_getElem (hwidth r hr)]; rfl⟩
    · obtain ⟨k, hk, -⟩ := hread l.2 (hfit l hl)
      exact ⟨_, do_eq_ok.2 ⟨k, hk, rfl⟩⟩
  · obtain ⟨acc, nidx, hacc, hn, hwidth, hread⟩ := key_values hnd halgo hon
    refine exists_do ⟨acc, hacc⟩ fun acc' hacc' => exists_do ⟨nidx, hn⟩ fun nidx' hn' => ?_
    obtain rfl := Except.ok.inj (hacc.symm.trans hacc')
    obtain rfl := Except.ok.inj (hn.symm.trans hn')
    refine exists_do (exists_mapM fun l hl => ?_) fun keyed _ => exists_do (exists_mapM fun r hr => ?_) fun hits _ => ⟨_, rfl⟩
    · obtain ⟨k, hk, -⟩ := hread l.2 (hfit l hl)
      exact ⟨_, do_eq_ok.2 ⟨k, hk, rfl⟩⟩
    · exact ⟨_, by rw [List.getElem?_eq_getElem (hwidth r hr)]⟩

/-- Every algorithm of a join returns the pairs on which ON is `True`, and the unmatched rows the join type
asks for. -/
theorem join_computes (lib : PyLib) (known : List (String × TableMeta)) (rlabel : String) (t : Table) (jtype : JoinType)
    (on : Expr) (algo : JoinAlgo) (left : List Parts) (hnd : ((known ++ [(rlabel, t.tmeta)]).map Prod.fst).Nodup)
    (halgo : algo.For known rlabel t.tmeta on) (hfit : ∀ parts ∈ left, Fits known parts)
    (hon : compileExpr lib (joinScope known rlabel t.tmeta) [] false on = .ok onFn)
    (hok : ∀ parts ∈ left, ∀ r ∈ t.rows, ∃ v, onFn (parts ++ [some r.2]) none = .ok v) :
    ∃ out, join lib left ⟨jtype, t, rlabel, on, algo⟩ (joinScope known rlabel t.tmeta) = .ok out ∧
      out.Perm (joinSpec (onTrue onFn) jtype known.length left t.rows) := by
  have hnum : ∀ l ∈ left.zipIdx.map fun p => (p.2, p.1), l.2 ∈ left := by
    intro l hl
    obtain ⟨p, hp, rfl⟩ := List.mem_map.1 hl
    exact List.fst_mem_of_mem_zipIdx hp
  obtain ⟨cands, hcands⟩ := candidates_ok hnd halgo hon fun l hl => hfit _ (hnum l hl)
  have hkeep := keepTrue_eq (f := fun c : Candidate => onFn (c.1.2 ++ [some c.2.2]) none) (l := cands) fun c hc => by
    obtain ⟨l, hl, hc⟩ := List.mem_flatMap.1 ((candidates_perm hcands).mem_iff.1 hc)
    obtain ⟨r, hr, rfl⟩ := List.mem_map.1 hc
    exact hok _ (hnum l hl) r (List.mem_filter.1 hr).1
  have hjoin : ∃ out, join lib left ⟨jtype, t, rlabel, on, algo⟩ (joinScope known rlabel t.tmeta) = .ok out :=
    ⟨_, do_eq_ok.2 ⟨onFn, hon, do_eq_ok.2 ⟨cands, hcands, do_eq_ok.2 ⟨_, hkeep, rfl⟩⟩⟩⟩
  obtain ⟨out, hout⟩ := hjoin
  have hwidth : (joinScope known rlabel t.tmeta).sources.length - 1 = known.length := by simp [joinScope]
  refine ⟨out, hout, (join_perm hout).trans (.of_eq ?_)⟩
  rw [hwidth]
  refine joinSpec_congr fun l hl r hr => ?_
  rw [Bool.eq_iff_iff]
  simp only [hits, hon, Bool.and_eq_true]
  exact ⟨And.right, fun h => ⟨candidate_of_onTrue hnd halgo hon (hfit l hl) hr h, h⟩⟩

end Algorithms

/-- A table `t(a INT, b INT)` with the rows `(5, 1)` and `(7, 3)`. -/
def pairsTable : Table where
  tmeta := ⟨"t", [⟨"a", .int, false⟩, ⟨"b", .int, false⟩], 1, 2, 3, []⟩
  rows := [(1, [.int 5, .int 1]), (2, [.int 7, .int 3])]
  index := fun _ => none
  colnames_nodup := by decide
  ascending := by decide
  width := by decide
  pk_eq i h := by
    have hnone : TableMeta.pkIndex ⟨"t", [⟨"a", .int, false⟩, ⟨"b", .int, false⟩], 1, 2, 3, []⟩ = none := by decide
    rw [hnone] at h
    cases h
  index_agrees := by simp

/-- A FULL JOIN on equal `a` of `(5, 1)` and `(6, 2)` with that table: one pair, and a row of each side is padded. -/
theorem join_computes_padded :
    ∃ out, join plainLib [[some [.int 5, .int 1]], [some [.int 6, .int 2]]] ⟨.full, pairsTable, "u",
        .binop .eq (.column "a" (some "t")) (.column "a" (some "u")), .hashLeft ⟨("t", "a"), "a"⟩⟩
        (joinScope [("t", pairsTable.tmeta)] "u" pairsTable.tmeta) = .ok out ∧
      out.Perm [[some [.int 5, .int 1], some [.int 5, .int 1]], [some [.int 6, .int 2], none], [none, some [.int 7, .int 3]]] := by
  have hfit : ∀ parts ∈ [[some [.int 5, .int 1]], [some [.int 6, .int 2]]], Fits [("t", pairsTable.tmeta)] parts := by
    intro parts hp
    rcases List.mem_pair.1 hp with rfl | rfl <;> exact .cons (fun row hrow => by cases hrow; rfl) .nil
  have hok : ∀ parts ∈ [[some [.int 5, .int 1]], [some [.int 6, .int 2]]], ∀ r ∈ pairsTable.rows,
      ∃ v, binopFn .eq (readCol 0 0) (readCol 1 0) (parts ++ [some r.2]) none = .ok v := by
    intro parts hp r hr
    rcases List.mem_pair.1 hp with rfl | rfl <;> rcases List.mem_pair.1 hr with rfl | rfl
    · exact ⟨.bool true, by decide +kernel⟩
    all_goals exact ⟨.bool false, by decide +kernel⟩
  obtain ⟨out, hout, hperm⟩ := join_computes plainLib [("t", pairsTable.tmeta)] "u" pairsTable .full
    (.binop .eq (.column "a" (some "t")) (.column "a" (some "u"))) (.hashLeft ⟨("t", "a"), "a"⟩) _ (by decide) rfl hfit rfl hok
  exact ⟨out, hout, hperm.trans (.of_eq (by decide +kernel))⟩

end LeafDb
